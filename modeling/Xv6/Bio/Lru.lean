import Xv6.Bio.Cache

/-!
# The ring of buffers

The links always form one ring of `bcache.head` and all buffers, ordered by the time at which a buffer
was last free: the first loop of `bget` therefore finds a cached block, and the second one the free
buffer whose `refcnt` fell to 0 longest ago.
-/

namespace Xv6

open Function

namespace Bcache

section Order

variable {N : Nat} {P α : Type} {dev : Nat} {s : Bcache N P α} {b : Fin N} {k : Nat}

/-- The buffers in the order of the ring, from `bcache.head.next` on. -/
structure Order (s : Bcache N P α) (l : List (Fin N)) : Prop where
  ring : DList.Ring s.links none (l.map some)
  all : ∀ b, b ∈ l
  sorted : l.Pairwise fun b c => s.freed c ≤ s.freed b
  past : ∀ b, s.freed b ≤ s.clock

variable {l : List (Fin N)}

theorem Order.nodup (h : Order s l) : l.Nodup :=
  List.Nodup.of_map _ (List.nodup_cons.mp h.ring.nodup).2

theorem Order.length_eq (h : Order s l) : l.length = N := by
  have : l.Perm (List.finRange N) :=
    (List.perm_ext_iff_of_nodup h.nodup (List.nodup_finRange N)).mpr fun b => by simp [h.all b]
  simpa using this.length_eq

theorem Order.cached_eq (h : Order s l) :
    s.cached dev k = l.find? fun b => (s.buf b).dev == dev && (s.buf b).blockno == k := by
  rw [cached, h.ring.find_next (by simp [h.length_eq]), List.find?_map]
  rw [show s.isBlock dev k ∘ some = fun b => (s.buf b).dev == dev && (s.buf b).blockno == k from rfl]
  cases l.find? _ <;> rfl

theorem Order.unused_eq (h : Order s l) :
    s.unused = l.reverse.find? fun b => (s.buf b).refcnt == 0 := by
  rw [unused, h.ring.find_prev (by simp [h.length_eq]), ← List.map_reverse, List.find?_map]
  rw [show s.isFree ∘ some = fun b => (s.buf b).refcnt == 0 from rfl]
  cases l.reverse.find? _ <;> rfl

theorem Order.cached_some (h : Order s l) (hb : s.cached dev k = some b) :
    (s.buf b).dev = dev ∧ (s.buf b).blockno = k := by
  rw [h.cached_eq] at hb
  simpa using List.find?_some hb

theorem Order.cached_none (h : Order s l) (hn : s.cached dev k = none) (b : Fin N) :
    ¬((s.buf b).dev = dev ∧ (s.buf b).blockno = k) := by
  rw [h.cached_eq, List.find?_eq_none] at hn
  simpa using hn b (h.all b)

theorem Order.unused_some (h : Order s l) (hb : s.unused = some b) :
    (s.buf b).refcnt = 0 ∧ ∀ c, (s.buf c).refcnt = 0 → s.freed b ≤ s.freed c := by
  rw [h.unused_eq, List.find?_eq_some_iff_append] at hb
  obtain ⟨hfree, u, v, hl, hu⟩ := hb
  have hsorted : l.reverse.Pairwise fun b c => s.freed b ≤ s.freed c :=
    List.pairwise_reverse.mpr h.sorted
  refine ⟨by simpa using hfree, fun c hc => ?_⟩
  have hmem : c ∈ u ++ b :: v := by simp [← hl, h.all c]
  rcases List.mem_append.mp hmem with hcu | hcv
  · simpa [hc] using hu c hcu
  · rw [hl] at hsorted
    rcases List.mem_cons.mp hcv with rfl | hcv
    · exact le_rfl
    · exact (List.pairwise_cons.mp (List.pairwise_append.mp hsorted).2.1).1 c hcv

end Order

end Bcache

/-- What a step can do to the cache. -/
inductive Bcache.Step {N : Nat} {P α : Type} [DecidableEq P] (dev : Nat) (s : Bcache N P α) :
    BioAct N P α → Bcache N P α → Prop
  | hit {p : P} {k : Nat} {b : Fin N} : s.pos p = .out → s.cached dev k = some b →
      Step dev s (.bread p k)
        ((s.setBuf b { s.buf b with refcnt := (s.buf b).refcnt + 1 }).goto p (.wait b k))
  | recycle {p : P} {k : Nat} {b : Fin N} : s.pos p = .out → s.cached dev k = none →
      s.unused = some b →
      Step dev s (.bread p k) ((s.setBuf b { s.buf b with
        dev := dev
        blockno := k
        valid := false
        refcnt := 1 }).goto p (.wait b k))
  | lock {p : P} {k : Nat} {b : Fin N} : s.pos p = .wait b k → (s.buf b).lock = none →
      Step dev s (.acquiresleep p)
        ((s.setBuf b { s.buf b with lock := some p }).goto p (.fill b k))
  | fillValid {p : P} {k : Nat} {b : Fin N} : s.pos p = .fill b k → (s.buf b).valid = true →
      Step dev s (.fill p) (s.goto p .out)
  | fillRead {p : P} {k : Nat} {b : Fin N} : s.pos p = .fill b k → (s.buf b).valid = false →
      Step dev s (.fill p) ((s.setBuf b { s.buf b with
        data := s.disk (s.buf b).blockno
        valid := true }).goto p .out)
  | modify {p : P} {b : Fin N} {x : α} : s.pos p = .out → (s.buf b).lock = some p →
      Step dev s (.modify p b x) { s.setBuf b { s.buf b with data := x } with
        contents := update s.contents (s.buf b).blockno x
        dirty := update s.dirty b true }
  | bwrite {p : P} {b : Fin N} : s.pos p = .out → (s.buf b).lock = some p →
      Step dev s (.bwrite p b) { s with
        disk := update s.disk (s.buf b).blockno (s.buf b).data
        dirty := update s.dirty b false }
  | brelse {p : P} {b : Fin N} : s.pos p = .out → (s.buf b).lock = some p →
      Step dev s (.brelse p b) ((s.setBuf b { s.buf b with lock := none }).goto p (.relse b))
  | dropFree {p : P} {b : Fin N} : s.pos p = .relse b → (s.buf b).refcnt - 1 = 0 →
      Step dev s (.drop p)
        { (s.setBuf b { s.buf b with refcnt := (s.buf b).refcnt - 1 }).goto p .out with
          links := (s.links.unlink (some b)).insertAfter none (some b)
          clock := s.clock + 1
          freed := update s.freed b (s.clock + 1) }
  | dropKeep {p : P} {b : Fin N} : s.pos p = .relse b → (s.buf b).refcnt - 1 ≠ 0 →
      Step dev s (.drop p)
        ((s.setBuf b { s.buf b with refcnt := (s.buf b).refcnt - 1 }).goto p .out)
  | bpin {p : P} {b : Fin N} : s.pos p = .out → (s.buf b).dev = dev →
      Step dev s (.bpin p b) { s.setBuf b { s.buf b with refcnt := (s.buf b).refcnt + 1 } with
        pins := update s.pins b (s.pins b + 1) }
  | bunpin {p : P} {b : Fin N} : s.pos p = .out →
      Step dev s (.bunpin p b) { s.setBuf b { s.buf b with refcnt := (s.buf b).refcnt - 1 } with
        pins := update s.pins b (s.pins b - 1) }

namespace Bcache

variable {N : Nat} {P α : Type} [DecidableEq P] {dev : Nat} {s t : Bcache N P α} {a : BioAct N P α}
  {b c : Fin N} {k : Nat} {l : List (Fin N)}

theorem step_cases (h : step dev s a = some t) : Step dev s a t := by
  cases a with simp only [step] at h
  | bread p k =>
    simp only [bget] at h
    split_ifs at h with hp
    split at h
    case h_1 b hb =>
      cases h
      exact .hit hp hb
    case h_2 hn =>
      split at h
      case h_1 b hb =>
        cases h
        exact .recycle hp hn hb
      case h_2 => cases h
  | acquiresleep p =>
    split at h
    case h_1 b k hp =>
      split_ifs at h with hl
      cases h
      exact .lock hp hl
    case h_2 => cases h
  | fill p =>
    split at h
    case h_1 b k hp =>
      cases h
      unfold fill
      split
      case isTrue hv => exact .fillValid hp hv
      case isFalse hv => exact .fillRead hp (by simpa using hv)
    case h_2 => cases h
  | modify p b x =>
    split_ifs at h with hp
    cases h
    exact .modify hp.1 hp.2
  | bwrite p b =>
    split_ifs at h with hp
    cases h
    exact .bwrite hp.1 hp.2
  | brelse p b =>
    split_ifs at h with hp
    cases h
    exact .brelse hp.1 hp.2
  | drop p =>
    split at h
    case h_1 b hp =>
      cases h
      unfold drop
      simp only [goto, setBuf, update_self]
      split
      case isTrue hz => exact .dropFree hp hz
      case isFalse hz => exact .dropKeep hp hz
    case h_2 => cases h
  | bpin p b =>
    split_ifs at h with hp
    cases h
    exact .bpin hp.1 hp.2
  | bunpin p b =>
    split_ifs at h with hp
    cases h
    exact .bunpin hp

omit [DecidableEq P] in
theorem Order.dropFree (h : Order s l) : ∃ l' : List (Fin N), DList.Ring
    ((s.links.unlink (some b)).insertAfter none (some b)) none (l'.map some) ∧ (∀ c, c ∈ l') ∧
    l'.Pairwise fun c d => update s.freed b (s.clock + 1) d ≤
      update s.freed b (s.clock + 1) c := by
  obtain ⟨u, v, rfl⟩ := List.append_of_mem (h.all b)
  have hring := h.ring
  rw [List.map_append] at hring
  have hb : b ∉ u ++ v := by
    have hn := List.nodup_middle.mp h.nodup
    exact (List.nodup_cons.mp hn).1
  have hne : ∀ c ∈ u ++ v, c ≠ b := by
    rintro c hc rfl
    exact hb hc
  refine ⟨b :: (u ++ v), ?_, fun c => ?_, ?_⟩
  · rw [List.map_cons, List.map_append]
    exact hring.unlink.insertAfter (by simpa using hb)
  · have := h.all c
    simp only [List.mem_append, List.mem_cons] at this ⊢
    tauto
  · have hsub : (u ++ v).Sublist (u ++ b :: v) := .append_left (.cons b (.refl v)) u
    refine List.pairwise_cons.mpr ⟨fun c hc => ?_, ?_⟩
    · rw [update_self, update_of_ne (hne c hc)]
      exact (h.past c).trans (Nat.le_succ _)
    · refine (h.sorted.sublist hsub).imp_of_mem fun {c d} hc hd hcd => ?_
      rwa [update_of_ne (hne d hd), update_of_ne (hne c hc)]

theorem Order.step (h : Order s l) (hst : Step dev s a t) : ∃ l', Order t l' := by
  cases hst with
  | dropFree =>
    rename_i p b _ _
    obtain ⟨l', hring, hall, hsorted⟩ := h.dropFree
    refine ⟨l', hring, hall, hsorted, fun c => ?_⟩
    by_cases hc : c = b
    · simp [hc]
    · simpa [hc] using (h.past c).trans (Nat.le_succ _)
  | _ => exact ⟨l, h.ring, h.all, h.sorted, h.past⟩

theorem ring_binit (N : Nat) :
    DList.Ring (binit N) none ((List.finRange N).reverse.map some) := by
  have hfold : ∀ (u v : List (Fin N)) (k : DList.Links (Option (Fin N))),
      (v.reverse ++ u).Nodup → DList.Ring k none (u.map some) →
      DList.Ring (v.foldl (fun k b => k.insertAfter none (some b)) k) none
        ((v.reverse ++ u).map some) := by
    intro u v
    induction v generalizing u with
    | nil => exact fun k _ hk => hk
    | cons b v ih =>
      intro k hn hk
      rw [List.reverse_cons, List.append_assoc] at hn ⊢
      have hb : b ∉ u := (List.nodup_cons.mp (List.nodup_append.mp hn).2.1).1
      exact ih (b :: u) _ hn (hk.insertAfter (by simpa using hb))
  have := hfold [] (List.finRange N) ⟨fun _ => none, fun _ => none⟩
    (by simpa using List.nodup_finRange N) ⟨by simp, rfl, rfl⟩
  rwa [List.append_nil] at this

omit [DecidableEq P] in
theorem order_boot (zero : α) (disk : Nat → α) :
    Order (boot N P zero disk) (List.finRange N).reverse where
  ring := ring_binit N
  all := by simp
  sorted := List.pairwise_of_forall (fun _ _ => le_rfl)
  past := fun _ => le_rfl

end Bcache

end Xv6
