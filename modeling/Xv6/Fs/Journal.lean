import Mathlib.Data.Finset.Card
import Mathlib.Order.Interval.Finset.Nat
import Xv6.Fs.State
import Xv6.Lib.Wp

/-!
# What is in the transaction

`log_write` panics when the transaction has too many blocks, and it absorbs a block that is there already,
so what counts is the set of the blocks that a call logs. `Journal` bounds this set, and says that the
transaction has what has been changed.
-/

namespace Xv6.Fs

open Wp

variable {sb : Superblock} {s t u : Fs} {E : Panic → Prop} {X Y : Finset Nat} {b k : Nat}
  {tr tr' : Option (List Nat)}

/-- The panics of `log_write` are allowed. -/
structure LogFails (E : Panic → Prop) : Prop where
  outside : E .logWriteOutside
  tooBig : E .tooBigTransaction

def logCapacity (sb : Superblock) : Nat := min LOGSIZE (sb.nlog - 1)

/-- One more block can be logged, or the panics of `log_write` are allowed. -/
def CanLog (sb : Superblock) (E : Panic → Prop) (s : Fs) : Prop :=
  LogFails E ∨ ∃ l, s.trans = some l ∧ l.length < logCapacity sb

theorem wp_logWrite_of (hE : CanLog sb E s) {Q : Unit → Fs → Prop}
    (h : ∀ l, s.trans = some l → Q () { s with trans := some (l.insert b) }) : wp (logWrite sb b) Q E s := by
  rw [logWrite, wp_bind, wp_get]
  cases htr : s.trans with
  | none =>
    rcases hE with hE | ⟨l, hl, -⟩
    · exact hE.outside
    · rw [htr] at hl
      cases hl
  | some l =>
    have hQ := h l htr
    show wp (if _ then _ else _) Q E s
    rw [wp_ite, wp_ite]
    refine ⟨fun hbig => ?_, fun _ => ⟨fun hmem => ?_, fun hmem => ?_⟩⟩
    · rcases hE with hE | ⟨l', hl, hroom⟩
      · exact hE.tooBig
      · cases htr.symm.trans hl
        unfold logCapacity at hroom
        omega
    · rw [List.insert_of_mem hmem, ← htr] at hQ
      exact hQ
    · rw [List.insert_of_not_mem hmem] at hQ
      exact hQ

theorem wp_logWrite (hE : LogFails E) {Q : Unit → Fs → Prop}
    (h : ∀ tr, Q () { s with trans := tr }) : wp (logWrite sb b) Q E s :=
  wp_logWrite_of (.inl hE) fun _ _ => h _

/-! ## The blocks that are logged -/

/-- The transaction has grown by blocks in `X` and blocks of the free map for them. -/
def Adds (sb : Superblock) (X : Finset Nat) (tr tr' : Option (List Nat)) : Prop :=
  ∃ new, tr' = tr.map (new ++ ·) ∧ new.Nodup ∧ ∀ b ∈ new, b ∈ X ∨ ∃ c ∈ X, c < sb.size ∧ b = sb.bblock c

namespace Adds

theorem refl : Adds sb X tr tr := ⟨[], by simp, List.nodup_nil, nofun⟩

theorem mono (h : Adds sb X tr tr') (hXY : X ⊆ Y) : Adds sb Y tr tr' := by
  obtain ⟨new, htr, hnodup, hmem⟩ := h
  refine ⟨new, htr, hnodup, fun b hb => (hmem b hb).imp (@hXY b) ?_⟩
  exact fun ⟨c, hc, hrest⟩ => ⟨c, hXY hc, hrest⟩

theorem insert (h : Adds sb X tr tr') (hb : b ∈ X ∨ ∃ c ∈ X, c < sb.size ∧ b = sb.bblock c) :
    Adds sb X tr (tr'.map (List.insert b)) := by
  obtain ⟨new, rfl, hnodup, hmem⟩ := h
  cases tr with
  | none => exact .refl
  | some l =>
    by_cases hin : b ∈ new ++ l
    · exact ⟨new, congrArg some (List.insert_of_mem hin), hnodup, hmem⟩
    · refine ⟨b :: new, congrArg some (List.insert_of_not_mem hin), ?_, List.forall_mem_cons.mpr ⟨hb, hmem⟩⟩
      exact List.nodup_cons.mpr ⟨fun hn => hin (List.mem_append_left l hn), hnodup⟩

end Adds

/-- There is room for the blocks of a set of `k` and their blocks of the free map, and for one more block. -/
def Room (sb : Superblock) (E : Panic → Prop) (k : Nat) (s : Fs) : Prop :=
  LogFails E ∨ ∃ l, s.trans = some l ∧ l.length + (k + min k (sb.size / BPB + 1)) < logCapacity sb

theorem Room.mono {j : Nat} (hE : Room sb E k s) (h : j ≤ k) : Room sb E j s :=
  hE.imp_right fun ⟨l, hl, hroom⟩ => ⟨l, hl, by omega⟩

theorem Adds.length_le {new : List Nat} (hnodup : new.Nodup)
    (hmem : ∀ b ∈ new, b ∈ X ∨ ∃ c ∈ X, c < sb.size ∧ b = sb.bblock c) :
    new.length ≤ X.card + min X.card (sb.size / BPB + 1) := by
  set maps := (X.image sb.bblock) ∩ Finset.Ico sb.bmapstart (sb.bmapstart + (sb.size / BPB + 1)) with hmaps
  have hsub : new.toFinset ⊆ X ∪ maps := by
    intro b hb
    rcases hmem b (List.mem_toFinset.mp hb) with hX | ⟨c, hc, hlt, rfl⟩
    · exact Finset.mem_union_left _ hX
    · have hdiv : c / BPB ≤ sb.size / BPB := Nat.div_le_div_right hlt.le
      refine Finset.mem_union_right _ (Finset.mem_inter.mpr ⟨Finset.mem_image_of_mem _ hc, ?_⟩)
      rw [Finset.mem_Ico, Superblock.bblock, Nat.add_comm]
      exact ⟨Nat.le_add_right _ _, Nat.add_lt_add_left (Nat.lt_succ_of_le hdiv) _⟩
  have himage : maps.card ≤ X.card := (Finset.card_le_card Finset.inter_subset_left).trans Finset.card_image_le
  have hico : maps.card ≤ sb.size / BPB + 1 := by
    refine (Finset.card_le_card Finset.inter_subset_right).trans ?_
    rw [Nat.card_Ico, Nat.add_sub_cancel_left]
  calc new.length = new.toFinset.card := (List.toFinset_card_of_nodup hnodup).symm
    _ ≤ X.card + maps.card := (Finset.card_le_card hsub).trans (Finset.card_union_le _ _)
    _ ≤ X.card + min X.card (sb.size / BPB + 1) := Nat.add_le_add_left (le_min himage hico) _

theorem Room.canLog (hE : Room sb E k s) (h : Adds sb X s.trans t.trans) (hX : X.card ≤ k) : CanLog sb E t := by
  rcases hE with hE | ⟨l, hl, hroom⟩
  · exact .inl hE
  · obtain ⟨new, htr, hnodup, hmem⟩ := h
    have hlen := Adds.length_le hnodup hmem
    refine .inr ⟨new ++ l, by rw [htr, hl]; rfl, ?_⟩
    rw [List.length_append]
    omega

/-! ## What is changed is logged -/

/-- From `s` to `t` the transaction has grown, and it has every block that has been changed or taken. -/
structure Logged (sb : Superblock) (s t : Fs) : Prop where
  grows : ∀ b ∈ s.trans.getD [], b ∈ t.trans.getD []
  data : ∀ b, t.store.data b ≠ s.store.data b → b ∈ t.trans.getD []
  bitmap : ∀ b, t.store.bitmap b ≠ s.store.bitmap b → sb.bblock b ∈ t.trans.getD []
  taken : ∀ b, s.store.bitmap b = false → t.store.bitmap b = true → b ∈ t.trans.getD []
  dinode : ∀ i, t.store.dinode i ≠ s.store.dinode i → sb.iblock i ∈ t.trans.getD []

theorem Logged.refl : Logged sb s s :=
  ⟨fun _ hb => hb, fun _ hb => absurd rfl hb, fun _ hb => absurd rfl hb,
    fun _ h h' => absurd (h.symm.trans h') Bool.false_ne_true, fun _ hi => absurd rfl hi⟩

theorem Logged.trans (h : Logged sb s t) (h' : Logged sb t u) : Logged sb s u := by
  refine ⟨fun b hb => h'.grows b (h.grows b hb), fun b hb => ?_, fun b hb => ?_, fun b hfree hused => ?_,
    fun i hi => ?_⟩
  · by_cases heq : t.store.data b = s.store.data b
    · exact h'.data b (heq ▸ hb)
    · exact h'.grows _ (h.data b heq)
  · by_cases heq : t.store.bitmap b = s.store.bitmap b
    · exact h'.bitmap b (heq ▸ hb)
    · exact h'.grows _ (h.bitmap b heq)
  · cases hbit : t.store.bitmap b with
    | false => exact h'.taken b hbit hused
    | true => exact h'.grows b (h.taken b hfree hbit)
  · by_cases heq : t.store.dinode i = s.store.dinode i
    · exact h'.dinode i (heq ▸ hi)
    · exact h'.grows _ (h.dinode i heq)

structure Journal (sb : Superblock) (X : Finset Nat) (s t : Fs) : Prop where
  adds : Adds sb X s.trans t.trans
  logged : Logged sb s t

namespace Journal

theorem refl : Journal sb X s s := ⟨.refl, .refl⟩

theorem mono (h : Journal sb X s t) (hXY : X ⊆ Y) : Journal sb Y s t := ⟨h.adds.mono hXY, h.logged⟩

theorem of_eq (h : Journal sb X s t) (hstore : u.store = t.store) (htrans : u.trans = t.trans) :
    Journal sb X s u := by
  obtain ⟨hadds, h1, h2, h3, h4, h5⟩ := h
  rw [← htrans] at hadds h1 h2 h3 h4 h5
  rw [← hstore] at h2 h3 h4 h5
  exact ⟨hadds, h1, h2, h3, h4, h5⟩

theorem wp_logWrite (hE : Room sb E k s) (h : Journal sb X s t) (hX : X.card ≤ k) (hb : b ∈ X) {x : Block}
    {Q : Unit → Fs → Prop}
    (hQ : ∀ tr, Journal sb X s
        { t with store := { t.store with data := Function.update t.store.data b x }, trans := tr } →
      Q () { t with store := { t.store with data := Function.update t.store.data b x }, trans := tr }) :
    wp (logWrite sb b) Q E { t with store := { t.store with data := Function.update t.store.data b x } } := by
  refine wp_logWrite_of ?_ fun l hl => hQ _ ⟨?_, h.logged.trans ?_⟩
  · exact hE.canLog h.adds hX
  · have hadds := h.adds.insert (.inl hb)
    rwa [show t.trans = some l from hl] at hadds
  · have hmem : ∀ c ∈ t.trans.getD [], c ∈ l.insert b := fun c hc => by
      rw [show t.trans = some l from hl] at hc
      exact List.mem_insert_of_mem hc
    refine ⟨hmem, fun c hc => ?_, fun c hc => absurd rfl hc, fun c hfree hused => ?_, fun i hi => absurd rfl hi⟩
    · obtain rfl : c = b := by
        by_contra hne
        exact hc (Function.update_of_ne hne ..)
      exact List.mem_insert_self
    · exact absurd (hfree.symm.trans hused) Bool.false_ne_true

end Journal

end Xv6.Fs
