import Xv6.Lib.Run
import Xv6.Umalloc.Malloc

/-!
# Runs of a program that calls `malloc` and `free`

The program may call `malloc`, free a block that it has, and write into the blocks that it has. In every
state that such a run reaches the heap is in order, and every call returns.
-/

namespace Xv6.Umalloc

open DList Extents

/-- Memory, and the blocks that the program has: the addresses of their headers, and how many bytes it
asked for. -/
structure Sys where
  heap : Heap
  alloc : List (Nat × Nat)

inductive Act where
  /-- `malloc(n)`, and what `sbrk` answers if it is called -/
  | malloc (n : Nat) (answer : Option Nat)
  /-- `free` of the block whose header is at `bp` -/
  | free (bp : Nat)
  /-- the program writes into its blocks, after which memory is `hdr` -/
  | write (hdr : Nat → Header)

/-- A step of the program; `malloc` is called for less than 2^31 bytes with the header, and `sbrk` answers
with fresh memory. -/
inductive Step (base : Nat) : Sys → Act → Sys → Prop
  | malloc {s : Sys} {n fuel p : Nat} {answer : Option Nat} {rest : List (Option Nat)} {h : Heap} :
      HEADER * Heap.units n < 2 ^ 31 → (∀ hp, answer = some hp → Fresh base s.heap.mem hp) →
      s.heap.malloc base fuel n [answer] = .ok ((h, p), rest) →
      Step base s (.malloc n answer) ⟨h, if p = 0 then s.alloc else (p - HEADER, n) :: s.alloc⟩
  | free {s : Sys} {b : Nat × Nat} {fuel : Nat} {h : Heap} : b ∈ s.alloc →
      s.heap.free fuel (b.1 + HEADER) = .ok h →
      Step base s (.free b.1) ⟨h, s.alloc.filter fun c => c.1 ≠ b.1⟩
  | write {s : Sys} {hdr : Nat → Header} :
      (∀ a, (∀ b ∈ s.alloc, ¬ (b.1 < a ∧ a < b.1 + s.heap.len b.1)) → hdr a = s.heap.hdr a) →
      Step base s (.write hdr) ⟨{ s.heap with hdr := hdr }, s.alloc⟩

/-- The states that the program reaches when each step meets `G`. -/
inductive Reach (base : Nat) (G : Sys → Act → Prop) : Sys → Prop
  | start (hdr : Nat → Header) : Reach base G ⟨⟨hdr, 0, []⟩, []⟩
  | step {s t : Sys} {a : Act} : Reach base G s → G s a → Step base s a t → Reach base G t

/-- With the answer of `sbrk` the memory has no interval of 2^32 units. -/
def Bounded (s : Sys) : Act → Prop
  | .malloc n (some hp) => Short ((hp, request (Heap.units n)) :: s.heap.mem)
  | _ => True

/-- Before the first call, or in order. -/
def Good (base : Nat) (s : Sys) : Prop :=
  (s.heap.freep = 0 ∧ s.heap.mem = [] ∧ s.alloc = []) ∨ Short s.heap.mem ∧ ∃ l, HeapInv base s.heap s.alloc l

section

variable {h h' : Heap} {fuel fuel' : Nat}

theorem seek_mono {bp p q : Nat} (hs : h.seek bp fuel p = .ok q) (hle : fuel ≤ fuel') : h.seek bp fuel' p = .ok q := by
  induction fuel generalizing p fuel' with
  | zero => cases hs
  | succ fuel ih =>
    obtain ⟨fuel', rfl⟩ := Nat.exists_eq_succ_of_ne_zero (Nat.ne_zero_of_lt hle)
    rw [Heap.seek] at hs ⊢
    split_ifs at hs ⊢
    · exact hs
    · exact ih hs (Nat.le_of_succ_le_succ hle)

theorem bind_mono {ε α β : Type} {f f' : Except ε α} {g g' : α → Except ε β} {b : β}
    (hf : ∀ a, f = .ok a → f' = .ok a) (hg : ∀ a, g a = .ok b → g' a = .ok b) (hs : (f >>= g) = .ok b) :
    (f' >>= g') = .ok b := by
  cases hfa : f with
  | error e =>
    rw [hfa] at hs
    cases hs
  | ok a =>
    rw [hfa] at hs
    rw [hf a hfa]
    exact hg a hs

theorem free_mono {ap : Nat} (hs : h.free fuel ap = .ok h') (hle : fuel ≤ fuel') : h.free fuel' ap = .ok h' :=
  bind_mono (fun _ hp => seek_mono hp hle) (fun _ h => h) hs

theorem morecore_mono {nu : Nat} {answer : Option Nat} {r : Option Heap} (hs : h.morecore fuel nu answer = .ok r)
    (hle : fuel ≤ fuel') : h.morecore fuel' nu answer = .ok r := by
  cases answer with
  | none => exact hs
  | some hp => exact bind_mono (fun _ hf => free_mono hf hle) (fun _ h => h) hs

theorem mallocLoop_mono {nunits : Nat} {answers rest : List (Option Nat)} {prevp p q : Nat}
    (hs : Heap.mallocLoop nunits fuel h answers prevp p = .ok ((h', q), rest)) (hle : fuel ≤ fuel') :
    Heap.mallocLoop nunits fuel' h answers prevp p = .ok ((h', q), rest) := by
  induction fuel generalizing h prevp p answers fuel' with
  | zero => cases answers <;> cases hs
  | succ fuel ih =>
    obtain ⟨fuel', rfl⟩ := Nat.exists_eq_succ_of_ne_zero (Nat.ne_zero_of_lt hle)
    replace hle := Nat.le_of_succ_le_succ hle
    cases answers with
    | nil =>
      rw [Heap.mallocLoop] at hs ⊢
      split_ifs at hs ⊢
      · exact hs
      · exact ih hs hle
    | cons answer answers =>
      rw [Heap.mallocLoop] at hs ⊢
      split_ifs at hs ⊢
      · exact hs
      · refine bind_mono (fun _ hm => morecore_mono hm hle) (fun r hr => ?_) hs
        cases r with
        | none => exact hr
        | some h => exact ih hr hle
      · exact ih hs hle

end

theorem short_nil : Short [] := by
  intro a s hs
  by_contra hge
  obtain ⟨c, hc, -⟩ := hs a (Nat.le_refl a) (by unfold HEADER; omega)
  cases hc

theorem heapInv_init {base : Nat} {h : Heap} (hf : h.freep = 0) (hmem : h.mem = []) :
    HeapInv base (h.init base) [] [] := by
  have hinit : h.init base = { (h.setPtr base base).setSize base 0 with freep := base } := if_pos hf
  have hnext : (h.init base).next base = base := by
    rw [hinit]
    refine (congrFun Heap.next_setSize base).trans ?_
    rw [Heap.next_setPtr, Function.update_self]
  have hlen : (h.init base).len base = 0 := by
    rw [hinit]
    refine (congrFun Heap.len_setSize base).trans ?_
    rw [Function.update_self]
    rfl
  have hmem' : (h.init base).mem = [] := by
    rw [hinit]
    exact hmem
  refine ⟨⟨hnext, List.pairwise_singleton _ _, nofun, hlen⟩, ?_, nofun, .nil, nofun, fun x => ?_, ?_⟩
  · rw [hinit]
    exact List.mem_cons_self
  · rw [hmem']
    exact ⟨nofun, fun hx => hx.elim (absurd · cover_nil) (absurd · cover_nil)⟩
  · rw [hmem']
    nofun

variable {base : Nat} {s t : Sys} {a : Act}

theorem Good.malloc (hg : Good base s) (hbase : 0 < base) {n : Nat} {answer : Option Nat}
    (hn : HEADER * Heap.units n < 2 ^ 31) (hfresh : ∀ hp, answer = some hp → Fresh base s.heap.mem hp)
    (hb : Bounded s (.malloc n answer)) :
    ∃ F h' p rest, (∀ fuel ≥ F, s.heap.malloc base fuel n [answer] = .ok ((h', p), rest)) ∧
      ((p = 0 ∧ answer = none ∧ rest = [] ∧ ∃ l', HeapInv base h' s.alloc l') ∨
        ∃ q l', p = q + HEADER ∧ HeapInv base h' ((q, n) :: s.alloc) l') ∧ Short h'.mem := by
  have hunits : Heap.units n < 2 ^ 32 := by
    unfold HEADER at hn
    omega
  have hanswer : ∀ hp, answer = some hp →
      Fresh base s.heap.mem hp ∧ Short ((hp, request (Heap.units n)) :: s.heap.mem) := by
    rintro hp rfl
    exact ⟨hfresh hp rfl, hb⟩
  rcases hg with ⟨hfreep, hmem, halloc⟩ | ⟨hshort, l, hi⟩
  · have hi : HeapInv base (s.heap.init base) [] [] := heapInv_init hfreep hmem
    have hmem' : (s.heap.init base).mem = [] := by
      rw [Heap.init, if_pos hfreep]
      exact hmem
    have hcall : ∀ fuel, (s.heap.init base).malloc base fuel n [answer] = s.heap.malloc base fuel n [answer] :=
      fun fuel => by
        have hinit : (s.heap.init base).init base = s.heap.init base := if_neg (hi.freep_ne hbase)
        unfold Heap.malloc
        rw [hinit]
    rw [hmem] at hanswer
    have := hi.malloc hbase (hmem' ▸ short_nil) hunits (hmem'.symm ▸ hanswer)
    simpa only [hcall, halloc] using this
  · exact hi.malloc hbase hshort hunits hanswer

theorem Good.step (hg : Good base s) (hbase : 0 < base) (hb : Bounded s a) (hs : Step base s a t) : Good base t := by
  cases hs with
  | @malloc n fuel p answer rest h hn hfresh hcall =>
    obtain ⟨F, h', p', rest', hcall', hcase, hshort⟩ := hg.malloc hbase hn hfresh hb
    have heq : ((h, p), rest) = ((h', p'), rest') := Except.ok.inj
      ((mallocLoop_mono hcall (Nat.le_max_left fuel F)).symm.trans (hcall' _ (Nat.le_max_right fuel F)))
    obtain ⟨⟨rfl, rfl⟩, rfl⟩ := Prod.mk.inj heq |>.imp_left Prod.mk.inj
    refine .inr ⟨hshort, ?_⟩
    rcases hcase with ⟨rfl, -, -, l', hi⟩ | ⟨q, l', rfl, hi⟩
    · exact ⟨l', hi⟩
    · exact ⟨l', hi⟩
  | @free b fuel h hmem hcall =>
    rcases hg with ⟨-, -, halloc⟩ | ⟨hshort, l, hi⟩
    · rw [halloc] at hmem
      cases hmem
    · obtain ⟨F, h', l', hfree, hi', hmem', -⟩ := hi.free hshort hmem
      obtain rfl : h = h' := Except.ok.inj
        ((free_mono hcall (Nat.le_max_left fuel F)).symm.trans (hfree _ (Nat.le_max_right fuel F)))
      exact .inr ⟨hmem' ▸ hshort, l', hi'⟩
  | @write hdr hw =>
    refine hg.imp_right fun ⟨hshort, l, hi⟩ => ⟨hshort, l, hi.congr (fun a ha => hw a fun b hb hin => ?_) rfl rfl⟩
    have hinb : In s.heap.len b.1 a := ⟨Nat.le_of_lt hin.1, hin.2⟩
    rcases ha with ha | ha
    · rcases List.mem_cons.mp ha with rfl | ha
      · have := hi.base_lt hb
        omega
      · exact hi.clear b hb a hinb ⟨a, ha, Nat.le_refl _, Nat.lt_add_of_pos_right (hi.list.pos a ha)⟩
    · obtain ⟨c, hc, rfl⟩ := List.mem_map.mp ha
      refine hi.alloc_inj hb hc (fun hbc => ?_) c.1 hinb (hi.in_self hc)
      rw [hbc] at hin
      omega

/-- In every state that the program reaches: before the first call, or the free list is a ring of `base`
and of blocks in the order of their addresses that do not touch, and the free and the allocated blocks are
disjoint and cover the memory; every call returns, and `malloc` returns 0 only if `sbrk` refuses. -/
theorem heap_in_order (base : Nat) (hbase : 0 < base) (s : Sys) (hr : Reach base Bounded s) :
    Good base s ∧
    (∀ n answer, HEADER * Heap.units n < 2 ^ 31 → (∀ hp, answer = some hp → Fresh base s.heap.mem hp) →
      Bounded s (.malloc n answer) → ∃ F h p rest,
        (∀ fuel ≥ F, s.heap.malloc base fuel n [answer] = .ok ((h, p), rest)) ∧
        (p = 0 → answer = none ∧ rest = [])) ∧
    ∀ b ∈ s.alloc, ∃ F h, ∀ fuel ≥ F, s.heap.free fuel (b.1 + HEADER) = .ok h := by
  have hg : Good base s := by
    induction hr with
    | start hdr => exact .inl ⟨rfl, rfl, rfl⟩
    | step _ hb hs ih => exact ih.step hbase hb hs
  refine ⟨hg, fun n answer hn hfresh hb => ?_, fun b hb => ?_⟩
  · obtain ⟨F, h, p, rest, hcall, hcase, -⟩ := hg.malloc hbase hn hfresh hb
    refine ⟨F, h, p, rest, hcall, fun hp => ?_⟩
    rcases hcase with ⟨-, hnone, hrest, -⟩ | ⟨q, l', rfl, -⟩
    · exact ⟨hnone, hrest⟩
    · unfold HEADER at hp
      omega
  · rcases hg with ⟨-, -, halloc⟩ | ⟨hshort, l, hi⟩
    · rw [halloc] at hb
      cases hb
    · obtain ⟨F, h, l', hfree, -⟩ := hi.free hshort hb
      exact ⟨F, h, hfree⟩

instance (base : Nat) (mem : List (Nat × Nat)) (hp : Nat) : Decidable (Fresh base mem hp) :=
  inferInstanceAs (Decidable (_ ∧ _))

/-- A step as a function, of a program that does not write into its blocks. -/
def Sys.step (base fuel : Nat) (s : Sys) : Act → Option Sys
  | .malloc n answer =>
    if HEADER * Heap.units n < 2 ^ 31 ∧ ∀ hp ∈ answer, Fresh base s.heap.mem hp then
      match s.heap.malloc base fuel n [answer] with
      | .ok ((h, p), _) => some ⟨h, if p = 0 then s.alloc else (p - HEADER, n) :: s.alloc⟩
      | .error _ => none
    else none
  | .free bp =>
    if bp ∈ s.alloc.map Prod.fst then
      match s.heap.free fuel (bp + HEADER) with
      | .ok h => some ⟨h, s.alloc.filter fun c => c.1 ≠ bp⟩
      | .error _ => none
    else none
  | .write _ => none

theorem step_of_step {fuel : Nat} (hs : s.step base fuel a = some t) : Step base s a t := by
  cases a with
  | malloc n answer =>
    rw [Sys.step] at hs
    split_ifs at hs with hc
    split at hs
    · rename_i h p rest hcall
      obtain rfl := Option.some.inj hs
      exact .malloc hc.1 (fun hp hhp => hc.2 hp hhp) hcall
    · cases hs
  | free bp =>
    rw [Sys.step] at hs
    split_ifs at hs with hc
    obtain ⟨b, hb, rfl⟩ := List.mem_map.mp hc
    split at hs
    · rename_i h hcall
      obtain rfl := Option.some.inj hs
      exact .free hb hcall
    · cases hs
  | write hdr => cases hs

/-- The units of a block of almost 2^31 bytes. -/
def bigUnits : Nat := 2 ^ 27 - 1

/-- `malloc` of 33 such blocks, which lie one behind the other, and `free` of all of them. -/
def fillUp : List Act :=
  (List.range 33).map (fun k => .malloc (HEADER * (bigUnits - 1)) (some (32 + HEADER * bigUnits * k))) ++
    (List.range 33).map fun k => .free (32 + HEADER * bigUnits * k)

/-- Where the only block of the free list seems to end. -/
def lostAddr : Nat := 32 + HEADER * (33 * bigUnits - 2 ^ 32)

theorem fillUp_run : (Run.exec (Sys.step 16 100) ⟨⟨fun _ => ⟨0, 0⟩, 0, []⟩, []⟩ fillUp).map (fun s =>
    (s.alloc, (s.heap.hdr 16).ptr, s.heap.hdr 32 |>.ptr, (s.heap.hdr 32).size,
      decide (∃ c ∈ s.heap.mem, c.1 ≤ lostAddr ∧ lostAddr < c.1 + HEADER * c.2))) =
    some ([], 32, 16, 33 * bigUnits - 2 ^ 32, true) := by
  decide +kernel

theorem Reach.exec {G : Sys → Act → Prop} {fuel : Nat} {as : List Act} (hG : ∀ s a, G s a) (hr : Reach base G s)
    (he : Run.exec (Sys.step base fuel) s as = some t) : Reach base G t := by
  induction as generalizing s with
  | nil =>
    obtain rfl := Option.some.inj he
    exact hr
  | cons a as ih =>
    obtain ⟨u, hu, he⟩ := Run.exec_cons.mp he
    exact ih (hr.step (hG s a) (step_of_step hu)) he

/-- After these calls the blocks have been joined to one whose size does not fit into the field `size`: the
memory from `lostAddr` on is in no block. -/
theorem size_overflows : ∃ s, Reach 16 (fun _ _ => True) s ∧ ∀ l, ¬ HeapInv 16 s.heap s.alloc l := by
  obtain ⟨s, hs, hobs⟩ := Option.map_eq_some_iff.mp fillUp_run
  simp only [Prod.mk.injEq, decide_eq_true_eq] at hobs
  obtain ⟨halloc, h16, h32, hsize, hmem⟩ := hobs
  refine ⟨s, (Reach.start _).exec (fun _ _ => trivial) hs, fun l hi => ?_⟩
  -- the list is the one block at 32
  have hl : l = [32] := by
    have hpath := hi.list.path
    cases l with
    | nil => exact absurd (h16.symm.trans hpath) (by decide)
    | cons a l =>
      obtain rfl : 32 = a := h16.symm.trans hpath.1
      cases l with
      | nil => rfl
      | cons b l =>
        obtain rfl : 16 = b := h32.symm.trans hpath.2.1
        exact absurd (hi.list.above (List.mem_cons_of_mem _ List.mem_cons_self)) (Nat.lt_irrefl 16)
  subst hl
  rw [halloc] at hi
  rcases (hi.cover lostAddr).mp hmem with hc | hc
  · obtain ⟨a, ha, hx⟩ := hc
    obtain rfl := List.mem_singleton.mp ha
    unfold In Heap.len at hx
    rw [hsize] at hx
    exact absurd hx.2 (Nat.lt_irrefl _)
  · exact cover_nil hc

theorem short_singleton {hp nu : Nat} (hnu : nu < 2 ^ 32) : Short [(hp, nu)] := by
  intro a s hs
  by_contra hge
  have h1 := hs a (Nat.le_refl a) (by unfold HEADER; omega)
  have h2 := hs (a + HEADER * nu) (Nat.le_add_right _ _) (by unfold HEADER; omega)
  simp only [InMem, List.mem_singleton, exists_eq_left] at h1 h2
  omega

/-- After a call of `malloc` for 100 bytes. -/
theorem heap_in_order_one : ∃ s, Reach 16 Bounded s ∧ s.alloc = [(65440, 100)] ∧ Good 16 s := by
  have hrun : ((Sys.step 16 10 ⟨⟨fun _ => ⟨0, 0⟩, 0, []⟩, []⟩ (.malloc 100 (some 32))).map Sys.alloc) =
      some [(65440, 100)] := by decide +kernel
  obtain ⟨s, hs, halloc⟩ := Option.map_eq_some_iff.mp hrun
  have hb : Bounded ⟨⟨fun _ => ⟨0, 0⟩, 0, []⟩, []⟩ (.malloc 100 (some 32)) :=
    short_singleton (show request (Heap.units 100) < 2 ^ 32 by decide)
  have hr : Reach 16 Bounded s := (Reach.start _).step hb (step_of_step hs)
  exact ⟨s, hr, halloc, (heap_in_order 16 (by decide) s hr).1⟩

end Xv6.Umalloc
