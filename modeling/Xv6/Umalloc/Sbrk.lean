import Xv6.Umalloc.Runs

/-!
# `malloc` and the break

`morecore` multiplies the number of units by the size of a header and passes the product to `sbrk`, whose
argument is an `int`. Here `sbrk` is that of the kernel: it moves the break of the process. Up to 2^31 bytes
with the header, `malloc` hands out memory between the first break and the current one only, and never lowers
the break; a larger product turns into another number of bytes, or into a negative one.
-/

namespace Xv6.Umalloc

/-- The bytes of memory that the machine has. -/
abbrev MEMORY : Nat := 2 ^ 27

def toInt (x : Nat) : Int := Int.bmod x (2 ^ 32)

/-- What `sbrk` returns, `none` for -1, and the break then; `grant` says whether the kernel finds the pages. -/
@[irreducible]
def sbrk (brk : Nat) (n : Int) (grant : Bool) : Option Nat × Nat :=
  if n > 0 then
    if grant && brk + n ≤ MEMORY then (some brk, (brk + n).toNat) else (none, brk)
  else if n < 0 then
    -- the sum is a `uint64`, and `uvmdealloc` does nothing unless it is less
    let newsz := ((brk + n) % 2 ^ 64).toNat
    (some brk, if newsz ≥ brk then brk else newsz)
  else (some brk, brk)

def answers (n : Int) : (brk : Nat) → (grants : List Bool) → List (Option Nat)
  | _, [] => []
  | brk, g :: gs => (sbrk brk n g).1 :: answers n (sbrk brk n g).2 gs

def brkAfter (n : Int) (brk : Nat) (grants : List Bool) : Nat :=
  grants.foldl (fun brk g => (sbrk brk n g).2) brk

/-- The argument of `sbrk` in a call of `malloc`. -/
def sbrkArg (nbytes : Nat) : Int := toInt (request (Heap.units nbytes) * HEADER)

/-- A process: the heap, the blocks that the program has, and the break. -/
structure Prog where
  sys : Sys
  brk : Nat

/-- `malloc` in a process; the block is noted as one that the program has. -/
def Prog.malloc (s : Prog) (base fuel nbytes : Nat) (grants : List Bool) : Except Stuck (Prog × Nat) := do
  let n := sbrkArg nbytes
  let ((h, p), rest) ← s.sys.heap.malloc base fuel nbytes (answers n s.brk grants)
  let used := grants.take (grants.length - rest.length)
  return (⟨⟨h, if p = 0 then s.sys.alloc else (p - HEADER, nbytes) :: s.sys.alloc⟩, brkAfter n s.brk used⟩, p)

inductive Call where
  /-- `malloc(n)`, and which calls of `sbrk` the kernel grants -/
  | malloc (n : Nat) (grants : List Bool)
  /-- `free`, or the program writes into its blocks -/
  | use (a : Act)

/-- A step of the process; the argument of `malloc` is a `uint`. -/
inductive Prog.Step (base : Nat) : Prog → Call → Prog → Prop
  | malloc {s t : Prog} {n fuel p : Nat} {grants : List Bool} : n < 2 ^ 32 →
      s.malloc base fuel n grants = .ok (t, p) → Prog.Step base s (.malloc n grants) t
  | use {s : Prog} {a : Act} {t : Sys} : (∀ n answer, a ≠ .malloc n answer) → Umalloc.Step base s.sys a t →
      Prog.Step base s (.use a) ⟨t, s.brk⟩

/-- The states that a process reaches that starts with the break at `start`, when each call meets `G`. -/
inductive Prog.Reach (base start : Nat) (G : Call → Prop) : Prog → Prop
  | start (hdr : Nat → Header) : Prog.Reach base start G ⟨⟨⟨hdr, 0, []⟩, []⟩, start⟩
  | step {s t : Prog} {c : Call} : Prog.Reach base start G s → G c → Prog.Step base s c t → Prog.Reach base start G t

/-- With the header, less than 2^31 bytes are asked for. -/
def Call.Small : Call → Prop
  | .malloc n _ => HEADER * Heap.units n < 2 ^ 31
  | .use _ => True

section

variable {h h' : Heap} {fuel nunits prevp p q : Nat}

theorem attach_mem (h : Heap) (a b : Nat) : (h.attach a b).mem = h.mem := by
  unfold Heap.attach
  split_ifs <;> rfl

theorem exists_of_bind {ε α β : Type} {f : Except ε α} {g : α → Except ε β} {b : β} (hs : (f >>= g) = .ok b) :
    ∃ a, f = .ok a ∧ g a = .ok b := by
  cases f with
  | error e => cases hs
  | ok a => exact ⟨a, rfl, hs⟩

theorem free_mem {ap : Nat} (hs : h.free fuel ap = .ok h') : h'.mem = h.mem := by
  obtain ⟨r, -, hr⟩ := exists_of_bind hs
  obtain rfl := Except.ok.inj hr
  exact (attach_mem _ _ _).trans (attach_mem _ _ _)

theorem take_mem (h : Heap) : (h.take nunits prevp p).1.mem = h.mem := by
  unfold Heap.take
  split_ifs <;> rfl

theorem morecore_mem {answer : Option Nat} {r : Option Heap} (hs : h.morecore fuel nunits answer = .ok r) :
    answer.isSome = r.isSome ∧ ∀ h' ∈ r, h'.mem = (answer.toList.map fun hp => (hp, request nunits)) ++ h.mem := by
  cases answer with
  | none =>
    obtain rfl := Except.ok.inj hs
    exact ⟨rfl, nofun⟩
  | some hp =>
    obtain ⟨h₁, hfree, hr⟩ := exists_of_bind hs
    obtain rfl := Except.ok.inj hr
    refine ⟨rfl, fun h' hh' => ?_⟩
    obtain rfl := Option.some.inj hh'
    exact free_mem hfree

/-- The answers that `malloc` uses have become memory; the others do not matter. -/
theorem mallocLoop_used {answers rest : List (Option Nat)}
    (hs : Heap.mallocLoop nunits fuel h answers prevp p = .ok ((h', q), rest)) :
    ∃ used, answers = used ++ rest ∧
      h'.mem = (used.reverse.flatMap fun a => a.toList.map fun hp => (hp, request nunits)) ++ h.mem ∧
      ∀ more, Heap.mallocLoop nunits fuel h (used ++ more) prevp p = .ok ((h', q), more) := by
  induction fuel generalizing h prevp p answers with
  | zero => cases answers <;> cases hs
  | succ fuel ih =>
    by_cases hfit : (h.hdr p).size ≥ nunits
    · obtain ⟨hheap, rfl⟩ := Prod.mk.inj (Except.ok.inj ((if_pos hfit).symm.trans hs))
      refine ⟨[], rfl, ?_, fun more => ?_⟩
      · exact (congrArg (fun x => x.1.mem) hheap).symm.trans (take_mem h)
      · rw [← hheap]
        exact if_pos hfit
    · replace hs := (if_neg hfit).symm.trans hs
      by_cases hlast : p = h.freep
      · replace hs := (if_pos hlast).symm.trans hs
        cases answers with
        | nil => cases hs
        | cons answer answers =>
          obtain ⟨r, hmore, hs⟩ := exists_of_bind hs
          obtain ⟨hsome, hmem⟩ := morecore_mem hmore
          cases r with
          | none =>
            obtain ⟨hheap, rfl⟩ := Prod.mk.inj (Except.ok.inj hs)
            obtain ⟨rfl, rfl⟩ := Prod.mk.inj hheap
            obtain rfl : answer = none := Option.isSome_eq_false_iff.mp hsome |> Option.isNone_iff_eq_none.mp
            refine ⟨[none], rfl, rfl, fun more => ?_⟩
            exact (if_neg hfit).trans (if_pos hlast)
          | some h₁ =>
            obtain ⟨used, rfl, hmem', hrest⟩ := ih hs
            refine ⟨answer :: used, rfl, ?_, fun more => ?_⟩
            · rw [hmem', hmem h₁ rfl, List.reverse_cons, List.flatMap_append]
              simp
            · rw [List.cons_append]
              refine (if_neg hfit).trans ((if_pos hlast).trans ?_)
              simp only [hmore]
              exact hrest more
      · obtain ⟨used, rfl, hmem, hrest⟩ := ih ((if_neg hlast).symm.trans hs)
        refine ⟨used, rfl, hmem, fun more => ?_⟩
        exact (if_neg hfit).trans ((if_neg hlast).trans (hrest more))

end

section

variable {n : Int} {brk : Nat} {base start nbytes : Nat} {s t : Prog}

theorem answers_cons (g : Bool) (gs : List Bool) :
    answers n brk (g :: gs) = (sbrk brk n g).1 :: answers n (sbrk brk n g).2 gs := rfl

theorem brkAfter_nil : brkAfter n brk [] = brk := rfl

theorem brkAfter_singleton (g : Bool) : brkAfter n brk [g] = (sbrk brk n g).2 := rfl

theorem length_answers (grants : List Bool) : (answers n brk grants).length = grants.length := by
  induction grants generalizing brk with
  | nil => rfl
  | cons g gs ih => exact congrArg (· + 1) ih

theorem toInt_of_lt {x : Nat} (h : x < 2 ^ 31) : toInt x = x :=
  Int.bmod_eq_of_le (by omega) (by omega)

theorem sbrkArg_of_small (h : HEADER * Heap.units nbytes < 2 ^ 31) :
    sbrkArg nbytes = (HEADER * request (Heap.units nbytes) : Nat) := by
  unfold sbrkArg
  rw [Nat.mul_comm]
  refine toInt_of_lt ?_
  unfold request
  split_ifs
  · decide
  · exact h

theorem sbrk_pos (brk : Nat) (g : Bool) {k : Nat} (hk : 0 < k) :
    sbrk brk k g = (none, brk) ∨ sbrk brk k g = (some brk, brk + k) ∧ brk + k ≤ MEMORY := by
  unfold sbrk
  rw [if_pos (by omega : (k : Int) > 0)]
  split_ifs with hg
  · refine .inr ⟨by congr 1, ?_⟩
    have := of_decide_eq_true (Bool.and_eq_true_iff.mp hg).2
    omega
  · exact .inl rfl

theorem short_of_le {mem : List (Nat × Nat)} (h : ∀ c ∈ mem, c.1 + HEADER * c.2 ≤ MEMORY) : Short mem := by
  intro a k hk
  by_contra hge
  obtain ⟨c, hc, -, hlt⟩ := hk (a + HEADER * k - 1) (by unfold HEADER; omega) (by unfold HEADER; omega)
  have := h c hc
  unfold MEMORY HEADER at *
  omega

/-- The heap is in order, and its memory lies between the first break and the current one. -/
structure Inside (base start : Nat) (s : Prog) : Prop where
  good : Good base s.sys
  mem : ∀ c ∈ s.sys.heap.mem, start ≤ c.1 ∧ c.1 + HEADER * c.2 ≤ s.brk
  start_le : start ≤ s.brk
  brk_le : s.brk ≤ MEMORY

theorem Inside.block (hi : Inside base start s) {b : Nat × Nat} (hb : b ∈ s.sys.alloc) :
    start ≤ b.1 + HEADER ∧ b.1 + HEADER + b.2 ≤ s.brk := by
  rcases hi.good with ⟨-, -, halloc⟩ | ⟨-, l, hinv⟩
  · rw [halloc] at hb
    cases hb
  · have huse := hinv.usable b hb
    obtain ⟨c, hc, hle, -⟩ := hinv.inMem_of_alloc hb (hinv.in_self hb)
    obtain ⟨d, hd, -, hlt⟩ := hinv.inMem_of_alloc hb
      (x := b.1 + HEADER + b.2 - 1) ⟨by unfold HEADER; omega, by unfold HEADER at *; omega⟩
    have h1 := (hi.mem c hc).1
    have h2 := (hi.mem d hd).2
    omega

theorem init_mem (h : Heap) : (h.init base).mem = h.mem := by
  unfold Heap.init
  split_ifs <;> rfl

theorem Prog.malloc_ok {fuel : Nat} {grants : List Bool} {h : Heap} {p : Nat} {rest : List (Option Nat)}
    (hs : s.sys.heap.malloc base fuel nbytes (answers (sbrkArg nbytes) s.brk grants) = .ok ((h, p), rest)) :
    s.malloc base fuel nbytes grants =
      .ok (⟨⟨h, if p = 0 then s.sys.alloc else (p - HEADER, nbytes) :: s.sys.alloc⟩,
        brkAfter (sbrkArg nbytes) s.brk (grants.take (grants.length - rest.length))⟩, p) := by
  unfold Prog.malloc
  simp only [hs]
  rfl

/-- What `sbrk` answers to a request of `k` bytes, and the break then. -/
def Answered (brk k : Nat) (answer : Option Nat) (brk' : Nat) : Prop :=
  answer = none ∧ brk' = brk ∨ answer = some brk ∧ brk' = brk + k ∧ brk + k ≤ MEMORY

theorem Answered.brk_le {k brk' : Nat} {answer : Option Nat} (ha : Answered brk k answer brk') : brk ≤ brk' := by
  rcases ha with ⟨-, rfl⟩ | ⟨-, rfl, -⟩
  · exact Nat.le_refl _
  · exact Nat.le_add_right _ _

/-- A small request: `malloc` calls `sbrk` at most once, and returns. -/
theorem Inside.heap_malloc (hi : Inside base start s) (hbase : 0 < base) (hstart : base + HEADER ≤ start)
    (hn : HEADER * Heap.units nbytes < 2 ^ 31) {answer : Option Nat} {brk : Nat}
    (ha : Answered s.brk (HEADER * request (Heap.units nbytes)) answer brk) :
    ∃ F h p used brk', (∀ more, ∀ fuel ≥ F, s.sys.heap.malloc base fuel nbytes (used ++ more) = .ok ((h, p), more)) ∧
      (used = [] ∧ brk' = s.brk ∨ used = [answer] ∧ brk' = brk) ∧ (p ≠ 0 → HEADER ≤ p) ∧
      Inside base start ⟨⟨h, if p = 0 then s.sys.alloc else (p - HEADER, nbytes) :: s.sys.alloc⟩, brk'⟩ := by
  have hle := hi.start_le
  have hfresh : ∀ hp, answer = some hp → Fresh base s.sys.heap.mem hp := by
    rintro hp rfl
    obtain ⟨heq, -⟩ := ha.resolve_left (fun h => nomatch h.1)
    obtain rfl := Option.some.inj heq
    exact ⟨Nat.le_trans hstart hle, fun c hc => (hi.mem c hc).2⟩
  have hbound : Bounded s.sys (.malloc nbytes answer) := by
    rcases ha with ⟨rfl, -⟩ | ⟨rfl, -, hmemory⟩
    · trivial
    · refine short_of_le fun c hc => ?_
      rcases List.mem_cons.mp hc with rfl | hc
      · exact hmemory
      · exact Nat.le_trans (hi.mem c hc).2 hi.brk_le
  obtain ⟨F, h, p, rest, hcall, hcase, hshort⟩ := hi.good.malloc hbase hn hfresh hbound
  obtain ⟨used, hused, hmem, hmore⟩ := mallocLoop_used (hcall F (Nat.le_refl F))
  rw [init_mem] at hmem
  have hgood : Good base ⟨h, if p = 0 then s.sys.alloc else (p - HEADER, nbytes) :: s.sys.alloc⟩ := by
    refine .inr ⟨hshort, ?_⟩
    rcases hcase with ⟨rfl, -, -, l, hinv⟩ | ⟨q, l, rfl, hinv⟩
    · exact ⟨l, hinv⟩
    · exact ⟨l, hinv⟩
  have hp : p ≠ 0 → HEADER ≤ p := by
    rcases hcase with ⟨rfl, -⟩ | ⟨q, l, rfl, -⟩
    · exact fun hp => absurd rfl hp
    · exact fun _ => Nat.le_add_left _ _
  have hrun : ∀ more, ∀ fuel ≥ F, s.sys.heap.malloc base fuel nbytes (used ++ more) = .ok ((h, p), more) :=
    fun more fuel hfuel => mallocLoop_mono (hmore more) hfuel
  cases used with
  | nil => exact ⟨F, h, p, [], s.brk, hrun, .inl ⟨rfl, rfl⟩, hp, hgood, hmem ▸ hi.mem, hle, hi.brk_le⟩
  | cons a used =>
    obtain ⟨rfl, hnil⟩ := List.cons.inj hused
    obtain ⟨rfl, rfl⟩ := List.append_eq_nil_iff.mp hnil.symm
    refine ⟨F, h, p, [answer], brk, hrun, .inr ⟨rfl, rfl⟩, hp, hgood, fun c hc => ?_, Nat.le_trans hle ha.brk_le, ?_⟩
    · rw [hmem, List.reverse_singleton] at hc
      rcases List.mem_append.mp hc with hc | hc
      · rcases ha with ⟨rfl, -⟩ | ⟨rfl, rfl, -⟩
        · cases hc
        · obtain rfl := List.mem_singleton.mp hc
          exact ⟨hle, Nat.le_refl _⟩
      · exact ⟨(hi.mem c hc).1, Nat.le_trans (hi.mem c hc).2 ha.brk_le⟩
    · rcases ha with ⟨-, rfl⟩ | ⟨-, rfl, hmemory⟩
      · exact hi.brk_le
      · exact hmemory

theorem answered_of_small (brk : Nat) (hn : HEADER * Heap.units nbytes < 2 ^ 31) (g : Bool) :
    Answered brk (HEADER * request (Heap.units nbytes)) (sbrk brk (sbrkArg nbytes) g).1
      (sbrk brk (sbrkArg nbytes) g).2 := by
  have hk : 0 < HEADER * request (Heap.units nbytes) := by
    unfold request HEADER Heap.units
    split_ifs <;> omega
  rw [sbrkArg_of_small hn]
  rcases sbrk_pos brk g hk with heq | ⟨heq, hle⟩
  · rw [heq]
    exact .inl ⟨rfl, rfl⟩
  · rw [heq]
    exact .inr ⟨rfl, rfl, hle⟩

theorem Inside.malloc (hi : Inside base start s) (hbase : 0 < base) (hstart : base + HEADER ≤ start)
    (hn : HEADER * Heap.units nbytes < 2 ^ 31) (g : Bool) (gs : List Bool) :
    ∃ F t p, (∀ fuel ≥ F, s.malloc base fuel nbytes (g :: gs) = .ok (t, p)) ∧ Inside base start t ∧
      s.brk ≤ t.brk ∧ (p ≠ 0 → start ≤ p ∧ p + nbytes ≤ t.brk) := by
  have ha := answered_of_small s.brk hn g
  obtain ⟨F, h, p, used, brk', hrun, hused, hp, ht⟩ := hi.heap_malloc hbase hstart hn ha
  have hle : s.brk ≤ brk' := by
    rcases hused with ⟨-, rfl⟩ | ⟨-, rfl⟩
    · exact Nat.le_refl _
    · exact ha.brk_le
  refine ⟨F, _, p, fun fuel hfuel => ?_, ht, hle, fun hne => ?_⟩
  · rcases hused with ⟨rfl, rfl⟩ | ⟨rfl, rfl⟩
    · rw [Prog.malloc_ok (hrun (answers (sbrkArg nbytes) s.brk (g :: gs)) fuel hfuel), length_answers, Nat.sub_self,
        List.take_zero, brkAfter_nil]
    · have hcall := hrun (answers (sbrkArg nbytes) (sbrk s.brk (sbrkArg nbytes) g).2 gs) fuel hfuel
      rw [Prog.malloc_ok hcall, length_answers, List.length_cons, Nat.add_sub_cancel_left, List.take_succ_cons,
        List.take_zero, brkAfter_singleton]
  · have hblock := ht.block (by rw [if_neg hne]; exact List.mem_cons_self)
    have hheader := hp hne
    rwa [Nat.sub_add_cancel hheader] at hblock

theorem Prog.malloc_mono {fuel fuel' p : Nat} {grants : List Bool} (hs : s.malloc base fuel nbytes grants = .ok (t, p))
    (hle : fuel ≤ fuel') : s.malloc base fuel' nbytes grants = .ok (t, p) :=
  bind_mono (fun _ h => mallocLoop_mono h hle) (fun _ h => h) hs

theorem Prog.malloc_of_nil {fuel p : Nat} (hs : s.malloc base fuel nbytes [] = .ok (t, p)) (g : Bool) :
    s.malloc base fuel nbytes [g] = .ok (t, p) := by
  obtain ⟨⟨⟨h, q⟩, rest⟩, hcall, hret⟩ := exists_of_bind hs
  obtain ⟨used, hused, -, hmore⟩ := mallocLoop_used hcall
  obtain ⟨rfl, rfl⟩ := List.append_eq_nil_iff.mp hused.symm
  rw [Prog.malloc_ok (hmore (answers (sbrkArg nbytes) s.brk [g])), length_answers, Nat.sub_self]
  exact hret

theorem Inside.of_malloc (hi : Inside base start s) (hbase : 0 < base) (hstart : base + HEADER ≤ start)
    (hn : HEADER * Heap.units nbytes < 2 ^ 31) {fuel p : Nat} {grants : List Bool}
    (hs : s.malloc base fuel nbytes grants = .ok (t, p)) :
    Inside base start t ∧ s.brk ≤ t.brk ∧ (p ≠ 0 → start ≤ p ∧ p + nbytes ≤ t.brk) := by
  obtain ⟨g, gs, hs⟩ : ∃ g gs, s.malloc base fuel nbytes (g :: gs) = .ok (t, p) := by
    cases grants with
    | nil => exact ⟨true, [], Prog.malloc_of_nil hs true⟩
    | cons g gs => exact ⟨g, gs, hs⟩
  obtain ⟨F, t', p', hrun, hpost⟩ := hi.malloc hbase hstart hn g gs
  have heq := (Prog.malloc_mono hs (Nat.le_max_left fuel F)).symm.trans (hrun _ (Nat.le_max_right fuel F))
  obtain ⟨rfl, rfl⟩ := Prod.mk.inj (Except.ok.inj heq)
  exact hpost

theorem Inside.step (hi : Inside base start s) (hbase : 0 < base) (hstart : base + HEADER ≤ start) {c : Call}
    (hc : c.Small) (hs : Prog.Step base s c t) : Inside base start t := by
  cases hs with
  | malloc _ hcall => exact (hi.of_malloc hbase hstart hc hcall).1
  | @use a t ha hstep =>
    have hbound : Bounded s.sys a := by
      cases a with
      | malloc n answer => exact absurd rfl (ha n answer)
      | free bp => trivial
      | write hdr => trivial
    have hmem : t.heap.mem = s.sys.heap.mem := by
      cases hstep with
      | malloc => exact absurd rfl (ha _ _)
      | free _ hfree => exact free_mem hfree
      | write => rfl
    exact ⟨hi.good.step hbase hbound hstep, hmem ▸ hi.mem, hi.start_le, hi.brk_le⟩

theorem Inside.of_reach (hbase : 0 < base) (hstart : base + HEADER ≤ start) (hmem : start ≤ MEMORY)
    (hr : Prog.Reach base start Call.Small s) : Inside base start s := by
  induction hr with
  | start hdr => exact ⟨.inl ⟨rfl, rfl, rfl⟩, nofun, Nat.le_refl _, hmem⟩
  | step _ hc hs ih => exact ih.step hbase hstart hc hs

end

/-- In every state that a process reaches with small requests, a call of `malloc` with a small request returns,
does not lower the break, and returns 0 or memory between the first break and the current one. -/
theorem malloc_within_break (base start : Nat) (hbase : 0 < base) (hstart : base + HEADER ≤ start)
    (hmem : start ≤ MEMORY) (s : Prog) (hr : Prog.Reach base start Call.Small s) (nbytes : Nat)
    (hn : HEADER * Heap.units nbytes < 2 ^ 31) :
    (∀ fuel grants t p, s.malloc base fuel nbytes grants = .ok (t, p) →
      s.brk ≤ t.brk ∧ (p ≠ 0 → start ≤ p ∧ p + nbytes ≤ t.brk)) ∧
    ∀ g gs, ∃ F t p, ∀ fuel ≥ F, s.malloc base fuel nbytes (g :: gs) = .ok (t, p) := by
  have hi := Inside.of_reach hbase hstart hmem hr
  refine ⟨fun fuel grants t p hcall => (hi.of_malloc hbase hstart hn hcall).2, fun g gs => ?_⟩
  obtain ⟨F, t, p, hrun, -⟩ := hi.malloc hbase hstart hn g gs
  exact ⟨F, t, p, hrun⟩

def newProg (brk : Nat) : Prog := ⟨⟨⟨fun _ => ⟨0, 0⟩, 0, []⟩, []⟩, brk⟩

/-- The break before and after a call of `malloc`, and what it returns. -/
def breaks (s : Prog) (x : Prog × Nat) : Nat × Nat × Nat := (s.brk, x.1.brk, x.2)

theorem malloc_within_break_first : ∃ t, (newProg 12288).malloc 4096 10 100 [true] = .ok (t, 77712) ∧
    (newProg 12288).brk ≤ t.brk ∧ 12288 ≤ 77712 ∧ 77712 + 100 ≤ t.brk := by
  have hrun : ((newProg 12288).malloc 4096 10 100 [true]).map Prod.snd = .ok 77712 := by decide +kernel
  cases hcall : (newProg 12288).malloc 4096 10 100 [true] with
  | error e =>
    rw [hcall] at hrun
    cases hrun
  | ok x =>
    rw [hcall] at hrun
    have hp : x.2 = 77712 := Except.ok.inj hrun
    obtain ⟨hle, hin⟩ := (malloc_within_break 4096 12288 (by decide) (by decide) (by decide) _ (.start _) 100
      (by decide)).1 10 [true] x.1 x.2 hcall
    rw [hp] at hin
    exact ⟨x.1, by rw [← hp], hle, hin (by decide)⟩

/-- The second of two calls asks for 2^32 - 32 bytes, which is `sbrk(-16)`: it lowers the break by 16 and returns
an address behind it. The header lies in the last page of the process, so that writing it does not fault. -/
theorem malloc_lowers_break : ∃ s t, Prog.Reach 4096 12288 (fun _ => True) s ∧
    s.malloc 4096 10 (2 ^ 32 - 32) [true] = .ok (t, 77872) ∧ s.brk = 77856 ∧ t.brk = 77840 ∧ 77872 ≤ 81920 := by
  have hrun : (do
      let (s, _) ← (newProg 12288).malloc 4096 10 65552 [true]
      let x ← s.malloc 4096 10 (2 ^ 32 - 32) [true]
      return breaks s x : Except Stuck _) = .ok (77856, 77840, 77872) := by decide +kernel
  obtain ⟨⟨s, p⟩, hfirst, hrun⟩ := exists_of_bind hrun
  obtain ⟨⟨t, q⟩, hsecond, hobs⟩ := exists_of_bind hrun
  obtain ⟨h1, h2⟩ := Prod.mk.inj (Except.ok.inj hobs)
  obtain ⟨h2, rfl⟩ := Prod.mk.inj h2
  exact ⟨s, t, .step (.start _) trivial (.malloc (by decide) hfirst), hsecond, h1, h2, by decide⟩

end Xv6.Umalloc
