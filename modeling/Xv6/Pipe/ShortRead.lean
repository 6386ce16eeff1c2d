import Xv6.Pipe.Fifo

/-!
# What a `piperead` takes out of the pipe

The copying loop of `piperead` runs with `pi->lock` held. It moves `nread` on before it calls
`copyout`, so a byte whose `copyout` fails has left the pipe although it was never delivered. The pipe keeps
all but the bytes that the call reports exactly if every `copyout` succeeds.
-/

namespace Xv6.PipeMachine

open Function

variable {n : Nat} {s t : PipeMachine n} {p : Fin n} {i : Nat} {m : Int}

/-- The steps of the copying loop from the byte `i` on; `ok j` says that `copyout` to the byte `j` of the
destination succeeds. -/
def copySteps (p : Fin n) (ok : Nat → Bool) (i len : Nat) : List (PipeAct n) :=
  (List.range' i len).map fun j => .step p (!ok j) 0

/-- The loop of `piperead` has left with `r` bytes. -/
def LeftLoop (t : PipeMachine n) (p : Fin n) (m : Int) (r : Nat) : Prop :=
  t.pos p = .wakeup .nwrite 0 (.leave (.read m) r)

/-- What the loop has done when it leaves: it has delivered the first `k` bytes, and `gone` bytes have left
the pipe. -/
structure Took (s t : PipeMachine n) (k gone : Nat) : Prop where
  delivered : t.delivered = s.delivered ++ s.pipe.stored.take k
  stored : t.pipe.stored = s.pipe.stored.drop gone

theorem copySteps_succ (ok : Nat → Bool) (i len : Nat) :
    copySteps p ok i (len + 1) = .step p (!ok i) 0 :: copySteps p ok (i + 1) len := by
  simp only [copySteps, List.range'_succ, List.map_cons]

theorem step_readCopy_done {fault : Bool} {ch : UInt8} (hp : s.pos p = .readCopy i m)
    (h : ¬ ((i : Int) < m ∧ s.pipe.empty = false)) :
    step s (.step p fault ch) = some (s.goto p (.wakeup .nwrite 0 (.leave (.read m) i))) := by
  simp only [step, act, hp, piperead, if_neg h]

theorem step_readCopy_fault {ch : UInt8} (hp : s.pos p = .readCopy i m)
    (h : (i : Int) < m ∧ s.pipe.empty = false) :
    step s (.step p true ch) =
      some (goto { s with pipe := s.pipe.advance } p (.wakeup .nwrite 0 (.leave (.read m) i))) := by
  simp only [step, act, hp, piperead, if_pos h, if_true]

/-- The machine after the byte `i` has been delivered. -/
def deliver (s : PipeMachine n) (p : Fin n) (i : Nat) (m : Int) : PipeMachine n :=
  goto { s with
    pipe := s.pipe.advance
    delivered := s.delivered ++ [s.pipe.front] } p (.readCopy (i + 1) m)

theorem step_readCopy_byte {ch : UInt8} (hp : s.pos p = .readCopy i m)
    (h : (i : Int) < m ∧ s.pipe.empty = false) :
    step s (.step p false ch) = some (s.deliver p i m) := by
  simp only [step, act, hp, piperead, if_pos h, if_false, Bool.false_eq_true]
  rfl

theorem pos_deliver : (s.deliver p i m).pos p = .readCopy (i + 1) m := update_self ..

theorem Took.of_deliver {k gone : Nat} (hpos : 0 < s.pipe.count) (h : Took (s.deliver p i m) t k gone) :
    Took s t (k + 1) (gone + 1) := by
  have hstored : s.pipe.stored = s.pipe.front :: (s.deliver p i m).pipe.stored :=
    Pipe.stored_advance hpos
  constructor
  · rw [h.delivered, hstored]
    exact List.append_assoc s.delivered [s.pipe.front] _
  · rw [h.stored, hstored, List.drop_succ_cons]

/-- The loop has left at the byte `i + k`: `copyout` failed there, or there was nothing left to copy. -/
inductive LoopEnd (ok : Nat → Bool) (i : Nat) (m : Int) (s t : PipeMachine n) (k : Nat) : Prop where
  | fault (hm : ((i + k : Nat) : Int) < m) (hk : k < s.pipe.count) (hok : ok (i + k) = false)
      (took : Took s t k (k + 1))
  | done (h : m ≤ ((i + k : Nat) : Int) ∨ s.pipe.count ≤ k) (hok : ∀ j, i ≤ j → j < i + k → ok j = true)
      (took : Took s t k k)

theorem LoopEnd.of_deliver {ok : Nat → Bool} {k : Nat} (hpos : 0 < s.pipe.count) (hi : ok i = true)
    (h : LoopEnd ok (i + 1) m (s.deliver p i m) t k) : LoopEnd ok i m s t (k + 1) := by
  have hcount : (s.deliver p i m).pipe.count + 1 = s.pipe.count := Pipe.count_advance hpos
  have hsum : i + 1 + k = i + (k + 1) := by omega
  cases h with
  | fault hm hk hok took =>
    rw [hsum] at hm hok
    exact .fault hm (by omega) hok (took.of_deliver hpos)
  | done hdone hok took =>
    rw [hsum] at hdone hok
    refine .done (by omega) (fun j h1 h2 => ?_) (took.of_deliver hpos)
    rcases Nat.eq_or_lt_of_le h1 with rfl | hlt
    · exact hi
    · exact hok j hlt h2

theorem exec_readCopy (ok : Nat → Bool) (hp : s.pos p = .readCopy i m) :
    ∃ k t, Run.exec step s (copySteps p ok i (k + 1)) = some t ∧ LeftLoop t p m (i + k) ∧
      LoopEnd ok i m s t k := by
  -- the induction is on the bytes of the request that are left
  induction hd : (m - i).toNat generalizing s i with
  | zero =>
    have hdone : ¬ ((i : Int) < m ∧ s.pipe.empty = false) := by omega
    refine ⟨0, s.goto p (.wakeup .nwrite 0 (.leave (.read m) i)), ?_, update_self .., ?_⟩
    · rw [copySteps_succ]
      exact Run.exec_cons.mpr ⟨_, step_readCopy_done hp hdone, rfl⟩
    · exact .done (.inl (by omega)) (fun j _ _ => by omega) ⟨(List.append_nil _).symm, rfl⟩
  | succ d ih =>
    by_cases hgo : (i : Int) < m ∧ s.pipe.empty = false
    · have hpos : 0 < s.pipe.count := count_pos_of_not_empty hgo.2
      cases hok : ok i with
      | false =>
        refine ⟨0, goto { s with pipe := s.pipe.advance } p (.wakeup .nwrite 0 (.leave (.read m) i)), ?_,
          update_self .., ?_⟩
        · rw [copySteps_succ, hok]
          exact Run.exec_cons.mpr ⟨_, step_readCopy_fault hp hgo, rfl⟩
        · refine .fault hgo.1 hpos hok ⟨(List.append_nil _).symm, ?_⟩
          rw [Pipe.stored_advance hpos]
          rfl
      | true =>
        obtain ⟨k, t, hexec, hleft, hend⟩ := ih (s := s.deliver p i m) pos_deliver (by omega)
        refine ⟨k + 1, t, ?_, ?_, hend.of_deliver hpos hok⟩
        · rw [copySteps_succ, hok]
          exact Run.exec_cons.mpr ⟨_, step_readCopy_byte hp hgo, hexec⟩
        · rw [show i + (k + 1) = i + 1 + k by omega]
          exact hleft
    · refine ⟨0, s.goto p (.wakeup .nwrite 0 (.leave (.read m) i)), ?_, update_self .., ?_⟩
      · rw [copySteps_succ]
        exact Run.exec_cons.mpr ⟨_, step_readCopy_done hp hgo, rfl⟩
      · refine .done (.inr ?_) (fun j _ _ => by omega) ⟨(List.append_nil _).symm, rfl⟩
        have hempty : s.pipe.empty = true := by
          rw [← Bool.not_eq_false]
          exact fun he => hgo ⟨by omega, he⟩
        exact (Pipe.empty_iff.mp hempty).le

/-- A `piperead` delivers the bytes that it reports. It leaves in the pipe exactly the bytes behind them if and
only if its destination takes every byte that is there. -/
theorem piperead_keeps_rest (s : PipeMachine n) (p : Fin n) (m : Int) (ok : Nat → Bool)
    (hp : s.pos p = .readCopy 0 m) :
    ∃ r t, Run.exec step s (copySteps p ok 0 (r + 1)) = some t ∧ LeftLoop t p m r ∧
      t.delivered = s.delivered ++ s.pipe.stored.take r ∧
      (t.pipe.stored = s.pipe.stored.drop r ↔ ∀ j : Nat, (j : Int) < m → j < s.pipe.count → ok j = true) := by
  obtain ⟨k, t, hexec, hleft, hend⟩ := exec_readCopy ok hp
  rw [Nat.zero_add] at hleft
  refine ⟨k, t, hexec, hleft, ?_⟩
  cases hend with
  | fault hm hk hfail took =>
    rw [Nat.zero_add] at hm hfail
    refine ⟨took.delivered, iff_of_false (fun heq => ?_) fun hall => ?_⟩
    · have hlen := congrArg List.length (took.stored.symm.trans heq)
      rw [List.length_drop, List.length_drop, Pipe.stored, Ring.length_items] at hlen
      omega
    · exact Bool.false_ne_true (hfail.symm.trans (hall k hm hk))
  | done hdone hok took =>
    refine ⟨took.delivered, iff_of_true took.stored fun j hm hj => hok j (Nat.zero_le j) ?_⟩
    omega

/-- Process 0 writes two bytes and process 1 calls `piperead` for one. -/
def twoByteRun : List (PipeAct 2) :=
  .call 0 (.write 2) :: List.replicate 12 (.step 0 false 104) ++
    .call 1 (.read 1) :: List.replicate 2 (.step 1 false 0)

theorem twoByteRun_reaches : ∃ s, Run.exec step (boot 2 fun _ => 0) twoByteRun = some s ∧
    s.pos 1 = .readCopy 0 1 ∧ s.pipe.stored = [104, 104] := by
  have hrun : (Run.exec step (boot 2 fun _ => 0) twoByteRun).map (fun s => (s.pos 1, s.pipe.stored)) =
      some (.readCopy 0 1, [104, 104]) := by decide +kernel
  obtain ⟨s, hs, hobs⟩ := Option.map_eq_some_iff.mp hrun
  exact ⟨s, hs, Prod.mk.inj hobs⟩

theorem piperead_keeps_rest_twoBytes :
    ∃ s, Run.exec step (boot 2 fun _ => 0) twoByteRun = some s ∧ s.pipe.stored = [104, 104] ∧
      ∃ r t, Run.exec step s (copySteps 1 (fun _ => true) 0 (r + 1)) = some t ∧ LeftLoop t 1 1 r ∧
        t.delivered = s.delivered ++ s.pipe.stored.take r ∧ t.pipe.stored = s.pipe.stored.drop r := by
  obtain ⟨s, hs, hpos, hstored⟩ := twoByteRun_reaches
  obtain ⟨r, t, hexec, hleft, hdel, hiff⟩ := piperead_keeps_rest s 1 1 (fun _ => true) hpos
  exact ⟨s, hs, hstored, r, t, hexec, hleft, hdel, hiff.mpr fun _ _ _ => rfl⟩

/-- Process 0 writes one byte and process 1 calls `piperead` for it. -/
def oneByteRun : List (PipeAct 2) :=
  .call 0 (.write 1) :: List.replicate 9 (.step 0 false 104) ++
    .call 1 (.read 1) :: List.replicate 2 (.step 1 false 0)

/-- With an unmapped destination `piperead` returns 0, and the byte is gone. -/
theorem piperead_loses_byte :
    ∃ s, Run.exec step (boot 2 fun _ => 0) oneByteRun = some s ∧ s.pos 1 = .readCopy 0 1 ∧
      s.pipe.stored = [104] ∧
      ∃ t, Run.exec step s (copySteps 1 (fun _ => false) 0 1) = some t ∧ LeftLoop t 1 1 0 ∧
        t.delivered = [] ∧ t.pipe.stored = [] := by
  have hrun : ((Run.exec step (boot 2 fun _ => 0) oneByteRun).bind fun s =>
      (Run.exec step s (copySteps 1 (fun _ => false) 0 1)).map fun t =>
        ((s.pos 1, s.pipe.stored), t.pos 1, t.delivered, t.pipe.stored)) =
      some ((.readCopy 0 1, [104]), .wakeup .nwrite 0 (.leave (.read 1) 0), [], []) := by
    decide +kernel
  obtain ⟨s, hs, hmap⟩ := Option.bind_eq_some_iff.mp hrun
  obtain ⟨t, ht, hobs⟩ := Option.map_eq_some_iff.mp hmap
  simp only [Prod.mk.injEq] at hobs
  obtain ⟨⟨hpos, hstored⟩, hleft, hdel, hempty⟩ := hobs
  exact ⟨s, hs, hpos, hstored, t, ht, hleft, hdel, hempty⟩

end Xv6.PipeMachine
