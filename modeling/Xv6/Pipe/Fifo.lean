import Xv6.Lib.Ring
import Xv6.Pipe.Steps

/-!
# A pipe is a FIFO queue

The bytes in the ring of a pipe, read from `nread` on, are those that `pipewrite` has stored and
`piperead` has not yet taken, in their order. The counters run freely modulo `2 ^ 32`, of which
`PIPESIZE` is a divisor.
-/

namespace Xv6

namespace Pipe

variable {pi : Pipe} {ch : UInt8}

def count (pi : Pipe) : Nat := (pi.nwrite - pi.nread).toNat

def stored (pi : Pipe) : List UInt8 := Ring.items PIPESIZE pi.data pi.nread.toNat pi.count

theorem nwrite_toNat (pi : Pipe) : pi.nwrite.toNat = (pi.nread.toNat + pi.count) % 2 ^ 32 := by
  have h1 := pi.nwrite.toNat_lt
  have h2 := pi.nread.toNat_lt
  rw [count, UInt32.toNat_sub]
  omega

theorem full_iff : pi.full = true ↔ pi.count = PIPESIZE := by
  have h1 := pi.nwrite.toNat_lt
  have h2 := pi.nread.toNat_lt
  simp only [full, beq_iff_eq, count, ← UInt32.toNat_inj, UInt32.toNat_add, UInt32.toNat_sub,
    UInt32.toNat_ofNat', PIPESIZE]
  omega

theorem empty_iff : pi.empty = true ↔ pi.count = 0 := by
  have h1 := pi.nwrite.toNat_lt
  have h2 := pi.nread.toNat_lt
  simp only [empty, beq_iff_eq, count, ← UInt32.toNat_inj, UInt32.toNat_sub]
  omega

theorem count_store (h : pi.count < PIPESIZE) : (pi.store ch).count = pi.count + 1 := by
  simp only [count, store, UInt32.toNat_add, UInt32.toNat_sub, UInt32.toNat_one, PIPESIZE] at h ⊢
  omega

theorem count_advance (h : 0 < pi.count) : pi.advance.count + 1 = pi.count := by
  have h2 := pi.nread.toNat_lt
  simp only [count, advance, UInt32.toNat_add, UInt32.toNat_sub, UInt32.toNat_one] at h ⊢
  omega

theorem nwrite_cell (pi : Pipe) :
    pi.nwrite.toNat % PIPESIZE = (pi.nread.toNat + pi.count) % PIPESIZE := by
  rw [nwrite_toNat, Nat.mod_mod_of_dvd _ (by decide)]

theorem stored_store (h : pi.count < PIPESIZE) : (pi.store ch).stored = pi.stored ++ [ch] := by
  rw [stored, count_store h]
  simp only [store]
  rw [nwrite_cell]
  exact Ring.items_update ch h

theorem stored_advance (h : 0 < pi.count) : pi.stored = pi.front :: pi.advance.stored := by
  have hnext : pi.advance.nread.toNat = (pi.nread.toNat + 1) % 2 ^ 32 := by
    simp [advance, UInt32.toNat_add]
  rw [stored, ← count_advance h, Ring.items_succ]
  rw [stored, hnext, Ring.items_mod (by decide)]
  rfl

theorem count_close (w : Bool) : (pi.close w).count = pi.count := by
  cases w <;> rfl

theorem stored_close (w : Bool) : (pi.close w).stored = pi.stored := by
  cases w <;> rfl

theorem data_close (w : Bool) : (pi.close w).data = pi.data := by
  cases w <;> rfl

end Pipe

/-- How many bytes a call that returns `r` has stored; before -1 it may be any number. -/
def PipeCall.stored (r : Int) : PipeCall → Option Nat
  | .write _ => if r < 0 then none else some r.toNat
  | _ => some 0

def PipeLoop.stored : PipeLoop → Nat
  | .write i _ => i
  | .read _ => 0

/-- How many bytes a call that has come to the position has stored. -/
def PipePos.stored : PipePos → Option Nat
  | .writeLoop i _ | .writeKilled i _ | .writeBody i _ | .wakeup _ _ (.sleep i _) => some i
  | .wakeup _ _ (.leave call r) | .leave call r => call.stored r
  | .sleep _ l | .sleepHeld _ l | .sleepSet _ l | .asleep _ l | .relock l => some l.stored
  | .out => none
  | _ => some 0

/-- A step of `p`. -/
def PipeAct.isOf {n : Nat} (p : Fin n) : PipeAct n → Bool
  | .step q _ _ => q = p
  | _ => false

namespace PipeMachine

variable {n : Nat} {s t : PipeMachine n} {p q : Fin n} {a : PipeAct n} {fault : Bool}

theorem PipeStep.bytes (h : PipeStep s p fault t) :
    (t.pipe = s.pipe ∨ ∃ w, t.pipe = s.pipe.close w) ∧
        t.accepted = s.accepted ∧ t.delivered = s.delivered ∨
    (∃ ch, s.pipe.full = false ∧ t.pipe = s.pipe.store ch ∧ t.accepted = s.accepted ++ [ch] ∧
      t.delivered = s.delivered) ∨
    (s.pipe.empty = false ∧ t.pipe = s.pipe.advance ∧ t.accepted = s.accepted ∧
      (∃ i m, s.pos p = .readCopy i m) ∧
      (fault = false → t.delivered = s.delivered ++ [s.pipe.front])) := by
  cases h with
  | store _ hf => exact .inr (.inl ⟨_, hf, rfl, rfl, rfl⟩)
  | deliver hp he => exact .inr (.inr ⟨he, rfl, rfl, ⟨_, _, hp⟩, fun _ => rfl⟩)
  | drop hp he hf =>
    exact .inr (.inr ⟨he, rfl, rfl, ⟨_, _, hp⟩, fun hc => by rw [hf] at hc; cases hc⟩)
  | close => exact .inl ⟨.inr ⟨_, rfl⟩, rfl, rfl⟩
  | _ => exact .inl ⟨.inl rfl, rfl, rfl⟩

def CountInv (s : PipeMachine n) : Prop := s.pipe.count ≤ PIPESIZE

theorem CountInv.lt_of_not_full (hs : CountInv s) (h : s.pipe.full = false) :
    s.pipe.count < PIPESIZE := by
  have hne : s.pipe.count ≠ PIPESIZE := fun hc => by
    rw [Pipe.full_iff.mpr hc] at h
    cases h
  exact lt_of_le_of_ne hs hne

theorem count_pos_of_not_empty (h : s.pipe.empty = false) : 0 < s.pipe.count := by
  by_contra hc
  rw [Pipe.empty_iff.mpr (by omega)] at h
  cases h

theorem CountInv.step (hs : CountInv s) (h : step s a = some t) : CountInv t := by
  obtain ⟨p, call, rfl, hp, rfl⟩ | ⟨p, fault, ch, rfl, hst⟩ | ⟨p, rfl, -, rfl⟩ := step_cases h
  · exact hs
  · rw [CountInv] at hs ⊢
    obtain ⟨hpi | ⟨w, hpi⟩, -, -⟩ | ⟨c, hf, hpi, -, -⟩ | ⟨he, hpi, -⟩ := hst.bytes <;> rw [hpi]
    · exact hs
    · rwa [Pipe.count_close]
    · have := CountInv.lt_of_not_full hs hf
      rw [Pipe.count_store this]
      omega
    · have := Pipe.count_advance (count_pos_of_not_empty he)
      omega
  · exact hs

def FifoInv (s : PipeMachine n) : Prop := s.delivered ++ s.pipe.stored = s.accepted

/-- No `copyout` of a reader fails in this step. -/
def CopiesOut (s : PipeMachine n) : PipeAct n → Prop
  | .step p fault _ => match s.pos p with
    | .readCopy _ _ => fault = false
    | _ => True
  | _ => True

instance (s : PipeMachine n) (a : PipeAct n) : Decidable (CopiesOut s a) := by
  cases a with
  | step p fault ch =>
    unfold CopiesOut
    dsimp only
    split <;> infer_instance
  | _ => exact inferInstanceAs (Decidable True)

theorem CopiesOut.fault_eq {ch : UInt8} {i : Nat} {m : Int} (h : CopiesOut s (.step p fault ch))
    (hp : s.pos p = .readCopy i m) : fault = false := by
  simpa only [CopiesOut, hp] using h

theorem FifoInv.step (hs : FifoInv s) (hc : CountInv s) (hg : CopiesOut s a)
    (h : step s a = some t) : FifoInv t := by
  obtain ⟨p, call, rfl, hp, rfl⟩ | ⟨p, fault, ch, rfl, hst⟩ | ⟨p, rfl, -, rfl⟩ := step_cases h
  · exact hs
  · rw [FifoInv] at hs ⊢
    obtain ⟨hpi | ⟨w, hpi⟩, hacc, hdel⟩ | ⟨c, hf, hpi, hacc, hdel⟩ | ⟨he, hpi, hacc, ⟨i, m, hp⟩, hdel⟩ :=
      hst.bytes
    · rw [hpi, hacc, hdel, hs]
    · rw [hpi, hacc, hdel, Pipe.stored_close, hs]
    · rw [hpi, hacc, hdel, Pipe.stored_store (hc.lt_of_not_full hf), ← List.append_assoc, hs]
    · rw [Pipe.stored_advance (count_pos_of_not_empty he)] at hs
      rw [hpi, hacc, hdel (hg.fault_eq hp), ← hs]
      simp
  · exact hs

theorem stored_kept (hc : CountInv s) (h : step s a = some t) {k : Nat} (hk : k < s.pipe.count) :
    t.pipe.data ((s.pipe.nread.toNat + k) % PIPESIZE) =
      s.pipe.data ((s.pipe.nread.toNat + k) % PIPESIZE) := by
  obtain ⟨p, call, rfl, hp, rfl⟩ | ⟨p, fault, ch, rfl, hst⟩ | ⟨p, rfl, -, rfl⟩ := step_cases h
  · rfl
  · obtain ⟨hpi | ⟨w, hpi⟩, -, -⟩ | ⟨c, hf, hpi, -, -⟩ | ⟨he, hpi, -⟩ := hst.bytes <;> rw [hpi]
    · rw [Pipe.data_close]
    · simp only [Pipe.store]
      rw [Pipe.nwrite_cell]
      exact Function.update_of_ne (Ring.cell_ne hk (hc.lt_of_not_full hf)) _ _
    · rfl
  · rfl

/-! ## The end of the file -/

/-- What `piperead` knows at each of its positions about a result of `0`. -/
def EofOk (pi : Pipe) : PipePos → Prop
  | .readCopy i _ => i = 0 → pi.empty = false ∨ pi.writeopen = false
  | .wakeup _ _ (.leave (.read m) r) => r = 0 → 0 < m → pi.empty = true ∧ pi.writeopen = false
  | .leave (.read m) r => r = 0 → 0 < m → pi.empty = true ∧ pi.writeopen = false
  | _ => True

theorem EofOk.of_not_holds {pi : Pipe} {b : PipePos} (h : b.holds = false) : EofOk pi b := by
  cases b <;> trivial

def EofInv (s : PipeMachine n) : Prop := ∀ q, EofOk s.pipe (s.pos q)

theorem Goes.eofOk {b c : PipePos} (h : Goes s p b c) (hb : EofOk s.pipe b) : EofOk s.pipe c := by
  cases h with
  | readReady hr =>
    intro _
    cases he : s.pipe.empty with
    | false => exact .inl rfl
    | true => exact .inr (by simpa [he] using hr)
  | readDead =>
    intro hr
    omega
  | readDone hd =>
    rename_i i m
    intro hi hm
    have hi : i = 0 := by omega
    subst hi
    have he : s.pipe.empty = true := by simpa [hm] using hd
    exact ⟨he, (hb rfl).resolve_left (by simp [he])⟩
  | wakeupSelf =>
    rename_i chan next
    cases next with
    | sleep => trivial
    | leave call r => cases call <;> exact hb
  | wakeupEnd =>
    rename_i chan j next _
    cases next with
    | sleep => trivial
    | leave call r => cases call <;> exact hb
  | _ => trivial

theorem PipeStep.eofOk (h : PipeStep s p fault t) (hf : ∀ i m, s.pos p = .readCopy i m → fault = false)
    (hb : EofOk s.pipe (s.pos p)) : EofOk t.pipe (t.pos p) := by
  cases h with
  | goes hp hg =>
    rw [hp] at hb
    simpa using hg.eofOk hb
  | acquire hp hg =>
    cases hg with
    | enter call => cases call <;> simp [start, EofOk]
    | relock loop => cases loop <;> simp [again, EofOk]
  | drop hp he hfault =>
    rw [hf _ _ hp] at hfault
    cases hfault
  | deliver => simp [EofOk]
  | wakeup hp =>
    rename_i chan next q _ _
    rw [hp] at hb
    cases next with
    | sleep => simp [EofOk]
    | leave call r =>
      cases call with
      | read => simpa [EofOk, setProc] using hb
      | _ => simp [EofOk]
  | close => simp [pipeclose, EofOk]
  | leave => simp [release, EofOk]
  | _ => simp [EofOk]

theorem EofInv.step (hs : EofInv s) (hl : HolderInv s) (hg : CopiesOut s a) (h : step s a = some t) :
    EofInv t := by
  obtain ⟨p, call, rfl, hp, rfl⟩ | ⟨p, fault, ch, rfl, hst⟩ | ⟨p, rfl, -, rfl⟩ := step_cases h
  · intro q
    by_cases hq : q = p
    · subst hq
      simp [EofOk]
    · simpa [hq] using hs q
  · intro q
    by_cases hq : q = p
    · subst hq
      exact hst.eofOk (fun i m hp => hg.fault_eq hp) (hs q)
    · obtain ⟨c, hpos, -⟩ := hst.moves
      rw [hpos, Function.update_of_ne hq]
      cases hh : (s.pos p).holds with
      | false => exact hst.pipe_eq hh ▸ hs q
      | true => exact .of_not_holds (hl.others hh hq)
  · exact hs

/-! ## The bytes of a call -/

section

variable {buf : Nat → UInt8} {k : Nat}

theorem Goes.stored {b c : PipePos} (h : Goes s p b c) (hk : c.stored = some k) : b.stored = some k := by
  cases h with
  | @wakeupSelf chan next => cases next <;> exact hk
  | @wakeupEnd chan j next => cases next <;> exact hk
  | writeShut | writeDead => simp [PipePos.stored, PipeCall.stored] at hk
  | _ => simpa [PipePos.stored, PipeCall.stored, PipeLoop.stored] using hk

theorem PipeStep.stored (h : PipeStep s p fault t) :
    (∀ k, (t.pos p).stored = some k → (s.pos p).stored = some k) ∧ t.accepted = s.accepted ∨
      ∃ i m c, s.pos p = .writeBody i m ∧ t.pos p = .writeLoop (i + 1) m ∧ t.accepted = s.accepted ++ [c] := by
  cases h with
  | goes hp hg => exact .inl ⟨fun k hk => hp ▸ hg.stored (by simpa using hk), rfl⟩
  | acquire hp hg =>
    refine .inl ⟨fun k hk => ?_, rfl⟩
    rw [hp]
    cases hg with
    | enter call => cases call <;> simpa [start, PipePos.stored] using hk
    | relock loop => cases loop <;> simpa [again, PipePos.stored, PipeLoop.stored] using hk
  | store hp => exact .inr ⟨_, _, _, hp, by simp, rfl⟩
  | wakeup hp =>
    rename_i chan next q _ _
    refine .inl ⟨fun k hk => ?_, rfl⟩
    rw [hp]
    cases next <;> simpa [PipePos.stored] using hk
  | leave => exact .inl ⟨by simp [release, PipePos.stored], rfl⟩
  | close hp => exact .inl ⟨fun k hk => by simpa [hp, pipeclose, PipePos.stored, PipeCall.stored] using hk, rfl⟩
  | _ hp => exact .inl ⟨fun k hk => by simpa [hp, PipePos.stored, PipeCall.stored] using hk, rfl⟩

/-- The process `p` makes no new call, and its `copyin`s find the bytes of `buf`. -/
def During (p : Fin n) (buf : Nat → UInt8) (s : PipeMachine n) : PipeAct n → Prop
  | .call q _ => q ≠ p
  | .step q _ ch => q = p → ∀ i m, s.pos p = .writeBody i m → ch = buf i
  | .kill _ => True

theorem byte_stored {ch : UInt8} {i : Nat} {m : Int} (hp : s.pos p = .writeBody i m)
    (h : step s (.step p fault ch) = some t) : t.accepted = s.accepted ∨ t.accepted = s.accepted ++ [ch] := by
  simp only [step, act, hp, pipewrite] at h
  split_ifs at h <;> cases h
  · exact .inl rfl
  · exact .inl rfl
  · exact .inr rfl

/-- `p` has stored the bytes `l`, which are the first of its buffer. -/
def Stored (p : Fin n) (buf : Nat → UInt8) (s : PipeMachine n) (l : List UInt8) : Prop :=
  ∃ k, l = (List.range k).map buf ∧ ∀ j, (s.pos p).stored = some j → k = j

theorem Stored.step {l : List UInt8} (hl : Stored p buf s l) (hG : During p buf s a) (h : step s a = some t) :
    Stored p buf t (l ++ if a.isOf p then t.accepted.drop s.accepted.length else []) := by
  obtain ⟨k, rfl, hk⟩ := hl
  obtain ⟨q, c, rfl, -, rfl⟩ | ⟨q, fault, ch, rfl, hst⟩ | ⟨q, rfl, -, rfl⟩ := step_cases h
  · refine ⟨k, by simp [PipeAct.isOf], ?_⟩
    simpa [Function.update_of_ne (Ne.symm hG)] using hk
  · by_cases hqp : q = p
    · subst hqp
      obtain ⟨hpos, hacc⟩ | ⟨i, m, c, hp, hp', hacc⟩ := hst.stored
      · exact ⟨k, by simp [hacc], fun j hj => hk j (hpos j hj)⟩
      · obtain rfl := hk i (by rw [hp]; rfl)
        have hc : c = buf k := by
          rw [← hG rfl k m hp]
          rcases byte_stored hp h with heq | heq
          · simp [heq] at hacc
          · simpa [heq] using hacc.symm
        exact ⟨k + 1, by simp [PipeAct.isOf, hacc, hc, List.range_succ], by simp [hp', PipePos.stored]⟩
    · obtain ⟨b, hpos, -⟩ := hst.moves
      refine ⟨k, by simp [PipeAct.isOf, hqp], ?_⟩
      rwa [hpos, Function.update_of_ne (Ne.symm hqp)]
  · exact ⟨k, by simp [PipeAct.isOf], hk⟩

theorem stored_run {u v : PipeMachine n} {call : PipeCall} {post : List (PipeAct n)}
    (hcall : step v (.call p call) = some u) (hrun : Run.exec step u post = some s)
    (hG : Run.Along step (During p buf) u post) : Stored p buf s (Run.adds step accepted (·.isOf p) u post) := by
  have hu : Stored p buf u [] := by
    obtain ⟨q, c, heq, -, rfl⟩ | ⟨q, fault, ch, heq, -⟩ | ⟨q, heq, -⟩ := step_cases hcall <;> cases heq
    exact ⟨0, rfl, by simp [PipePos.stored]⟩
  exact Run.exec_adds (fun _ _ _ _ hl hG h => hl.step hG h) hrun hG hu

theorem accepted_step (h : step s a = some t) : t.accepted = s.accepted ∨
    ∃ p fault ch i m, a = .step p fault ch ∧ s.pos p = .writeBody i m ∧ t.accepted = s.accepted ++ [ch] := by
  obtain ⟨q, c, rfl, -, rfl⟩ | ⟨q, fault, ch, rfl, hst⟩ | ⟨q, rfl, -, rfl⟩ := step_cases h
  · exact .inl rfl
  · obtain ⟨-, hacc⟩ | ⟨i, m, -, hp, -⟩ := hst.stored
    · exact .inl hacc
    · exact (byte_stored hp h).imp_right fun hacc => ⟨q, fault, ch, i, m, rfl, hp, hacc⟩
  · exact .inl rfl

end

/-! ## Whole runs -/

/-- A pipe is a FIFO byte queue. -/
structure PipeFifo (s : PipeMachine n) : Prop where
  /-- delivered bytes, then stored bytes, are the accepted bytes -/
  fifo : s.delivered ++ s.pipe.stored = s.accepted
  bounded : (s.pipe.nwrite - s.pipe.nread).toNat ≤ PIPESIZE
  /-- the next step, whatever it is, leaves the cells of the stored bytes alone -/
  kept : ∀ a t, step s a = some t → ∀ k < (s.pipe.nwrite - s.pipe.nread).toNat,
    t.pipe.data ((s.pipe.nread.toNat + k) % PIPESIZE) = s.pipe.data ((s.pipe.nread.toNat + k) % PIPESIZE)
  /-- only the loop of `pipewrite` adds a byte, the one that its `copyin` has found -/
  adds : ∀ a t, step s a = some t → t.accepted = s.accepted ∨
    ∃ p fault ch i m, a = .step p fault ch ∧ s.pos p = .writeBody i m ∧ t.accepted = s.accepted ++ [ch]
  /-- a call that is about to return has added the first `k` bytes of its buffer, with `k` what `pipewrite`
  returns unless it returns -1, and 0 for the other calls -/
  calls : ∀ v u p call post buf r, step v (.call p call) = some u → Run.exec step u post = some s →
    Run.Along step (During p buf) u post → s.pos p = .leave call r →
    ∃ k, Run.adds step accepted (·.isOf p) u post = (List.range k).map buf ∧ ∀ j, call.stored r = some j → k = j
  /-- a `piperead` of `m > 0` bytes that is about to return `0` -/
  eof : ∀ p m, s.pos p = .leave (.read m) 0 → 0 < m →
    s.pipe.nread = s.pipe.nwrite ∧ s.pipe.writeopen = false

/-- The invariants of a pipe to which all `copyout`s succeed. -/
structure FifoRun (s : PipeMachine n) : Prop where
  holder : HolderInv s
  count : CountInv s
  fifo : FifoInv s
  eof : EofInv s

theorem fifoRun_boot (data : Nat → UInt8) : FifoRun (boot n data) where
  holder := holderInv_boot data
  count := by simp [CountInv, boot, Pipe.alloc, Pipe.count]
  fifo := by simp [FifoInv, boot, Pipe.alloc, Pipe.stored, Pipe.count]
  eof := by
    intro q
    simp [boot, EofOk]

theorem FifoRun.step (hs : FifoRun s) (hg : CopiesOut s a) (h : step s a = some t) : FifoRun t where
  holder := hs.holder.step h
  count := hs.count.step h
  fifo := hs.fifo.step hs.count hg h
  eof := hs.eof.step hs.holder hg h

theorem pipe_fifo {data : Nat → UInt8} {acts : List (PipeAct n)}
    (hrun : Run.exec step (boot n data) acts = some s)
    (hcopy : Run.Along step CopiesOut (boot n data) acts) : PipeFifo s := by
  have hs : FifoRun s :=
    Run.exec_invariant (fun _ _ _ hs hg h => FifoRun.step hs hg h) hrun hcopy (fifoRun_boot data)
  refine ⟨hs.fifo, hs.count, fun a t h k hk => stored_kept hs.count h hk, fun a t => accepted_step,
    fun v u p call post buf r hcall hpost hG hp => ?_, fun p m hp hm => ?_⟩
  · obtain ⟨k, hl, hk⟩ := stored_run hcall hpost hG
    rw [hp] at hk
    exact ⟨k, hl, hk⟩
  · have heof := hs.eof p
    rw [hp] at heof
    obtain ⟨hempty, hclosed⟩ := heof rfl hm
    exact ⟨by simpa [Pipe.empty] using hempty, hclosed⟩

/-- Process 0 writes two bytes and closes the write end; process 1 takes them with a `piperead` of five
bytes and calls `piperead` again. -/
def echoRun : List (PipeAct 2) :=
  .call 0 (.write 2) :: List.replicate 4 (.step 0 false 104) ++ List.replicate 8 (.step 0 false 105) ++
    .call 1 (.read 5) :: List.replicate 9 (.step 1 false 0) ++
    .call 0 (.close true) :: List.replicate 6 (.step 0 false 0) ++
    .call 1 (.read 5) :: List.replicate 6 (.step 1 false 0)

theorem pipe_fifo_echoRun :
    ∃ s, Run.exec step (boot 2 fun _ => 0) echoRun = some s ∧ s.delivered = [104, 105] ∧
      s.pos 1 = .leave (.read 5) 0 ∧ PipeFifo s := by
  have hrun : (Run.exec step (boot 2 fun _ => 0) echoRun).map (fun s => (s.delivered, s.pos 1)) =
      some ([104, 105], .leave (.read 5) 0) := by decide +kernel
  obtain ⟨s, hs, hobs⟩ := Option.map_eq_some_iff.mp hrun
  obtain ⟨hdel, hpos⟩ := Prod.mk.inj hobs
  exact ⟨s, hs, hdel, hpos, pipe_fifo hs (by decide +kernel)⟩

end PipeMachine

end Xv6
