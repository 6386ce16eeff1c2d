import Xv6.Log.Commit
import Xv6.Lib.Run

/-!
# Group commit: the protocol of `begin_op`, `log_write` and `end_op`

The in-memory side of `log.c` for any number of processes. Each critical section under `log.lock` is
one step, and so is each block that `commit()`, running with the lock released, writes or unpins.
A process that `begin_op` puts to sleep on `&log` is woken by `wakeup(&log)` or by `kill`, and tests
again. The fields `nextOp`, `openOps` and `trace` are history: they number the operations and record
what happened, newest event first, and the code does not read them.
-/

namespace Xv6

open Function

/-- Where a process is in the log protocol. -/
inductive LogPc where
  /-- outside of any transaction -/
  | idle
  /-- in `begin_op`, about to test under `log.lock` -/
  | beginOp
  /-- in `begin_op`, in `sleep(&log, &log.lock)` -/
  | asleep
  /-- between the return of `begin_op` and the call of `end_op`, as operation `op` -/
  | inOp (op : Nat)
  /-- in `end_op` with `do_commit = 1`, about to call `commit` -/
  | commit
  /-- in `write_log` -/
  | writeLog (tail : Nat)
  /-- about to write the header -/
  | writeHead
  /-- in `install_trans` -/
  | install (tail : Nat)
  /-- about to set `log.lh.n = 0` -/
  | clear
  /-- about to erase the header on disk -/
  | eraseHead
  /-- back in `end_op`, about to set `log.committing = 0` -/
  | finish
  deriving DecidableEq

namespace LogPc

/-- The process is executing `commit()` or the end of `end_op` after it. -/
def inCommit : LogPc → Bool
  | .commit | .writeLog _ | .writeHead | .install _ | .clear | .eraseHead | .finish => true
  | _ => false

end LogPc

/-- The panics of `log_write` and `end_op`. -/
inductive LogPanic where
  /-- "too big a transaction" -/
  | tooBig
  /-- "log_write outside of trans" -/
  | outsideTrans
  /-- "log.committing" -/
  | committing
  deriving DecidableEq

/-- What a step did. -/
inductive LogEvent where
  /-- `begin_op` returned to operation `op` -/
  | began (op : Nat)
  /-- operation `op` passed block `b` to `log_write` -/
  | logged (op : Nat) (b : UInt32)
  /-- `bpin` -/
  | pinned (b : UInt32)
  /-- `end_op` of operation `op` decremented `log.outstanding` -/
  | ended (op : Nat)
  /-- `end_op` set `log.committing = 1` -/
  | committing
  /-- `write_log` wrote disk block `b` -/
  | wroteLog (b : Nat)
  /-- `write_head` wrote a header listing `bs` -/
  | headWritten (bs : List UInt32)
  /-- `bunpin` -/
  | unpinned (b : UInt32)
  /-- `commit()` has completed and `end_op` set `log.committing = 0` -/
  | committed
  deriving DecidableEq

namespace LogEvent

def op? : LogEvent → Option Nat
  | .began op | .logged op _ | .ended op => some op
  | _ => none

end LogEvent

structure GroupState (P : Type) where
  outstanding : Int
  committing : Bool
  lh : LogHeader
  pins : UInt32 → Int
  pc : P → LogPc
  panic : Option LogPanic
  nextOp : Nat
  openOps : List Nat
  trace : List LogEvent

/-- The loop `for (i = 0; i < log.lh.n; i++) if (log.lh.block[i] == b->blockno) break;` and the
store into `log.lh.block[i]` after it. -/
def LogHeader.record (lh : LogHeader) (h : lh.n < LOGSIZE) (b : UInt32) : LogHeader :=
  if lh.block.findIdx (· == b) < lh.n then
    ⟨lh.block.set (lh.block.findIdx (· == b)) b, by rw [List.length_set]; exact lh.fits⟩
  else ⟨lh.block ++ [b], by rw [List.length_append]; exact h⟩

/-- `wakeup(&log)`: every process asleep in `begin_op` tests again. -/
def wakeLog {P : Type} (pc : P → LogPc) : P → LogPc :=
  fun q => if pc q = .asleep then .beginOp else pc q

/-- The steps the processes take. -/
inductive LogAct (P : Type) where
  /-- call `begin_op` -/
  | callBegin (p : P)
  /-- the test of `begin_op` under `log.lock` -/
  | beginOp (p : P)
  /-- `kill` wakes the sleeping process -/
  | killWake (p : P)
  /-- `log_write` of a buffer of block `b` -/
  | logWrite (p : P) (b : UInt32)
  /-- the first critical section of `end_op` -/
  | endOp (p : P)
  /-- the next step of `commit()` -/
  | commitStep (p : P)

namespace GroupState

variable {P : Type} [DecidableEq P]

def init : GroupState P where
  outstanding := 0
  committing := false
  lh := .empty
  pins := fun _ => 0
  pc := fun _ => .idle
  panic := none
  nextOp := 0
  openOps := []
  trace := []

def goto (s : GroupState P) (p : P) (k : LogPc) : GroupState P :=
  { s with pc := update s.pc p k }

def fail (s : GroupState P) (e : LogPanic) : GroupState P := { s with panic := some e }

/-- `begin_op`'s test and what it does. -/
def beginOp (s : GroupState P) (p : P) : GroupState P :=
  if s.committing then s.goto p .asleep
  else if (s.lh.n : Int) + (s.outstanding + 1) * MAXOPBLOCKS > LOGSIZE then s.goto p .asleep
  else
    { s.goto p (.inOp s.nextOp) with
      outstanding := s.outstanding + 1
      nextOp := s.nextOp + 1
      openOps := s.nextOp :: s.openOps
      trace := .began s.nextOp :: s.trace }

/-- `log_write(b)` by operation `op`. -/
def logWrite (g : LogArea) (s : GroupState P) (op : Nat) (b : UInt32) : GroupState P :=
  if h : s.lh.n ≥ LOGSIZE ∨ (s.lh.n : Int) ≥ g.size - 1 then s.fail .tooBig
  else if s.outstanding < 1 then s.fail .outsideTrans
  else if s.lh.block.findIdx (· == b) = s.lh.n then
    { s with
      lh := s.lh.record (by omega) b
      pins := update s.pins b (s.pins b + 1)
      trace := .pinned b :: .logged op b :: s.trace }
  else
    { s with
      lh := s.lh.record (by omega) b
      trace := .logged op b :: s.trace }

/-- The first critical section of `end_op`. -/
def endOp (s : GroupState P) (p : P) (op : Nat) : GroupState P :=
  let s' : GroupState P :=
    { s with
      outstanding := s.outstanding - 1
      openOps := s.openOps.erase op
      trace := .ended op :: s.trace }
  if s.committing then s'.fail .committing
  else if s'.outstanding = 0 then
    { s'.goto p .commit with
      committing := true
      trace := .committing :: s'.trace }
  else
    let s'' := s'.goto p .idle
    { s'' with pc := wakeLog s''.pc }

/-- The next step of `commit()` and of the second critical section of `end_op`. -/
def commitStep (g : LogArea) (s : GroupState P) (p : P) : Option (GroupState P) :=
  match s.pc p with
  | .commit => some (s.goto p (if 0 < s.lh.n then .writeLog 0 else .finish))
  | .writeLog tail =>
    if tail < s.lh.n then
      some { s.goto p (.writeLog (tail + 1)) with trace := .wroteLog (g.start + tail + 1) :: s.trace }
    else some (s.goto p .writeHead)
  | .writeHead => some { s.goto p (.install 0) with trace := .headWritten s.lh.block :: s.trace }
  | .install tail =>
    match s.lh.block[tail]? with
    | some b =>
      some { s.goto p (.install (tail + 1)) with
        pins := update s.pins b (s.pins b - 1)
        trace := .unpinned b :: s.trace }
    | none => some (s.goto p .clear)
  | .clear => some { s.goto p .eraseHead with lh := .empty }
  | .eraseHead => some { s.goto p .finish with trace := .headWritten s.lh.block :: s.trace }
  | .finish =>
    some
      { s with
        committing := false
        pc := wakeLog (update s.pc p .idle)
        trace := .committed :: s.trace }
  | _ => none

/-- One step; a panicked kernel takes none. -/
def step (g : LogArea) (s : GroupState P) (a : LogAct P) : Option (GroupState P) :=
  if s.panic ≠ none then none
  else match a with
  | .callBegin p => if s.pc p = .idle then some (s.goto p .beginOp) else none
  | .beginOp p => if s.pc p = .beginOp then some (s.beginOp p) else none
  | .killWake p => if s.pc p = .asleep then some (s.goto p .beginOp) else none
  | .logWrite p b =>
    match s.pc p with
    | .inOp op => some (s.logWrite g op b)
    | _ => none
  | .endOp p =>
    match s.pc p with
    | .inOp op => some (s.endOp p op)
    | _ => none
  | .commitStep p => s.commitStep g p

end GroupState

/-! ### What a step can do -/

theorem LogHeader.findIdx_le (lh : LogHeader) (b : UInt32) : lh.block.findIdx (· == b) ≤ lh.n :=
  List.findIdx_le_length

theorem LogHeader.findIdx_lt_iff (lh : LogHeader) (b : UInt32) :
    lh.block.findIdx (· == b) < lh.n ↔ b ∈ lh.block := by
  rw [LogHeader.n]
  simp

theorem LogHeader.record_block (lh : LogHeader) (h : lh.n < LOGSIZE) (b : UInt32) :
    (lh.record h b).block = if b ∈ lh.block then lh.block else lh.block ++ [b] := by
  by_cases hb : b ∈ lh.block
  · have hlt := (lh.findIdx_lt_iff b).mpr hb
    have hset : ∀ i (hi : i < lh.block.length), lh.block.get ⟨i, hi⟩ = b →
        lh.block.set i b = lh.block := by
      rintro i hi rfl
      simp
    rw [record, if_pos hlt, if_pos hb]
    refine hset _ hlt ?_
    exact eq_of_beq (List.findIdx_getElem (w := hlt))
  · rw [record, if_neg (by rwa [lh.findIdx_lt_iff b]), if_neg hb]

variable {P : Type} [DecidableEq P] {g : LogArea} {s t : GroupState P}

/-- Every way a step can go, by the action taken. -/
inductive LogMove (g : LogArea) (s : GroupState P) : LogAct P → GroupState P → Prop where
  /-- a process outside of operations and commits moves between `idle`, `beginOp` and `asleep` -/
  | wait (a : LogAct P) (p : P) (k : LogPc)
      (hp : s.pc p = .idle ∨ s.pc p = .beginOp ∨ s.pc p = .asleep)
      (hk : k = .beginOp ∨ k = .asleep) : LogMove g s a (s.goto p k)
  | begin (p : P) (hp : s.pc p = .beginOp) (hc : s.committing = false)
      (hroom : (s.lh.n : Int) + (s.outstanding + 1) * MAXOPBLOCKS ≤ LOGSIZE) :
      LogMove g s (.beginOp p)
        { s.goto p (.inOp s.nextOp) with
          outstanding := s.outstanding + 1
          nextOp := s.nextOp + 1
          openOps := s.nextOp :: s.openOps
          trace := .began s.nextOp :: s.trace }
  | tooBig (p : P) (op : Nat) (b : UInt32) (hp : s.pc p = .inOp op)
      (hfull : LOGSIZE ≤ s.lh.n ∨ (g.size : Int) - 1 ≤ s.lh.n) :
      LogMove g s (.logWrite p b) (s.fail .tooBig)
  | outsideTrans (p : P) (op : Nat) (b : UInt32) (hp : s.pc p = .inOp op) (ho : s.outstanding < 1) :
      LogMove g s (.logWrite p b) (s.fail .outsideTrans)
  | absorb (p : P) (op : Nat) (b : UInt32) (hp : s.pc p = .inOp op) (hb : b ∈ s.lh.block)
      (lh : LogHeader) (hlh : lh.block = s.lh.block) :
      LogMove g s (.logWrite p b) { s with lh := lh, trace := .logged op b :: s.trace }
  | append (p : P) (op : Nat) (b : UInt32) (hp : s.pc p = .inOp op) (hb : b ∉ s.lh.block)
      (hroom : (s.lh.n : Int) < g.size - 1) (lh : LogHeader) (hlh : lh.block = s.lh.block ++ [b]) :
      LogMove g s (.logWrite p b)
        { s with
          lh := lh
          pins := update s.pins b (s.pins b + 1)
          trace := .pinned b :: .logged op b :: s.trace }
  | endPanic (p : P) (op : Nat) (hp : s.pc p = .inOp op) (hc : s.committing = true)
      (t : GroupState P) (ht : t.panic = some .committing) (hlh : t.lh = s.lh)
      (htrace : t.trace = .ended op :: s.trace) : LogMove g s (.endOp p) t
  | endLast (p : P) (op : Nat) (hp : s.pc p = .inOp op) (hc : s.committing = false)
      (ho : s.outstanding - 1 = 0) :
      LogMove g s (.endOp p)
        { s.goto p .commit with
          outstanding := s.outstanding - 1
          openOps := s.openOps.erase op
          committing := true
          trace := .committing :: .ended op :: s.trace }
  | endOther (p : P) (op : Nat) (hp : s.pc p = .inOp op) (hc : s.committing = false)
      (ho : s.outstanding - 1 ≠ 0) :
      LogMove g s (.endOp p)
        { s with
          outstanding := s.outstanding - 1
          openOps := s.openOps.erase op
          pc := wakeLog (update s.pc p .idle)
          trace := .ended op :: s.trace }
  | startCommit (p : P) (hp : s.pc p = .commit) (hn : 0 < s.lh.n) :
      LogMove g s (.commitStep p) (s.goto p (.writeLog 0))
  | emptyCommit (p : P) (hp : s.pc p = .commit) (hn : s.lh.n = 0) :
      LogMove g s (.commitStep p) (s.goto p .finish)
  | writeLog (p : P) (tail : Nat) (hp : s.pc p = .writeLog tail) (hn : tail < s.lh.n) :
      LogMove g s (.commitStep p)
        { s.goto p (.writeLog (tail + 1)) with trace := .wroteLog (g.start + tail + 1) :: s.trace }
  | endWriteLog (p : P) (tail : Nat) (hp : s.pc p = .writeLog tail) :
      LogMove g s (.commitStep p) (s.goto p .writeHead)
  | writeHead (p : P) (hp : s.pc p = .writeHead) :
      LogMove g s (.commitStep p)
        { s.goto p (.install 0) with trace := .headWritten s.lh.block :: s.trace }
  | install (p : P) (tail : Nat) (b : UInt32) (hp : s.pc p = .install tail)
      (hb : s.lh.block[tail]? = some b) :
      LogMove g s (.commitStep p)
        { s.goto p (.install (tail + 1)) with
          pins := update s.pins b (s.pins b - 1)
          trace := .unpinned b :: s.trace }
  | endInstall (p : P) (tail : Nat) (hp : s.pc p = .install tail) (hb : s.lh.n ≤ tail) :
      LogMove g s (.commitStep p) (s.goto p .clear)
  | clear (p : P) (hp : s.pc p = .clear) :
      LogMove g s (.commitStep p) { s.goto p .eraseHead with lh := .empty }
  | eraseHead (p : P) (hp : s.pc p = .eraseHead) :
      LogMove g s (.commitStep p)
        { s.goto p .finish with trace := .headWritten s.lh.block :: s.trace }
  | finish (p : P) (hp : s.pc p = .finish) :
      LogMove g s (.commitStep p)
        { s with
          committing := false
          pc := wakeLog (update s.pc p .idle)
          trace := .committed :: s.trace }

namespace GroupState

theorem beginOp_move (p : P) (hp : s.pc p = .beginOp) : LogMove g s (.beginOp p) (s.beginOp p) := by
  unfold beginOp
  split_ifs with hc hroom
  · exact .wait _ p .asleep (Or.inr (Or.inl hp)) (Or.inr rfl)
  · exact .wait _ p .asleep (Or.inr (Or.inl hp)) (Or.inr rfl)
  · exact .begin p hp (by simpa using hc) (by omega)

theorem logWrite_move (p : P) (op : Nat) (b : UInt32) (hp : s.pc p = .inOp op) :
    LogMove g s (.logWrite p b) (s.logWrite g op b) := by
  unfold logWrite
  split_ifs with hfull ho hnew
  · exact .tooBig p op b hp hfull
  · exact .outsideTrans p op b hp ho
  · have hb : b ∉ s.lh.block := by rw [← s.lh.findIdx_lt_iff b]; omega
    exact .append p op b hp hb (by omega) _ (by rw [LogHeader.record_block, if_neg hb])
  · have hb : b ∈ s.lh.block := by
      rw [← s.lh.findIdx_lt_iff b]
      have := s.lh.findIdx_le b
      omega
    exact .absorb p op b hp hb _ (by rw [LogHeader.record_block, if_pos hb])

theorem endOp_move (p : P) (op : Nat) (hp : s.pc p = .inOp op) :
    LogMove g s (.endOp p) (s.endOp p op) := by
  unfold endOp
  dsimp only
  split_ifs with hc ho
  · exact .endPanic p op hp hc _ rfl rfl rfl
  · exact .endLast p op hp (by simpa using hc) ho
  · exact .endOther p op hp (by simpa using hc) ho

theorem commitStep_move (p : P) (h : s.commitStep g p = some t) :
    LogMove g s (.commitStep p) t := by
  unfold commitStep at h
  split at h
  case h_1 hp =>
    cases h
    split_ifs with hn
    · exact .startCommit p hp hn
    · exact .emptyCommit p hp (by omega)
  case h_2 tail hp =>
    split_ifs at h with hn
    · cases h; exact .writeLog p tail hp hn
    · cases h; exact .endWriteLog p tail hp
  case h_3 hp => cases h; exact .writeHead p hp
  case h_4 tail hp =>
    split at h
    · rename_i b hb; cases h; exact .install p tail b hp hb
    · rename_i hb; cases h; exact .endInstall p tail hp (List.getElem?_eq_none_iff.mp hb)
  case h_5 hp => cases h; exact .clear p hp
  case h_6 hp => cases h; exact .eraseHead p hp
  case h_7 hp => cases h; exact .finish p hp
  case h_8 => cases h

theorem step_move {a : LogAct P} (h : step g s a = some t) :
    s.panic = none ∧ LogMove g s a t := by
  unfold step at h
  split_ifs at h with hpanic
  refine ⟨by simpa using hpanic, ?_⟩
  cases a with
  | callBegin p =>
    simp only [Option.ite_none_right_eq_some, Option.some.injEq] at h
    obtain ⟨hp, rfl⟩ := h
    exact .wait _ p .beginOp (Or.inl hp) (Or.inl rfl)
  | beginOp p =>
    simp only [Option.ite_none_right_eq_some, Option.some.injEq] at h
    obtain ⟨hp, rfl⟩ := h
    exact beginOp_move p hp
  | killWake p =>
    simp only [Option.ite_none_right_eq_some, Option.some.injEq] at h
    obtain ⟨hp, rfl⟩ := h
    exact .wait _ p .beginOp (Or.inr (Or.inr hp)) (Or.inl rfl)
  | logWrite p b =>
    dsimp only at h
    split at h
    · rename_i op hp; cases h; exact logWrite_move p op b hp
    · cases h
  | endOp p =>
    dsimp only at h
    split at h
    · rename_i op hp; cases h; exact endOp_move p op hp
    · cases h
  | commitStep p => exact commitStep_move p h

end GroupState

end Xv6
