import Mathlib.Tactic.Simps.Basic
import Xv6.Lib.Run
import Xv6.Proc.Table

/-!
# A pipe and the processes that use it

`pipewrite`, `piperead` and `pipeclose` of `pipe.c` on one pipe, called by any number of processes,
with `sleep`, `wakeup`, `kill` and `killed` of `proc.c`. A step is one test or one access of the code
between two points at which another process can intervene: `pi->lock` is held over many steps, and a
`kill`, which takes only `p->lock`, may come between any two of them.
-/

namespace Xv6

open Function

abbrev PIPESIZE : Nat := 512

/-- `struct pipe`; its lock is a field of the machine. -/
structure Pipe where
  data : Nat → UInt8
  nread : UInt32
  nwrite : UInt32
  readopen : Bool
  writeopen : Bool

namespace Pipe

/-- `pi->nwrite == pi->nread + PIPESIZE` -/
def full (pi : Pipe) : Bool := pi.nwrite == pi.nread + UInt32.ofNat PIPESIZE

/-- `pi->nread == pi->nwrite` -/
def empty (pi : Pipe) : Bool := pi.nread == pi.nwrite

/-- `pi->data[pi->nwrite++ % PIPESIZE] = ch` -/
def store (pi : Pipe) (ch : UInt8) : Pipe :=
  { pi with
    data := update pi.data (pi.nwrite.toNat % PIPESIZE) ch
    nwrite := pi.nwrite + 1 }

/-- `pi->data[pi->nread % PIPESIZE]` -/
def front (pi : Pipe) : UInt8 := pi.data (pi.nread.toNat % PIPESIZE)

/-- `pi->nread++` -/
def advance (pi : Pipe) : Pipe := { pi with nread := pi.nread + 1 }

/-- The assignment of `pipeclose`. -/
def close (pi : Pipe) (writable : Bool) : Pipe :=
  if writable then { pi with writeopen := false } else { pi with readopen := false }

def alloc (data : Nat → UInt8) : Pipe := ⟨data, 0, 0, true, true⟩

end Pipe

/-- The wait channels `&pi->nread` and `&pi->nwrite`. -/
inductive PipeChan where
  | nread | nwrite
  deriving DecidableEq

/-- The address of a wait channel. -/
def PipeChan.addr {n : Nat} : PipeChan → Chan n
  | .nread => .other 0
  | .nwrite => .other 1

/-- A call, with the length that it is given. -/
inductive PipeCall where
  | write (n : Int)
  | read (n : Int)
  | close (writable : Bool)
  deriving DecidableEq

/-- Where a call goes on after `sleep`. -/
inductive PipeLoop where
  | write (i : Nat) (n : Int)
  | read (n : Int)
  deriving DecidableEq

/-- What a call does after `wakeup`. -/
inductive PipeNext where
  | sleep (i : Nat) (n : Int)
  | leave (call : PipeCall) (r : Int)
  deriving DecidableEq

/-- The position of a process, right before the statement that it is named after, with the local
variables. -/
inductive PipePos where
  /-- any other code -/
  | out
  /-- `acquire(&pi->lock)` -/
  | enter (call : PipeCall)
  -- pipewrite
  /-- `while(i < n)` and `pi->readopen == 0` -/
  | writeLoop (i : Nat) (n : Int)
  /-- `killed(pr)` -/
  | writeKilled (i : Nat) (n : Int)
  /-- the rest of the loop body -/
  | writeBody (i : Nat) (n : Int)
  -- piperead
  /-- `while(pi->nread == pi->nwrite && pi->writeopen)` -/
  | readLoop (n : Int)
  /-- `killed(pr)` -/
  | readKilled (n : Int)
  /-- the `for` loop -/
  | readCopy (i : Nat) (n : Int)
  /-- `pipeclose` with the lock held -/
  | closeBody (writable : Bool)
  /-- `wakeup(chan)`, about to look at the slot `j` -/
  | wakeup (chan : PipeChan) (j : Nat) (next : PipeNext)
  -- sleep(chan, &pi->lock)
  /-- `acquire(&p->lock)` -/
  | sleep (chan : PipeChan) (loop : PipeLoop)
  /-- `release(lk)`, with `p->lock` held -/
  | sleepHeld (chan : PipeChan) (loop : PipeLoop)
  /-- `p->chan = chan; p->state = SLEEPING; sched()`, with `p->lock` held -/
  | sleepSet (chan : PipeChan) (loop : PipeLoop)
  /-- `sched()` has switched to the scheduler -/
  | asleep (chan : PipeChan) (loop : PipeLoop)
  /-- `acquire(lk)` -/
  | relock (loop : PipeLoop)
  /-- `release(&pi->lock)` and the return of `r` -/
  | leave (call : PipeCall) (r : Int)
  deriving DecidableEq

/-- A pipe and the processes of a table with `n` slots. -/
structure PipeMachine (n : Nat) where
  pipe : Pipe
  /-- the holder of `pi->lock` -/
  lock : Option (Fin n)
  proc : Fin n → Proc n
  /-- the process holds its own `p->lock` -/
  plock : Fin n → Bool
  pos : Fin n → PipePos
  /-- the bytes that `pipewrite` has stored, the oldest first -/
  accepted : List UInt8
  /-- the bytes that `piperead` has copied out, the oldest first -/
  delivered : List UInt8
  /-- `kfree((char*)pi)` -/
  freed : Bool

inductive PipeAct (n : Nat) where
  /-- the process calls `pipewrite`, `piperead` or `pipeclose` -/
  | call (p : Fin n) (call : PipeCall)
  /-- the next step of the process; `fault` says that a `copyin` or `copyout` in it fails, `ch` is the
  byte that a `copyin` finds -/
  | step (p : Fin n) (fault : Bool) (ch : UInt8)
  /-- some process kills `p` -/
  | kill (p : Fin n)
  deriving DecidableEq

namespace PipeMachine

variable {n : Nat}

@[simps]
def goto (s : PipeMachine n) (p : Fin n) (pos : PipePos) : PipeMachine n :=
  { s with pos := update s.pos p pos }

def setProc (s : PipeMachine n) (q : Fin n) (x : Proc n) : PipeMachine n :=
  { s with proc := update s.proc q x }

def setPlock (s : PipeMachine n) (p : Fin n) (held : Bool) : PipeMachine n :=
  { s with plock := update s.plock p held }

/-- Where a call starts once it has the lock. -/
def start : PipeCall → PipePos
  | .write n => .writeLoop 0 n
  | .read n => .readLoop n
  | .close writable => .closeBody writable

/-- Where a call goes on once it has the lock again. -/
def again : PipeLoop → PipePos
  | .write i n => .writeLoop i n
  | .read n => .readLoop n

/-- What follows a `wakeup`. -/
def after : PipeNext → PipePos
  | .sleep i n => .sleep .nwrite (.write i n)
  | .leave call r => .leave call r

/-- A step of `pipewrite` with `pi->lock` held. -/
def pipewrite (s : PipeMachine n) (p : Fin n) (fault : Bool) (ch : UInt8) :
    PipePos → Option (PipeMachine n)
  | .writeLoop i n =>
    if (i : Int) < n then
      if s.pipe.readopen then s.goto p (.writeKilled i n)
      else s.goto p (.leave (.write n) (-1))
    else s.goto p (.wakeup .nread 0 (.leave (.write n) i))
  | .writeKilled i n =>
    if (s.proc p).killed then s.goto p (.leave (.write n) (-1))
    else s.goto p (.writeBody i n)
  | .writeBody i n =>
    if s.pipe.full then s.goto p (.wakeup .nread 0 (.sleep i n))
    else if fault then s.goto p (.wakeup .nread 0 (.leave (.write n) i))
    else some <| goto { s with
      pipe := s.pipe.store ch
      accepted := s.accepted ++ [ch] } p (.writeLoop (i + 1) n)
  | _ => none

/-- A step of `piperead` with `pi->lock` held. -/
def piperead (s : PipeMachine n) (p : Fin n) (fault : Bool) : PipePos → Option (PipeMachine n)
  | .readLoop n =>
    if s.pipe.empty && s.pipe.writeopen then s.goto p (.readKilled n)
    else s.goto p (.readCopy 0 n)
  | .readKilled n =>
    if (s.proc p).killed then s.goto p (.leave (.read n) (-1))
    else s.goto p (.sleep .nread (.read n))
  | .readCopy i n =>
    if (i : Int) < n ∧ s.pipe.empty = false then
      if fault then
        some <| goto { s with pipe := s.pipe.advance } p (.wakeup .nwrite 0 (.leave (.read n) i))
      else some <| goto { s with
        pipe := s.pipe.advance
        delivered := s.delivered ++ [s.pipe.front] } p (.readCopy (i + 1) n)
    else s.goto p (.wakeup .nwrite 0 (.leave (.read n) i))
  | _ => none

/-- `pipeclose` with `pi->lock` held: the assignment and the call of `wakeup`. -/
def pipeclose (s : PipeMachine n) (p : Fin n) (writable : Bool) : PipeMachine n :=
  goto { s with pipe := s.pipe.close writable } p
    (.wakeup (if writable then .nread else .nwrite) 0 (.leave (.close writable) 0))

/-- `wakeup(chan)` looks at the slot `j`; it skips the caller and waits for the lock of any other. -/
def wakeupSlot (s : PipeMachine n) (p : Fin n) (chan : PipeChan) (j : Nat) (next : PipeNext) :
    Option (PipeMachine n) :=
  if h : j < n then
    let q : Fin n := ⟨j, h⟩
    if q = p then s.goto p (.wakeup chan (j + 1) next)
    else if s.plock q then none
    else some <| (s.setProc q ((s.proc q).wakeup chan.addr)).goto p (.wakeup chan (j + 1) next)
  else s.goto p (after next)

/-- The release of `pi->lock` at the end of a call; `pipeclose` frees the page if it was the last. -/
def release (s : PipeMachine n) (p : Fin n) (call : PipeCall) : PipeMachine n :=
  goto { s with
    lock := none
    freed := s.freed || match call with
      | .close _ => !s.pipe.readopen && !s.pipe.writeopen
      | _ => false } p .out

/-- The next step of the process `p`. -/
def act (s : PipeMachine n) (p : Fin n) (fault : Bool) (ch : UInt8) : Option (PipeMachine n) :=
  match s.pos p with
  | .out => none
  | .enter call => if s.lock = none then some <| goto { s with lock := some p } p (start call) else none
  | .closeBody writable => some (s.pipeclose p writable)
  | .wakeup chan j next => s.wakeupSlot p chan j next
  | .sleep chan loop =>
    if s.plock p then none else some <| (s.setPlock p true).goto p (.sleepHeld chan loop)
  | .sleepHeld chan loop => some <| goto { s with lock := none } p (.sleepSet chan loop)
  | .sleepSet chan loop =>
    some <| ((s.setProc p { s.proc p with chan := chan.addr, state := .SLEEPING }).setPlock p
      false).goto p (.asleep chan loop)
  | .asleep _ loop =>
    -- the scheduler picks the process, which clears its channel and releases p->lock
    if (s.proc p).state = .RUNNABLE ∧ s.plock p = false then
      some <| (s.setProc p { s.proc p with chan := .null, state := .RUNNING }).goto p (.relock loop)
    else none
  | .relock loop => if s.lock = none then some <| goto { s with lock := some p } p (again loop) else none
  | .leave call _ => some (s.release p call)
  | .readLoop n => s.piperead p fault (.readLoop n)
  | .readKilled n => s.piperead p fault (.readKilled n)
  | .readCopy i n => s.piperead p fault (.readCopy i n)
  | pos => s.pipewrite p fault ch pos

def step (s : PipeMachine n) : PipeAct n → Option (PipeMachine n)
  | .call p call => if s.pos p = .out then some (s.goto p (.enter call)) else none
  | .step p fault ch => s.act p fault ch
  | .kill p => if s.plock p then none else some (s.setProc p (s.proc p).kill)

def boot (n : Nat) (data : Nat → UInt8) : PipeMachine n :=
  ⟨.alloc data, none, fun _ => { Proc.zero with state := .RUNNING }, fun _ => false, fun _ => .out,
    [], [], false⟩

end PipeMachine

end Xv6
