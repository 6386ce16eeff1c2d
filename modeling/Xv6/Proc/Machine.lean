import Xv6.Lib.Run
import Xv6.Proc.Table

/-!
# Processes on CPUs

`proc.c` as a machine of any number of CPUs over a table of `n` slots. Each kernel thread has a stack
of frames, one for each function it is in; a frame says where in its function the thread is and holds
the local variables. `code` is the text of the functions: it maps the top frame to the next atomic
operation. Taking a spinlock, releasing one and `swtch` are single operations, and so is a group of
stores made under one lock; `p->state = RUNNING; c->proc = p` in `scheduler` is such a group.

A CPU runs on the kernel stack of a process or on its own scheduler stack. Locks belong to CPUs
(`lk->cpu`), so `p->lock` goes with the CPU across `swtch`. An interrupt may arrive whenever the CPU
holds no lock (`noff = 0`), also where the code has interrupts off for another reason.
-/

namespace Xv6

open Function

inductive Lock (n : Nat) where
  /-- `p->lock` -/
  | proc (p : Fin n)
  /-- `wait_lock` -/
  | wait
  /-- any spinlock of another part of the kernel -/
  | other (l : Nat)
  deriving DecidableEq

/-- Code of other parts of the system, which this machine does not follow line by line. -/
inductive CodeKind where
  /-- user code and system calls of a process -/
  | main
  /-- the closing of files in `exit` -/
  | close
  /-- an interrupt handler -/
  | intr
  deriving DecidableEq

/-- A position in a function, with its local variables. A frame named after a store, a lock operation
or a test stands right before it. -/
inductive Frame (n : Nat) where
  /-- other code, which holds the spinlocks `held` -/
  | code (k : CodeKind) (held : List Nat)
  -- yield
  | yieldLock (p : Fin n)
  | yieldSet (p : Fin n)
  | yieldSched (p : Fin n)
  | yieldUnlock (p : Fin n)
  -- sleep(ch, lk); `call` is the position of the call in the history
  | sleepLock (p : Fin n) (ch : Chan n) (lk : Lock n) (call : Nat)
  | sleepUnlockLk (p : Fin n) (ch : Chan n) (lk : Lock n) (call : Nat)
  | sleepSet (p : Fin n) (ch : Chan n) (lk : Lock n) (call : Nat)
  | sleepSched (p : Fin n) (ch : Chan n) (lk : Lock n) (call : Nat)
  | sleepTidy (p : Fin n) (ch : Chan n) (lk : Lock n) (call : Nat)
  | sleepUnlock (p : Fin n) (ch : Chan n) (lk : Lock n) (call : Nat)
  | sleepRelock (p : Fin n) (ch : Chan n) (lk : Lock n) (call : Nat)
  -- wakeup(ch) at slot i
  | wakeup (ch : Chan n) (i : Nat)
  | wakeupSet (ch : Chan n) (i : Fin n)
  | wakeupUnlock (ch : Chan n) (i : Fin n)
  -- kill(pid) at slot i
  | kill (pid : Int32) (i : Nat)
  | killTest (pid : Int32) (i : Fin n)
  | killUnlock (pid : Int32) (i : Fin n) (found : Bool)
  -- setkilled(p)
  | setkilledLock (p : Fin n)
  | setkilled (p : Fin n)
  | setkilledUnlock (p : Fin n)
  -- fork, with allocproc
  | forkScan (p : Fin n) (i : Nat)
  | forkTest (p : Fin n) (i : Fin n)
  | forkSkip (p : Fin n) (i : Fin n)
  | forkAlloc (p : Fin n) (np : Fin n)
  | forkCopy (p : Fin n) (np : Fin n)
  | forkUndo (p : Fin n) (np : Fin n)
  | forkUnlock (p : Fin n) (np : Fin n)
  | forkLockWait (p : Fin n) (np : Fin n)
  | forkParent (p : Fin n) (np : Fin n)
  | forkUnlockWait (p : Fin n) (np : Fin n)
  | forkRelock (p : Fin n) (np : Fin n)
  | forkSet (p : Fin n) (np : Fin n)
  | forkDone (p : Fin n) (np : Fin n)
  -- exit(status), with reparent
  | exitLockWait (p : Fin n) (status : Int32)
  | reparent (p : Fin n) (status : Int32) (i : Nat)
  | exitWakeup (p : Fin n) (status : Int32)
  | exitLock (p : Fin n) (status : Int32)
  | exitSet (p : Fin n) (status : Int32)
  | exitUnlockWait (p : Fin n)
  | exitSched (p : Fin n)
  | zombie (p : Fin n)
  -- wait(addr); `addr` says whether the address is not 0
  | waitLockWait (p : Fin n) (addr : Bool)
  | waitScan (p : Fin n) (addr : Bool) (i : Nat) (havekids : Bool)
  | waitTest (p : Fin n) (addr : Bool) (i : Fin n)
  | waitNext (p : Fin n) (addr : Bool) (i : Fin n)
  | waitFail (p : Fin n) (i : Fin n)
  | waitReaped (p : Fin n) (i : Fin n) (pid : Int32)
  | waitKilled (p : Fin n) (addr : Bool)
  | waitKilledUnlock (p : Fin n) (addr : Bool) (killed : Bool)
  | waitSleep (p : Fin n) (addr : Bool)
  | waitAgain (p : Fin n) (addr : Bool)
  | waitRet (p : Fin n) (r : Int32)
  -- forkret
  | forkret (p : Fin n)
  -- scheduler at slot i
  | schedTop
  | sched (i : Nat)
  | schedTest (i : Fin n)
  | schedSwtch (i : Fin n)
  | schedBack (i : Fin n)
  | schedUnlock (i : Fin n)
  deriving DecidableEq

/-- What happened, for the history. A process is named by its slot, and in the events of `fork`,
`exit` and `wait` by its number in the order of births. -/
inductive ProcEvent (n : Nat) where
  /-- the code of process `p`, or of the scheduler, took lock `l` -/
  | acquired (p : Option (Fin n)) (l : Lock n)
  | released (p : Option (Fin n)) (l : Lock n)
  | sleepCall (p : Fin n) (ch : Chan n) (lk : Lock n) (call : Nat)
  | sleepRet (p : Fin n) (call : Nat)
  | wakeupCall (p : Option (Fin n)) (ch : Chan n)
  | wakeupRet (p : Option (Fin n)) (ch : Chan n)
  /-- process number `parent` made process number `child`, with the `pid` that `fork` returns -/
  | forked (parent child : Nat) (pid : Int32)
  | exited (life : Nat) (status : Int32)
  /-- `wait` of slot `p`, which is process number `parent`, wrote the `status` of process number
  `child` and freed it -/
  | reaped (p : Fin n) (parent child : Nat) (pid status : Int32)
  /-- `wait` of slot `p` could not copy out the status of process number `child` -/
  | copyoutFailed (p : Fin n) (child : Nat)
  /-- `wait` of slot `p` returned `r` -/
  | waitRet (p : Fin n) (r : Int32)
  deriving DecidableEq

/-- Why a machine stopped. -/
inductive ProcPanic where
  | acquire | release | schedLock | schedLocks | schedRunning | initExiting | zombieExit
  deriving DecidableEq

structure Machine (C : Type) (n : Nat) where
  proc : Fin n → Proc n
  /-- `p->context` -/
  context : Fin n → List (Frame n)
  /-- the kernel stack of slot `p` -/
  kstack : Fin n → List (Frame n)
  /-- `c->proc` -/
  cproc : C → Option (Fin n)
  /-- the slot on whose kernel stack CPU `c` runs; none if it runs on its scheduler stack -/
  running : C → Option (Fin n)
  /-- the scheduler stack of CPU `c`, which is `c->context` while a process runs -/
  sstack : C → List (Frame n)
  noff : C → Nat
  /-- the CPU that holds a lock -/
  lock : Lock n → Option C
  nextpid : Int32
  panic : Option ProcPanic
  /-- history: birth number of each slot's process, number of births, events (newest first) -/
  life : Fin n → Nat
  births : Nat
  trace : List (ProcEvent n)

/-- What one atomic operation does besides moving the thread on. -/
inductive Effect (n : Nat) where
  | none
  | acquire (l : Lock n)
  | release (l : Lock n)
  /-- stores into slot `i` -/
  | set (i : Fin n) (r : Proc n)
  /-- `p->pid = allocpid(); p->state = USED` -/
  | found (i : Fin n)
  /-- `p->context.ra = forkret; p->context.sp = p->kstack + PGSIZE` -/
  | newContext (i : Fin n)
  /-- `p->state = RUNNING; c->proc = p` -/
  | run (i : Fin n)
  /-- `c->proc = 0` -/
  | idle

/-- One atomic operation of a thread. -/
inductive Op (n : Nat) where
  /-- the top frame is replaced by `fs` -/
  | step (e : Effect n) (fs : List (Frame n)) (ev : List (ProcEvent n))
  /-- the end of `sleep`: take `lk` and return to the caller, which then holds it -/
  | wake (p : Fin n) (lk : Lock n) (call : Nat)
  /-- `sched()` of process `p`, to continue at `f` -/
  | sched (p : Fin n) (f : Frame n)
  /-- `swtch(&c->context, &p->context)` -/
  | swtch (p : Fin n) (f : Frame n)
  | panic (e : ProcPanic)

/-- How a thread goes on where it has a choice. -/
inductive Choice (n : Nat) where
  /-- the next operation; allocations and copies succeed -/
  | go
  /-- the next operation; the allocation or copy it makes fails -/
  | fail
  /-- an interrupt arrives -/
  | interrupt
  -- what other code does
  | acquire (l : Nat)
  | release (l : Nat)
  | sleep (ch : Chan n) (l : Nat)
  | wakeup (ch : Chan n)
  | yield
  | kill (pid : Int32)
  | setkilled
  | fork
  | exit (status : Int32)
  | wait (addr : Bool)
  | ret
  deriving DecidableEq

namespace Frame

variable {n : Nat}

/-- The caller of `sleep(ch, lk)` when `sleep` returns with `lk` held. -/
def give (lk : Lock n) : Frame n → Frame n
  | .code k held =>
    match lk with
    | .other l => .code k (l :: held)
    | _ => .code k held
  | .waitAgain p addr => .waitScan p addr 0 false
  | f => f

end Frame

namespace Machine

variable {C : Type} [DecidableEq C] {n : Nat}

def initproc [NeZero n] : Fin n := 0

/-- What other code may do next; `p` is `myproc()`. -/
def callCode (m : Machine C n) (c : C) (k : CodeKind) (held : List Nat) : Choice n → Option (Op n)
  | .acquire l => some (.step (.acquire (.other l)) [.code k (l :: held)] [])
  | .release l =>
    if l ∈ held then some (.step (.release (.other l)) [.code k (held.erase l)] []) else none
  | .wakeup ch => some (.step .none [.wakeup ch 0, .code k held] [.wakeupCall (m.running c) ch])
  | .ret => if k ≠ .main ∧ held = [] then some (.step .none [] []) else none
  | .yield => (m.cproc c).map fun p => .step .none [.yieldLock p, .code k held] []
  | .sleep ch l =>
    if k ≠ .intr ∧ l ∈ held then
      (m.cproc c).map fun p =>
        .step .none [.sleepLock p ch (.other l) m.trace.length, .code k (held.erase l)]
          [.sleepCall p ch (.other l) m.trace.length]
    else none
  | .kill pid => if k = .main then some (.step .none [.kill pid 0, .code k held] []) else none
  | .setkilled =>
    if k = .main then (m.cproc c).map fun p => .step .none [.setkilledLock p, .code k held] []
    else none
  | .fork =>
    if k = .main then (m.cproc c).map fun p => .step .none [.forkScan p 0, .code k held] []
    else none
  | .wait addr =>
    if k = .main then (m.cproc c).map fun p => .step .none [.waitLockWait p addr, .code k held] []
    else none
  | _ => none

/-- `exit(status)` up to the closing of the files. -/
def callExit [NeZero n] (m : Machine C n) (c : C) (held : List Nat) (status : Int32) :
    Option (Op n) :=
  (m.cproc c).map fun p =>
    if p = initproc then .panic .initExiting
    else .step .none [.code .close [], .exitLockWait p status, .code .main held] []

/-- The body of `wait`'s loop over the table, at slot `i`. -/
def waitTest (m : Machine C n) (p : Fin n) (addr : Bool) (i : Fin n) (copyout : Bool) : Op n :=
  if (m.proc i).state = .ZOMBIE then
    if addr = true ∧ copyout = false then .step .none [.waitFail p i] [.copyoutFailed p (m.life i)]
    else .step (.set i (m.proc i).freeproc) [.waitReaped p i (m.proc i).pid]
      [.reaped p (m.life p) (m.life i) (m.proc i).pid (m.proc i).xstate]
  else .step .none [.waitNext p addr i] []

/-- The next operation of a thread on CPU `c` whose top frame is given, `ok` saying whether an
allocation or copy that it makes succeeds. -/
def text [NeZero n] (m : Machine C n) (c : C) (ok : Bool) : Frame n → Option (Op n)
  -- yield
  | .yieldLock p => some (.step (.acquire (.proc p)) [.yieldSet p] [])
  | .yieldSet p => some (.step (.set p { m.proc p with state := .RUNNABLE }) [.yieldSched p] [])
  | .yieldSched p => some (.sched p (.yieldUnlock p))
  | .yieldUnlock p => some (.step (.release (.proc p)) [] [])
  -- sleep
  | .sleepLock p ch lk call => some (.step (.acquire (.proc p)) [.sleepUnlockLk p ch lk call] [])
  | .sleepUnlockLk p ch lk call => some (.step (.release lk) [.sleepSet p ch lk call] [])
  | .sleepSet p ch lk call =>
    some (.step (.set p { m.proc p with chan := ch, state := .SLEEPING }) [.sleepSched p ch lk call] [])
  | .sleepSched p ch lk call => some (.sched p (.sleepTidy p ch lk call))
  | .sleepTidy p ch lk call =>
    some (.step (.set p { m.proc p with chan := .null }) [.sleepUnlock p ch lk call] [])
  | .sleepUnlock p ch lk call => some (.step (.release (.proc p)) [.sleepRelock p ch lk call] [])
  | .sleepRelock p _ lk call => some (.wake p lk call)
  -- wakeup
  | .wakeup ch i =>
    if h : i < n then
      if m.cproc c = some ⟨i, h⟩ then some (.step .none [.wakeup ch (i + 1)] [])
      else some (.step (.acquire (.proc ⟨i, h⟩)) [.wakeupSet ch ⟨i, h⟩] [])
    else some (.step .none [] [.wakeupRet (m.running c) ch])
  | .wakeupSet ch i => some (.step (.set i ((m.proc i).wakeup ch)) [.wakeupUnlock ch i] [])
  | .wakeupUnlock ch i => some (.step (.release (.proc i)) [.wakeup ch (i + 1)] [])
  -- kill
  | .kill pid i =>
    if h : i < n then some (.step (.acquire (.proc ⟨i, h⟩)) [.killTest pid ⟨i, h⟩] [])
    else some (.step .none [] [])
  | .killTest pid i =>
    if (m.proc i).pid = pid then some (.step (.set i (m.proc i).kill) [.killUnlock pid i true] [])
    else some (.step .none [.killUnlock pid i false] [])
  | .killUnlock pid i found =>
    some (.step (.release (.proc i)) (if found then [] else [.kill pid (i + 1)]) [])
  -- setkilled
  | .setkilledLock p => some (.step (.acquire (.proc p)) [.setkilled p] [])
  | .setkilled p => some (.step (.set p { m.proc p with killed := true }) [.setkilledUnlock p] [])
  | .setkilledUnlock p => some (.step (.release (.proc p)) [] [])
  -- fork
  | .forkScan p i =>
    if h : i < n then some (.step (.acquire (.proc ⟨i, h⟩)) [.forkTest p ⟨i, h⟩] [])
    else some (.step .none [] [])
  | .forkTest p i =>
    if (m.proc i).state = .UNUSED then some (.step (.found i) [.forkAlloc p i] [])
    else some (.step .none [.forkSkip p i] [])
  | .forkSkip p i => some (.step (.release (.proc i)) [.forkScan p (i + 1)] [])
  | .forkAlloc p np =>
    if ok then some (.step (.newContext np) [.forkCopy p np] [])
    else some (.step (.set np (m.proc np).freeproc) [.forkUndo p np] [])
  | .forkCopy p np =>
    if ok then some (.step .none [.forkUnlock p np] [])
    else some (.step (.set np (m.proc np).freeproc) [.forkUndo p np] [])
  | .forkUndo _ np => some (.step (.release (.proc np)) [] [])
  | .forkUnlock p np => some (.step (.release (.proc np)) [.forkLockWait p np] [])
  | .forkLockWait p np => some (.step (.acquire .wait) [.forkParent p np] [])
  | .forkParent p np =>
    some (.step (.set np { m.proc np with parent := some p }) [.forkUnlockWait p np]
      [.forked (m.life p) (m.life np) (m.proc np).pid])
  | .forkUnlockWait p np => some (.step (.release .wait) [.forkRelock p np] [])
  | .forkRelock p np => some (.step (.acquire (.proc np)) [.forkSet p np] [])
  | .forkSet p np => some (.step (.set np { m.proc np with state := .RUNNABLE }) [.forkDone p np] [])
  | .forkDone _ np => some (.step (.release (.proc np)) [] [])
  -- exit
  | .exitLockWait p status => some (.step (.acquire .wait) [.reparent p status 0] [])
  | .reparent p status i =>
    if h : i < n then
      if (m.proc ⟨i, h⟩).parent = some p then
        some (.step (.set ⟨i, h⟩ { m.proc ⟨i, h⟩ with parent := some initproc })
          [.wakeup (.proc initproc) 0, .reparent p status (i + 1)]
          [.wakeupCall (m.running c) (.proc initproc)])
      else some (.step .none [.reparent p status (i + 1)] [])
    else some (.step .none [.exitWakeup p status] [])
  | .exitWakeup p status =>
    some (.step .none [.wakeup ((m.proc p).parent.elim .null .proc) 0, .exitLock p status]
      [.wakeupCall (m.running c) ((m.proc p).parent.elim .null .proc)])
  | .exitLock p status => some (.step (.acquire (.proc p)) [.exitSet p status] [])
  | .exitSet p status =>
    some (.step (.set p { m.proc p with xstate := status, state := .ZOMBIE }) [.exitUnlockWait p]
      [.exited (m.life p) status])
  | .exitUnlockWait p => some (.step (.release .wait) [.exitSched p] [])
  | .exitSched p => some (.sched p (.zombie p))
  | .zombie _ => some (.panic .zombieExit)
  -- wait
  | .waitLockWait p addr => some (.step (.acquire .wait) [.waitScan p addr 0 false] [])
  | .waitScan p addr i havekids =>
    if h : i < n then
      if (m.proc ⟨i, h⟩).parent = some p then
        some (.step (.acquire (.proc ⟨i, h⟩)) [.waitTest p addr ⟨i, h⟩] [])
      else some (.step .none [.waitScan p addr (i + 1) havekids] [])
    else if havekids then some (.step (.acquire (.proc p)) [.waitKilled p addr] [])
    else some (.step .none [.waitRet p (-1)] [])
  | .waitTest p addr i => some (m.waitTest p addr i ok)
  | .waitNext p addr i => some (.step (.release (.proc i)) [.waitScan p addr (i + 1) true] [])
  | .waitFail p i => some (.step (.release (.proc i)) [.waitRet p (-1)] [])
  | .waitReaped p i pid => some (.step (.release (.proc i)) [.waitRet p pid] [])
  | .waitKilled p addr => some (.step .none [.waitKilledUnlock p addr (m.proc p).killed] [])
  | .waitKilledUnlock p addr killed =>
    some (.step (.release (.proc p)) [if killed then .waitRet p (-1) else .waitSleep p addr] [])
  | .waitSleep p addr =>
    some (.step .none [.sleepLock p (.proc p) .wait m.trace.length, .waitAgain p addr]
      [.sleepCall p (.proc p) .wait m.trace.length])
  | .waitRet p r => some (.step (.release .wait) [] [.waitRet p r])
  -- forkret
  | .forkret _ => (m.cproc c).map fun p => .step (.release (.proc p)) [.code .main []] []
  -- scheduler
  | .schedTop => some (.step .none [.sched 0] [])
  | .sched i =>
    if h : i < n then some (.step (.acquire (.proc ⟨i, h⟩)) [.schedTest ⟨i, h⟩] [])
    else some (.step .none [.schedTop] [])
  | .schedTest i =>
    if (m.proc i).state = .RUNNABLE then some (.step (.run i) [.schedSwtch i] [])
    else some (.step .none [.schedUnlock i] [])
  | .schedSwtch i => some (.swtch i (.schedBack i))
  | .schedBack i => some (.step .idle [.schedUnlock i] [])
  | .schedUnlock i => some (.step (.release (.proc i)) [.sched (i + 1)] [])
  | .code _ _ | .waitAgain _ _ => none

def code [NeZero n] (m : Machine C n) (c : C) (f : Frame n) : Choice n → Option (Op n)
  | .interrupt =>
    if m.noff c = 0 then some (.step .none [.code .intr [], f] []) else none
  | .go => m.text c true f
  | .fail => m.text c false f
  | .exit status =>
    match f with
    | .code .main held => m.callExit c held status
    | _ => none
  | ch =>
    match f with
    | .code k held => m.callCode c k held ch
    | _ => none

/-! ### Execution -/

def live (m : Machine C n) (c : C) : List (Frame n) :=
  match m.running c with
  | some p => m.kstack p
  | none => m.sstack c

def setLive (m : Machine C n) (c : C) (fs : List (Frame n)) : Machine C n :=
  match m.running c with
  | some p => { m with kstack := update m.kstack p fs }
  | none => { m with sstack := update m.sstack c fs }

def fail (m : Machine C n) (e : ProcPanic) : Machine C n := { m with panic := some e }

def log (m : Machine C n) (ev : List (ProcEvent n)) : Machine C n := { m with trace := ev ++ m.trace }

/-- `acquire(l)` when the lock is free. -/
def take (m : Machine C n) (c : C) (l : Lock n) : Machine C n :=
  { m with
    lock := update m.lock l (some c)
    noff := update m.noff c (m.noff c + 1)
    trace := .acquired (m.running c) l :: m.trace }

/-- `release(l)` by the CPU that holds it. -/
def drop (m : Machine C n) (c : C) (l : Lock n) : Machine C n :=
  { m with
    lock := update m.lock l none
    noff := update m.noff c (m.noff c - 1)
    trace := .released (m.running c) l :: m.trace }

def setProc (m : Machine C n) (i : Fin n) (r : Proc n) : Machine C n :=
  { m with proc := update m.proc i r }

/-- The stores of an operation other than the lock operations. -/
def store (m : Machine C n) (c : C) : Effect n → Machine C n
  | .set i r => m.setProc i r
  | .found i =>
    { m.setProc i ((m.proc i).found m.nextpid) with
      nextpid := m.nextpid + 1
      life := update m.life i m.births
      births := m.births + 1 }
  | .newContext i =>
    { m with
      context := update m.context i [.forkret i]
      kstack := update m.kstack i [.forkret i] }
  | .run i =>
    { m.setProc i { m.proc i with state := .RUNNING } with
      cproc := update m.cproc c (some i) }
  | .idle => { m with cproc := update m.cproc c none }
  | _ => m

/-- One operation of CPU `c`, whose stack below the top frame is `rest`. A CPU that waits for a lock
makes no step. -/
def exec (m : Machine C n) (c : C) (rest : List (Frame n)) : Op n → Option (Machine C n)
  | .step (.acquire l) fs ev =>
    if m.lock l = some c then some (m.fail .acquire)
    else if m.lock l = none then some (((m.take c l).setLive c (fs ++ rest)).log ev)
    else none
  | .step (.release l) fs ev =>
    if m.lock l = some c then some (((m.drop c l).setLive c (fs ++ rest)).log ev)
    else some (m.fail .release)
  | .step e fs ev => some (((m.store c e).setLive c (fs ++ rest)).log ev)
  | .wake p lk call =>
    if m.lock lk = some c then some (m.fail .acquire)
    else if m.lock lk = none then
      some (((m.take c lk).setLive c (rest.modifyHead (Frame.give lk))).log [.sleepRet p call])
    else none
  | .sched p f =>
    if m.lock (.proc p) ≠ some c then some (m.fail .schedLock)
    else if m.noff c ≠ 1 then some (m.fail .schedLocks)
    else if (m.proc p).state = .RUNNING then some (m.fail .schedRunning)
    else
      some
        { m.setLive c (f :: rest) with
          context := update m.context p (f :: rest)
          running := update m.running c none }
  | .swtch p f =>
    some
      { m with
        sstack := update m.sstack c (f :: rest)
        running := update m.running c (some p)
        kstack := update m.kstack p (m.context p) }
  | .panic e => some (m.fail e)

/-- CPU `c` makes a step; a machine that has panicked makes none. -/
def step [NeZero n] (m : Machine C n) (a : C × Choice n) : Option (Machine C n) :=
  if m.panic ≠ none then none
  else
    match m.live a.1 with
    | [] => none
    | f :: rest => (m.code a.1 f a.2).bind (m.exec a.1 rest)

/-- The machine after `userinit`: the CPUs enter `scheduler`. -/
def boot [NeZero n] : Machine C n where
  proc := update (fun _ => .zero) initproc { Proc.zero with pid := 1, state := .RUNNABLE }
  context := fun p => if p = initproc then [.forkret p] else []
  kstack := fun p => if p = initproc then [.forkret p] else []
  cproc := fun _ => none
  running := fun _ => none
  sstack := fun _ => [.schedTop]
  noff := fun _ => 0
  lock := fun _ => none
  nextpid := 2
  panic := none
  life := fun _ => 0
  births := 1
  trace := []

end Machine

end Xv6
