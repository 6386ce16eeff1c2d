import Mathlib.Logic.Function.Basic
import Xv6.Lib.Run

/-!
# push_off and pop_off

`push_off` and `pop_off` of `spinlock.c` as machine steps of kernel threads on any number of CPUs. The
calls that the threads make are arbitrary, as long as each `pop_off` has its `push_off`. While
interrupts are on, a trap may arrive between any two steps; the handler may call `yield`, and then the
thread goes on whenever a scheduler of some CPU picks it.
-/

namespace Xv6

open Function

/-- The fields of `struct cpu` that `push_off` and `pop_off` use, and the bit `SIE` of `sstatus`. -/
structure IntrCpu where
  noff : Nat
  intena : Bool
  sie : Bool

/-- A position in `push_off` or `pop_off`, right before the machine step that it is named after, with
the local variables; `cpu` is what `mycpu()` has returned. -/
inductive IntrPos (C : Type) where
  /-- any other code -/
  | out
  -- int old = intr_get(); if(mycpu()->noff == 0)
  | pushGet
  | pushTp (old : Bool)
  | pushTest (old : Bool) (cpu : C)
  -- intr_off(); mycpu()->intena = old;
  | pushIntrOff (old : Bool)
  | pushIntenaTp (old : Bool)
  | pushIntena (old : Bool) (cpu : C)
  -- mycpu()->noff += 1;
  | pushNoffTp
  | pushLoad (cpu : C)
  | pushStore (cpu : C) (noff : Nat)
  -- struct cpu *c = mycpu(); if(intr_get()) panic; if(c->noff < 1) panic; c->noff -= 1;
  | popTp
  | popGet (cpu : C)
  | popTest (cpu : C)
  | popLoad (cpu : C)
  | popStore (cpu : C) (noff : Nat)
  -- if(c->noff == 0 && c->intena) intr_on();
  | popNoff (cpu : C)
  | popIntena (cpu : C)
  | popIntrOn
  -- mycpu()->intena = intena; after swtch in sched
  | resume (intena : Bool)
  deriving DecidableEq

structure IntrThread (C : Type) where
  pos : IntrPos C
  /-- the number of calls of `push_off` that have returned and are not matched by a `pop_off` -/
  depth : Nat
  /-- the code that traps have interrupted, with its `depth` -/
  traps : List (IntrPos C × Nat)

inductive IntrPanic where
  | popInterruptible | popOff | schedLocks | schedInterruptible
  deriving DecidableEq

/-- The CPUs `C` run the processes `P` and their own scheduler threads. -/
structure IntrMachine (C P : Type) where
  cpu : C → IntrCpu
  /-- the process that runs on a CPU; none if its scheduler runs -/
  cur : C → Option P
  proc : P → IntrThread C
  sched : C → IntrThread C
  /-- the process has called `swtch`, or is new, and waits for a scheduler -/
  off : P → Bool
  panic : Option IntrPanic

inductive IntrAct (C P : Type) where
  /-- the next machine step of `push_off` or `pop_off` -/
  | step (c : C)
  -- calls of the code
  | push (c : C)
  | pop (c : C)
  | intrOn (c : C)
  | intrOff (c : C)
  /-- an interrupt: the hardware clears `SIE` and enters `kerneltrap` -/
  | trap (c : C)
  /-- the end of `kerneltrap`: `sret` sets `SIE` again -/
  | ret (c : C)
  /-- `sched()` of the process that runs on `c` -/
  | sched (c : C)
  /-- `swtch(&c->context, &p->context)` of the scheduler -/
  | swtch (c : C) (p : P)
  deriving DecidableEq

namespace IntrThread

variable {C : Type}

/-- The calls of `push_off` that the present code must not match: those of the code below the trap. -/
def base (x : IntrThread C) : Nat :=
  match x.traps with
  | [] => 0
  | t :: _ => t.2

def goto (x : IntrThread C) (pos : IntrPos C) : IntrThread C := { x with pos := pos }

end IntrThread

namespace IntrMachine

variable {C P : Type} [DecidableEq C] [DecidableEq P]

def thread (m : IntrMachine C P) (c : C) : IntrThread C :=
  match m.cur c with
  | some p => m.proc p
  | none => m.sched c

def setThread (m : IntrMachine C P) (c : C) (x : IntrThread C) : IntrMachine C P :=
  match m.cur c with
  | some p => { m with proc := update m.proc p x }
  | none => { m with sched := update m.sched c x }

def setCpu (m : IntrMachine C P) (c : C) (k : IntrCpu) : IntrMachine C P :=
  { m with cpu := update m.cpu c k }

def fail (m : IntrMachine C P) (e : IntrPanic) : IntrMachine C P := { m with panic := some e }

/-- One machine step of thread `x` on CPU `c`, which is what `tp` holds. -/
def micro (m : IntrMachine C P) (c : C) (x : IntrThread C) : Option (IntrMachine C P) :=
  match x.pos with
  | .out => none
  | .pushGet => some (m.setThread c (x.goto (.pushTp (m.cpu c).sie)))
  | .pushTp old => some (m.setThread c (x.goto (.pushTest old c)))
  | .pushTest old id =>
    some (m.setThread c (x.goto (if (m.cpu id).noff = 0 then .pushIntrOff old else .pushNoffTp)))
  | .pushIntrOff old =>
    some ((m.setCpu c { m.cpu c with sie := false }).setThread c (x.goto (.pushIntenaTp old)))
  | .pushIntenaTp old => some (m.setThread c (x.goto (.pushIntena old c)))
  | .pushIntena old id =>
    some ((m.setCpu id { m.cpu id with intena := old }).setThread c (x.goto .pushNoffTp))
  | .pushNoffTp => some (m.setThread c (x.goto (.pushLoad c)))
  | .pushLoad id => some (m.setThread c (x.goto (.pushStore id (m.cpu id).noff)))
  | .pushStore id noff =>
    some ((m.setCpu id { m.cpu id with noff := noff + 1 }).setThread c
      { x with pos := .out, depth := x.depth + 1 })
  | .popTp => some (m.setThread c (x.goto (.popGet c)))
  | .popGet id =>
    if (m.cpu c).sie then some (m.fail .popInterruptible)
    else some (m.setThread c (x.goto (.popTest id)))
  | .popTest id =>
    if (m.cpu id).noff < 1 then some (m.fail .popOff)
    else some (m.setThread c (x.goto (.popLoad id)))
  | .popLoad id => some (m.setThread c (x.goto (.popStore id (m.cpu id).noff)))
  | .popStore id noff =>
    some ((m.setCpu id { m.cpu id with noff := noff - 1 }).setThread c
      { x with pos := .popNoff id, depth := x.depth - 1 })
  | .popNoff id =>
    some (m.setThread c (x.goto (if (m.cpu id).noff = 0 then .popIntena id else .out)))
  | .popIntena id =>
    some (m.setThread c (x.goto (if (m.cpu id).intena then .popIntrOn else .out)))
  | .popIntrOn => some ((m.setCpu c { m.cpu c with sie := true }).setThread c (x.goto .out))
  | .resume intena =>
    some ((m.setCpu c { m.cpu c with intena := intena }).setThread c (x.goto .out))

/-- `sched()` of process `p` on CPU `c`: its unmatched `push_off` is left to the scheduler, which
releases `p->lock`. -/
def yields (m : IntrMachine C P) (c : C) (p : P) : IntrMachine C P :=
  if (m.cpu c).noff ≠ 1 then m.fail .schedLocks
  else if (m.cpu c).sie then m.fail .schedInterruptible
  else
    { m with
      cur := update m.cur c none
      off := update m.off p true
      proc := update m.proc p
        { m.proc p with pos := .resume (m.cpu c).intena, depth := (m.proc p).depth - 1 }
      sched := update m.sched c { m.sched c with depth := (m.sched c).depth + 1 } }

/-- The scheduler of CPU `c` runs `p`, which will release `p->lock`. -/
def runs (m : IntrMachine C P) (c : C) (p : P) : IntrMachine C P :=
  { m with
    cur := update m.cur c (some p)
    off := update m.off p false
    proc := update m.proc p { m.proc p with depth := (m.proc p).depth + 1 }
    sched := update m.sched c { m.sched c with depth := (m.sched c).depth - 1 } }

def act (m : IntrMachine C P) : IntrAct C P → Option (IntrMachine C P)
  | .step c => m.micro c (m.thread c)
  | .push c =>
    if (m.thread c).pos = .out then some (m.setThread c ((m.thread c).goto .pushGet)) else none
  | .pop c =>
    if (m.thread c).pos = .out ∧ (m.thread c).base < (m.thread c).depth then
      some (m.setThread c ((m.thread c).goto .popTp))
    else none
  | .intrOn c =>
    if (m.thread c).pos = .out ∧ (m.thread c).depth = 0 then
      some (m.setCpu c { m.cpu c with sie := true })
    else none
  | .intrOff c =>
    if (m.thread c).pos = .out ∧ (m.thread c).depth = 0 then
      some (m.setCpu c { m.cpu c with sie := false })
    else none
  | .trap c =>
    if (m.cpu c).sie then
      some ((m.setCpu c { m.cpu c with sie := false }).setThread c
        { m.thread c with
          pos := .out
          traps := ((m.thread c).pos, (m.thread c).depth) :: (m.thread c).traps })
    else none
  | .ret c =>
    match (m.thread c).traps with
    | [] => none
    | (pos, depth) :: traps =>
      if (m.thread c).pos = .out ∧ (m.thread c).depth = depth then
        some ((m.setCpu c { m.cpu c with sie := true }).setThread c
          { m.thread c with pos := pos, traps := traps })
      else none
  | .sched c =>
    match m.cur c with
    | some p =>
      if (m.proc p).pos = .out ∧ (m.proc p).base < (m.proc p).depth then some (m.yields c p)
      else none
    | none => none
  | .swtch c p =>
    if m.cur c = none ∧ (m.sched c).pos = .out ∧ (m.sched c).traps = [] ∧ (m.sched c).depth = 1 ∧
        m.off p = true then
      some (m.runs c p)
    else none

/-- A machine that has panicked makes no step. -/
def step (m : IntrMachine C P) (a : IntrAct C P) : Option (IntrMachine C P) :=
  if m.panic = none then m.act a else none

/-- All CPUs are in their schedulers with interrupts on, and all processes wait to be run. -/
def boot : IntrMachine C P where
  cpu := fun _ => ⟨0, false, true⟩
  cur := fun _ => none
  proc := fun _ => ⟨.out, 0, []⟩
  sched := fun _ => ⟨.out, 0, []⟩
  off := fun _ => true
  panic := none

end IntrMachine

end Xv6
