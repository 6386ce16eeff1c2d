import Xv6.Lib.Run
import Xv6.Proc.Table

/-!
# Code that sleeps on a condition under a lock

One spinlock `lk` with the data it protects and one wait channel, used by any number of processes and
interrupt handlers. `sleep(chan, lk)`, `wakeup(chan)` and `kill` are those of `proc.c`; the code that runs
with `lk` held is a parameter. A `kill`, which takes only `p->lock`, may come between any two steps.
-/

namespace Xv6.Monitor

open Function

/-- A process, the interrupt handler that runs on top of a process, or that on a CPU without one. -/
inductive Thread (n : Nat) where
  | proc (p : Fin n)
  | above (p : Fin n)
  | idle (c : Nat)
  deriving DecidableEq

def Thread.myproc {n : Nat} : Thread n → Option (Fin n)
  | .proc p | .above p => some p
  | .idle _ => none

/-- What a step of the code with `lk` held comes to. -/
inductive Outcome (D L S : Type) where
  | go (d : D) (l : L)
  /-- `wakeup(chan)` -/
  | wake (d : D) (l : L)
  /-- `sleep(chan, lk)` -/
  | wait (l : L)
  /-- `release(lk)` and the return -/
  | leave (d : D) (st : S)

/-- The functions that take `lk`: calls `X`, local states `L` with `lk` held, and what a thread keeps
between its calls, `S`. A step may read an input `I` from outside. -/
structure Code (n : Nat) (D L X S I : Type) where
  /-- the calls that a thread may make -/
  calls : Thread n → S → X → Bool
  start : S → X → L
  body : Thread n → Option (Proc n) → I → D → L → Option (Outcome D L S)

/-- The position of a thread, right before the statement that it is named after. -/
inductive Pos (L X S : Type) where
  /-- any other code -/
  | out (st : S)
  /-- `acquire(lk)` -/
  | enter (st : S) (x : X)
  | body (l : L)
  /-- `wakeup(chan)`, about to look at the slot `j` -/
  | wakeup (j : Nat) (l : L)
  -- sleep(chan, lk)
  /-- `acquire(&p->lock)` -/
  | sleep (l : L)
  /-- `release(lk)`, with `p->lock` held -/
  | sleepHeld (l : L)
  /-- `p->chan = chan; p->state = SLEEPING; sched()`, with `p->lock` held -/
  | sleepSet (l : L)
  /-- `sched()` has switched to the scheduler -/
  | asleep (l : L)
  /-- `acquire(lk)` -/
  | relock (l : L)
  deriving DecidableEq

/-- The positions at which the thread has neither lock, so that interrupts are on. -/
def Pos.isOpen {L X S : Type} : Pos L X S → Bool
  | .out _ | .enter _ _ | .relock _ => true
  | _ => false

def Pos.isOut {L X S : Type} : Pos L X S → Bool
  | .out _ => true
  | _ => false

structure State (n : Nat) (D L X S : Type) where
  data : D
  /-- the holder of `lk` -/
  lock : Option (Thread n)
  proc : Fin n → Proc n
  /-- the process holds its own `p->lock` -/
  plock : Fin n → Bool
  pos : Thread n → Pos L X S

inductive Act (n : Nat) (X I : Type) where
  | call (k : Thread n) (x : X)
  /-- the next step of a thread -/
  | step (k : Thread n) (i : I)
  /-- some process kills `p` -/
  | kill (p : Fin n)
  deriving DecidableEq

variable {n : Nat} {D L X S I : Type}

/-- A step of `k`. -/
def Act.isOf (k : Thread n) : Act n X I → Bool
  | .step k' _ => k' = k
  | _ => false

def chan : Chan n := .other 0

namespace State

def goto (s : State n D L X S) (k : Thread n) (b : Pos L X S) : State n D L X S :=
  { s with pos := update s.pos k b }

def setProc (s : State n D L X S) (q : Fin n) (x : Proc n) : State n D L X S :=
  { s with proc := update s.proc q x }

def setPlock (s : State n D L X S) (p : Fin n) (held : Bool) : State n D L X S :=
  { s with plock := update s.plock p held }

/-- A process runs unless an interrupt handler runs on top of it. -/
def runs (s : State n D L X S) : Thread n → Bool
  | .proc p => (s.pos (.above p)).isOut
  | _ => true

/-- A handler starts on top of a process where interrupts are on. -/
def mayCall (s : State n D L X S) : Thread n → Bool
  | .above p => (s.pos (.proc p)).isOpen
  | _ => true

/-- A step of the code with `lk` held. -/
def exec (s : State n D L X S) (k : Thread n) : Outcome D L S → Option (State n D L X S)
  | .go d l => some (goto { s with data := d } k (.body l))
  | .wake d l => some (goto { s with data := d } k (.wakeup 0 l))
  | .wait l => match k with
    | .proc _ => some (s.goto k (.sleep l))
    | _ => none
  | .leave d st => some (goto { s with data := d, lock := none } k (.out st))

/-- `wakeup(chan)` looks at the slot `j`; it skips `myproc()` and waits for the lock of any other. -/
def wakeupSlot (s : State n D L X S) (k : Thread n) (j : Nat) (l : L) : Option (State n D L X S) :=
  if h : j < n then
    if k.myproc = some ⟨j, h⟩ then some (s.goto k (.wakeup (j + 1) l))
    else if s.plock ⟨j, h⟩ then none
    else some ((s.setProc ⟨j, h⟩ ((s.proc ⟨j, h⟩).wakeup chan)).goto k (.wakeup (j + 1) l))
  else some (s.goto k (.body l))

/-- The steps of `sleep` that the process `p` makes. -/
def sleepStep (s : State n D L X S) (p : Fin n) : Pos L X S → Option (State n D L X S)
  | .sleep l => if s.plock p then none else some ((s.setPlock p true).goto (.proc p) (.sleepHeld l))
  | .sleepHeld l => some (goto { s with lock := none } (.proc p) (.sleepSet l))
  | .sleepSet l =>
    some (((s.setProc p { s.proc p with chan := chan, state := .SLEEPING }).setPlock p false).goto
      (.proc p) (.asleep l))
  | .asleep l =>
    -- the scheduler picks the process, which clears its channel and releases p->lock
    if (s.proc p).state = .RUNNABLE ∧ s.plock p = false then
      some ((s.setProc p { s.proc p with chan := .null, state := .RUNNING }).goto (.proc p) (.relock l))
    else none
  | _ => none

end State

variable (c : Code n D L X S I)

/-- The next step of the thread `k`. -/
def act (s : State n D L X S) (k : Thread n) (i : I) : Option (State n D L X S) :=
  match s.pos k with
  | .out _ => none
  | .enter st x =>
    if s.lock = none then some (State.goto { s with lock := some k } k (.body (c.start st x))) else none
  | .relock l => if s.lock = none then some (State.goto { s with lock := some k } k (.body l)) else none
  | .body l => (c.body k (k.myproc.map s.proc) i s.data l).bind (s.exec k)
  | .wakeup j l => s.wakeupSlot k j l
  | b => match k with
    | .proc p => s.sleepStep p b
    | _ => none

def step (s : State n D L X S) : Act n X I → Option (State n D L X S)
  | .call k x => match s.pos k with
    | .out st => if c.calls k st x && s.mayCall k && s.runs k then some (s.goto k (.enter st x)) else none
    | _ => none
  | .step k i => if s.runs k then act c s k i else none
  | .kill p => if s.plock p then none else some (s.setProc p (s.proc p).kill)

inductive Step (s : State n D L X S) : Act n X I → State n D L X S → Prop
  | call (k st x) : s.pos k = .out st → c.calls k st x = true → s.mayCall k = true → s.runs k = true →
      Step s (.call k x) (s.goto k (.enter st x))
  | enter (k i st x) : s.runs k = true → s.pos k = .enter st x → s.lock = none →
      Step s (.step k i) (State.goto { s with lock := some k } k (.body (c.start st x)))
  | relock (k i l) : s.runs k = true → s.pos k = .relock l → s.lock = none →
      Step s (.step k i) (State.goto { s with lock := some k } k (.body l))
  | go (k i l d l') : s.runs k = true → s.pos k = .body l →
      c.body k (k.myproc.map s.proc) i s.data l = some (.go d l') →
      Step s (.step k i) (State.goto { s with data := d } k (.body l'))
  | wake (k i l d l') : s.runs k = true → s.pos k = .body l →
      c.body k (k.myproc.map s.proc) i s.data l = some (.wake d l') →
      Step s (.step k i) (State.goto { s with data := d } k (.wakeup 0 l'))
  | wait (p i l l') : s.runs (.proc p) = true → s.pos (.proc p) = .body l →
      c.body (.proc p) (some (s.proc p)) i s.data l = some (.wait l') →
      Step s (.step (.proc p) i) (s.goto (.proc p) (.sleep l'))
  | leave (k i l d st) : s.runs k = true → s.pos k = .body l →
      c.body k (k.myproc.map s.proc) i s.data l = some (.leave d st) →
      Step s (.step k i) (State.goto { s with data := d, lock := none } k (.out st))
  | skip (k i l) (q : Fin n) : s.runs k = true → s.pos k = .wakeup q.val l → k.myproc = some q →
      Step s (.step k i) (s.goto k (.wakeup (q.val + 1) l))
  | look (k i l) (q : Fin n) : s.runs k = true → s.pos k = .wakeup q.val l → k.myproc ≠ some q →
      s.plock q = false →
      Step s (.step k i) ((s.setProc q ((s.proc q).wakeup chan)).goto k (.wakeup (q.val + 1) l))
  | woken (k i l j) : s.runs k = true → s.pos k = .wakeup j l → n ≤ j →
      Step s (.step k i) (s.goto k (.body l))
  | sleep (p i l) : s.runs (.proc p) = true → s.pos (.proc p) = .sleep l → s.plock p = false →
      Step s (.step (.proc p) i) ((s.setPlock p true).goto (.proc p) (.sleepHeld l))
  | sleepHeld (p i l) : s.runs (.proc p) = true → s.pos (.proc p) = .sleepHeld l →
      Step s (.step (.proc p) i) (State.goto { s with lock := none } (.proc p) (.sleepSet l))
  | sleepSet (p i l) : s.runs (.proc p) = true → s.pos (.proc p) = .sleepSet l →
      Step s (.step (.proc p) i)
        (((s.setProc p { s.proc p with chan := chan, state := .SLEEPING }).setPlock p false).goto
          (.proc p) (.asleep l))
  | asleep (p i l) : s.runs (.proc p) = true → s.pos (.proc p) = .asleep l →
      (s.proc p).state = .RUNNABLE → s.plock p = false →
      Step s (.step (.proc p) i)
        ((s.setProc p { s.proc p with chan := .null, state := .RUNNING }).goto (.proc p) (.relock l))
  | kill (p) : s.plock p = false → Step s (.kill p) (s.setProc p (s.proc p).kill)

variable {c} {s t : State n D L X S} {a : Act n X I} {k : Thread n} {i : I}

theorem exec_cases {l : L} {o : Outcome D L S} (hrun : s.runs k = true) (hpos : s.pos k = .body l)
    (ho : c.body k (k.myproc.map s.proc) i s.data l = some o) (h : s.exec k o = some t) :
    Step c s (.step k i) t := by
  cases o with
  | go d l' =>
    cases h
    exact .go k i l d l' hrun hpos ho
  | wake d l' =>
    cases h
    exact .wake k i l d l' hrun hpos ho
  | wait l' =>
    cases k with cases h
    | proc p => exact .wait p i l l' hrun hpos ho
  | leave d st =>
    cases h
    exact .leave k i l d st hrun hpos ho

theorem wakeupSlot_cases {j : Nat} {l : L} (hrun : s.runs k = true) (hpos : s.pos k = .wakeup j l)
    (h : s.wakeupSlot k j l = some t) : Step c s (.step k i) t := by
  unfold State.wakeupSlot at h
  split_ifs at h with hj hme hheld
  · cases h
    exact .skip k i l ⟨j, hj⟩ hrun hpos hme
  · cases h
    exact .look k i l ⟨j, hj⟩ hrun hpos hme (by simpa using hheld)
  · cases h
    exact .woken k i l j hrun hpos (not_lt.mp hj)

theorem sleepStep_cases {p : Fin n} (hrun : s.runs (.proc p) = true)
    (h : s.sleepStep p (s.pos (.proc p)) = some t) : Step c s (.step (.proc p) i) t := by
  cases hpos : s.pos (.proc p) <;> rw [hpos] at h
  case sleep l =>
    simp only [State.sleepStep] at h
    split_ifs at h with hheld
    cases h
    exact .sleep p i l hrun hpos (by simpa using hheld)
  case sleepHeld l =>
    cases h
    exact .sleepHeld p i l hrun hpos
  case sleepSet l =>
    cases h
    exact .sleepSet p i l hrun hpos
  case asleep l =>
    simp only [State.sleepStep] at h
    split_ifs at h with hwoken
    cases h
    exact .asleep p i l hrun hpos hwoken.1 hwoken.2
  all_goals cases h

theorem act_cases (hrun : s.runs k = true) (h : act c s k i = some t) : Step c s (.step k i) t := by
  unfold act at h
  cases hpos : s.pos k <;> simp only [hpos] at h
  case out => cases h
  case enter st x =>
    split_ifs at h with hfree
    cases h
    exact .enter k i st x hrun hpos hfree
  case relock l =>
    split_ifs at h with hfree
    cases h
    exact .relock k i l hrun hpos hfree
  case body l =>
    obtain ⟨o, ho, hexec⟩ := Option.bind_eq_some_iff.mp h
    exact exec_cases hrun hpos ho hexec
  case wakeup j l => exact wakeupSlot_cases hrun hpos h
  all_goals
    cases k with
    | proc p => exact sleepStep_cases hrun (by rw [hpos]; exact h)
    | above p => cases h
    | idle c => cases h

theorem step_cases (h : step c s a = some t) : Step c s a t := by
  cases a with simp only [step] at h
  | call k x =>
    cases hpos : s.pos k <;> simp only [hpos] at h
    case out st =>
      split_ifs at h with hok
      cases h
      simp only [Bool.and_eq_true] at hok
      exact .call k st x hpos hok.1.1 hok.1.2 hok.2
    all_goals cases h
  | step k i =>
    split_ifs at h with hrun
    exact act_cases hrun h
  | kill p =>
    split_ifs at h with hheld
    cases h
    exact .kill p (by simpa using hheld)

theorem Step.pos_of_ne (h : Step c s a t) (hk : a.isOf k = false) (hcall : ∀ x, a ≠ .call k x) :
    t.pos k = s.pos k := by
  cases h with
  | call k' st x =>
    refine update_of_ne (fun heq => hcall x ?_) ..
    rw [heq]
  | kill => rfl
  | _ => exact update_of_ne (Ne.symm (of_decide_eq_false hk)) ..

theorem Step.pid (h : Step c s a t) (q : Fin n) : (t.proc q).pid = (s.proc q).pid := by
  have hset : ∀ p (x : Proc n), x.pid = (s.proc p).pid → (update s.proc p x q).pid = (s.proc q).pid := by
    intro p x hx
    by_cases hq : q = p
    · rw [hq, update_self, hx]
    · rw [update_of_ne hq]
  cases h with
  | look k i l p =>
    refine hset p _ ?_
    unfold Proc.wakeup
    split_ifs <;> rfl
  | sleepSet | asleep | kill => exact hset _ _ rfl
  | _ => rfl

end Xv6.Monitor
