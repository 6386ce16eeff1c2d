import Xv6.Lib.Run
import Xv6.Param
import Xv6.Proc.Table

/-!
# `kill` and the slots it finds

The functions of `proc.c` on the whole table, each as one step: what the calls of the machine do when no
other CPU is inside `proc.c` (`Machine.ends_call`). `kill` compares `p->pid` without looking at
`p->state`, and a free slot has `pid = 0`, so `kill(0)` can mark a free slot as killed; `allocproc` does
not clear the mark.
-/

namespace Xv6

open Function

/-- `proc`, `nextpid` and `initproc`. -/
structure ProcTable (n : Nat) where
  proc : Fin n → Proc n
  nextpid : Int32
  initproc : Fin n

namespace ProcTable

variable {n : Nat}

def set (t : ProcTable n) (i : Fin n) (p : Proc n) : ProcTable n :=
  { t with proc := update t.proc i p }

/-- The loop `for (p = proc; p < &proc[NPROC]; p++)` up to the first slot that satisfies `f`. -/
def scan (t : ProcTable n) (f : Proc n → Bool) : Option (Fin n) :=
  (List.finRange n).find? fun i => f (t.proc i)

/-- `kalloc` and `proc_pagetable` succeed or fail as `trapframe` and `pagetable` say. -/
def allocproc (t : ProcTable n) (trapframe pagetable : Bool) : ProcTable n × Option (Fin n) :=
  match t.scan fun p => p.state = .UNUSED with
  | none => (t, none)
  | some i =>
    let t' := { t.set i ((t.proc i).found t.nextpid) with nextpid := t.nextpid + 1 }
    if trapframe = false then (t'.set i (t'.proc i).freeproc, none)
    else if pagetable = false then (t'.set i (t'.proc i).freeproc, none)
    else (t', some i)

/-- `fork` by `p`; `uvmcopy` succeeds or fails. -/
def fork (t : ProcTable n) (p : Fin n) (trapframe pagetable uvmcopy : Bool) : ProcTable n × Int32 :=
  match t.allocproc trapframe pagetable with
  | (t, none) => (t, -1)
  | (t, some np) =>
    if uvmcopy = false then (t.set np (t.proc np).freeproc, -1)
    else (t.set np { t.proc np with parent := some p, state := .RUNNABLE }, (t.proc np).pid)

/-- `wakeup(chan)` called by `p`. -/
def wakeup (t : ProcTable n) (p : Fin n) (chan : Chan n) : ProcTable n :=
  { t with proc := fun i => if i = p then t.proc i else (t.proc i).wakeup chan }

/-- `pp->parent = initproc` for every child `pp` of `p`. -/
def giveToInit (t : ProcTable n) (p : Fin n) : ProcTable n :=
  { t with
    proc := fun i =>
      if (t.proc i).parent = some p then { t.proc i with parent := some t.initproc } else t.proc i }

/-- `reparent(p)`; it wakes `initproc` if it finds a child. -/
def reparent (t : ProcTable n) (p : Fin n) : ProcTable n :=
  if ∃ i, (t.proc i).parent = some p then (t.giveToInit p).wakeup p (.proc t.initproc)
  else t.giveToInit p

/-- `exit(status)` by `p`; none is the panic "init exiting". -/
def exit (t : ProcTable n) (p : Fin n) (status : Int32) : Option (ProcTable n) :=
  if p = t.initproc then none
  else
    let t := t.reparent p
    let t := t.wakeup p ((t.proc p).parent.elim .null .proc)
    some (t.set p { t.proc p with xstate := status, state := .ZOMBIE })

/-- `wait` by `p` up to its return or its call of `sleep`; `copyout` succeeds or fails. -/
def wait (t : ProcTable n) (p : Fin n) (copyout : Bool) : ProcTable n × Option Int32 :=
  match t.scan fun q => q.parent = some p ∧ q.state = .ZOMBIE with
  | some i =>
    if copyout = false then (t, some (-1)) else (t.set i (t.proc i).freeproc, some (t.proc i).pid)
  | none =>
    if (¬ ∃ i, (t.proc i).parent = some p) ∨ (t.proc p).killed = true then (t, some (-1))
    else (t.set p { t.proc p with chan := .proc p, state := .SLEEPING }, none)

def kill (t : ProcTable n) (pid : Int32) : ProcTable n × Int32 :=
  match t.scan fun p => p.pid = pid with
  | none => (t, -1)
  | some i => (t.set i (t.proc i).kill, 0)

/-- The table after `procinit` and `userinit`. -/
def boot [NeZero n] : ProcTable n where
  proc := update (fun _ => .zero) 0 { Proc.zero with pid := 1, state := .RUNNABLE }
  nextpid := 2
  initproc := 0

end ProcTable

/-- Calls by the processes and the scheduler; `p` is the process that runs. -/
inductive TableAct (n : Nat) where
  | fork (p : Fin n) (trapframe pagetable uvmcopy : Bool)
  | exit (p : Fin n) (status : Int32)
  | wait (p : Fin n) (copyout : Bool)
  | kill (pid : Int32)
  | setkilled (p : Fin n)
  | sleep (p : Fin n) (chan : Chan n)
  | wakeup (p : Fin n) (chan : Chan n)
  | yield (p : Fin n)
  | schedule (p : Fin n)

namespace ProcTable

variable {n : Nat}

/-- The process in slot `p` changes its own record while it runs. -/
def whenRunning (t : ProcTable n) (p : Fin n) (t' : Option (ProcTable n)) : Option (ProcTable n) :=
  if (t.proc p).state = .RUNNING then t' else none

def step (t : ProcTable n) : TableAct n → Option (ProcTable n)
  | .fork p trapframe pagetable uvmcopy =>
    t.whenRunning p (some (t.fork p trapframe pagetable uvmcopy).1)
  | .exit p status => t.whenRunning p (t.exit p status)
  | .wait p copyout => t.whenRunning p (some (t.wait p copyout).1)
  | .kill pid => some (t.kill pid).1
  | .setkilled p => t.whenRunning p (some (t.set p { t.proc p with killed := true }))
  | .sleep p chan =>
    t.whenRunning p (some (t.set p { t.proc p with chan := chan, state := .SLEEPING }))
  | .wakeup p chan => t.whenRunning p (some (t.wakeup p chan))
  | .yield p => t.whenRunning p (some (t.set p { t.proc p with state := .RUNNABLE }))
  | .schedule p =>
    if (t.proc p).state = .RUNNABLE then some (t.set p { t.proc p with state := .RUNNING }) else none

variable {t u : ProcTable n} {i j : Fin n} {f : Proc n → Bool}

/-! ### Scans -/

@[simp] theorem set_proc_self (t : ProcTable n) (i : Fin n) (p : Proc n) : (t.set i p).proc i = p :=
  update_self ..

theorem set_proc_of_ne (h : j ≠ i) (p : Proc n) : (t.set i p).proc j = t.proc j :=
  update_of_ne h ..

theorem scan_some (h : t.scan f = some i) : f (t.proc i) = true := by
  exact List.find?_some (p := fun i => f (t.proc i)) h

/-! ### Free slots -/

/-- No free slot is marked as killed. -/
def CleanSlots (t : ProcTable n) : Prop := ∀ i, (t.proc i).state = .UNUSED → (t.proc i).killed = false

theorem CleanSlots.set {p : Proc n} (h : CleanSlots t) (hp : p.state = .UNUSED → p.killed = false) :
    CleanSlots (t.set i p) := by
  intro j hj
  by_cases hji : j = i
  · subst hji
    rw [set_proc_self] at hj ⊢
    exact hp hj
  · rw [set_proc_of_ne hji] at hj ⊢
    exact h j hj

theorem CleanSlots.map (h : CleanSlots t)
    (hu : ∀ i, (u.proc i).killed = (t.proc i).killed ∧
      ((u.proc i).state = .UNUSED → (t.proc i).state = .UNUSED)) : CleanSlots u := by
  intro i hi
  rw [(hu i).1]
  exact h i ((hu i).2 hi)

theorem freeproc_clean (p : Proc n) : p.freeproc.state = .UNUSED → p.freeproc.killed = false :=
  fun _ => rfl

theorem wakeup_killed (p : Proc n) (chan : Chan n) : (p.wakeup chan).killed = p.killed := by
  unfold Proc.wakeup
  split_ifs <;> rfl

theorem wakeup_unused (p : Proc n) (chan : Chan n) (h : (p.wakeup chan).state = .UNUSED) :
    p.state = .UNUSED := by
  unfold Proc.wakeup at h
  split_ifs at h
  exact h

theorem CleanSlots.wakeup (h : CleanSlots t) (p : Fin n) (chan : Chan n) :
    CleanSlots (t.wakeup p chan) := by
  refine h.map fun i => ?_
  unfold ProcTable.wakeup
  dsimp only
  split_ifs
  · exact ⟨rfl, id⟩
  · exact ⟨wakeup_killed _ _, wakeup_unused _ _⟩

theorem allocproc_some {trapframe pagetable : Bool}
    (h : t.allocproc trapframe pagetable = (u, some i)) :
    (t.proc i).state = .UNUSED ∧
      u = { t.set i ((t.proc i).found t.nextpid) with nextpid := t.nextpid + 1 } := by
  unfold allocproc at h
  split at h
  · simp at h
  · rename_i k hk
    have hunused := scan_some hk
    simp only [decide_eq_true_eq] at hunused
    split_ifs at h
    all_goals simp only [Prod.mk.injEq, Option.some.injEq, reduceCtorEq, and_false] at h
    obtain ⟨rfl, rfl⟩ := h
    exact ⟨hunused, rfl⟩

theorem CleanSlots.found (h : CleanSlots t) (pid nextpid : Int32) :
    CleanSlots { t.set i ((t.proc i).found pid) with nextpid := nextpid } :=
  h.set (by simp [Proc.found])

theorem CleanSlots.allocproc (h : CleanSlots t) (trapframe pagetable : Bool) :
    CleanSlots (t.allocproc trapframe pagetable).1 := by
  unfold ProcTable.allocproc
  split
  · exact h
  · dsimp only
    split_ifs
    · exact (h.found _ _).set (freeproc_clean _)
    · exact (h.found _ _).set (freeproc_clean _)
    · exact h.found _ _

theorem CleanSlots.fork (h : CleanSlots t) (p : Fin n) (trapframe pagetable uvmcopy : Bool) :
    CleanSlots (t.fork p trapframe pagetable uvmcopy).1 := by
  have halloc := h.allocproc trapframe pagetable
  unfold ProcTable.fork
  split
  · rename_i t' heq
    rw [heq] at halloc
    exact halloc
  · rename_i t' np heq
    rw [heq] at halloc
    split_ifs
    · exact halloc.set (freeproc_clean _)
    · exact halloc.set (by simp)

theorem CleanSlots.reparent (h : CleanSlots t) (p : Fin n) : CleanSlots (t.reparent p) := by
  have hgive : CleanSlots (t.giveToInit p) := by
    refine h.map fun i => ?_
    unfold giveToInit
    dsimp only
    split_ifs <;> exact ⟨rfl, id⟩
  unfold ProcTable.reparent
  split_ifs
  · exact hgive.wakeup p _
  · exact hgive

theorem CleanSlots.exit (h : CleanSlots t) {p : Fin n} {status : Int32}
    (hexit : t.exit p status = some u) : CleanSlots u := by
  unfold ProcTable.exit at hexit
  split_ifs at hexit
  cases hexit
  exact ((h.reparent p).wakeup p _).set (by simp)

theorem CleanSlots.wait (h : CleanSlots t) (p : Fin n) (copyout : Bool) :
    CleanSlots (t.wait p copyout).1 := by
  unfold ProcTable.wait
  split
  · split_ifs
    · exact h
    · exact h.set (freeproc_clean _)
  · split_ifs
    · exact h
    · exact h.set (by simp)

/-! ### What `kill` may meet -/

/-- The first slot that carries `pid`, if any, is in use, and no other slot in use carries it. -/
def Names (t : ProcTable n) (pid : Int32) : Prop :=
  ∀ i, t.scan (fun p => p.pid = pid) = some i →
    (t.proc i).state ≠ .UNUSED ∧ ∀ j, (t.proc j).state ≠ .UNUSED → (t.proc j).pid = pid → j = i

/-- `kill(pid)` returns -1 and changes nothing, or exactly one slot in use carries `pid`, only that
slot is changed, and the result is 0. -/
def KillsOne (t : ProcTable n) (pid : Int32) : Prop :=
  t.kill pid = (t, -1) ∨
    ∃ i, (∀ j, (t.proc j).state ≠ .UNUSED ∧ (t.proc j).pid = pid ↔ j = i) ∧
      t.kill pid = (t.set i (t.proc i).kill, 0)

theorem kill_of_scan {pid : Int32} (h : t.scan (fun p => p.pid = pid) = some i) :
    t.kill pid = (t.set i (t.proc i).kill, 0) := by
  unfold kill
  rw [h]

/-- In a table whose free slots are clean, `kill(pid)` does what it should exactly if `Names`. -/
theorem killsOne_iff (hclean : CleanSlots t) (pid : Int32) : KillsOne t pid ↔ Names t pid := by
  cases hscan : t.scan (fun p => p.pid = pid) with
  | none =>
    refine ⟨fun _ i hi => ?_, fun _ => Or.inl ?_⟩
    · rw [hscan] at hi
      cases hi
    · unfold kill
      rw [hscan]
  | some i =>
    have hpid : (t.proc i).pid = pid := by simpa using scan_some hscan
    have hkill := kill_of_scan hscan
    constructor
    · rintro (h | ⟨j, hj, h⟩) k hk
      · rw [hkill] at h
        cases (Prod.ext_iff.mp h).2
      · obtain rfl : i = k := by rw [hscan] at hk; exact Option.some.inj hk
        -- the slot that was marked must be `j`: it was not marked before, being free
        have hij : i = j := by
          by_contra hne
          have hunused : (t.proc i).state = .UNUSED := by
            by_contra hused
            exact hne ((hj i).mp ⟨hused, hpid⟩)
          rw [hkill] at h
          have hsets := congrFun (congrArg ProcTable.proc (Prod.ext_iff.mp h).1) i
          rw [set_proc_self, set_proc_of_ne hne] at hsets
          have hmark : (t.proc i).killed = true := by
            rw [← hsets]
            rfl
          rw [hclean i hunused] at hmark
          cases hmark
        subst hij
        exact ⟨((hj i).mpr rfl).1, fun l hl hlp => (hj l).mp ⟨hl, hlp⟩⟩
    · intro h
      obtain ⟨hused, huniq⟩ := h i hscan
      refine Or.inr ⟨i, fun j => ⟨fun hj => huniq j hj.1 hj.2, ?_⟩, hkill⟩
      rintro rfl
      exact ⟨hused, hpid⟩

/-- The calls of `kill` in a run name a process in use, or nothing. -/
def KillNames (t : ProcTable n) : TableAct n → Prop
  | .kill pid => Names t pid
  | _ => True

instance (t : ProcTable n) (pid : Int32) : Decidable (Names t pid) := by
  unfold Names
  infer_instance

instance (t : ProcTable n) (a : TableAct n) : Decidable (KillNames t a) := by
  cases a <;> unfold KillNames <;> infer_instance

theorem whenRunning_some {p : Fin n} {t' : Option (ProcTable n)} (h : t.whenRunning p t' = some u) :
    (t.proc p).state = .RUNNING ∧ t' = some u := by
  unfold whenRunning at h
  split_ifs at h with hp
  exact ⟨hp, h⟩

theorem CleanSlots.kill (h : CleanSlots t) {pid : Int32} (hnames : Names t pid) :
    CleanSlots (t.kill pid).1 := by
  cases hscan : t.scan (fun p => p.pid = pid) with
  | none =>
    unfold ProcTable.kill
    rw [hscan]
    exact h
  | some i =>
    rw [kill_of_scan hscan]
    refine h.set fun hunused => absurd hunused ?_
    have hused := (hnames i hscan).1
    unfold Proc.kill
    split_ifs
    · simp
    · exact hused

theorem cleanSlots_step {a : TableAct n} (h : CleanSlots t) (hG : KillNames t a)
    (hstep : t.step a = some u) : CleanSlots u := by
  cases a with
  | fork p trapframe pagetable uvmcopy =>
    cases (whenRunning_some hstep).2
    exact h.fork p trapframe pagetable uvmcopy
  | exit p status => exact h.exit (whenRunning_some hstep).2
  | wait p copyout =>
    cases (whenRunning_some hstep).2
    exact h.wait p copyout
  | kill pid =>
    cases hstep
    exact h.kill hG
  | setkilled p =>
    obtain ⟨hrun, hu⟩ := whenRunning_some hstep
    cases hu
    exact h.set fun hunused => by simp [hrun] at hunused
  | sleep p chan | yield p =>
    cases (whenRunning_some hstep).2
    exact h.set (by simp)
  | wakeup p chan =>
    cases (whenRunning_some hstep).2
    exact h.wakeup p chan
  | schedule p =>
    simp only [step] at hstep
    split_ifs at hstep
    cases hstep
    exact h.set (by simp)

variable [NeZero n]

theorem cleanSlots_boot : CleanSlots (boot : ProcTable n) := by
  intro i _
  by_cases hi : i = 0
  · subst hi
    simp [boot, Proc.zero]
  · simp [boot, update_of_ne hi, Proc.zero]

/-- In every run in which `kill` only meets slots in use, `kill` affects exactly the process it names
(and this is so exactly if the pid names a process in use, or nothing), and every process that
`allocproc` returns starts with `killed = 0`. -/
theorem kill_names_process (as : List (TableAct n)) (t : ProcTable n)
    (hrun : Run.exec step boot as = some t) (hkill : Run.Along step KillNames boot as) :
    (∀ pid, KillsOne t pid ↔ Names t pid) ∧
      ∀ trapframe pagetable u i, t.allocproc trapframe pagetable = (u, some i) →
        (u.proc i).killed = false := by
  have hclean : CleanSlots t := Run.exec_invariant
    (fun _ _ _ h hG hstep => cleanSlots_step h hG hstep) hrun hkill cleanSlots_boot
  refine ⟨killsOne_iff hclean, fun trapframe pagetable u i h => ?_⟩
  obtain ⟨hunused, rfl⟩ := allocproc_some h
  show ((t.set i ((t.proc i).found t.nextpid)).proc i).killed = false
  rw [set_proc_self]
  exact hclean i hunused

/-- `init` forks and kills its child, the process with pid 2. -/
def forkKillRun : List (TableAct NPROC) := [.schedule 0, .fork 0 true true true, .kill 2]

theorem kill_names_process_forkKill :
    ∃ t, Run.exec step boot forkKillRun = some t ∧ (t.proc 1).killed = true ∧ KillsOne t 2 ∧
      ((t.allocproc true true).1.proc 2).killed = false := by
  obtain ⟨t, ht, hmark, hnames, halloc⟩ : ∃ t, Run.exec step boot forkKillRun = some t ∧
      (t.proc 1).killed = true ∧ Names t 2 ∧ (t.allocproc true true).2 = some 2 :=
    ⟨_, rfl, by decide +kernel, by decide +kernel, by decide +kernel⟩
  have h := kill_names_process forkKillRun t ht (by decide +kernel)
  exact ⟨t, ht, hmark, (h.1 2).mpr hnames, h.2 true true _ 2 (Prod.ext rfl halloc)⟩

/-- `kill(0)` right after boot marks the free slot 1, and the next process is born killed. -/
theorem kill_zero_marks_free_slot :
    ¬ KillsOne (boot : ProcTable NPROC) 0 ∧
      ∃ t u, Run.exec step (boot : ProcTable NPROC) [.kill 0] = some t ∧
        t.allocproc true true = (u, some 1) ∧ (u.proc 1).killed = true := by
  refine ⟨fun h => ?_, _, _, rfl, Prod.ext rfl ?_, ?_⟩
  · exact absurd ((killsOne_iff cleanSlots_boot 0).mp h) (by decide +kernel)
  · decide +kernel
  · decide +kernel

end ProcTable

end Xv6
