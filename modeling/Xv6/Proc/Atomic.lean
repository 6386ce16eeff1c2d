import Xv6.Proc.Kill
import Xv6.Proc.OneCpu

/-!
# Calls that nothing interrupts

`ProcTable.step` takes a call as one step. On the machine this is what the call comes to when its CPU runs it
up to its return or its `sched`, while the other CPUs hold no lock and make no step.
-/

namespace Xv6

open Function

variable {n : Nat}

namespace Proc

variable (q : Proc n) (ch : Chan n)

theorem wakeup_wakeup : (q.wakeup ch).wakeup ch = q.wakeup ch := by
  by_cases hq : q.state = .SLEEPING ∧ q.chan = ch <;> simp [wakeup, hq]

theorem wakeup_parent : (q.wakeup ch).parent = q.parent := by
  unfold wakeup
  split_ifs <;> rfl

theorem wakeup_setParent (o : Option (Fin n)) :
    { q with parent := o }.wakeup ch = { q.wakeup ch with parent := o } := by
  unfold wakeup
  split_ifs <;> rfl

end Proc

namespace ProcTable

variable {t : ProcTable n} {p i : Fin n}

/-- What an operation stores in the table. -/
@[simp] def store (t : ProcTable n) : Effect n → ProcTable n
  | .set i r => t.set i r
  | .found i => { t.set i ((t.proc i).found t.nextpid) with nextpid := t.nextpid + 1 }
  | _ => t

/-- A loop up to the first slot that satisfies `f`. -/
theorem scan_induction {f : Proc n → Bool} {P : Nat → Prop}
    (hskip : ∀ i : Fin n, f (t.proc i) = false → P (i + 1) → P i) (hend : t.scan f = none → P n)
    (hhit : ∀ i : Fin n, t.scan f = some i → P i) : P 0 := by
  cases hscan : t.scan f with
  | none =>
    refine Nat.decreasingInduction' (fun i hi _ => hskip ⟨i, hi⟩ ?_) (Nat.zero_le n) (hend hscan)
    simpa using List.find?_eq_none.mp hscan ⟨i, hi⟩ (List.mem_finRange _)
  | some i =>
    obtain ⟨-, k, hk, hki, hbefore⟩ := List.find?_eq_some_iff_getElem.mp hscan
    rw [List.getElem_finRange] at hki
    obtain rfl : k = i := congrArg Fin.val hki
    refine Nat.decreasingInduction' (fun j hj _ => hskip ⟨j, hj.trans i.isLt⟩ ?_) (Nat.zero_le _) (hhit i hscan)
    simpa using hbefore j hj

/-- A loop over the slots that changes the table; `D` holds of the slots it has passed. -/
theorem slot_loop {D : Fin n → ProcTable n → Prop} {P : Nat → ProcTable n → Prop}
    (hstep : ∀ (i : Fin n) t, (∀ t', D i t' → (∀ j, D j t → D j t') → P (i + 1) t') → P i t)
    (hend : ∀ t, (∀ j, D j t) → P n t) (t : ProcTable n) : P 0 t := by
  refine Nat.decreasingInduction' (P := fun i => ∀ t, (∀ j : Fin n, (j : Nat) < i → D j t) → P i t)
    (fun i hi _ hnext t hdone => hstep ⟨i, hi⟩ t fun t' hi' hkeep => hnext t' fun j hj => ?_) (Nat.zero_le n)
    (fun t hdone => hend t fun j => hdone j j.isLt) t (by simp)
  rcases Nat.lt_succ_iff_lt_or_eq.mp hj with hlt | heq
  · exact hkeep j (hdone j hlt)
  · exact (Fin.ext heq : j = ⟨i, hi⟩) ▸ hi'

theorem ext_proc {f g : Fin n → Proc n} (h : ∀ i, f i = g i) : { t with proc := f } = { t with proc := g } := by
  rw [funext h]

/-- A child that `reparent` has given away makes no difference to the rest of its loop. -/
theorem reparent_given (hp : p ≠ t.initproc) (hi : (t.proc i).parent = some p) :
    ((t.set i { t.proc i with parent := some t.initproc }).wakeup p (.proc t.initproc)).reparent p = t.reparent p := by
  have hgive : ((t.set i { t.proc i with parent := some t.initproc }).wakeup p (.proc t.initproc)).giveToInit p =
      (t.giveToInit p).wakeup p (.proc t.initproc) := by
    refine ext_proc fun j => ?_
    by_cases hj : j = i <;> by_cases hjp : j = p <;> by_cases hpar : (t.proc j).parent = some p <;>
      simp_all [set, wakeup, giveToInit, Proc.wakeup_parent, Proc.wakeup_setParent, Ne.symm]
  rw [reparent, hgive, reparent, if_pos (⟨i, hi⟩ : ∃ i, (t.proc i).parent = some p)]
  split_ifs
  · refine ext_proc fun j => ?_
    by_cases hjp : j = p <;> simp [wakeup, set, hjp, Proc.wakeup_wakeup]
  · rfl

end ProcTable

/-- A call by the process `p`. -/
def TableAct.isCallOf (p : Fin n) : TableAct n → Prop
  | .fork q _ _ _ | .exit q _ | .wait q _ | .setkilled q | .sleep q _ | .wakeup q _ | .yield q => q = p
  | .kill _ => True
  | .schedule _ => False

/-- A CPU that holds the locks `held` can do this, and stays with its process. -/
@[simp] def Effect.CanDo : Effect n → List (Lock n) → Prop
  | .acquire l, held => l ∉ held
  | .release l, held => l ∈ held
  | .run _, _ | .idle, _ => False
  | _, _ => True

namespace Machine

variable {C : Type} [DecidableEq C] [NeZero n]

def table (m : Machine C n) : ProcTable n := ⟨m.proc, m.nextpid, initproc⟩

/-- CPU `c` runs the process `p` with the stack `fs`, and the other CPUs hold no lock. -/
structure Shows (c : C) (p : Fin n) (fs : List (Frame n)) (t : ProcTable n) (m : Machine C n) : Prop where
  inv : SwitchInv m
  panic : m.panic = none
  running : m.running c = some p
  kstack : m.kstack p = fs
  table : m.table = t
  alone : ∀ l d, m.lock l = some d → d = c

/-- The process is outside the functions of `proc.c`, with no lock, or before its `sched`. -/
def AtEnd : List (Frame n) → Bool
  | [.code .main []] => true
  | f :: _ => f.leaves
  | [] => false

/-- By steps of its own, CPU `c` ends a call with the table `u`. -/
def Ends (c : C) (p : Fin n) (u : ProcTable n) (m : Machine C n) : Prop :=
  ∃ (chs : List (Choice n)) (m' : Machine C n) (fs : List (Frame n)),
    Run.exec step m (chs.map (c, ·)) = some m' ∧ Shows c p fs u m' ∧ AtEnd fs = true

def Leads (c : C) (p : Fin n) (fs : List (Frame n)) (t u : ProcTable n) : Prop :=
  ∀ m, Shows c p fs t m → Ends c p u m

variable {c : C} {p i : Fin n} {t u : ProcTable n} {m : Machine C n} {f : Frame n}
  {fs rest : List (Frame n)} {e : Effect n}

theorem exec_canDo (hinv : LockInv m) (halone : ∀ l d, m.lock l = some d → d = c) (he : e.CanDo (m.held c))
    (ev : List (ProcEvent n)) :
    ∃ m₁ : Machine C n, m.exec c rest (.step e fs ev) = some ((m₁.setLive c (fs ++ rest)).log ev) ∧
      m₁.panic = m.panic ∧ m₁.running = m.running ∧ m₁.table = m.table.store e ∧
      ∀ l d, m₁.lock l = some d → d = c := by
  cases e with
  | acquire l =>
    have hfree : m.lock l = none := Option.eq_none_iff_forall_ne_some.mpr fun d hd =>
      he ((hinv.lock_iff c l).mp (halone l d hd ▸ hd))
    refine ⟨m.take c l, by simp [exec, hfree], rfl, rfl, rfl, fun k d hd => ?_⟩
    by_cases hk : k = l
    · simpa [take, hk, eq_comm] using hd
    · exact halone k d (by simpa [take, hk] using hd)
  | release l =>
    refine ⟨m.drop c l, if_pos ((hinv.lock_iff c l).mpr he), rfl, rfl, rfl, fun k d hd => ?_⟩
    by_cases hk : k = l
    · simp [drop, hk] at hd
    · exact halone k d (by simpa [drop, hk] using hd)
  | run | idle => exact he.elim
  | _ => exact ⟨m.store c _, rfl, rfl, rfl, rfl, halone⟩

omit [DecidableEq C] in
theorem Shows.proc (h : Shows c p fs t m) : m.proc = t.proc := congrArg ProcTable.proc h.table

omit [DecidableEq C] in
theorem Shows.cproc (h : Shows c p fs t m) : m.cproc c = some p := h.inv.thread.running_cproc c p h.running

theorem Shows.op (hm : Shows c p (f :: rest) t m) (ch : Choice n) {ev : List (ProcEvent n)}
    (hop : m.code c f ch = some (.step e fs ev)) (he : e.CanDo (stackLocks (f :: rest)))
    (h : Leads c p (fs ++ rest) (t.store e) u) : Ends c p u m := by
  have hlive := (live_of_running hm.running).trans hm.kstack
  rw [← held_of_live hlive] at he
  obtain ⟨m₁, hexec, hpanic, hrun, htable, halone⟩ := exec_canDo hm.inv.lock hm.alone he ev
  have hstep : m.step (c, ch) = some ((m₁.setLive c (fs ++ rest)).log ev) := by
    rw [step, if_neg (not_not.mpr hm.panic)]
    dsimp only
    rw [hlive]
    exact Option.bind_eq_some_iff.mpr ⟨_, hop, hexec⟩
  obtain ⟨chs, m', fs', hrest, hu⟩ := h _ {
    inv := hm.inv.step hstep
    panic := setLive_panic.trans (hpanic.trans hm.panic)
    running := (congrFun (setLive_running.trans hrun) c).trans hm.running
    kstack := setLive_kstack_self ((congrFun hrun c).trans hm.running)
    table := by
      rw [← hm.table, ← htable]
      exact congrArg₂ (ProcTable.mk · · initproc) setLive_proc setLive_nextpid
    alone := fun l d hd => halone l d (by simpa [log] using hd) }
  exact ⟨ch :: chs, m', fs', Run.exec_cons.mpr ⟨_, hstep, hrest⟩, hu⟩

theorem Leads.done (h : AtEnd fs = true) : Leads c p fs t t := fun m hm => ⟨[], m, fs, rfl, hm, h⟩

theorem Leads.of_initproc (h : t.initproc = initproc → Leads c p fs t u) : Leads c p fs t u :=
  fun m hm => h (hm.table ▸ rfl) m hm

/-- One operation of the call. -/
theorem Leads.op (ch : Choice n) (e : Effect n) (fs : List (Frame n))
    (hop : ∀ m, Shows c p (f :: rest) t m →
      (∃ ev, m.code c f ch = some (.step e fs ev)) ∧ e.CanDo (stackLocks (f :: rest)))
    (h : Leads c p (fs ++ rest) (t.store e) u) : Leads c p (f :: rest) t u := by
  intro m hm
  obtain ⟨⟨ev, hop⟩, he⟩ := hop m hm
  exact hm.op ch hop he h

abbrev outside : List (Frame n) := [.code .main []]

theorem leads_kill {pid : Int32} : Leads c p (.kill pid 0 :: outside) t (t.kill pid).1 := by
  refine t.scan_induction (f := fun q => q.pid = pid)
    (P := fun i => Leads c p (.kill pid i :: outside) t (t.kill pid).1)
    (fun i hi hnext => ?_) (fun hscan => ?_) fun i hscan => ?_
  · refine .op .go (.acquire (.proc i)) [.killTest pid i] ?_ <| .op .go .none [.killUnlock pid i false] ?_ <|
      .op .go (.release (.proc i)) [.kill pid (i + 1)] ?_ hnext
    all_goals
      intro m hm
      simp_all [code, text, Frame.locks, hm.proc]
  · rw [ProcTable.kill, hscan]
    exact .op .go .none [] (fun m hm => by simp [code, text]) (.done rfl)
  · rw [ProcTable.kill_of_scan hscan]
    have hi := ProcTable.scan_some hscan
    refine .op .go (.acquire (.proc i)) [.killTest pid i] ?_ <|
      .op .go (.set i (t.proc i).kill) [.killUnlock pid i true] ?_ <| .op .go (.release (.proc i)) [] ?_ (.done rfl)
    all_goals
      intro m hm
      simp_all [code, text, Frame.locks, hm.proc]

theorem leads_forkFail (hf : f = .forkAlloc p i ∨ f = .forkCopy p i) :
    Leads c p (f :: outside) t (t.set i (t.proc i).freeproc) := by
  refine .op .fail (.set i (t.proc i).freeproc) [.forkUndo p i] ?_ <| .op .go (.release (.proc i)) [] ?_ (.done rfl)
  all_goals
    intro m hm
    rcases hf with rfl | rfl <;> simp [code, text, Frame.locks, hm.proc]

theorem leads_forkCopy :
    Leads c p (.forkCopy p i :: outside) t (t.set i { t.proc i with parent := some p, state := .RUNNABLE }) := by
  refine .op .go .none [.forkUnlock p i] ?_ <| .op .go (.release (.proc i)) [.forkLockWait p i] ?_ <|
    .op .go (.acquire .wait) [.forkParent p i] ?_ <|
    .op .go (.set i { t.proc i with parent := some p }) [.forkUnlockWait p i] ?_ <|
    .op .go (.release .wait) [.forkRelock p i] ?_ <| .op .go (.acquire (.proc i)) [.forkSet p i] ?_ <|
    .op .go (.set i { t.proc i with parent := some p, state := .RUNNABLE }) [.forkDone p i] ?_ <|
    .op .go (.release (.proc i)) [] ?_ ?_
  on_goal 9 => simpa [ProcTable.set] using .done rfl
  all_goals
    intro m hm
    simp [code, text, Frame.locks, hm.proc]

theorem leads_fork {trapframe pagetable uvmcopy : Bool} :
    Leads c p (.forkScan p 0 :: outside) t (t.fork p trapframe pagetable uvmcopy).1 := by
  refine t.scan_induction (f := fun q => q.state = .UNUSED)
    (P := fun i => Leads c p (.forkScan p i :: outside) t (t.fork p trapframe pagetable uvmcopy).1)
    (fun i hi hnext => ?_) (fun hscan => ?_) fun i hscan => ?_
  · refine .op .go (.acquire (.proc i)) [.forkTest p i] ?_ <| .op .go .none [.forkSkip p i] ?_ <|
      .op .go (.release (.proc i)) [.forkScan p (i + 1)] ?_ hnext
    all_goals
      intro m hm
      simp_all [code, text, Frame.locks, hm.proc]
  · rw [ProcTable.fork, ProcTable.allocproc, hscan]
    exact .op .go .none [] (fun m hm => by simp [code, text]) (.done rfl)
  · have hrest : Leads c p (.forkAlloc p i :: outside) (t.store (.found i))
        (t.fork p trapframe pagetable uvmcopy).1 := by
      rw [ProcTable.fork, ProcTable.allocproc, hscan]
      cases trapframe
      · exact leads_forkFail (.inl rfl)
      cases pagetable
      · exact leads_forkFail (.inl rfl)
      refine .op .go (.newContext i) [.forkCopy p i] (fun m hm => by simp [code, text]) ?_
      cases uvmcopy
      · exact leads_forkFail (.inr rfl)
      · exact leads_forkCopy
    have hi := ProcTable.scan_some hscan
    refine .op .go (.acquire (.proc i)) [.forkTest p i] ?_ <| .op .go (.found i) [.forkAlloc p i] ?_ hrest
    all_goals
      intro m hm
      simp_all [code, text, Frame.locks, hm.proc]

theorem leads_sleep {ch : Chan n} {lk : Lock n} {call : Nat} (h : .proc p ∉ lk :: stackLocks rest) :
    Leads c p (.sleepLock p ch lk call :: rest) t (t.set p { t.proc p with chan := ch, state := .SLEEPING }) := by
  refine .op .go (.acquire (.proc p)) [.sleepUnlockLk p ch lk call] ?_ <|
    .op .go (.release lk) [.sleepSet p ch lk call] ?_ <|
    .op .go (.set p { t.proc p with chan := ch, state := .SLEEPING }) [.sleepSched p ch lk call] ?_ (.done rfl)
  all_goals
    intro m hm
    simp_all [code, text, Frame.locks, hm.proc]

theorem leads_waitRet {r : Int32} : Leads c p (.waitRet p r :: outside) t t :=
  .op .go (.release .wait) [] (fun m hm => by simp [code, text, Frame.locks]) (.done rfl)

/-- The end of `wait`'s loop, with or without children. -/
theorem leads_waitScan {havekids : Bool} (hkids : havekids = true ↔ ∃ i, (t.proc i).parent = some p) :
    Leads c p (.waitScan p true n havekids :: outside) t
      (if (¬ ∃ i, (t.proc i).parent = some p) ∨ (t.proc p).killed = true then t
        else t.set p { t.proc p with chan := .proc p, state := .SLEEPING }) := by
  simp only [← hkids]
  cases havekids
  · exact .op .go .none [.waitRet p (-1)] (fun m hm => by simp [code, text]) leads_waitRet
  refine .op .go (.acquire (.proc p)) [.waitKilled p true] (fun m hm => by simp [code, text, Frame.locks]) <|
    .op .go .none [.waitKilledUnlock p true (t.proc p).killed] (fun m hm => by simp [code, text, hm.proc]) <|
    .op .go (.release (.proc p)) [if (t.proc p).killed then .waitRet p (-1) else .waitSleep p true]
      (fun m hm => by simp [code, text, Frame.locks]) ?_
  by_cases hkilled : (t.proc p).killed = true
  · rw [if_pos hkilled, if_pos (.inr hkilled)]
    exact leads_waitRet
  · rw [if_neg hkilled, if_neg (by simp [hkilled])]
    exact fun m hm => hm.op .go rfl trivial (leads_sleep (by simp [Frame.locks]))

theorem leads_wait {copyout : Bool} : Leads c p (.waitLockWait p true :: outside) t (t.wait p copyout).1 := by
  refine .op .go (.acquire .wait) [.waitScan p true 0 false] (fun m hm => by simp [code, text, Frame.locks]) ?_
  refine t.scan_induction (f := fun q => q.parent = some p ∧ q.state = .ZOMBIE)
    (P := fun i => ∀ b, (b = true ↔ ∃ j : Fin n, (j : Nat) < i ∧ (t.proc j).parent = some p) →
      Leads c p (.waitScan p true i b :: outside) t (t.wait p copyout).1)
    (fun i hi hnext b hb => ?_) (fun hscan b hb => ?_) (fun i hscan b _ => ?_) false (by simp)
  · by_cases hpar : (t.proc i).parent = some p
    · refine .op .go (.acquire (.proc i)) [.waitTest p true i] ?_ <| .op .go .none [.waitNext p true i] ?_ <|
        .op .go (.release (.proc i)) [.waitScan p true (i + 1) true] ?_ (hnext true ?_)
      on_goal 4 => exact iff_of_true rfl ⟨i, Nat.lt_succ_self _, hpar⟩
      all_goals
        intro m hm
        simp_all [code, text, Machine.waitTest, Frame.locks, hm.proc]
    · refine .op .go .none [.waitScan p true (i + 1) b] (fun m hm => by simp [code, text, hm.proc, hpar])
        (hnext b (hb.trans (exists_congr fun j => and_congr_left fun hj => ?_)))
      have : (j : Nat) ≠ i := fun heq => hpar (Fin.ext heq ▸ hj)
      omega
  · rw [ProcTable.wait, hscan]
    refine (congrArg (Leads c p _ t) ?_).mp (leads_waitScan (by simpa using hb))
    split_ifs <;> rfl
  · rw [ProcTable.wait, hscan]
    have hi := ProcTable.scan_some hscan
    refine .op .go (.acquire (.proc i)) [.waitTest p true i] (fun m hm => ?_) ?_
    · simp_all [code, text, Frame.locks, hm.proc]
    cases copyout
    · refine .op .fail .none [.waitFail p i] ?_ <| .op .go (.release (.proc i)) [.waitRet p (-1)] ?_ leads_waitRet
      all_goals
        intro m hm
        simp_all [code, text, Machine.waitTest, Frame.locks, hm.proc]
    · refine .op .go (.set i (t.proc i).freeproc) [.waitReaped p i (t.proc i).pid] ?_ <|
        .op .go (.release (.proc i)) [.waitRet p (t.proc i).pid] ?_ leads_waitRet
      all_goals
        intro m hm
        simp_all [code, text, Machine.waitTest, Frame.locks, hm.proc]

theorem leads_wakeup {ch : Chan n} (hrest : ∀ i, .proc i ∉ stackLocks rest) (h : Leads c p rest (t.wakeup p ch) u) :
    Leads c p (.wakeup ch 0 :: rest) t u := by
  refine ProcTable.slot_loop (D := fun j t => j = p ∨ (t.proc j).wakeup ch = t.proc j)
    (P := fun i t => Leads c p rest (t.wakeup p ch) u → Leads c p (.wakeup ch i :: rest) t u)
    (fun i t hnext h => ?_) (fun t hdone h => ?_) t h
  · by_cases hip : i = p
    · exact .op .go .none [.wakeup ch (i + 1)] (fun m hm => by simp [code, text, hm.cproc, hip])
        (hnext t (.inl hip) (fun _ => id) h)
    · have hset : (t.set i ((t.proc i).wakeup ch)).wakeup p ch = t.wakeup p ch := by
        refine ProcTable.ext_proc fun j => ?_
        by_cases hj : j = i <;> simp [ProcTable.set, hj, hip, Proc.wakeup_wakeup]
      refine .op .go (.acquire (.proc i)) [.wakeupSet ch i] ?_ <|
        .op .go (.set i ((t.proc i).wakeup ch)) [.wakeupUnlock ch i] ?_ <|
        .op .go (.release (.proc i)) [.wakeup ch (i + 1)] ?_ (hnext _ (.inr ?_) (fun j hj => ?_) (hset ▸ h))
      on_goal 4 => simp [Proc.wakeup_wakeup]
      on_goal 4 => by_cases hji : j = i <;> simp [ProcTable.set, hji, hj, Proc.wakeup_wakeup]
      all_goals
        intro m hm
        simp_all [code, text, Frame.locks, hm.proc, hm.cproc, Ne.symm]
  · have heq : t.wakeup p ch = t := ProcTable.ext_proc fun j => by
      rcases hdone j with rfl | hj <;> simp [*]
    exact .op .go .none [] (fun m hm => by simp [code, text]) (heq ▸ h)

theorem leads_reparent {status : Int32} (hp : p ≠ initproc)
    (h : Leads c p (.exitWakeup p status :: outside) (t.reparent p) u) :
    Leads c p (.reparent p status 0 :: outside) t u := by
  refine ProcTable.slot_loop (D := fun j t => (t.proc j).parent ≠ some p)
    (P := fun i t => Leads c p (.exitWakeup p status :: outside) (t.reparent p) u →
      Leads c p (.reparent p status i :: outside) t u)
    (fun i t hnext h => .of_initproc fun ht => ?_) (fun t hdone h => ?_) t h
  · by_cases hi : (t.proc i).parent = some p
    · refine .op .go (.set i { t.proc i with parent := some initproc })
        [.wakeup (.proc initproc) 0, .reparent p status (i + 1)] (fun m hm => by simp [code, text, hm.proc, hi])
        (leads_wakeup (by simp [Frame.locks]) (hnext _ ?_ (fun j hj => ?_) ?_))
      · simpa [ProcTable.wakeup, apply_ite Proc.parent, Proc.wakeup_parent] using Ne.symm hp
      · have hji : j ≠ i := fun heq => hj (heq ▸ hi)
        simpa [ProcTable.wakeup, ProcTable.set, hji, apply_ite Proc.parent, Proc.wakeup_parent]
      · rw [← ProcTable.reparent_given (ht ▸ hp) hi, ht] at h
        exact h
    · exact .op .go .none [.reparent p status (i + 1)] (fun m hm => by simp [code, text, hm.proc, hi])
        (hnext t hi (fun _ => id) h)
  · have heq : t.reparent p = t := by simp [ProcTable.reparent, ProcTable.giveToInit, hdone]
    exact .op .go .none [.exitWakeup p status] (fun m hm => by simp [code, text]) (heq ▸ h)

theorem leads_exit {status : Int32} (hp : p ≠ initproc) (h : t.exit p status = some u) :
    Leads c p (.exitLockWait p status :: outside) t u := by
  rw [ProcTable.exit] at h
  split_ifs at h
  cases h
  refine .op .go (.acquire .wait) [.reparent p status 0] ?_ <| leads_reparent hp <|
    .op .go .none [.wakeup (((t.reparent p).proc p).parent.elim .null .proc) 0, .exitLock p status] ?_ <|
    leads_wakeup (by simp [Frame.locks]) <| .op .go (.acquire (.proc p)) [.exitSet p status] ?_ <|
    .op .go (.set p _) [.exitUnlockWait p] ?_ <| .op .go (.release .wait) [.exitSched p] ?_ (.done rfl)
  all_goals
    intro m hm
    simp [code, text, Frame.locks, hm.proc]

theorem leads_call {a : TableAct n} (ha : a.isCallOf p) (h : t.step a = some u) : Leads c p outside t u := by
  cases a with
  | schedule => exact ha.elim
  | kill pid =>
    cases h
    exact .op (.kill pid) .none [.kill pid 0, .code .main []] (fun m hm => by simp [code, callCode]) leads_kill
  | fork q trapframe pagetable uvmcopy =>
    obtain rfl := ha
    cases (ProcTable.whenRunning_some h).2
    exact .op .fork .none [.forkScan q 0, .code .main []] (fun m hm => by simp [code, callCode, hm.cproc]) leads_fork
  | wait q copyout =>
    obtain rfl := ha
    cases (ProcTable.whenRunning_some h).2
    exact .op (.wait true) .none [.waitLockWait q true, .code .main []]
      (fun m hm => by simp [code, callCode, hm.cproc]) leads_wait
  | exit q status =>
    obtain rfl := ha
    have hexit := (ProcTable.whenRunning_some h).2
    refine .of_initproc fun ht => ?_
    have hq : q ≠ initproc := fun heq => by simp [ProcTable.exit, ht, heq] at hexit
    exact .op (.exit status) .none [.code .close [], .exitLockWait q status, .code .main []]
      (fun m hm => by simp [code, callExit, hm.cproc, hq]) <|
      .op .ret .none [] (fun m hm => by simp [code, callCode]) (leads_exit hq hexit)
  | setkilled q =>
    obtain rfl := ha
    cases (ProcTable.whenRunning_some h).2
    refine .op .setkilled .none [.setkilledLock q, .code .main []] ?_ <|
      .op .go (.acquire (.proc q)) [.setkilled q] ?_ <|
      .op .go (.set q { t.proc q with killed := true }) [.setkilledUnlock q] ?_ <|
      .op .go (.release (.proc q)) [] ?_ (.done rfl)
    all_goals
      intro m hm
      simp [code, text, callCode, Frame.locks, hm.proc, hm.cproc]
  | yield q =>
    obtain rfl := ha
    cases (ProcTable.whenRunning_some h).2
    refine .op .yield .none [.yieldLock q, .code .main []] ?_ <| .op .go (.acquire (.proc q)) [.yieldSet q] ?_ <|
      .op .go (.set q { t.proc q with state := .RUNNABLE }) [.yieldSched q] ?_ (.done rfl)
    all_goals
      intro m hm
      simp [code, text, callCode, Frame.locks, hm.proc, hm.cproc]
  | wakeup q chan =>
    obtain rfl := ha
    cases (ProcTable.whenRunning_some h).2
    exact .op (.wakeup chan) .none [.wakeup chan 0, .code .main []] (fun m hm => by simp [code, callCode])
      (leads_wakeup (by simp [Frame.locks]) (.done rfl))
  | sleep q chan =>
    obtain rfl := ha
    cases (ProcTable.whenRunning_some h).2
    -- the caller of `sleep` holds a lock
    refine .op (.acquire 0) (.acquire (.other 0)) [.code .main [0]] (fun m hm => by simp [code, callCode, Frame.locks])
      fun m hm => ?_
    obtain ⟨ev, hop⟩ : ∃ ev, m.code c (.code .main [0]) (.sleep chan 0) =
        some (.step .none [.sleepLock q chan (.other 0) m.trace.length, .code .main []] ev) := by
      simp [code, callCode, hm.cproc]
    exact hm.op _ hop trivial (leads_sleep (by simp [Frame.locks]))

omit [DecidableEq C] in
theorem boot_table : (boot : Machine C n).table = .boot := rfl

/-- **Calls that nothing interrupts are steps of the table**: in every run, a process outside the functions of
`proc.c` can make any call that the table allows, while the other CPUs hold no lock and stand still. -/
theorem ends_call {as : List (C × Choice n)} (hrun : Run.exec step boot as = some m) (hpanic : m.panic = none)
    (hp : m.running c = some p) (hstack : m.kstack p = outside) (halone : ∀ l d, m.lock l = some d → d = c)
    {a : TableAct n} (ha : a.isCallOf p) (h : m.table.step a = some u) : Ends c p u m :=
  leads_call ha h m ⟨switchInv_run hrun, hpanic, hp, hstack, rfl, halone⟩

/-- The scheduler starts the first process. -/
example : ∃ m, Run.exec step (boot : Machine Bool 2) (.replicate 5 (false, .go)) = some m ∧
    m.running false = some 0 ∧ m.kstack 0 = outside ∧ m.lock .wait = none := ⟨_, rfl, rfl, rfl, rfl⟩

end Machine

end Xv6
