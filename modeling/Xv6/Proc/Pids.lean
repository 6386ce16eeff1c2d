import Xv6.Proc.Kill

/-!
# Process ids

`allocpid` hands out `nextpid` and increments it, an `int` that a failed `fork` uses up as well. The ids are
positive and distinct until it wraps.
-/

namespace Xv6.ProcTable

open Function

variable {n : Nat} {t u v : ProcTable n} {i : Fin n}

/-- The slots in use have positive ids, no two the same. -/
structure PidsOk (t : ProcTable n) : Prop where
  positive : ∀ i, (t.proc i).state ≠ .UNUSED → 0 < (t.proc i).pid
  distinct : ∀ i j, (t.proc i).state ≠ .UNUSED → (t.proc j).state ≠ .UNUSED →
    (t.proc i).pid = (t.proc j).pid → i = j

/-- A slot that was free is in use. -/
def Creates (t u : ProcTable n) : Prop := ∃ i, (t.proc i).state = .UNUSED ∧ (u.proc i).state ≠ .UNUSED

/-! ### The calls -/

/-- No slot comes into use or changes its id while in use, and `nextpid` stays. -/
structure KeepsPids (t u : ProcTable n) : Prop where
  used : ∀ i, (u.proc i).state ≠ .UNUSED → (t.proc i).state ≠ .UNUSED ∧ (u.proc i).pid = (t.proc i).pid
  nextpid : u.nextpid = t.nextpid

theorem KeepsPids.refl (t : ProcTable n) : KeepsPids t t := ⟨fun _ h => ⟨h, rfl⟩, rfl⟩

theorem KeepsPids.trans (h : KeepsPids t u) (h' : KeepsPids u v) : KeepsPids t v := by
  refine ⟨fun i hi => ?_, h'.nextpid.trans h.nextpid⟩
  obtain ⟨hu, hpid⟩ := h'.used i hi
  exact ⟨(h.used i hu).1, hpid.trans (h.used i hu).2⟩

theorem keepsPids_set {p : Proc n}
    (hp : p.state ≠ .UNUSED → (t.proc i).state ≠ .UNUSED ∧ p.pid = (t.proc i).pid) :
    KeepsPids t (t.set i p) := by
  refine ⟨fun j hj => ?_, rfl⟩
  by_cases hji : j = i
  · subst hji
    rw [set_proc_self] at hj ⊢
    exact hp hj
  · rw [set_proc_of_ne hji] at hj ⊢
    exact ⟨hj, rfl⟩

theorem keepsPids_wakeup (t : ProcTable n) (p : Fin n) (chan : Chan n) : KeepsPids t (t.wakeup p chan) := by
  refine ⟨fun i => ?_, rfl⟩
  simp only [wakeup, Proc.wakeup]
  split_ifs with hp hs
  · exact fun h => ⟨h, rfl⟩
  · refine fun _ => ⟨?_, rfl⟩
    rw [hs.1]
    nofun
  · exact fun h => ⟨h, rfl⟩

theorem keepsPids_reparent (t : ProcTable n) (p : Fin n) : KeepsPids t (t.reparent p) := by
  have hgive : KeepsPids t (t.giveToInit p) := by
    refine ⟨fun i => ?_, rfl⟩
    simp only [giveToInit]
    split_ifs <;> exact fun h => ⟨h, rfl⟩
  unfold reparent
  split_ifs
  · exact hgive.trans (keepsPids_wakeup ..)
  · exact hgive

theorem wakeup_self (t : ProcTable n) (p : Fin n) (chan : Chan n) : (t.wakeup p chan).proc p = t.proc p :=
  if_pos rfl

theorem reparent_state (t : ProcTable n) (p : Fin n) : ((t.reparent p).proc p).state = (t.proc p).state := by
  have hgive : ((t.giveToInit p).proc p).state = (t.proc p).state := by
    simp only [giveToInit]
    split_ifs <;> rfl
  unfold reparent
  split_ifs
  · rw [wakeup_self, hgive]
  · exact hgive

theorem keepsPids_exit {p : Fin n} {status : Int32} (hp : (t.proc p).state = .RUNNING)
    (h : t.exit p status = some u) : KeepsPids t u := by
  unfold exit at h
  split_ifs at h
  cases h
  set w := (t.reparent p).wakeup p (((t.reparent p).proc p).parent.elim .null .proc) with hw
  have hkeeps : KeepsPids t w := (keepsPids_reparent t p).trans (keepsPids_wakeup ..)
  -- neither `reparent` nor `wakeup` touches the state of the process that calls it
  have hrun : (w.proc p).state = .RUNNING := by
    rw [wakeup_self, reparent_state, hp]
  refine hkeeps.trans (keepsPids_set fun _ => ⟨?_, rfl⟩)
  rw [hrun]
  nofun

theorem keepsPids_wait {p : Fin n} (hp : (t.proc p).state = .RUNNING) (copyout : Bool) :
    KeepsPids t (t.wait p copyout).1 := by
  unfold wait
  split
  · split_ifs
    · exact .refl t
    · exact keepsPids_set fun h => absurd rfl h
  · split_ifs
    · exact .refl t
    · refine keepsPids_set fun _ => ⟨?_, rfl⟩
      rw [hp]
      nofun

theorem keepsPids_kill (t : ProcTable n) (pid : Int32) : KeepsPids t (t.kill pid).1 := by
  unfold kill
  split
  · exact .refl t
  · refine keepsPids_set fun h => ⟨?_, rfl⟩
    intro hunused
    simp [Proc.kill, hunused] at h

theorem set_set (t : ProcTable n) (i : Fin n) (p q : Proc n) (k : Int32) :
    ProcTable.set { t.set i p with nextpid := k } i q = { t.set i q with nextpid := k } := by
  simp only [set, update_idem]

/-- `fork` fails without a free slot, or takes one with the id `nextpid`, for the child or to free it again. -/
theorem fork_cases {p : Fin n} {trapframe pagetable uvmcopy : Bool} {r : Int32}
    (h : t.fork p trapframe pagetable uvmcopy = (u, r)) :
    (u = t ∧ r = -1) ∨
      ∃ i q, (t.proc i).state = .UNUSED ∧ u = { t.set i q with nextpid := t.nextpid + 1 } ∧
        (q.state = .UNUSED ∧ r = -1 ∨ q.state ≠ .UNUSED ∧ q.pid = t.nextpid ∧ r = t.nextpid) := by
  unfold fork allocproc at h
  cases hscan : t.scan fun p => p.state = .UNUSED with
  | none =>
    rw [hscan] at h
    cases h
    exact Or.inl ⟨rfl, rfl⟩
  | some i =>
    rw [hscan] at h
    have hunused : (t.proc i).state = .UNUSED := by simpa using scan_some hscan
    refine Or.inr ⟨i, ?_⟩
    cases trapframe with
    | false =>
      cases h
      exact ⟨_, hunused, set_set .., Or.inl ⟨rfl, rfl⟩⟩
    | true =>
      cases pagetable with
      | false =>
        cases h
        exact ⟨_, hunused, set_set .., Or.inl ⟨rfl, rfl⟩⟩
      | true =>
        cases uvmcopy with
        | false =>
          cases h
          exact ⟨_, hunused, set_set .., Or.inl ⟨rfl, rfl⟩⟩
        | true =>
          cases h
          refine ⟨_, hunused, set_set .., Or.inr ⟨nofun, ?_, ?_⟩⟩
          · simp [Proc.found]
          · simp [Proc.found]

/-! ### Runs in which `nextpid` does not wrap -/

/-- The pids up to the wrap: below `nextpid`, which is positive or has just become `-2^31`. -/
structure PidInv (t : ProcTable n) : Prop extends PidsOk t where
  next : t.nextpid = Int32.minValue ∨
    0 < t.nextpid ∧ ∀ i, (t.proc i).state ≠ .UNUSED → (t.proc i).pid < t.nextpid

/-- A `fork` that finds a free slot finds a positive `nextpid`. -/
def NextPositive (t : ProcTable n) : TableAct n → Prop
  | .fork .. => (∃ i, (t.proc i).state = .UNUSED) → 0 < t.nextpid
  | _ => True

instance (t : ProcTable n) : ∀ a, Decidable (NextPositive t a)
  | .fork .. => inferInstanceAs (Decidable ((∃ i, (t.proc i).state = .UNUSED) → 0 < t.nextpid))
  | .exit .. | .wait .. | .kill _ | .setkilled _ | .sleep .. | .wakeup .. | .yield _ | .schedule _ =>
    inferInstanceAs (Decidable True)

theorem PidInv.keeps (h : PidInv t) (hk : KeepsPids t u) : PidInv u where
  positive i hi := by
    rw [(hk.used i hi).2]
    exact h.positive i (hk.used i hi).1
  distinct i j hi hj hij := by
    rw [(hk.used i hi).2, (hk.used j hj).2] at hij
    exact h.distinct i j (hk.used i hi).1 (hk.used j hj).1 hij
  next := by
    rw [hk.nextpid]
    refine h.next.imp_right fun hlt => ⟨hlt.1, fun i hi => ?_⟩
    rw [(hk.used i hi).2]
    exact hlt.2 i (hk.used i hi).1

theorem succ_of_pos {x : Int32} (hx : 0 < x) : x + 1 = Int32.minValue ∨ 0 < x + 1 ∧ x < x + 1 := by
  have hpos := Int32.lt_iff_toInt_lt.mp hx
  have hle := x.toInt_lt
  have hsucc : (x + 1).toInt = (x.toInt + 1).bmod (2 ^ 32) := Int32.toInt_add x 1
  simp only [Int32.toInt_zero] at hpos
  by_cases hmax : x.toInt = 2 ^ 31 - 1
  · left
    rw [← Int32.toInt_inj, hsucc, hmax]
    rfl
  · right
    rw [Int.bmod_eq_of_le (by omega) (by omega)] at hsucc
    simp only [Int32.lt_iff_toInt_lt, hsucc, Int32.toInt_zero]
    omega

/-- A free slot takes the id `nextpid`, or is free again. -/
theorem PidInv.take (h : PidInv t) (hi : (t.proc i).state = .UNUSED) (hpos : 0 < t.nextpid) {q : Proc n}
    (hq : q.state ≠ .UNUSED → q.pid = t.nextpid) :
    PidInv { t.set i q with nextpid := t.nextpid + 1 } := by
  have hlt : ∀ j, (t.proc j).state ≠ .UNUSED → (t.proc j).pid < t.nextpid :=
    (h.next.resolve_left fun hmin => absurd hpos (by rw [hmin]; decide)).2
  have hslot : ∀ j, (update t.proc i q j).state ≠ .UNUSED →
      j = i ∧ (update t.proc i q j).pid = t.nextpid ∨
        j ≠ i ∧ (t.proc j).state ≠ .UNUSED ∧ (update t.proc i q j).pid = (t.proc j).pid := by
    intro j hj
    by_cases hji : j = i
    · subst hji
      rw [update_self] at hj ⊢
      exact Or.inl ⟨rfl, hq hj⟩
    · rw [update_of_ne hji] at hj ⊢
      exact Or.inr ⟨hji, hj, rfl⟩
  refine ⟨⟨fun j hj => ?_, fun j k hj hk hjk => ?_⟩, (succ_of_pos hpos).imp_right fun hs => ⟨hs.1, fun j hj => ?_⟩⟩
  · obtain ⟨-, hpid⟩ | ⟨-, hused, hpid⟩ := hslot j hj
    · exact hpid ▸ hpos
    · exact hpid ▸ h.positive j hused
  · change (update t.proc i q j).pid = (update t.proc i q k).pid at hjk
    obtain ⟨rfl, hpid⟩ | ⟨-, hused, hpid⟩ := hslot j hj
    · obtain ⟨rfl, -⟩ | ⟨-, hused', hpid'⟩ := hslot k hk
      · rfl
      · rw [hpid, hpid'] at hjk
        exact absurd (hlt k hused') (by rw [hjk]; exact Int32.lt_irrefl)
    · obtain ⟨rfl, hpid'⟩ | ⟨-, hused', hpid'⟩ := hslot k hk
      · rw [hpid, hpid'] at hjk
        exact absurd (hlt j hused) (by rw [hjk]; exact Int32.lt_irrefl)
      · exact h.distinct j k hused hused' (by rw [← hpid, ← hpid', hjk])
  · obtain ⟨-, hpid⟩ | ⟨-, hused, hpid⟩ := hslot j hj
    · exact hpid ▸ hs.2
    · exact hpid ▸ Int32.lt_trans (hlt j hused) hs.2

theorem PidInv.fork (h : PidInv t) (hpos : (∃ i, (t.proc i).state = .UNUSED) → 0 < t.nextpid) {p : Fin n}
    {trapframe pagetable uvmcopy : Bool} {r : Int32} (hfork : t.fork p trapframe pagetable uvmcopy = (u, r)) :
    PidInv u := by
  obtain ⟨rfl, -⟩ | ⟨i, q, hi, rfl, hq⟩ := fork_cases hfork
  · exact h
  · refine h.take hi (hpos ⟨i, hi⟩) fun hused => ?_
    exact (hq.resolve_left fun hfree => hused hfree.1).2.1

theorem pidInv_step {a : TableAct n} (h : PidInv t) (hG : NextPositive t a) (hstep : t.step a = some u) :
    PidInv u := by
  cases a with
  | fork p trapframe pagetable uvmcopy =>
    cases (whenRunning_some hstep).2
    exact h.fork hG rfl
  | exit p status =>
    obtain ⟨hp, hu⟩ := whenRunning_some hstep
    exact h.keeps (keepsPids_exit hp hu)
  | wait p copyout =>
    obtain ⟨hp, hu⟩ := whenRunning_some hstep
    cases hu
    exact h.keeps (keepsPids_wait hp copyout)
  | kill pid =>
    cases hstep
    exact h.keeps (keepsPids_kill t pid)
  | setkilled p =>
    cases (whenRunning_some hstep).2
    exact h.keeps (keepsPids_set fun hp => ⟨hp, rfl⟩)
  | sleep p chan | yield p =>
    obtain ⟨hp, hu⟩ := whenRunning_some hstep
    cases hu
    exact h.keeps (keepsPids_set fun _ => ⟨by simp [hp], rfl⟩)
  | wakeup p chan =>
    cases (whenRunning_some hstep).2
    exact h.keeps (keepsPids_wakeup t p chan)
  | schedule p =>
    simp only [step] at hstep
    split_ifs at hstep with hp
    cases hstep
    exact h.keeps (keepsPids_set fun _ => ⟨by simp [hp], rfl⟩)

theorem not_creates_self (t : ProcTable n) : ¬ Creates t t := fun ⟨_, hfree, hused⟩ => hused hfree

theorem creates_set {q : Proc n} {k : Int32} (hi : (t.proc i).state = .UNUSED) :
    Creates t { t.set i q with nextpid := k } ↔ q.state ≠ .UNUSED := by
  constructor
  · rintro ⟨j, hj, hused⟩ hq
    by_cases hji : j = i
    · subst hji
      exact hused (by rw [← hq]; exact congrArg Proc.state (set_proc_self t j q))
    · exact hused (by rw [← hj]; exact congrArg Proc.state (set_proc_of_ne hji q))
  · intro hq
    refine ⟨i, hi, ?_⟩
    rwa [show ProcTable.proc { t.set i q with nextpid := k } i = q from set_proc_self t i q]

theorem fork_creates {p : Fin n} {trapframe pagetable uvmcopy : Bool} {r : Int32}
    (h : t.fork p trapframe pagetable uvmcopy = (u, r)) :
    ¬ Creates t u ∧ r = -1 ∨ Creates t u ∧ r = t.nextpid ∧
      ∃ i, (u.proc i).state ≠ .UNUSED ∧ (u.proc i).pid = t.nextpid := by
  obtain ⟨rfl, hr⟩ | ⟨i, q, hi, rfl, hq⟩ := fork_cases h
  · exact Or.inl ⟨not_creates_self _, hr⟩
  · rw [creates_set hi]
    refine hq.imp (fun hfree => ⟨fun hused => hused hfree.1, hfree.2⟩) fun hused => ?_
    have hslot : (t.set i q).proc i = q := set_proc_self t i q
    exact ⟨hused.1, hused.2.2, i, hslot.symm ▸ hused.1, hslot.symm ▸ hused.2.1⟩

variable [NeZero n]

theorem pidInv_boot : PidInv (boot : ProcTable n) := by
  have hinit : ∀ i, ((boot : ProcTable n).proc i).state ≠ .UNUSED → i = 0 := by
    intro i hi
    by_contra hne
    exact hi (by simp [boot, update_of_ne hne, Proc.zero])
  have hone : ((boot : ProcTable n).proc 0).pid = 1 := by simp [boot]
  have hnext : (1 : Int32) < (boot : ProcTable n).nextpid := show (1 : Int32) < 2 by decide
  refine ⟨⟨fun i hi => ?_, fun i j hi hj _ => (hinit i hi).trans (hinit j hj).symm⟩,
    Or.inr ⟨Int32.lt_trans (by decide) hnext, fun i hi => ?_⟩⟩
  · rw [hinit i hi, hone]
    decide
  · rw [hinit i hi]
    exact hnext

/-- **Process ids are positive and distinct until `nextpid` wraps**: in every run in which each `fork` that
finds a free slot finds `nextpid` positive. `fork` then returns a positive value exactly if it made a child;
with any other `nextpid`, the first child breaks both. -/
theorem pids_positive_distinct (as : List (TableAct n)) (t : ProcTable n)
    (hrun : Run.exec step boot as = some t) (hnext : Run.Along step NextPositive boot as) :
    PidsOk t ∧ ∀ p trapframe pagetable uvmcopy u r, t.fork p trapframe pagetable uvmcopy = (u, r) →
      (0 < r ↔ Creates t u ∧ 0 < t.nextpid) ∧ (Creates t u → (PidsOk u ↔ 0 < t.nextpid)) := by
  have hinv : PidInv t := Run.exec_invariant
    (fun _ _ _ h hG hstep => pidInv_step h hG hstep) hrun hnext pidInv_boot
  refine ⟨hinv.toPidsOk, fun p trapframe pagetable uvmcopy u r hfork => ?_⟩
  obtain ⟨hnot, rfl⟩ | ⟨hchild, rfl, i, hused, hpid⟩ := fork_creates hfork
  · exact ⟨⟨fun h => absurd h (by decide), fun h => absurd h.1 hnot⟩, fun h => absurd h hnot⟩
  · refine ⟨⟨fun h => ⟨hchild, h⟩, And.right⟩, fun _ => ⟨fun hok => hpid ▸ hok.positive i hused, fun hpos => ?_⟩⟩
    exact (hinv.fork (fun _ => hpos) hfork).toPidsOk

theorem pids_positive_distinct_forkKill : ∃ t, Run.exec step boot forkKillRun = some t ∧
    (t.proc 1).pid = 2 ∧ PidsOk t := by
  have hrun : (Run.exec step boot forkKillRun).map (fun t => (t.proc 1).pid) = some 2 := by decide +kernel
  obtain ⟨t, ht, hpid⟩ := Option.map_eq_some_iff.mp hrun
  exact ⟨t, ht, hpid, (pids_positive_distinct forkKillRun t ht (by decide +kernel)).1⟩

/-! ### Runs in which it does -/

section

omit [NeZero n]

theorem step_failedFork {p : Fin n} (hp : (t.proc p).state = .RUNNING)
    (hscan : t.scan (fun p => p.state = .UNUSED) = some i) (hi : t.proc i = .zero) :
    t.step (.fork p false true true) = some { t with nextpid := t.nextpid + 1 } := by
  have hzero : update t.proc i Proc.zero = t.proc := by rw [← hi, update_eq_self]
  simp only [step, whenRunning, if_pos hp, fork, allocproc, hscan, if_true]
  rw [set_set]
  exact congrArg (fun f => some (ProcTable.mk f (t.nextpid + 1) t.initproc)) hzero

theorem exec_failedForks {p : Fin n} (hp : (t.proc p).state = .RUNNING)
    (hscan : t.scan (fun p => p.state = .UNUSED) = some i) (hi : t.proc i = .zero) (k : Nat)
    (as : List (TableAct n)) :
    Run.exec step t (List.replicate k (.fork p false true true) ++ as) =
      Run.exec step { t with nextpid := t.nextpid + Int32.ofNat k } as := by
  induction k generalizing t with
  | zero => simp
  | succ k ih =>
    rw [List.replicate_succ, List.cons_append, Run.exec, step_failedFork hp hscan hi, Option.bind_some,
      ih (t := { t with nextpid := t.nextpid + 1 }) hp hscan hi, Int32.ofNat_add, Int32.add_assoc,
      Int32.add_comm 1]
    rfl

theorem fork_child {p : Fin n} (hscan : t.scan (fun p => p.state = .UNUSED) = some i) :
    t.fork p true true true =
      ({ t.set i { (t.proc i).found t.nextpid with parent := some p, state := .RUNNABLE } with
          nextpid := t.nextpid + 1 }, t.nextpid) := by
  unfold fork allocproc
  rw [hscan]
  refine Prod.ext ?_ (congrArg Proc.pid (set_proc_self t i _))
  refine (set_set ..).trans ?_
  rw [show ProcTable.proc { t.set i _ with nextpid := _ } i = _ from set_proc_self t i _]

end

/-- The table in which `init` runs and nothing else is in use. -/
def running (nextpid : Int32) : ProcTable NPROC where
  proc := update (fun _ => .zero) 0 { Proc.zero with pid := 1, state := .RUNNING }
  nextpid := nextpid
  initproc := 0

theorem running_scan (x : Int32) : (running x).scan (fun p => p.state = .UNUSED) = some 1 := by
  have hscan : (running 2).scan (fun p => p.state = .UNUSED) = some 1 := by decide +kernel
  exact hscan

/-- `init` runs and fails to fork `k` times. -/
def failedForks (k : Nat) : List (TableAct NPROC) := .schedule 0 :: List.replicate k (.fork 0 false true true)

theorem exec_failedForks_boot (k : Nat) :
    Run.exec step boot (failedForks k) = some (running (2 + Int32.ofNat k)) := by
  have hschedule : (boot : ProcTable NPROC).step (.schedule 0) = some (running 2) := by
    simp [step, set, boot, running]
  rw [failedForks, ← List.append_nil (List.replicate ..), Run.exec, hschedule, Option.bind_some,
    exec_failedForks rfl (running_scan 2) rfl]
  rfl

theorem running_fork (x : Int32) : ∃ u, (running x).fork 0 true true true = (u, x) ∧
    Creates (running x) u ∧ ((u.proc 0).state ≠ .UNUSED ∧ (u.proc 0).pid = 1) ∧
    (u.proc 1).state ≠ .UNUSED ∧ (u.proc 1).pid = x := by
  refine ⟨_, fork_child (running_scan x), ?_, ⟨nofun, rfl⟩, nofun, rfl⟩
  rw [creates_set rfl]
  nofun

/-- After `2^31 - 2` failed forks the next child has the id `-2^31`, and `fork` returns it; after `2^32 - 1` of
them it has the id of `init`. -/
theorem pid_wraps :
    (∃ t u, Run.exec step boot (failedForks (2 ^ 31 - 2)) = some t ∧
      t.fork 0 true true true = (u, Int32.minValue) ∧ Creates t u ∧ ¬ PidsOk u) ∧
    ∃ t u, Run.exec step boot (failedForks (2 ^ 32 - 1)) = some t ∧
      t.fork 0 true true true = (u, 1) ∧ (u.proc 0).pid = (u.proc 1).pid ∧ ¬ PidsOk u := by
  constructor
  · obtain ⟨u, hfork, hchild, -, hused, hpid⟩ := running_fork (2 + Int32.ofNat (2 ^ 31 - 2))
    refine ⟨_, u, exec_failedForks_boot _, hfork, hchild, fun hok => ?_⟩
    exact absurd (hpid ▸ hok.positive 1 hused) (by decide)
  · obtain ⟨u, hfork, -, ⟨hinit, hone⟩, hused, hpid⟩ := running_fork (2 + Int32.ofNat (2 ^ 32 - 1))
    have hsame : (u.proc 0).pid = (u.proc 1).pid := hone.trans hpid.symm
    refine ⟨_, u, exec_failedForks_boot _, hfork, hsame, fun hok => ?_⟩
    exact absurd (hok.distinct 0 1 hinit hused hsame) (by decide)

end Xv6.ProcTable
