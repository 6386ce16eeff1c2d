import Xv6.Proc.Wakeup

/-!
# Parents and children

`p->parent` and the state `ZOMBIE` change only under `wait_lock`. Hence what `reparent`, `exit` and
`wait` have found out about the children of a process stays true until they release the lock: a
process that has become `ZOMBIE` has no children, and a process that goes to sleep in `wait` has no
`ZOMBIE` child.
-/

namespace Xv6.Machine

variable {C : Type} [DecidableEq C] {n : Nat} [NeZero n] {m m' : Machine C n} {c d : C}
  {f g : Frame n} {fs rest : List (Frame n)} {p q r i j : Fin n} {op : Op n} {e : Effect n}
  {l : Lock n}

/-- A process that has started and not exited. -/
def Alive (s : ProcState) : Prop := s = .SLEEPING ∨ s = .RUNNABLE ∨ s = .RUNNING

theorem alive_iff_not_resting {s : ProcState} : Alive s ↔ ¬ Resting s := by
  cases s <;> simp [Alive, Resting]

/-- No slot before `i` is a `ZOMBIE` child of `p`. -/
def NoZombie (m : Machine C n) (p : Fin n) (i : Nat) : Prop :=
  ∀ j : Fin n, j.val < i → (m.proc j).parent = some p → (m.proc j).state ≠ .ZOMBIE

/-- No slot before `i` is a child of `p`. -/
def NoChild (m : Machine C n) (p : Fin n) (i : Nat) : Prop :=
  ∀ j : Fin n, j.val < i → (m.proc j).parent ≠ some p

/-- What `exit` and `wait` know about the children at a position. -/
def FamilyAt (m : Machine C n) : Frame n → Prop
  | .exitLockWait p _ => p ≠ initproc
  | .reparent p _ i => p ≠ initproc ∧ NoChild m p i
  | .exitWakeup p _ | .exitLock p _ | .exitSet p _ => p ≠ initproc ∧ NoChild m p n
  | .waitScan p _ i havekids => NoZombie m p i ∧ (havekids = false → NoChild m p i)
  | .waitTest p _ i => NoZombie m p i ∧ (m.proc i).parent = some p
  | .waitNext p _ i => NoZombie m p (i + 1)
  | .waitFail p i => (m.proc i).parent = some p ∧ (m.proc i).state = .ZOMBIE
  | .waitKilled p _ | .waitKilledUnlock p _ _ | .waitSleep p _ => NoZombie m p n
  | .sleepLock p _ .wait _ | .sleepUnlockLk p _ .wait _ => NoZombie m p n
  | _ => True

structure FamilyInv (m : Machine C n) : Prop where
  alive : ∀ r q, (m.proc r).parent = some q → Alive (m.proc q).state
  init : Alive (m.proc initproc).state
  frames : ∀ p, ∀ f ∈ m.kstack p, FamilyAt m f

/-! ### Stores -/

theorem Store.parent (h : Store m f e fs)
    (hj : ((m.store c e).proc j).parent ≠ (m.proc j).parent) :
    (∃ p, f = .forkParent p j ∧ ((m.store c e).proc j).parent = some p) ∨
      (∃ p st, f = .reparent p st j ∧ (m.proc j).parent = some p ∧
        ((m.store c e).proc j).parent = some initproc) ∨
      ((m.store c e).proc j).parent = none ∧
        ((∃ p addr, f = .waitTest p addr j) ∨ f.builds = some j ∧ .proc j ∈ f.locks) := by
  by_cases hs : e.slot = some j
  · rw [store_proc_self hs] at hj ⊢
    cases h with cases hs
    | forkParent p np => exact Or.inl ⟨p, rfl, rfl⟩
    | reparent p st i hi => exact Or.inr (Or.inl ⟨p, st, rfl, hi, rfl⟩)
    | reap p addr i hz => exact Or.inr (Or.inr ⟨rfl, Or.inl ⟨p, addr, rfl⟩⟩)
    | undo p np f hf =>
      refine Or.inr (Or.inr ⟨rfl, Or.inr ?_⟩)
      rcases hf with rfl | rfl <;> exact ⟨rfl, List.mem_cons_self⟩
    | wakeup ch i =>
      simp only [stored, Proc.wakeup] at hj
      split_ifs at hj <;> exact absurd rfl hj
    | _ => exact absurd rfl hj
  · exact absurd (by rw [store_proc_of_ne hs]) hj

theorem Store.zombie (h : Store m f e fs) (hj : ((m.store c e).proc j).state = .ZOMBIE) :
    (m.proc j).state = .ZOMBIE ∨ ∃ st, f = .exitSet j st := by
  by_cases hs : e.slot = some j
  · rw [store_proc_self hs] at hj
    cases h with cases hs
    | exitSet p st => exact Or.inr ⟨st, rfl⟩
    | wakeup ch i =>
      simp only [stored, Proc.wakeup] at hj
      split_ifs at hj
      exact Or.inl hj
    | kill pid i hpid =>
      simp only [stored, Proc.kill] at hj
      split_ifs at hj
      exact Or.inl hj
    | _ => first | exact Or.inl hj | cases hj
  · rw [store_proc_of_ne hs] at hj
    exact Or.inl hj

namespace Does

variable (hd : Does m c f rest op m')

include hd

theorem kept_exclusive (hi : SleepInv m) (hg : Kept m c f rest op p g)
    (hl : l ∈ g.locks) (hf : l ∈ f.locks) (hw : .wait ∈ g.locks) : False := by
  rcases hg with ⟨hp, hmem⟩ | ⟨hp, hmem | ⟨rfl, -, hnoff⟩⟩
  · -- the lock would be held by two CPUs
    have hlocks : ∀ {k}, k ∈ g.locks → k ∈ stackLocks (m.kstack p) := fun hk =>
      List.mem_flatMap.mpr ⟨g, hmem, hk⟩
    obtain ⟨d, hrun, -⟩ := hi.holder hd.inv (hlocks hw) (by simp)
    have hlock : m.lock l = some d := by
      rw [hd.inv.lock.lock_iff, held_of_live (live_of_running hrun)]
      exact hlocks hl
    rw [hd.locked hf] at hlock
    exact hp (Option.some.inj hlock ▸ hrun)
  · have hnodup := hd.inv.lock.nodup c
    rw [held_of_live hd.live] at hnodup
    exact (List.nodup_append.mp hnodup).2.2 l hf l (List.mem_flatMap.mpr ⟨g, hmem, hl⟩) rfl
  · have hlen := hd.inv.lock.noff_eq c
    rw [hnoff, held_of_live hd.live] at hlen
    have hnil := (List.append_eq_nil_iff.mp (List.length_eq_zero_iff.mp hlen.symm)).1
    rw [hnil] at hf
    cases hf

/-- The parent of a process was its parent before, or forks it, or is `initproc` for a parent that
exits. -/
theorem parent_cases (hr : (m'.proc r).parent = some q) :
    (m.proc r).parent = some q ∨
      (f = .forkParent q r ∧ op = .step (.set r { m.proc r with parent := some q })
        [.forkUnlockWait q r] [.forked (m.life q) (m.life r) (m.proc r).pid]) ∨
      ∃ p st, f = .reparent p st r ∧ (m.proc r).parent = some p ∧ q = initproc ∧
        op.frames = [.wakeup (.proc initproc) 0, .reparent p st (r + 1)] := by
  rcases hd.proc with heq | ⟨e, fs, ev, hop, hst, heq⟩
  · rw [heq] at hr
    exact Or.inl hr
  · rw [heq] at hr
    by_cases hsame : ((m.store c e).proc r).parent = (m.proc r).parent
    · rw [hsame] at hr
      exact Or.inl hr
    · rcases hst.parent hsame with ⟨p, rfl, hp⟩ | ⟨p, st, rfl, hp, hq⟩ | ⟨hnone, -⟩
      · obtain rfl := Option.some.inj (hp.symm.trans hr)
        have hfs : fs = [.forkUnlockWait p r] := by
          cases hst with
          | forkParent => rfl
          | undo _ _ _ hf => rcases hf with hf | hf <;> cases hf
        rcases hd.enters (by rw [hop, hfs]; exact List.mem_cons_self) with
          ⟨heq, -⟩ | ⟨-, henters⟩
        · cases heq
        · exact Or.inr (Or.inl ⟨rfl, henters⟩)
      · refine Or.inr (Or.inr ⟨p, st, rfl, hp, Option.some.inj (hr.symm.trans hq), ?_⟩)
        rw [hop]
        generalize hk : r.val = k at hst
        cases hst with
        | reparent q st' i hi =>
          rfl
        | undo _ _ _ hf => rcases hf with hf | hf <;> cases hf
      · rw [hnone] at hr
        cases hr

theorem parent_mono (hw : .wait ∉ f.locks)
    (hj : (m'.proc j).parent = some q) : (m.proc j).parent = some q := by
  rcases hd.proc with heq | ⟨e, fs, ev, -, hst, heq⟩
  · rwa [heq] at hj
  · rw [heq] at hj
    by_cases hne : ((m.store c e).proc j).parent = (m.proc j).parent
    · rwa [hne] at hj
    · rcases hst.parent hne with ⟨p, rfl, -⟩ | ⟨p, st, rfl, -⟩ | ⟨hnone, -⟩
      · exact absurd List.mem_cons_self hw
      · exact absurd List.mem_cons_self hw
      · rw [hnone] at hj
        cases hj

theorem zombie_cases (hj : (m'.proc j).state = .ZOMBIE) :
    (m.proc j).state = .ZOMBIE ∨ ∃ st, f = .exitSet j st := by
  rcases hd.proc with heq | ⟨e, fs, ev, -, hst, heq⟩
  · rw [heq] at hj
    exact Or.inl hj
  · rw [heq] at hj
    exact hst.zombie hj

theorem zombie_mono (hw : .wait ∉ f.locks)
    (hj : (m'.proc j).state = .ZOMBIE) : (m.proc j).state = .ZOMBIE := by
  rcases hd.zombie_cases hj with hz | ⟨st, rfl⟩
  · exact hz
  · exact absurd (by simp [Frame.locks]) hw

theorem noChild_step (hw : .wait ∉ f.locks) {k : Nat}
    (h : NoChild m p k) : NoChild m' p k := fun j hj hp => h j hj (hd.parent_mono hw hp)

theorem noZombie_step (hw : .wait ∉ f.locks) {k : Nat}
    (h : NoZombie m p k) : NoZombie m' p k := fun j hj hp hz =>
  h j hj (hd.parent_mono hw hp) (hd.zombie_mono hw hz)

/-- A `ZOMBIE` stays one, with its exit status, until it is reaped. -/
theorem zombie_kept (hj : (m.proc j).state = .ZOMBIE) :
    ((m'.proc j).state = .ZOMBIE ∧ (m'.proc j).xstate = (m.proc j).xstate) ∨
      (m'.proc j).state = .UNUSED ∧ ∃ p addr, f = .waitTest p addr j := by
  -- the slot is neither running nor being built
  have hself : f.self = some j → f.leaves = true := fun hf => by
    by_contra hleaves
    have hrunning := hd.state_running (hd.inv.thread.running_of_self hd.live hf) (by simpa using hleaves)
    rw [hj] at hrunning
    cases hrunning
  have hbuilds : f.builds = some j → False := fun hf => by
    rw [hd.used_of_builds hf] at hj
    cases hj
  rcases hd.proc with heq | ⟨e, fs, ev, -, hst, heq⟩
  · rw [heq]
    exact Or.inl ⟨hj, rfl⟩
  · rw [heq]
    by_cases hs : e.slot = some j
    · rw [store_proc_self hs]
      cases hst with cases hs
      | yieldSet p | sleepSet p => cases hself rfl
      | exitSet p => cases hself rfl
      | wakeup ch i => simp [stored, Proc.wakeup, hj]
      | kill pid i hpid => simp [stored, Proc.kill, hj]
      | found p i hu =>
        rw [hj] at hu
        cases hu
      | undo p np f hf => rcases hf with rfl | rfl <;> exact (hbuilds rfl).elim
      | forkSet p np => exact (hbuilds rfl).elim
      | reap p addr i hz => exact Or.inr ⟨rfl, p, addr, rfl⟩
      | run i hr =>
        rw [hj] at hr
        cases hr
      | _ => exact Or.inl ⟨hj, rfl⟩
    · rw [store_proc_of_ne hs]
      exact Or.inl ⟨hj, rfl⟩

theorem zombie_parent (hw : .wait ∉ f.locks)
    (hj : (m.proc j).state = .ZOMBIE) : (m'.proc j).parent = (m.proc j).parent := by
  by_contra hne
  rcases hd.proc with heq | ⟨e, fs, ev, -, hst, heq⟩
  · exact hne (by rw [heq])
  · rw [heq] at hne
    rcases hst.parent hne with ⟨p, rfl, -⟩ | ⟨p, st, rfl, -⟩ | ⟨-, ⟨p, addr, rfl⟩ | ⟨hf, -⟩⟩
    · exact hw List.mem_cons_self
    · exact hw List.mem_cons_self
    · exact hw (by simp [Frame.locks])
    · rw [hd.used_of_builds hf] at hj
      cases hj

end Does

/-! ### Positions in exit and wait -/

section

omit [DecidableEq C] [NeZero n]

theorem NoChild.mono {k k' : Nat} (h : NoChild m p k) (hk : k' ≤ k) : NoChild m p k' :=
  fun j hj => h j (hj.trans_le hk)

theorem NoChild.succ {k : Nat} (h : NoChild m p k) (hk : k < n)
    (hnew : (m.proc ⟨k, hk⟩).parent ≠ some p) : NoChild m p (k + 1) := by
  intro j hj
  by_cases hjk : j.val = k
  · subst hjk
    exact hnew
  · exact h j (by omega)

theorem NoZombie.mono {k k' : Nat} (h : NoZombie m p k) (hk : k' ≤ k) : NoZombie m p k' :=
  fun j hj => h j (hj.trans_le hk)

theorem NoZombie.succ {k : Nat} (h : NoZombie m p k) (hk : k < n)
    (hnew : (m.proc ⟨k, hk⟩).parent = some p → (m.proc ⟨k, hk⟩).state ≠ .ZOMBIE) :
    NoZombie m p (k + 1) := by
  intro j hj
  by_cases hjk : j.val = k
  · subst hjk
    exact hnew
  · exact h j (by omega)

end

theorem FamilyAt.kept (hi : SleepInv m) (hd : Does m c f rest op m') (hg : Kept m c f rest op p g)
    (h : FamilyAt m g) : FamilyAt m' g := by
  have hwf : .wait ∈ g.locks → .wait ∉ f.locks := fun hw hf => hd.kept_exclusive hi hg hw hf hw
  cases g with
  | exitLockWait q st => exact h
  | reparent q st i | exitWakeup q st | exitLock q st | exitSet q st =>
    exact ⟨h.1, hd.noChild_step (hwf (by simp [Frame.locks])) h.2⟩
  | waitScan q addr i kids =>
    have hw := hwf (by simp [Frame.locks])
    exact ⟨hd.noZombie_step hw h.1, fun hk => hd.noChild_step hw (h.2 hk)⟩
  | waitTest q addr i =>
    have hw := hwf (by simp [Frame.locks])
    refine ⟨hd.noZombie_step hw h.1, ?_⟩
    by_contra hne
    rcases hd.proc with heq | ⟨e, fs, ev, -, hst, heq⟩
    · exact hne (heq ▸ h.2)
    · rw [heq] at hne
      rcases hst.parent (fun heq => hne (heq.trans h.2)) with
        ⟨p, rfl, -⟩ | ⟨p, st, rfl, -⟩ | ⟨-, ⟨p, addr, rfl⟩ | ⟨-, hlock⟩⟩
      · exact hw List.mem_cons_self
      · exact hw List.mem_cons_self
      · exact hw (by simp [Frame.locks])
      · exact hd.kept_exclusive hi hg List.mem_cons_self hlock (by simp [Frame.locks])
  | waitNext q addr i | waitKilled q addr | waitKilledUnlock q addr k | waitSleep q addr =>
    exact hd.noZombie_step (hwf (by simp [Frame.locks])) h
  | waitFail q i =>
    have hw := hwf (by simp [Frame.locks])
    refine ⟨(hd.zombie_parent hw h.2).trans h.1, ((hd.zombie_kept h.2).resolve_right ?_).1⟩
    rintro ⟨-, p, addr, rfl⟩
    exact hw (by simp [Frame.locks])
  | sleepLock q ch lk k | sleepUnlockLk q ch lk k =>
    cases lk with
    | wait => exact hd.noZombie_step (hwf (by simp [Frame.locks])) h
    | _ => trivial
  | _ => trivial

omit [DecidableEq C] in
theorem familyAt_congr (h : m'.proc = m.proc) : FamilyAt m' g ↔ FamilyAt m g := by
  cases g <;> simp only [FamilyAt, NoChild, NoZombie, h]

theorem FamilyAt.enters (hd : Does m c f rest op m') (hf : FamilyAt m f) (hg : Enters m c f op g) :
    FamilyAt m' g := by
  cases g with
  | exitLockWait q st => exact hg
  | reparent q st i =>
    rcases hg with ⟨rfl, rfl, -⟩ | ⟨j, hj, rfl, rfl, ⟨hne, hop⟩ | ⟨hparent, hop⟩⟩
    · exact ⟨hf, fun j hj => absurd hj (Nat.not_lt_zero _)⟩
    · rw [familyAt_congr (hd.proc_eq hop rfl)]
      exact ⟨hf.1, hf.2.succ hj hne⟩
    · refine ⟨hf.1, fun k hk => ?_⟩
      rw [hd.proc_set hop, Function.update_apply]
      split_ifs with hkj
      · exact fun h => hf.1 (Option.some.inj h).symm
      · refine hf.2 k (lt_of_le_of_ne (Nat.lt_succ_iff.mp hk) fun h => hkj ?_)
        exact Fin.ext h
  | exitWakeup q st =>
    obtain ⟨i, hi, rfl, hop⟩ := hg
    rw [familyAt_congr (hd.proc_eq hop rfl)]
    exact ⟨hf.1, hf.2.mono hi⟩
  | exitLock q st | exitSet q st | waitSleep q addr =>
    obtain ⟨rfl, hop⟩ := hg
    rw [familyAt_congr (hd.proc_eq hop rfl)]
    exact hf
  | waitScan q addr i kids =>
    rcases hg with ⟨rfl, rfl, rfl⟩ | ⟨j, hj, rfl, rfl, hne, hop⟩ | ⟨j, rfl, rfl, rfl, hop⟩
    · exact ⟨fun j hj => absurd hj (Nat.not_lt_zero _), fun _ j hj => absurd hj (Nat.not_lt_zero _)⟩
    · rw [familyAt_congr (hd.proc_eq hop rfl)]
      exact ⟨hf.1.succ hj fun h => absurd h hne, fun hk => (hf.2 hk).succ hj hne⟩
    · rw [familyAt_congr (hd.proc_eq hop rfl)]
      exact ⟨hf, fun hk => by cases hk⟩
  | waitTest q addr i =>
    obtain ⟨kids, rfl, hparent, hop⟩ := hg
    rw [familyAt_congr (hd.proc_eq hop rfl)]
    exact ⟨hf.1, hparent⟩
  | waitNext q addr i =>
    obtain ⟨rfl, hz, hop⟩ := hg
    rw [familyAt_congr (hd.proc_eq hop rfl)]
    exact hf.1.succ i.isLt fun _ => hz
  | waitFail q i =>
    obtain ⟨rfl, hz, hop⟩ := hg
    rw [familyAt_congr (hd.proc_eq hop rfl)]
    exact ⟨hf.2, hz⟩
  | waitKilled q addr =>
    obtain ⟨i, hi, rfl, hop⟩ := hg
    rw [familyAt_congr (hd.proc_eq hop rfl)]
    exact hf.1.mono hi
  | waitKilledUnlock q addr k =>
    obtain ⟨rfl, -, hop⟩ := hg
    rw [familyAt_congr (hd.proc_eq hop rfl)]
    exact hf
  | sleepLock q ch lk k =>
    obtain ⟨-, -, -, ⟨l, rfl⟩ | ⟨rfl, -, addr, rfl⟩, g', hop⟩ := hg
    · trivial
    · rw [familyAt_congr (hd.proc_eq hop rfl)]
      exact hf
  | sleepUnlockLk q ch lk k =>
    obtain ⟨rfl, hop⟩ := hg
    rw [familyAt_congr (hd.proc_eq hop rfl)]
    cases lk <;> exact hf
  | _ => trivial

omit [DecidableEq C] in
theorem familyAt_give {lk : Lock n} (h : g.accepts lk) : FamilyAt m (g.give lk) := by
  cases g with
  | code k held =>
    obtain ⟨l, rfl⟩ := h
    trivial
  | waitAgain p addr =>
    exact ⟨fun j hj => absurd hj (Nat.not_lt_zero _), fun _ j hj => absurd hj (Nat.not_lt_zero _)⟩
  | _ => exact h.elim

omit [DecidableEq C] in
theorem boot_parent : ((boot : Machine C n).proc r).parent = none := by
  by_cases hr : r = initproc <;> simp [boot, hr, Proc.zero]

namespace FamilyInv

variable (h : FamilyInv m) (hd : Does m c f rest op m')
include h hd

theorem frames_step (hi : SleepInv m) (hg : g ∈ m'.kstack p) : FamilyAt m' g := by
  rcases hd.frame hg with hkept | ⟨hrun, -, henters⟩ | ⟨_, _, _, _, e, -, -, -, -, he, rfl⟩ |
    ⟨q, -, rfl⟩
  · exact FamilyAt.kept hi hd hkept (h.frames p g (hd.mem_of_kept hkept))
  · exact FamilyAt.enters hd (h.frames p f (hd.kstack_eq hrun ▸ List.mem_cons_self)) henters
  · exact familyAt_give he
  · trivial

theorem alive_kept (hq : Alive (m.proc q).state) :
    Alive (m'.proc q).state ∨
      ∃ st, f = .exitSet q st ∧ q ≠ initproc ∧ NoChild m q n := by
  rw [alive_iff_not_resting] at hq ⊢
  by_contra hdead
  rw [not_or, not_not] at hdead
  rcases hd.proc with heq | ⟨e, fs, ev, -, hst, heq⟩
  · exact hq (heq ▸ hdead.1)
  · rw [heq] at hdead
    rcases hst.resting hdead.1 with hr | hf | ⟨st, rfl⟩
    · exact hq hr
    · exact hq (Or.inr (Or.inl (hd.used_of_builds hf)))
    · have hrun := hd.inv.thread.running_of_self hd.live rfl
      have hat : FamilyAt m (.exitSet q st) := h.frames q _ (hd.kstack_eq hrun ▸ List.mem_cons_self)
      exact hdead.2 ⟨st, rfl, hat⟩

theorem init_step : Alive (m'.proc initproc).state :=
  (h.alive_kept hd h.init).resolve_right fun ⟨_, _, hne, _⟩ => hne rfl

theorem alive_step (hr : (m'.proc r).parent = some q) : Alive (m'.proc q).state := by
  rcases hd.parent_cases hr with hold | ⟨rfl, -⟩ | ⟨p, st, -, -, rfl, -⟩
  · refine (h.alive_kept hd (h.alive r q hold)).resolve_right ?_
    rintro ⟨st, -, -, hno⟩
    exact hno r r.isLt hold
  · have hrun := hd.inv.thread.running_of_self hd.live rfl
    refine (h.alive_kept hd (Or.inr (Or.inr (hd.state_running hrun rfl)))).resolve_right ?_
    rintro ⟨st, hf, -⟩
    cases hf
  · exact h.init_step hd

theorem does (hi : SleepInv m) : FamilyInv m' :=
  ⟨fun _ _ hr => h.alive_step hd hr, h.init_step hd, fun _ _ hg => h.frames_step hd hi hg⟩

omit [DecidableEq C] h hd in
theorem boot : FamilyInv (Machine.boot : Machine C n) := by
  refine ⟨fun r q hr => ?_, ?_, fun p f hf => ?_⟩
  · rw [boot_parent] at hr
    cases hr
  · simp [Machine.boot, Alive]
  · rw [SwitchInv.boot_kstack hf]
    trivial

end FamilyInv

end Xv6.Machine
