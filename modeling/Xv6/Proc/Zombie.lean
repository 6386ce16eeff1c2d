import Xv6.Proc.Family

/-!
# Zombies and sleeping parents

A child wakes its parent before it becomes a `ZOMBIE`, and `reparent` wakes `initproc` after it has
given it a child, which may be a `ZOMBIE` already. In both cases `wait_lock` is held until the parent
is awake, so while `wait_lock` is free no parent of a `ZOMBIE` sleeps in `wait`.
-/

namespace Xv6

theorem Frame.wakes_of_accepts {n : Nat} {g : Frame n} {lk : Lock n} (h : g.accepts lk) :
    g.wakes = none := by
  cases g with
  | code | waitAgain => rfl
  | _ => exact h.elim

theorem Frame.give_ne_exit {n : Nat} {g : Frame n} {lk : Lock n} {p : Fin n} {st : Int32}
    (h : g.accepts lk) : g.give lk ≠ .exitLock p st ∧ g.give lk ≠ .exitSet p st := by
  cases g with
  | code k held =>
    obtain ⟨l, rfl⟩ := h
    simp [give]
  | waitAgain => simp [give]
  | _ => exact h.elim

namespace Machine

variable {C : Type} [DecidableEq C] {n : Nat} [NeZero n] {m m' : Machine C n} {c d : C}
  {f g h : Frame n} {fs rest gs : List (Frame n)} {p q r i j : Fin n} {op : Op n} {ch : Chan n}

/-- The channel of the `wakeup` that a frame of `exit` or `reparent` calls. -/
def wakesFor (m : Machine C n) : Frame n → Option (Chan n)
  | .exitLock p _ => some (m.parentChan p)
  | .reparent _ _ _ => some (.proc initproc)
  | _ => none

/-- `reparent` has given a child to `initproc` and has not finished its `wakeup(initproc)`. -/
def Rewaking (m : Machine C n) : Prop :=
  ∃ p g st i gs pos, (g :: .reparent p st i :: gs) <:+ m.kstack p ∧
    g.wakes = some (.proc initproc, pos)

structure ZombieInv (m : Machine C n) : Prop where
  above : ∀ p g h gs ch, (g :: h :: gs) <:+ m.kstack p → m.wakesFor h = some ch →
    ∃ pos, g.wakes = some (ch, pos)
  woken : ∀ p st q, (∃ gs, m.kstack p = .exitLock p st :: gs) ∨ .exitSet p st ∈ m.kstack p →
    (m.proc p).parent = some q → Awake m q (.proc q) .wait
  zombie : ∀ q r, (m.proc r).parent = some q → (m.proc r).state = .ZOMBIE →
    Awake m q (.proc q) .wait ∨ q = initproc ∧ Rewaking m

omit [DecidableEq C] in
theorem wait_of_wakesFor (hh : m.wakesFor h = some ch) : .wait ∈ h.locks := by
  cases h <;> first | exact List.mem_cons_self | cases hh

namespace Does

variable (hd : Does m c f rest op m')

include hd

theorem parent_kept (hi : SleepInv m) (hg : Kept m c f rest op p g)
    (hw : .wait ∈ g.locks) : (m'.proc p).parent = (m.proc p).parent := by
  have hmem := hd.mem_of_kept hg
  have hwf : .wait ∉ f.locks := fun hf => hd.kept_exclusive hi hg hw hf hw
  by_contra hne
  rcases hd.proc with heq | ⟨e, fs, ev, -, hst, heq⟩
  · exact hne (by rw [heq])
  · rw [heq] at hne
    rcases hst.parent hne with ⟨q, rfl, -⟩ | ⟨q, st, rfl, -⟩ | ⟨-, ⟨q, addr, rfl⟩ | ⟨hf, -⟩⟩
    · exact hwf List.mem_cons_self
    · exact hwf List.mem_cons_self
    · exact hwf (by simp [Frame.locks])
    · obtain ⟨d, hrun, -⟩ := hi.holder hd.inv (List.mem_flatMap.mpr ⟨g, hmem, hw⟩) (by simp)
      exact hd.inv.state.no_cproc_of_not_hasThread (by simp [HasThread, hd.used_of_builds hf]) d
        (hd.inv.thread.running_cproc d p hrun)

theorem wakesFor_kept (hi : SleepInv m) (hg : Kept m c f rest op p g)
    (hg' : m'.wakesFor g = some ch) : m.wakesFor g = some ch := by
  cases g with
  | exitLock q st =>
    obtain rfl := hd.inv.thread.self p _ (hd.mem_of_kept hg) q rfl
    simp only [wakesFor, parentChan] at hg' ⊢
    rwa [hd.parent_kept hi hg (by simp [Frame.locks])] at hg'
  | reparent => exact hg'
  | _ => cases hg'

theorem locks_of_noff (hnoff : m.noff c = 0) : f.locks = [] := by
  have hlen := hd.inv.lock.noff_eq c
  rw [hnoff, held_of_live hd.live] at hlen
  exact (List.append_eq_nil_iff.mp (List.length_eq_zero_iff.mp hlen.symm)).1

theorem wakesFor_enters {x a : List (Frame n)}
    (hframes : op.frames = x ++ g :: h :: a) (hh : m'.wakesFor h = some ch) :
    ∃ pos, g.wakes = some (ch, pos) := by
  have hpair : ∀ k, op.frames = [k, h] → g = k := fun k hk => by
    rw [hframes] at hk
    cases x with
    | nil => exact (List.cons.inj hk).1
    | cons y x =>
      have := congrArg List.length hk
      simp at this
      omega
  have hsingle : ∀ k, op.frames ≠ [k] := fun k hk => by
    rw [hframes] at hk
    have := congrArg List.length hk
    simp at this
    omega
  rcases hd.enters (g := h) (by rw [hframes]; simp) with ⟨rfl, -, hnoff⟩ | henters
  · have := wait_of_wakesFor hh
    rw [hd.locks_of_noff hnoff] at this
    cases this
  · cases h with
    | exitLock q st =>
      obtain ⟨rfl, hop⟩ := henters
      rw [hpair _ (by rw [hop]; rfl)]
      simp only [wakesFor, parentChan, hd.proc_eq hop rfl] at hh
      exact ⟨0, by cases hh; rfl⟩
    | reparent q st i =>
      cases hh
      rcases henters with ⟨rfl, -, hop⟩ | ⟨j, hj, rfl, rfl, ⟨-, hop⟩ | ⟨-, hop⟩⟩
      · exact absurd (by rw [hop]; rfl) (hsingle _)
      · exact absurd (by rw [hop]; rfl) (hsingle _)
      · rw [hpair _ (by rw [hop]; rfl)]
        exact ⟨0, rfl⟩
    | _ => cases hh

end Does

namespace ZombieInv

theorem above_step (hz : ZombieInv m) (hi : SleepInv m) (hd : Does m c f rest op m')
    (hsuffix : (g :: h :: gs) <:+ m'.kstack p) (hh : m'.wakesFor h = some ch) :
    ∃ pos, g.wakes = some (ch, pos) := by
  -- the two frames were there before
  have hold : ∀ {e}, (e :: h :: gs) <:+ m.kstack p → Kept m c f rest op p h →
      ∃ pos, e.wakes = some (ch, pos) := fun hsuf hkept =>
    hz.above p _ h gs ch hsuf (hd.wakesFor_kept hi hkept hh)
  by_cases hrun : m.running c = some p
  · have hstack := hd.kstack_eq hrun
    rcases hd.kstack_self hrun with hk | ⟨_, lk, _, e, es, rfl, -, rfl, he, hk⟩
    · rw [hk] at hsuffix
      rcases cons_suffix_append hsuffix with hsuf | ⟨x, a, hframes, ha⟩
      · refine hold (hstack ▸ hsuf.trans (List.suffix_cons _ _)) (Or.inr ⟨hrun, Or.inl ?_⟩)
        exact hsuf.subset (List.mem_cons_of_mem _ List.mem_cons_self)
      · cases a with
        | nil =>
          have hrest : rest = h :: gs := ha.symm
          subst hrest
          obtain ⟨pos, hpos⟩ := hold (e := f) (hstack.symm ▸ List.suffix_refl _)
            (Or.inr ⟨hrun, Or.inl List.mem_cons_self⟩)
          rcases hd.wakes_op hpos with ⟨hnil, -⟩ | ⟨e, pos', he, hpos'⟩ | hop
          · rw [hframes] at hnil
            exact absurd hnil (by simp)
          · rw [hframes] at he
            obtain ⟨-, hge⟩ := List.append_eq_singleton_iff.mp he |>.resolve_right (by simp)
            obtain rfl : g = e := by simpa using hge
            exact ⟨pos', hpos'⟩
          · rw [hop] at hframes
            obtain rfl : f = g := by
              have := congrArg List.getLast? hframes
              simpa [Op.frames] using this
            exact ⟨pos, hpos⟩
        | cons e a =>
          obtain ⟨rfl, -⟩ := List.cons.inj ha
          exact hd.wakesFor_enters hframes hh
    · rw [hk] at hsuffix
      rcases List.suffix_cons_iff.mp hsuffix with heq | hsuf
      · obtain ⟨-, rfl⟩ := List.cons.inj heq
        obtain ⟨pos, hpos⟩ := hold (hstack ▸ List.suffix_cons _ _)
          (Or.inr ⟨hrun, Or.inl (by simp)⟩)
        rw [Frame.wakes_of_accepts he] at hpos
        cases hpos
      · refine hold (hstack ▸ hsuf.trans ((List.suffix_cons _ _).trans (List.suffix_cons _ _)))
          (Or.inr ⟨hrun, Or.inl ?_⟩)
        exact List.mem_cons_of_mem _ (hsuf.subset (List.mem_cons_of_mem _ List.mem_cons_self))
  · rcases hd.kstack_of_ne hrun with hk | ⟨-, hk⟩
    · rw [hk] at hsuffix
      exact hold hsuffix (Or.inl ⟨hrun, hsuffix.subset (List.mem_cons_of_mem _ List.mem_cons_self)⟩)
    · rw [hk] at hsuffix
      have := hsuffix.length_le
      simp at this

theorem awake_step (hi : SleepInv m) (hd : Does m c f rest op m') (hg : g ∈ m.kstack p)
    (hw : .wait ∈ g.locks) (hne : q ≠ p) (h : Awake m q ch .wait) : Awake m' q ch .wait := by
  obtain ⟨d, hrun, hlock⟩ := hi.holder hd.inv (List.mem_flatMap.mpr ⟨g, hg, hw⟩) (by simp)
  exact h.step hd hne hrun hlock

theorem awake_returned (hi : SleepInv m) (hk : WakingInv m) {k : Nat}
    (hd : Does m c (.wakeup ch k) rest op m') (hn : n ≤ k) (hrun : m.running c = some p)
    (hg : g ∈ rest) (hw : .wait ∈ g.locks) (hne : q ≠ p) : Awake m' q ch .wait := by
  have hmem : g ∈ m.kstack p := hd.kstack_eq hrun ▸ List.mem_cons_of_mem _ hg
  have hlock : m.lock .wait = some c := by
    rw [hd.inv.lock.lock_iff, held_of_live hd.live]
    exact List.mem_append_right _ (List.mem_flatMap.mpr ⟨g, hg, hw⟩)
  exact awake_step hi hd hmem hw hne (awake_of_return hk hd hn hrun hlock (by simp) hne)

theorem woken_step (hz : ZombieInv m) (hwake : WakeInv m) (hfam : FamilyInv m)
    (hd : Does m c f rest op m') {st : Int32}
    (hp : (∃ gs, m'.kstack p = .exitLock p st :: gs) ∨ .exitSet p st ∈ m'.kstack p)
    (hq : (m'.proc p).parent = some q) : Awake m' q (.proc q) .wait := by
  have hi := hwake.sleep
  -- a process is not its own parent when it exits
  have hne : ∀ {g}, g = .exitLock p st ∨ g = .exitSet p st → g ∈ m.kstack p →
      (m.proc p).parent = some q → q ≠ p := by
    rintro g (rfl | rfl) hg hparent rfl <;> exact (hfam.frames q _ hg).2 q q.isLt hparent
  -- the frame was there before
  have hold : ∀ {g}, g = .exitLock p st ∨ g = .exitSet p st → Kept m c f rest op p g →
      ((∃ gs, m.kstack p = .exitLock p st :: gs) ∨ .exitSet p st ∈ m.kstack p) →
      Awake m' q (.proc q) .wait := by
    intro g hg hkept hbefore
    have hw : .wait ∈ g.locks := by rcases hg with rfl | rfl <;> simp [Frame.locks]
    have hparent := (hd.parent_kept hi hkept hw).symm.trans hq
    have hmem := hd.mem_of_kept hkept
    exact awake_step hi hd hmem hw (hne hg hmem hparent) (hz.woken p st q hbefore hparent)
  rcases hp with ⟨gs, hstack⟩ | hmem
  · by_cases hrun : m.running c = some p
    · rcases hd.kstack_self hrun with hk | ⟨_, lk, _, e, es, -, -, -, he, hk⟩
      · rw [hk] at hstack
        cases hframes : op.frames with
        | nil =>
          rw [hframes] at hstack
          subst hstack
          have hkept : Kept m c f (.exitLock p st :: gs) op p (.exitLock p st) :=
            Or.inr ⟨hrun, Or.inl List.mem_cons_self⟩
          have hmem := hd.mem_of_kept hkept
          have hparent := (hd.parent_kept hi hkept (by simp [Frame.locks])).symm.trans hq
          obtain ⟨pos, hpos⟩ := hz.above p f (.exitLock p st) gs (.proc q)
            ((hd.kstack_eq hrun).symm ▸ List.suffix_refl _) (by simp [wakesFor, parentChan, hparent])
          rcases hd.wakes_op hpos with ⟨-, k, hn, rfl⟩ | ⟨e, pos', he, -⟩ | hop
          · exact awake_returned hi hwake.waking hd hn hrun List.mem_cons_self (by simp [Frame.locks])
              (hne (Or.inl rfl) hmem hparent)
          · rw [hframes] at he
            cases he
          · rw [hop] at hframes
            cases hframes
        | cons g fs =>
          rw [hframes] at hstack
          obtain ⟨rfl, -⟩ := List.cons.inj hstack
          rcases hd.enters (by rw [hframes]; exact List.mem_cons_self) with
            ⟨-, hop, -⟩ | ⟨-, hop⟩
          · rw [hop] at hframes
            cases hframes
          · rw [hop] at hframes
            cases hframes
      · rw [hk] at hstack
        obtain ⟨heq, -⟩ := List.cons.inj hstack
        exact absurd heq (Frame.give_ne_exit he).1
    · rcases hd.kstack_of_ne hrun with hk | ⟨-, hk⟩
      · rw [hk] at hstack
        exact hold (Or.inl rfl) (Or.inl ⟨hrun, hstack ▸ List.mem_cons_self⟩) (Or.inl ⟨gs, hstack⟩)
      · rw [hk] at hstack
        cases hstack
  · rcases hd.frame hmem with hkept | ⟨hrun, -, rfl, hop⟩ | ⟨_, _, _, _, e, -, -, -, -, he, heq⟩ |
      ⟨_, -, heq⟩
    · exact hold (Or.inr rfl) hkept (Or.inr (hd.mem_of_kept hkept))
    · rw [hd.proc_eq hop rfl] at hq
      have hstack := hd.kstack_eq hrun
      have htop : Frame.exitLock p st ∈ m.kstack p := hstack ▸ List.mem_cons_self
      exact awake_step hi hd htop (by simp [Frame.locks]) (hne (Or.inl rfl) htop hq)
        (hz.woken p st q (Or.inl ⟨_, hstack⟩) hq)
    · exact absurd heq.symm (Frame.give_ne_exit he).2
    · cases heq

theorem rewaking_step (hwake : WakeInv m) (hfam : FamilyInv m) (hd : Does m c f rest op m')
    (h : Rewaking m) : Rewaking m' ∨ Awake m' initproc (.proc initproc) .wait := by
  obtain ⟨p, g, st, i, gs, pos, hsuffix, hg⟩ := h
  have hi := hwake.sleep
  have hmem : Frame.reparent p st i ∈ m.kstack p :=
    hsuffix.subset (List.mem_cons_of_mem _ List.mem_cons_self)
  have hlocks : .wait ∈ (Frame.reparent p st i).locks := List.mem_cons_self
  by_cases hrun : m.running c = some p
  · have hstack := hd.kstack_eq hrun
    rw [hstack] at hsuffix
    rcases List.suffix_cons_iff.mp hsuffix with heq | hsuf
    · obtain ⟨rfl, rfl⟩ := List.cons.inj heq
      have hk : m'.kstack p = op.frames ++ .reparent p st i :: gs := by
        rcases hd.kstack_self hrun with hk | ⟨_, _, _, _, _, rfl, -⟩
        · exact hk
        · cases hg
      rcases hd.wakes_op hg with ⟨-, k, hn, rfl⟩ | ⟨e, pos', he, hpos'⟩ | hop
      · refine Or.inr (awake_returned hi hwake.waking hd hn hrun List.mem_cons_self hlocks ?_)
        exact (hfam.frames p _ hmem).1.symm
      · rw [he] at hk
        exact Or.inl ⟨p, e, st, i, gs, pos', hk ▸ List.suffix_refl _, hpos'⟩
      · rw [hop] at hk
        exact Or.inl ⟨p, g, st, i, gs, pos, hk ▸ List.suffix_cons _ _, hg⟩
    · refine Or.inl ⟨p, g, st, i, gs, pos, ?_, hg⟩
      rcases hd.kstack_self hrun with hk | ⟨_, _, _, e, es, -, -, rfl, he, hk⟩
      · rw [hk]
        exact hsuf.trans (List.suffix_append _ _)
      · rw [hk]
        rcases List.suffix_cons_iff.mp hsuf with heq | hsuf
        · obtain ⟨rfl, -⟩ := List.cons.inj heq
          rw [Frame.wakes_of_accepts he] at hg
          cases hg
        · exact hsuf.trans (List.suffix_cons _ _)
  · refine Or.inl ⟨p, g, st, i, gs, pos, ?_, hg⟩
    rcases hd.kstack_of_ne hrun with hk | ⟨⟨q, rfl⟩, -⟩
    · rwa [hk]
    · -- the slot that `fork` builds runs on no CPU
      obtain ⟨d, hp, -⟩ := hi.holder hd.inv (List.mem_flatMap.mpr ⟨_, hmem, hlocks⟩) (by simp)
      exact absurd (hd.inv.thread.running_cproc d p hp) (hd.inv.state.no_cproc_of_not_hasThread
        (by simp [HasThread, hd.used_of_builds rfl]) d)

theorem zombie_step (hz : ZombieInv m) (hwake : WakeInv m) (hfam : FamilyInv m)
    (hd : Does m c f rest op m') (hr : (m'.proc r).parent = some q)
    (hstate : (m'.proc r).state = .ZOMBIE) :
    Awake m' q (.proc q) .wait ∨ q = initproc ∧ Rewaking m' := by
  rcases hd.parent_cases hr with hparent | ⟨rfl, hop⟩ | ⟨p, st, rfl, -, rfl, hframes⟩
  · rcases hd.zombie_cases hstate with hs | ⟨st, rfl⟩
    · rcases hz.zombie q r hparent hs with hawake | ⟨rfl, hre⟩
      · refine Or.inl fun g hg k hcall => ?_
        rcases WokenFrame.step hd (fun e he hcall => hawake e he k hcall) hg hcall with
          hw | ⟨hrun, p, -, -, -, ⟨l, hl⟩ | ⟨-, hch, addr, rfl⟩, -⟩
        · exact hw
        · cases hl
        · -- a parent that goes to sleep in `wait` has no `ZOMBIE` child
          cases hch
          have hat := hfam.frames q _ (hd.kstack_eq hrun ▸ List.mem_cons_self)
          exact absurd hs (hat r r.isLt hparent)
      · exact (rewaking_step hwake hfam hd hre).symm.imp id fun h => ⟨rfl, h⟩
    · have hrun := hd.inv.thread.running_of_self hd.live rfl
      have htop : Frame.exitSet r st ∈ m.kstack r := hd.kstack_eq hrun ▸ List.mem_cons_self
      refine Or.inl (awake_step hwake.sleep hd htop (by simp [Frame.locks]) ?_
        (hz.woken r st q (Or.inr htop) hparent))
      rintro rfl
      exact (hfam.frames q _ htop).2 q q.isLt hparent
  · rw [hd.proc_set hop, Function.update_self] at hstate
    exact absurd ((hd.used_of_builds rfl).symm.trans hstate) (by simp)
  · have hrun := hd.inv.thread.running_of_self hd.live rfl
    rcases hd.kstack_self hrun with hk | ⟨_, _, _, _, _, hf, -⟩
    · rw [hframes] at hk
      exact Or.inr ⟨rfl, p, .wakeup (.proc initproc) 0, st, r + 1, rest, 0, hk ▸ List.suffix_refl _, rfl⟩
    · cases hf

theorem does (hz : ZombieInv m) (hwake : WakeInv m) (hfam : FamilyInv m)
    (hd : Does m c f rest op m') : ZombieInv m' :=
  ⟨fun _ _ _ _ _ hsuffix hh => hz.above_step hwake.sleep hd hsuffix hh,
    fun _ _ _ hp hq => hz.woken_step hwake hfam hd hp hq,
    fun _ _ hr hstate => hz.zombie_step hwake hfam hd hr hstate⟩

omit [DecidableEq C] in
theorem boot : ZombieInv (Machine.boot : Machine C n) := by
  refine ⟨fun p g h gs ch hsuffix hh => ?_, fun p st q hp hq => ?_, fun q r hr => ?_⟩
  · rw [SwitchInv.boot_kstack (hsuffix.subset (List.mem_cons_of_mem _ List.mem_cons_self))] at hh
    cases hh
  · rw [boot_parent] at hq
    cases hq
  · rw [boot_parent] at hr
    cases hr

end ZombieInv

/-- A process that sleeps in `wait`. -/
def SleepsInWait (m : Machine C n) (q : Fin n) : Prop :=
  (m.proc q).state = .SLEEPING ∧ ∃ addr, .waitAgain q addr ∈ m.kstack q

omit [DecidableEq C] in
/-- While `wait_lock` is free, no process sleeps in `wait` and has a `ZOMBIE` child. -/
theorem ZombieInv.not_sleepsInWait (hz : ZombieInv m) (hwake : WakeInv m) (hlock : m.lock .wait = none)
    (hr : (m.proc r).parent = some q) (hstate : (m.proc r).state = .ZOMBIE) :
    ¬ SleepsInWait m q := by
  rintro ⟨hq, addr, hagain⟩
  rcases hz.zombie q r hr hstate with hawake | ⟨rfl, p, g, st, i, gs, pos, hsuffix, -⟩
  · obtain ⟨f, rest, hstack, hf⟩ := hwake.sleep.asleep q hq
    have hmem : f ∈ m.kstack q := hstack ▸ List.mem_cons_self
    have hover := hwake.switch.thread.callers q
    rw [hstack] at hover hagain
    have hrest : Frame.waitAgain q addr ∈ rest := by
      refine (List.mem_cons.mp hagain).resolve_left ?_
      rintro rfl
      cases hf
    rcases hover.1.again with hcovers | hnone | ⟨hsleeps, -⟩
    · rw [Frame.covers_of_asleep hf] at hcovers
      cases hcovers
    · cases hnone _ hrest
    · -- the call of `sleep` is the one of `wait`
      obtain ⟨ch, k, hcall⟩ : ∃ ch k, f.sleepCall = some (ch, .wait, k) := by
        cases f with
        | sleepSched p ch lk k | sleepTidy p ch lk k =>
          cases hsleeps
          exact ⟨ch, k, rfl⟩
        | _ => cases hf
      obtain rfl := (hwake.sleep.trace.lock (hwake.sleep.calls q f hmem ch .wait k hcall)).2 rfl
      exact (hawake f hmem k hcall).2 hf hq
  · obtain ⟨d, -, hd⟩ := hwake.sleep.holder hwake.switch
      (List.mem_flatMap.mpr ⟨.reparent p st i,
        hsuffix.subset (List.mem_cons_of_mem _ List.mem_cons_self), List.mem_cons_self⟩) (by simp)
    rw [hlock] at hd
    cases hd

end Machine

end Xv6
