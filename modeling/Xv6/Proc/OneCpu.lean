import Xv6.Proc.Switch

/-!
# A process runs on at most one CPU

Every operation keeps the invariants of locks, stacks and states.
-/

namespace Xv6.Machine

open Function

variable {C : Type} [DecidableEq C] {n : Nat} {m m' : Machine C n} {c d : C}
  {f g : Frame n} {fs rest old new : List (Frame n)} {p i : Fin n} {ev : List (ProcEvent n)}

structure SwitchInv (m : Machine C n) : Prop where
  lock : LockInv m
  thread : ThreadInv m
  state : StateInv m
  build : BuildInv m

theorem Moved.held_self (hm : Moved m m' c old new) : m'.held c = stackLocks new := by
  unfold held
  rw [hm.live_self]

theorem Moved.held_of_ne (hm : Moved m m' c old new) (ht : ThreadInv m) (hd : d ≠ c) :
    m'.held d = m.held d := by
  unfold held
  rw [hm.live_of_ne ht.exclusive hd]

omit [DecidableEq C] in
theorem held_of_live (hlive : m.live c = old) : m.held c = stackLocks old := by
  unfold held
  rw [hlive]

theorem LockInv.move (h : LockInv m) (ht : ThreadInv m) (hm : Moved m m' c old new)
    (hlock : m'.lock = m.lock) (hnoff : m'.noff = m.noff)
    (hlocks : (stackLocks new).Perm (stackLocks old)) : LockInv m' := by
  refine h.same hlock hnoff fun d => ?_
  by_cases hd : d = c
  · subst hd
    rw [hm.held_self, held_of_live hm.live]
    exact hlocks
  · rw [hm.held_of_ne ht hd]

theorem LockInv.move_acquire (h : LockInv m) (ht : ThreadInv m) (hm : Moved m m' c old new)
    {l : Lock n} (hfree : m.lock l = none) (hlock : m'.lock = update m.lock l (some c))
    (hnoff : m'.noff = update m.noff c (m.noff c + 1))
    (hlocks : (stackLocks new).Perm (l :: stackLocks old)) : LockInv m' := by
  refine h.acquire hfree hlock hnoff ?_ fun d hd => hm.held_of_ne ht hd
  rw [hm.held_self, held_of_live hm.live]
  exact hlocks

theorem LockInv.move_release (h : LockInv m) (ht : ThreadInv m) (hm : Moved m m' c old new)
    {l : Lock n} (hlock : m'.lock = update m.lock l none)
    (hnoff : m'.noff = update m.noff c (m.noff c - 1))
    (hlocks : (stackLocks old).Perm (l :: stackLocks new)) : LockInv m' := by
  refine h.release hlock hnoff ?_ fun d hd => hm.held_of_ne ht hd
  rw [hm.held_self, held_of_live hm.live]
  exact hlocks

theorem stackBuilds_move (hb : SameBuilds f fs) :
    stackBuilds (fs ++ rest) = stackBuilds (f :: rest) := by
  rw [stackBuilds_append, stackBuilds_cons, hb.builds]

omit [DecidableEq C] in
theorem built_move (hb : SameBuilds f fs) (g : Frame n) (hg : g ∈ fs ++ rest) (i : Fin n)
    (hi : g.built = some i) : (∃ k ∈ f :: rest, k.built = some i) ∨
      m.context i = m.kstack i ∧ Parked i (m.kstack i) := by
  rcases List.mem_append.mp hg with hg | hg
  · exact Or.inl ⟨f, List.mem_cons_self, hb.built g hg i hi⟩
  · exact Or.inl ⟨g, List.mem_cons_of_mem _ hg, hi⟩

namespace SwitchInv

theorem proc_state {m₁ : Machine C n} {r : Proc n} (h : m₁.proc = update m.proc i r) (j : Fin n) :
    (((m₁.setLive c new).log ev).proc j).state = if j = i then r.state else (m.proc j).state := by
  show ((m₁.setLive c new).proc j).state = _
  rw [setLive_proc, h, update_apply, apply_ite Proc.state]

theorem set_state {r : Proc n} (j : Fin n) :
    ((((m.setProc i r).setLive c new).log ev).proc j).state =
      if j = i then r.state else (m.proc j).state := proc_state rfl j

theorem parked_forkret (i : Fin n) : Parked i [.forkret i] := ⟨⟨_, _, rfl, rfl, rfl⟩, rfl⟩

theorem builds_of_leaves (h : f.leaves = true) : f.builds = none := by
  cases f <;> simp_all [Frame.leaves, Frame.builds]

theorem builds_of_resumes (h : f.resumes = true) : f.builds = none := by
  cases f <;> simp_all [Frame.resumes, Frame.builds]

theorem isSched_of_resumes (h : f.resumes = true) : f.isSched = false := by
  cases f <;> simp_all [Frame.resumes, Frame.isSched]

theorem give_accepts {lk : Lock n} (h : g.accepts lk) :
    (g.give lk).locks = lk :: g.locks ∧ (g.give lk).self = g.self ∧ (g.give lk).builds = g.builds ∧
      (g.give lk).built = g.built ∧ (g.give lk).isSched = g.isSched ∧ (g.give lk).sleeps = none := by
  cases g with
  | code k held =>
    obtain ⟨l, rfl⟩ := h
    exact ⟨rfl, rfl, rfl, rfl, rfl, rfl⟩
  | waitAgain p addr =>
    obtain rfl : lk = .wait := h
    exact ⟨rfl, rfl, rfl, rfl, rfl, rfl⟩
  | _ => exact h.elim

section

variable (h : SwitchInv m)
include h

omit [DecidableEq C] in
theorem fail (e : ProcPanic) : SwitchInv (m.fail e) := by
  obtain ⟨⟨h1, h2, h3⟩, ⟨t1, t2, t3, t4, t5, t6, t7⟩, ⟨s1, s2, s3, s4⟩, ⟨b1, b2, b3, b4⟩⟩ := h
  exact ⟨⟨h1, h2, h3⟩, ⟨t1, t2, t3, t4, t5, t6, t7⟩, ⟨s1, s2, s3, s4⟩, ⟨b1, b2, b3, b4⟩⟩

theorem move [NeZero n] (hm : Moved m m' c (f :: rest) (fs ++ rest)) (hs : Goes m c f fs)
    (hproc : m'.proc = m.proc) (hcproc : m'.cproc = m.cproc)
    (hcontext : m'.context = m.context) (hlock : LockInv m') : SwitchInv m' :=
  ⟨hlock, h.thread.move hm hs.toStays hcproc,
    h.state.move_same h.thread hm (fun q hq => absurd hq (hs.not_leaving hs.leaves hm.live q))
      (hs.no_back h.thread hm.live) hcproc hcontext (fun j => by rw [hproc]),
    h.build.move h.state h.thread hm (stackBuilds_move hs.toSameBuilds) (built_move hs.toSameBuilds) hcontext
      (fun j hj => by rwa [hproc])⟩

theorem quiet [NeZero n] (hlive : m.live c = f :: rest) (hlocks : (stackLocks fs).Perm f.locks) (hs : Goes m c f fs) :
    SwitchInv ((m.setLive c (fs ++ rest)).log ev) := by
  have hm : Moved m ((m.setLive c (fs ++ rest)).log ev) c (f :: rest) (fs ++ rest) :=
    .setLive m hlive rfl rfl rfl ev
  refine h.move hm hs setLive_proc setLive_cproc setLive_context
    (h.lock.move h.thread hm setLive_lock setLive_noff ?_)
  rw [stackLocks_append]
  exact hlocks.append_right _

theorem acquire [NeZero n] (hlive : m.live c = f :: rest) {l : Lock n}
    (hfree : m.lock l = none) (hlocks : (stackLocks fs).Perm (l :: f.locks)) (hs : Goes m c f fs) :
    SwitchInv (((m.take c l).setLive c (fs ++ rest)).log ev) := by
  have hm : Moved m (((m.take c l).setLive c (fs ++ rest)).log ev) c (f :: rest) (fs ++ rest) :=
    .setLive (m.take c l) hlive rfl rfl rfl ev
  refine h.move hm hs setLive_proc setLive_cproc setLive_context
    (h.lock.move_acquire h.thread hm hfree setLive_lock setLive_noff ?_)
  rw [stackLocks_append, stackLocks_cons]
  exact hlocks.append_right _

theorem release [NeZero n] (hlive : m.live c = f :: rest) {l : Lock n}
    (hlocks : f.locks.Perm (l :: stackLocks fs)) (hs : Goes m c f fs) :
    SwitchInv (((m.drop c l).setLive c (fs ++ rest)).log ev) := by
  have hm : Moved m (((m.drop c l).setLive c (fs ++ rest)).log ev) c (f :: rest) (fs ++ rest) :=
    .setLive (m.drop c l) hlive rfl rfl rfl ev
  refine h.move hm hs setLive_proc setLive_cproc setLive_context
    (h.lock.move_release h.thread hm setLive_lock setLive_noff ?_)
  rw [stackLocks_append, ← List.cons_append]
  exact hlocks.append_right _

theorem exitUnlockWait [NeZero n] (hlive : m.live c = .exitUnlockWait p :: rest) :
    SwitchInv (((m.drop c .wait).setLive c (.exitSched p :: rest)).log ev) := by
  have hm : Moved m (((m.drop c .wait).setLive c (.exitSched p :: rest)).log ev) c
      (.exitUnlockWait p :: rest) (.exitSched p :: rest) :=
    .setLive (m.drop c .wait) hlive rfl rfl rfl ev
  have hs : Stays m c (.exitUnlockWait p) [.exitSched p] :=
    .single (Or.inl rfl) rfl rfl
  have hb : SameBuilds (.exitUnlockWait p) [.exitSched p] := .single rfl rfl
  refine ⟨h.lock.move_release h.thread hm setLive_lock setLive_noff (List.Perm.swap _ _ _),
    ThreadInv.move h.thread (show Moved _ _ c _ ([.exitSched p] ++ rest) from hm) hs setLive_cproc, ?_,
    h.build.move h.state h.thread hm (stackBuilds_move hb) (built_move hb) setLive_context ?_⟩
  · refine h.state.move_same h.thread hm (fun q hq => ?_) (by simp) setLive_cproc setLive_context ?_
    · obtain ⟨g, gs, hg, hcase⟩ := hq
      rw [hlive] at hg
      cases hg
      refine ⟨.exitSched p, rest, hm.live_self, Or.inl ⟨rfl, ?_⟩⟩
      rcases hcase with ⟨-, hq⟩ | hq
      · exact hq
      · cases hq
    · intro j
      simp [log, drop]
  · intro j hj
    simpa [log, drop] using hj

/-! ### Stores into a slot -/

theorem set [NeZero n] (hlive : m.live c = f :: rest) {r : Proc n} (hst : Store m f (.set i r) fs)
    (hrun : r.state = .RUNNING → (m.proc i).state = .RUNNING) (hstate : ∀ d, m.cproc d = some i → r.state = .RUNNING ∨
      Leaving (((m.setProc i r).setLive c (fs ++ rest)).log ev) d i ∧ HasThread r.state)
    (hpark : (∀ d, m.running d ≠ some i) → HasThread r.state →
      m.context i = m.kstack i ∧ Parked i (m.kstack i))
    (hbuild : Moved m (((m.setProc i r).setLive c (fs ++ rest)).log ev) c (f :: rest) (fs ++ rest) →
      BuildInv (((m.setProc i r).setLive c (fs ++ rest)).log ev)) :
    SwitchInv (((m.setProc i r).setLive c (fs ++ rest)).log ev) := by
  have hm : Moved m (((m.setProc i r).setLive c (fs ++ rest)).log ev) c (f :: rest) (fs ++ rest) :=
    .setLive (m.setProc i r) hlive rfl rfl rfl ev
  have hs : Stays m c f fs := hst.stays (by simp) (by simp)
  have hi : ((((m.setProc i r).setLive c (fs ++ rest)).log ev).proc i).state = r.state := by
    rw [set_state, if_pos rfl]
  refine ⟨h.lock.move h.thread hm setLive_lock setLive_noff ?_, h.thread.move hm hs setLive_cproc,
    h.state.move h.thread hm (fun q hq => absurd hq (hs.not_leaving hst.leaves hlive q))
      (hs.no_back h.thread hlive) setLive_cproc setLive_context i (fun j hj => ?_) ?_ ?_ ?_, hbuild hm⟩
  · rw [stackLocks_append]
    exact hst.locks_perm.append_right _
  · rw [set_state, if_neg hj]
  · rw [hi]
    exact hrun
  · rw [hi]
    exact hstate
  · rw [hi]
    exact hpark

theorem wake [NeZero n] (hlive : m.live c = f :: rest) {r : Proc n}
    (hst : Store m f (.set i r) fs) (hb : SameBuilds f fs)
    (hr : r.state = (m.proc i).state ∨ (m.proc i).state = .SLEEPING ∧ r.state = .RUNNABLE) :
    SwitchInv (((m.setProc i r).setLive c (fs ++ rest)).log ev) := by
  have hs : Stays m c f fs := hst.stays (by simp) (by simp)
  have hthread : HasThread r.state ↔ HasThread (m.proc i).state := by
    rcases hr with hr | ⟨h1, h2⟩
    · rw [hr]
    · rw [h1, h2]
      simp [HasThread]
  refine h.set hlive hst ?_ (fun d hd => ?_) (fun hoff ht => h.state.parked i hoff (hthread.mp ht))
    fun hm => h.build.move h.state h.thread hm (stackBuilds_move hb) (built_move hb) setLive_context ?_
  · intro hrun
    rcases hr with hr | ⟨-, h2⟩
    · exact hr.symm.trans hrun
    · rw [hrun] at h2
      cases h2
  · rcases h.state.cproc_state d i hd with hrun | ⟨hl, ht⟩
    · rcases hr with hr | ⟨h1, -⟩
      · exact Or.inl (hr.trans hrun)
      · rw [hrun] at h1
        cases h1
    · refine Or.inr ⟨?_, hthread.mpr ht⟩
      by_cases hdc : d = c
      · subst hdc
        exact absurd hl (hs.not_leaving hst.leaves hlive i)
      · exact hl.moved h.thread (.setLive (m.setProc i r) hlive rfl rfl rfl ev) hdc
  · intro j hj
    rw [set_state]
    split_ifs with hji
    · subst hji
      rcases hr with hr | ⟨h1, -⟩
      · exact hr.trans hj
      · rw [hj] at h1
        cases h1
    · exact hj

theorem leave [NeZero n] (hlive : m.live c = f :: rest) {r : Proc n}
    (hst : Store m f (.set p r) [g]) (hf : f.self = some p) (hb : SameBuilds f [g])
    (hg : g.leaves = true) (hgp : g.self = some p) (hr : r.state ≠ .RUNNING)
    (hthread : HasThread r.state) : SwitchInv (((m.setProc p r).setLive c ([g] ++ rest)).log ev) := by
  have hrun : m.running c = some p := h.thread.running_of_self hlive hf
  have hcproc := h.thread.running_cproc c p hrun
  refine h.set hlive hst (fun h => absurd h hr) (fun d hd => ?_) (fun hoff => absurd hrun (hoff c))
    fun hm => h.build.move h.state h.thread hm (stackBuilds_move hb) (built_move hb) setLive_context ?_
  · obtain rfl := h.thread.cproc_inj d c p hd hcproc
    have hm : Moved m (((m.setProc p r).setLive d ([g] ++ rest)).log ev) d (f :: rest) ([g] ++ rest) :=
      .setLive (m.setProc p r) hlive rfl rfl rfl ev
    exact Or.inr ⟨⟨g, rest, hm.live_self, Or.inl ⟨hg, hgp⟩⟩, hthread⟩
  · intro j hj
    rw [set_state]
    split_ifs with hjp
    · subst hjp
      exact absurd hcproc (h.state.no_cproc_of_not_hasThread (by simp [HasThread, hj]) c)
    · exact hj

omit [DecidableEq C] in
theorem builds_off (hlive : m.live c = f :: rest) (hf : f.builds = some i)
    (hself : f.self = some p) : (m.proc i).state = .USED ∧ ∀ d, m.cproc d ≠ some i := by
  have hrun : m.running c = some p := h.thread.running_of_self hlive hself
  have hmem : f ∈ m.kstack p := by
    rw [← live_of_running hrun, hlive]
    exact List.mem_cons_self
  have hused := h.build.used p i (mem_stackBuilds.mpr ⟨f, hmem, hf⟩)
  exact ⟨hused, h.state.no_cproc_of_not_hasThread (by simp [HasThread, hused])⟩

theorem build_remove (hm : Moved m m' c (f :: rest) ([g] ++ rest))
    (hself : f.self = some p) (hf : f.builds = some i) (hg : g.builds = none) (hcontext : m'.context = m.context)
    (hstate : ∀ j, j ≠ i → (m'.proc j).state = (m.proc j).state) : BuildInv m' := by
  have hrun : m.running c = some p := h.thread.running_of_self hm.live hself
  have hold : stackBuilds (f :: rest) = i :: stackBuilds rest := by
    rw [stackBuilds_cons, hf]
    rfl
  have hnew : stackBuilds ([g] ++ rest) = stackBuilds rest := by
    rw [stackBuilds_append, stackBuilds_cons, hg]
    rfl
  have hkp : stackBuilds (m.kstack p) = i :: stackBuilds rest := by rw [hm.kstack_before hrun, hold]
  have hnodup := h.build.nodup p
  rw [hkp, List.nodup_cons] at hnodup
  refine h.build.change h.state h.thread hm hcontext (fun j hj => Or.inl ?_) (fun _ => ?_)
    (fun k hk j hj => ?_) fun q j hj => ?_
  · rw [hnew] at hj
    rw [hold]
    exact List.mem_cons_of_mem _ hj
  · rw [hnew]
    exact hnodup.2
  · rcases List.mem_append.mp hk with hk | hk
    · rw [List.mem_singleton.mp hk] at hj
      rw [builds_of_built hj] at hg
      cases hg
    · refine ⟨?_, Or.inl ⟨k, List.mem_cons_of_mem _ hk, hj⟩⟩
      rw [hold]
      exact List.mem_cons_of_mem _ (mem_stackBuilds.mpr ⟨k, hk, builds_of_built hj⟩)
  · -- what is still built was built before, and is not `i`
    by_cases hq : q = p
    · subst hq
      rw [hm.kstack_self hrun, hnew] at hj
      rw [hstate j (by rintro rfl; exact hnodup.1 hj)]
      exact h.build.used q j (by rw [hkp]; exact List.mem_cons_of_mem _ hj)
    · rw [hm.kstack_of_ne (fun hc => hq (Option.some.inj (hc.symm.trans hrun)))] at hj
      rw [hstate j]
      · exact h.build.used q j hj
      · rintro rfl
        exact hq (h.build.inj q p j hj (by rw [hkp]; exact List.mem_cons_self))

theorem undo [NeZero n] {np : Fin n} (hlive : m.live c = f :: rest) (hf : f = .forkAlloc p np ∨ f = .forkCopy p np) :
    SwitchInv (((m.setProc np (m.proc np).freeproc).setLive c ([.forkUndo p np] ++ rest)).log ev) := by
  have hbuilds : f.builds = some np := by rcases hf with rfl | rfl <;> rfl
  have hself : f.self = some p := by rcases hf with rfl | rfl <;> rfl
  have hoff := (h.builds_off hlive hbuilds hself).2
  refine h.set hlive (.undo p np f hf) (by simp [Proc.freeproc])
    (fun d hd => absurd hd (hoff d)) (by simp [Proc.freeproc, HasThread]) fun hm =>
    h.build_remove hm hself hbuilds rfl setLive_context fun j hj => ?_
  rw [set_state, if_neg hj]

theorem forkSet [NeZero n] {np : Fin n} (hlive : m.live c = .forkSet p np :: rest) :
    SwitchInv (((m.setProc np { m.proc np with state := .RUNNABLE }).setLive c
      ([.forkDone p np] ++ rest)).log ev) := by
  have hoff := (h.builds_off hlive rfl rfl).2
  refine h.set hlive (.forkSet p np) (by simp) (fun d hd => absurd hd (hoff d)) (fun _ _ => ?_)
    fun hm => h.build_remove hm rfl rfl rfl setLive_context fun j hj => ?_
  · refine h.build.parked p (.forkSet p np) ?_ np rfl
    rw [← live_of_running (h.thread.running_of_self hlive rfl), hlive]
    exact List.mem_cons_self
  · rw [set_state, if_neg hj]

theorem reap [NeZero n] {addr : Bool} (hlive : m.live c = .waitTest p addr i :: rest)
    (hz : (m.proc i).state = .ZOMBIE) :
    SwitchInv (((m.setProc i (m.proc i).freeproc).setLive c
      ([.waitReaped p i (m.proc i).pid] ++ rest)).log ev) := by
  have hoff := h.state.no_cproc (i := i) h.lock hlive rfl (by simp) (by simp [Frame.locks])
    (by rw [hz]; simp)
  have hb : SameBuilds (.waitTest p addr i) [.waitReaped p i (m.proc i).pid] := .single rfl rfl
  refine h.set hlive (.reap p addr i hz) (by simp [Proc.freeproc])
    (fun d hd => absurd hd (hoff d)) (by simp [Proc.freeproc, HasThread]) fun hm =>
    h.build.move h.state h.thread hm (stackBuilds_move hb) (built_move hb) setLive_context fun j hj => ?_
  rw [set_state]
  split_ifs with hji
  · subst hji
    rw [hj] at hz
    cases hz
  · exact hj

theorem found (hlive : m.live c = .forkTest p i :: rest) (hi : (m.proc i).state = .UNUSED) :
    SwitchInv (((m.store c (.found i)).setLive c ([.forkAlloc p i] ++ rest)).log ev) := by
  have hm : Moved m (((m.store c (.found i)).setLive c ([.forkAlloc p i] ++ rest)).log ev) c
      (.forkTest p i :: rest) ([.forkAlloc p i] ++ rest) :=
    .setLive (m.store c (.found i)) hlive rfl rfl rfl ev
  have hs : Stays m c (.forkTest p i) [.forkAlloc p i] := .single (Or.inl rfl) rfl rfl
  have hstate : ∀ j, ((((m.store c (.found i)).setLive c ([.forkAlloc p i] ++ rest)).log ev).proc
      j).state = if j = i then .USED else (m.proc j).state :=
    proc_state (r := (m.proc i).found m.nextpid) rfl
  have hfree : ∀ q, i ∉ stackBuilds (m.kstack q) := fun q hq => by
    have := h.build.used q i hq
    rw [hi] at this
    cases this
  have hnew : ∀ j, j ∈ stackBuilds ([Frame.forkAlloc p i] ++ rest) ↔ j = i ∨ j ∈ stackBuilds rest :=
    fun j => List.mem_cons
  have hused : ∀ q j, j = i ∨ j ∈ stackBuilds (m.kstack q) →
      ((((m.store c (.found i)).setLive c ([.forkAlloc p i] ++ rest)).log ev).proc j).state = .USED := by
    intro q j hj
    rw [hstate]
    split_ifs with hji
    · rfl
    · exact h.build.used q j (hj.resolve_left hji)
  refine ⟨h.lock.move h.thread hm setLive_lock setLive_noff (List.Perm.refl _),
    h.thread.move hm hs setLive_cproc,
    h.state.move h.thread hm (fun q hq => absurd hq (hs.not_leaving rfl hlive q))
      (hs.no_back h.thread hlive) setLive_cproc setLive_context i (fun j hj => ?_) ?_ (fun d hd => ?_) ?_,
    h.build.change h.state h.thread hm setLive_context (fun j hj => ?_)
      (fun hnodup => List.nodup_cons.mpr ⟨?_, hnodup⟩) (fun k hk j hj => ?_) ?_⟩
  · rw [hstate, if_neg hj]
  · rw [hstate]
    simp
  · exact absurd hd (h.state.no_cproc_of_not_hasThread (by simp [HasThread, hi]) d)
  · rw [hstate]
    simp [HasThread]
  · rcases (hnew j).mp hj with rfl | hj
    · exact Or.inr hfree
    · exact Or.inl hj
  · show i ∉ stackBuilds (.forkTest p i :: rest)
    rw [← hm.kstack_before (h.thread.running_of_self hlive rfl)]
    exact hfree p
  · rcases List.mem_append.mp hk with hk | hk
    · rw [List.mem_singleton.mp hk] at hj
      cases hj
    · exact ⟨mem_stackBuilds.mpr ⟨k, List.mem_cons_of_mem _ hk, builds_of_built hj⟩,
        Or.inl ⟨k, List.mem_cons_of_mem _ hk, hj⟩⟩
  · refine fun q j => hm.forall_kstack (P := fun q fs => j ∈ stackBuilds fs → _) (fun q hq hj => ?_)
      (fun q hj => hused q j (Or.inr hj)) q
    refine hused q j (((hnew j).mp hj).imp id fun hj => ?_)
    rw [hm.kstack_before hq]
    exact hj

omit [DecidableEq C] in
theorem resetContext (hi : (m.proc i).state = .USED) (hbuilt : ∀ q, ∀ k ∈ m.kstack q, k.built ≠ some i) :
    SwitchInv { m with
      context := update m.context i [.forkret i]
      kstack := update m.kstack i [.forkret i] } := by
  have hoff : ∀ d, m.running d ≠ some i := fun d hd => h.state.no_cproc_of_not_hasThread
    (by simp [HasThread, hi]) d (h.thread.running_cproc d i hd)
  -- no CPU runs on the stack of `i`
  have hlive : ∀ d, { m with
      context := update m.context i [.forkret i]
      kstack := update m.kstack i [.forkret i] }.live d = m.live d := fun d =>
    live_congr rfl (fun q hq => update_of_ne (by rintro rfl; exact hoff d hq) _ _) rfl
  have hsub : ∀ q j, j ∈ stackBuilds (update m.kstack i [.forkret i] q) →
      j ∈ stackBuilds (m.kstack q) := fun q j =>
    (forall_update_iff m.kstack fun q fs => j ∈ stackBuilds fs → j ∈ stackBuilds (m.kstack q)).mpr
      ⟨fun hj => absurd hj List.not_mem_nil, fun _ _ => id⟩ q
  refine ⟨h.lock.same rfl rfl fun d => ?_, ⟨h.thread.running_cproc, h.thread.running_sstack, h.thread.idle,
    h.thread.cproc_inj, ?_, ?_, ?_⟩, ⟨h.state.running_state, ?_, ?_, ?_⟩,
    fun q j hj => h.build.used q j (hsub q j hj), ?_, ?_,
    fun q r j hq hr => h.build.inj q r j (hsub q j hq) (hsub r j hr)⟩
  · unfold held
    rw [hlive]
  · exact (forall_update_iff m.kstack fun q fs => ∀ g ∈ fs, ∀ r, g.self = some r → r = q).mpr
      ⟨by simp [Frame.self], fun q _ => h.thread.self q⟩
  · exact (forall_update_iff m.kstack fun _ fs => ∀ g ∈ fs, g.isSched = false).mpr
      ⟨by simp [Frame.isSched], fun q _ => h.thread.notSched q⟩
  · exact (forall_update_iff m.kstack fun _ => CallersOk).mpr
      ⟨callersOk_forkret i, fun q _ => h.thread.callers q⟩
  · intro d q hd
    exact (h.state.cproc_state d q hd).imp id fun hl => ⟨hl.1.congr (hlive d), hl.2⟩
  · intro d q rest hd
    exact h.state.back_state d q rest ((hlive d).symm.trans hd)
  · intro q hq hthread
    have hqi : q ≠ i := by
      rintro rfl
      exact hthread.2 hi
    simpa only [update_of_ne hqi] using h.state.parked q hq hthread
  · intro q k hk j hj
    have hk' : k ∈ m.kstack q := by
      by_cases hq : q = i
      · subst hq
        simp only [update_self, List.mem_singleton] at hk
        subst hk
        cases hj
      · simpa only [update_of_ne hq] using hk
    have hji : j ≠ i := by
      rintro rfl
      exact hbuilt q k hk' hj
    simpa only [update_of_ne hji] using h.build.parked q k hk' j hj
  · exact (forall_update_iff m.kstack fun _ fs => (stackBuilds fs).Nodup).mpr
      ⟨List.nodup_nil, fun q _ => h.build.nodup q⟩

theorem newContext [NeZero n] {np : Fin n} (hlive : m.live c = .forkAlloc p np :: rest) :
    SwitchInv (((m.store c (.newContext np)).setLive c ([.forkCopy p np] ++ rest)).log ev) := by
  obtain ⟨hused, hoff⟩ := h.builds_off hlive rfl rfl
  have hrun : m.running c = some p := h.thread.running_of_self hlive rfl
  have hnp : p ≠ np := fun heq => hoff c (heq ▸ h.thread.running_cproc c p hrun)
  have hkp : m.kstack p = .forkAlloc p np :: rest := by rw [← live_of_running hrun, hlive]
  -- only the top frame builds `np`, and its context is not set yet
  have hbuilt : ∀ q, ∀ k ∈ m.kstack q, k.built ≠ some np := by
    intro q k hk hbk
    have hmem : np ∈ stackBuilds (m.kstack p) := by
      rw [hkp]
      exact List.mem_cons_self
    obtain rfl := h.build.inj q p np (mem_stackBuilds.mpr ⟨k, hk, builds_of_built hbk⟩) hmem
    have hnodup := h.build.nodup q
    rw [hkp] at hnodup
    rw [hkp] at hk
    rcases List.mem_cons.mp hk with rfl | hk
    · cases hbk
    · exact (List.nodup_cons.mp hnodup).1 (mem_stackBuilds.mpr ⟨k, hk, builds_of_built hbk⟩)
  have h₁ := h.resetContext hused hbuilt
  have hlive₁ : (m.store c (.newContext np)).live c = .forkAlloc p np :: rest := by
    rw [live_of_running (m := m.store c (.newContext np)) hrun]
    show update m.kstack np _ p = _
    rw [update_of_ne hnp, hkp]
  have hm : Moved (m.store c (.newContext np))
      (((m.store c (.newContext np)).setLive c ([.forkCopy p np] ++ rest)).log ev) c
      (.forkAlloc p np :: rest) ([.forkCopy p np] ++ rest) :=
    .setLive (m.store c (.newContext np)) hlive₁ rfl rfl rfl ev
  have hs : Stays (m.store c (.newContext np)) c (.forkAlloc p np) [.forkCopy p np] :=
    .single (Or.inl rfl) rfl rfl
  refine ⟨h₁.lock.move h₁.thread hm setLive_lock setLive_noff (List.Perm.refl _),
    h₁.thread.move hm hs setLive_cproc,
    h₁.state.move_same h₁.thread hm (fun q hq => absurd hq (hs.not_leaving rfl hlive₁ q))
      (hs.no_back h₁.thread hlive₁) setLive_cproc setLive_context (fun j => by simp [log, store]),
    h₁.build.move h₁.state h₁.thread hm rfl (fun g hg j hj => ?_) setLive_context
      (fun j hj => by simpa [log, store] using hj)⟩
  rcases List.mem_append.mp hg with hg | hg
  · rw [List.mem_singleton.mp hg] at hj
    obtain rfl : np = j := Option.some.inj hj
    refine Or.inr ⟨?_, ?_⟩
    · simp
    · simpa using parked_forkret np
  · exact Or.inl ⟨g, List.mem_cons_of_mem _ hg, hj⟩

/-! ### The scheduler -/

/-- `scheduler` writes `c->proc`: the process it chooses turns `RUNNING`, the one that has left is not. -/
theorem dispatch (hm : Moved m m' c old [g]) (hrun : m.running c = none)
    (hg : g.isSched = true) (hback : ∀ q, g ≠ .schedBack q) (hcproc : m'.cproc = update m.cproc c g.chosen)
    (hfresh : ∀ q, g.chosen = some q → (m'.proc q).state = .RUNNING ∧ ∀ d, m.cproc d ≠ some q)
    (hleft : ∀ q, m.cproc c = some q → (m.proc q).state ≠ .RUNNING)
    (hstate : ∀ q, (m'.proc q).state = (m.proc q).state ∨ g.chosen = some q ∧ (m.proc q).state = .RUNNABLE)
    (hcontext : m'.context = m.context) (hlock : LockInv m') : SwitchInv m' := by
  have hidle : ∀ p, m.running c ≠ some p := by simp [hrun]
  have hk := hm.kstack_idle hrun
  have hne : ∀ d gs q, m'.live d = .schedBack q :: gs → d ≠ c := by
    rintro d gs q hd rfl
    rw [hm.live_self] at hd
    exact hback q (List.cons.inj hd).1
  have hsame : ∀ d q, m.cproc d = some q → (m'.proc q).state = (m.proc q).state := fun d q hd =>
    (hstate q).resolve_right fun hq => (hfresh q hq.1).2 d hd
  refine ⟨hlock, h.thread.replace hm hcproc (fun p hp => absurd hp (hidle p))
    (fun d p _ hp => (hfresh p hp).2 d) (fun p hp => absurd hp (hidle p)) (fun p hp => absurd hp (hidle p))
    (fun p hp => absurd hp (hidle p)) fun _ => .single hg,
    ⟨fun q hq => ?_, fun d q hd => ?_, fun d q gs hd => ?_, fun q hq ht => ?_⟩,
    h.build.same hk hcontext fun j hj => ?_⟩
  · rw [hcproc]
    rcases hstate q with heq | ⟨hc, -⟩
    · obtain ⟨d, hd⟩ := h.state.running_state q (heq.symm.trans hq)
      refine ⟨d, ?_⟩
      rw [update_of_ne, hd]
      rintro rfl
      exact hleft q hd (heq.symm.trans hq)
    · exact ⟨c, by rw [update_self, hc]⟩
  · rw [hcproc] at hd
    by_cases hdc : d = c
    · rw [hdc, update_self] at hd
      exact Or.inl (hfresh q hd).1
    · rw [update_of_ne hdc] at hd
      rw [hsame d q hd]
      exact (h.state.cproc_state d q hd).imp id fun hl => ⟨hl.1.moved h.thread hm hdc, hl.2⟩
  · rw [hm.live_of_ne h.thread.exclusive (hne d gs q hd)] at hd
    rw [hsame d q (h.thread.idle_of_isSched hd rfl).2.2.2]
    exact h.state.back_state d q gs hd
  · rw [hm.running] at hq
    rw [hk, hcontext]
    refine h.state.parked q hq ?_
    rcases hstate q with heq | ⟨-, hq⟩
    · rwa [← heq]
    · simp [HasThread, hq]
  · rcases hstate j with heq | ⟨-, hr⟩
    · rw [heq, hj]
    · rw [hj] at hr
      cases hr

theorem run (hlive : m.live c = .schedTest i :: rest) (hi : (m.proc i).state = .RUNNABLE) :
    SwitchInv (((m.store c (.run i)).setLive c ([.schedSwtch i] ++ rest)).log ev) := by
  obtain ⟨hrun, hss, rfl, hcproc⟩ := h.thread.idle_of_isSched hlive rfl
  have hm : Moved m (((m.store c (.run i)).setLive c ([.schedSwtch i] ++ [])).log ev) c
      [.schedTest i] [.schedSwtch i] := .setLive (m.store c (.run i)) hlive rfl rfl rfl ev
  have hstate : ∀ j, ((((m.store c (.run i)).setLive c ([.schedSwtch i] ++ [])).log ev).proc j).state =
      if j = i then .RUNNING else (m.proc j).state :=
    proc_state (r := { m.proc i with state := .RUNNING }) rfl
  refine h.dispatch hm hrun rfl nofun setLive_cproc (fun q hq => ?_) (fun q hq => ?_) (fun q => ?_) setLive_context
    (h.lock.move h.thread hm setLive_lock setLive_noff (List.Perm.refl _))
  · obtain rfl := Option.some.inj hq
    exact ⟨by rw [hstate, if_pos rfl], h.state.no_cproc h.lock hlive rfl (by simp) (by simp [Frame.locks])
      (by rw [hi]; simp)⟩
  · rw [hcproc] at hq
    cases hq
  · rw [hstate]
    split_ifs with hqi
    · exact Or.inr ⟨congrArg some hqi.symm, hqi ▸ hi⟩
    · exact Or.inl rfl

theorem toIdle (hlive : m.live c = .schedBack i :: rest) :
    SwitchInv (((m.store c .idle).setLive c ([.schedUnlock i] ++ rest)).log ev) := by
  obtain ⟨hrun, hss, rfl, hcproc⟩ := h.thread.idle_of_isSched hlive rfl
  have hm : Moved m (((m.store c .idle).setLive c ([.schedUnlock i] ++ [])).log ev) c
      [.schedBack i] [.schedUnlock i] := .setLive (m.store c .idle) hlive rfl rfl rfl ev
  refine h.dispatch hm hrun rfl nofun setLive_cproc nofun (fun q hq => ?_) (fun q => Or.inl ?_) setLive_context
    (h.lock.move h.thread hm setLive_lock setLive_noff (List.Perm.refl _))
  · rw [hcproc] at hq
    obtain rfl := Option.some.inj hq
    exact h.state.back_state c _ _ hlive
  · exact congrArg Proc.state (congrFun setLive_proc q)

theorem switchOut (hlive : m.live c = f :: rest) (hfg : Departs p f g)
    (hnoff : m.noff c = 1) (hstate : (m.proc p).state ≠ .RUNNING) (hr' : m'.running = update m.running c none)
    (hk' : m'.kstack = update m.kstack p (g :: rest)) (hs' : m'.sstack = m.sstack)
    (hp' : m'.proc = m.proc) (hc' : m'.cproc = m.cproc)
    (hctx' : m'.context = update m.context p (g :: rest)) (hlock' : m'.lock = m.lock)
    (hnoff' : m'.noff = m.noff) : SwitchInv m' := by
  have hrun : m.running c = some p := h.thread.running_of_self hlive hfg.self
  have hcproc := h.thread.running_cproc c p hrun
  have hss := h.thread.running_sstack c p hrun
  have hkp : m.kstack p = f :: rest := by rw [← live_of_running hrun, hlive]
  -- the process holds its own lock and no other
  have hrest : stackLocks rest = [] := by
    have hlen := h.lock.noff_eq c
    rw [held_of_live hlive, stackLocks_cons, hfg.locks] at hlen
    simp only [List.cons_append, List.nil_append, List.length_cons] at hlen
    exact List.length_eq_zero_iff.mp (by omega)
  have hparked : Parked p (g :: rest) :=
    ⟨⟨g, rest, rfl, hfg.resumes, hfg.self'⟩, by rw [stackLocks_cons, hfg.locks', hrest]; rfl⟩
  have hlive_c : m'.live c = [.schedBack p] := by
    rw [live_of_idle (by rw [hr', update_self]), hs', hss]
  have hlive_d : ∀ d, d ≠ c → m'.live d = m.live d := fun d hd =>
    live_congr (by rw [hr', update_of_ne hd])
      (fun q hq => by
        rw [hk', update_of_ne]
        rintro rfl
        exact hd (h.thread.exclusive d c q hq hrun))
      (by rw [hs'])
  have hrunning : ∀ d q, m'.running d = some q → m.running d = some q := fun d q hd => by
    rw [hr', update_apply] at hd
    split_ifs at hd
    exact hd
  -- what holds of the stacks and of the frame `g` still holds of them
  have hframes : ∀ {P : Fin n → Frame n → Prop}, (∀ q, ∀ k ∈ m.kstack q, P q k) → P p g →
      ∀ q, ∀ k ∈ m'.kstack q, P q k := by
    intro P hold hg
    rw [hk']
    have hp := hold p
    rw [hkp] at hp
    exact (forall_update_iff m.kstack fun q fs => ∀ k ∈ fs, P q k).mpr
      ⟨List.forall_mem_cons.mpr ⟨hg, (List.forall_mem_cons.mp hp).2⟩, fun q _ => hold q⟩
  have hbuilds : ∀ q, stackBuilds (m'.kstack q) = stackBuilds (m.kstack q) := by
    rw [hk']
    refine (forall_update_iff m.kstack fun q fs => stackBuilds fs = stackBuilds (m.kstack q)).mpr
      ⟨?_, fun q _ => rfl⟩
    rw [hkp, stackBuilds_cons, stackBuilds_cons, builds_of_leaves hfg.leaves, builds_of_resumes hfg.resumes]
  refine ⟨h.lock.same hlock' hnoff' fun d => ?_, ⟨fun d q hd => ?_, fun d q hd => ?_, fun d hd => ?_, ?_,
      hframes h.thread.self fun r hr => (Option.some.inj (hfg.self'.symm.trans hr)).symm,
      hframes h.thread.notSched (isSched_of_resumes hfg.resumes), ?_⟩,
    ⟨?_, fun d q hd => ?_, fun d q gs hd => ?_, fun q hq ht => ?_⟩, ?_, ?_, ?_, ?_⟩
  · by_cases hd : d = c
    · subst hd
      rw [held_of_live hlive_c, held_of_live hlive, stackLocks_cons f, hfg.locks, hrest]
      rfl
    · rw [held_of_live (hlive_d d hd), held_of_live rfl]
  · rw [hc']
    exact h.thread.running_cproc d q (hrunning d q hd)
  · rw [hs']
    exact h.thread.running_sstack d q (hrunning d q hd)
  · rw [hc', hs']
    by_cases hdc : d = c
    · subst hdc
      rw [hss, hcproc]
      exact .single rfl
    · rw [hr', update_of_ne hdc] at hd
      exact h.thread.idle d hd
  · rw [hc']
    exact h.thread.cproc_inj
  · rw [hk']
    have hp := h.thread.callers p
    rw [hkp] at hp
    exact (forall_update_iff m.kstack fun _ => CallersOk).mpr
      ⟨⟨hp.1.of_same hfg.sleeps hfg.covers, hp.2⟩, fun q _ => h.thread.callers q⟩
  · rw [hp', hc']
    exact h.state.running_state
  · rw [hc'] at hd
    rw [hp']
    by_cases hdc : d = c
    · subst hdc
      rw [hcproc] at hd
      obtain rfl := Option.some.inj hd
      have hthread := ((h.state.cproc_state d p hcproc).resolve_left hstate).2
      exact Or.inr ⟨⟨_, _, hlive_c, Or.inr rfl⟩, hthread⟩
    · exact (h.state.cproc_state d q hd).imp id fun hl => ⟨hl.1.congr (hlive_d d hdc), hl.2⟩
  · rw [hp']
    by_cases hdc : d = c
    · subst hdc
      rw [hlive_c] at hd
      cases hd
      exact hstate
    · rw [hlive_d d hdc] at hd
      exact h.state.back_state d q gs hd
  · rw [hp'] at ht
    rw [hctx', hk']
    by_cases hqp : q = p
    · subst hqp
      rw [update_self, update_self]
      exact ⟨rfl, hparked⟩
    · rw [update_of_ne hqp, update_of_ne hqp]
      refine h.state.parked q (fun d hd => hq d ?_) ht
      rw [hr', update_of_ne, hd]
      rintro rfl
      exact hqp (Option.some.inj (hd.symm.trans hrun))
  · intro q j hj
    rw [hbuilds] at hj
    rw [hp']
    exact h.build.used q j hj
  · refine hframes
      (fun q k hk j hj => ?_) fun j hj => ?_
    · have hjp : j ≠ p := by
        rintro rfl
        exact h.build.off h.state h.thread (mem_stackBuilds.mpr ⟨k, hk, builds_of_built hj⟩) hrun
      rw [hctx', hk', update_of_ne hjp, update_of_ne hjp]
      exact h.build.parked q k hk j hj
    · have := builds_of_built hj
      rw [builds_of_resumes hfg.resumes] at this
      cases this
  · intro q
    rw [hbuilds]
    exact h.build.nodup q
  · intro q r j hq hr
    rw [hbuilds] at hq hr
    exact h.build.inj q r j hq hr

omit [DecidableEq C] in
theorem chosen_parked (hlive : m.live c = .schedSwtch i :: rest) :
    (m.proc i).state = .RUNNING ∧ (∀ d, m.running d ≠ some i) ∧ m.context i = m.kstack i ∧
      Parked i (m.kstack i) := by
  obtain ⟨hrun, -, -, hcproc⟩ := h.thread.idle_of_isSched hlive rfl
  have hrunning := h.state.running_of_top hlive hcproc rfl (by simp)
  have hoff : ∀ d, m.running d ≠ some i := fun d hd => by
    obtain rfl := h.thread.cproc_inj d c i (h.thread.running_cproc d i hd) hcproc
    rw [hrun] at hd
    cases hd
  exact ⟨hrunning, hoff, h.state.parked i hoff (by simp [HasThread, hrunning])⟩

theorem switchIn (hlive : m.live c = .schedSwtch i :: rest) (hr' : m'.running = update m.running c (some i))
    (hk' : m'.kstack = update m.kstack i (m.context i)) (hs' : m'.sstack = update m.sstack c [.schedBack i])
    (hp' : m'.proc = m.proc) (hc' : m'.cproc = m.cproc) (hctx' : m'.context = m.context)
    (hlock' : m'.lock = m.lock) (hnoff' : m'.noff = m.noff) : SwitchInv m' := by
  obtain ⟨hrun, -, rfl, hcproc⟩ := h.thread.idle_of_isSched hlive rfl
  obtain ⟨hrunning, hoff, hctx, hparked⟩ := h.chosen_parked hlive
  -- the saved context is the stack, so no stack changes
  have hk : m'.kstack = m.kstack := by rw [hk', hctx, update_eq_self]
  have hlive_c : m'.live c = m.kstack i := by
    rw [live_of_running (by rw [hr', update_self]), hk]
  have hlive_d : ∀ d, d ≠ c → m'.live d = m.live d := fun d hd =>
    live_congr (by rw [hr', update_of_ne hd]) (fun q _ => by rw [hk]) (by rw [hs', update_of_ne hd])
  have hr : ∀ d q, m'.running d = some q → d = c ∧ q = i ∨ d ≠ c ∧ m.running d = some q := by
    rw [hr']
    exact (forall_update_iff m.running fun d o => ∀ q, o = some q →
      d = c ∧ q = i ∨ d ≠ c ∧ m.running d = some q).mpr
      ⟨fun q hq => Or.inl ⟨rfl, (Option.some.inj hq).symm⟩, fun d hd q hq => Or.inr ⟨hd, hq⟩⟩
  refine ⟨h.lock.same hlock' hnoff' fun d => ?_, ⟨fun d q hd => ?_, fun d q hd => ?_, fun d hd => ?_, ?_, ?_, ?_,
    ?_⟩, ⟨?_, fun d q hd => ?_, fun d q gs hd => ?_, fun q hq ht => ?_⟩, h.build.same hk hctx' fun j hj => by rwa [hp']⟩
  · by_cases hd : d = c
    · subst hd
      rw [held_of_live hlive_c, held_of_live hlive, hparked.locks]
      rfl
    · rw [held_of_live (hlive_d d hd), held_of_live rfl]
  · rw [hc']
    rcases hr d q hd with ⟨rfl, rfl⟩ | ⟨-, hd⟩
    · exact hcproc
    · exact h.thread.running_cproc d q hd
  · rw [hs']
    rcases hr d q hd with ⟨rfl, rfl⟩ | ⟨hdc, hd⟩
    · rw [update_self]
    · rw [update_of_ne hdc]
      exact h.thread.running_sstack d q hd
  · have hdc : d ≠ c := by
      rintro rfl
      rw [hr', update_self] at hd
      cases hd
    rw [hr', update_of_ne hdc] at hd
    rw [hc', hs', update_of_ne hdc]
    exact h.thread.idle d hd
  · rw [hc']
    exact h.thread.cproc_inj
  · rw [hk]
    exact h.thread.self
  · rw [hk]
    exact h.thread.notSched
  · rw [hk]
    exact h.thread.callers
  · rw [hp', hc']
    exact h.state.running_state
  · rw [hc'] at hd
    rw [hp']
    by_cases hdc : d = c
    · subst hdc
      rw [hcproc] at hd
      obtain rfl := Option.some.inj hd
      exact Or.inl hrunning
    · exact (h.state.cproc_state d q hd).imp id fun hl => ⟨hl.1.congr (hlive_d d hdc), hl.2⟩
  · rw [hp']
    by_cases hdc : d = c
    · subst hdc
      have := h.thread.notSched i (.schedBack q) (by rw [← hlive_c, hd]; exact List.mem_cons_self)
      simp [Frame.isSched] at this
    · rw [hlive_d d hdc] at hd
      exact h.state.back_state d q gs hd
  · rw [hp'] at ht
    rw [hctx', hk]
    refine h.state.parked q (fun d hd => hq d ?_) ht
    rw [hr', update_of_ne, hd]
    rintro rfl
    rw [hrun] at hd
    cases hd

variable [NeZero n]

theorem sleepReturn {ch : Chan n} {lk : Lock n} {call : Nat}
    (hlive : m.live c = .sleepRelock p ch lk call :: rest) (hfree : m.lock lk = none) :
    SwitchInv (((m.take c lk).setLive c (rest.modifyHead (Frame.give lk))).log ev) := by
  have hrun : m.running c = some p := h.thread.running_of_self hlive rfl
  have hkp : m.kstack p = .sleepRelock p ch lk call :: rest := by rw [← live_of_running hrun, hlive]
  have hcallers := h.thread.callers p
  rw [hkp] at hcallers
  obtain ⟨g, hhead, haccepts⟩ := hcallers.1.returns lk rfl
  obtain ⟨gs, rfl⟩ : ∃ gs, rest = g :: gs := by
    cases rest with
    | nil => cases hhead
    | cons k gs =>
      cases hhead
      exact ⟨gs, rfl⟩
  obtain ⟨hlocks, hself, hbuilds, hbuilt, hsched, hsleeps⟩ := give_accepts haccepts
  have hm : Moved m (((m.take c lk).setLive c (g.give lk :: gs)).log ev) c
      (.sleepRelock p ch lk call :: g :: gs) (g.give lk :: gs) :=
    .setLive (m.take c lk) hlive rfl rfl rfl ev
  have hmem : ∀ k ∈ g :: gs, k ∈ m.kstack p := fun k hk => by
    rw [hkp]
    exact List.mem_cons_of_mem _ hk
  have hover : (g.give lk).Over gs := by
    refine ⟨by simp [hsleeps], Or.inr fun k hk => ?_, Or.inr (Or.inl fun k hk => ?_)⟩
    · exact hcallers.1.covered.resolve_left (by simp [Frame.covers]) k (List.mem_cons_of_mem _ hk)
    · rcases hcallers.1.again.resolve_left (by simp [Frame.covers]) with hnone | ⟨-, htail⟩
      · exact hnone k (List.mem_cons_of_mem _ hk)
      · exact htail k hk
  have hback : ∀ q ks, g.give lk :: gs ≠ .schedBack q :: ks := fun q ks heq => by
    have hg := h.thread.notSched p g (hmem g List.mem_cons_self)
    rw [← hsched, (List.cons.inj heq).1] at hg
    simp [Frame.isSched] at hg
  refine ⟨h.lock.move_acquire h.thread hm hfree setLive_lock setLive_noff ?_,
    h.thread.replace_same hm setLive_cproc (fun q hq k hk r hr => ?_) (fun q hq k hk => ?_)
      (fun q hq => ⟨hover, hcallers.2.2⟩) (fun hnone => ?_),
    h.state.move_same h.thread hm (fun q hq => ?_) hback setLive_cproc setLive_context
      (fun j => by simp [log, take]),
    h.build.move h.state h.thread hm ?_ (fun k hk j hj => ?_) setLive_context
      (fun j hj => by simpa [log, take] using hj)⟩
  · rw [stackLocks_cons, hlocks]
    exact List.Perm.refl _
  · obtain rfl := Option.some.inj (hrun.symm.trans hq)
    rcases List.mem_cons.mp hk with rfl | hk
    · exact h.thread.self p g (hmem g List.mem_cons_self) r (hself ▸ hr)
    · exact h.thread.self p k (hmem k (List.mem_cons_of_mem _ hk)) r hr
  · obtain rfl := Option.some.inj (hrun.symm.trans hq)
    rcases List.mem_cons.mp hk with rfl | hk
    · rw [hsched]
      exact h.thread.notSched p g (hmem g List.mem_cons_self)
    · exact h.thread.notSched p k (hmem k (List.mem_cons_of_mem _ hk))
  · rw [hrun] at hnone
    cases hnone
  · exact (hq.not_top hlive rfl (by simp)).elim
  · rw [stackBuilds_cons, stackBuilds_cons, stackBuilds_cons, hbuilds]
    rfl
  · rcases List.mem_cons.mp hk with rfl | hk
    · exact Or.inl ⟨g, by simp, hbuilt ▸ hj⟩
    · exact Or.inl ⟨k, by simp [hk], hj⟩

theorem store (hlive : m.live c = f :: rest) {e : Effect n} (hst : Store m f e fs) :
    SwitchInv (((m.store c e).setLive c (fs ++ rest)).log ev) := by
  cases hst with
  | yieldSet p => exact h.leave hlive (.yieldSet p) rfl (.single rfl rfl) rfl rfl (by simp) (by simp [HasThread])
  | sleepSet p ch lk call =>
    exact h.leave hlive (.sleepSet p ch lk call) rfl (.single rfl rfl) rfl rfl (by simp)
      (by simp [HasThread])
  | exitSet p status =>
    exact h.leave hlive (.exitSet p status) rfl (.single rfl rfl) rfl rfl (by simp) (by simp [HasThread])
  | sleepTidy p ch lk call => exact h.wake hlive (.sleepTidy p ch lk call) (.single rfl rfl) (Or.inl rfl)
  | setkilled p => exact h.wake hlive (.setkilled p) (.single rfl rfl) (Or.inl rfl)
  | forkParent p np => exact h.wake hlive (.forkParent p np) (.single rfl rfl) (Or.inl rfl)
  | reparent p status i hi =>
    exact h.wake hlive (.reparent p status i hi) (Goes.toSameBuilds (m := m) (c := c)
      (.callWakeup rfl rfl rfl rfl rfl rfl rfl rfl)) (Or.inl rfl)
  | wakeup ch i =>
    refine h.wake hlive (.wakeup ch i) (.single rfl rfl) ?_
    unfold Proc.wakeup
    split_ifs with hs
    · exact Or.inr ⟨hs.1, rfl⟩
    · exact Or.inl rfl
  | kill pid i hi =>
    refine h.wake hlive (.kill pid i hi) (.single rfl rfl) ?_
    unfold Proc.kill
    by_cases hs : (m.proc i).state = .SLEEPING
    · exact Or.inr ⟨hs, by simp [hs]⟩
    · exact Or.inl (by simp [hs])
  | found p i hi => exact h.found hlive hi
  | newContext p np => exact h.newContext hlive
  | undo p np f hf => exact h.undo hlive hf
  | forkSet p np => exact h.forkSet hlive
  | reap p addr i hi => exact h.reap hlive hi
  | run i hi => exact h.run hlive hi
  | idle i => exact h.toIdle hlive

theorem result (hlive : m.live c = f :: rest) {op : Op n} (hres : Result m c f rest op m') : SwitchInv m' := by
  cases hres with
  | fail op e => exact h.fail e
  | quiet fs ev hlocks hs => exact h.quiet hlive hlocks hs
  | acquire l fs ev hfree hlocks hs => exact h.acquire hlive hfree hlocks hs
  | release l fs ev hlocks hs => exact h.release hlive hlocks hs
  | exitUnlockWait p hf =>
    subst hf
    exact h.exitUnlockWait hlive
  | store e fs ev hst => exact h.store hlive hst
  | wake p ch lk call hf hfree =>
    subst hf
    exact h.sleepReturn hlive hfree
  | sched p g hfg hnoff hstate =>
    have hrun : m.running c = some p := h.thread.running_of_self hlive hfg.self
    exact h.switchOut hlive hfg hnoff hstate rfl (setLive_kstack_running hrun) (setLive_sstack_running hrun) setLive_proc
      setLive_cproc rfl
      setLive_lock setLive_noff
  | swtch i hf =>
    subst hf
    obtain ⟨-, -, rfl, -⟩ := h.thread.idle_of_isSched hlive rfl
    exact h.switchIn hlive rfl rfl rfl rfl rfl rfl rfl rfl

theorem step_result {a : C × Choice n} (hstep : m.step a = some m') :
    ∃ f rest op, m.panic = none ∧ m.live a.1 = f :: rest ∧ m.code a.1 f a.2 = some op ∧
      Result m a.1 f rest op m' := by
  unfold step at hstep
  split_ifs at hstep with hpanic
  split at hstep
  · cases hstep
  · rename_i f rest hlive
    obtain ⟨op, hop, hexec⟩ := Option.bind_eq_some_iff.mp hstep
    refine ⟨f, rest, op, not_not.mp hpanic, hlive, hop,
      code_result (h.thread.top_self hlive) (fun hnoff => ?_) hop hexec⟩
    have hlen := h.lock.noff_eq a.1
    rw [hnoff, held_of_live hlive] at hlen
    exact (List.append_eq_nil_iff.mp (List.length_eq_zero_iff.mp hlen.symm)).1

theorem step {a : C × Choice n} (hstep : m.step a = some m') : SwitchInv m' := by
  obtain ⟨f, rest, op, -, hlive, -, hres⟩ := h.step_result hstep
  exact h.result hlive hres

end

variable [NeZero n]
omit [DecidableEq C]

theorem boot_kstack {k : Frame n} (hk : k ∈ (Machine.boot : Machine C n).kstack p) : k = .forkret p := by
  simp only [Machine.boot] at hk
  split_ifs at hk
  · exact List.mem_singleton.mp hk
  · cases hk

theorem boot : SwitchInv (Machine.boot : Machine C n) := by
  have hlive : ∀ c, (Machine.boot : Machine C n).live c = [.schedTop] := fun _ => rfl
  have hbuilds : ∀ q, stackBuilds ((Machine.boot : Machine C n).kstack q) = [] := by
    intro q
    simp only [Machine.boot]
    split_ifs <;> rfl
  have hkstack : ∀ q, ∀ k ∈ (Machine.boot : Machine C n).kstack q, k = .forkret q :=
    fun q k hk => boot_kstack hk
  refine ⟨⟨fun c l => ?_, fun c => ?_, fun c => ?_⟩, ⟨fun c p hc => (by cases hc),
    fun c p hc => (by cases hc), fun c _ => .single rfl, fun c d p hc => (by cases hc),
    fun p k hk q hq => ?_, fun p k hk => ?_, fun p => ?_⟩,
    ⟨fun p hp => ?_, fun c p hc => (by cases hc), fun c p gs hc => ?_, fun p _ ht => ?_⟩,
    fun p i hi => ?_, fun p k hk i hi => ?_, fun p => ?_, fun p q i hp => ?_⟩
  · rw [held_of_live (hlive c)]
    simp [Machine.boot, Frame.locks]
  · rw [held_of_live (hlive c)]
    exact List.nodup_nil
  · rw [held_of_live (hlive c)]
    rfl
  · rw [hkstack p k hk] at hq
    exact (Option.some.inj hq).symm
  · rw [hkstack p k hk]
    rfl
  · simp only [Machine.boot]
    split_ifs
    · exact callersOk_forkret p
    · trivial
  · by_cases hpi : p = initproc
    · subst hpi
      simp [Machine.boot] at hp
    · simp [Machine.boot, hpi, Proc.zero] at hp
  · rw [hlive] at hc
    cases hc
  · by_cases hpi : p = initproc
    · subst hpi
      simp only [Machine.boot, if_true]
      exact ⟨trivial, parked_forkret _⟩
    · simp [Machine.boot, hpi, Proc.zero, HasThread] at ht
  · rw [hbuilds] at hi
    cases hi
  · rw [hkstack p k hk] at hi
    cases hi
  · rw [hbuilds]
    exact List.nodup_nil
  · rw [hbuilds] at hp
    cases hp

end SwitchInv

variable [NeZero n]

theorem switchInv_run {as : List (C × Choice n)} (hrun : Run.exec step boot as = some m) :
    SwitchInv m :=
  Run.exec_invariant (fun _ _ _ h _ hstep => h.step hstep) hrun Run.along_true
    SwitchInv.boot

/-! ### What holds in every state -/

/-- An operation of CPU `c` changes the stack of a process that `c` does not run only when `allocproc`
starts it afresh. -/
theorem SwitchInv.kstack_of_ne (h : SwitchInv m) {op : Op n} (hlive : m.live c = f :: rest)
    (hres : Result m c f rest op m') (hp : m.running c ≠ some p) :
    m'.kstack p = m.kstack p ∨ (∃ q, f = .forkAlloc q p) ∧ m'.kstack p = [.forkret p] := by
  cases hres with
  | fail => exact Or.inl rfl
  | quiet | acquire | release | exitUnlockWait | wake | sched q g => exact Or.inl (setLive_kstack_of_ne hp)
  | store e fs ev hst =>
    cases hst with
    | newContext q np =>
      have hset : (((m.store c (.newContext np)).setLive c ([.forkCopy q np] ++ rest)).log
          ev).kstack p = (m.store c (.newContext np)).kstack p :=
        setLive_kstack_of_ne hp
      rw [hset]
      by_cases hnp : p = np
      · subst hnp
        exact Or.inr ⟨⟨q, rfl⟩, update_self ..⟩
      · exact Or.inl (update_of_ne hnp ..)
    | _ => exact Or.inl (setLive_kstack_of_ne hp)
  | swtch i hf =>
    subst hf
    refine Or.inl ?_
    show update m.kstack i (m.context i) p = m.kstack p
    rw [(h.chosen_parked hlive).2.2.1, update_eq_self]

/-- A step changes the stack of a process that is on no CPU only when `allocproc` starts it afresh. -/
theorem SwitchInv.kstack_off (h : SwitchInv m) {a : C × Choice n} (hstep : m.step a = some m')
    (hoff : ∀ c, m.running c ≠ some p) :
    m'.kstack p = m.kstack p ∨ (m.proc p).state = .USED ∧ m'.kstack p = [.forkret p] := by
  obtain ⟨f, rest, op, -, hlive, -, hres⟩ := h.step_result hstep
  refine (h.kstack_of_ne hlive hres (hoff a.1)).imp id fun ⟨⟨q, hf⟩, hk⟩ => ⟨?_, hk⟩
  subst hf
  exact (h.builds_off hlive rfl rfl).1

/-- A step after which CPU `c` runs process `p` and before which it did not is the `swtch` of
`scheduler`. -/
theorem SwitchInv.entered (h : SwitchInv m) {a : C × Choice n} (hstep : m.step a = some m')
    (hbefore : m.running c ≠ some p) (hafter : m'.running c = some p) :
    m'.kstack p = m.context p ∧ m.context p = m.kstack p := by
  obtain ⟨f, rest, op, -, hlive, -, hres⟩ := h.step_result hstep
  cases hres with
  | fail => exact absurd hafter hbefore
  | quiet | acquire | release | exitUnlockWait | wake =>
    simp only [log, setLive_running] at hafter
    exact absurd hafter hbefore
  | store e fs ev hst =>
    simp only [log, setLive_running] at hafter
    cases hst <;> exact absurd hafter hbefore
  | sched q g =>
    by_cases hc : c = a.1
    · subst hc
      simp at hafter
    · simp only [update_of_ne hc] at hafter
      exact absurd hafter hbefore
  | swtch i hf =>
    subst hf
    have hctx := (h.chosen_parked hlive).2.2.1
    by_cases hc : c = a.1
    · subst hc
      simp only [update_self, Option.some.injEq] at hafter
      subst hafter
      exact ⟨update_self .., hctx⟩
    · simp only [update_of_ne hc] at hafter
      exact absurd hafter hbefore

/-- A process runs on at most one CPU, and what is saved of it while it runs on none. -/
structure OneCpu (m : Machine C n) : Prop where
  /-- no two CPUs have the same process in `c->proc` -/
  cproc_inj : ∀ c d p, m.cproc c = some p → m.cproc d = some p → c = d
  /-- a process in state `RUNNING` is `c->proc` of exactly one CPU -/
  running : ∀ p, (m.proc p).state = .RUNNING → ∃! c, m.cproc c = some p
  /-- if `p->lock` is free and `p` is `RUNNABLE` or `SLEEPING`, no CPU is on its kernel stack and
  `p->context` is that stack, which was left in `sched` or starts at `forkret` -/
  saved : ∀ p, m.lock (.proc p) = none →
    (m.proc p).state = .RUNNABLE ∨ (m.proc p).state = .SLEEPING →
    (∀ c, m.running c ≠ some p) ∧ m.context p = m.kstack p ∧
      ∃ f rest, m.kstack p = f :: rest ∧ f.resumes = true
  /-- `swtch` into a process resumes the stack it has -/
  resumed : ∀ c p a m', m.step a = some m' → m.running c ≠ some p → m'.running c = some p →
    m'.kstack p = m.context p ∧ m.context p = m.kstack p
  /-- the stack of a process that is on no CPU stays as it is, unless `allocproc` starts it at
  `forkret` -/
  kept : ∀ p a m', m.step a = some m' → (∀ c, m.running c ≠ some p) →
    m'.kstack p = m.kstack p ∨ (m.proc p).state = .USED ∧ m'.kstack p = [.forkret p]

/-- **A process runs on at most one CPU**: in every run of any number of CPUs and processes. -/
theorem one_cpu (as : List (C × Choice n)) (m : Machine C n)
    (hrun : Run.exec step boot as = some m) : OneCpu m := by
  have h := switchInv_run hrun
  refine ⟨h.thread.cproc_inj, fun p hp => ?_, fun p hfree hp => ?_,
    fun c p a m' hstep hbefore hafter => h.entered hstep hbefore hafter,
    fun p a m' hstep hoff => h.kstack_off hstep hoff⟩
  · obtain ⟨c, hc⟩ := h.state.running_state p hp
    exact ⟨c, hc, fun d hd => h.thread.cproc_inj d c p hd hc⟩
  · have hoff : ∀ c, m.running c ≠ some p := fun c hc => by
      rcases h.state.cproc_state c p (h.thread.running_cproc c p hc) with hr | ⟨hl, -⟩
      · rcases hp with hp | hp <;> rw [hp] at hr <;> cases hr
      · rw [hl.lock h.lock] at hfree
        cases hfree
    have hthread : HasThread (m.proc p).state := by
      rcases hp with hp | hp <;> simp [HasThread, hp]
    obtain ⟨hctx, hparked⟩ := h.state.parked p hoff hthread
    obtain ⟨f, rest, hstack, hf, -⟩ := hparked.top
    exact ⟨hoff, hctx, f, rest, hstack, hf⟩

/-- CPU `false` starts the first process, which forks; CPU `true` starts the child. -/
def forkRun : List (Bool × Choice 2) :=
  List.replicate 5 (false, .go) ++ (false, .fork) :: List.replicate 14 (false, .go) ++
    List.replicate 8 (true, .go)

theorem one_cpu_forkRun :
    ∃ m, Run.exec step boot forkRun = some m ∧ m.running false = some 0 ∧
      m.running true = some 1 ∧ OneCpu m := by
  have hrun : (Run.exec step boot forkRun).map (fun m => (m.running false, m.running true)) =
      some (some 0, some 1) := by decide +kernel
  obtain ⟨m, hm, hrunning⟩ := Option.map_eq_some_iff.mp hrun
  rw [Prod.mk.injEq] at hrunning
  exact ⟨m, hm, hrunning.1, hrunning.2, one_cpu forkRun m hm⟩

end Xv6.Machine
