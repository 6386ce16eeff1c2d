import Xv6.Proc.History

/-!
# exit, wait and reparent

A call of `wait` reaps at most one child and returns its pid, or it returns -1 and has reaped none.
-/

namespace Xv6

namespace ProcEvent

variable {n : Nat}

/-- A call of `wait` by slot `p` ends. -/
def returnsFrom (p : Fin n) : ProcEvent n → Bool
  | .waitRet q _ => q = p
  | _ => false

/-- `wait` of slot `p` reaps a child or fails to copy out its status. -/
def inWait (p : Fin n) : ProcEvent n → Bool
  | .reaped q _ _ _ _ | .copyoutFailed q _ => q = p
  | _ => false

end ProcEvent

/-- What `wait` of slot `p` has done with children since its last return. -/
def waitEvents {n : Nat} (p : Fin n) : List (ProcEvent n) → List (ProcEvent n)
  | [] => []
  | e :: t =>
    if e.returnsFrom p then []
    else if e.inWait p then e :: waitEvents p t
    else waitEvents p t

section

variable {n : Nat} {p : Fin n} {t u : List (ProcEvent n)} {e : ProcEvent n}

theorem waitEvents_append (hu : ∀ e ∈ u, e.returnsFrom p = false ∧ e.inWait p = false) :
    waitEvents p (u ++ t) = waitEvents p t := by
  induction u with
  | nil => rfl
  | cons e u ih =>
    obtain ⟨hret, hin⟩ := hu e List.mem_cons_self
    rw [List.cons_append, waitEvents, hret, hin]
    exact ih fun e' he' => hu e' (List.mem_cons_of_mem _ he')

theorem mem_of_mem_waitEvents (h : e ∈ waitEvents p t) : e ∈ t := by
  induction t with
  | nil => cases h
  | cons e' t ih =>
    rw [waitEvents] at h
    split_ifs at h
    · cases h
    · rcases List.mem_cons.mp h with rfl | h
      · exact List.mem_cons_self
      · exact List.mem_cons_of_mem _ (ih h)
    · exact List.mem_cons_of_mem _ (ih h)

end

def Frame.waitEnd {n : Nat} : Frame n → Bool
  | .waitReaped _ _ _ | .waitFail _ _ | .waitRet _ _ => true
  | _ => false

theorem Frame.wait_of_waitEnd {n : Nat} {g : Frame n} (h : g.waitEnd = true) : .wait ∈ g.locks := by
  cases g with
  | waitReaped | waitFail | waitRet => simp [Frame.locks]
  | _ => cases h

namespace Machine

variable {C : Type} [DecidableEq C] {n : Nat} [NeZero n] {m m' : Machine C n} {c d : C}
  {f g h : Frame n} {fs rest gs : List (Frame n)} {p q i j : Fin n} {op : Op n} {r : Int32}

/-- Why `wait` of slot `p` returns -1: it has reaped no child, and `p` has no children, was killed, or
could not copy out the status of a child, which stays a `ZOMBIE`. -/
def WaitFails (m : Machine C n) (p : Fin n) : Prop :=
  (waitEvents p m.trace = [] ∧ (NoChild m p n ∨ (m.proc p).killed = true)) ∨
    ∃ i, waitEvents p m.trace = [.copyoutFailed p (m.life i)] ∧ (m.proc i).parent = some p ∧
      (m.proc i).state = .ZOMBIE

/-- What `wait` of slot `p` has done when it returns `r`. -/
def WaitReturns (m : Machine C n) (p : Fin n) (r : Int32) : Prop :=
  (∃ a b st, waitEvents p m.trace = [.reaped p a b r st]) ∨ r = -1 ∧ WaitFails m p

/-- What `wait` has done at a position. -/
def WaitAt (m : Machine C n) : Frame n → Prop
  | .waitReaped p _ pid => ∃ a b st, waitEvents p m.trace = [.reaped p a b pid st]
  | .waitFail p i => waitEvents p m.trace = [.copyoutFailed p (m.life i)]
  | .waitKilledUnlock p _ killed => killed = true → (m.proc p).killed = true
  | .waitRet p r => WaitReturns m p r
  | _ => True

structure WaitInv (m : Machine C n) : Prop where
  ends : ∀ p, waitEvents p m.trace ≠ [] → ∃ g ∈ m.kstack p, g.waitEnd = true
  frames : ∀ p, ∀ g ∈ m.kstack p, WaitAt m g

theorem Store.killed {e : Effect n} (h : Store m f e fs) (hj : (m.proc j).killed = true)
    (hj' : ((m.store c e).proc j).killed ≠ true) :
    (∃ p addr, f = .waitTest p addr j) ∨ f.builds = some j := by
  by_cases hs : e.slot = some j
  · rw [store_proc_self hs] at hj'
    cases h with cases hs
    | reap p addr i => exact Or.inl ⟨p, addr, rfl⟩
    | undo p np f hf => rcases hf with rfl | rfl <;> exact Or.inr rfl
    | wakeup ch i =>
      simp only [stored, Proc.wakeup] at hj'
      split_ifs at hj' <;> exact absurd hj hj'
    | kill | setkilled => exact absurd rfl hj'
    | _ => exact absurd hj hj'
  · rw [store_proc_of_ne hs] at hj'
    exact absurd hj hj'

namespace Does

variable (hd : Does m c f rest op m')

include hd

theorem stays (hi : SleepInv m) (hg : g ∈ m.kstack p)
    (hw : .wait ∈ g.locks) : g ∈ m'.kstack p ∨ m.running c = some p ∧ g = f := by
  by_cases hrun : m.running c = some p
  · rw [hd.kstack_eq hrun] at hg
    rcases List.mem_cons.mp hg with rfl | hrest
    · exact Or.inr ⟨hrun, rfl⟩
    · refine Or.inl ?_
      rcases hd.kstack_self hrun with hk | ⟨_, _, _, e, es, -, -, rfl, he, hk⟩
      · rw [hk]
        exact List.mem_append_right _ hrest
      · rw [hk]
        rcases List.mem_cons.mp hrest with rfl | hrest
        · cases g with
          | code k held => simp [Frame.locks] at hw
          | waitAgain => cases hw
          | _ => exact he.elim
        · exact List.mem_cons_of_mem _ hrest
  · refine Or.inl ?_
    rcases hd.kstack_of_ne hrun with hk | ⟨⟨q, rfl⟩, -⟩
    · rwa [hk]
    · -- the slot that `fork` builds runs on no CPU
      obtain ⟨d, hp, -⟩ := hi.holder hd.inv (List.mem_flatMap.mpr ⟨_, hg, hw⟩) (by simp)
      exact absurd (hd.inv.thread.running_cproc d p hp) (hd.inv.state.no_cproc_of_not_hasThread
        (by simp [HasThread, hd.used_of_builds rfl]) d)

theorem wait_unique (hrun : m.running c = some p)
    (hf : .wait ∈ f.locks) (hg : g ∈ m.kstack p) (hw : .wait ∈ g.locks) : g = f := by
  rw [hd.kstack_eq hrun] at hg
  refine (List.mem_cons.mp hg).resolve_right fun hrest => ?_
  have hnodup := hd.inv.lock.nodup c
  rw [held_of_live hd.live] at hnodup
  exact (List.nodup_append.mp hnodup).2.2 _ hf _ (List.mem_flatMap.mpr ⟨g, hrest, hw⟩) rfl

theorem waitEvents_eq (htest : ∀ addr i, f ≠ .waitTest p addr i)
    (hret : ∀ r, f ≠ .waitRet p r) : waitEvents p m'.trace = waitEvents p m.trace := by
  rw [hd.trace]
  refine waitEvents_append fun e he => ?_
  have hlogs := hd.logs he
  cases e with
  | waitRet q r =>
    refine ⟨decide_eq_false ?_, rfl⟩
    rintro rfl
    exact hret r hlogs.1
  | reaped q a b pid st =>
    refine ⟨rfl, decide_eq_false ?_⟩
    rintro rfl
    obtain ⟨addr, i, hf, -⟩ := hlogs
    exact htest addr i hf
  | copyoutFailed q b =>
    refine ⟨rfl, decide_eq_false ?_⟩
    rintro rfl
    obtain ⟨i, hf, -⟩ := hlogs
    exact htest true i hf
  | _ => exact ⟨rfl, rfl⟩

theorem mem_kstack_of_frames (hrun : m.running c = some p)
    (hg : g ∈ op.frames) : g ∈ m'.kstack p := by
  rcases hd.kstack_self hrun with hk | ⟨_, _, _, _, _, -, rfl, -⟩
  · rw [hk]
    exact List.mem_append_left _ hg
  · cases hg

theorem killed_kept (hi : SleepInv m) (hg : g ∈ m.kstack p)
    (hw : .wait ∈ g.locks) (hf : .wait ∉ f.locks ∨ ∀ q addr i, f ≠ .waitTest q addr i)
    (hk : (m.proc p).killed = true) : (m'.proc p).killed = true := by
  by_contra hne
  rcases hd.proc with heq | ⟨e, fs, ev, -, hst, heq⟩
  · exact hne (heq ▸ hk)
  · rw [heq] at hne
    rcases hst.killed hk hne with ⟨q, addr, rfl⟩ | hbuilds
    · rcases hf with hf | hf
      · exact hf (by simp [Frame.locks])
      · exact hf q addr p rfl
    · obtain ⟨d, hp, -⟩ := hi.holder hd.inv (List.mem_flatMap.mpr ⟨g, hg, hw⟩) (by simp)
      exact absurd (hd.inv.thread.running_cproc d p hp) (hd.inv.state.no_cproc_of_not_hasThread
        (by simp [HasThread, hd.used_of_builds hbuilds]) d)

end Does

namespace WaitInv

theorem waitEvents_nil (hw : WaitInv m) (hd : Does m c f rest op m') (hrun : m.running c = some p)
    (hf : .wait ∈ f.locks) (hend : f.waitEnd = false) : waitEvents p m.trace = [] := by
  by_contra hne
  obtain ⟨g, hg, hge⟩ := hw.ends p hne
  rw [hd.wait_unique hrun hf hg (Frame.wait_of_waitEnd hge), hend] at hge
  cases hge

theorem ends_step (hw : WaitInv m) (hi : SleepInv m) (hd : Does m c f rest op m')
    (hne : waitEvents p m'.trace ≠ []) : ∃ g ∈ m'.kstack p, g.waitEnd = true := by
  by_cases htest : ∃ addr i, f = .waitTest p addr i
  · obtain ⟨addr, i, rfl⟩ := htest
    have hrun := hd.inv.thread.running_of_self hd.live rfl
    have hnil := hw.waitEvents_nil hd hrun (by simp [Frame.locks]) rfl
    obtain ⟨ok, htext⟩ := hd.text_of_locks (by simp [Frame.locks]) (by simp)
    simp only [text, waitTest, Option.some.injEq] at htext
    split_ifs at htext <;> subst htext
    · exact ⟨_, hd.mem_kstack_of_frames hrun List.mem_cons_self, rfl⟩
    · exact ⟨_, hd.mem_kstack_of_frames hrun List.mem_cons_self, rfl⟩
    · rw [hd.trace] at hne
      exact absurd hnil hne
  · by_cases hret : ∃ r, f = .waitRet p r
    · obtain ⟨r, rfl⟩ := hret
      obtain ⟨ok, htext⟩ := hd.text_of_locks (by simp [Frame.locks]) (by simp)
      simp only [text, Option.some.injEq] at htext
      subst htext
      rw [hd.trace] at hne
      simp [Op.events, waitEvents, ProcEvent.returnsFrom] at hne
    · rw [hd.waitEvents_eq (fun addr i hf => htest ⟨addr, i, hf⟩) (fun r hf => hret ⟨r, hf⟩)] at hne
      obtain ⟨g, hg, hend⟩ := hw.ends p hne
      rcases hd.stays hi hg (Frame.wait_of_waitEnd hend) with hmem | ⟨hrun, rfl⟩
      · exact ⟨g, hmem, hend⟩
      · have hself := hd.inv.thread.self p g hg
        obtain ⟨ok, htext⟩ := hd.text_of_locks
          (List.ne_nil_of_mem (Frame.wait_of_waitEnd hend)) (by rintro k held rfl; cases hend)
        cases g with
        | waitReaped q i pid | waitFail q i =>
          simp only [text, Option.some.injEq] at htext
          subst htext
          exact ⟨_, hd.mem_kstack_of_frames hrun List.mem_cons_self, rfl⟩
        | waitRet q r =>
          obtain rfl := hself q rfl
          exact absurd ⟨r, rfl⟩ hret
        | _ => cases hend

theorem waitAt_kept (hi : SleepInv m) (hfam : FamilyInv m) (hd : Does m c f rest op m')
    (hkept : Kept m c f rest op p g) (hat : WaitAt m g) : WaitAt m' g := by
  have hmem := hd.mem_of_kept hkept
  have hself := hd.inv.thread.self p g hmem
  have hwf : .wait ∈ g.locks → .wait ∉ f.locks := fun hw hf => hd.kept_exclusive hi hkept hw hf hw
  have hev : .wait ∈ g.locks → waitEvents p m'.trace = waitEvents p m.trace := fun hw =>
    hd.waitEvents_eq (by rintro addr i rfl; exact hwf hw (by simp [Frame.locks]))
      (by rintro r rfl; exact hwf hw (by simp [Frame.locks]))
  have hkilled : .wait ∈ g.locks → (m.proc p).killed = true → (m'.proc p).killed = true :=
    fun hw hk => hd.killed_kept hi hmem hw (Or.inl (hwf hw)) hk
  cases g with
  | waitReaped q i pid =>
    obtain rfl := hself q rfl
    obtain ⟨a, b, st, h⟩ := hat
    exact ⟨a, b, st, (hev (by simp [Frame.locks])).trans h⟩
  | waitFail q i =>
    obtain rfl := hself q rfl
    have hz := (hfam.frames q _ hmem).2
    exact (hev (by simp [Frame.locks])).trans (by rw [hd.life_eq (by rw [hz]; simp)]; exact hat)
  | waitKilledUnlock q addr k =>
    obtain rfl := hself q rfl
    exact fun hk => hkilled (by simp [Frame.locks]) (hat hk)
  | waitRet q r =>
    obtain rfl := hself q rfl
    have hw : .wait ∈ (Frame.waitRet q r).locks := by simp [Frame.locks]
    rcases hat with ⟨a, b, st, h⟩ | ⟨rfl, ⟨hnil, hno | hk⟩ | ⟨i, h, hparent, hz⟩⟩
    · exact Or.inl ⟨a, b, st, (hev hw).trans h⟩
    · exact Or.inr ⟨rfl, Or.inl ⟨(hev hw).trans hnil, Or.inl (hd.noChild_step (hwf hw) hno)⟩⟩
    · exact Or.inr ⟨rfl, Or.inl ⟨(hev hw).trans hnil, Or.inr (hkilled hw hk)⟩⟩
    · refine Or.inr ⟨rfl, Or.inr ⟨i, (hev hw).trans ?_, ?_, ?_⟩⟩
      · rw [hd.life_eq (by rw [hz]; simp)]
        exact h
      · exact (hd.zombie_parent (hwf hw) hz).trans hparent
      · refine ((hd.zombie_kept hz).resolve_right ?_).1
        rintro ⟨-, q, addr, rfl⟩
        exact hwf hw (by simp [Frame.locks])
  | _ => trivial

theorem waitAt_enters (hw : WaitInv m) (hfam : FamilyInv m) (hd : Does m c f rest op m')
    (hrun : m.running c = some p) (henters : Enters m c f op g) : WaitAt m' g := by
  have htop : f ∈ m.kstack p := hd.kstack_eq hrun ▸ List.mem_cons_self
  have hat := hw.frames p f htop
  have hself := hd.inv.thread.self p f htop
  cases g with
  | waitReaped q i pid =>
    obtain ⟨addr, rfl, -, rfl, hop⟩ := henters
    obtain rfl := hself q rfl
    have hnil := hw.waitEvents_nil hd hrun (by simp [Frame.locks]) rfl
    refine ⟨m.life q, m.life i, (m.proc i).xstate, ?_⟩
    rw [hd.trace, hop]
    simp [Op.events, waitEvents, ProcEvent.returnsFrom, ProcEvent.inWait, hnil]
  | waitFail q i =>
    obtain ⟨rfl, -, hop⟩ := henters
    obtain rfl := hself q rfl
    have hnil := hw.waitEvents_nil hd hrun (by simp [Frame.locks]) rfl
    simp only [WaitAt]
    rw [hd.trace, hop, hd.life_of_logs (by simp)]
    simp [Op.events, waitEvents, ProcEvent.returnsFrom, ProcEvent.inWait, hnil]
  | waitKilledUnlock q addr k =>
    obtain ⟨rfl, rfl, hop⟩ := henters
    intro hk
    rwa [hd.proc_eq hop rfl]
  | waitRet q r =>
    have hev : (∀ addr i, f ≠ .waitTest p addr i) → (∀ r, f ≠ .waitRet p r) →
        waitEvents p m'.trace = waitEvents p m.trace := hd.waitEvents_eq
    have hfat := hfam.frames p f htop
    rcases henters with ⟨addr, i, hn, rfl, rfl, hop⟩ | ⟨i, rfl, rfl, hop⟩ | ⟨i, rfl, hop⟩ |
      ⟨addr, rfl, rfl, hop⟩
    · obtain rfl := hself q rfl
      have hnil := hw.waitEvents_nil hd hrun (by simp [Frame.locks]) rfl
      refine Or.inr ⟨rfl, Or.inl ⟨(hev (by simp) (by simp)).trans hnil, Or.inl ?_⟩⟩
      intro j hj
      rw [hd.proc_eq hop rfl]
      exact (hfat.2 rfl).mono hn j hj
    · obtain rfl := hself q rfl
      refine Or.inr ⟨rfl, Or.inr ⟨i, (hev (by simp) (by simp)).trans ?_, ?_⟩⟩
      · rw [hd.life_of_logs (by simp)]
        exact hat
      · rw [hd.proc_eq hop rfl]
        exact hfat
    · obtain rfl := hself q rfl
      obtain ⟨a, b, st, h⟩ := hat
      exact Or.inl ⟨a, b, st, (hev (by simp) (by simp)).trans h⟩
    · obtain rfl := hself q rfl
      have hnil := hw.waitEvents_nil hd hrun (by simp [Frame.locks]) rfl
      refine Or.inr ⟨rfl, Or.inl ⟨(hev (by simp) (by simp)).trans hnil, Or.inr ?_⟩⟩
      rw [hd.proc_eq hop rfl]
      exact hat rfl
  | _ => trivial

omit [DecidableEq C] [NeZero n] in
theorem waitAt_give {lk : Lock n} (h : g.accepts lk) : WaitAt m (g.give lk) := by
  cases g with
  | code k held =>
    obtain ⟨l, rfl⟩ := h
    trivial
  | waitAgain p addr => trivial
  | _ => exact h.elim

theorem does (hw : WaitInv m) (hi : SleepInv m) (hfam : FamilyInv m) (hd : Does m c f rest op m') :
    WaitInv m' := by
  refine ⟨fun p hne => hw.ends_step hi hd hne, fun p g hg => ?_⟩
  rcases hd.frame hg with hkept | ⟨hrun, -, henters⟩ | ⟨_, _, _, _, e, -, -, -, -, he, rfl⟩ |
    ⟨q, -, rfl⟩
  · exact waitAt_kept hi hfam hd hkept (hw.frames p g (hd.mem_of_kept hkept))
  · exact hw.waitAt_enters hfam hd hrun henters
  · exact waitAt_give he
  · trivial

omit [DecidableEq C] in
theorem boot : WaitInv (Machine.boot : Machine C n) := by
  refine ⟨fun p hne => absurd rfl hne, fun p g hg => ?_⟩
  rw [SwitchInv.boot_kstack hg]
  trivial

end WaitInv

/-! ### Every run -/

structure ProtocolInv (m : Machine C n) : Prop where
  wake : WakeInv m
  family : FamilyInv m
  zombie : ZombieInv m
  life : LifeInv m
  history : HistoryInv m
  wait : WaitInv m

namespace ProtocolInv

theorem does (h : ProtocolInv m) (hd : Does m c f rest op m') : ProtocolInv m' :=
  ⟨h.wake.does hd, h.family.does hd h.wake.sleep, h.zombie.does h.wake h.family hd, h.life.does hd,
    h.history.does hd h.life h.family, h.wait.does h.wake.sleep h.family hd⟩

omit [DecidableEq C] in
theorem fail (h : ProtocolInv m) (e : ProcPanic) : ProtocolInv (m.fail e) := by
  obtain ⟨⟨hswitch, hsleep, hwaking, hhold, hwoken⟩, ⟨f1, f2, f3⟩, ⟨z1, z2, z3⟩,
    ⟨l1, l2, l3, l4, l5⟩, ⟨h1, h2, h3, h4, h5, h6, h7, h8, h9, h10⟩, ⟨w1, w2⟩⟩ := h
  exact ⟨⟨hswitch.fail e, hsleep.fail e, hwaking, hhold, hwoken⟩, ⟨f1, f2, f3⟩, ⟨z1, z2, z3⟩,
    ⟨l1, l2, l3, l4, l5⟩, ⟨h1, h2, h3, h4, h5, h6, h7, h8, h9, h10⟩, ⟨w1, w2⟩⟩

theorem step (h : ProtocolInv m) {a : C × Choice n} (hstep : m.step a = some m') :
    ProtocolInv m' := by
  rcases h.wake.switch.does hstep with ⟨e, rfl⟩ | ⟨f, rest, op, hd⟩
  · exact h.fail e
  · exact h.does hd

omit [DecidableEq C] in
theorem boot : ProtocolInv (Machine.boot : Machine C n) :=
  ⟨WakeInv.boot, FamilyInv.boot, ZombieInv.boot, LifeInv.boot, HistoryInv.boot, WaitInv.boot⟩

end ProtocolInv

theorem protocolInv_run {as : List (C × Choice n)} (hrun : Run.exec Machine.step boot as = some m) :
    ProtocolInv m :=
  Run.exec_invariant (fun _ _ _ h _ hstep => h.step hstep) hrun Run.along_true
    ProtocolInv.boot

def Adds (m m' : Machine C n) (e : ProcEvent n) : Prop := ∃ u, m'.trace = u ++ m.trace ∧ e ∈ u

/-- The protocol of `fork`, `exit` and `wait`. -/
structure ExitWait (m : Machine C n) : Prop where
  /-- a process is reaped at most once -/
  once : (m.trace.filterMap ProcEvent.reapedChild).Nodup
  /-- `wait` reaps a `ZOMBIE` whose parent it is at this moment, and at most one in each call -/
  reaps : ∀ s m' p a b pid st, m.step s = some m' → Adds m m' (.reaped p a b pid st) →
    waitEvents p m.trace = [] ∧ a = m.life p ∧ ∃ i, b = m.life i ∧ pid = (m.proc i).pid ∧
      (m.proc i).parent = some p ∧ (m.proc i).state = .ZOMBIE
  /-- the process that reaps has forked the child or is `initproc`; it gets the pid that `fork`
  returned and the status that the child passed to `exit` -/
  reaped : ∀ p a b pid st, .reaped p a b pid st ∈ m.trace →
    (∃ a', .forked a' b pid ∈ m.trace ∧ (a' = a ∨ p = initproc) ∧
      ∀ a'' pid', .forked a'' b pid' ∈ m.trace → a'' = a' ∧ pid' = pid) ∧
    .exited b st ∈ m.trace ∧ ∀ st', .exited b st' ∈ m.trace → st' = st
  /-- `wait` returns the pid of the child that it has reaped, or -1 -/
  returns : ∀ s m' p r, m.step s = some m' → Adds m m' (.waitRet p r) → WaitReturns m p r
  /-- `wait` returns -1 only if it fails; `nextpid` is an `int` and has not overflowed -/
  fails : ∀ s m' p, m.step s = some m' → Adds m m' (.waitRet p (-1)) → m.births < 2 ^ 31 - 1 →
    WaitFails m p
  /-- a parent is in use and not a `ZOMBIE` -/
  parents : ∀ i q, (m.proc i).parent = some q →
    (m.proc q).state ≠ .UNUSED ∧ (m.proc q).state ≠ .ZOMBIE
  /-- no process sleeps in `wait` while it has a `ZOMBIE` child -/
  sleeping : m.lock .wait = none → ∀ q i, SleepsInWait m q → (m.proc i).parent = some q →
    (m.proc i).state ≠ .ZOMBIE

theorem SwitchInv.logs_of_adds (h : SwitchInv m) {a : C × Choice n} {e : ProcEvent n}
    (hstep : m.step a = some m') (hadds : Adds m m' e) :
    ∃ f rest op, Does m a.1 f rest op m' ∧ Logs m a.1 f op e := by
  obtain ⟨u, hu, he⟩ := hadds
  rcases h.does hstep with ⟨err, rfl⟩ | ⟨f, rest, op, hd⟩
  · have : u = [] := List.append_left_eq_self.mp hu.symm
    rw [this] at he
    cases he
  · rw [hd.trace] at hu
    exact ⟨f, rest, op, hd, hd.logs (List.append_cancel_right hu ▸ he)⟩

namespace ProtocolInv

theorem reaps (h : ProtocolInv m) (hd : Does m c f rest op m') {a b : Nat} {pid st : Int32}
    (hlogs : Logs m c f op (.reaped p a b pid st)) :
    waitEvents p m.trace = [] ∧ a = m.life p ∧ ∃ i, b = m.life i ∧ pid = (m.proc i).pid ∧
      (m.proc i).parent = some p ∧ (m.proc i).state = .ZOMBIE := by
  obtain ⟨addr, i, rfl, ha, hb, hpid, -, hz, -⟩ := hlogs
  have hrun := hd.inv.thread.running_of_self hd.live rfl
  have hat := h.family.frames p _ (hd.kstack_eq hrun ▸ List.mem_cons_self)
  exact ⟨h.wait.waitEvents_nil hd hrun (by simp [Frame.locks]) rfl, ha, i, hb, hpid, hat.2, hz⟩

omit [DecidableEq C] in
theorem reaped (h : ProtocolInv m) {a b : Nat} {pid st : Int32}
    (hmem : .reaped p a b pid st ∈ m.trace) :
    (∃ a', .forked a' b pid ∈ m.trace ∧ (a' = a ∨ p = initproc) ∧
      ∀ a'' pid', .forked a'' b pid' ∈ m.trace → a'' = a' ∧ pid' = pid) ∧
    .exited b st ∈ m.trace ∧ ∀ st', .exited b st' ∈ m.trace → st' = st := by
  obtain ⟨hexit, -, a', hfork, ha'⟩ := h.history.reaped p a b pid st hmem
  refine ⟨⟨a', hfork, ha', fun a'' pid' hfork' => ?_⟩, hexit, fun st' hexit' => ?_⟩
  · have := eq_of_nodup_filterMap h.history.forks hfork' hfork rfl rfl
    exact ⟨by cases this; rfl, by cases this; rfl⟩
  · have := eq_of_nodup_filterMap h.history.exits hexit' hexit rfl rfl
    cases this
    rfl

theorem returns (h : ProtocolInv m) (hd : Does m c f rest op m')
    (hlogs : Logs m c f op (.waitRet p r)) : WaitReturns m p r := by
  obtain ⟨rfl, -⟩ := hlogs
  have hrun := hd.inv.thread.running_of_self hd.live rfl
  exact h.wait.frames p _ (hd.kstack_eq hrun ▸ List.mem_cons_self)

omit [DecidableEq C] in
theorem fails (h : ProtocolInv m) (hret : WaitReturns m p (-1)) (hb : m.births < 2 ^ 31 - 1) :
    WaitFails m p := by
  rcases hret with ⟨a, b, st, hev⟩ | ⟨-, hfails⟩
  · have hmem : .reaped p a b (-1) st ∈ m.trace :=
      mem_of_mem_waitEvents (by rw [hev]; exact List.mem_cons_self)
    have hpid := (h.history.reaped p a b (-1) st hmem).2.1
    have hlt := h.history.bound _ hmem b rfl
    have := congrArg Int32.toInt hpid
    rw [Int32.toInt_ofNat_of_lt (by omega)] at this
    simp at this
    omega
  · exact hfails

end ProtocolInv

/-- **exit, wait and reparent**: in every run of any number of CPUs and processes. -/
theorem exit_wait (as : List (C × Choice n)) (m : Machine C n)
    (hrun : Run.exec Machine.step boot as = some m) : ExitWait m := by
  have h := protocolInv_run hrun
  refine ⟨h.history.reaps, fun s m' p a b pid st hstep hadds => ?_, fun p a b pid st => h.reaped,
    fun s m' p r hstep hadds => ?_, fun s m' p hstep hadds hb => ?_, fun i q hq => ?_,
    fun hfree q i hsleep hq hz => ?_⟩
  · obtain ⟨f, rest, op, hd, hlogs⟩ := h.wake.switch.logs_of_adds hstep hadds
    exact h.reaps hd hlogs
  · obtain ⟨f, rest, op, hd, hlogs⟩ := h.wake.switch.logs_of_adds hstep hadds
    exact h.returns hd hlogs
  · obtain ⟨f, rest, op, hd, hlogs⟩ := h.wake.switch.logs_of_adds hstep hadds
    exact h.fails (h.returns hd hlogs) hb
  · rcases h.family.alive i q hq with hs | hs | hs <;> simp [hs]
  · exact h.zombie.not_sleepsInWait h.wake hfree hq hz hsleep

/-- The child of `forkRun` exits with status 7 and its parent waits for it. -/
def reapRun : List (Bool × Choice 2) :=
  forkRun ++ [(true, .exit 7), (true, .ret)] ++ List.replicate 16 (true, .go) ++
    (false, .wait true) :: List.replicate 6 (false, .go)

theorem exit_wait_reapRun :
    ∃ m, Run.exec Machine.step boot reapRun = some m ∧
      .waitRet 0 2 ∈ m.trace ∧ .reaped 0 0 1 2 7 ∈ m.trace ∧ ExitWait m := by
  have hrun : (Run.exec Machine.step boot reapRun).map (fun m => m.trace.take 4) =
      some [.waitRet 0 2, .released (some 0) .wait, .released (some 0) (.proc 1),
        .reaped 0 0 1 2 7] := by decide +kernel
  obtain ⟨m, hm, ht⟩ := Option.map_eq_some_iff.mp hrun
  have hmem : ∀ e ∈ m.trace.take 4, e ∈ m.trace := fun e => List.mem_of_mem_take
  rw [ht] at hmem
  exact ⟨m, hm, hmem _ (by simp), hmem _ (by simp), exit_wait reapRun m hm⟩

end Machine

end Xv6
