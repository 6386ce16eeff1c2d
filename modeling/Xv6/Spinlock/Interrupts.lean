import Xv6.Spinlock.PushOff

/-!
# Interrupts are off between push_off and pop_off

`push_off` tests `mycpu()->noff` before it turns interrupts off. As long as no thread is moved to
another CPU between `mycpu()` and the load of `noff`, or the CPU that it was moved from has `noff = 0`
at the load, the counter of each CPU is the number of unmatched calls of `push_off` of the thread that
it runs, and interrupts are off while this number is not 0. A thread that is moved away from a CPU
which then takes a lock leaves interrupts on.
-/

namespace Xv6

def IntrPos.interruptible {C : Type} : IntrPos C → Bool
  | .out | .pushGet | .pushTp _ | .pushTest _ _ | .pushIntrOff _ => true
  | _ => false

/-- What holds at a position of a thread on CPU `c` whose record is `k`. -/
def IntrPos.Ok {C : Type} (c : C) (k : IntrCpu) : IntrPos C → Prop
  | .out | .pushGet | .pushTp _ => True
  | .pushTest _ id => k.sie = false → id = c
  | .pushIntrOff _ => k.noff = 0
  | .pushIntenaTp _ | .popIntrOn => k.sie = false ∧ k.noff = 0
  | .pushIntena _ id | .popIntena id => k.sie = false ∧ k.noff = 0 ∧ id = c
  | .pushNoffTp | .resume _ => k.sie = false
  | .pushLoad id | .popNoff id => k.sie = false ∧ id = c
  | .pushStore id noff => k.sie = false ∧ id = c ∧ noff = k.noff
  | .popTp => k.sie = false ∧ 0 < k.noff
  | .popGet id | .popTest id | .popLoad id => k.sie = false ∧ 0 < k.noff ∧ id = c
  | .popStore id noff => k.sie = false ∧ 0 < k.noff ∧ id = c ∧ noff = k.noff

theorem IntrPos.Ok.interruptible {C : Type} {c : C} {k : IntrCpu} {pos : IntrPos C}
    (h : pos.Ok c k) (hsie : k.sie = true) : pos.interruptible = true := by
  cases pos <;> first | rfl | simp_all [IntrPos.Ok]

theorem IntrPos.ok_of_interruptible {C : Type} {c : C} {k : IntrCpu} {pos : IntrPos C}
    (h : pos.interruptible = true) (hsie : k.sie = true) (hnoff : k.noff = 0) : pos.Ok c k := by
  cases pos with
  | out | pushGet | pushTp => trivial
  | pushTest old id => exact fun hoff => by simp [hsie] at hoff
  | pushIntrOff => exact hnoff
  | _ => cases h

/-- The traps of a thread came while it had no unmatched `push_off`. -/
def IntrThread.TrapsOk {C : Type} (x : IntrThread C) : Prop :=
  ∀ t ∈ x.traps, t.1.interruptible = true ∧ t.2 = 0

/-- A thread that runs on CPU `c` with record `k`. -/
structure IntrThread.Ok {C : Type} (c : C) (k : IntrCpu) (x : IntrThread C) : Prop where
  noff : k.noff = x.depth
  sie : k.sie = true → x.depth = 0
  pos : x.pos.Ok c k
  traps : x.TrapsOk

namespace IntrMachine

variable {C P : Type} [DecidableEq C] [DecidableEq P] {m m' : IntrMachine C P} {c d : C} {p : P}
  {x : IntrThread C} {k : IntrCpu} {e : IntrPanic}

@[simp] theorem setThread_cpu : (m.setThread c x).cpu = m.cpu := by unfold setThread; split <;> rfl
@[simp] theorem setThread_cur : (m.setThread c x).cur = m.cur := by unfold setThread; split <;> rfl
@[simp] theorem setThread_off : (m.setThread c x).off = m.off := by unfold setThread; split <;> rfl
@[simp] theorem setThread_panic : (m.setThread c x).panic = m.panic := by unfold setThread; split <;> rfl

theorem thread_setThread_self : (m.setThread c x).thread c = x := by
  unfold thread
  rw [setThread_cur]
  unfold setThread
  split <;> exact Function.update_self ..

/-- A process runs on one CPU, a process that waits for a scheduler on none. -/
structure Placed (m : IntrMachine C P) : Prop where
  inj : ∀ c d p, m.cur c = some p → m.cur d = some p → c = d
  on : ∀ c p, m.cur c = some p → m.off p = false

theorem thread_setThread_of_ne (h : Placed m) (hd : d ≠ c) :
    (m.setThread c x).thread d = m.thread d := by
  unfold thread
  unfold setThread
  cases hc : m.cur c with
  | none =>
    cases hcur : m.cur d with
    | none => exact Function.update_of_ne hd ..
    | some q => rfl
  | some p =>
    cases hcur : m.cur d with
    | none => rfl
    | some q =>
      refine Function.update_of_ne ?_ ..
      rintro rfl
      exact hd (h.inj d c q hcur hc)

structure IntrInv (m : IntrMachine C P) : Prop where
  placed : Placed m
  running : ∀ c, (m.thread c).Ok c (m.cpu c)
  waiting : ∀ p, m.off p = true → (m.proc p).depth = 0 ∧ (m.proc p).TrapsOk ∧
    ((m.proc p).pos = .out ∨ ∃ intena, (m.proc p).pos = .resume intena)
  idle : ∀ c p, m.cur c = some p → m.sched c = ⟨.out, 0, []⟩
  panic : m.panic ≠ some .popInterruptible ∧ m.panic ≠ some .popOff

/-- The process that goes on with the load of `noff` in the test of `push_off`, with interrupts on,
has not been moved since it called `mycpu()`, or the CPU that it called it on has `noff = 0`. -/
def Unmoved (m : IntrMachine C P) : IntrAct C P → Prop
  | .step c =>
    match (m.thread c).pos with
    | .pushTest _ id => (m.cpu c).sie = true → id = c ∨ (m.cpu id).noff = 0
    | _ => True
  | _ => True

instance (m : IntrMachine C P) (a : IntrAct C P) : Decidable (Unmoved m a) :=
  match a with
  | .step c =>
    match h : (m.thread c).pos with
    | .pushTest _ id =>
      decidable_of_iff ((m.cpu c).sie = true → id = c ∨ (m.cpu id).noff = 0) (by simp [Unmoved, h])
    | .out | .pushGet | .pushTp _ | .pushIntrOff _ | .pushIntenaTp _ | .pushIntena _ _ | .pushNoffTp
    | .pushLoad _ | .pushStore _ _ | .popTp | .popGet _ | .popTest _ | .popLoad _ | .popStore _ _
    | .popNoff _ | .popIntena _ | .popIntrOn | .resume _ => isTrue (by simp [Unmoved, h])
  | .push _ | .pop _ | .intrOn _ | .intrOff _ | .trap _ | .ret _ | .sched _ | .swtch _ _ => isTrue trivial

theorem setThread_thread : m.setThread c (m.thread c) = m := by
  unfold setThread thread
  split <;> simp

section

omit [DecidableEq P]

theorem setCpu_self : m.setCpu c (m.cpu c) = m := by
  simp [setCpu]

@[simp] theorem setCpu_cpu_self : (m.setCpu c k).cpu c = k := Function.update_self ..

theorem setCpu_cpu_of_ne (hd : d ≠ c) : (m.setCpu c k).cpu d = m.cpu d := Function.update_of_ne hd ..

end

namespace IntrInv

/-- A step of the thread on CPU `c` that writes only the record of this CPU. -/
theorem store (h : IntrInv m) (hx : x.Ok c k) : IntrInv ((m.setCpu c k).setThread c x) := by
  have hplaced : Placed (m.setCpu c k) := ⟨h.placed.inj, h.placed.on⟩
  refine ⟨⟨?_, ?_⟩, fun d => ?_, fun p hp => ?_, fun d p hd => ?_, ?_⟩
  · rw [setThread_cur]
    exact h.placed.inj
  · rw [setThread_cur, setThread_off]
    exact h.placed.on
  · rw [setThread_cpu]
    by_cases hdc : d = c
    · subst hdc
      rw [thread_setThread_self, setCpu_cpu_self]
      exact hx
    · rw [thread_setThread_of_ne hplaced hdc, setCpu_cpu_of_ne hdc]
      exact h.running d
  · rw [setThread_off] at hp
    have hproc : ((m.setCpu c k).setThread c x).proc p = m.proc p := by
      unfold setThread
      split
      case h_1 q hq =>
        refine Function.update_of_ne ?_ ..
        rintro rfl
        exact absurd (h.placed.on c p hq) (by simp [show m.off p = true from hp])
      case h_2 => rfl
    rw [hproc]
    exact h.waiting p hp
  · rw [setThread_cur] at hd
    have hsched : ((m.setCpu c k).setThread c x).sched d = m.sched d := by
      unfold setThread
      split
      case h_1 => rfl
      case h_2 hc =>
        refine Function.update_of_ne ?_ ..
        rintro rfl
        cases (show m.cur d = none from hc).symm.trans hd
    rw [hsched]
    exact h.idle d p hd
  · rw [setThread_panic]
    exact h.panic

theorem goto (h : IntrInv m) (hx : x.Ok c (m.cpu c)) : IntrInv (m.setThread c x) := by
  have := h.store hx
  rwa [setCpu_self] at this

theorem setCpu (h : IntrInv m) (hx : (m.thread c).Ok c k) : IntrInv (m.setCpu c k) := by
  have := h.store hx
  rwa [show m.thread c = (m.setCpu c k).thread c from rfl, setThread_thread] at this

theorem micro (h : IntrInv m) (hg : Unmoved m (.step c))
    (hstep : m.micro c (m.thread c) = some m') : IntrInv m' := by
  obtain ⟨hnoff, hsie, hpos, htraps⟩ := h.running c
  simp only [Unmoved] at hg
  simp only [IntrMachine.micro] at hstep
  cases hp : (m.thread c).pos with
  | out =>
    rw [hp] at hstep
    cases hstep
  | pushGet =>
    rw [hp] at hstep
    cases hstep
    exact h.goto ⟨hnoff, hsie, trivial, htraps⟩
  | pushTp old =>
    rw [hp] at hstep
    cases hstep
    exact h.goto ⟨hnoff, hsie, fun _ => rfl, htraps⟩
  | pushTest old id =>
    rw [hp] at hstep hpos hg
    cases hstep
    -- with interrupts on, `noff` is 0 on this CPU and, if the thread was moved, on the other
    have hzero : (m.cpu c).sie = true → (m.cpu c).noff = 0 ∧ (m.cpu id).noff = 0 := fun hon => by
      have hc : (m.cpu c).noff = 0 := hnoff.trans (hsie hon)
      exact ⟨hc, (hg hon).elim (fun hid => hid ▸ hc) fun hid => hid⟩
    refine h.goto ⟨hnoff, hsie, ?_, htraps⟩
    cases hon : (m.cpu c).sie with
    | true =>
      simp only [IntrThread.goto, if_pos (hzero hon).2]
      exact (hzero hon).1
    | false =>
      obtain rfl := hpos hon
      split_ifs with hid
      · exact hid
      · exact hon
  | pushIntrOff old =>
    rw [hp] at hstep hpos
    cases hstep
    exact h.store ⟨hnoff, nofun, ⟨rfl, hpos⟩, htraps⟩
  | pushIntenaTp old | popTp =>
    rw [hp] at hstep hpos
    cases hstep
    exact h.goto ⟨hnoff, hsie, ⟨hpos.1, hpos.2, rfl⟩, htraps⟩
  | pushIntena old id =>
    rw [hp] at hstep hpos
    obtain ⟨hoff, -, rfl⟩ := hpos
    cases hstep
    exact h.store ⟨hnoff, hsie, hoff, htraps⟩
  | pushNoffTp =>
    rw [hp] at hstep hpos
    cases hstep
    exact h.goto ⟨hnoff, hsie, ⟨hpos, rfl⟩, htraps⟩
  | pushLoad id =>
    rw [hp] at hstep hpos
    obtain ⟨hoff, rfl⟩ := hpos
    cases hstep
    exact h.goto ⟨hnoff, hsie, ⟨hoff, rfl, rfl⟩, htraps⟩
  | pushStore id noff =>
    rw [hp] at hstep hpos
    obtain ⟨hoff, rfl, rfl⟩ := hpos
    cases hstep
    exact h.store ⟨congrArg (· + 1) hnoff, fun hon => by simp [hoff] at hon, trivial, htraps⟩
  | popGet id =>
    rw [hp] at hstep hpos
    simp only [hpos.1, Bool.false_eq_true, if_false] at hstep
    cases hstep
    exact h.goto ⟨hnoff, hsie, hpos, htraps⟩
  | popTest id =>
    rw [hp] at hstep hpos
    obtain ⟨hoff, hpositive, rfl⟩ := hpos
    simp only [if_neg (show ¬ (m.cpu id).noff < 1 by omega)] at hstep
    cases hstep
    exact h.goto ⟨hnoff, hsie, ⟨hoff, hpositive, rfl⟩, htraps⟩
  | popLoad id =>
    rw [hp] at hstep hpos
    obtain ⟨hoff, hpositive, rfl⟩ := hpos
    cases hstep
    exact h.goto ⟨hnoff, hsie, ⟨hoff, hpositive, rfl, rfl⟩, htraps⟩
  | popStore id noff =>
    rw [hp] at hstep hpos
    obtain ⟨hoff, hpositive, rfl, rfl⟩ := hpos
    cases hstep
    exact h.store ⟨congrArg (· - 1) hnoff, fun hon => by simp [hoff] at hon, ⟨hoff, rfl⟩, htraps⟩
  | popNoff id =>
    rw [hp] at hstep hpos
    obtain ⟨hoff, rfl⟩ := hpos
    cases hstep
    refine h.goto ⟨hnoff, hsie, ?_, htraps⟩
    split_ifs with hzero
    · exact ⟨hoff, hzero, rfl⟩
    · trivial
  | popIntena id =>
    rw [hp] at hstep hpos
    obtain ⟨hoff, hzero, rfl⟩ := hpos
    cases hstep
    refine h.goto ⟨hnoff, hsie, ?_, htraps⟩
    split_ifs
    · exact ⟨hoff, hzero⟩
    · trivial
  | popIntrOn =>
    rw [hp] at hstep hpos
    cases hstep
    exact h.store ⟨hnoff, fun _ => hnoff.symm.trans hpos.2, trivial, htraps⟩
  | resume intena =>
    rw [hp] at hstep hpos
    cases hstep
    exact h.store ⟨hnoff, hsie, trivial, htraps⟩

omit [DecidableEq P] in
theorem cur_of_update {f : C → Option P} {q : P} (hd : Function.update f c none d = some q) :
    d ≠ c ∧ f d = some q := by
  have hdc : d ≠ c := by
    rintro rfl
    rw [Function.update_self] at hd
    cases hd
  exact ⟨hdc, Function.update_of_ne hdc none f ▸ hd⟩

/-- `sched` leaves the one unmatched `push_off` to the scheduler. -/
theorem yields (h : IntrInv m) (hcur : m.cur c = some p) : IntrInv (m.yields c p) := by
  unfold IntrMachine.yields
  split_ifs with hnoff hsie
  · exact ⟨⟨h.placed.inj, h.placed.on⟩, h.running, h.waiting, h.idle, by simp [fail]⟩
  · exact ⟨⟨h.placed.inj, h.placed.on⟩, h.running, h.waiting, h.idle, by simp [fail]⟩
  · have hx := h.running c
    rw [show m.thread c = m.proc p by simp [thread, hcur]] at hx
    have hone : (m.proc p).depth = 1 := by
      rw [← hx.noff]
      exact not_not.mp hnoff
    have hother : ∀ {d q}, d ≠ c → m.cur d = some q → q ≠ p := by
      rintro d q hd hq rfl
      exact hd (h.placed.inj d c q hq hcur)
    refine ⟨⟨fun d d' q hd hd' => ?_, fun d q hd => ?_⟩, fun d => ?_, fun q hq => ?_, fun d q hd => ?_,
      h.panic⟩
    · exact h.placed.inj d d' q (cur_of_update hd).2 (cur_of_update hd').2
    · obtain ⟨hdc, hd⟩ := cur_of_update hd
      exact (Function.update_of_ne (hother hdc hd) ..).trans (h.placed.on d q hd)
    · by_cases hdc : d = c
      · subst hdc
        simp only [thread, Function.update_self, h.idle d p hcur]
        exact ⟨not_not.mp hnoff, fun hon => absurd hon hsie, trivial, nofun⟩
      · have := h.running d
        unfold thread at this ⊢
        simp only [Function.update_of_ne hdc]
        cases hq : m.cur d with
        | none => rwa [hq] at this
        | some q =>
          rw [hq] at this
          simp only [Function.update_of_ne (hother hdc hq)]
          exact this
    · by_cases hqp : q = p
      · subst hqp
        simp only [Function.update_self]
        exact ⟨by rw [hone], hx.traps, Or.inr ⟨_, rfl⟩⟩
      · simp only [Function.update_of_ne hqp] at hq ⊢
        exact h.waiting q hq
    · obtain ⟨hdc, hd⟩ := cur_of_update hd
      exact (Function.update_of_ne hdc ..).trans (h.idle d q hd)

theorem runs (h : IntrInv m) (hcur : m.cur c = none) (hsched : m.sched c = ⟨.out, 1, []⟩)
    (hoff : m.off p = true) : IntrInv (m.runs c p) := by
  obtain ⟨hnoff, hsie, -, -⟩ := h.running c
  rw [show m.thread c = m.sched c by simp [thread, hcur], hsched] at hnoff hsie
  obtain ⟨hdepth, htraps, hpos⟩ := h.waiting p hoff
  have hother : ∀ {d q}, m.cur d = some q → d ≠ c ∧ q ≠ p := by
    refine fun {d q} hq => ⟨?_, ?_⟩
    · rintro rfl
      cases hcur.symm.trans hq
    · rintro rfl
      cases hoff.symm.trans (h.placed.on d q hq)
  have hcases : ∀ {d q}, Function.update m.cur c (some p) d = some q →
      (d = c ∧ q = p) ∨ m.cur d = some q := fun {d q} hd => by
    by_cases hdc : d = c
    · subst hdc
      rw [Function.update_self] at hd
      exact Or.inl ⟨rfl, (Option.some.inj hd).symm⟩
    · rw [Function.update_of_ne hdc] at hd
      exact Or.inr hd
  refine ⟨⟨fun d d' q hd hd' => ?_, fun d q hd => ?_⟩, fun d => ?_, fun q hq => ?_, fun d q hd => ?_,
    h.panic⟩
  · rcases hcases hd with ⟨rfl, rfl⟩ | hold <;> rcases hcases hd' with ⟨rfl, hq⟩ | hold'
    · rfl
    · exact absurd rfl (hother hold').2
    · exact absurd hq (hother hold).2
    · exact h.placed.inj d d' q hold hold'
  · rcases hcases hd with ⟨-, rfl⟩ | hd
    · exact Function.update_self ..
    · exact (Function.update_of_ne (hother hd).2 ..).trans (h.placed.on d q hd)
  · by_cases hdc : d = c
    · subst hdc
      simp only [thread, IntrMachine.runs, Function.update_self]
      have hoffc : (m.cpu d).sie = false := by
        by_contra hon
        cases hsie (by simpa using hon)
      refine ⟨by rw [hnoff, hdepth], fun hon => by simp [hoffc] at hon, ?_, htraps⟩
      rcases hpos with hp | ⟨intena, hp⟩
      · rw [hp]
        trivial
      · rw [hp]
        exact hoffc
    · have := h.running d
      unfold thread at this ⊢
      simp only [IntrMachine.runs, Function.update_of_ne hdc]
      cases hq : m.cur d with
      | none => rwa [hq] at this
      | some q =>
        rw [hq] at this
        simp only [Function.update_of_ne (hother hq).2]
        exact this
  · have hqp : q ≠ p := by
      rintro rfl
      cases (Function.update_self (β := fun _ => Bool) q false m.off).symm.trans hq
    simp only [IntrMachine.runs, Function.update_of_ne hqp] at hq ⊢
    exact h.waiting q hq
  · rcases hcases hd with ⟨rfl, rfl⟩ | hd
    · simp [IntrMachine.runs, hsched]
    · exact (Function.update_of_ne (hother hd).1 ..).trans (h.idle d q hd)

theorem step (h : IntrInv m) {a : IntrAct C P} (hg : Unmoved m a) (hstep : m.step a = some m') :
    IntrInv m' := by
  simp only [IntrMachine.step] at hstep
  split_ifs at hstep
  cases a with simp only [act] at hstep
  | step c => exact h.micro hg hstep
  | push c =>
    split_ifs at hstep
    cases hstep
    exact h.goto ⟨(h.running c).noff, (h.running c).sie, trivial, (h.running c).traps⟩
  | pop c =>
    split_ifs at hstep with hpop
    cases hstep
    have hpositive : 0 < (m.thread c).depth := Nat.zero_lt_of_lt hpop.2
    refine h.goto ⟨(h.running c).noff, (h.running c).sie, ⟨?_, ?_⟩, (h.running c).traps⟩
    · by_contra hon
      have := (h.running c).sie (by simpa using hon)
      omega
    · exact (h.running c).noff ▸ hpositive
  | intrOn c =>
    split_ifs at hstep with hout
    cases hstep
    exact h.setCpu ⟨(h.running c).noff, fun _ => hout.2, by rw [hout.1]; trivial, (h.running c).traps⟩
  | intrOff c =>
    split_ifs at hstep with hout
    cases hstep
    exact h.setCpu ⟨(h.running c).noff, nofun, by rw [hout.1]; trivial, (h.running c).traps⟩
  | trap c =>
    split_ifs at hstep with hon
    cases hstep
    refine h.store ⟨(h.running c).noff, nofun, trivial, fun t ht => ?_⟩
    rcases List.mem_cons.mp ht with rfl | ht
    · exact ⟨(h.running c).pos.interruptible hon, (h.running c).sie hon⟩
    · exact (h.running c).traps t ht
  | ret c =>
    split at hstep
    · cases hstep
    · rename_i pos depth traps htraps
      split_ifs at hstep with hout
      cases hstep
      have hall := (h.running c).traps
      rw [IntrThread.TrapsOk, htraps] at hall
      obtain ⟨hpos, hzero⟩ := hall _ List.mem_cons_self
      have hdepth : (m.thread c).depth = 0 := hout.2.trans hzero
      refine h.store ⟨(h.running c).noff, fun _ => hdepth, ?_, fun t ht =>
        hall t (List.mem_cons_of_mem _ ht)⟩
      exact IntrPos.ok_of_interruptible hpos rfl ((h.running c).noff.trans hdepth)
  | sched c =>
    split at hstep
    · rename_i p hcur
      split_ifs at hstep
      cases hstep
      exact h.yields hcur
    · cases hstep
  | swtch c p =>
    split_ifs at hstep with hready
    obtain ⟨hcur, hpos, htraps, hdepth, hoff⟩ := hready
    cases hstep
    refine h.runs hcur ?_ hoff
    cases hs : m.sched c
    simp_all

omit [DecidableEq C] [DecidableEq P] in
theorem boot : IntrInv (IntrMachine.boot : IntrMachine C P) :=
  ⟨⟨nofun, nofun⟩, fun _ => ⟨rfl, fun _ => rfl, trivial, nofun⟩,
    fun _ _ => ⟨rfl, nofun, Or.inl rfl⟩, nofun, by simp [IntrMachine.boot]⟩

end IntrInv

/-- `push_off` and `pop_off` do what they are for. -/
structure PushOffOk (m : IntrMachine C P) : Prop where
  /-- between `push_off` and its `pop_off`, interrupts are off and `noff` is at least 1 -/
  disabled : ∀ c, 0 < (m.thread c).depth → (m.cpu c).sie = false ∧ 1 ≤ (m.cpu c).noff
  /-- `noff` counts the unmatched calls of `push_off` of the thread that the CPU runs -/
  count : ∀ c, (m.cpu c).noff = (m.thread c).depth
  /-- `pop_off` does not panic -/
  panic : m.panic ≠ some .popInterruptible ∧ m.panic ≠ some .popOff

/-- **Interrupts are off between `push_off` and `pop_off`** in every run in which no thread is moved
away from a CPU with `noff ≠ 0` between `mycpu()` and the load of `noff`. -/
theorem push_off_ok (as : List (IntrAct C P)) (m : IntrMachine C P)
    (hrun : Run.exec IntrMachine.step boot as = some m)
    (hunmoved : Run.Along IntrMachine.step Unmoved boot as) : PushOffOk m := by
  have h := Run.exec_invariant (fun _ _ _ h hg hstep => IntrInv.step h hg hstep) hrun hunmoved
    IntrInv.boot
  refine ⟨fun c hc => ⟨?_, ?_⟩, fun c => (h.running c).noff, h.panic⟩
  · by_contra hon
    have := (h.running c).sie (by simpa using hon)
    omega
  · exact (h.running c).noff ▸ hc

/-! ### A process that is moved -/

/-- `acquire` on CPU `c`, whose `noff` is 0. -/
def acquireActs (c : C) : List (IntrAct C P) := .push c :: List.replicate 9 (.step c)

/-- `release` of the only lock on CPU `c`, whose `intena` is 0. -/
def releaseActs (c : C) : List (IntrAct C P) := .pop c :: List.replicate 7 (.step c)

/-- The scheduler of CPU `c` runs process `p`. -/
def scheduleActs (c : C) (p : P) : List (IntrAct C P) := .intrOff c :: acquireActs c ++ [.swtch c p]

/-- Process `false` runs on CPU `false`, calls `mycpu()` in `push_off` and is interrupted; it yields. -/
def interruptedRun : List (IntrAct Bool Bool) :=
  scheduleActs false false ++ releaseActs false ++ [.intrOn false, .push false, .step false, .step false,
    .trap false] ++ acquireActs false ++ [.sched false] ++ releaseActs false

/-- It goes on with `push_off` on CPU `true`. -/
def goesOnRun : List (IntrAct Bool Bool) :=
  scheduleActs true false ++ .step true :: releaseActs true ++ .ret true :: List.replicate 4 (.step true)

/-- CPU `false` has no lock when process `false` reads its `noff`. -/
theorem push_off_ok_interruptedRun :
    ∃ m, Run.exec IntrMachine.step boot (interruptedRun ++ goesOnRun) = some m ∧
      Run.Along IntrMachine.step Unmoved boot (interruptedRun ++ goesOnRun) ∧ PushOffOk m := by
  have hrun : (Run.exec IntrMachine.step boot (interruptedRun ++ goesOnRun)).isSome = true := by
    decide +kernel
  have hunmoved : Run.Along IntrMachine.step Unmoved boot (interruptedRun ++ goesOnRun) := by
    decide +kernel
  obtain ⟨m, hm⟩ := Option.isSome_iff_exists.mp hrun
  exact ⟨m, hm, hunmoved, push_off_ok _ m hm hunmoved⟩

/-- While process `false` waits, CPU `false` schedules process `true`, which holds its lock when
process `false` reads `noff` of CPU `false`: `push_off` returns with interrupts on, and `pop_off`
panics. -/
theorem push_off_moved :
    (∃ m, Run.exec IntrMachine.step boot
        (interruptedRun ++ scheduleActs false true ++ goesOnRun) = some m ∧ ¬ PushOffOk m) ∧
      ∃ m, Run.exec IntrMachine.step boot (interruptedRun ++ scheduleActs false true ++ goesOnRun ++
        [.pop true, .step true, .step true]) = some m ∧ m.panic = some .popInterruptible := by
  have hreturned : (Run.exec IntrMachine.step boot
      (interruptedRun ++ scheduleActs false true ++ goesOnRun)).map
        (fun m => ((m.thread true).depth, (m.cpu true).sie)) = some (1, true) := by decide +kernel
  have hpanic : (Run.exec IntrMachine.step boot (interruptedRun ++ scheduleActs false true ++
      goesOnRun ++ [.pop true, .step true, .step true])).map (·.panic) =
        some (some .popInterruptible) := by decide +kernel
  obtain ⟨m, hm, hobs⟩ := Option.map_eq_some_iff.mp hreturned
  obtain ⟨hdepth, hsie⟩ := Prod.mk.inj hobs
  obtain ⟨m', hm', hp⟩ := Option.map_eq_some_iff.mp hpanic
  refine ⟨⟨m, hm, fun hok => ?_⟩, m', hm', hp⟩
  have := (hok.disabled true (by omega)).1
  rw [hsie] at this
  cases this

end IntrMachine

end Xv6
