import Xv6.Monitor.Machine

/-!
# No sleeper is left behind

If the code sleeps only while a condition holds, and whoever makes the condition false calls `wakeup`
before it releases the lock, then no process sleeps while the lock is free and the condition false.
-/

namespace Xv6.Monitor

open Function

variable {n : Nat} {D L X S I : Type} {c : Code n D L X S I} {cond : D → Prop} {s t : State n D L X S}
  {a : Act n X I} {k : Thread n} {p q : Fin n} {b : Pos L X S}

/-- The code sleeps only while `cond` holds, and makes it false only in a step that calls `wakeup`. -/
structure Code.Wakes (c : Code n D L X S I) (cond : D → Prop) : Prop where
  wait : ∀ k x i d l l', c.body k x i d l = some (.wait l') → cond d
  go : ∀ k x i d l d' l', c.body k x i d l = some (.go d' l') → cond d → cond d'
  leave : ∀ k x i d l d' st, c.body k x i d l = some (.leave d' st) → cond d → cond d'

def Pos.holds : Pos L X S → Bool
  | .body _ | .wakeup _ _ | .sleep _ | .sleepHeld _ => true
  | _ => false

def Pos.awake : Pos L X S → Bool
  | .sleepHeld _ | .sleepSet _ | .asleep _ => false
  | _ => true

/-- The state of the slot of a process at a position, and whether the process holds its lock. -/
def SlotOk (x : Proc n) (held : Bool) : Pos L X S → Prop
  | .asleep _ => held = false ∧ (x.state = .SLEEPING ∧ x.chan = chan ∨ x.state = .RUNNABLE)
  | .sleepHeld _ | .sleepSet _ => held = true ∧ x.state = .RUNNING
  | _ => held = false ∧ x.state = .RUNNING

/-- The process sleeps, or has released `lk` in order to. -/
def Sleeper (x : Proc n) : Pos L X S → Prop
  | .sleepSet _ => True
  | .asleep _ => x.state = .SLEEPING
  | _ => False

/-- Where the holder of `lk` is. -/
def State.view (s : State n D L X S) : Option (Pos L X S) := s.lock.map s.pos

/-- What justifies that `q` sleeps: the holder has yet to wake it, or the condition holds. -/
def Waits (cond : D → Prop) (d : D) (q : Fin n) : Option (Pos L X S) → Prop
  | some (.wakeup j _) => j ≤ q
  | _ => cond d

structure Inv (cond : D → Prop) (s : State n D L X S) : Prop where
  holder : ∀ k, (s.pos k).holds = true ↔ s.lock = some k
  slot : ∀ p, SlotOk (s.proc p) (s.plock p) (s.pos (.proc p))
  frozen : ∀ p, (s.pos (.above p)).isOut = false → (s.pos (.proc p)).isOpen = true
  waiting : ∀ l, s.view = some (.sleep l) ∨ s.view = some (.sleepHeld l) → cond s.data
  sleepers : ∀ q, Sleeper (s.proc q) (s.pos (.proc q)) → Waits cond s.data q s.view

theorem slotOk_awake {x : Proc n} {held : Bool} (hb : b.awake = true) :
    SlotOk x held b ↔ held = false ∧ x.state = .RUNNING := by
  cases b <;> first | rfl | cases hb

theorem not_sleeper_awake {x : Proc n} (hb : b.awake = true) : ¬ Sleeper x b := by
  cases b <;> first | exact id | cases hb

theorem isOut_of_holds (hb : b.holds = true) : b.isOut = false := by
  cases b <;> first | rfl | cases hb

/-! ### One thread moves -/

section Holder

variable (h : ∀ k, (s.pos k).holds = true ↔ s.lock = some k) (hpos : t.pos = update s.pos k b)
include h hpos

theorem holder_move (hself : b.holds = true ↔ t.lock = some k)
    (hother : ∀ k', k' ≠ k → (s.lock = some k' ↔ t.lock = some k')) (k' : Thread n) :
    (t.pos k').holds = true ↔ t.lock = some k' := by
  rw [hpos]
  by_cases hk : k' = k
  · rw [hk, update_self]
    exact hself
  · rw [update_of_ne hk, h k']
    exact hother k' hk

theorem holder_keep (hlock : t.lock = s.lock) (hb : b.holds = (s.pos k).holds) :
    ∀ k', (t.pos k').holds = true ↔ t.lock = some k' :=
  holder_move h hpos (by rw [hb, hlock, h k]) fun _ _ => by rw [hlock]

theorem holder_take (hfree : s.lock = none) (hlock : t.lock = some k) (hb : b.holds = true) :
    ∀ k', (t.pos k').holds = true ↔ t.lock = some k' :=
  holder_move h hpos (by simp [hb, hlock]) fun k' hk => by simp [hfree, hlock, hk.symm]

theorem holder_drop (hheld : s.lock = some k) (hlock : t.lock = none) (hb : b.holds = false) :
    ∀ k', (t.pos k').holds = true ↔ t.lock = some k' :=
  holder_move h hpos (by simp [hb, hlock]) fun k' hk => by simp [hheld, hlock, hk.symm]

end Holder

/-- A thread that holds `lk` is the one that the view shows. -/
theorem Inv.view_of_holds (h : Inv cond s) (hk : (s.pos k).holds = true) : s.view = some (s.pos k) := by
  rw [State.view, (h.holder k).mp hk]
  rfl

/-- A thread that does not hold `lk` moves. -/
theorem Inv.view_outside (h : Inv cond s) (hk : (s.pos k).holds = false) (hpos : t.pos = update s.pos k b)
    (hlock : t.lock = s.lock) : t.view = s.view := by
  rw [State.view, State.view, hlock, hpos]
  cases hl : s.lock with
  | none => rfl
  | some k' =>
    refine congrArg some (update_of_ne ?_ _ _)
    rintro rfl
    rw [(h.holder k').mpr hl] at hk
    cases hk

theorem view_self (hpos : t.pos = update s.pos k b) (hlock : t.lock = some k) : t.view = some b := by
  rw [State.view, hlock, hpos]
  exact congrArg some (update_self ..)

section

variable (h : Inv cond s) (hpos : t.pos = update s.pos k b) (hrun : s.runs k = true)
    (hcall : (s.pos k).isOut = true → s.mayCall k = true)
include h hpos hrun hcall

theorem Inv.frozen_move (p : Fin n) (hp : (t.pos (.above p)).isOut = false) : (t.pos (.proc p)).isOpen = true := by
  rw [hpos] at hp ⊢
  by_cases hover : k = .above p
  · subst hover
    cases hout : (s.pos (.above p)).isOut with
    | false => exact h.frozen p hout
    | true => exact hcall hout
  · rw [update_of_ne (Ne.symm hover)] at hp
    by_cases hproc : k = .proc p
    · subst hproc
      rw [show (s.pos (.above p)).isOut = true from hrun] at hp
      cases hp
    · rw [update_of_ne (Ne.symm hproc)]
      exact h.frozen p hp

theorem Inv.move (hother : ∀ q, .proc q ≠ k → t.proc q = s.proc q ∧ t.plock q = s.plock q)
    (hslot : ∀ q, .proc q = k → SlotOk (t.proc q) (t.plock q) b)
    (hself : ∀ q, .proc q = k → Sleeper (t.proc q) b → Waits cond t.data q t.view)
    (hholder : ∀ k', (t.pos k').holds = true ↔ t.lock = some k')
    (hwaiting : ∀ l, t.view = some (.sleep l) ∨ t.view = some (.sleepHeld l) → cond t.data)
    (hwaits : ∀ q, Sleeper (s.proc q) (s.pos (.proc q)) → Waits cond s.data q s.view →
      Waits cond t.data q t.view) : Inv cond t := by
  refine ⟨hholder, fun p => ?_, h.frozen_move hpos hrun hcall, hwaiting, fun q hq => ?_⟩
  · by_cases hp : .proc p = k
    · rw [hpos, hp, update_self]
      exact hslot p hp
    · rw [hpos, update_of_ne hp, (hother p hp).1, (hother p hp).2]
      exact h.slot p
  · by_cases hk : .proc q = k
    · rw [hpos, hk, update_self] at hq
      exact hself q hk hq
    · rw [hpos, update_of_ne hk, (hother q hk).1] at hq
      exact hwaits q hq (h.sleepers q hq)

theorem Inv.move_awake (hproc : t.proc = s.proc) (hplock : t.plock = s.plock)
    (hbefore : (s.pos k).awake = true) (hafter : b.awake = true)
    (hholder : ∀ k', (t.pos k').holds = true ↔ t.lock = some k')
    (hwaiting : ∀ l, t.view = some (.sleep l) ∨ t.view = some (.sleepHeld l) → cond t.data)
    (hwaits : ∀ q, Sleeper (s.proc q) (s.pos (.proc q)) → Waits cond s.data q s.view →
      Waits cond t.data q t.view) : Inv cond t := by
  refine h.move hpos hrun hcall (fun q _ => ⟨by rw [hproc], by rw [hplock]⟩) (fun q hq => ?_)
    (fun q _ hs => absurd hs (not_sleeper_awake hafter)) hholder hwaiting hwaits
  have := h.slot q
  rw [hq, slotOk_awake hbefore] at this
  rw [hproc, hplock]
  exact (slotOk_awake hafter).mpr this

end

theorem Inv.move_holder (h : Inv cond s) {b' : Pos L X S} (hb' : s.pos k = b') (hk : b'.holds = true)
    (hb : b.holds = true) (hpos : t.pos = update s.pos k b) (hlock : t.lock = s.lock) (hproc : t.proc = s.proc)
    (hplock : t.plock = s.plock) (hrun : s.runs k = true) (hbefore : b'.awake = true) (hafter : b.awake = true)
    (hwaiting : ∀ l, b = .sleep l → cond t.data)
    (hwaits : ∀ q, Sleeper (s.proc q) (s.pos (.proc q)) → Waits cond s.data q (some b') →
      Waits cond t.data q (some b)) : Inv cond t := by
  subst hb'
  have hview : t.view = some b := view_self hpos (hlock.trans ((h.holder k).mp hk))
  refine h.move_awake hpos hrun (fun hout => ?_) hproc hplock hbefore hafter
    (holder_keep h.holder hpos hlock (by rw [hk, hb])) (fun l hl => ?_) fun q hs hq => ?_
  · rw [isOut_of_holds hk] at hout
    cases hout
  · rw [hview, Option.some.injEq, Option.some.injEq] at hl
    rcases hl with rfl | rfl
    · exact hwaiting l rfl
    · cases hafter
  · rw [hview]
    rw [h.view_of_holds hk] at hq
    exact hwaits q hs hq

theorem Inv.move_take (h : Inv cond s) {l : L} (hfree : s.lock = none) (hrun : s.runs k = true)
    (hbefore : (s.pos k).awake = true) (hout : (s.pos k).isOut = false) :
    Inv cond (State.goto { s with lock := some k } k (.body l)) := by
  have hview : (State.goto { s with lock := some k } k (.body l)).view = some (.body l) := view_self rfl rfl
  have hnone : s.view = none := by
    rw [State.view, hfree]
    rfl
  refine h.move_awake rfl hrun (fun ho => ?_) rfl rfl hbefore rfl
    (holder_take h.holder rfl hfree rfl rfl) (fun l' hl => ?_) fun q _ hq => ?_
  · rw [hout] at ho
    cases ho
  · rw [hview] at hl
    rcases hl with hl | hl <;> cases hl
  · rw [hview]
    rw [hnone] at hq
    exact hq

theorem view_free (h : t.lock = none) : t.view = none := by
  rw [State.view, h]
  rfl

/-! ### The steps -/

/-- The slots change where no thread moves, and no new sleeper appears. -/
theorem Inv.slots (h : Inv cond s) (hpos : t.pos = s.pos) (hlock : t.lock = s.lock) (hdata : t.data = s.data)
    (hslot : ∀ p, SlotOk (t.proc p) (t.plock p) (s.pos (.proc p)))
    (hsleep : ∀ q, Sleeper (t.proc q) (s.pos (.proc q)) → Sleeper (s.proc q) (s.pos (.proc q))) :
    Inv cond t := by
  have hview : t.view = s.view := by rw [State.view, State.view, hpos, hlock]
  refine ⟨fun k => ?_, fun p => ?_, fun p => ?_, fun l => ?_, fun q hq => ?_⟩
  · rw [hpos, hlock]
    exact h.holder k
  · rw [hpos]
    exact hslot p
  · rw [hpos]
    exact h.frozen p
  · rw [hview, hdata]
    exact h.waiting l
  · rw [hpos] at hq
    rw [hview, hdata]
    exact h.sleepers q (hsleep q hq)

theorem Inv.set_slot (h : Inv cond s) {x : Proc n} (hslot : SlotOk x (s.plock q) (s.pos (.proc q)))
    (hsleep : Sleeper x (s.pos (.proc q)) → Sleeper (s.proc q) (s.pos (.proc q))) :
    Inv cond (s.setProc q x) := by
  refine h.slots rfl rfl rfl (fun p => ?_) fun p => ?_
  all_goals
    simp only [State.setProc]
    by_cases hp : p = q
  · subst hp
    rw [update_self]
    exact hslot
  · rw [update_of_ne hp]
    exact h.slot p
  · subst hp
    rw [update_self]
    exact hsleep
  · rw [update_of_ne hp]
    exact id

theorem state_wakeup (x : Proc n) : x.state ≠ .SLEEPING → (x.wakeup chan).state = x.state := fun h => by
  unfold Proc.wakeup
  rw [if_neg fun hs => h hs.1]

theorem slotOk_wakeup {x : Proc n} {held : Bool} (h : SlotOk x held b) : SlotOk (x.wakeup chan) held b := by
  cases b <;> simp only [SlotOk] at h ⊢
  case asleep =>
    obtain ⟨hheld, ⟨hs, hc⟩ | hs⟩ := h
    · refine ⟨hheld, Or.inr ?_⟩
      unfold Proc.wakeup
      rw [if_pos ⟨hs, hc⟩]
    · refine ⟨hheld, Or.inr ?_⟩
      rw [state_wakeup x (by rw [hs]; simp), hs]
  all_goals
    rw [state_wakeup x (by rw [h.2]; simp)]
    exact h

theorem slotOk_kill {x : Proc n} {held : Bool} (h : SlotOk x held b) : SlotOk x.kill held b := by
  cases b <;> simp only [SlotOk, Proc.kill] at h ⊢
  case asleep =>
    refine ⟨h.1, Or.inr ?_⟩
    rcases h.2 with hs | hs
    · rw [if_pos hs.1]
    · rw [hs]
      rfl
  all_goals
    rw [if_neg (by rw [h.2]; simp)]
    exact h

theorem sleeper_kill {x : Proc n} (h : Sleeper x.kill b) : Sleeper x b := by
  cases b <;> simp only [Sleeper, Proc.kill] at h ⊢
  case asleep =>
    split_ifs at h
    exact h

theorem not_sleeper_wakeup {x : Proc n} (h : SlotOk x false b) : ¬ Sleeper (x.wakeup chan) b := by
  cases b <;> simp only [SlotOk, Sleeper] at h ⊢
  case sleepSet => simp at h
  case asleep =>
    rcases h.2 with ⟨hs, hc⟩ | hs
    · unfold Proc.wakeup
      rw [if_pos ⟨hs, hc⟩]
      simp
    · rw [state_wakeup x (by rw [hs]; simp), hs]
      simp
  all_goals exact id

theorem Inv.step (hc : c.Wakes cond) (h : Inv cond s) (hstep : step c s a = some t) : Inv cond t := by
  cases step_cases hstep with
  | call k st x hpos _ hmay hrun =>
    have hview := h.view_outside (k := k) (t := s.goto k (.enter st x)) (by rw [hpos]; rfl) rfl rfl
    refine h.move_awake (k := k) rfl hrun (fun _ => hmay) rfl rfl (by rw [hpos]; rfl) rfl
      (holder_keep h.holder rfl rfl (by rw [hpos]; rfl)) ?_ fun q _ hq => ?_
    · rw [hview]
      exact h.waiting
    · rw [hview]
      exact hq
  | enter k i st x hrun hpos hfree | relock k i l hrun hpos hfree =>
    exact h.move_take hfree hrun (by rw [hpos]; rfl) (by rw [hpos]; rfl)
  | go k i l d l' hrun hpos hbody =>
    exact h.move_holder hpos rfl rfl rfl rfl rfl rfl hrun rfl rfl nofun fun q _ => hc.go _ _ _ _ _ _ _ hbody
  | wake k i l d l' hrun hpos hbody =>
    exact h.move_holder hpos rfl rfl rfl rfl rfl rfl hrun rfl rfl nofun fun q _ _ => Nat.zero_le _
  | wait p i l l' hrun hpos hbody =>
    have hcond := hc.wait _ _ _ _ _ _ hbody
    exact h.move_holder hpos rfl rfl rfl rfl rfl rfl hrun rfl rfl (fun _ _ => hcond) fun q _ _ => hcond
  | leave k i l d st hrun hpos hbody =>
    have hholds : (s.pos k).holds = true := by rw [hpos]; rfl
    have hview := view_free (t := State.goto { s with data := d, lock := none } k (.out st)) rfl
    refine h.move_awake (k := k) rfl hrun (by rw [hpos]; nofun) rfl rfl (by rw [hpos]; rfl) rfl
      (holder_drop h.holder rfl ((h.holder k).mp hholds) rfl rfl) (fun l' hl => ?_) fun q _ hq => ?_
    · rw [hview] at hl
      rcases hl with hl | hl <;> cases hl
    · rw [h.view_of_holds hholds, hpos] at hq
      rw [hview]
      exact hc.leave _ _ _ _ _ _ _ hbody hq
  | skip k i l q hrun hpos hme =>
    refine h.move_holder hpos rfl rfl rfl rfl rfl rfl hrun rfl rfl nofun fun q' hs hq => ?_
    refine lt_of_le_of_ne hq fun heq => ?_
    -- `myproc()` is awake
    obtain rfl : q = q' := Fin.ext heq
    cases k with cases hme
    | proc p =>
      rw [hpos] at hs
      exact hs
    | above p =>
      have hopen := h.frozen q (by rw [hpos]; rfl)
      cases hp : s.pos (.proc q) <;> rw [hp] at hs hopen <;> first | exact hs | cases hopen
  | look k i l q hrun hpos _ hfree =>
    have hawake : ¬ Sleeper ((s.proc q).wakeup chan) (s.pos (.proc q)) := by
      have hslot := h.slot q
      rw [hfree] at hslot
      exact not_sleeper_wakeup hslot
    have h₁ : Inv cond (s.setProc q ((s.proc q).wakeup chan)) :=
      h.set_slot (slotOk_wakeup (h.slot q)) fun hs => absurd hs hawake
    refine h₁.move_holder (k := k) hpos rfl rfl rfl rfl rfl rfl hrun rfl rfl nofun fun q' hs hq => ?_
    refine lt_of_le_of_ne hq fun heq => ?_
    obtain rfl : q = q' := Fin.ext heq
    exact hawake (by simpa [State.setProc] using hs)
  | woken k i l j hrun hpos hj =>
    refine h.move_holder hpos rfl rfl rfl rfl rfl rfl hrun rfl rfl nofun fun q _ hq => ?_
    exact absurd (lt_of_lt_of_le q.isLt hj) (not_lt.mpr hq)
  | sleep p i l hrun hpos _ =>
    have hholds : (s.pos (.proc p)).holds = true := by rw [hpos]; rfl
    have hlock := (h.holder _).mp hholds
    have hview := view_self (t := (s.setPlock p true).goto (.proc p) (.sleepHeld l)) rfl hlock
    have hcond : cond s.data := h.waiting l (Or.inl ((h.view_of_holds hholds).trans (by rw [hpos])))
    refine h.move (k := .proc p) rfl hrun (by rw [hpos]; nofun) (fun q hq => ⟨rfl, update_of_ne ?_ _ _⟩)
      (fun q hq => ?_) (fun q _ hs => hs.elim) (holder_keep h.holder rfl rfl (by rw [hpos]; rfl))
      (fun _ _ => hcond) fun q _ _ => ?_
    · rintro rfl
      exact hq rfl
    · cases hq
      have := h.slot p
      rw [hpos] at this
      exact ⟨update_self .., this.2⟩
    · rw [hview]
      exact hcond
  | sleepHeld p i l hrun hpos =>
    have hholds : (s.pos (.proc p)).holds = true := by rw [hpos]; rfl
    have hview := view_free (t := State.goto { s with lock := none } (.proc p) (.sleepSet l)) rfl
    have hcond : cond s.data := h.waiting l (Or.inr ((h.view_of_holds hholds).trans (by rw [hpos])))
    refine h.move (k := .proc p) rfl hrun (by rw [hpos]; nofun) (fun q _ => ⟨rfl, rfl⟩) (fun q hq => ?_)
      (fun q _ _ => ?_) (holder_drop h.holder rfl ((h.holder _).mp hholds) rfl rfl) (fun _ _ => hcond)
      fun q _ _ => ?_
    · cases hq
      have := h.slot p
      rw [hpos] at this
      exact this
    all_goals
      rw [hview]
      exact hcond
  | sleepSet p i l hrun hpos =>
    have hview := h.view_outside (t := ((s.setProc p { s.proc p with chan := chan, state := .SLEEPING }).setPlock
      p false).goto (.proc p) (.asleep l)) (by rw [hpos]; rfl) rfl rfl
    refine h.move (k := .proc p) rfl hrun (by rw [hpos]; nofun) (fun q hq => ?_) (fun q hq => ?_)
      (fun q hq _ => ?_) (holder_keep h.holder rfl rfl (by rw [hpos]; rfl)) (by rw [hview]; exact h.waiting)
      fun q _ hq => by rw [hview]; exact hq
    · have hqp : q ≠ p := by
        rintro rfl
        exact hq rfl
      exact ⟨update_of_ne hqp .., update_of_ne hqp ..⟩
    · cases hq
      simp [SlotOk, State.goto, State.setProc, State.setPlock]
    · cases hq
      rw [hview]
      refine h.sleepers p ?_
      rw [hpos]
      trivial
  | asleep p i l hrun hpos _ hfree =>
    have hview := h.view_outside (t := (s.setProc p { s.proc p with chan := .null, state := .RUNNING }).goto
      (.proc p) (.relock l)) (by rw [hpos]; rfl) rfl rfl
    refine h.move (k := .proc p) rfl hrun (by rw [hpos]; nofun) (fun q hq => ⟨update_of_ne ?_ _ _, rfl⟩)
      (fun q hq => ?_) (fun q _ hs => hs.elim) (holder_keep h.holder rfl rfl (by rw [hpos]; rfl))
      (by rw [hview]; exact h.waiting) fun q _ hq => by rw [hview]; exact hq
    · rintro rfl
      exact hq rfl
    · cases hq
      simpa [SlotOk, State.goto, State.setProc] using hfree
  | kill p _ => exact h.set_slot (slotOk_kill (h.slot p)) sleeper_kill

/-! ### Runs -/

/-- `lk` is free, every process runs and no handler does. -/
structure AtRest (s : State n D L X S) : Prop where
  lock : s.lock = none
  plock : ∀ p, s.plock p = false
  running : ∀ p, (s.proc p).state = .RUNNING
  out : ∀ k, (s.pos k).isOut = true

theorem AtRest.pos_out (h : AtRest s) (k : Thread n) : ∃ st, s.pos k = .out st := by
  have := h.out k
  cases hk : s.pos k <;> rw [hk] at this <;> first | exact ⟨_, rfl⟩ | cases this

theorem AtRest.inv (h : AtRest s) : Inv cond s := by
  have hpos := h.pos_out
  refine ⟨fun k => ?_, fun p => ?_, fun p hp => ?_, fun l hl => ?_, fun q hq => ?_⟩
  · obtain ⟨st, hk⟩ := hpos k
    rw [hk, h.lock]
    exact ⟨nofun, nofun⟩
  · obtain ⟨st, hk⟩ := hpos (.proc p)
    rw [hk]
    exact ⟨h.plock p, h.running p⟩
  · rw [h.out] at hp
    cases hp
  · rw [view_free h.lock] at hl
    rcases hl with hl | hl <;> cases hl
  · obtain ⟨st, hk⟩ := hpos (.proc q)
    rw [hk] at hq
    exact hq.elim

theorem inv_run (hc : c.Wakes cond) (h0 : AtRest s) {as : List (Act n X I)}
    (hrun : Run.exec (step c) s as = some t) : Inv cond t :=
  Run.exec_invariant (fun _ _ _ h _ hstep => h.step hc hstep) hrun Run.along_true
    h0.inv

/-- While `lk` is free and the condition false, no process sleeps on the channel. -/
theorem Inv.none_asleep (h : Inv cond s) (hfree : s.lock = none) (hcond : ¬ cond s.data)
    (hstate : (s.proc q).state = .SLEEPING) : False := by
  have hslot := h.slot q
  have hsleeper : Sleeper (s.proc q) (s.pos (.proc q)) := by
    cases hp : s.pos (.proc q) <;> rw [hp] at hslot <;>
      first
      | exact hstate
      | exact absurd (hstate.symm.trans hslot.2) nofun
  have := h.sleepers q hsleeper
  rw [view_free hfree] at this
  exact hcond this

end Xv6.Monitor
