import Xv6.Monitor.Sleepers

/-!
# Sleep-locks

`acquiresleep`, `releasesleep` and `holdingsleep` of `sleeplock.c`: the spinlock is `lk->lk`, the wait
channel is `lk`.
-/

namespace Xv6.Sleeplock

open Function Monitor

/-- `struct sleeplock` without its spinlock. -/
structure Data where
  locked : Bool
  pid : Int32
  deriving DecidableEq

inductive Call where
  | acquiresleep | releasesleep | holdingsleep
  deriving DecidableEq

/-- What a process keeps: whether it is between the return of `acquiresleep` and its `releasesleep`, and
what `holdingsleep` has returned. -/
structure Kept where
  holds : Bool
  answer : Option Bool
  deriving DecidableEq

/-- The statements with `lk->lk` held. -/
inductive Local where
  /-- `while (lk->locked)` and what follows the loop -/
  | test (holds : Bool)
  /-- the release in `acquiresleep` -/
  | acquired
  /-- `lk->locked = 0; lk->pid = 0; wakeup(lk)` -/
  | clear
  /-- the release in `releasesleep` -/
  | cleared
  /-- `holdingsleep` -/
  | holding (holds : Bool)
  deriving DecidableEq

/-- The calls of processes; only the holder calls `releasesleep`. -/
def code (n : Nat) : Code n Data Local Call Kept Unit where
  calls k st x := match k, x with
    | .proc _, .releasesleep => st.holds
    | .proc _, _ => true
    | _, _ => false
  start st x := match x with
    | .acquiresleep => .test st.holds
    | .releasesleep => .clear
    | .holdingsleep => .holding st.holds
  body _ me _ d l := match l, me with
    | .test h, some p => if d.locked then some (.wait (.test h)) else some (.go ⟨true, p.pid⟩ .acquired)
    | .acquired, _ => some (.leave d ⟨true, none⟩)
    | .clear, _ => some (.wake ⟨false, 0⟩ .cleared)
    | .cleared, _ => some (.leave d ⟨false, none⟩)
    | .holding h, some p => some (.leave d ⟨h, some (d.locked && d.pid == p.pid)⟩)
    | _, none => none

abbrev Machine (n : Nat) := State n Data Local Call Kept

/-- A free sleep-lock and processes with the ids `pid`. -/
def boot {n : Nat} (pid : Fin n → Int32) : Machine n where
  data := ⟨false, 0⟩
  lock := none
  proc p := { Proc.zero with state := .RUNNING, pid := pid p }
  plock _ := false
  pos _ := .out ⟨false, none⟩

variable {n : Nat} {pid : Fin n → Int32} {s t : Machine n} {a : Act n Call Unit} {k : Thread n} {p q : Fin n}
  {b : Pos Local Call Kept}

/-- What a step with `lk->lk` held can do. -/
inductive Does (me : Option (Proc n)) (d : Data) : Local → Outcome Data Local Kept → Prop
  | wait (h) : d.locked = true → Does me d (.test h) (.wait (.test h))
  | take (h x) : me = some x → d.locked = false → Does me d (.test h) (.go ⟨true, x.pid⟩ .acquired)
  | acquired : Does me d .acquired (.leave d ⟨true, none⟩)
  | clear : Does me d .clear (.wake ⟨false, 0⟩ .cleared)
  | cleared : Does me d .cleared (.leave d ⟨false, none⟩)
  | holding (h x) : me = some x →
      Does me d (.holding h) (.leave d ⟨h, some (d.locked && d.pid == x.pid)⟩)

theorem body_does {me : Option (Proc n)} {i : Unit} {d : Data} {l : Local} {o : Outcome Data Local Kept}
    (h : (code n).body k me i d l = some o) : Does me d l o := by
  cases l with
  | test hl =>
    cases me with
    | none => cases h
    | some x =>
      simp only [code] at h
      split_ifs at h with hd
      · cases h
        exact .wait hl hd
      · cases h
        exact .take hl x rfl (by simpa using hd)
  | acquired =>
    cases h
    exact .acquired
  | clear =>
    cases h
    exact .clear
  | cleared =>
    cases h
    exact .cleared
  | holding hl =>
    cases me with
    | none => cases h
    | some x =>
      cases h
      exact .holding hl x rfl

theorem code_wakes : (code n).Wakes fun d => d.locked = true := by
  refine ⟨fun k x i d l l' h => ?_, fun k x i d l d' l' h hd => ?_, fun k x i d l d' st h hd => ?_⟩
  · cases body_does h with
    | wait _ hd => exact hd
  · cases body_does h with
    | take => rfl
  · cases body_does h with
    | acquired => exact hd
    | cleared => exact hd
    | holding => exact hd

/-! ### Who holds the sleep-lock -/

def Local.owns : Local → Bool
  | .test h | .holding h => h
  | .acquired | .clear => true
  | .cleared => false

/-- The process has the sleep-lock: it is at the end of `acquiresleep`, past it, or at the start of
`releasesleep`. -/
def owns : Pos Local Call Kept → Bool
  | .out st | .enter st _ => st.holds
  | .body l | .wakeup _ l | .sleep l | .sleepHeld l | .sleepSet l | .asleep l | .relock l => l.owns

structure OwnInv (pid : Fin n → Int32) (s : Machine n) : Prop where
  pids : ∀ p, (s.proc p).pid = pid p
  only : ∀ k, (s.pos k).isOut = false → ∃ p, k = .proc p
  owner : ∀ p, owns (s.pos (.proc p)) = true ↔ s.data.locked = true ∧ s.data.pid = pid p
  answer : ∀ p st r, s.pos (.proc p) = .out st → st.answer = some r → r = st.holds
  /-- a call of `releasesleep` is one of the holder -/
  entered : ∀ p st, s.pos (.proc p) = .enter st .releasesleep → st.holds = true

theorem OwnInv.move (h : OwnInv pid s) (hpos : t.pos = update s.pos (.proc p) b)
    (hpids : ∀ q, (t.proc q).pid = (s.proc q).pid)
    (howner : ∀ q, (if q = p then owns b else owns (s.pos (.proc q))) = true ↔
      t.data.locked = true ∧ t.data.pid = pid q)
    (hanswer : ∀ st r, b = .out st → st.answer = some r → r = st.holds)
    (hentered : ∀ st, b = .enter st .releasesleep → st.holds = true) : OwnInv pid t := by
  have hself : t.pos (.proc p) = b := by rw [hpos, update_self]
  have hother : ∀ q, q ≠ p → t.pos (.proc q) = s.pos (.proc q) := fun q hq => by
    rw [hpos, update_of_ne (by simpa using hq)]
  refine ⟨fun q => (hpids q).trans (h.pids q), fun k hk => ?_, fun q => ?_, fun q => ?_, fun q => ?_⟩
  · by_cases hkp : k = .proc p
    · exact ⟨p, hkp⟩
    · rw [hpos, update_of_ne hkp] at hk
      exact h.only k hk
  all_goals by_cases hq : q = p
  · subst hq
    rw [hself, ← howner q, if_pos rfl]
  · rw [hother q hq, ← howner q, if_neg hq]
  · subst hq
    rw [hself]
    exact hanswer
  · rw [hother q hq]
    exact h.answer q
  · subst hq
    rw [hself]
    exact hentered
  · rw [hother q hq]
    exact h.entered q

theorem OwnInv.keep (h : OwnInv pid s) (hpos : t.pos = update s.pos (.proc p) b)
    (hpids : ∀ q, (t.proc q).pid = (s.proc q).pid) (hdata : t.data = s.data)
    (howns : owns b = owns (s.pos (.proc p)))
    (hanswer : ∀ st r, b = .out st → st.answer = some r → r = st.holds)
    (hentered : ∀ st, b = .enter st .releasesleep → st.holds = true) : OwnInv pid t := by
  refine h.move hpos hpids (fun q => ?_) hanswer hentered
  rw [hdata, ← h.owner q]
  split_ifs with hq
  · rw [hq, howns]
  · rfl

theorem OwnInv.proc_of_pos (h : OwnInv pid s) (hpos : s.pos k = b) (hb : b.isOut = false) :
    ∃ p, k = .proc p := h.only k (by rw [hpos, hb])

theorem OwnInv.step (hpid : Injective pid) (h : OwnInv pid s) (hstep : Monitor.step (code n) s a = some t) :
    OwnInv pid t := by
  have hst := step_cases hstep
  have hpids := hst.pid
  cases hst with
  | call k st x hpos hcalls =>
    cases k with
    | proc p =>
      refine h.keep rfl hpids rfl (by rw [hpos]; rfl) nofun fun st' heq => ?_
      cases heq
      exact hcalls
    | above p => cases x <;> cases hcalls
    | idle c => cases x <;> cases hcalls
  | enter k i st x _ hpos =>
    obtain ⟨p, rfl⟩ := h.proc_of_pos hpos rfl
    refine h.keep rfl hpids rfl ?_ nofun nofun
    rw [hpos]
    cases x with
    | acquiresleep => rfl
    | releasesleep => exact (h.entered p st hpos).symm
    | holdingsleep => rfl
  | go k i l d l' _ hpos hbody =>
    obtain ⟨p, rfl⟩ := h.proc_of_pos hpos rfl
    cases body_does hbody with
    | take hl x hx hfree =>
      cases hx
      refine h.move rfl hpids (fun q => ?_) nofun nofun
      show _ ↔ true = true ∧ (s.proc p).pid = pid q
      rw [h.pids p]
      split_ifs with hq
      · exact ⟨fun _ => ⟨rfl, by rw [hq]⟩, fun _ => rfl⟩
      · rw [h.owner q, hfree]
        exact ⟨nofun, fun heq => absurd (hpid heq.2).symm hq⟩
  | wake k i l d l' _ hpos hbody =>
    obtain ⟨p, rfl⟩ := h.proc_of_pos hpos rfl
    cases body_does hbody with
    | clear =>
      have hmine := (h.owner p).mp (by rw [hpos]; rfl)
      refine h.move rfl hpids (fun q => ⟨fun hq => ?_, nofun⟩) nofun nofun
      split_ifs at hq with hqp
      · cases hq
      · have hyours := (h.owner q).mp hq
        exact absurd (hpid (hyours.2.symm.trans hmine.2)) hqp
  | wait p i l l' _ hpos hbody =>
    cases body_does hbody with
    | wait => exact h.keep rfl hpids rfl (by rw [hpos]; rfl) nofun nofun
  | leave k i l d st _ hpos hbody =>
    obtain ⟨p, rfl⟩ := h.proc_of_pos hpos rfl
    cases body_does hbody with
    | acquired | cleared => exact h.keep rfl hpids rfl (by rw [hpos]; rfl) (by rintro _ _ ⟨⟩ ⟨⟩) nofun
    | holding hl x hx =>
      cases hx
      refine h.keep rfl hpids rfl (by rw [hpos]; rfl) (fun st r hb hr => ?_) nofun
      cases hb
      cases hr
      have := h.owner p
      rw [hpos, ← h.pids p] at this
      rw [Bool.eq_iff_iff, Bool.and_eq_true, beq_iff_eq]
      exact this.symm
  | kill p =>
    have hsame : s.pos = update s.pos (.proc p) (s.pos (.proc p)) := (update_eq_self _ _).symm
    exact h.keep hsame hpids rfl rfl (h.answer p) (h.entered p)
  | relock k i l _ hpos | skip k i l q _ hpos | look k i l q _ hpos | woken k i l j _ hpos =>
    obtain ⟨p, rfl⟩ := h.proc_of_pos hpos rfl
    exact h.keep rfl hpids rfl (by rw [hpos]; rfl) nofun nofun
  | sleep p i l _ hpos | sleepHeld p i l _ hpos | sleepSet p i l _ hpos | asleep p i l _ hpos =>
    exact h.keep rfl hpids rfl (by rw [hpos]; rfl) nofun nofun

/-- What holds in every state. -/
structure SleeplockOk (s : Machine n) : Prop where
  /-- at most one process has the sleep-lock -/
  one : ∀ p q, owns (s.pos (.proc p)) = true → owns (s.pos (.proc q)) = true → p = q
  /-- `holdingsleep` has returned whether the process has it -/
  answer : ∀ p st r, s.pos (.proc p) = .out st → st.answer = some r → r = st.holds
  /-- while `lk->lk` and the sleep-lock are free, no process sleeps on it -/
  asleep : s.lock = none → s.data.locked = false →
    ∀ p, ¬ ((s.proc p).state = .SLEEPING ∧ (s.proc p).chan = chan)

/-- **Sleep-locks exclude each other and strand no waiter**: in every run of any number of processes with
distinct ids. -/
theorem sleeplock_exclusive (pid : Fin n → Int32) (hpid : Injective pid) (as : List (Act n Call Unit))
    (s : Machine n) (hrun : Run.exec (Monitor.step (code n)) (boot pid) as = some s) : SleeplockOk s := by
  have h0 : OwnInv pid (boot pid) := ⟨fun _ => rfl, nofun, fun _ => ⟨nofun, nofun⟩,
    by rintro _ _ _ ⟨⟩ ⟨⟩, nofun⟩
  have hown : OwnInv pid s := Run.exec_invariant
    (fun _ _ _ h _ hstep => h.step hpid hstep) hrun Run.along_true h0
  have hinv := inv_run code_wakes ⟨rfl, fun _ => rfl, fun _ => rfl, fun _ => rfl⟩ hrun
  refine ⟨fun p q hp hq => ?_, hown.answer, fun hfree hlocked p hp => ?_⟩
  · exact hpid (((hown.owner p).mp hp).2.symm.trans ((hown.owner q).mp hq).2)
  · refine hinv.none_asleep hfree ?_ hp.1
    rw [hlocked]
    nofun

/-- Process 0 takes the sleep-lock, process 1 sleeps on it and is killed, 0 releases, 1 takes it and asks. -/
def contendedRun : List (Act 2 Call Unit) :=
  .call (.proc 0) .acquiresleep :: List.replicate 3 (.step (.proc 0) ()) ++
    .call (.proc 1) .acquiresleep :: List.replicate 5 (.step (.proc 1) ()) ++
    .kill 1 :: .call (.proc 0) .releasesleep :: List.replicate 6 (.step (.proc 0) ()) ++
    List.replicate 4 (.step (.proc 1) ()) ++
    .call (.proc 1) .holdingsleep :: List.replicate 2 (.step (.proc 1) ())

theorem sleeplock_exclusive_contendedRun :
    ∃ s, Run.exec (Monitor.step (code 2)) (boot fun p => if p = 0 then 1 else 2) contendedRun = some s ∧
      s.pos (.proc 1) = .out ⟨true, some true⟩ ∧ SleeplockOk s := by
  have hrun : (Run.exec (Monitor.step (code 2)) (boot fun p => if p = 0 then 1 else 2)
      contendedRun).map (fun s => s.pos (.proc 1)) = some (.out ⟨true, some true⟩) := by decide +kernel
  obtain ⟨s, hs, hpos⟩ := Option.map_eq_some_iff.mp hrun
  exact ⟨s, hs, hpos, sleeplock_exclusive _ (fun p q => by revert p q; decide) contendedRun s hs⟩

end Xv6.Sleeplock
