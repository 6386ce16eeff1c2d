import Xv6.Monitor.Sleepers

/-!
# The data under the lock

Only the holder of the lock touches the data. `J l d` relates the data to the local state of the holder
while it runs the code, `J none d` holds whenever nobody does.
-/

namespace Xv6.Monitor

open Function

variable {n : Nat} {D L X S I : Type} {c : Code n D L X S I} {cond : D → Prop} {s t : State n D L X S}
  {a : Act n X I} {J : Option L → D → Prop}

/-- Every step of the code keeps `J`. -/
structure Code.Keeps (c : Code n D L X S I) (J : Option L → D → Prop) : Prop where
  start : ∀ st x d, J none d → J (some (c.start st x)) d
  go : ∀ k x i d l d' l', c.body k x i d l = some (.go d' l') → J (some l) d → J (some l') d'
  wake : ∀ k x i d l d' l', c.body k x i d l = some (.wake d' l') → J (some l) d → J (some l') d'
  wait : ∀ k x i d l l', c.body k x i d l = some (.wait l') → J (some l) d → J none d
  resume : ∀ k x i d l l' d', c.body k x i d l = some (.wait l') → J none d' → J (some l') d'
  leave : ∀ k x i d l d' st, c.body k x i d l = some (.leave d' st) → J (some l) d → J none d'

def Pos.code : Pos L X S → Option L
  | .body l | .wakeup _ l => some l
  | _ => none

def Pos.resumes : Pos L X S → Option L
  | .sleep l | .sleepHeld l | .sleepSet l | .asleep l | .relock l => some l
  | _ => none

def State.code (s : State n D L X S) : Option L := s.view.bind Pos.code

structure DataInv (J : Option L → D → Prop) (s : State n D L X S) : Prop where
  data : J s.code s.data
  resume : ∀ k l d, (s.pos k).resumes = some l → J none d → J (some l) d

/-- A thread moves and goes on after `sleep` where it did before. -/
theorem DataInv.move (h : DataInv J s) {k : Thread n} {b : Pos L X S} (hpos : t.pos = update s.pos k b)
    (hdata : J t.code t.data)
    (hresume : ∀ l d, b.resumes = some l → J none d → J (some l) d) : DataInv J t := by
  refine ⟨hdata, fun k' l d hl => ?_⟩
  rw [hpos] at hl
  by_cases hk : k' = k
  · rw [hk, update_self] at hl
    exact hresume l d hl
  · rw [update_of_ne hk] at hl
    exact h.resume k' l d hl

theorem code_self {k : Thread n} {b : Pos L X S} (hpos : t.pos = update s.pos k b) (hlock : t.lock = some k) :
    t.code = b.code := by
  rw [State.code, view_self hpos hlock]
  rfl

theorem code_free (h : t.lock = none) : t.code = none := by
  rw [State.code, view_free h]
  rfl

theorem Inv.code_of_pos (h : Inv cond s) {k : Thread n} {b : Pos L X S} (hpos : s.pos k = b)
    (hb : b.holds = true) : s.lock = some k ∧ s.code = b.code := by
  have hk : (s.pos k).holds = true := by rw [hpos, hb]
  refine ⟨(h.holder k).mp hk, ?_⟩
  rw [State.code, h.view_of_holds hk, hpos]
  rfl

theorem Inv.code_of_not_holds (h : Inv cond s) {k : Thread n} {b : Pos L X S} (hpos : t.pos = update s.pos k b)
    (hlock : t.lock = s.lock) (hk : (s.pos k).holds = false) : t.code = s.code := by
  rw [State.code, State.code, h.view_outside hk hpos hlock]

section Moves

variable {k : Thread n} {b b' : Pos L X S}

theorem DataInv.outside (h : DataInv J s) (hinv : Inv cond s) (hpos : t.pos = update s.pos k b)
    (hlock : t.lock = s.lock) (hdata : t.data = s.data) (hk : (s.pos k).holds = false)
    (hresume : ∀ l, b.resumes = some l → (s.pos k).resumes = some l) : DataInv J t := by
  refine h.move hpos ?_ fun l d hl => h.resume k l d (hresume l hl)
  rw [hinv.code_of_not_holds hpos hlock hk, hdata]
  exact h.data

theorem DataInv.inside (h : DataInv J s) (hinv : Inv cond s) (hk : s.pos k = b') (hb' : b'.holds = true)
    (hpos : t.pos = update s.pos k b) (hlock : t.lock = s.lock)
    (hdata : J b'.code s.data → J b.code t.data)
    (hresume : ∀ l d, b.resumes = some l → J none d → J (some l) d) : DataInv J t := by
  obtain ⟨hheld, hcode⟩ := hinv.code_of_pos hk hb'
  refine h.move hpos ?_ hresume
  rw [code_self hpos (hlock.trans hheld)]
  exact hdata (hcode ▸ h.data)

theorem DataInv.take (h : DataInv J s) {l : L} (hfree : s.lock = none)
    (hdata : J none s.data → J (some l) s.data) :
    DataInv J (State.goto { s with lock := some k } k (.body l)) := by
  refine h.move rfl ?_ nofun
  rw [code_self rfl rfl]
  exact hdata (code_free hfree ▸ h.data)

theorem DataInv.drop (h : DataInv J s) (hinv : Inv cond s) (hk : s.pos k = b') (hb' : b'.holds = true)
    (hpos : t.pos = update s.pos k b) (hlock : t.lock = none) (hdata : J b'.code s.data → J none t.data)
    (hresume : ∀ l, b.resumes = some l → b'.resumes = some l) : DataInv J t := by
  refine h.move hpos ?_ fun l d hl => h.resume k l d (by rw [hk, hresume l hl])
  rw [code_free hlock]
  exact hdata ((hinv.code_of_pos hk hb').2 ▸ h.data)

end Moves

theorem DataInv.step (hc : c.Keeps J) (h : DataInv J s) (hinv : Inv cond s) (hstep : step c s a = some t) :
    DataInv J t := by
  cases step_cases hstep with
  | call k st x hpos => exact h.outside hinv rfl rfl rfl (by rw [hpos]; rfl) nofun
  | enter k i st x _ _ hfree => exact h.take hfree (hc.start st x s.data)
  | relock k i l _ hpos hfree => exact h.take hfree (h.resume k l s.data (by rw [hpos]; rfl))
  | go k i l d l' _ hpos hbody => exact h.inside hinv hpos rfl rfl rfl (hc.go _ _ _ _ _ _ _ hbody) nofun
  | wake k i l d l' _ hpos hbody => exact h.inside hinv hpos rfl rfl rfl (hc.wake _ _ _ _ _ _ _ hbody) nofun
  | wait p i l l' _ hpos hbody =>
    refine h.inside hinv hpos rfl rfl rfl (hc.wait _ _ _ _ _ _ hbody) fun l'' d hl => ?_
    cases hl
    exact hc.resume _ _ _ _ _ _ d hbody
  | leave k i l d st _ hpos hbody => exact h.drop hinv hpos rfl rfl rfl (hc.leave _ _ _ _ _ _ _ hbody) nofun
  | skip k i l q _ hpos | woken k i l j _ hpos | look k i l q _ hpos =>
    exact h.inside hinv hpos rfl rfl rfl id nofun
  | sleep p i l _ hpos =>
    exact h.inside hinv hpos rfl rfl rfl id fun l' d hl => h.resume (.proc p) l' d (by rw [hpos]; exact hl)
  | sleepHeld p i l _ hpos => exact h.drop hinv hpos rfl rfl rfl id fun _ => id
  | sleepSet p i l _ hpos | asleep p i l _ hpos =>
    exact h.outside hinv rfl rfl rfl (by rw [hpos]; rfl) fun l' hl => by rw [hpos]; exact hl
  | kill p => exact ⟨h.data, h.resume⟩

theorem dataInv_run (hw : c.Wakes cond) (hc : c.Keeps J) (h0 : AtRest s) (hdata : J none s.data)
    {as : List (Act n X I)} (hrun : Run.exec (step c) s as = some t) : DataInv J t := by
  refine (Run.exec_invariant (I := fun s => Inv cond s ∧ DataInv J s)
    (fun _ _ _ h _ hstep => ⟨h.1.step hw hstep, h.2.step hc h.1 hstep⟩) hrun Run.along_true
    ⟨h0.inv, ?_, fun k l d hl => ?_⟩).2
  · rw [code_free h0.lock]
    exact hdata
  · obtain ⟨st, hk⟩ := h0.pos_out k
    rw [hk] at hl
    cases hl

end Xv6.Monitor
