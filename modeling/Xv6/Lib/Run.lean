import Mathlib.Algebra.GroupWithZero.Nat
import Mathlib.Data.List.Basic
import Mathlib.Logic.Basic

/-!
# Runs of a state machine

A machine is a partial function `step : σ → ι → Option σ`; an action that is not enabled has no
successor. `exec` runs a list of actions, `Along G` says that every action of a run meets the
condition `G` in the state in which it is taken, and `exec_invariant` is the induction that carries
an invariant from the first state of a run to its last.
-/

namespace Run

/-- Runs of two threads name them `0` and `1`. -/
instance neZero_two : NeZero 2 := ⟨by decide⟩

variable {σ ι : Type*} (step : σ → ι → Option σ)

/-- The state after the actions `as`, if each of them is enabled. -/
def exec : σ → List ι → Option σ
  | s, [] => some s
  | s, a :: as => (step s a).bind fun t => exec t as

/-- Every action of the run from `s` meets `G` in the state in which it is taken. -/
def Along (G : σ → ι → Prop) : σ → List ι → Prop
  | _, [] => True
  | s, a :: as => G s a ∧ match step s a with
    | none => True
    | some t => Along G t as

instance decidableAlong (G : σ → ι → Prop) [∀ s a, Decidable (G s a)] :
    ∀ s as, Decidable (Along step G s as)
  | _, [] => inferInstanceAs (Decidable True)
  | s, a :: as =>
    have : Decidable (match step s a with
        | none => True
        | some t => Along step G t as) :=
      match step s a with
      | none => inferInstanceAs (Decidable True)
      | some t => decidableAlong G t as
    inferInstanceAs (Decidable (_ ∧ _))

/-- What the actions in `mine` add, along the run from `s`, to the list that `get` reads off a state. -/
def adds {β : Type*} (get : σ → List β) (mine : ι → Bool) : σ → List ι → List β
  | _, [] => []
  | s, a :: as => match step s a with
    | none => []
    | some t => (if mine a then (get t).drop (get s).length else []) ++ adds get mine t as

variable {step} {G : σ → ι → Prop} {I : σ → Prop} {s t u : σ} {a : ι} {as bs : List ι}

@[simp] theorem exec_nil : exec step s [] = some s := rfl

theorem exec_cons : exec step s (a :: as) = some u ↔ ∃ t, step s a = some t ∧ exec step t as = some u :=
  Option.bind_eq_some_iff

theorem Along.tail (h : Along step G s (a :: as)) (ha : step s a = some t) : Along step G t as := by
  have := h.2
  rwa [ha] at this

theorem Along.and {H : σ → ι → Prop} (hG : Along step G s as) (hH : Along step H s as) :
    Along step (fun s a => G s a ∧ H s a) s as := by
  induction as generalizing s with
  | nil => trivial
  | cons a as ih =>
    refine ⟨⟨hG.1, hH.1⟩, ?_⟩
    cases ha : step s a with
    | none => trivial
    | some t => exact ih (hG.tail ha) (hH.tail ha)

/-- What every step that meets `G` preserves holds at the end of every run that meets `G`. -/
theorem exec_invariant (hstep : ∀ s a t, I s → G s a → step s a = some t → I t)
    (hrun : exec step s as = some t) (hG : Along step G s as) (h0 : I s) : I t := by
  induction as generalizing s with
  | nil =>
    rw [exec_nil, Option.some.injEq] at hrun
    exact hrun ▸ h0
  | cons a as ih =>
    obtain ⟨r, hr, ht⟩ := exec_cons.mp hrun
    exact ih ht (hG.tail hr) (hstep s a r h0 hG.1 hr)

theorem exec_adds {β : Type*} {get : σ → List β} {mine : ι → Bool} {I : σ → List β → Prop}
    (hstep : ∀ s a t l, I s l → G s a → step s a = some t →
      I t (l ++ if mine a then (get t).drop (get s).length else []))
    (hrun : exec step s as = some t) (hG : Along step G s as) {l : List β} (h0 : I s l) :
    I t (l ++ adds step get mine s as) := by
  induction as generalizing s l with
  | nil =>
    rw [exec_nil, Option.some.injEq] at hrun
    rw [adds, List.append_nil]
    exact hrun ▸ h0
  | cons a as ih =>
    obtain ⟨r, hr, ht⟩ := exec_cons.mp hrun
    have hrest := ih ht (hG.tail hr) (hstep s a r l h0 hG.1 hr)
    simpa only [adds, hr, List.append_assoc] using hrest

theorem exec_simulates {τ : Type*} {step' : τ → ι → Option τ} {R : σ → τ → Prop}
    (hstep : ∀ s x a t, R s x → step s a = some t → ∃ y, step' x a = some y ∧ R t y) {x : τ}
    (hrun : exec step s as = some t) (h0 : R s x) : ∃ y, exec step' x as = some y ∧ R t y := by
  induction as generalizing s x with
  | nil =>
    rw [exec_nil, Option.some.injEq] at hrun
    exact ⟨x, rfl, hrun ▸ h0⟩
  | cons a as ih =>
    obtain ⟨r, hr, ht⟩ := exec_cons.mp hrun
    obtain ⟨y, hy, hR⟩ := hstep s x a r h0 hr
    obtain ⟨z, hz, hRz⟩ := ih ht hR
    exact ⟨z, exec_cons.mpr ⟨y, hy, hz⟩, hRz⟩

theorem along_of_forall (h : ∀ a ∈ as, ∀ s, G s a) : Along step G s as := by
  induction as generalizing s with
  | nil => trivial
  | cons a as ih =>
    obtain ⟨ha, has⟩ := List.forall_mem_cons.mp h
    refine ⟨ha s, ?_⟩
    cases step s a with
    | none => trivial
    | some t => exact ih has

theorem along_true : Along step (fun _ _ => True) s as := along_of_forall fun _ _ _ => trivial

end Run
