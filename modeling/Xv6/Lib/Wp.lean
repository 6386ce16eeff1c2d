import Mathlib.Logic.Basic

/-!
# Weakest preconditions for computations with a state and panics

`wp f Q E s`: started in `s`, the computation `f` returns with a value and a state that satisfy `Q`, or
it stops with an error that `E` allows. A specification of `f` is a theorem with this conclusion, and
`wp.bind` runs a program through the specifications of its parts.
-/

namespace Wp

variable {σ τ ε α β γ : Type}

def wp (f : StateT σ (Except ε) α) (Q : α → σ → Prop) (E : ε → Prop) (s : σ) : Prop :=
  match f.run s with
  | .ok (a, t) => Q a t
  | .error e => E e

variable {f : StateT σ (Except ε) α} {g : α → StateT σ (Except ε) β} {Q R : α → σ → Prop}
  {S : β → σ → Prop} {E E' : ε → Prop} {s t : σ} {a : α} {e : ε}

theorem wp_of_ok (h : wp f Q E s) (hf : f.run s = .ok (a, t)) : Q a t := by
  rwa [wp, hf] at h

theorem wp_of_error (h : wp f Q E s) (hf : f.run s = .error e) : E e := by
  rwa [wp, hf] at h

theorem ok_of_map {x : Except ε α} {h : α → γ} {c : γ} (hx : x.map h = .ok c) : ∃ a, x = .ok a ∧ h a = c := by
  cases x with
  | error e => cases hx
  | ok a => exact ⟨a, rfl, Except.ok.inj hx⟩

theorem wp.imp (h : wp f Q E s) (hQ : ∀ a t, Q a t → R a t) (hE : ∀ e, E e → E' e) :
    wp f R E' s := by
  unfold wp at h ⊢
  cases hf : f.run s with rw [hf] at h
  | ok x => exact hQ x.1 x.2 h
  | error e => exact hE e h

theorem wp.mono (h : wp f Q E s) (hQ : ∀ a t, Q a t → R a t) : wp f R E s :=
  h.imp hQ fun _ he => he

theorem wp.with_run (h : wp f Q E s) : wp f (fun a t => Q a t ∧ f.run s = .ok (a, t)) E s := by
  unfold wp at h ⊢
  cases hf : f.run s with rw [hf] at h
  | ok x => exact ⟨h, rfl⟩
  | error e => exact h

theorem wp.of_forall (hQ : ∀ a t, Q a t) (hE : ∀ e, E e) : wp f Q E s := by
  unfold wp
  cases f.run s with
  | ok x => exact hQ x.1 x.2
  | error e => exact hE e

theorem wp.of_not (h : wp f Q E s) (h' : wp f R (fun e => ¬ E e) s) : wp f Q (fun _ => False) s := by
  unfold wp at h h' ⊢
  cases hf : f.run s with rw [hf] at h h'
  | ok x => exact h
  | error e => exact h' h

theorem exists_of_wp (h : wp f Q (fun _ => False) s) : ∃ a t, f.run s = .ok (a, t) ∧ Q a t := by
  unfold wp at h
  cases hf : f.run s with rw [hf] at h
  | ok x => exact ⟨x.1, x.2, rfl, h⟩
  | error e => exact h.elim

@[simp] theorem wp_pure : wp (pure a : StateT σ (Except ε) α) Q E s ↔ Q a s := Iff.rfl

theorem wp_bind : wp (f >>= g) S E s ↔ wp f (fun a t => wp (g a) S E t) E s := by
  unfold wp
  rw [StateT.run_bind]
  cases f.run s <;> rfl

theorem wp.bind (h : wp f Q E s) (hg : ∀ a t, Q a t → wp (g a) S E t) : wp (f >>= g) S E s :=
  wp_bind.mpr (h.mono hg)

@[simp] theorem wp_get {Q : σ → σ → Prop} : wp (get : StateT σ (Except ε) σ) Q E s ↔ Q s s := Iff.rfl

@[simp] theorem wp_modify {Q : PUnit → σ → Prop} (h : σ → σ) :
    wp (modify h : StateT σ (Except ε) PUnit) Q E s ↔ Q ⟨⟩ (h s) := Iff.rfl

theorem wp_map {h : α → γ} {Q : γ → σ → Prop} : wp (h <$> f) Q E s ↔ wp f (fun a t => Q (h a) t) E s := by
  unfold wp
  rw [StateT.run_map]
  cases f.run s <;> rfl

theorem wp_ite {c : Prop} [Decidable c] {f f' : StateT σ (Except ε) α} :
    wp (if c then f else f') Q E s ↔ (c → wp f Q E s) ∧ (¬ c → wp f' Q E s) := by
  by_cases hc : c <;> simp [hc]

/-- A loop over a list; `I` is what holds after a part of the list. -/
theorem wp_forM {f : γ → StateT σ (Except ε) PUnit} {l : List γ} {Q : PUnit → σ → Prop}
    (I : List γ → σ → Prop) (h0 : I [] s)
    (hstep : ∀ pre c post, l = pre ++ c :: post → ∀ t, I pre t → wp (f c) (fun _ u => I (pre ++ [c]) u) E t)
    (hQ : ∀ t, I l t → Q ⟨⟩ t) : wp (l.forM f) Q E s := by
  suffices H : ∀ rest pre, l = pre ++ rest → ∀ t, I pre t → wp (rest.forM f) Q E t from H l [] rfl s h0
  intro rest
  induction rest with
  | nil =>
    intro pre hl t ht
    rw [List.append_nil] at hl
    exact hQ t (hl ▸ ht)
  | cons c rest ih =>
    intro pre hl t ht
    show wp (f c >>= fun _ => rest.forM f) Q E t
    refine (hstep pre c rest hl t ht).bind fun _ u hu => ih (pre ++ [c]) ?_ u hu
    rw [hl, List.append_assoc]
    rfl

theorem wp_run (hf : f.run s = .ok (a, t)) : wp f Q E s ↔ Q a t := by
  unfold wp
  rw [hf]

/-- A computation on a part of the state. -/
def zoom (view : τ → σ) (put : τ → σ → τ) (f : StateT σ (Except ε) α) : StateT τ (Except ε) α :=
  fun x => (f.run (view x)).map fun r => (r.1, put x r.2)

theorem wp_zoom {view : τ → σ} {put : τ → σ → τ} {Q : α → τ → Prop} {x : τ} :
    wp (zoom view put f) Q E x ↔ wp f (fun a t => Q a (put x t)) E (view x) := by
  have hrun : (zoom view put f).run x = (f.run (view x)).map fun r => (r.1, put x r.2) := rfl
  unfold wp
  rw [hrun]
  cases f.run (view x) <;> rfl

end Wp
