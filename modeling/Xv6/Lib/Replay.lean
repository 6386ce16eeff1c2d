import Mathlib.Algebra.GroupWithZero.Nat
import Mathlib.Logic.Function.Basic
import Mathlib.Data.List.Basic

/-!
# Stores written one cell at a time

A program that writes a store cell by cell is cut by a crash after some prefix of its writes.
`replay d ws` is the store `d` after the writes `ws`, in order; the stores a crash can leave behind
are `replay d (ws.take k)`. `Throughout I d ws` says that `I` holds of all of them, and is proved
write by write (`throughout_cons`) and piece by piece (`throughout_append`).
-/

namespace Replay

open Function

variable {α β : Type*} [DecidableEq α]

/-- The store `d` after the writes `ws`, in order. -/
def replay (d : α → β) : List (α × β) → α → β
  | [] => d
  | w :: ws => replay (update d w.1 w.2) ws

@[simp] theorem replay_nil (d : α → β) : replay d [] = d := rfl

@[simp] theorem replay_cons (d : α → β) (w : α × β) (ws : List (α × β)) :
    replay d (w :: ws) = replay (update d w.1 w.2) ws := rfl

theorem replay_append (d : α → β) (ws vs : List (α × β)) :
    replay d (ws ++ vs) = replay (replay d ws) vs := by
  induction ws generalizing d with
  | nil => rfl
  | cons w ws ih => exact ih _

theorem replay_of_forall_ne (d : α → β) (ws : List (α × β)) (a : α) (h : ∀ w ∈ ws, w.1 ≠ a) :
    replay d ws a = d a := by
  induction ws generalizing d with
  | nil => rfl
  | cons w ws ih =>
    rw [replay_cons, ih _ (fun v hv => h v (List.mem_cons_of_mem _ hv)),
      update_of_ne (h w List.mem_cons_self).symm]

/-- `I` holds of the store after every prefix of the writes `ws`. -/
def Throughout (I : (α → β) → Prop) (d : α → β) (ws : List (α × β)) : Prop :=
  ∀ k, I (replay d (ws.take k))

variable {I J : (α → β) → Prop} {d : α → β}

theorem throughout_nil : Throughout I d [] ↔ I d := by
  simp [Throughout]

theorem throughout_cons {w : α × β} {ws : List (α × β)} :
    Throughout I d (w :: ws) ↔ I d ∧ Throughout I (update d w.1 w.2) ws := by
  constructor
  · intro h
    exact ⟨h 0, fun k => h (k + 1)⟩
  · rintro ⟨h0, h⟩ k
    cases k with
    | zero => exact h0
    | succ k => exact h k

theorem throughout_append {ws vs : List (α × β)} :
    Throughout I d (ws ++ vs) ↔ Throughout I d ws ∧ Throughout I (replay d ws) vs := by
  induction ws generalizing d with
  | nil =>
    rw [throughout_nil]
    exact ⟨fun h => ⟨h 0, h⟩, And.right⟩
  | cons w ws ih => rw [List.cons_append, throughout_cons, throughout_cons, ih, and_assoc, replay_cons]

theorem Throughout.mono (hIJ : ∀ d, I d → J d) {ws : List (α × β)} (h : Throughout I d ws) :
    Throughout J d ws :=
  fun k => hIJ _ (h k)

theorem Throughout.last {ws : List (α × β)} (h : Throughout I d ws) : I (replay d ws) := by
  have := h ws.length
  rwa [List.take_length] at this

/-- What every single write of `ws` keeps holds throughout `ws`. -/
theorem throughout_of_step {ws : List (α × β)} (h0 : I d)
    (hstep : ∀ w ∈ ws, ∀ e, I e → I (update e w.1 w.2)) : Throughout I d ws := by
  induction ws generalizing d with
  | nil => exact throughout_nil.mpr h0
  | cons w ws ih =>
    refine throughout_cons.mpr ⟨h0, ih (hstep w List.mem_cons_self d h0) ?_⟩
    exact fun v hv => hstep v (List.mem_cons_of_mem _ hv)

end Replay
