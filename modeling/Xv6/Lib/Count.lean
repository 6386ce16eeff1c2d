import Mathlib.Data.Int.Order.Basic
import Mathlib.Data.Set.Card

/-!
# Counting pointers

`uses t b` is the number of cells of the table `t` that point to `b`, for a table over any type of which only
finitely many cells are in use. The lemmas say what one assignment to a cell does to it.
-/

namespace Count

open Function

variable {α β : Type*} {t : α → Option β} {a : α} {b : β}

/-- The cells of `t` that hold something. -/
def support (t : α → Option β) : Set α := {a | t a ≠ none}

/-- The number of cells of `t` that hold `b`. -/
noncomputable def uses (t : α → Option β) (b : β) : Nat := {a | t a = some b}.ncard

theorem finite_holding (ht : (support t).Finite) (b : β) : {a | t a = some b}.Finite :=
  ht.subset fun a (ha : t a = some b) => by simp [support, ha]

theorem uses_eq_zero (ht : (support t).Finite) : uses t b = 0 ↔ ∀ a, t a ≠ some b := by
  rw [uses, Set.ncard_eq_zero (finite_holding ht b), Set.eq_empty_iff_forall_notMem]
  rfl

theorem uses_pos (ht : (support t).Finite) (h : t a = some b) : 1 ≤ uses t b := by
  by_contra hc
  exact (uses_eq_zero ht).mp (by omega) a h

theorem uses_le_one (ht : (support t).Finite) (h : ∀ a', t a' = some b → a' = a) : uses t b ≤ 1 :=
  (Set.ncard_le_one (finite_holding ht b)).mpr fun x hx y hy => (h x hx).trans (h y hy).symm

/-- `t'` has no cell in use that `t` has not. -/
def Below (t' t : α → Option β) : Prop := ∀ a, t' a = none ∨ t' a = t a

theorem Below.finite {t' : α → Option β} (h : Below t' t) (ht : (support t).Finite) : (support t').Finite := by
  refine ht.subset fun a ha => ?_
  rcases h a with h0 | heq
  · exact absurd h0 ha
  · show t a ≠ none
    rwa [← heq]

theorem Below.uses_le {t' : α → Option β} (h : Below t' t) (ht : (support t).Finite) (b : β) : uses t' b ≤ uses t b := by
  refine Set.ncard_le_ncard (fun a (ha : t' a = some b) => ?_) (finite_holding ht b)
  rcases h a with h0 | heq
  · rw [h0] at ha
    cases ha
  · exact heq.symm.trans ha

/-! ### One assignment -/

variable [DecidableEq α]

theorem finite_update (ht : (support t).Finite) (a : α) (v : Option β) :
    (support (update t a v)).Finite := by
  refine (ht.insert a).subset fun x hx => ?_
  by_cases hxa : x = a
  · exact .inl hxa
  · refine .inr ?_
    simpa [support, update_of_ne hxa] using hx

variable [DecidableEq β]

def one (v : Option β) (b : β) : Int := if v = some b then 1 else 0

@[simp] theorem one_none (b : β) : one none b = 0 := rfl

theorem one_some (c b : β) : one (some c) b = if c = b then 1 else 0 := by
  simp only [one, Option.some.injEq]

theorem one_nonneg (v : Option β) (b : β) : 0 ≤ one v b := by
  unfold one
  split <;> decide

theorem uses_eq_add (ht : (support t).Finite) (a : α) (b : β) :
    (uses t b : Int) = {x | x ≠ a ∧ t x = some b}.ncard + one (t a) b := by
  have hfin : {x | x ≠ a ∧ t x = some b}.Finite := (finite_holding ht b).subset fun x hx => hx.2
  by_cases ha : t a = some b
  · have heq : {x | t x = some b} = insert a {x | x ≠ a ∧ t x = some b} := by
      ext x
      by_cases hx : x = a <;> simp [hx, ha]
    rw [uses, heq, Set.ncard_insert_of_notMem (by simp) hfin, one, if_pos ha]
    rfl
  · have heq : {x | t x = some b} = {x | x ≠ a ∧ t x = some b} := by
      ext x
      by_cases hx : x = a <;> simp [hx, ha]
    rw [uses, heq, one, if_neg ha, add_zero]

theorem uses_update (ht : (support t).Finite) (a : α) (v : Option β) (b : β) :
    (uses (update t a v) b : Int) = uses t b + one v b - one (t a) b := by
  rw [uses_eq_add (finite_update ht a v) a b, uses_eq_add ht a b, update_self]
  have heq : {x | x ≠ a ∧ update t a v x = some b} = {x | x ≠ a ∧ t x = some b} := by
    ext x
    by_cases hx : x = a
    · simp [hx]
    · simp [hx]
  rw [heq]
  omega

end Count
