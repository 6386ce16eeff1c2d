import Mathlib.Algebra.GroupWithZero.Nat
import Mathlib.Data.List.Basic
import Mathlib.Logic.Function.Basic

/-!
# Cells copied one after the other

`moves d s is m` copies, for each index `i` of `is` in turn, the cell `s i` to the cell `d i`. The result
is a simultaneous copy if no cell is overwritten before it is read.
-/

namespace Moves

open Function

variable {ι α β : Type} [DecidableEq α] {d s : ι → α} {is : List ι} {i : ι} {a : α}

def moves (d s : ι → α) (is : List ι) (m : α → β) : α → β :=
  is.foldl (fun m i => update m (d i) (m (s i))) m

theorem moves_cons (m : α → β) : moves d s (i :: is) m = moves d s is (update m (d i) (m (s i))) := rfl

theorem moves_other (m : α → β) (h : ∀ i ∈ is, a ≠ d i) : moves d s is m a = m a := by
  induction is generalizing m with
  | nil => rfl
  | cons i is ih =>
    rw [moves_cons, ih _ fun j hj => h j (List.mem_cons_of_mem i hj), update_of_ne (h i List.mem_cons_self)]

theorem moves_self (m : α → β) (hd : is.Pairwise fun i j => d i ≠ d j)
    (hs : is.Pairwise fun i j => d i ≠ s j) (hi : i ∈ is) : moves d s is m (d i) = m (s i) := by
  induction is generalizing m with
  | nil => cases hi
  | cons j is ih =>
    rw [List.pairwise_cons] at hd hs
    rw [moves_cons]
    rcases List.mem_cons.mp hi with rfl | hi
    · rw [moves_other _ hd.1, update_self]
    · rw [ih _ hd.2 hs.2 hi, update_of_ne (hs.1 i hi).symm]

end Moves
