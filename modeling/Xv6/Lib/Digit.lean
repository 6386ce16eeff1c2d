import Mathlib.Algebra.GroupWithZero.Nat
import Mathlib.Algebra.Order.Group.Nat
import Mathlib.Data.Nat.Basic

/-!
# Digits of a number

`get B w k` is the digit of `w` with the weight `B ^ k`, and `set B w k d` is `w` with `d` in its place.
-/

namespace Digit

variable {B w k j d : Nat}

def get (B w k : Nat) : Nat := w / B ^ k % B

def set (B w k d : Nat) : Nat := w / B ^ (k + 1) * B ^ (k + 1) + d * B ^ k + w % B ^ k

theorem set_mod (B w k d : Nat) : set B w k d % B ^ k = w % B ^ k := by
  rw [set, Nat.pow_succ, Nat.mul_comm (B ^ k) B, ← Nat.mul_assoc, ← Nat.add_mul, Nat.add_comm,
    Nat.add_mul_mod_self_right, Nat.mod_mod]

theorem set_div (hB : 0 < B) : set B w k d / B ^ k = w / B ^ (k + 1) * B + d := by
  have hpos : 0 < B ^ k := Nat.pow_pos hB
  rw [set, Nat.pow_succ, Nat.mul_comm (B ^ k) B, ← Nat.mul_assoc, ← Nat.add_mul, Nat.add_comm,
    Nat.add_mul_div_right _ _ hpos, Nat.div_eq_of_lt (Nat.mod_lt _ hpos), Nat.zero_add]

theorem get_set_self (hd : d < B) : get B (set B w k d) k = d := by
  rw [get, set_div (Nat.zero_lt_of_lt hd), Nat.add_comm, Nat.add_mul_mod_self_right, Nat.mod_eq_of_lt hd]

theorem get_mod (h : j < k) : get B (w % B ^ k) j = get B w j := by
  obtain ⟨m, rfl⟩ := Nat.exists_eq_add_of_lt h
  rw [get, get, Nat.add_assoc, Nat.pow_add, Nat.mod_mul_right_div_self, Nat.pow_succ',
    Nat.mod_mul_right_mod]

theorem get_div (h : k ≤ j) : get B w j = get B (w / B ^ k) (j - k) := by
  rw [get, get, Nat.div_div_eq_div_mul, ← Nat.pow_add, Nat.add_sub_cancel' h]

theorem get_set_of_ne (hd : d < B) (h : j ≠ k) : get B (set B w k d) j = get B w j := by
  have hB : 0 < B := Nat.zero_lt_of_lt hd
  rcases Nat.lt_or_gt_of_ne h with hlt | hgt
  · rw [← get_mod hlt, set_mod, get_mod hlt]
  · have hup : set B w k d / B ^ (k + 1) = w / B ^ (k + 1) := by
      rw [Nat.pow_succ, ← Nat.div_div_eq_div_mul, set_div hB, Nat.add_comm,
        Nat.add_mul_div_right _ _ hB, Nat.div_eq_of_lt hd, Nat.zero_add, Nat.pow_succ]
    rw [get_div hgt, hup, ← get_div hgt]

end Digit
