import Mathlib.Algebra.GroupWithZero.Nat
import Mathlib.Data.List.Basic
import Mathlib.Logic.Function.Basic

/-!
# Ring buffers with free-running counters

A ring of `N` cells holds the items at the positions `r`, `r + 1`, …, each in the cell of its position
modulo `N`. The positions themselves are counters modulo `M`; if `N` divides `M` a counter that wraps
around stays in step with its cell.
-/

namespace Ring

open Function

variable {α : Type*} {N M r n : Nat} {buf : Nat → α}

/-- The `n` items of the ring from position `r` on, the oldest first. -/
def items (N : Nat) (buf : Nat → α) (r n : Nat) : List α :=
  (List.range n).map fun k => buf ((r + k) % N)

@[simp] theorem items_zero : items N buf r 0 = [] := rfl

theorem items_succ : items N buf r (n + 1) = buf (r % N) :: items N buf (r + 1) n := by
  simp only [items, List.range_succ_eq_map, List.map_cons, List.map_map, Nat.add_zero]
  congr 2
  funext k
  simp only [Function.comp_apply]
  congr 2
  omega

theorem length_items : (items N buf r n).length = n := by
  rw [items, List.length_map, List.length_range]

theorem items_concat : items N buf r (n + 1) = items N buf r n ++ [buf ((r + n) % N)] := by
  simp only [items, List.range_succ, List.map_append, List.map_cons, List.map_nil]

theorem items_mod (h : N ∣ M) : items N buf (r % M) n = items N buf r n := by
  simp only [items]
  congr 1
  funext k
  rw [Nat.add_mod, Nat.mod_mod_of_dvd r h, ← Nat.add_mod]

theorem cell_ne {k : Nat} (hk : k < n) (hn : n < N) : (r + k) % N ≠ (r + n) % N := by
  intro h
  have := Nat.sub_mod_eq_zero_of_mod_eq h.symm
  rw [Nat.mod_eq_of_lt (by omega)] at this
  omega

theorem items_update (x : α) (hn : n < N) :
    items N (update buf ((r + n) % N) x) r (n + 1) = items N buf r n ++ [x] := by
  simp only [items, List.range_succ, List.map_append, List.map_cons, List.map_nil,
    update_self]
  congr 1
  refine List.map_congr_left fun k hk => ?_
  exact update_of_ne (cell_ne (List.mem_range.mp hk) hn) _ _

/-! ## Counters of `k` bits -/

section Counters

variable {k : Nat} {i j : BitVec k} {x : α}

/-- The items between two counters. -/
def between (N : Nat) (buf : Nat → α) (i j : BitVec k) : List α := items N buf i.toNat (j - i).toNat

theorem length_between : (between N buf i j).length = (j - i).toNat := length_items

theorem toNat_cell (h : N ∣ 2 ^ k) : j.toNat % N = (i.toNat + (j - i).toNat) % N := by
  have hj : j.toNat = (i.toNat + (j - i).toNat) % 2 ^ k := by
    rw [← BitVec.toNat_add, BitVec.add_comm, BitVec.sub_add_cancel]
  rw [hj, Nat.mod_mod_of_dvd _ h]

theorem toNat_one (hk : 1 < 2 ^ k) : (1 : BitVec k).toNat = 1 := by
  show (BitVec.ofNat k 1).toNat = 1
  rw [BitVec.toNat_ofNat, Nat.mod_eq_of_lt hk]

theorem toNat_sub_succ (hlt : (j - i).toNat + 1 < 2 ^ k) : (j + 1 - i).toNat = (j - i).toNat + 1 := by
  rw [show j + 1 - i = (j - i) + 1 by rw [BitVec.sub_eq_add_neg, BitVec.sub_eq_add_neg]; ac_rfl,
    BitVec.toNat_add, toNat_one (by omega), Nat.mod_eq_of_lt hlt]

theorem toNat_sub_pred (hne : i ≠ j) : (j - i).toNat = (j - (i + 1)).toNat + 1 := by
  have hsum : j - i = j - (i + 1) + 1 := by
    rw [BitVec.sub_eq_add_neg, BitVec.sub_eq_add_neg, BitVec.neg_add, BitVec.sub_eq_add_neg,
      BitVec.add_assoc, BitVec.add_assoc, BitVec.add_comm (-1), BitVec.add_right_neg, BitVec.add_zero]
  have hne0 : (j - i).toNat ≠ 0 := by
    intro h0
    have hz : j - i = 0#k := BitVec.eq_of_toNat_eq h0
    have hj : j - i + i = j := BitVec.sub_add_cancel j i
    rw [hz, BitVec.zero_add] at hj
    exact hne hj
  have hnat : (j - i).toNat = ((j - (i + 1)).toNat + 1) % 2 ^ k := by
    rw [← toNat_one (k := k) (by omega), ← BitVec.toNat_add, ← hsum]
  rcases Nat.lt_or_ge ((j - (i + 1)).toNat + 1) (2 ^ k) with h | h
  · rw [hnat, Nat.mod_eq_of_lt h]
  · rw [show (j - (i + 1)).toNat + 1 = 2 ^ k by omega, Nat.mod_self] at hnat
    exact absurd hnat hne0

theorem between_write (h : N ∣ 2 ^ k) (hlt : (between N buf i j).length < N) :
    between N (update buf (j.toNat % N) x) i j = between N buf i j := by
  rw [length_between] at hlt
  refine List.map_congr_left fun m hm => update_of_ne ?_ _ _
  rw [toNat_cell h]
  exact cell_ne (List.mem_range.mp hm) hlt

theorem between_push (h : N ∣ 2 ^ k) (hN : N < 2 ^ k) (hlt : (between N buf i j).length < N) :
    between N buf i (j + 1) = between N buf i j ++ [buf (j.toNat % N)] := by
  rw [length_between] at hlt
  rw [between, toNat_sub_succ (by omega), items_concat, between, toNat_cell h]

theorem between_push_write (h : N ∣ 2 ^ k) (hN : N < 2 ^ k) (hlt : (between N buf i j).length < N) :
    between N (update buf (j.toNat % N) x) i (j + 1) = between N buf i j ++ [x] := by
  have hsame : between N (update buf (j.toNat % N) x) i j = between N buf i j := between_write h hlt
  rw [between_push h hN (hsame ▸ hlt), hsame, update_self]

theorem between_pop (h : N ∣ 2 ^ k) (hne : i ≠ j) :
    between N buf i j = buf (i.toNat % N) :: between N buf (i + 1) j := by
  have hk : 1 < 2 ^ k := by
    have hpred := toNat_sub_pred hne
    omega
  rw [between, toNat_sub_pred hne, items_succ, between, BitVec.toNat_add, toNat_one hk, items_mod h]

end Counters

end Ring
