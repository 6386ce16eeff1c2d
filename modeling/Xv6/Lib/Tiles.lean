import Mathlib.Algebra.GroupWithZero.Nat
import Mathlib.Data.List.Pairwise
import Mathlib.Algebra.BigOperators.Group.List.Basic

/-!
# Intervals laid end to end

Each element `c` of a list stands for the interval from `start c` to `start c + len c`. In `Tiles start
len a l b` the intervals of `l`, in their order, are laid end to end from `a` to `b`.
-/

variable {α : Type*}

def Tiles (start len : α → Nat) : Nat → List α → Nat → Prop
  | a, [], b => a = b
  | a, c :: l, b => start c = a ∧ Tiles start len (a + len c) l b

namespace Tiles

variable {start len : α → Nat} {a b x : Nat} {l : List α} {c : α}

theorem nil : Tiles start len a [] a := rfl

section

variable (h : Tiles start len a l b)
include h

theorem concat (hc : start c = b) : Tiles start len a (l ++ [c]) (b + len c) := by
  induction l generalizing a with
  | nil =>
    have hab : a = b := h
    exact ⟨hc.trans hab.symm, congrArg (· + len c) hab⟩
  | cons d l ih => exact ⟨h.1, ih h.2⟩

theorem le : a ≤ b := by
  induction l generalizing a with
  | nil => exact Nat.le_of_eq h
  | cons d l ih => exact Nat.le_trans (Nat.le_add_right a (len d)) (ih h.2)

theorem sum_eq : b = a + (l.map len).sum := by
  induction l generalizing a with
  | nil => exact (h : a = b).symm
  | cons d l ih =>
    rw [ih h.2, List.map_cons, List.sum_cons, Nat.add_assoc]

theorem mem_iff :
    (∃ c ∈ l, start c ≤ x ∧ x < start c + len c) ↔ a ≤ x ∧ x < b := by
  induction l generalizing a with
  | nil =>
    have hab : a = b := h
    simp only [List.not_mem_nil, false_and, exists_false, false_iff]
    omega
  | cons d l ih =>
    have hle := h.2.le
    have hd := h.1
    have hsplit : (∃ c ∈ d :: l, start c ≤ x ∧ x < start c + len c) ↔
        (start d ≤ x ∧ x < start d + len d) ∨ ∃ c ∈ l, start c ≤ x ∧ x < start c + len c := by
      simp only [List.mem_cons, exists_eq_or_imp]
    rw [hsplit, ih h.2]
    omega

theorem start_ge (hc : c ∈ l) : a ≤ start c := by
  induction l generalizing a with
  | nil => exact absurd hc List.not_mem_nil
  | cons d l ih =>
    rcases List.mem_cons.mp hc with rfl | hc
    · exact Nat.le_of_eq h.1.symm
    · exact Nat.le_trans (Nat.le_add_right a (len d)) (ih h.2 hc)

theorem end_le (hc : c ∈ l) : start c + len c ≤ b := by
  induction l generalizing a with
  | nil => exact absurd hc List.not_mem_nil
  | cons d l ih =>
    rcases List.mem_cons.mp hc with rfl | hc
    · rw [h.1]
      exact h.2.le
    · exact ih h.2 hc

theorem pairwise : l.Pairwise fun c d => start c + len c ≤ start d := by
  induction l generalizing a with
  | nil => exact .nil
  | cons d l ih =>
    refine .cons (fun c hc => ?_) (ih h.2)
    rw [h.1]
    exact h.2.start_ge hc

end

theorem sum_map_grow {f g : Nat → Nat} {ids : List Nat} {k v : Nat} (hn : ids.Nodup) (hk : k ∈ ids)
    (hself : g k = v + f k) (hother : ∀ i, i ≠ k → g i = f i) : (ids.map g).sum = v + (ids.map f).sum := by
  induction ids with
  | nil => exact absurd hk List.not_mem_nil
  | cons i ids ih =>
    obtain ⟨hi, hn⟩ := List.nodup_cons.mp hn
    rw [List.map_cons, List.map_cons, List.sum_cons, List.sum_cons]
    by_cases hik : i = k
    · have hsame : ids.map g = ids.map f := List.map_congr_left fun j hj =>
        hother j fun hjk => hi (hik.trans hjk.symm ▸ hj)
      rw [hik, hself, hsame, Nat.add_assoc]
    · rw [ih hn ((List.mem_cons.mp hk).resolve_left (Ne.symm hik)), hother i hik]
      omega

theorem sum_by_key {key : α → Nat} {ids : List Nat} (hn : ids.Nodup) (h : ∀ c ∈ l, key c ∈ ids) :
    (l.map len).sum = (ids.map fun i => ((l.filter fun c => key c = i).map len).sum).sum := by
  induction l with
  | nil =>
    exact (List.sum_eq_zero fun x hx => by
      obtain ⟨_, _, rfl⟩ := List.mem_map.mp hx
      rfl).symm
  | cons c l ih =>
    obtain ⟨hc, hl⟩ := List.forall_mem_cons.mp h
    rw [List.map_cons, List.sum_cons, ih hl]
    refine (sum_map_grow hn hc ?_ fun i hi => ?_).symm
    · rw [List.filter_cons_of_pos (by simp), List.map_cons, List.sum_cons]
    · rw [List.filter_cons_of_neg (by simpa using hi.symm)]

end Tiles
