import Mathlib.Algebra.GroupWithZero.Nat
import Mathlib.Data.List.Pairwise
import Mathlib.Logic.Function.Basic

/-!
# Lists of disjoint extents

An extent at the address `a` is the interval from `a` to `a + len a`. In a list that is `Apart` each
extent ends before the next one begins, with a gap between them; `Cover` is the set of the addresses in
some extent of the list.
-/

namespace Extents

variable {len len' : Nat → Nat} {l u v : List Nat} {a b x : Nat}

/-- The addresses of the extent at `a`. -/
def In (len : Nat → Nat) (a x : Nat) : Prop := a ≤ x ∧ x < a + len a

def Apart (len : Nat → Nat) (l : List Nat) : Prop := l.Pairwise fun a b => a + len a < b

def Cover (len : Nat → Nat) (l : List Nat) (x : Nat) : Prop := ∃ a ∈ l, In len a x

theorem in_congr (h : len' a = len a) : In len' a x ↔ In len a x := by
  unfold In
  rw [h]

theorem cover_nil : ¬ Cover len [] x := nofun

theorem cover_cons : Cover len (a :: l) x ↔ In len a x ∨ Cover len l x := by
  simp [Cover]

theorem cover_of_empty (h : len a = 0) : Cover len (a :: l) x ↔ Cover len l x := by
  rw [cover_cons, or_iff_right]
  unfold In
  omega

theorem cover_append : Cover len (u ++ v) x ↔ Cover len u x ∨ Cover len v x := by
  simp only [Cover, List.mem_append, or_and_right, exists_or]

theorem cover_congr (h : ∀ a ∈ l, len' a = len a) : Cover len' l x ↔ Cover len l x :=
  exists_congr fun a => and_congr_right fun ha => in_congr (h a ha)

theorem apart_congr (h : ∀ a ∈ l, len' a = len a) (hl : Apart len l) : Apart len' l :=
  List.Pairwise.imp_of_mem (fun {a b} ha _ hab => by rwa [h a ha]) hl

theorem Apart.lt (hl : Apart len (a :: l)) (hb : b ∈ l) : a + len a < b := (List.pairwise_cons.mp hl).1 b hb

theorem Apart.tail (hl : Apart len (a :: l)) : Apart len l := (List.pairwise_cons.mp hl).2

theorem apart_append : Apart len (u ++ v) ↔ Apart len u ∧ Apart len v ∧ ∀ a ∈ u, ∀ b ∈ v, a + len a < b :=
  List.pairwise_append

theorem Apart.sorted (hl : Apart len l) : l.Pairwise (· < ·) :=
  List.Pairwise.imp (fun h => Nat.lt_of_le_of_lt (Nat.le_add_right _ _) h) hl

theorem Apart.lt_or_lt (hl : Apart len l) (ha : a ∈ l) (hb : b ∈ l) (hne : a ≠ b) :
    a + len a < b ∨ b + len b < a := by
  have hsymm : Std.Symm fun a b => a + len a < b ∨ b + len b < a := ⟨fun _ _ => Or.symm⟩
  have hpair : l.Pairwise fun a b => a + len a < b ∨ b + len b < a := List.Pairwise.imp (fun h => .inl h) hl
  exact hpair.forall ha hb hne

theorem Apart.disjoint (hl : Apart len l) (ha : a ∈ l) (hb : b ∈ l) (hne : a ≠ b) (hx : In len a x) :
    ¬ In len b x := by
  have := hl.lt_or_lt ha hb hne
  unfold In at hx ⊢
  omega

theorem apart_mono (h : ∀ a ∈ l, len' a ≤ len a) (hl : Apart len l) : Apart len' l :=
  List.Pairwise.imp_of_mem (fun {a _} ha _ hab => Nat.lt_of_le_of_lt (Nat.add_le_add_left (h a ha) a) hab) hl

theorem in_join (h : a + len a = b) (h' : len' a = len a + len b) : In len' a x ↔ In len a x ∨ In len b x := by
  unfold In
  omega

theorem le_or_le (ha : 0 < len a) (hb : 0 < len' b) (h : ∀ x, In len a x → ¬ In len' b x) :
    a + len a ≤ b ∨ b + len' b ≤ a := by
  have := h (max a b)
  unfold In at this
  omega

theorem Apart.interval (hl : Apart len l) {s e : Nat} (hse : s < e)
    (h : ∀ x, s ≤ x → x < e → Cover len l x) : ∃ a ∈ l, a ≤ s ∧ e ≤ a + len a := by
  obtain ⟨a, ha, has⟩ := h s (Nat.le_refl _) hse
  refine ⟨a, ha, has.1, ?_⟩
  by_contra hlt
  obtain ⟨b, hb, hbx⟩ := h (a + len a) (Nat.le_of_lt has.2) (Nat.lt_of_not_le hlt)
  have hne : a ≠ b := by
    rintro rfl
    exact absurd hbx.2 (Nat.lt_irrefl _)
  have := hl.lt_or_lt ha hb hne
  unfold In at hbx
  omega

theorem exists_place (hs : (a :: l).Pairwise (· < ·)) (hab : a < b) (hb : b ∉ l) :
    ∃ u p v, a :: l = u ++ p :: v ∧ p < b ∧ ∀ c ∈ v, b < c := by
  induction l generalizing a with
  | nil => exact ⟨[], a, [], rfl, hab, nofun⟩
  | cons d l ih =>
    obtain ⟨-, hs'⟩ := List.pairwise_cons.mp hs
    by_cases hd : d < b
    · obtain ⟨u, p, v, heq, hp, hv⟩ := ih hs' hd fun hc => hb (List.mem_cons_of_mem _ hc)
      exact ⟨a :: u, p, v, by rw [heq]; rfl, hp, hv⟩
    · have hne : b ≠ d := fun hc => hb (hc ▸ List.mem_cons_self)
      have hbd : b < d := by omega
      refine ⟨[], a, d :: l, rfl, hab, List.forall_mem_cons.mpr ⟨hbd, fun c hc => ?_⟩⟩
      exact Nat.lt_trans hbd ((List.pairwise_cons.mp hs').1 c hc)

end Extents
