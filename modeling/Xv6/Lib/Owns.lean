import Mathlib.Algebra.GroupWithZero.Nat
import Mathlib.Logic.Function.Basic

/-!
# Ownership of numbered resources

Cells hold pointers to resources, which are numbered from 1 on; 0 points to nothing. In `Owns` the
resources in use, among those in `dom`, are exactly those that some cell points to, and no two cells
point to one resource. `record` stores a fresh resource in an empty cell, `release` empties cells and
gives back what they point to.
-/

structure Owns {κ : Type*} (ptr : κ → Nat) (dom : Nat → Prop) (used : Nat → Bool) : Prop where
  inDom : ∀ c, ptr c ≠ 0 → dom (ptr c)
  isUsed : ∀ c, ptr c ≠ 0 → used (ptr c) = true
  inj : ∀ c c', ptr c ≠ 0 → ptr c = ptr c' → c = c'
  full : ∀ b, b ≠ 0 → dom b → used b = true → ∃ c, ptr c = b

namespace Owns

open Function

variable {κ : Type*} {ptr ptr' : κ → Nat} {dom : Nat → Prop} {used used' : Nat → Bool} {c : κ} {b : Nat}

theorem ne_of_unused (h : Owns ptr dom used) (hb : used b = false) (hc : ptr c ≠ 0) : ptr c ≠ b := by
  rintro rfl
  rw [h.isUsed c hc] at hb
  cases hb

theorem record (h : Owns ptr dom used) (hc : ptr c = 0) (hdom : dom b) (hb : used b = false)
    (hself : ptr' c = b) (hother : ∀ c', c' ≠ c → ptr' c' = ptr c')
    (hused : used' = update used b true) : Owns ptr' dom used' := by
  have hne : ∀ c', c' ≠ c → ptr' c' ≠ 0 → ptr' c' ≠ b := fun c' hc' h0 => by
    rw [hother c' hc'] at h0 ⊢
    exact h.ne_of_unused hb h0
  refine ⟨fun c' h0 => ?_, fun c' h0 => ?_, fun c₁ c₂ h0 heq => ?_, fun b' hb0 hd hu => ?_⟩
  · by_cases hc' : c' = c
    · rw [hc', hself]
      exact hdom
    · rw [hother c' hc'] at h0 ⊢
      exact h.inDom c' h0
  · rw [hused]
    by_cases hc' : c' = c
    · rw [hc', hself, update_self]
    · rw [update_of_ne (hne c' hc' h0), hother c' hc']
      exact h.isUsed c' (hother c' hc' ▸ h0)
  · by_cases h₁ : c₁ = c <;> by_cases h₂ : c₂ = c
    · rw [h₁, h₂]
    · rw [h₁, hself] at heq h0
      exact absurd heq.symm (hne c₂ h₂ (heq ▸ h0))
    · rw [h₂, hself] at heq
      exact absurd heq (hne c₁ h₁ h0)
    · rw [hother c₁ h₁] at heq h0
      rw [hother c₂ h₂] at heq
      exact h.inj c₁ c₂ h0 heq
  · by_cases hbb : b' = b
    · exact ⟨c, hself.trans hbb.symm⟩
    · rw [hused, update_of_ne hbb] at hu
      obtain ⟨c', hc'⟩ := h.full b' hb0 hd hu
      have hcc : c' ≠ c := by
        rintro rfl
        exact hb0 (hc'.symm.trans hc)
      exact ⟨c', (hother c' hcc).trans hc'⟩

theorem release (h : Owns ptr dom used) (S : κ → Prop) (hin : ∀ c, S c → ptr' c = 0)
    (hout : ∀ c, ¬ S c → ptr' c = ptr c)
    (hused : ∀ b, used' b = true ↔ used b = true ∧ ∀ c, S c → ptr c ≠ 0 → ptr c ≠ b) :
    Owns ptr' dom used' := by
  have hS : ∀ c, ptr' c ≠ 0 → ¬ S c := fun c h0 hc => h0 (hin c hc)
  refine ⟨fun c h0 => ?_, fun c h0 => ?_, fun c₁ c₂ h0 heq => ?_, fun b hb0 hd hu => ?_⟩
  · have hc := hS c h0
    rw [hout c hc] at h0 ⊢
    exact h.inDom c h0
  · have hc := hS c h0
    rw [hout c hc] at h0 ⊢
    refine (hused _).mpr ⟨h.isUsed c h0, fun c' hc' h0' heq => hc ?_⟩
    exact h.inj c' c h0' heq ▸ hc'
  · have h₁ := hS c₁ h0
    have h₂ := hS c₂ (heq ▸ h0)
    rw [hout c₁ h₁] at h0 heq
    rw [hout c₂ h₂] at heq
    exact h.inj c₁ c₂ h0 heq
  · obtain ⟨hu, hne⟩ := (hused b).mp hu
    obtain ⟨c, hc⟩ := h.full b hb0 hd hu
    have hcS : ¬ S c := fun hcS => hne c hcS (hc.symm ▸ hb0) hc
    exact ⟨c, (hout c hcS).trans hc⟩

theorem unused_of_filled (h : Owns ptr dom used) (h' : Owns ptr' dom used')
    (hkeep : ∀ c, ptr c ≠ 0 → ptr' c = ptr c) (hc : ptr c = 0) (hc' : ptr' c ≠ 0) :
    used (ptr' c) = false := by
  rw [← Bool.not_eq_true]
  intro hu
  obtain ⟨d, hd⟩ := h.full (ptr' c) hc' (h'.inDom c hc') hu
  have hd0 : ptr d ≠ 0 := hd ▸ hc'
  have hdc : d = c := h'.inj d c (hkeep d hd0 ▸ hd0) ((hkeep d hd0).trans hd)
  exact hd0 (hdc ▸ hc)

theorem filled_of_unused (h : Owns ptr dom used) (h' : Owns ptr' dom used')
    (hkeep : ∀ c, ptr c ≠ 0 → ptr' c = ptr c) (hb0 : b ≠ 0) (hb : dom b) (hu : used b = false)
    (hu' : used' b = true) : ∃ c, ptr c = 0 ∧ ptr' c = b := by
  obtain ⟨c, hc⟩ := h'.full b hb0 hb hu'
  refine ⟨c, ?_, hc⟩
  by_contra hc0
  exact h.ne_of_unused hu hc0 ((hkeep c hc0).symm.trans hc)

end Owns
