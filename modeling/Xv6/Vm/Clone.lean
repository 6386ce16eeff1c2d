import Xv6.Vm.Bytes
import Xv6.Vm.Grow

/-!
# Copying an address space

`uvmcopy` adds the pages of one page table to another one, each with the flags and the contents of the
original, or undoes what it has done.
-/

namespace Xv6.Vm

open Function Wp

variable {s s₀ : Mem} {old root sz : Nat} {new : Multiset Nat} {ws : List Nat} {E : Panic → Prop}

/-- The contents and the flags of a page of the original. -/
def rowOf (s : Mem) (old vpn : Nat) : Fin 512 → Nat := s.page (pte2pa ((pte s old vpn).getD 0))

def flagsOf (s : Mem) (old vpn : Nat) : Nat := pteFlags ((pte s old vpn).getD 0)

/-- The pages from 0 to `sz` are mapped in `old` and not in `root`, and what is in `old` is neither free nor a
table of `root`. -/
structure Copyable (s : Mem) (old root sz : Nat) : Prop where
  table : Table s root
  pool : Pool s (tables s root)
  size : sz ≤ MAXVA
  mapped : ∀ vpn < npages sz, ∃ w, pte s old vpn = some w ∧ pteFlags w ≠ PTE_V ∧ pte2pa w ∉ tables s root ∧
    pte2pa w ∉ s.freelist
  tables : ∀ q ∈ tables s old, q ∉ tables s root ∧ q ∉ s.freelist
  none : ∀ vpn < npages sz, pte s root vpn = none

theorem pteFlags_lt (w : Nat) : pteFlags w < 1024 := Nat.lt_succ_of_le Nat.and_le_right

theorem flags_or_valid {w : Nat} (hv : w &&& PTE_V ≠ 0) : pteFlags w ||| PTE_V = pteFlags w := by
  have hodd : w % 2 ≠ 0 := Nat.and_one_is_mod w ▸ hv
  have hmod : pteFlags w = w % 1024 := Nat.and_two_pow_sub_one_eq_mod w 10
  have hsplit : pteFlags w = 2 ^ 1 * (pteFlags w / 2) ||| 1 := by
    rw [← Nat.two_pow_add_eq_or_of_lt (by decide)]
    omega
  rw [hsplit, show PTE_V = 1 from rfl, Nat.or_assoc, Nat.or_self]

section

variable (h : Copyable s₀ old root sz)
include h

theorem Copyable.npages_le : npages sz ≤ 2 ^ 26 := by
  rw [npages_eq h.size]
  have hsize : sz ≤ 274877906944 := h.size
  omega

theorem Copyable.same (hg : Grown s₀ s root 0 (rowOf s₀ old) (flagsOf s₀ old) new ws) :
    ∀ q ∈ Vm.tables s₀ old, s.page q = s₀.page q := fun q hq =>
  hg.moves.frame q (h.tables q hq).1 (h.tables q hq).2 (Multiset.notMem_zero q)

theorem Copyable.perm {vpn : Nat} (hvpn : vpn < npages sz) :
    flagsOf s₀ old vpn < 1024 ∧ flagsOf s₀ old vpn ||| PTE_V ≠ PTE_V := by
  obtain ⟨w, hw, hleaf, -⟩ := h.mapped vpn hvpn
  rw [flagsOf, hw]
  exact ⟨pteFlags_lt w, (flags_or_valid (pte_some hw).1).symm ▸ hleaf⟩

/-- `uvmcopy` has copied everything, or it has only added tables. -/
inductive Copied (s₀ s : Mem) (old root sz : Nat) : Int → Prop
  | done {new : Multiset Nat} {ws : List Nat} (grown : Grown s₀ s root 0 (rowOf s₀ old) (flagsOf s₀ old) new ws)
      (length : ws.length = npages sz) : Copied s₀ s old root sz 0
  | failed {new : Multiset Nat} (moves : Moves s₀ s root new 0 0 (pte s₀ root)) : Copied s₀ s old root sz (-1)

theorem Copyable.wp_undo (hle : ws.length ≤ npages sz)
    (hg : Grown s₀ s root 0 (rowOf s₀ old) (flagsOf s₀ old) new ws) :
    wp (do uvmunmap root 0 ws.length true; return (-1 : Int))
      (fun r s' => Copied s₀ s' old root sz r) E s := by
  have hmax := h.npages_le
  have hundo := hg.wp_uvmunmap (E := E) h.table h.pool (fun i hi => ?_) (by omega) fun vpn _ h2 => h.none vpn (by omega)
  · rw [Nat.zero_mul] at hundo
    exact hundo.bind fun _ s' ⟨new, hm⟩ => .failed hm
  · rw [Nat.zero_add]
    exact h.perm (hi.trans_le hle)

theorem Copyable.length_eq (hle : ws.length ≤ npages sz) (hsz : sz ≤ ws.length * PGSIZE) : ws.length = npages sz := by
  have hsz : sz ≤ ws.length * 4096 := hsz
  rw [npages_eq h.size] at hle ⊢
  omega

theorem wp_uvmcopyLoop {fuel : Nat} (hle : ws.length ≤ npages sz)
    (hg : Grown s₀ s root 0 (rowOf s₀ old) (flagsOf s₀ old) new ws) (hfuel : sz ≤ (ws.length + fuel) * PGSIZE) :
    wp (uvmcopyLoop old root sz fuel (ws.length * PGSIZE)) (fun r s' => Copied s₀ s' old root sz r) E s := by
  have hmax := h.npages_le
  induction fuel generalizing s new ws with
  | zero => exact .done hg (h.length_eq hle hfuel)
  | succ fuel ih =>
    refine wp_ite.mpr ⟨fun hlt => ?_, fun hge => .done hg (h.length_eq hle (not_lt.mp hge))⟩
    have hvpn : ws.length < npages sz := by
      have hlt : ws.length * 4096 < sz := hlt
      rw [npages_eq h.size]
      omega
    obtain ⟨w, hw, -, htab, hfree⟩ := h.mapped _ hvpn
    have hrow : rowOf s₀ old (0 + ws.length) = s.page (pte2pa w) := by
      rw [rowOf, Nat.zero_add, hw]
      exact (hg.moves.frame _ htab hfree (Multiset.notMem_zero _)).symm
    have hflags : flagsOf s₀ old (0 + ws.length) = pteFlags w := by
      rw [flagsOf, Nat.zero_add, hw]
      rfl
    have hw' : pte s old ws.length = some w := (pte_congr (h.same hg) _).trans hw
    obtain ⟨hvalid, x, hx, rfl⟩ := pte_some hw'
    have hva : ws.length * PGSIZE < MAXVA := by
      show ws.length * 4096 < 274877906944
      omega
    refine wp_bind.mpr (wp_walk_false hva ?_)
    rw [Nat.mul_div_cancel _ (by decide : 0 < PGSIZE), hx]
    refine wp_bind.mpr (wp_load.mpr ?_)
    rw [if_neg hvalid]
    refine wp_bind.mpr (wp_kalloc ?_ fun r rest hf => ?_)
    · exact h.wp_undo hle (hg.deny _)
    · have hr : r ∈ s.freelist := hf ▸ List.mem_cons_self
      have hne : pte2pa (s.page x.1 x.2) ≠ r := fun heq => hfree (heq ▸ hg.moves.mem_free (.inr (.inr hr)))
      -- the page is filled twice
      have htook : (⟨update (update s.page r fun _ => 5 * 0x0101010101010101) r
          (update s.page r (fun _ => 5 * 0x0101010101010101) (pte2pa (s.page x.1 x.2))), rest, s.deny.tail,
          s.kend⟩ : Mem) = took s r (rowOf s₀ old (0 + ws.length)) rest := by
        rw [update_idem, update_of_ne hne, hrow]
        rfl
      refine wp_bind.mpr ((wp_modify _).mpr ?_)
      show wp _ _ E (⟨_, rest, s.deny.tail, s.kend⟩ : Mem)
      rw [htook, ← hflags]
      refine wp_bind.mpr ?_
      have hstep := hg.wp_mappages (E := E) h.pool h.table hf (by omega) (by rw [Nat.zero_add]; exact (h.perm hvpn).1)
        (by rw [Nat.zero_add]; exact h.none _ hvpn)
      rw [Nat.zero_add] at hstep ⊢
      refine hstep.mono ?_
      rintro y s' (⟨rfl, new', w', hg'⟩ | ⟨rfl, hfreeable, new', hg'⟩)
      · have hnext : (ws.length * PGSIZE + PGSIZE) % 2 ^ 64 = (ws ++ [w']).length * PGSIZE := by
          rw [List.length_append]
          exact next_page (by omega)
        have hlen : (ws ++ [w']).length = ws.length + 1 := List.length_append
        rw [hnext]
        refine ih (by omega) hg' ?_
        rw [hlen]
        exact hfuel.trans_eq (congrArg (· * PGSIZE) (by ac_rfl))
      · rw [if_pos (by decide)]
        exact wp_bind.mpr (wp_kfree hfreeable (h.wp_undo hle hg'))

theorem wp_uvmcopy :
    wp (uvmcopy old root sz) (fun r s' => Copied s₀ s' old root sz r) E s₀ := by
  have hfuel : sz ≤ (([] : List Nat).length + sz) * PGSIZE :=
    Nat.le_trans (Nat.le_add_left sz _) (Nat.le_mul_of_pos_right _ (by decide))
  have hloop := wp_uvmcopyLoop (E := E) h (Nat.zero_le _) (.nil s₀ root 0 _ _) hfuel
  exact hloop

end

end Xv6.Vm
