import Xv6.Vm.Translation

/-!
# The page table refines a map

The specifications of `walk`, `mappages` and `uvmunmap` for runs of the functions, over every well-formed
page table and every state of the allocator.
-/

namespace Xv6.Vm

open Wp

variable {s : Mem} {root : Nat}

theorem walk_false_run {va : Nat} (hva : va < MAXVA) :
    (walk root va false).run s = .ok (Radix.slot child s.page (key (va / PGSIZE)) 2 root, s) := by
  have h : wp (walk root va false) (fun r t => r = Radix.slot child s.page (key (va / PGSIZE)) 2 root ∧ t = s)
      (fun _ => False) s := wp_walk_false hva ⟨rfl, rfl⟩
  obtain ⟨r, t, hrun, hr, ht⟩ := exists_of_wp h
  rw [hrun, hr, ht]

theorem vpn_of_slot {v v' : Nat} {x : Nat × Fin 512} (ht : Table s root) (hv : v < 2 ^ 27) (hv' : v' < 2 ^ 27)
    (hx : Radix.slot child s.page (key v) 2 root = some x)
    (hx' : Radix.slot child s.page (key v') 2 root = some x) : v' = v := by
  by_contra hne
  obtain ⟨k, hk, hkey⟩ := key_ne hv' hv hne
  rcases Nat.eq_zero_or_pos k with rfl | hpos
  · exact hkey ((Radix.slot_mem hx').2.symm.trans (Radix.slot_mem hx).2)
  · exact hkey (Radix.slot_inj ht.distinct hx' hx rfl hpos hk)

/-- What `mappages` leaves behind when the first `k` pages are mapped. -/
def MapsFirst (s s' : Mem) (root va k pa perm : Nat) : Prop :=
  ∀ vpn < 2 ^ 27,
    if va / PGSIZE ≤ vpn ∧ vpn < va / PGSIZE + k then
      ∃ w, pte s' root vpn = some w ∧ pte2pa w = pa + (vpn - va / PGSIZE) * PGSIZE ∧
        pteFlags w = perm ||| PTE_V
    else pte s' root vpn = pte s root vpn

theorem MapsTo.maps_first {s' : Mem} {va size k pa perm : Nat} {new : Multiset Nat}
    (h : MapsTo s s' root (va / PGSIZE) k pa perm new) (hpa : pa % PGSIZE = 0) (hlt : pa + size ≤ 2 ^ 56)
    (hk : k ≤ size / PGSIZE) (hperm : perm < 1024) : MapsFirst s s' root va k pa perm := by
  intro vpn hvpn
  rw [h.edits.pte vpn hvpn]
  unfold mapped
  split
  · next hr =>
    have hsize : (vpn - va / 4096) * 4096 < size := by
      have hk : k ≤ size / 4096 := hk
      have hr : va / 4096 ≤ vpn ∧ vpn < va / 4096 + k := hr
      omega
    refine ⟨_, rfl, pte2pa_leaf ?_ ?_ hperm, pteFlags_leaf hperm⟩
    · rw [Nat.add_mul_mod_self_right, hpa]
    · exact Nat.lt_of_lt_of_le (Nat.add_lt_add_left hsize pa) hlt
  · rfl

/-- The three-level page table behaves as a map from virtual page numbers to entries. -/
theorem page_table_refines_map (ht : Table s root) (ha : Avail s (tables s root)) :
    -- `walk(va, 0)` returns the entry of that page, and of no other, or 0
    (∀ va < MAXVA, ∃ r, (walk root va false).run s = .ok (r, s) ∧
      (r = none → pte s root (va / PGSIZE) = none) ∧
      ∀ x, r = some x →
        pte s root (va / PGSIZE) =
          (if s.page x.1 x.2 &&& PTE_V ≠ 0 then some (s.page x.1 x.2) else none) ∧
        ∀ va' < MAXVA, (walk root va' false).run s = .ok (some x, s) → va' / PGSIZE = va / PGSIZE) ∧
    -- `walk(va, 1)` changes no translation
    (∀ va < MAXVA, ∃ r s', (walk root va true).run s = .ok (r, s') ∧ Table s' root ∧
      Avail s' (tables s' root) ∧ ∀ vpn < 2 ^ 27, pte s' root vpn = pte s root vpn) ∧
    -- `mappages` maps the range, or the part of it before the page where it fails
    (∀ va size pa perm, va % PGSIZE = 0 → size % PGSIZE = 0 → va + size ≤ MAXVA → pa % PGSIZE = 0 →
      pa + size ≤ 2 ^ 56 → perm < 2 ^ 10 → perm &&& (PTE_R ||| PTE_W ||| PTE_X) ≠ 0 →
      (∀ vpn, va ≤ vpn * PGSIZE → vpn * PGSIZE < va + size → pte s root vpn = none) →
      (size = 0 ∧ (mappages root va size pa perm).run s = .error .mappagesSizeZero) ∨
      ∃ r s' k, (mappages root va size pa perm).run s = .ok (r, s') ∧ Table s' root ∧
        Avail s' (tables s' root) ∧ (r = 0 ∧ k = size / PGSIZE ∨ r = -1 ∧ k < size / PGSIZE) ∧
        MapsFirst s s' root va k pa perm) ∧
    -- `uvmunmap` unmaps the pages it is given
    (∀ va npages do_free, va % PGSIZE = 0 → va + npages * PGSIZE ≤ MAXVA →
      (∀ vpn, va / PGSIZE ≤ vpn → vpn < va / PGSIZE + npages → ∃ w, Unmappable s root do_free vpn w) →
      ∃ s', (uvmunmap root va npages do_free).run s = .ok ((), s') ∧ Table s' root ∧
        ∀ vpn < 2 ^ 27, pte s' root vpn =
          if va / PGSIZE ≤ vpn ∧ vpn < va / PGSIZE + npages then none else pte s root vpn) := by
  refine ⟨?_, ?_, ?_, ?_⟩
  · intro va hva
    refine ⟨_, walk_false_run hva, fun hnone => ?_, fun x hx => ⟨pte_of_slot hx, fun va' hva' hrun => ?_⟩⟩
    · rw [pte, Radix.lookup, hnone]
      rfl
    · rw [walk_false_run hva'] at hrun
      have hx' := congrArg Prod.fst (Except.ok.inj hrun)
      have hva : va < 274877906944 := hva
      have hva' : va' < 274877906944 := hva'
      have hv : va / 4096 < 2 ^ 27 := by omega
      have hv' : va' / 4096 < 2 ^ 27 := by omega
      exact vpn_of_slot ht hv hv' hx hx'
  · intro va hva
    obtain ⟨r, s', hrun, new, he, ht', ha', -⟩ := exists_of_wp (wp_walk_true hva ht ha)
    exact ⟨r, s', hrun, ht', ha', he.pte⟩
  · intro va size pa perm hva hsize hmax hpa hlt hperm _ hnew
    by_cases h0 : size = 0
    · refine .inl ⟨h0, ?_⟩
      unfold mappages
      rw [if_neg (not_not.mpr hva), if_neg (not_not.mpr hsize), if_pos h0]
      rfl
    · have h : wp (mappages root va size pa perm) _ (fun _ => False) s :=
        wp_mappages ht ha hva hsize h0 hmax hlt hnew
      obtain ⟨r, s', hrun, k, new, hm, hk⟩ := exists_of_wp h
      exact .inr ⟨r, s', k, hrun, hm.table, hm.avail, hk, hm.maps_first hpa hlt (by omega) hperm⟩
  · intro va npages do_free hva hmax hm
    obtain ⟨_, s', hrun, he⟩ := exists_of_wp (wp_uvmunmap ht hva hmax hm)
    exact ⟨s', hrun, he.table ht, he.pte⟩

/-- Memory with an empty page table at `0x1000` and two free pages. -/
def blankMem : Mem := ⟨fun _ _ => 0, [0x2000, 0x3000], [], 0⟩

theorem blankMem_tables : tables blankMem 0x1000 = {0x1000} :=
  Radix.nodes_blank (fun _ => child_zero) rfl

theorem blankMem_table : Table blankMem 0x1000 where
  distinct := blankMem_tables ▸ Multiset.nodup_singleton _
  pointers := fun _ _ h => absurd (child_zero.symm.trans h) nofun

theorem blankMem_avail : Avail blankMem (tables blankMem 0x1000) where
  distinct := by decide
  aligned := by decide
  small := by decide
  fresh := by
    rw [blankMem_tables]
    decide

theorem blankMem_pte (vpn : Nat) : pte blankMem 0x1000 vpn = none :=
  Radix.lookup_blank (fun _ => child_zero) rfl

/-- One page is mapped and unmapped again. -/
theorem page_table_refines_map_one : ∃ s₁ s₂,
    (mappages 0x1000 0x5000 PGSIZE 0x4000 PTE_R).run blankMem = .ok (0, s₁) ∧
    (∃ w, pte s₁ 0x1000 5 = some w ∧ pte2pa w = 0x4000) ∧
    (uvmunmap 0x1000 0x5000 1 false).run s₁ = .ok ((), s₂) ∧ pte s₂ 0x1000 5 = none := by
  have hrun : ((mappages 0x1000 0x5000 PGSIZE 0x4000 PTE_R).run blankMem).map Prod.fst = .ok 0 := by
    decide +kernel
  obtain ⟨-, -, hmap, -⟩ := page_table_refines_map blankMem_table blankMem_avail
  obtain ⟨h0, -⟩ | ⟨r, s₁, k, hmap, ht, ha, hk, hpte⟩ := hmap 0x5000 PGSIZE 0x4000 PTE_R (by decide) (by decide)
    (by decide) (by decide) (by decide) (by decide) (by decide) fun vpn _ _ => blankMem_pte vpn
  · exact absurd h0 (by decide)
  rw [hmap] at hrun
  obtain rfl : r = 0 := Except.ok.inj hrun
  obtain rfl : k = 1 := by
    rcases hk with ⟨-, hk⟩ | ⟨h, -⟩
    · exact hk
    · cases h
  have h5 := hpte 5 (by decide)
  obtain ⟨w, hw, hpa, hflags⟩ := h5
  obtain ⟨-, -, -, hunmap⟩ := page_table_refines_map ht ha
  obtain ⟨s₂, hunmap, -, hnone⟩ := hunmap 0x5000 1 false (by decide) (by decide) (by
    intro vpn h1 h2
    obtain rfl : vpn = 5 := Nat.le_antisymm (Nat.le_of_lt_succ h2) h1
    exact ⟨w, hw, by rw [hflags]; decide, nofun⟩)
  exact ⟨s₁, s₂, hmap, ⟨w, hw, hpa⟩, hunmap, (hnone 5 (by decide)).trans (if_pos (by decide))⟩

/-- A permission with bit 10 set is or-ed into the page number: `mappages` returns 0 and the page is mapped
to `0x5000`, not to `0x4000`. -/
theorem mappages_wide_perm : Table blankMem 0x1000 ∧ Avail blankMem (tables blankMem 0x1000) ∧
    (∀ vpn, pte blankMem 0x1000 vpn = none) ∧ (PTE_R ||| 0x400) &&& (PTE_R ||| PTE_W ||| PTE_X) ≠ 0 ∧
    ∃ s', (mappages 0x1000 0 PGSIZE 0x4000 (PTE_R ||| 0x400)).run blankMem = .ok (0, s') ∧
      ∃ w, pte s' 0x1000 0 = some w ∧ pte2pa w = 0x5000 := by
  refine ⟨blankMem_table, blankMem_avail, blankMem_pte, by decide, ?_⟩
  have hrun : ((mappages 0x1000 0 PGSIZE 0x4000 (PTE_R ||| 0x400)).run blankMem).map
      (fun x => (x.1, (pte x.2 0x1000 0).map pte2pa)) = .ok (0, some 0x5000) := by
    decide +kernel
  obtain ⟨⟨r, s'⟩, hr, hobs⟩ := ok_of_map hrun
  obtain ⟨rfl, hpte⟩ := Prod.mk.inj hobs
  obtain ⟨w, hw, hpa⟩ := Option.map_eq_some_iff.mp hpte
  exact ⟨s', hr, w, hw, hpa⟩

end Xv6.Vm
