import Xv6.Vm.Grow
import Xv6.Vm.Refinement

/-!
# `uvmalloc` is all or nothing

Physical memory has 32768 pages, so that the pages a process can get never reach the trapframe page at the
top of the address space. Within that, `uvmalloc` adds the pages it is asked for, or leaves nothing but page
tables behind.
-/

namespace Xv6.Vm

open Wp

variable {s : Mem} {root : Nat}

/-- Pages of memory are among the 32768 pages above `KERNBASE`. -/
theorem card_le_of_kfreeable {l : Multiset Nat} (hkend : KERNBASE ≤ s.kend) (hn : l.Nodup)
    (hk : ∀ p ∈ l, Kfreeable s p) : l.card ≤ 32768 := by
  rw [← Multiset.toFinset_card_of_nodup hn, ← Finset.card_range 32768]
  have hrange : ∀ p ∈ l, p % 4096 = 0 ∧ 0x80000000 ≤ p ∧ p < 0x88000000 := fun p hp =>
    ⟨(hk p hp).1, le_trans hkend (hk p hp).2.1, (hk p hp).2.2⟩
  refine Finset.card_le_card_of_injOn (fun p => p / 4096 - 524288) (fun p hp => ?_) fun p hp q hq heq => ?_
  · obtain ⟨h0, h1, h2⟩ := hrange p (Multiset.mem_toFinset.mp hp)
    refine Finset.mem_coe.mpr (Finset.mem_range.mpr ?_)
    show p / 4096 - 524288 < 32768
    omega
  · obtain ⟨h0, h1, h2⟩ := hrange p (Multiset.mem_toFinset.mp hp)
    obtain ⟨h0', h1', h2'⟩ := hrange q (Multiset.mem_toFinset.mp hq)
    have heq : p / 4096 - 524288 = q / 4096 - 524288 := heq
    omega

theorem mapped_le_card {n : Nat} (ht : Table s root) (hn : n ≤ 2 ^ 27)
    (hm : ∀ vpn < n, ∃ w, pte s root vpn = some w) : n ≤ (tables s root).card * 512 := by
  have hslot : ∀ vpn < n, ∃ x, Radix.slot child s.page (key vpn) 2 root = some x := fun vpn hvpn => by
    obtain ⟨w, hw⟩ := hm vpn hvpn
    obtain ⟨-, x, hx, -⟩ := pte_some hw
    exact ⟨x, hx⟩
  have hcard : ((tables s root).toFinset ×ˢ (Finset.univ : Finset (Fin 512))).card =
      (tables s root).card * 512 := by
    rw [Finset.card_product, Multiset.toFinset_card_of_nodup ht.distinct, Finset.card_univ, Fintype.card_fin]
  rw [← hcard, ← Finset.card_range n]
  refine Finset.card_le_card_of_injOn
    (fun vpn => (Radix.slot child s.page (key vpn) 2 root).getD (root, 0)) (fun vpn hvpn => ?_) ?_
  · obtain ⟨x, hx⟩ := hslot vpn (Finset.mem_range.mp hvpn)
    have hmem : x ∈ (tables s root).toFinset ×ˢ (Finset.univ : Finset (Fin 512)) :=
      Finset.mem_product.mpr ⟨Multiset.mem_toFinset.mpr (Radix.slot_mem hx).1, Finset.mem_univ _⟩
    show (Radix.slot child s.page (key vpn) 2 root).getD (root, 0) ∈ _
    rwa [hx]
  · intro v hv v' hv' heq
    have hv := Finset.mem_range.mp hv
    have hv' := Finset.mem_range.mp hv'
    obtain ⟨x, hx⟩ := hslot v hv
    obtain ⟨y, hy⟩ := hslot v' hv'
    have heq : (Radix.slot child s.page (key v) 2 root).getD (root, 0) =
      (Radix.slot child s.page (key v') 2 root).getD (root, 0) := heq
    rw [hx, hy, Option.getD_some] at heq
    exact vpn_of_slot ht (by omega) (by omega) (heq ▸ hy) hx

theorem mapped_add_free_le {n : Nat} (ht : Table s root) (hp : Pool s (tables s root)) (hkend : KERNBASE ≤ s.kend)
    (hk : ∀ p ∈ tables s root, Kfreeable s p) (hn : n ≤ 2 ^ 27) (hm : ∀ vpn < n, ∃ w, pte s root vpn = some w) :
    n + s.freelist.length ≤ 2 ^ 24 := by
  have hmem : (tables s root + (s.freelist : Multiset Nat)).Nodup := by
    rw [Multiset.nodup_add]
    exact ⟨ht.distinct, Multiset.coe_nodup.mpr hp.distinct, Multiset.disjoint_left.mpr fun hq hf => hp.fresh _ hf hq⟩
  have hcard := card_le_of_kfreeable hkend hmem fun p hp' => (Multiset.mem_add.mp hp').elim (hk p) (hp.kfreeable p)
  rw [Multiset.card_add, Multiset.coe_card] at hcard
  have hmapped := mapped_le_card ht hn hm
  omega

/-- The page table of a process of the given size, as far as it is user space: the pages of the process are
mapped and nothing else below `TRAPFRAME`. The tables and the free pages are distinct pages of memory, and no
mapped page is one of them. -/
structure UserSpace (s : Mem) (pagetable sz : Nat) : Prop where
  table : Table s pagetable
  pool : Pool s (tables s pagetable)
  kend : KERNBASE ≤ s.kend
  tables : ∀ p ∈ tables s pagetable, Kfreeable s p
  mapped : ∀ vpn, vpn * PGSIZE < TRAPFRAME → ((∃ w, pte s pagetable vpn = some w) ↔ vpn * PGSIZE < pgroundup sz)
  data : ∀ vpn < 2 ^ 27, ∀ w, pte s pagetable vpn = some w →
    pte2pa w ∉ s.freelist ∧ pte2pa w ∉ Vm.tables s pagetable

variable {sz : Nat}

theorem lt_pgroundup {vpn : Nat} : vpn * PGSIZE < pgroundup sz ↔ vpn < npages sz := by
  rw [pgroundup_eq]
  exact Nat.mul_lt_mul_right (by decide)

theorem user_vpn {vpn : Nat} : vpn * PGSIZE < TRAPFRAME ↔ vpn < 67108862 := by
  show vpn * 4096 < 274877898752 ↔ vpn < 67108862
  omega

theorem UserSpace.room (h : UserSpace s root sz) : npages sz + s.freelist.length ≤ 2 ^ 24 := by
  -- all of user space would need more tables than there are
  have hmin := mapped_add_free_le h.table h.pool h.kend h.tables (by omega) fun vpn hvpn =>
    (h.mapped vpn (user_vpn.mpr (lt_min_iff.mp hvpn).2)).mpr (lt_pgroundup.mpr (lt_min_iff.mp hvpn).1)
  omega

theorem UserSpace.unmapped (h : UserSpace s root sz) {vpn : Nat} (h1 : npages sz ≤ vpn)
    (h2 : vpn < npages sz + s.freelist.length) : pte s root vpn = none := by
  have hroom := h.room
  refine Option.eq_none_iff_forall_ne_some.mpr fun w hw => ?_
  have hlt := lt_pgroundup.mp ((h.mapped vpn (user_vpn.mpr (by omega))).mp ⟨w, hw⟩)
  omega

/-- The pages that are added to grow from `oldsz` to `newsz` bytes. -/
def Added (oldsz newsz vpn : Nat) : Prop := pgroundup oldsz ≤ vpn * PGSIZE ∧ vpn * PGSIZE < pgroundup newsz

instance (oldsz newsz vpn : Nat) : Decidable (Added oldsz newsz vpn) := inferInstanceAs (Decidable (_ ∧ _))

/-- All: the pages are mapped, each to a fresh page of zeros with the permissions `perm`. -/
structure AllAdded (s s' : Mem) (root oldsz newsz perm : Nat) (page : Nat → Nat) : Prop where
  pte : ∀ vpn < 2 ^ 27, pte s' root vpn =
    if Added oldsz newsz vpn then some (leaf (page vpn) perm) else pte s root vpn
  fresh : ∀ vpn, Added oldsz newsz vpn → page vpn ∈ s.freelist ∧ page vpn ∉ s'.freelist
  zero : ∀ vpn, Added oldsz newsz vpn → s'.page (page vpn) = fun _ => 0
  target : ∀ vpn, Added oldsz newsz vpn → pte2pa (leaf (page vpn) perm) = page vpn
  inj : ∀ vpn vpn', Added oldsz newsz vpn → Added oldsz newsz vpn' → page vpn = page vpn' → vpn = vpn'

/-- Nothing: the mappings and their pages are as before, and the pages `new` that are not on the free list
again are tables without a leaf. -/
structure NothingAdded (s s' : Mem) (root : Nat) (new : Multiset Nat) : Prop where
  pte : ∀ vpn < 2 ^ 27, pte s' root vpn = pte s root vpn
  contents : ∀ vpn < 2 ^ 27, ∀ w, Vm.pte s root vpn = some w → s'.page (pte2pa w) = s.page (pte2pa w)
  free : (s.freelist : Multiset Nat) = new + s'.freelist
  tables : tables s' root = tables s root + new
  noLeaf : ∀ vpn < 2 ^ 27, ∀ x, Radix.slot child s'.page (key vpn) 2 root = some x → x.1 ∈ new →
    Vm.pte s' root vpn = none

variable {s' : Mem} {oldsz newsz perm : Nat} {new : Multiset Nat} {ws : List Nat}

theorem added_iff {vpn : Nat} : Added oldsz newsz vpn ↔ npages oldsz ≤ vpn ∧ vpn < npages newsz := by
  rw [Added, lt_pgroundup, pgroundup_eq]
  exact and_congr_left fun _ => Nat.mul_le_mul_right_iff (by decide)

theorem NothingAdded.of_moves (h : UserSpace s root sz) (hm : Moves s s' root new 0 0 (Vm.pte s root)) :
    NothingAdded s s' root new where
  pte := hm.pte
  contents vpn hv w hw := hm.frame _ (h.data vpn hv w hw).2 (h.data vpn hv w hw).1 (Multiset.notMem_zero _)
  free := by
    have hfree := hm.free
    rwa [add_zero] at hfree
  tables := hm.tables
  noLeaf vpn hv x hx hnew := by
    refine Option.eq_none_iff_forall_ne_some.mpr fun w hw => ?_
    rw [hm.pte vpn hv] at hw
    obtain ⟨-, y, hy, -⟩ := pte_some hw
    -- the leaf is where it was, in one of the old tables
    cases (hm.slot _ y hy).symm.trans hx
    exact h.pool.fresh _ (hm.mem_free (.inl hnew)) (Radix.slot_mem hy).1

theorem npages_of_grown {n : Nat} (hle : oldsz ≤ newsz) (hmax : npages oldsz + n ≤ 2 ^ 26)
    (henough : newsz ≤ (npages oldsz + n) * PGSIZE) (hneeded : n ≠ 0 → (npages oldsz + n) * PGSIZE < newsz + PGSIZE) :
    npages newsz = npages oldsz + n := by
  have henough : newsz ≤ (npages oldsz + n) * 4096 := henough
  have hneeded : n ≠ 0 → (npages oldsz + n) * 4096 < newsz + 4096 := hneeded
  have hsmall : newsz ≤ 274877906944 := by omega
  have hold := npages_eq (show oldsz ≤ MAXVA from hle.trans hsmall)
  rw [npages_eq hsmall]
  omega

theorem AllAdded.of_grown (h : UserSpace s root oldsz) (hperm : perm < 1024)
    (hcount : npages newsz = npages oldsz + ws.length)
    (hg : Grown s s' root (npages oldsz) (fun _ _ => 0) (fun _ => perm) new ws) :
    AllAdded s s' root oldsz newsz perm fun vpn => pte2pa (ws[vpn - npages oldsz]?.getD 0) := by
  -- the entry of an added page is in the list
  have hword : ∀ vpn, Added oldsz newsz vpn → ∃ w, ws[vpn - npages oldsz]? = some w ∧ pte2pa w ∈ ws.map pte2pa := by
    intro vpn hvpn
    have hvpn := added_iff.mp hvpn
    have hlt : vpn - npages oldsz < ws.length := by omega
    exact ⟨_, List.getElem?_eq_getElem hlt, List.mem_map_of_mem (List.getElem_mem hlt)⟩
  refine ⟨fun vpn hvpn => ?_, fun vpn hvpn => ?_, fun vpn hvpn => ?_, fun vpn hvpn => ?_, fun vpn vpn' hvpn hvpn' heq => ?_⟩
  · rw [hg.moves.pte vpn hvpn, placed, ← hcount]
    by_cases hadd : Added oldsz newsz vpn
    · obtain ⟨w, hw, -⟩ := hword vpn hadd
      rw [if_pos hadd, if_pos (added_iff.mp hadd), hw]
      exact congrArg some (hg.words _ w hw).1
    · rw [if_neg hadd, if_neg (mt added_iff.mpr hadd)]
  · obtain ⟨w, hw, hmem⟩ := hword vpn hvpn
    rw [hw]
    exact ⟨hg.moves.mem_free (.inr (.inl hmem)), (hg.moves.taken_notMem h.pool hmem).2⟩
  · obtain ⟨w, hw, -⟩ := hword vpn hvpn
    rw [hw]
    exact (hg.words _ w hw).2
  · obtain ⟨w, hw, hmem⟩ := hword vpn hvpn
    have hk := h.pool.kfreeable _ (hg.moves.mem_free (.inr (.inl hmem)))
    rw [hw, Option.getD_some, pte2pa_leaf hk.1 (kfreeable_small hk) hperm]
  · obtain ⟨w, hw, -⟩ := hword vpn hvpn
    obtain ⟨w', hw', -⟩ := hword vpn' hvpn'
    have hnodup : (ws.map pte2pa).Nodup := Multiset.coe_nodup.mp
      (Multiset.nodup_add.mp (Multiset.nodup_add.mp (hg.moves.nodup h.pool)).1).2.1
    have h1 := added_iff.mp hvpn
    have h2 := added_iff.mp hvpn'
    have hsame : (ws.map pte2pa)[vpn - npages oldsz]? = (ws.map pte2pa)[vpn' - npages oldsz]? := by
      rw [hw, hw', Option.getD_some, Option.getD_some] at heq
      rw [List.getElem?_map, List.getElem?_map, hw, hw', Option.map_some, Option.map_some, heq]
    have hlt : vpn - npages oldsz < (ws.map pte2pa).length := by
      rw [List.length_map]
      omega
    have hidx := (List.getElem?_inj hlt hnodup).mp hsame
    omega

/-- `uvmalloc` is all or nothing, wherever `kalloc` fails. -/
theorem uvmalloc_all_or_nothing {xperm : Nat} (h : UserSpace s root oldsz) (hle : oldsz ≤ newsz) (h0 : newsz ≠ 0)
    (hx : xperm < 1024) : ∃ r s', (uvmalloc root oldsz newsz xperm).run s = .ok (r, s') ∧ (r = newsz ∨ r = 0) ∧
      (r = newsz → ∃ page, AllAdded s s' root oldsz newsz (PTE_R ||| PTE_U ||| xperm) page) ∧
      (r = 0 → ∃ new, NothingAdded s s' root new) := by
  have hroom := h.room
  have hperm : PTE_R ||| PTE_U ||| xperm < 1024 := Nat.or_lt_two_pow (n := 10) (by decide) hx
  have hwp : wp (uvmalloc root oldsz newsz xperm) _ (fun _ => False) s :=
    wp_uvmalloc h.table h.pool hperm hle (hroom.trans (by decide)) fun vpn h1 h2 => h.unmapped h1 h2
  obtain ⟨r, s', hrun, halloc⟩ := exists_of_wp hwp
  refine ⟨r, s', hrun, ?_⟩
  cases halloc with
  | done hg henough hneeded =>
    have hlen := hg.length_le
    have hcount := npages_of_grown hle (by omega) henough hneeded
    exact ⟨.inl rfl, fun _ => ⟨_, .of_grown h hperm hcount hg⟩, fun h => absurd h h0⟩
  | failed hm => exact ⟨.inr rfl, fun h => absurd h.symm h0, fun _ => ⟨_, .of_moves h hm⟩⟩

/-- An empty page table at the start of memory, and three free pages. -/
def ramMem (deny : List Bool) : Mem := ⟨fun _ _ => 0, [0x80002000, 0x80003000, 0x80004000], deny, 0x80001000⟩

theorem ramMem_tables (deny : List Bool) : tables (ramMem deny) 0x80001000 = {0x80001000} :=
  Radix.nodes_blank (fun _ => child_zero) rfl

theorem ramMem_pte (deny : List Bool) (vpn : Nat) : pte (ramMem deny) 0x80001000 vpn = none :=
  Radix.lookup_blank (fun _ => child_zero) rfl

theorem ramMem_userSpace (deny : List Bool) : UserSpace (ramMem deny) 0x80001000 0 where
  table := ⟨ramMem_tables deny ▸ Multiset.nodup_singleton _, fun _ _ h => absurd (child_zero.symm.trans h) nofun⟩
  pool := by
    refine ⟨show [0x80002000, 0x80003000, 0x80004000].Nodup by decide, fun p hp => ?_, fun p hp => ?_⟩
    · have hall : ∀ p ∈ [0x80002000, 0x80003000, 0x80004000], p % PGSIZE = 0 ∧ 0x80001000 ≤ p ∧ p < PHYSTOP := by
        decide
      exact hall p hp
    · rw [ramMem_tables, Multiset.mem_singleton]
      rintro rfl
      exact absurd (show 0x80001000 ∈ [0x80002000, 0x80003000, 0x80004000] from hp) (by decide)
  kend := show KERNBASE ≤ 0x80001000 by decide
  tables p hp := by
    rw [ramMem_tables, Multiset.mem_singleton] at hp
    subst hp
    exact ⟨by decide, le_rfl, by decide⟩
  mapped vpn _ := by
    rw [ramMem_pte]
    exact iff_of_false (fun ⟨_, h⟩ => absurd h nofun) (not_lt.mpr (Nat.zero_le _))
  data vpn _ w hw := absurd ((ramMem_pte deny vpn).symm.trans hw) nofun

/-- One page is added; when there is no page for a table, nothing is. -/
theorem uvmalloc_all_or_nothing_onePage :
    (∃ s' page, (uvmalloc 0x80001000 0 1 PTE_W).run (ramMem []) = .ok (1, s') ∧
      AllAdded (ramMem []) s' 0x80001000 0 1 (PTE_R ||| PTE_U ||| PTE_W) page) ∧
    ∃ s' new, (uvmalloc 0x80001000 0 1 PTE_W).run (ramMem [false, true]) = .ok (0, s') ∧
      NothingAdded (ramMem [false, true]) s' 0x80001000 new := by
  have hrun1 : ((uvmalloc 0x80001000 0 1 PTE_W).run (ramMem [])).map Prod.fst = .ok 1 := by decide +kernel
  have hrun2 : ((uvmalloc 0x80001000 0 1 PTE_W).run (ramMem [false, true])).map Prod.fst = .ok 0 := by
    decide +kernel
  constructor
  · obtain ⟨r, s', hrun, -, hall, -⟩ := @uvmalloc_all_or_nothing _ _ _ 1 PTE_W (ramMem_userSpace []) (by decide)
      (by decide) (by decide)
    rw [hrun] at hrun1
    obtain rfl : r = 1 := Except.ok.inj hrun1
    obtain ⟨page, hall⟩ := hall rfl
    exact ⟨s', page, hrun, hall⟩
  · obtain ⟨r, s', hrun, -, -, hnothing⟩ := @uvmalloc_all_or_nothing _ _ _ 1 PTE_W (ramMem_userSpace [false, true])
      (by decide) (by decide) (by decide)
    rw [hrun] at hrun2
    obtain rfl : r = 0 := Except.ok.inj hrun2
    obtain ⟨new, hnothing⟩ := hnothing rfl
    exact ⟨s', new, hrun, hnothing⟩

end Xv6.Vm
