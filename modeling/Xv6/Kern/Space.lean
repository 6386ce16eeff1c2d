import Xv6.Kern.Process
import Xv6.Vm.Free

/-!
# Address spaces

What the page table of a process looks like, and what it owns. `Took` says which pages have left the free list
since a state `s`; everything else that was not free in `s` is as it was. It is what a call that creates an
address space, or gives up on the way, does to the rest of the system.
-/

namespace Xv6.Kern

open Function Vm Wp

variable {s s' s'' : Mem} {root : Nat} {new taken used freed : Multiset Nat} {f : Nat → Option Nat}
  {E : Panic → Prop}

/-- The pages `taken` have left the free list, and only pages that were free have changed. -/
structure Took (s s' : Mem) (taken : Multiset Nat) : Prop where
  free : (s.freelist : Multiset Nat) = taken + s'.freelist
  frame : ∀ q, q ∉ s.freelist → s'.page q = s.page q
  kend : s'.kend = s.kend

theorem Took.refl (s : Mem) : Took s s 0 := ⟨(zero_add _).symm, fun _ _ => rfl, rfl⟩

section

variable (h : Took s s' taken)
include h

theorem Took.mem_free {q : Nat} (hq : q ∈ taken ∨ q ∈ s'.freelist) : q ∈ s.freelist := by
  rw [← Multiset.mem_coe, h.free, Multiset.mem_add]
  exact hq

theorem Took.pool (hp : Pool s used) : Pool s' (taken + used) := by
  have hn : (taken + (s'.freelist : Multiset Nat)).Nodup := h.free ▸ Multiset.coe_nodup.mpr hp.distinct
  refine ⟨Multiset.coe_nodup.mp (Multiset.nodup_add.mp hn).2.1, fun p hm => ?_, fun p hm hu => ?_⟩
  · rw [Kfreeable, h.kend]
    exact hp.kfreeable p (h.mem_free (.inr hm))
  · rcases Multiset.mem_add.mp hu with hu | hu
    · exact Multiset.disjoint_left.mp (Multiset.nodup_add.mp hn).2.2 hu hm
    · exact hp.fresh p (h.mem_free (.inr hm)) hu

theorem Took.nodup (hp : Pool s used) : taken.Nodup := by
  have hn : (taken + (s'.freelist : Multiset Nat)).Nodup := h.free ▸ Multiset.coe_nodup.mpr hp.distinct
  exact (Multiset.nodup_add.mp hn).1

theorem Took.kfreeable (hp : Pool s used) {q : Nat} (hq : q ∈ taken) : Kfreeable s' q := by
  rw [Kfreeable, h.kend]
  exact hp.kfreeable q (h.mem_free (.inl hq))

theorem Took.kalloc {r : Nat} {rest : List Nat} (hfree : s'.freelist = r :: rest)
    (row : Fin 512 → Nat) (deny : List Bool) :
    Took s ⟨update s'.page r row, rest, deny, s'.kend⟩ (r ::ₘ taken) where
  free := by
    rw [h.free, hfree, ← Multiset.cons_coe, Multiset.add_cons, Multiset.cons_add]
  frame q hq := by
    have hne : q ≠ r := by
      rintro rfl
      exact hq (h.mem_free (.inr (hfree ▸ List.mem_cons_self)))
    exact (update_of_ne hne _ _).trans (h.frame q hq)
  kend := h.kend

theorem Took.write (hfree : s''.freelist = s'.freelist) (hkend : s''.kend = s'.kend)
    (hframe : ∀ q, q ∉ taken → s''.page q = s'.page q) : Took s s'' taken where
  free := by rw [h.free, hfree]
  frame q hq := (hframe q fun ht => hq (h.mem_free (.inl ht))).trans (h.frame q hq)
  kend := hkend.trans h.kend

end

theorem Took.moves (h : Took s s' (tables s' root + used)) (hm : Moves s' s'' root new taken 0 f) :
    Took s s'' (tables s'' root + (taken + used)) where
  free := by
    have hfree := hm.free
    rw [zero_add] at hfree
    rw [h.free, hfree, hm.tables]
    ac_rfl
  frame q hq := by
    rw [hm.frame q (fun ht => hq (h.mem_free (.inl (Multiset.mem_add.mpr (.inl ht)))))
      (fun hf => hq (h.mem_free (.inr hf))) (Multiset.notMem_zero q), h.frame q hq]
  kend := hm.kend.trans h.kend

theorem Took.released (h : Took s s' (freed + used)) (hr : Released s' s'' freed) : Took s s'' used where
  free := by
    rw [h.free, hr.free]
    ac_rfl
  frame q hq := by
    rw [hr.frame q fun ht => hq (h.mem_free (.inl (Multiset.mem_add.mpr (.inl ht)))), h.frame q hq]
  kend := hr.kend.trans h.kend

/-! ## The page table of a process -/

/-- The virtual page numbers of the pages at the top of the address space. -/
abbrev trapframeVpn : Nat := 67108862
abbrev trampolineVpn : Nat := 67108863

/-- The page table of a process of `sz` bytes: its memory is mapped by leaves, then come the trapframe and the
trampoline page, and nothing else is mapped. -/
structure Layout (s : Mem) (pagetable sz trapframe trampoline : Nat) : Prop where
  table : Table s pagetable
  size : sz ≤ TRAPFRAME
  user : ∀ vpn < npages sz, ∃ w, pte s pagetable vpn = some w ∧ w &&& (PTE_R ||| PTE_W ||| PTE_X) ≠ 0
  trapframe : pte s pagetable trapframeVpn = some (leaf trapframe (PTE_R ||| PTE_W))
  trampoline : pte s pagetable trampolineVpn = some (leaf trampoline (PTE_R ||| PTE_X))
  other : ∀ vpn < 2 ^ 27, npages sz ≤ vpn → vpn ≠ trapframeVpn → vpn ≠ trampolineVpn → pte s pagetable vpn = none

/-- The pages that hold the memory of a process and its page table. -/
def owned (s : Mem) (pagetable sz : Nat) : Multiset Nat :=
  tables s pagetable + behind (pte s pagetable) 0 (npages sz)

/-- An address space: the layout, with distinct pages of memory. -/
structure AddressSpace (s : Mem) (pagetable sz tf tramp : Nat) : Prop extends Layout s pagetable sz tf tramp where
  distinct : (tf ::ₘ owned s pagetable sz).Nodup
  memory : ∀ q ∈ tf ::ₘ owned s pagetable sz, Kfreeable s q

variable {sz tf tramp vpn w : Nat}

theorem npages_le (h : sz ≤ TRAPFRAME) : npages sz ≤ trapframeVpn := by
  rw [npages_eq (h.trans (by decide))]
  have h : sz ≤ 274877898752 := h
  show (sz + 4095) / 4096 ≤ 67108862
  omega

theorem pteFlags_ne (h : w &&& (PTE_R ||| PTE_W ||| PTE_X) ≠ 0) : pteFlags w ≠ PTE_V := by
  intro heq
  have hmod : w % 1024 = PTE_V := (Nat.and_two_pow_sub_one_eq_mod w 10).symm.trans heq
  rw [and_eq_mod (by decide), hmod] at h
  exact h (by decide)

theorem mem_behind (hvpn : vpn < npages sz) (hw : pte s root vpn = some w) :
    pte2pa w ∈ behind (pte s root) 0 (npages sz) := by
  refine Multiset.mem_coe.mpr (List.mem_map.mpr ⟨vpn, List.mem_range'_1.mpr ⟨Nat.zero_le _, ?_⟩, ?_⟩)
  · rwa [Nat.zero_add]
  · rw [hw]
    rfl

theorem behind_congr {m m' : Nat → Option Nat} {v n : Nat} (h : ∀ vpn, v ≤ vpn → vpn < v + n → m' vpn = m vpn) :
    behind m' v n = behind m v n := by
  refine congrArg _ (List.map_congr_left fun vpn hvpn => ?_)
  obtain ⟨h1, h2⟩ := List.mem_range'_1.mp hvpn
  rw [h vpn h1 h2]

theorem wp_uvmunmap_top {va pa perm : Nat} (ht : Table s root) (hva : va = vpn * PGSIZE) (hmax : vpn < 2 ^ 26)
    (hpte : pte s root vpn = some (leaf pa perm)) (hperm : perm < 1024) (hne : perm ||| PTE_V ≠ PTE_V) :
    wp (uvmunmap root va 1 false) (fun _ s' => Edits s s' root 0 0 (unmapped (pte s root) vpn 1)) E s := by
  subst hva
  have hdiv : vpn * PGSIZE / PGSIZE = vpn := Nat.mul_div_cancel _ (by decide)
  refine (wp_uvmunmap ht (Nat.mul_mod_left _ _) ?_ fun v h1 h2 => ?_).mono fun _ s' he => ?_
  · show vpn * 4096 + 1 * 4096 ≤ 274877906944
    omega
  · rw [hdiv] at h1 h2
    obtain rfl : v = vpn := Nat.le_antisymm (Nat.le_of_lt_succ h2) h1
    refine ⟨_, hpte, ?_, nofun⟩
    rw [pteFlags_leaf hperm]
    exact hne
  · rwa [hdiv] at he

theorem Layout.unmappable (h : Layout s root sz tf tramp) (hn : (owned s root sz).Nodup)
    (hk : ∀ q ∈ owned s root sz, Kfreeable s q) (hvpn : vpn < npages sz) : ∃ w, Unmappable s root true vpn w := by
  obtain ⟨w, hw, hleaf⟩ := h.user vpn hvpn
  have hmem := mem_behind hvpn hw
  refine ⟨w, hw, pteFlags_ne hleaf, fun _ => ⟨hk _ (Multiset.mem_add.mpr (.inr hmem)), fun ht => ?_⟩⟩
  exact Multiset.disjoint_left.mp (Multiset.nodup_add.mp hn).2.2 ht hmem

theorem wp_procFreepagetable (h : Layout s root sz tf tramp) (hn : (owned s root sz).Nodup)
    (hk : ∀ q ∈ owned s root sz, Kfreeable s q) :
    wp (procFreepagetable root sz) (fun _ s' => Released s s' (owned s root sz)) E s := by
  have hle := npages_le h.size
  refine (wp_uvmunmap_top h.table (by decide : TRAMPOLINE = _) (by decide) h.trampoline (by decide) (by decide)).bind
    fun _ s₁ he₁ => ?_
  have htf : pte s₁ root trapframeVpn = some (leaf tf (PTE_R ||| PTE_W)) := by
    rw [he₁.pte _ (by decide), unmapped, if_neg (by decide), h.trapframe]
  refine (wp_uvmunmap_top (he₁.table h.table) (by decide : TRAPFRAME = _) (by decide) htf (by decide) (by decide)).bind
    fun _ s₂ he₂ => ?_
  have he := he₁.trans he₂
  rw [add_zero] at he
  -- the two pages are gone and the others are there
  have hsame : ∀ vpn < trapframeVpn, pte s₂ root vpn = pte s root vpn := by
    intro vpn hlt
    have hlt : vpn < 67108862 := hlt
    rw [he₂.pte vpn (by omega), unmapped, if_neg fun hr => hlt.not_ge hr.1, he₁.pte vpn (by omega), unmapped,
      if_neg fun hr => (hlt.trans (by decide : 67108862 < 67108863)).not_ge hr.1]
  have htables : tables s₂ root = tables s root := by rw [he.tables, add_zero]
  have hbehind : behind (pte s₂ root) 0 (npages sz) = behind (pte s root) 0 (npages sz) :=
    behind_congr fun vpn _ hvpn => hsame vpn (lt_of_lt_of_le (hvpn.trans_eq (Nat.zero_add _)) hle)
  refine (wp_uvmfree (he.table h.table) ?_ (h.size.trans (by decide)) ?_ ?_).mono fun _ s' hr => ?_
  · intro q hq
    rw [htables] at hq
    rw [Kfreeable, he.kend]
    exact hk q (Multiset.mem_add.mpr (.inl hq))
  · intro vpn hvpn
    obtain ⟨w, hw⟩ := h.unmappable hn hk hvpn
    refine ⟨w, (hsame vpn (hvpn.trans_le hle)).trans hw.pte, hw.leaf, fun _ => ?_⟩
    rw [Kfreeable, he.kend, htables]
    exact hw.free rfl
  · intro vpn hvpn hge
    rw [he₂.pte vpn hvpn, unmapped]
    split
    · rfl
    next hr₂ =>
      rw [he₁.pte vpn hvpn, unmapped]
      split
      · rfl
      next hr₁ => exact h.other vpn hvpn hge (by omega) (by omega)
  · have hall := he.released hr
    rwa [hbehind] at hall

/-! ## A new page table -/

theorem Took.deny (h : Took s s' taken) (deny : List Bool) : Took s ⟨s'.page, s'.freelist, deny, s'.kend⟩ taken :=
  { h with }

theorem wp_uvmcreate {Q : Option Nat → Mem → Prop} (h : Took s s' taken)
    (hnone : ∀ t, Took s t taken → Q none t)
    (hsome : ∀ t r, r ∈ s'.freelist → Took s t (r ::ₘ taken) → t.page r = (fun _ => 0) → Q (some r) t) :
    wp uvmcreate Q E s' := by
  refine wp_bind.mpr (wp_kalloc (hnone _ (h.deny _)) fun r rest hfree => ?_)
  refine wp_bind.mpr (wp_memset.mpr (hsome _ r (hfree ▸ List.mem_cons_self) ?_ (update_self _ _ _)))
  rw [update_idem]
  exact h.kalloc hfree _ _

theorem blank_tables (h : s.page root = fun _ => 0) : tables s root = {root} :=
  Radix.nodes_blank (fun _ => child_zero) h

theorem blank_pte (h : s.page root = fun _ => 0) : pte s root vpn = none :=
  Radix.lookup_blank (fun _ => child_zero) h

theorem blank_table (h : s.page root = fun _ => 0) : Table s root where
  distinct := blank_tables h ▸ Multiset.nodup_singleton _
  pointers i c hc := by
    rw [h] at hc
    cases child_zero.symm.trans hc

/-- A page table with the map `f` that has been built since the state `s`, apart from the pages `used`. -/
structure Building (s s' : Mem) (root : Nat) (used : Multiset Nat) (f : Nat → Option Nat) : Prop where
  took : Took s s' (tables s' root + used)
  table : Table s' root
  pte : ∀ vpn < 2 ^ 27, pte s' root vpn = f vpn

variable {out : Multiset Nat} {g : Nat → Option Nat}

section

variable (h : Building s s' root used f)
include h

theorem Building.pool (hp : Pool s out) : Pool s' (tables s' root) :=
  (h.took.pool hp).mono fun _ hq => Multiset.mem_add.mpr (.inl (Multiset.mem_add.mpr (.inl hq)))

theorem Building.moves (hp : Pool s out) (hm : Moves s' s'' root new taken 0 g) :
    Building s s'' root (taken + used) g :=
  ⟨h.took.moves hm, hm.table (h.pool hp) h.table, hm.pte⟩

theorem Building.edits (hp : Pool s out) (he : Edits s' s'' root new 0 g) :
    Building s s'' root used g := by
  have hb := h.moves hp he.moves
  rwa [zero_add] at hb

theorem Building.congr (hfg : ∀ vpn < 2 ^ 27, f vpn = g vpn) :
    Building s s' root used g :=
  { h with pte := fun vpn hv => (h.pte vpn hv).trans (hfg vpn hv) }

end

theorem Building.wp_uvmfree (h : Building s s' root used fun _ => none) (hp : Pool s out) :
    wp (uvmfree root 0) (fun _ s'' => Took s s'' used) E s' := by
  refine (Vm.wp_uvmfree h.table (fun q hq => h.took.kfreeable hp (Multiset.mem_add.mpr (.inl hq))) (Nat.zero_le _)
    (fun vpn hvpn => absurd hvpn (Nat.not_lt_zero vpn)) fun vpn hvpn _ => h.pte vpn hvpn).mono fun _ s'' hr => ?_
  rw [show behind (Vm.pte s' root) 0 (npages 0) = 0 from rfl, add_zero] at hr
  exact h.took.released hr

theorem Building.wp_mappages {va pa perm : Nat} (h : Building s s' root used f) (hp : Pool s out)
    (hva : va = vpn * PGSIZE) (hmax : vpn < 2 ^ 26) (hpa : pa + PGSIZE ≤ 2 ^ 56) (hnone : f vpn = none) :
    wp (mappages root va PGSIZE pa perm) (fun r s'' =>
      (r = 0 ∧ Building s s'' root used (update f vpn (some (leaf pa perm)))) ∨
      (r = -1 ∧ Building s s'' root used f)) E s' := by
  have hnone : Vm.pte s' root vpn = none := (h.pte vpn (by omega)).trans hnone
  refine (wp_mappages_one h.table (h.pool hp).avail hva hmax hpa hnone).mono ?_
  rintro r s'' ⟨new, ⟨rfl, he⟩ | ⟨rfl, he⟩⟩
  · refine .inl ⟨rfl, (h.edits hp he).congr fun v hv => ?_⟩
    by_cases hvv : v = vpn
    · rw [hvv, update_self, update_self]
    · rw [update_of_ne hvv, update_of_ne hvv, h.pte v hv]
  · exact .inr ⟨rfl, (h.edits hp he).congr h.pte⟩

theorem wp_procPagetable (h : Took s s' used) (hp : Pool s out) (htf : tf + PGSIZE ≤ 2 ^ 56)
    (htramp : tramp + PGSIZE ≤ 2 ^ 56) :
    wp (procPagetable tf tramp) (fun r s'' => (r = none ∧ Took s s'' used) ∨
      ∃ root, r = some root ∧ root ∈ s'.freelist ∧ Took s s'' (tables s'' root + used) ∧ Layout s'' root 0 tf tramp)
      E s' := by
  refine wp_bind.mpr (wp_uvmcreate h (fun t ht => .inl ⟨rfl, ht⟩) fun s₁ root hroot h₁ hblank => ?_)
  have hb₁ : Building s s₁ root used fun _ => none := by
    refine ⟨?_, blank_table hblank, fun vpn _ => blank_pte hblank⟩
    rw [blank_tables hblank]
    exact h₁
  refine wp_bind.mpr ((hb₁.wp_mappages hp (by decide : TRAMPOLINE = trampolineVpn * PGSIZE) (by decide) htramp
    rfl).mono ?_)
  rintro x s₂ (⟨rfl, hb₂⟩ | ⟨rfl, hb₂⟩)
  · rw [if_neg (by decide)]
    have hfree : update (fun _ => none) trampolineVpn (some (leaf tramp (PTE_R ||| PTE_X))) trapframeVpn =
      none := update_of_ne (by decide) _ _
    refine wp_bind.mpr ((hb₂.wp_mappages hp (by decide : TRAPFRAME = trapframeVpn * PGSIZE) (by decide) htf
      hfree).mono ?_)
    rintro x s₃ (⟨rfl, hb₃⟩ | ⟨rfl, hb₃⟩)
    · rw [if_neg (by decide)]
      refine .inr ⟨root, rfl, hroot, hb₃.took, hb₃.table, Nat.zero_le _, fun vpn hvpn => ?_, ?_, ?_, ?_⟩
      · exact absurd hvpn (Nat.not_lt_zero vpn)
      · rw [hb₃.pte _ (by decide), update_self]
      · rw [hb₃.pte _ (by decide), update_of_ne (by decide), update_self]
      · intro vpn hvpn _ h1 h2
        rw [hb₃.pte _ hvpn, update_of_ne h1, update_of_ne h2]
    · rw [if_pos (by decide)]
      have hpte : pte s₃ root trampolineVpn = some (leaf tramp (PTE_R ||| PTE_X)) := by
        rw [hb₃.pte _ (by decide), update_self]
      refine (wp_uvmunmap_top hb₃.table (by decide : TRAMPOLINE = _) (by decide) hpte (by decide) (by decide)).bind
        fun _ s₄ he => ?_
      have hb₄ : Building s s₄ root used fun _ => none := by
        refine (hb₃.edits hp he).congr fun vpn hvpn => ?_
        rw [unmapped]
        split
        · rfl
        next hr => rw [hb₃.pte _ hvpn, update_of_ne (by omega)]
      exact wp_bind.mpr ((hb₄.wp_uvmfree hp).mono fun _ s₅ h₅ => .inl ⟨rfl, h₅⟩)
  · rw [if_pos (by decide)]
    exact wp_bind.mpr ((hb₂.wp_uvmfree hp).mono fun _ s₃ h₃ => .inl ⟨rfl, h₃⟩)

/-! ## More memory -/

theorem or_and_ne_zero {perm c : Nat} (h : perm &&& c ≠ 0) (more : Nat) : (perm ||| more) &&& c ≠ 0 := by
  rw [Nat.and_or_distrib_right]
  exact fun h0 => h (Nat.or_eq_zero_iff.mp h0).1

theorem behind_add (m : Nat → Option Nat) (v a b : Nat) : behind m v (a + b) = behind m v a + behind m (v + a) b := by
  unfold behind
  rw [← List.range'_append_1, List.map_append, Multiset.coe_add]

theorem Layout.moves (hl : Layout s root sz tf tramp) (hp : Pool s (tables s root))
    (hm : Moves s s' root new taken 0 (pte s root)) : Layout s' root sz tf tramp := by
  have hle := npages_le hl.size
  refine ⟨hm.table hp hl.table, hl.size, fun vpn hvpn => ?_, ?_, ?_, fun vpn hvpn => ?_⟩
  · rw [hm.pte vpn (hvpn.trans_le (hle.trans (by decide)))]
    exact hl.user vpn hvpn
  · rw [hm.pte _ (by decide), hl.trapframe]
  · rw [hm.pte _ (by decide), hl.trampoline]
  · rw [hm.pte vpn hvpn]
    exact hl.other vpn hvpn

section Grown

variable {sz₀ : Nat} {row : Nat → Fin 512 → Nat} {perm : Nat → Nat} {ws : List Nat}
  (hl : Layout s root sz₀ tf tramp) (hg : Grown s s' root (npages sz₀) row perm new ws) (hp : Pool s (tables s root))
  (hperm : ∀ i < ws.length, perm (npages sz₀ + i) < 1024 ∧
    perm (npages sz₀ + i) &&& (PTE_R ||| PTE_W ||| PTE_X) ≠ 0)
  (hcount : npages sz = npages sz₀ + ws.length) (hsz : sz ≤ TRAPFRAME)

include hl hg hp hperm hcount hsz in
theorem Layout.grown : Layout s' root sz tf tramp := by
  have hle := npages_le hsz
  have hout : ∀ vpn < 2 ^ 27, npages sz ≤ vpn → pte s' root vpn = pte s root vpn := by
    intro vpn hvpn hge
    rw [hg.moves.pte vpn hvpn, placed, if_neg (by omega)]
  refine ⟨hg.moves.table hp hl.table, hsz, fun vpn hvpn => ?_, ?_, ?_, fun vpn hvpn hge h1 h2 => ?_⟩
  · have h27 : vpn < 2 ^ 27 := hvpn.trans_le (hle.trans (by decide))
    by_cases hold : vpn < npages sz₀
    · rw [hg.moves.pte vpn h27, placed, if_neg (by omega)]
      exact hl.user vpn hold
    · obtain ⟨i, rfl⟩ := Nat.exists_eq_add_of_le (not_lt.mp hold)
      have hi : i < ws.length := by omega
      have hw : ws[i]? = some ws[i] := List.getElem?_eq_getElem hi
      refine ⟨ws[i], ?_, ?_⟩
      · rw [hg.moves.pte _ h27, placed_self hi, hw]
      · rw [(hg.words i _ hw).1, leaf_and (hperm i hi).1 (by decide)]
        exact or_and_ne_zero (hperm i hi).2 _
  · rw [hout _ (by decide) hle]
    exact hl.trapframe
  · rw [hout _ (by decide) (hle.trans (by decide))]
    exact hl.trampoline
  · rw [hout vpn hvpn hge]
    exact hl.other vpn hvpn (by omega) h1 h2

include hg hcount hsz in
theorem owned_grown : owned s' root sz = owned s root sz₀ + (new + (ws.map pte2pa : Multiset Nat)) := by
  have hle := npages_le hsz
  have hpte : ∀ vpn < npages sz, pte s' root vpn = placed (pte s root) (npages sz₀) ws vpn := fun vpn hvpn =>
    hg.moves.pte vpn (hvpn.trans_le (hle.trans (by decide)))
  have hold : behind (pte s' root) 0 (npages sz₀) = behind (pte s root) 0 (npages sz₀) := behind_congr fun vpn _ hlt => by
    rw [hpte vpn (by omega), placed, if_neg (by omega)]
  have hnew : behind (pte s' root) (npages sz₀) ws.length = (ws.map pte2pa : Multiset Nat) := by
    rw [← behind_placed (pte s root) (npages sz₀) ws]
    exact behind_congr fun vpn _ hlt => hpte vpn (by omega)
  rw [owned, owned, hcount, behind_add, Nat.zero_add, hold, hnew, hg.moves.tables]
  ac_rfl

end Grown

end Xv6.Kern
