import Xv6.Vm.PageTable

/-!
# A page table as a map

A page table is a radix tree of height 2 whose nodes are pages. The pages of the tree are distinct and
the entries above the lowest level have no permission (`Table`); then `walk` leads two pages to two
different entries, and `pte` is a map from virtual page numbers to entries that `mappages` and `uvmunmap`
change at the pages they are given and nowhere else.
-/

namespace Xv6.Vm

open Function Wp

/-! ## Entries -/

theorem pack_eq {f : Nat} (hf : f < 1024) (pa : Nat) : pa2pte pa ||| f = pa / 4096 * 1024 + f := by
  rw [pa2pte, ← Nat.shiftLeft_add_eq_or_of_lt hf, Nat.shiftLeft_eq, Nat.shiftRight_eq_div_pow]

theorem pte2pa_pack {f pa : Nat} (hpa : pa % PGSIZE = 0) (hlt : pa < 2 ^ 56) (hf : f < 1024) :
    pte2pa (pa2pte pa ||| f) = pa := by
  rw [pack_eq hf, pte2pa, Nat.shiftLeft_eq, Nat.shiftRight_eq_div_pow]
  have hdiv : (pa / 4096 * 1024 + f) / 2 ^ 10 = pa / 4096 := by omega
  rw [hdiv, Nat.div_mul_cancel (Nat.dvd_of_mod_eq_zero hpa)]
  exact Nat.mod_eq_of_lt (hlt.trans (by decide))

theorem and_eq_mod {c : Nat} (hc : c < 1024) (w : Nat) : w &&& c = (w % 1024) &&& c := by
  have h := Nat.and_mod_two_pow (a := w) (b := c) (n := 10)
  have hlt : w &&& c < 2 ^ 10 := Nat.and_le_right.trans_lt hc
  rw [Nat.mod_eq_of_lt hlt, Nat.mod_eq_of_lt hc] at h
  exact h

theorem pack_and {f c : Nat} (hf : f < 1024) (hc : c < 1024) (pa : Nat) :
    (pa2pte pa ||| f) &&& c = f &&& c := by
  rw [and_eq_mod hc, pack_eq hf, Nat.add_comm, Nat.add_mul_mod_self_right, Nat.mod_eq_of_lt hf]

/-- The entry `mappages` writes. -/
def leaf (pa perm : Nat) : Nat := pa2pte pa ||| perm ||| PTE_V

theorem or_valid_lt {perm : Nat} (hp : perm < 1024) : perm ||| PTE_V < 1024 :=
  Nat.or_lt_two_pow (n := 10) hp (by decide)

theorem pte2pa_leaf {pa perm : Nat} (hpa : pa % PGSIZE = 0) (hlt : pa < 2 ^ 56) (hp : perm < 1024) :
    pte2pa (leaf pa perm) = pa := by
  rw [leaf, Nat.or_assoc]
  exact pte2pa_pack hpa hlt (or_valid_lt hp)

theorem leaf_and {pa perm c : Nat} (hp : perm < 1024) (hc : c < 1024) :
    leaf pa perm &&& c = (perm ||| PTE_V) &&& c := by
  rw [leaf, Nat.or_assoc]
  exact pack_and (or_valid_lt hp) hc pa

theorem pteFlags_leaf {pa perm : Nat} (hp : perm < 1024) : pteFlags (leaf pa perm) = perm ||| PTE_V := by
  rw [pteFlags, leaf_and hp (by decide)]
  have h := Nat.and_two_pow_sub_one_eq_mod (perm ||| PTE_V) 10
  rw [Nat.mod_eq_of_lt (or_valid_lt hp)] at h
  exact h

theorem leaf_valid {pa perm : Nat} : leaf pa perm &&& PTE_V ≠ 0 := by
  rw [leaf, Nat.and_or_distrib_right]
  exact fun h => absurd (Nat.or_eq_zero_iff.mp h).2 (by decide)

/-! ## Virtual page numbers -/

theorem px_eq (level va : Nat) : (px level va).val = va / 4096 / 512 ^ level % 512 := by
  show (va >>> (12 + 9 * level)) &&& 511 = _
  rw [Nat.shiftRight_eq_div_pow, Nat.pow_add, Nat.pow_mul, ← Nat.div_div_eq_div_mul]
  exact Nat.and_two_pow_sub_one_eq_mod _ 9

def key (vpn level : Nat) : Fin 512 := px level (vpn * PGSIZE)

theorem px_eq_key (level va : Nat) : px level va = key (va / PGSIZE) level := by
  rw [key, Fin.ext_iff, px_eq, px_eq, Nat.mul_div_cancel _ (by decide : 0 < PGSIZE)]

theorem key_ne {v w : Nat} (hv : v < 2 ^ 27) (hw : w < 2 ^ 27) (hne : v ≠ w) :
    ∃ k ≤ 2, key v k ≠ key w k := by
  by_contra h
  have heq : ∀ k ≤ 2, v / 512 ^ k % 512 = w / 512 ^ k % 512 := by
    intro k hk
    have h := Fin.ext_iff.mp (not_not.mp fun hkne => h ⟨k, hk, hkne⟩)
    rw [key, key, px_eq, px_eq] at h
    rwa [Nat.mul_div_cancel _ (by decide : 0 < 4096), Nat.mul_div_cancel _ (by decide : 0 < 4096)] at h
  have h0 : v / 1 % 512 = w / 1 % 512 := heq 0 (by decide)
  have h1 : v / 512 % 512 = w / 512 % 512 := heq 1 (by decide)
  have h2 : v / 262144 % 512 = w / 262144 % 512 := heq 2 (by decide)
  omega

/-! ## Trees -/

def child (w : Nat) : Option Nat := if w &&& PTE_V ≠ 0 then some (pte2pa w) else none

/-- R = W = X = 0: the entry refers to a table. -/
def Pointer (w : Nat) : Prop := w &&& (PTE_R ||| PTE_W ||| PTE_X) = 0

theorem child_of_valid {w : Nat} (h : w &&& PTE_V ≠ 0) : child w = some (pte2pa w) := if_pos h

theorem child_of_not {w : Nat} (h : ¬ w &&& PTE_V ≠ 0) : child w = none := if_neg h

theorem child_zero : child 0 = none := child_of_not (by decide)

/-- The pages of the table `t` of level `l`. -/
abbrev pages (s : Mem) (l t : Nat) : Multiset Nat := Radix.nodes child s.page l t

/-- The table pages of a page table. -/
abbrev tables (s : Mem) (pagetable : Nat) : Multiset Nat := pages s 2 pagetable

/-- The map: the valid entry of a virtual page. -/
def pte (s : Mem) (pagetable vpn : Nat) : Option Nat := Radix.lookup child s.page (key vpn) 2 pagetable

/-- A well-formed page table. -/
structure Table (s : Mem) (pagetable : Nat) : Prop where
  distinct : (tables s pagetable).Nodup
  pointers : Radix.Refs child Pointer s.page 2 pagetable

/-- What `kalloc` returns: pages, each once, none of which is among `used`. -/
structure Avail (s : Mem) (used : Multiset Nat) : Prop where
  distinct : s.freelist.Nodup
  aligned : ∀ p ∈ s.freelist, p % PGSIZE = 0
  small : ∀ p ∈ s.freelist, p < 2 ^ 56
  fresh : ∀ p ∈ s.freelist, p ∉ used

theorem Avail.of_free {s s' : Mem} {used new : Multiset Nat} (ha : Avail s used)
    (h : (s.freelist : Multiset Nat) = new + s'.freelist) : Avail s' (used + new) := by
  have hn : (new + (s'.freelist : Multiset Nat)).Nodup := h ▸ Multiset.coe_nodup.mpr ha.distinct
  have hmem : ∀ p ∈ s'.freelist, p ∈ s.freelist := by
    intro p hp
    rw [← Multiset.mem_coe, h]
    exact Multiset.mem_add.mpr (.inr hp)
  refine ⟨Multiset.coe_nodup.mp (Multiset.nodup_add.mp hn).2.1, fun p hp => ha.aligned p (hmem p hp),
    fun p hp => ha.small p (hmem p hp), fun p hp hu => ?_⟩
  rcases Multiset.mem_add.mp hu with hu | hu
  · exact ha.fresh p (hmem p hp) hu
  · exact Multiset.disjoint_left.mp (Multiset.nodup_add.mp hn).2.2 hu hp

theorem Avail.mono {s : Mem} {used used' : Multiset Nat} (ha : Avail s used) (h : ∀ p ∈ used', p ∈ used) :
    Avail s used' :=
  ⟨ha.distinct, ha.aligned, ha.small, fun p hp hu => ha.fresh p hp (h p hu)⟩

/-! ## `walk` -/

variable {s s' : Mem} {E : Panic → Prop}

@[simp] theorem wp_load {x : Nat × Fin 512} {Q : Nat → Mem → Prop} :
    wp (load x) Q E s ↔ Q (s.page x.1 x.2) s := Iff.rfl

@[simp] theorem wp_store {x : Nat × Fin 512} {w : Nat} {Q : Unit → Mem → Prop} :
    wp (store x w) Q E s ↔ Q () { s with page := Radix.put s.page x w } := Iff.rfl

@[simp] theorem wp_memset {pa c : Nat} {Q : Unit → Mem → Prop} :
    wp (memset pa c) Q E s ↔
      Q () { s with page := update s.page pa fun _ => c * 0x0101010101010101 } := Iff.rfl

theorem wp_kalloc {Q : Option Nat → Mem → Prop} (hnone : Q none ⟨s.page, s.freelist, s.deny.tail, s.kend⟩)
    (hsome : ∀ r rest, s.freelist = r :: rest →
      Q (some r) ⟨update s.page r fun _ => 5 * 0x0101010101010101, rest, s.deny.tail, s.kend⟩) :
    wp kalloc Q E s := by
  unfold kalloc
  show wp _ Q E ⟨s.page, s.freelist, s.deny.tail, s.kend⟩
  split
  · exact hnone
  · exact hnone
  · next r rest heq _ => exact hsome r rest heq

/-- What `walk` may do to a table of level `l`. -/
structure Grew (s s' : Mem) (l t : Nat) (new : Multiset Nat) : Prop where
  grows : Radix.Grows child Pointer s.page s'.page l t new
  free : (s.freelist : Multiset Nat) = new + s'.freelist
  kend : s'.kend = s.kend

theorem wp_walkFrom_false {va l t : Nat} {Q : Option (Nat × Fin 512) → Mem → Prop}
    (h : Q (Radix.slot child s.page (px · va) l t) s) : wp (walkFrom va false l t) Q E s := by
  induction l generalizing t with
  | zero => exact h
  | succ l ih =>
    unfold walkFrom
    rw [wp_bind, wp_load]
    rw [Radix.slot] at h
    split
    · next hv =>
      rw [child_of_valid hv] at h
      exact ih h
    · next hv =>
      rw [child_of_not hv] at h
      exact h

theorem Grew.pages_eq {l t : Nat} {new : Multiset Nat} (hg : Grew s s' l t new) :
    pages s' l t = pages s l t + new :=
  hg.grows.nodes

theorem Grew.mem_free {l t q : Nat} {new : Multiset Nat} (hg : Grew s s' l t new) (hq : q ∈ new) :
    q ∈ s.freelist := by
  rw [← Multiset.mem_coe, hg.free]
  exact Multiset.mem_add.mpr (.inl hq)

theorem Grew.nodup {l t : Nat} {new : Multiset Nat} (hg : Grew s s' l t new) (hn : (pages s l t).Nodup)
    (ha : Avail s (pages s l t)) : (pages s' l t).Nodup := by
  have hfree : (new + (s'.freelist : Multiset Nat)).Nodup := hg.free ▸ Multiset.coe_nodup.mpr ha.distinct
  rw [hg.pages_eq]
  exact Multiset.nodup_add.mpr ⟨hn, (Multiset.nodup_add.mp hfree).1,
    Multiset.disjoint_right.mpr fun hp => ha.fresh _ (hg.mem_free hp)⟩

theorem Grew.avail {l t : Nat} {new : Multiset Nat} (hg : Grew s s' l t new)
    (ha : Avail s (pages s l t)) : Avail s' (pages s' l t) := by
  rw [hg.pages_eq]
  exact ha.of_free hg.free

theorem grew_install {t f : Nat} {i : Fin 512} {l : Nat} {rest : List Nat} (hn : (pages s (l + 1) t).Nodup)
    (ha : Avail s (pages s (l + 1) t)) (hc : child (s.page t i) = none) (hf : s.freelist = f :: rest)
    (hs : s'.page = Radix.put (update s.page f fun _ => 0) (t, i) (pa2pte f ||| PTE_V))
    (hrest : s'.freelist = rest) (hk : s'.kend = s.kend) :
    Grew s s' (l + 1) t {f} ∧ child (s'.page t i) = some f ∧ s'.page f = fun _ => 0 := by
  have hmem : f ∈ s.freelist := hf ▸ List.mem_cons_self
  have hpa : pte2pa (pa2pte f ||| PTE_V) = f :=
    pte2pa_pack (ha.aligned f hmem) (ha.small f hmem) (by decide)
  have hand : ∀ c < 1024, (pa2pte f ||| PTE_V) &&& c = PTE_V &&& c := fun c hc =>
    pack_and (by decide) hc f
  have hw : child (pa2pte f ||| PTE_V) = some f := by
    rw [child_of_valid (by rw [hand _ (by decide)]; decide), hpa]
  refine ⟨⟨?_, by rw [hf, hrest]; rfl, hk⟩, ?_, ?_⟩
  · rw [hs]
    refine Radix.Grows.install (fun _ => child_zero) hn hc (ha.fresh f hmem) hw ?_
    rw [Pointer, hand _ (by decide)]
    decide
  · rw [hs]
    exact (congrArg child (Radix.put_self _)).trans hw
  · have hft : f ≠ t := fun h => ha.fresh f hmem (h ▸ Radix.self_mem_nodes)
    rw [hs, Radix.put_of_ne hft, update_self]

theorem wp_walkFrom_true {va l t : Nat} (hn : (pages s l t).Nodup) (ha : Avail s (pages s l t)) :
    wp (walkFrom va true l t) (fun r s' => ∃ new, Grew s s' l t new ∧
      ∀ x, r = some x → Radix.slot child s'.page (px · va) l t = some x) E s := by
  induction l generalizing s t with
  | zero => exact ⟨0, ⟨.refl, (zero_add _).symm, rfl⟩, fun x hx => hx⟩
  | succ l ih =>
    unfold walkFrom
    rw [wp_bind, wp_load]
    split
    · next hv =>
      have hc : child (s.page t (px (l + 1) va)) = some (pte2pa (s.page t (px (l + 1) va))) :=
        child_of_valid hv
      have hsub : Avail s (pages s l (pte2pa (s.page t (px (l + 1) va)))) :=
        ha.mono fun p hp => Radix.mem_nodes_child hc hp
      refine (ih (Radix.nodup_child hn hc) hsub).mono ?_
      rintro r s' ⟨new, hg, hr⟩
      have hnew : ∀ q ∈ new, q ∉ pages s (l + 1) t := fun q hq => ha.fresh q (hg.mem_free hq)
      refine ⟨new, ⟨hg.grows.lift hn hc hnew, hg.free, hg.kend⟩, fun x hx => ?_⟩
      rw [Radix.slot, hg.grows.row_root hn hc hnew, hc]
      exact hr x hx
    · next hv =>
      have hc : child (s.page t (px (l + 1) va)) = none := child_of_not hv
      refine wp_bind.mpr (wp_kalloc ⟨0, ⟨.refl, (zero_add _).symm, rfl⟩, by simp⟩ fun f rest hf => ?_)
      rw [wp_bind, wp_memset, wp_bind, wp_store, update_idem]
      generalize hs : (Mem.mk _ _ _ _ : Mem) = s₁
      obtain ⟨hg, hchild, hblank⟩ : Grew s s₁ (l + 1) t {f} ∧ child (s₁.page t (px (l + 1) va)) = some f ∧ _ :=
        grew_install hn ha hc hf (by rw [← hs]) (by rw [← hs]) (by rw [← hs])
      -- the new page has no entry, and the rest of the walk goes on in it
      have hpages : pages s₁ l f = {f} := Radix.nodes_blank (fun _ => child_zero) hblank
      have hn₁ := hg.nodup hn ha
      have ha₁ := hg.avail ha
      have hsub : Avail s₁ (pages s₁ l f) := ha₁.mono fun p hp => Radix.mem_nodes_child hchild hp
      refine (ih (hpages ▸ Multiset.nodup_singleton f) hsub).mono ?_
      rintro r s' ⟨new, hg', hr⟩
      have hnew : ∀ q ∈ new, q ∉ pages s₁ (l + 1) t := fun q hq => ha₁.fresh q (hg'.mem_free hq)
      refine ⟨{f} + new, ⟨hg.grows.trans (hg'.grows.lift hn₁ hchild hnew), ?_, hg'.kend.trans hg.kend⟩,
        fun x hx => ?_⟩
      · rw [hg.free, hg'.free, add_assoc]
      · rw [Radix.slot, hg'.grows.row_root hn₁ hchild hnew, hchild]
        exact hr x hx

/-! ## Changes of a page table -/

/-- The page table has become one with the map `f`: it took the pages `new` from the free list, and the
pages `freed` went there. The entries that were there are at their places. -/
structure Edits (s s' : Mem) (root : Nat) (new freed : Multiset Nat) (f : Nat → Option Nat) : Prop where
  tables : tables s' root = tables s root + new
  frame : ∀ q, q ∉ Vm.tables s root → q ∉ new → q ∉ freed → s'.page q = s.page q
  pointers : Radix.Refs child Pointer s.page 2 root → Radix.Refs child Pointer s'.page 2 root
  slot : ∀ key x, Radix.slot child s.page key 2 root = some x → Radix.slot child s'.page key 2 root = some x
  pte : ∀ vpn < 2 ^ 27, pte s' root vpn = f vpn
  free : freed + (s.freelist : Multiset Nat) = new + s'.freelist
  kend : s'.kend = s.kend

variable {root : Nat} {new new' freed freed' : Multiset Nat} {f g : Nat → Option Nat}

theorem Grew.edits (hg : Grew s s' 2 root new) : Edits s s' root new 0 (pte s root) where
  tables := hg.grows.nodes
  frame q hq hn _ := hg.grows.frame q hq hn
  pointers := hg.grows.refs
  slot := hg.grows.slot
  pte vpn _ := hg.grows.lookup (key vpn)
  free := by rw [zero_add, hg.free]
  kend := hg.kend

theorem Edits.refl (s : Mem) (root : Nat) : Edits s s root 0 0 (Vm.pte s root) :=
  ⟨(add_zero _).symm, fun _ _ _ _ => rfl, id, fun _ _ h => h, fun _ _ => rfl, rfl, rfl⟩

theorem Edits.trans {s'' : Mem} (h : Edits s s' root new freed f) (h' : Edits s' s'' root new' freed' g) :
    Edits s s'' root (new + new') (freed + freed') g where
  tables := by rw [h'.tables, h.tables, add_assoc]
  frame q hq hn hf := by
    rw [Multiset.mem_add, not_or] at hn hf
    rw [h'.frame q _ hn.2 hf.2, h.frame q hq hn.1 hf.1]
    rw [h.tables, Multiset.mem_add, not_or]
    exact ⟨hq, hn.1⟩
  pointers := h'.pointers ∘ h.pointers
  slot key x hx := h'.slot key x (h.slot key x hx)
  pte := h'.pte
  free := by rw [add_comm freed, add_assoc, h.free, add_left_comm, h'.free, add_assoc]
  kend := h'.kend.trans h.kend

theorem Edits.congr (h : Edits s s' root new freed f) (hfg : ∀ vpn < 2 ^ 27, f vpn = g vpn) :
    Edits s s' root new freed g :=
  { h with pte := fun vpn hv => (h.pte vpn hv).trans (hfg vpn hv) }

theorem edits_store {vpn w : Nat} {x : Nat × Fin 512} (hn : (Vm.tables s root).Nodup) (hv : vpn < 2 ^ 27)
    (hx : Radix.slot child s.page (key vpn) 2 root = some x) :
    Edits s { s with page := Radix.put s.page x w } root 0 0
      (update (pte s root) vpn (if w &&& PTE_V ≠ 0 then some w else none)) where
  tables := by
    rw [add_zero]
    exact Radix.nodes_put hn hx
  frame q hq _ _ := Radix.put_of_ne fun h => hq (h ▸ (Radix.slot_mem hx).1)
  pointers := Radix.refs_congr (Radix.put_inner hn hx)
  slot key y hy := (Radix.slot_put hn hx).trans hy
  pte v hv' := by
    by_cases hvv : v = vpn
    · subst hvv
      rw [update_self]
      refine (Radix.lookup_put_self hn hx).trans ?_
      by_cases hw : w &&& PTE_V ≠ 0
      · rw [child_of_valid hw, if_pos hw]
        rfl
      · rw [child_of_not hw, if_neg hw]
        rfl
    · rw [update_of_ne hvv]
      exact Radix.lookup_put_of_ne hn hx (key_ne hv hv' fun h => hvv h.symm)
  free := rfl
  kend := rfl

theorem wp_walk_false {va : Nat} {Q : Option (Nat × Fin 512) → Mem → Prop} (hva : va < MAXVA)
    (h : Q (Radix.slot child s.page (key (va / PGSIZE)) 2 root) s) : wp (walk root va false) Q E s := by
  unfold walk
  rw [if_neg (not_le.mpr hva)]
  refine wp_walkFrom_false ?_
  rwa [show (px · va) = key (va / PGSIZE) from funext fun l => px_eq_key l va]

theorem wp_walk_true {va : Nat} (hva : va < MAXVA) (ht : Table s root) (ha : Avail s (Vm.tables s root)) :
    wp (walk root va true) (fun r s' => ∃ new, Edits s s' root new 0 (pte s root) ∧ Table s' root ∧
      Avail s' (Vm.tables s' root) ∧
      ∀ x, r = some x → Radix.slot child s'.page (key (va / PGSIZE)) 2 root = some x) E s := by
  unfold walk
  rw [if_neg (not_le.mpr hva)]
  refine (wp_walkFrom_true ht.distinct ha).mono ?_
  rintro r s' ⟨new, hg, hr⟩
  refine ⟨new, hg.edits, ⟨hg.nodup ht.distinct ha, hg.grows.refs ht.pointers⟩, hg.avail ha, ?_⟩
  rwa [show key (va / PGSIZE) = (px · va) from (funext fun l => px_eq_key l va).symm]

theorem Edits.table (h : Edits s s' root 0 freed f) (ht : Table s root) : Table s' root where
  distinct := by
    rw [h.tables, add_zero]
    exact ht.distinct
  pointers := h.pointers ht.pointers

theorem pte_of_slot {vpn : Nat} {x : Nat × Fin 512} (hx : Radix.slot child s.page (key vpn) 2 root = some x) :
    pte s root vpn = if s.page x.1 x.2 &&& PTE_V ≠ 0 then some (s.page x.1 x.2) else none := by
  rw [pte, Radix.lookup, hx]
  show Radix.entry child s.page x = _
  by_cases hw : s.page x.1 x.2 &&& PTE_V ≠ 0
  · rw [Radix.entry, child_of_valid hw, if_pos hw]
    rfl
  · rw [Radix.entry, child_of_not hw, if_neg hw]
    rfl

/-! ## `mappages` -/

/-- The map `m` with `k` pages from `v` on mapped to the pages from `pa` on. -/
def mapped (m : Nat → Option Nat) (v k pa perm : Nat) : Nat → Option Nat := fun vpn =>
  if v ≤ vpn ∧ vpn < v + k then some (leaf (pa + (vpn - v) * PGSIZE) perm) else m vpn

theorem mapped_zero (m : Nat → Option Nat) (v pa perm : Nat) : mapped m v 0 pa perm = m := by
  funext vpn
  exact if_neg fun h => absurd h.2 (not_lt.mpr h.1)

theorem mapped_succ (m : Nat → Option Nat) (v k pa perm : Nat) :
    mapped (update m v (some (leaf pa perm))) (v + 1) k (pa + PGSIZE) perm =
      mapped m v (k + 1) pa perm := by
  funext vpn
  unfold mapped
  by_cases hv : vpn = v
  · subst hv
    rw [if_neg (by omega), if_pos (by omega), update_self, Nat.sub_self, Nat.zero_mul, Nat.add_zero]
  · rw [update_of_ne hv]
    by_cases hr : v + 1 ≤ vpn ∧ vpn < v + 1 + k
    · have hsub : vpn - v = vpn - (v + 1) + 1 := by omega
      rw [if_pos hr, if_pos (by omega), hsub, Nat.succ_mul, Nat.add_assoc, Nat.add_comm PGSIZE]
    · rw [if_neg hr, if_neg (by omega)]

/-- `mappages` has mapped the first `k` of `n` pages. -/
structure MapsTo (s s' : Mem) (root v k pa perm : Nat) (new : Multiset Nat) : Prop where
  edits : Edits s s' root new 0 (mapped (pte s root) v k pa perm)
  table : Table s' root
  avail : Avail s' (Vm.tables s' root)

theorem MapsTo.cons {s₁ s₂ : Mem} {v k pa perm : Nat} (h : Edits s s₁ root new 0
      (update (pte s root) v (some (leaf pa perm))))
    (h' : MapsTo s₁ s₂ root (v + 1) k (pa + PGSIZE) perm new') :
    MapsTo s s₂ root v (k + 1) pa perm (new + new') := by
  refine ⟨(h.trans h'.edits).congr fun vpn hv => ?_, h'.table, h'.avail⟩
  rw [← mapped_succ]
  unfold mapped
  rw [h.pte vpn hv]

theorem Edits.store {s₁ : Mem} {v w : Nat} {x : Nat × Fin 512} (he : Edits s s₁ root new freed (Vm.pte s root))
    (hn : (Vm.tables s₁ root).Nodup) (hv : v < 2 ^ 27)
    (hx : Radix.slot child s₁.page (key v) 2 root = some x) :
    Edits s { s₁ with page := Radix.put s₁.page x w } root new freed
      (update (Vm.pte s root) v (if w &&& PTE_V ≠ 0 then some w else none)) := by
  have htrans := he.trans (edits_store (w := w) hn hv hx)
  rw [add_zero, add_zero] at htrans
  refine htrans.congr fun vpn hvpn => ?_
  by_cases hvv : vpn = v
  · rw [hvv, update_self, update_self]
  · rw [update_of_ne hvv, update_of_ne hvv, he.pte vpn hvpn]

theorem Avail.store {w : Nat} {x : Nat × Fin 512} {v : Nat} (ha : Avail s (Vm.tables s root))
    (hn : (Vm.tables s root).Nodup) (hv : v < 2 ^ 27)
    (hx : Radix.slot child s.page (key v) 2 root = some x) :
    Avail { s with page := Radix.put s.page x w } (Vm.tables { s with page := Radix.put s.page x w } root) := by
  rw [(edits_store hn hv hx).tables, add_zero]
  exact ⟨ha.distinct, ha.aligned, ha.small, ha.fresh⟩

theorem next_page {v : Nat} (h : v + 1 ≤ 2 ^ 26) : (v * PGSIZE + PGSIZE) % 2 ^ 64 = (v + 1) * PGSIZE := by
  show (v * 4096 + 4096) % 18446744073709551616 = (v + 1) * 4096
  omega

theorem wp_mapFrom {n v pa perm last : Nat} (ht : Table s root) (ha : Avail s (Vm.tables s root))
    (hv : v + n ≤ 2 ^ 26) (hpa : pa + n * PGSIZE ≤ 2 ^ 56) (hlast : last + PGSIZE = (v + n) * PGSIZE)
    (hnew : ∀ vpn, v ≤ vpn → vpn < v + n → pte s root vpn = none) :
    wp (mapFrom root last perm n (v * PGSIZE) pa) (fun r s' => ∃ k new,
      MapsTo s s' root v k pa perm new ∧ (r = 0 ∧ k = n ∨ r = -1 ∧ k < n)) E s := by
  induction n generalizing s v pa with
  | zero =>
    refine ⟨0, 0, ⟨?_, ht, ha⟩, .inl ⟨rfl, rfl⟩⟩
    rw [mapped_zero]
    exact .refl s root
  | succ n ih =>
    have hva : v * PGSIZE < MAXVA := by
      show v * 4096 < 274877906944
      omega
    refine (wp_walk_true hva ht ha).bind ?_
    rintro r s₁ ⟨new₁, he, ht₁, ha₁, hr⟩
    cases r with
    | none =>
      refine ⟨0, new₁, ⟨?_, ht₁, ha₁⟩, .inr ⟨rfl, Nat.succ_pos n⟩⟩
      rwa [mapped_zero]
    | some x =>
      have hx := hr x rfl
      rw [Nat.mul_div_cancel _ (by decide : 0 < PGSIZE)] at hx
      have hv27 : v < 2 ^ 27 := by omega
      have hinv : ¬ s₁.page x.1 x.2 &&& PTE_V ≠ 0 := by
        intro hw
        have hnone := (he.pte v hv27).trans (hnew v (le_refl v) (by omega))
        rw [pte_of_slot hx, if_pos hw] at hnone
        cases hnone
      rw [wp_bind, wp_load, if_neg hinv, wp_bind]
      have he₂ := he.store (w := leaf pa perm) ht₁.distinct hv27 hx
      have ht₂ := (edits_store (w := leaf pa perm) ht₁.distinct hv27 hx).table ht₁
      have ha₂ := ha₁.store (w := leaf pa perm) ht₁.distinct hv27 hx
      rw [if_pos leaf_valid] at he₂
      by_cases hl : v * PGSIZE = last
      · rw [if_pos hl]
        have hn : n = 0 := by
          have hlast : last + 4096 = (v + (n + 1)) * 4096 := hlast
          have hl : v * 4096 = last := hl
          omega
        refine ⟨1, new₁, ⟨?_, ht₂, ha₂⟩, .inl ⟨rfl, by rw [hn]⟩⟩
        rwa [← mapped_succ, mapped_zero]
      · rw [if_neg hl]
        have hp : (pa + PGSIZE) % 2 ^ 64 = pa + PGSIZE := Nat.mod_eq_of_lt (by
          show pa + 4096 < 2 ^ 64
          omega)
        rw [next_page (by omega), hp]
        refine (ih ht₂ ha₂ (by omega) ?_ (by rw [hlast, Nat.add_right_comm, Nat.add_assoc]) ?_).mono ?_
        · rw [Nat.add_assoc, Nat.add_comm PGSIZE, ← Nat.succ_mul]
          exact hpa
        · intro vpn h1 h2
          rw [he₂.pte vpn (by omega), update_of_ne (by omega)]
          exact hnew vpn (by omega) (by omega)
        · rintro r s' ⟨k, new, hm, hk⟩
          exact ⟨k + 1, new₁ + new, hm.cons he₂, by omega⟩

/-- `mappages` maps the pages up to the first one for which it finds no table. -/
theorem wp_mappages {va size pa perm : Nat} (ht : Table s root) (ha : Avail s (Vm.tables s root))
    (hva : va % PGSIZE = 0) (hsize : size % PGSIZE = 0) (h0 : size ≠ 0) (hmax : va + size ≤ MAXVA)
    (hpa : pa + size ≤ 2 ^ 56)
    (hnew : ∀ vpn, va ≤ vpn * PGSIZE → vpn * PGSIZE < va + size → pte s root vpn = none) :
    wp (mappages root va size pa perm) (fun r s' => ∃ k new,
      MapsTo s s' root (va / PGSIZE) k pa perm new ∧
        (r = 0 ∧ k = size / PGSIZE ∨ r = -1 ∧ k < size / PGSIZE)) E s := by
  obtain ⟨v, rfl⟩ := Nat.dvd_of_mod_eq_zero hva
  obtain ⟨n, rfl⟩ := Nat.dvd_of_mod_eq_zero hsize
  have hn : 0 < n := Nat.pos_of_ne_zero fun h => h0 (by rw [h, Nat.mul_zero])
  unfold mappages
  rw [if_neg (not_not.mpr hva), if_neg (not_not.mpr hsize), if_neg h0, Nat.mul_comm, Nat.mul_comm PGSIZE n,
    Nat.mul_div_cancel _ (by decide : 0 < PGSIZE), Nat.mul_div_cancel _ (by decide : 0 < PGSIZE)]
  have hmax : 4096 * v + 4096 * n ≤ 274877906944 := hmax
  refine wp_mapFrom ht ha (by omega) (Nat.mul_comm PGSIZE n ▸ hpa) ?_ ?_
  · show (v * 4096 + n * 4096 - 4096) % 2 ^ 64 + 4096 = (v + n) * 4096
    rw [Nat.mod_eq_of_lt] <;> omega
  · intro vpn h1 h2
    refine hnew vpn ?_ ?_
    · show 4096 * v ≤ vpn * 4096
      omega
    · show vpn * 4096 < 4096 * v + 4096 * n
      omega

/-! ## `uvmunmap` -/

/-- The map `m` without `k` pages from `v` on. -/
def unmapped (m : Nat → Option Nat) (v k : Nat) : Nat → Option Nat := fun vpn =>
  if v ≤ vpn ∧ vpn < v + k then none else m vpn

theorem unmapped_succ (m : Nat → Option Nat) (v k : Nat) :
    unmapped (update m v none) (v + 1) k = unmapped m v (k + 1) := by
  funext vpn
  unfold unmapped
  by_cases hv : vpn = v
  · subst hv
    rw [if_neg (by omega), if_pos (by omega), update_self]
  · rw [update_of_ne hv]
    exact if_congr (by omega) rfl rfl

/-- The physical pages behind `k` virtual pages from `v` on. -/
def behind (m : Nat → Option Nat) (v k : Nat) : Multiset Nat :=
  (List.range' v k).map fun vpn => pte2pa ((m vpn).getD 0)

theorem behind_succ {m m' : Nat → Option Nat} {v k w : Nat} (hw : m v = some w)
    (h : ∀ vpn, v < vpn → vpn < v + (k + 1) → m' vpn = m vpn) :
    {pte2pa w} + behind m' (v + 1) k = behind m v (k + 1) := by
  have htail : behind m' (v + 1) k = behind m (v + 1) k := by
    refine congrArg _ (List.map_congr_left fun vpn hvpn => ?_)
    obtain ⟨h1, h2⟩ := List.mem_range'_1.mp hvpn
    rw [h vpn h1 (by omega)]
  rw [htail]
  unfold behind
  rw [List.range'_succ, List.map_cons, hw]
  rfl

/-- `kfree` takes the page. -/
def Kfreeable (s : Mem) (pa : Nat) : Prop := pa % PGSIZE = 0 ∧ s.kend ≤ pa ∧ pa < PHYSTOP

theorem wp_kfree {pa : Nat} {Q : Unit → Mem → Prop} (h : Kfreeable s pa)
    (hQ : Q () ⟨update s.page pa fun _ => 1 * 0x0101010101010101, pa :: s.freelist, s.deny, s.kend⟩) :
    wp (kfree pa) Q E s := by
  unfold kfree
  rw [wp_bind, wp_get, if_neg]
  · exact hQ
  · rintro (h0 | h1 | h2)
    · exact h0 h.1
    · exact absurd h.2.1 (not_le.mpr h1)
    · exact absurd h.2.2 (not_lt.mpr h2)

theorem update_tables {p : Nat} (hp : p ∉ Vm.tables s root) (row : Fin 512 → Nat) :
    ∀ q ∈ Vm.tables s root, update s.page p row q = s.page q := by
  intro q hq
  have hne : q ≠ p := fun h => hp (h ▸ hq)
  exact update_of_ne hne _ _

theorem edits_kfree {p : Nat} (hp : p ∉ Vm.tables s root) (row : Fin 512 → Nat) :
    Edits s ⟨update s.page p row, p :: s.freelist, s.deny, s.kend⟩ root 0 {p} (pte s root) := by
  have hsame := update_tables hp row
  refine ⟨?_, ?_, ?_, ?_, ?_, ?_, rfl⟩
  · rw [add_zero]
    exact Radix.nodes_congr fun q hq => hsame q (Radix.mem_nodes_of_mem_inner hq)
  · intro q _ _ hq
    exact update_of_ne (fun h => hq (Multiset.mem_singleton.mpr h)) _ _
  · exact Radix.refs_congr fun q hq => hsame q (Radix.mem_nodes_of_mem_inner hq)
  · exact fun key x hx => (Radix.slot_congr fun q hq => hsame q (Radix.mem_nodes_of_mem_inner hq)).trans hx
  · exact fun vpn _ => Radix.lookup_congr hsame
  · rw [zero_add]
    rfl

/-- What `uvmunmap` needs of a page: it is mapped by a leaf, and the page behind it may be freed. -/
structure Unmappable (s : Mem) (root : Nat) (do_free : Bool) (vpn : Nat) (w : Nat) : Prop where
  pte : pte s root vpn = some w
  leaf : pteFlags w ≠ PTE_V
  free : do_free = true → Kfreeable s (pte2pa w) ∧ pte2pa w ∉ Vm.tables s root

theorem pte_some {vpn w : Nat} (h : pte s root vpn = some w) : w &&& PTE_V ≠ 0 ∧
    ∃ x, Radix.slot child s.page (key vpn) 2 root = some x ∧ s.page x.1 x.2 = w := by
  obtain ⟨x, hx, -⟩ := Option.bind_eq_some_iff.mp h
  rw [pte_of_slot hx] at h
  split at h
  · next hw =>
    cases h
    exact ⟨hw, x, hx, rfl⟩
  · cases h

theorem Unmappable.edits {s₁ : Mem} {do_free : Bool} {vpn w : Nat} (h : Unmappable s root do_free vpn w)
    (he : Edits s s₁ root 0 freed f) (hf : f vpn = Vm.pte s root vpn) (hv : vpn < 2 ^ 27) :
    Unmappable s₁ root do_free vpn w where
  pte := (he.pte vpn hv).trans (hf.trans h.pte)
  leaf := h.leaf
  free hd := by
    rw [Kfreeable, he.kend, he.tables, add_zero]
    exact h.free hd

theorem wp_unmapFrom {n v bound : Nat} {do_free : Bool} (ht : Table s root) (hv : v + n ≤ 2 ^ 26)
    (hbound : bound = (v + n) * PGSIZE)
    (hm : ∀ vpn, v ≤ vpn → vpn < v + n → ∃ w, Unmappable s root do_free vpn w) :
    wp (unmapFrom root bound do_free n (v * PGSIZE)) (fun _ s' =>
      Edits s s' root 0 (if do_free then behind (pte s root) v n else 0) (unmapped (pte s root) v n)) E s := by
  induction n generalizing s v with
  | zero =>
    have hmap : unmapped (pte s root) v 0 = pte s root := by
      funext vpn
      exact if_neg fun h => absurd h.2 (not_lt.mpr h.1)
    have hfreed : (if do_free then behind (pte s root) v 0 else 0) = 0 := ite_self 0
    show Edits s s root 0 (if do_free then behind (pte s root) v 0 else 0) (unmapped (pte s root) v 0)
    rw [hmap, hfreed]
    exact .refl s root
  | succ n ih =>
    unfold unmapFrom
    have hva : v * PGSIZE < MAXVA := by
      show v * 4096 < 274877906944
      omega
    have hlt : v * PGSIZE < bound := by
      rw [hbound]
      show v * 4096 < (v + (n + 1)) * 4096
      omega
    obtain ⟨w, hw⟩ := hm v (le_refl v) (by omega)
    obtain ⟨hvalid, x, hx, rfl⟩ := pte_some hw.pte
    rw [if_pos hlt]
    refine wp_bind.mpr (wp_walk_false hva ?_)
    rw [Nat.mul_div_cancel _ (by decide : 0 < PGSIZE), hx]
    show wp (load x >>= _) _ E s
    rw [wp_bind, wp_load, if_neg hvalid, if_neg hw.leaf]
    -- `s₂` is the state when the page is unmapped
    have hrest : ∀ s₂, Edits s s₂ root 0 (if do_free then {pte2pa (s.page x.1 x.2)} else 0)
        (update (pte s root) v none) →
        wp (unmapFrom root bound do_free n ((v * PGSIZE + PGSIZE) % 2 ^ 64)) (fun _ s' => Edits s s' root 0
          (if do_free then behind (pte s root) v (n + 1) else 0) (unmapped (pte s root) v (n + 1))) E s₂ := by
      intro s₂ he
      have hsame : ∀ vpn, v < vpn → vpn < v + (n + 1) → pte s₂ root vpn = pte s root vpn := fun vpn h1 h2 => by
        rw [he.pte vpn (by omega), update_of_ne (by omega)]
      rw [next_page (by omega)]
      refine (ih (he.table ht) (by omega) (by rw [hbound, Nat.add_right_comm, Nat.add_assoc]) ?_).mono ?_
      · intro vpn h1 h2
        obtain ⟨w, hw⟩ := hm vpn (by omega) (by omega)
        exact ⟨w, hw.edits he (update_of_ne (by omega) _ _) (by omega)⟩
      · intro _ s' he'
        have hfreed : (if do_free then {pte2pa (s.page x.1 x.2)} else 0) +
            (if do_free then behind (pte s₂ root) (v + 1) n else 0) =
            if do_free then behind (pte s root) v (n + 1) else 0 := by
          cases do_free
          · exact add_zero 0
          · exact behind_succ hw.pte hsame
        rw [← hfreed, ← unmapped_succ]
        refine (he.trans he').congr fun vpn hvpn => ?_
        unfold unmapped
        rw [he.pte vpn hvpn]
    have hv27 : v < 2 ^ 27 := by omega
    cases do_free with
    | false =>
      have he := (Edits.refl s root).store (w := 0) ht.distinct hv27 hx
      exact hrest _ he
    | true =>
      obtain ⟨hfree, htab⟩ := hw.free rfl
      have hfreed := edits_kfree htab fun _ => 1 * 0x0101010101010101
      have hx₁ := (Radix.slot_congr fun q hq =>
        update_tables htab (fun _ => 1 * 0x0101010101010101) q (Radix.mem_nodes_of_mem_inner hq)).trans hx
      have he := hfreed.store (w := 0) (hfreed.table ht).distinct hv27 hx₁
      exact wp_bind.mpr (wp_kfree hfree (hrest _ he))

/-- `uvmunmap` unmaps the pages it is given. -/
theorem wp_uvmunmap {va npages : Nat} {do_free : Bool} (ht : Table s root) (hva : va % PGSIZE = 0)
    (hmax : va + npages * PGSIZE ≤ MAXVA)
    (hm : ∀ vpn, va / PGSIZE ≤ vpn → vpn < va / PGSIZE + npages → ∃ w, Unmappable s root do_free vpn w) :
    wp (uvmunmap root va npages do_free) (fun _ s' =>
      Edits s s' root 0 (if do_free then behind (pte s root) (va / PGSIZE) npages else 0)
        (unmapped (pte s root) (va / PGSIZE) npages)) E s := by
  obtain ⟨v, rfl⟩ := Nat.dvd_of_mod_eq_zero hva
  unfold uvmunmap
  rw [if_neg (not_not.mpr hva)]
  rw [Nat.mul_comm, Nat.mul_div_cancel _ (by decide : 0 < PGSIZE)] at hm ⊢
  have hmax : 4096 * v + npages * 4096 ≤ 274877906944 := hmax
  refine wp_unmapFrom ht (by omega) ?_ hm
  show (v * 4096 + npages * 4096) % 2 ^ 64 = (v + npages) * 4096
  rw [Nat.mod_eq_of_lt] <;> omega

end Xv6.Vm
