import Mathlib.Algebra.BigOperators.Fin
import Xv6.Vm.Grow

/-!
# Freeing a page table

`freewalk` goes through a tree of tables without leaves and frees every table once. `uvmfree` unmaps the
memory of the process first.
-/

namespace Xv6.Vm

open Wp

variable {s s' : Mem} {root : Nat} {E : Panic → Prop}

/-- The pages `freed` have gone to the free list, and no other page has changed. -/
structure Released (s s' : Mem) (freed : Multiset Nat) : Prop where
  free : (s'.freelist : Multiset Nat) = freed + s.freelist
  frame : ∀ q, q ∉ freed → s'.page q = s.page q
  kend : s'.kend = s.kend

/-- The tables below the entry `i` of the table `t`, where `sub` gives those below a table. -/
def below (s : Mem) (t : Nat) (sub : Nat → Multiset Nat) (i : Fin 512) : Multiset Nat :=
  (child (s.page t i)).elim 0 sub

/-- What the loop has done after the entries `pre`. -/
structure Freeing (s u : Mem) (t : Nat) (sub : Nat → Multiset Nat) (pre : List (Fin 512)) : Prop where
  free : (u.freelist : Multiset Nat) = (pre.map (below s t sub)).sum + s.freelist
  frame : ∀ q, q ≠ t → q ∉ (pre.map (below s t sub)).sum → u.page q = s.page q
  row : ∀ i, i ∉ pre → u.page t i = s.page t i
  kend : u.kend = s.kend

variable {t depth : Nat} {sub : Nat → Multiset Nat}

theorem Freeing.nil : Freeing s s t sub [] := ⟨(zero_add _).symm, fun _ _ _ => rfl, fun _ _ => rfl, rfl⟩

theorem Freeing.skip {u : Mem} {pre : List (Fin 512)} {i : Fin 512} (h : Freeing s u t sub pre)
    (hnone : child (s.page t i) = none) : Freeing s u t sub (pre ++ [i]) := by
  have hsum : ((pre ++ [i]).map (below s t sub)).sum = (pre.map (below s t sub)).sum := by
    rw [List.map_append, List.sum_append, List.map_singleton, below, hnone]
    exact add_zero _
  refine ⟨hsum ▸ h.free, fun q hq hn => h.frame q hq (hsum ▸ hn), fun j hj => h.row j fun hm => ?_, h.kend⟩
  exact hj (List.mem_append_left _ hm)

theorem Freeing.down {u u' : Mem} {pre : List (Fin 512)} {i : Fin 512} {c : Nat} (h : Freeing s u t sub pre)
    (hc : child (s.page t i) = some c) (ht : t ∉ sub c) (hr : Released u u' (sub c)) :
    Freeing s { u' with page := Radix.put u'.page (t, i) 0 } t sub (pre ++ [i]) := by
  have hsum : ((pre ++ [i]).map (below s t sub)).sum = (pre.map (below s t sub)).sum + sub c := by
    rw [List.map_append, List.sum_append, List.map_singleton, List.sum_singleton, below, hc]
    rfl
  refine ⟨?_, fun q hq hn => ?_, fun j hj => ?_, hr.kend.trans h.kend⟩
  · rw [hsum]
    show (u'.freelist : Multiset Nat) = _
    rw [hr.free, h.free]
    ac_rfl
  · rw [hsum, Multiset.mem_add, not_or] at hn
    show Radix.put u'.page (t, i) 0 q = _
    rw [Radix.put_of_ne hq, hr.frame q hn.2, h.frame q hq hn.1]
  · rw [List.mem_append, List.mem_singleton, not_or] at hj
    show Radix.put u'.page (t, i) 0 t j = _
    rw [Radix.put_of_ne_index fun heq => hj.2 (Prod.ext_iff.mp heq).2, hr.frame t ht, h.row j hj.1]

/-- What the loop needs of the subtrees: pointers lead to them, they are disjoint, and `freewalk` frees each. -/
structure Subtrees (s : Mem) (t depth : Nat) (sub : Nat → Multiset Nat) : Prop where
  pointer : ∀ i c, child (s.page t i) = some c → Pointer (s.page t i)
  root : ∀ i c, child (s.page t i) = some c → t ∉ sub c
  disjoint : ∀ i j c d, child (s.page t i) = some c → child (s.page t j) = some d → i ≠ j →
    ∀ q ∈ sub c, q ∉ sub d
  frees : ∀ i c, child (s.page t i) = some c → ∀ u : Mem, (∀ q ∈ sub c, u.page q = s.page q) → u.kend = s.kend →
    ∀ E, wp (freewalk depth c) (fun _ u' => Released u u' (sub c)) E u

theorem mem_sum_below {pre : List (Fin 512)} {q : Nat} (hq : q ∈ (pre.map (below s t sub)).sum) :
    ∃ i ∈ pre, ∃ c, child (s.page t i) = some c ∧ q ∈ sub c := by
  induction pre with
  | nil => exact absurd hq (Multiset.notMem_zero q)
  | cons j pre ih =>
    rw [List.map_cons, List.sum_cons, Multiset.mem_add] at hq
    rcases hq with hq | hq
    · cases hc : child (s.page t j) with
      | none =>
        rw [below, hc] at hq
        exact absurd hq (Multiset.notMem_zero q)
      | some c =>
        rw [below, hc] at hq
        exact ⟨j, List.mem_cons_self, c, hc, hq⟩
    · obtain ⟨i, hi, h⟩ := ih hq
      exact ⟨i, List.mem_cons_of_mem _ hi, h⟩

theorem wp_freewalkEntry {u : Mem} {pre : List (Fin 512)} {i : Fin 512} (hs : Subtrees s t depth sub) (hi : i ∉ pre)
    (h : Freeing s u t sub pre) :
    wp (freewalkEntry (freewalk depth) t i) (fun _ u' => Freeing s u' t sub (pre ++ [i])) E u := by
  have hrow := h.row i hi
  refine wp_bind.mpr (wp_load.mpr ?_)
  show wp (if u.page t i &&& PTE_V ≠ 0 ∧ _ then _ else _) _ E u
  rw [hrow]
  by_cases hv : s.page t i &&& PTE_V ≠ 0
  · have hc := child_of_valid hv
    rw [if_pos ⟨hv, hs.pointer i _ hc⟩]
    refine wp_bind.mpr ((hs.frees i _ hc u (fun q hq => h.frame q ?_ ?_) h.kend E).mono fun _ u' hr => ?_)
    · exact fun heq => hs.root i _ hc (heq ▸ hq)
    · intro hmem
      obtain ⟨j, hj, d, hd, hqd⟩ := mem_sum_below hmem
      exact hs.disjoint j i d _ hd hc (fun heq => hi (heq ▸ hj)) q hqd hq
    · exact wp_store.mpr (h.down hc (hs.root i _ hc) hr)
  · rw [if_neg fun hboth => hv hboth.1, if_neg hv]
    exact h.skip (child_of_not hv)

theorem wp_freewalkLoop (hs : Subtrees s t depth sub) :
    wp (freewalkLoop (freewalk depth) t) (fun _ u => Freeing s u t sub (List.finRange 512)) E s := by
  unfold freewalkLoop
  have hnodup := List.nodup_finRange 512
  generalize List.finRange 512 = l at hnodup
  refine wp_forM (fun pre u => Freeing s u t sub pre) .nil ?_ fun _ h => h
  intro pre i post hl u h
  refine wp_freewalkEntry hs (fun hi => ?_) h
  rw [hl, List.nodup_append] at hnodup
  exact hnodup.2.2 i hi i List.mem_cons_self rfl

theorem wp_freewalk_of_subtrees (hs : Subtrees s t depth sub) (ht : Kfreeable s t) :
    wp (freewalk (depth + 1) t) (fun _ s' => Released s s' (t ::ₘ ∑ i, below s t sub i)) E s := by
  refine (wp_freewalkLoop hs).bind fun _ u h => ?_
  have hsum : ∑ i, below s t sub i = ((List.finRange 512).map (below s t sub)).sum := Fin.sum_univ_def _
  rw [hsum]
  refine wp_kfree ?_ ⟨?_, fun q hq => ?_, h.kend⟩
  · rw [Kfreeable, h.kend]
    exact ht
  · rw [Multiset.cons_add, ← h.free]
    rfl
  · rw [Multiset.mem_cons, not_or] at hq
    exact (Function.update_of_ne hq.1 _ _).trans (h.frame q hq.1 hq.2)

theorem wp_freewalk {l : Nat} (hn : (pages s l t).Nodup) (hrefs : Radix.Refs child Pointer s.page l t)
    (hv : Radix.Vacant child s.page l t) (hk : ∀ q ∈ pages s l t, Kfreeable s q) :
    wp (freewalk (l + 1) t) (fun _ s' => Released s s' (pages s l t)) E s := by
  induction l generalizing s t E with
  | zero =>
    have hzero : pages s 0 t = t ::ₘ ∑ i, below s t (fun _ => 0) i := by
      rw [Finset.sum_eq_zero]
      · exact Radix.nodes_zero
      · intro i _
        rw [below, hv i]
        rfl
    have hnone : ∀ {i c}, child (s.page t i) = some c → False := fun {i c} hc => by
      cases (hv i).symm.trans hc
    rw [hzero]
    refine wp_freewalk_of_subtrees ⟨?_, ?_, ?_, ?_⟩ (hk t Radix.self_mem_nodes)
    · exact fun i c hc => (hnone hc).elim
    · exact fun i c hc => (hnone hc).elim
    · exact fun i j c d hc => (hnone hc).elim
    · exact fun i c hc => (hnone hc).elim
  | succ l ih =>
    have hsucc : pages s (l + 1) t = t ::ₘ ∑ i, below s t (pages s l) i := Radix.nodes_succ
    rw [hsucc]
    refine wp_freewalk_of_subtrees ⟨fun i c hc => (hrefs i c hc).1, fun i c hc => Radix.root_notMem hn hc, ?_, ?_⟩
      (hk t Radix.self_mem_nodes)
    · intro i j c d hc hd hij q hq hq'
      exact hij (Radix.subtree_unique hn hc hd hq hq')
    · intro i c hc u hu hkend E
      -- below the entry nothing has changed when the loop gets there
      have hu' : ∀ q ∈ Radix.inner child s.page l c, u.page q = s.page q :=
        fun q hq => hu q (Radix.mem_nodes_of_mem_inner hq)
      have hpages : pages u l c = pages s l c := Radix.nodes_congr hu'
      rw [← hpages]
      refine ih ?_ (Radix.refs_congr hu' (hrefs i c hc).2) (Radix.vacant_congr hu (hv i c hc)) fun q hq => ?_
      · rw [hpages]
        exact Radix.nodup_child hn hc
      · rw [hpages] at hq
        rw [Kfreeable, hkend]
        exact hk q (Radix.mem_nodes_child hc hq)

theorem exists_vpn (k : Nat → Fin 512) : ∃ vpn < 2 ^ 27, ∀ l ≤ 2, key vpn l = k l := by
  refine ⟨((k 2).val * 512 + (k 1).val) * 512 + (k 0).val, by omega, fun l hl => Fin.ext ?_⟩
  rw [key, px_eq, Nat.mul_div_cancel _ (by decide : 0 < 4096)]
  obtain rfl | rfl | rfl : l = 0 ∨ l = 1 ∨ l = 2 := by omega
  · rw [Nat.pow_zero]
    omega
  · rw [Nat.pow_one]
    omega
  · rw [show 512 ^ 2 = 262144 from rfl]
    omega

theorem vacant_of_pte (h : ∀ vpn < 2 ^ 27, pte s root vpn = none) : Radix.Vacant child s.page 2 root := by
  refine Radix.vacant_of_lookup fun k => ?_
  obtain ⟨vpn, hvpn, hk⟩ := exists_vpn k
  rw [← h vpn hvpn]
  exact Radix.lookup_key_congr fun l hl => (hk l hl).symm

theorem Edits.released {s'' : Mem} {freed more : Multiset Nat} {f : Nat → Option Nat}
    (he : Edits s s' root 0 freed f) (hr : Released s' s'' (Vm.tables s' root + more)) :
    Released s s'' (Vm.tables s root + (freed + more)) := by
  have htables : Vm.tables s' root = Vm.tables s root := by rw [he.tables, add_zero]
  have hfree := he.free
  rw [zero_add] at hfree
  rw [htables] at hr
  refine ⟨?_, fun q hq => ?_, hr.kend.trans he.kend⟩
  · rw [hr.free, ← hfree]
    ac_rfl
  · rw [Multiset.mem_add, Multiset.mem_add, not_or, not_or] at hq
    rw [hr.frame q fun hm => (Multiset.mem_add.mp hm).elim hq.1 hq.2.2,
      he.frame q hq.1 (Multiset.notMem_zero q) hq.2.1]

theorem wp_freewalk_table (ht : Table s root) (hk : ∀ q ∈ tables s root, Kfreeable s q)
    (hnone : ∀ vpn < 2 ^ 27, pte s root vpn = none) :
    wp (freewalk 3 root) (fun _ s' => Released s s' (tables s root)) E s :=
  wp_freewalk ht.distinct ht.pointers (vacant_of_pte hnone) hk

theorem wp_uvmfree {sz : Nat} (ht : Table s root) (hk : ∀ q ∈ tables s root, Kfreeable s q) (hmax : sz ≤ MAXVA)
    (hm : ∀ vpn < npages sz, ∃ w, Unmappable s root true vpn w)
    (hnone : ∀ vpn < 2 ^ 27, npages sz ≤ vpn → pte s root vpn = none) :
    wp (uvmfree root sz) (fun _ s' => Released s s' (tables s root + behind (pte s root) 0 (npages sz))) E s := by
  have hle : npages sz ≤ 67108864 := by
    rw [npages_eq hmax]
    have hmax : sz ≤ 274877906944 := hmax
    omega
  refine wp_ite.mpr ⟨fun hpos => ?_, fun hzero => ?_⟩
  · refine wp_bind.mpr ((wp_uvmunmap ht (Nat.zero_mod _) ?_ ?_).mono fun _ s₁ he => ?_)
    · show 0 + npages sz * 4096 ≤ 274877906944
      omega
    · intro vpn _ hvpn
      rw [Nat.zero_div, Nat.zero_add] at hvpn
      exact hm vpn hvpn
    · rw [Nat.zero_div] at he
      have htables : tables s₁ root = tables s root := by rw [he.tables, add_zero]
      refine (wp_freewalk_table (he.table ht) (fun q hq => ?_) fun vpn hvpn => ?_).mono fun _ s' hr => ?_
      · rw [htables] at hq
        rw [Kfreeable, he.kend]
        exact hk q hq
      · rw [he.pte vpn hvpn, unmapped, Nat.zero_add]
        by_cases hlt : vpn < npages sz
        · rw [if_pos ⟨Nat.zero_le _, hlt⟩]
        · rw [if_neg fun h => hlt h.2, hnone vpn hvpn (not_lt.mp hlt)]
      · rw [← add_zero (tables s₁ root)] at hr
        have hall := he.released hr
        rwa [add_zero] at hall
  · obtain rfl : sz = 0 := by omega
    refine (wp_freewalk_table ht hk fun vpn hvpn => hnone vpn hvpn (Nat.zero_le _)).mono fun _ s' hr => ?_
    rw [show behind (pte s root) 0 (npages 0) = 0 from rfl, add_zero]
    exact hr

end Xv6.Vm
