import Mathlib.Algebra.BigOperators.Group.Finset.Basic
import Mathlib.Data.Fintype.BigOperators

/-!
# Radix trees in a store of nodes

A store gives every node a row of entries, and `child` reads an entry as a reference to a node one level
down, if it is one. A key has an index for each level; following it from the root leads to a place in a
node of level 0 (`slot`), and what stands there, if it is present, is the key's entry (`lookup`).

The nodes of a tree form a multiset: that it has no duplicates says at once that the tree is a tree, so
that a write to one place is seen under one key only. `Grows` is what adding nodes to a tree may do.
-/

namespace Radix

open Function

variable {ν ι ω : Type} [Fintype ι] (child : ω → Option ν)

/-- The nodes of the tree of height `l` below `t`. -/
def nodes (m : ν → ι → ω) : ℕ → ν → Multiset ν
  | 0, t => {t}
  | l + 1, t => t ::ₘ ∑ i, (child (m t i)).elim 0 (nodes m l)

/-- Those above level 0, whose entries are references. -/
def inner (m : ν → ι → ω) : ℕ → ν → Multiset ν
  | 0, _ => 0
  | l + 1, t => t ::ₘ ∑ i, (child (m t i)).elim 0 (inner m l)

/-- The place at level 0 the key leads to. -/
def slot (m : ν → ι → ω) (key : ℕ → ι) : ℕ → ν → Option (ν × ι)
  | 0, t => some (t, key 0)
  | l + 1, t => (child (m t (key (l + 1)))).bind (slot m key l)

/-- The entry at a place, if it is present. -/
def entry (m : ν → ι → ω) (x : ν × ι) : Option ω :=
  if (child (m x.1 x.2)).isSome then some (m x.1 x.2) else none

/-- The entry of a key. -/
def lookup (m : ν → ι → ω) (key : ℕ → ι) (l : ℕ) (t : ν) : Option ω :=
  (slot child m key l t).bind (entry child m)

/-- Every reference of the tree satisfies `P`. -/
def Refs (P : ω → Prop) (m : ν → ι → ω) : ℕ → ν → Prop
  | 0, _ => True
  | l + 1, t => ∀ i c, child (m t i) = some c → P (m t i) ∧ Refs P m l c

/-- The nodes of level 0 have no entries. -/
def Vacant (m : ν → ι → ω) : ℕ → ν → Prop
  | 0, t => ∀ i, child (m t i) = none
  | l + 1, t => ∀ i c, child (m t i) = some c → Vacant m l c

variable {child} {P : ω → Prop} {m m' m'' : ν → ι → ω} {key key' : ℕ → ι} {l : ℕ} {t c d q : ν} {i j : ι}
  {x : ν × ι}

/-! ## The nodes of a tree and of its subtrees -/

theorem nodes_zero : nodes child m 0 t = {t} := rfl

theorem nodes_succ : nodes child m (l + 1) t = t ::ₘ ∑ i, (child (m t i)).elim 0 (nodes child m l) := rfl

theorem self_mem_nodes : t ∈ nodes child m l t := by
  cases l with
  | zero => exact Multiset.mem_singleton_self t
  | succ l => exact Multiset.mem_cons_self _ _

theorem nodes_split [DecidableEq ι] (hc : child (m t i) = some c) :
    nodes child m (l + 1) t =
      t ::ₘ (nodes child m l c + ∑ j ∈ Finset.univ.erase i, (child (m t j)).elim 0 (nodes child m l)) := by
  rw [nodes, ← Finset.add_sum_erase _ _ (Finset.mem_univ i), hc]
  rfl

theorem mem_children {F : ν → Multiset ν} :
    q ∈ ∑ i, (child (m t i)).elim 0 F ↔ ∃ i c, child (m t i) = some c ∧ q ∈ F c := by
  rw [Multiset.mem_sum]
  constructor
  · rintro ⟨i, -, hq⟩
    cases hc : child (m t i) with rw [hc] at hq
    | none => exact absurd hq (Multiset.notMem_zero q)
    | some c => exact ⟨i, c, hc, hq⟩
  · rintro ⟨i, c, hc, hq⟩
    refine ⟨i, Finset.mem_univ i, ?_⟩
    rw [hc]
    exact hq

theorem mem_nodes_succ :
    q ∈ nodes child m (l + 1) t ↔ q = t ∨ ∃ i c, child (m t i) = some c ∧ q ∈ nodes child m l c := by
  rw [nodes, Multiset.mem_cons, mem_children]

theorem mem_nodes_child (hc : child (m t i) = some c) (hq : q ∈ nodes child m l c) :
    q ∈ nodes child m (l + 1) t :=
  mem_nodes_succ.mpr (.inr ⟨i, c, hc, hq⟩)

theorem mem_inner_succ :
    q ∈ inner child m (l + 1) t ↔ q = t ∨ ∃ i c, child (m t i) = some c ∧ q ∈ inner child m l c := by
  rw [inner, Multiset.mem_cons, mem_children]

theorem mem_nodes_of_mem_inner (hq : q ∈ inner child m l t) : q ∈ nodes child m l t := by
  induction l generalizing t with
  | zero => exact absurd hq (Multiset.notMem_zero q)
  | succ l ih =>
    rcases mem_inner_succ.mp hq with rfl | ⟨i, c, hc, hq⟩
    · exact self_mem_nodes
    · exact mem_nodes_child hc (ih hq)

theorem nodup_child [DecidableEq ι] (hn : (nodes child m (l + 1) t).Nodup) (hc : child (m t i) = some c) :
    (nodes child m l c).Nodup := by
  rw [nodes_split hc, Multiset.nodup_cons] at hn
  exact (Multiset.nodup_add.mp hn.2).1

theorem root_notMem [DecidableEq ι] (hn : (nodes child m (l + 1) t).Nodup) (hc : child (m t i) = some c) :
    t ∉ nodes child m l c := by
  rw [nodes_split hc, Multiset.nodup_cons] at hn
  exact fun ht => hn.1 (Multiset.mem_add.mpr (.inl ht))

theorem subtree_unique [DecidableEq ι] (hn : (nodes child m (l + 1) t).Nodup) (hc : child (m t i) = some c)
    (hd : child (m t j) = some d) (hqc : q ∈ nodes child m l c) (hqd : q ∈ nodes child m l d) : i = j := by
  by_contra hij
  rw [nodes_split hc, Multiset.nodup_cons] at hn
  refine Multiset.disjoint_left.mp (Multiset.nodup_add.mp hn.2).2.2 hqc ?_
  refine Multiset.mem_sum.mpr ⟨j, Finset.mem_erase.mpr ⟨fun h => hij h.symm, Finset.mem_univ j⟩, ?_⟩
  rw [hd]
  exact hqd

/-! ## What a tree depends on -/

theorem inner_congr_child (h : ∀ q ∈ inner child m (l + 1) t, m' q = m q) (hc : child (m t i) = some c) :
    ∀ q ∈ inner child m l c, m' q = m q :=
  fun q hq => h q (mem_inner_succ.mpr (.inr ⟨i, c, hc, hq⟩))

theorem nodes_congr (h : ∀ q ∈ inner child m l t, m' q = m q) :
    nodes child m' l t = nodes child m l t := by
  induction l generalizing t with
  | zero => rfl
  | succ l ih =>
    rw [nodes, h t (mem_inner_succ.mpr (.inl rfl))]
    refine congrArg _ (Finset.sum_congr rfl fun i _ => ?_)
    cases hc : child (m t i) with
    | none => rfl
    | some c => exact ih (inner_congr_child h hc)

theorem slot_congr (h : ∀ q ∈ inner child m l t, m' q = m q) :
    slot child m' key l t = slot child m key l t := by
  induction l generalizing t with
  | zero => rfl
  | succ l ih =>
    rw [slot, slot, h t (mem_inner_succ.mpr (.inl rfl))]
    cases hc : child (m t (key (l + 1))) with
    | none => rfl
    | some c => exact ih (inner_congr_child h hc)

theorem refs_congr (h : ∀ q ∈ inner child m l t, m' q = m q) (hr : Refs child P m l t) :
    Refs child P m' l t := by
  induction l generalizing t with
  | zero => trivial
  | succ l ih =>
    intro i c hc
    rw [h t (mem_inner_succ.mpr (.inl rfl))] at hc ⊢
    exact ⟨(hr i c hc).1, ih (inner_congr_child h hc) (hr i c hc).2⟩

omit [Fintype ι] in
theorem entry_congr (h : m' x.1 = m x.1) : entry child m' x = entry child m x := by
  rw [entry, entry, h]

/-! ## Places -/

theorem slot_mem (hx : slot child m key l t = some x) : x.1 ∈ nodes child m l t ∧ x.2 = key 0 := by
  induction l generalizing t with
  | zero =>
    cases hx
    exact ⟨self_mem_nodes, rfl⟩
  | succ l ih =>
    obtain ⟨c, hc, hx⟩ := Option.bind_eq_some_iff.mp hx
    exact ⟨mem_nodes_child hc (ih hx).1, (ih hx).2⟩

theorem lookup_congr (h : ∀ q ∈ nodes child m l t, m' q = m q) :
    lookup child m' key l t = lookup child m key l t := by
  rw [lookup, lookup, slot_congr fun q hq => h q (mem_nodes_of_mem_inner hq)]
  cases hx : slot child m key l t with
  | none => rfl
  | some x => exact entry_congr (h x.1 (slot_mem hx).1)

theorem slot_notMem_inner [DecidableEq ι] (hn : (nodes child m l t).Nodup) (hx : slot child m key l t = some x) :
    x.1 ∉ inner child m l t := by
  induction l generalizing t with
  | zero => exact Multiset.notMem_zero _
  | succ l ih =>
    obtain ⟨c, hc, hx⟩ := Option.bind_eq_some_iff.mp hx
    intro hmem
    rcases mem_inner_succ.mp hmem with ht | ⟨j, d, hd, hq⟩
    · exact root_notMem hn hc (ht ▸ (slot_mem hx).1)
    · have hij := subtree_unique hn hc hd (slot_mem hx).1 (mem_nodes_of_mem_inner hq)
      subst hij
      cases hc.symm.trans hd
      exact ih (nodup_child hn hc) hx hq

theorem slot_inj [DecidableEq ι] {y : ν × ι} (hn : (nodes child m l t).Nodup) (hx : slot child m key l t = some x)
    (hy : slot child m key' l t = some y) (hxy : x.1 = y.1) {k : ℕ} (hk : 0 < k) (hkl : k ≤ l) :
    key k = key' k := by
  induction l generalizing t with
  | zero => exact absurd (hk.trans_le hkl) (lt_irrefl 0)
  | succ l ih =>
    obtain ⟨c, hc, hx⟩ := Option.bind_eq_some_iff.mp hx
    obtain ⟨d, hd, hy⟩ := Option.bind_eq_some_iff.mp hy
    have hij := subtree_unique hn hc hd (slot_mem hx).1 (hxy ▸ (slot_mem hy).1)
    rcases Nat.lt_or_ge l k with h | h
    · rwa [show k = l + 1 from Nat.le_antisymm hkl h]
    · rw [← hij] at hd
      cases hc.symm.trans hd
      exact ih (nodup_child hn hc) hx hy h

omit [Fintype ι] in
theorem lookup_key_congr (h : ∀ k ≤ l, key k = key' k) : lookup child m key l t = lookup child m key' l t := by
  have hslot : slot child m key l t = slot child m key' l t := by
    induction l generalizing t with
    | zero => rw [slot, slot, h 0 le_rfl]
    | succ l ih =>
      rw [slot, h (l + 1) le_rfl]
      exact congrArg _ (funext fun _ => ih fun k hk => h k (Nat.le_succ_of_le hk))
  rw [lookup, lookup, hslot]

omit [Fintype ι] in
theorem vacant_of_lookup (h : ∀ key, lookup child m key l t = none) : Vacant child m l t := by
  induction l generalizing t with
  | zero =>
    intro i
    have hi : (if (child (m t i)).isSome then some (m t i) else none) = none := h fun _ => i
    cases hc : child (m t i) with
    | none => rfl
    | some c =>
      rw [hc] at hi
      cases hi
  | succ l ih =>
    intro i c hc
    refine ih fun key => ?_
    have hkey := h fun k => if k = l + 1 then i else key k
    rw [lookup, slot, if_pos rfl, hc] at hkey
    refine Eq.trans (lookup_key_congr fun k hk => ?_) hkey
    exact (if_neg (Nat.ne_of_lt (Nat.lt_succ_of_le hk))).symm

theorem vacant_congr (h : ∀ q ∈ nodes child m l t, m' q = m q) (hv : Vacant child m l t) :
    Vacant child m' l t := by
  induction l generalizing t with
  | zero =>
    intro i
    rw [h t self_mem_nodes]
    exact hv i
  | succ l ih =>
    intro i c hc
    rw [h t self_mem_nodes] at hc
    exact ih (fun q hq => h q (mem_nodes_child hc hq)) (hv i c hc)

/-! ## Writing an entry -/

variable [DecidableEq ι] [DecidableEq ν]

/-- The store with one entry replaced. -/
def put (m : ν → ι → ω) (x : ν × ι) (w : ω) : ν → ι → ω :=
  update m x.1 (update (m x.1) x.2 w)

section

omit [Fintype ι]

@[simp] theorem put_self (w : ω) : put m x w x.1 x.2 = w := by
  rw [put, update_self, update_self]

theorem put_of_ne {w : ω} (h : q ≠ x.1) : put m x w q = m q :=
  update_of_ne h _ _

theorem put_of_ne_index {w : ω} (h : (q, i) ≠ x) : put m x w q i = m q i := by
  by_cases hq : q = x.1
  · subst hq
    rw [put, update_self, update_of_ne]
    exact fun hi => h (Prod.ext rfl hi)
  · rw [put_of_ne hq]

end

section Put

variable {w : ω} (hn : (nodes child m l t).Nodup) (hx : slot child m key l t = some x)
include hn hx

theorem put_inner : ∀ q ∈ inner child m l t, put m x w q = m q :=
  fun _ hq => put_of_ne fun h => slot_notMem_inner hn hx (h ▸ hq)

theorem nodes_put : nodes child (put m x w) l t = nodes child m l t :=
  nodes_congr (put_inner hn hx)

theorem slot_put : slot child (put m x w) key' l t = slot child m key' l t :=
  slot_congr (put_inner hn hx)

theorem lookup_put_self : lookup child (put m x w) key l t = if (child w).isSome then some w else none := by
  rw [lookup, slot_put hn hx, hx]
  show entry child (put m x w) x = _
  rw [entry, put_self]

theorem lookup_put_of_ne (hk : ∃ k ≤ l, key k ≠ key' k) :
    lookup child (put m x w) key' l t = lookup child m key' l t := by
  rw [lookup, lookup, slot_put hn hx]
  cases hy : slot child m key' l t with
  | none => rfl
  | some y =>
    show entry child (put m x w) y = entry child m y
    have hne : (y.1, y.2) ≠ x := by
      rintro rfl
      obtain ⟨k, hkl, hk⟩ := hk
      rcases Nat.eq_zero_or_pos k with rfl | hpos
      · exact hk ((slot_mem hx).2.symm.trans (slot_mem hy).2)
      · exact hk (slot_inj hn hx hy rfl hpos hkl)
    rw [entry, entry, put_of_ne_index hne]

end Put

/-! ## Adding nodes -/

variable (child P) in
/-- The tree may have gained the nodes `new`; every key keeps its place and its entry. -/
structure Grows (m m' : ν → ι → ω) (l : ℕ) (t : ν) (new : Multiset ν) : Prop where
  nodes : nodes child m' l t = nodes child m l t + new
  frame : ∀ q, q ∉ Radix.nodes child m l t → q ∉ new → m' q = m q
  slot : ∀ key x, slot child m key l t = some x → slot child m' key l t = some x
  lookup : ∀ key, lookup child m' key l t = lookup child m key l t
  refs : Refs child P m l t → Refs child P m' l t

omit [DecidableEq ι] [DecidableEq ν] in
theorem Grows.refl : Grows child P m m l t 0 :=
  ⟨(add_zero _).symm, fun _ _ _ => rfl, fun _ _ h => h, fun _ => rfl, id⟩

omit [DecidableEq ι] [DecidableEq ν] in
theorem Grows.trans {new new' : Multiset ν} (h : Grows child P m m' l t new)
    (h' : Grows child P m' m'' l t new') : Grows child P m m'' l t (new + new') where
  nodes := by rw [h'.nodes, h.nodes, add_assoc]
  frame q hq hqn := by
    rw [Multiset.mem_add, not_or] at hqn
    rw [h'.frame q _ hqn.2, h.frame q hq hqn.1]
    rw [h.nodes, Multiset.mem_add, not_or]
    exact ⟨hq, hqn.1⟩
  slot key x hx := h'.slot key x (h.slot key x hx)
  lookup key := (h'.lookup key).trans (h.lookup key)
  refs := h'.refs ∘ h.refs

omit [DecidableEq ν] in
theorem Grows.row_root {new : Multiset ν} (h : Grows child P m m' l c new)
    (hn : (Radix.nodes child m (l + 1) t).Nodup) (hc : child (m t i) = some c)
    (hnew : ∀ q ∈ new, q ∉ Radix.nodes child m (l + 1) t) : m' t = m t :=
  h.frame t (root_notMem hn hc) fun hmem => hnew t hmem self_mem_nodes

omit [DecidableEq ν] in
theorem siblings_congr (hrow : ∀ j, j ≠ i → m' t j = m t j)
    (hkeep : ∀ j d, j ≠ i → child (m t j) = some d → ∀ q ∈ nodes child m l d, m' q = m q) :
    ∑ j ∈ Finset.univ.erase i, (child (m' t j)).elim 0 (nodes child m' l) =
      ∑ j ∈ Finset.univ.erase i, (child (m t j)).elim 0 (nodes child m l) := by
  refine Finset.sum_congr rfl fun j hj => ?_
  have hji := Finset.ne_of_mem_erase hj
  rw [hrow j hji]
  cases hd : child (m t j) with
  | none => rfl
  | some d => exact nodes_congr fun q hq => hkeep j d hji hd q (mem_nodes_of_mem_inner hq)

omit [DecidableEq ν] in
theorem Grows.lift {new : Multiset ν} (h : Grows child P m m' l c new)
    (hn : (Radix.nodes child m (l + 1) t).Nodup) (hc : child (m t i) = some c)
    (hnew : ∀ q ∈ new, q ∉ Radix.nodes child m (l + 1) t) : Grows child P m m' (l + 1) t new := by
  have ht : m' t = m t := h.row_root hn hc hnew
  -- the other subtrees are not touched
  have hother : ∀ j d, j ≠ i → child (m t j) = some d → ∀ q ∈ Radix.nodes child m l d, m' q = m q := by
    intro j d hji hd q hq
    refine h.frame q (fun hqc => hji (subtree_unique hn hd hc hq hqc)) fun hqn => ?_
    exact hnew q hqn (mem_nodes_child hd hq)
  refine ⟨?_, ?_, ?_, ?_, ?_⟩
  · have hc' : child (m' t i) = some c := by rwa [ht]
    rw [nodes_split hc', nodes_split hc, h.nodes, Multiset.cons_add]
    rw [siblings_congr (fun j _ => congrFun ht j) hother, add_right_comm]
  · intro q hq hqn
    exact h.frame q (fun hqc => hq (mem_nodes_child hc hqc)) hqn
  · intro key x hx
    obtain ⟨d, hd, hx⟩ := Option.bind_eq_some_iff.mp hx
    rw [Radix.slot, ht, hd]
    by_cases hi : key (l + 1) = i
    · rw [hi] at hd
      cases hc.symm.trans hd
      exact h.slot key x hx
    · exact (slot_congr fun q hq => hother _ d hi hd q (mem_nodes_of_mem_inner hq)).trans hx
  · intro key
    rw [Radix.lookup, Radix.lookup, Radix.slot, Radix.slot, ht]
    by_cases hi : key (l + 1) = i
    · rw [hi, hc]
      exact h.lookup key
    · cases hd : child (m t (key (l + 1))) with
      | none => rfl
      | some d => exact lookup_congr (hother _ d hi hd)
  · intro hr j d hd
    rw [ht] at hd ⊢
    refine ⟨(hr j d hd).1, ?_⟩
    by_cases hj : j = i
    · subst hj
      cases hc.symm.trans hd
      exact h.refs (hr j c hc).2
    · exact refs_congr (fun q hq => hother j d hj hd q (mem_nodes_of_mem_inner hq)) (hr j d hd).2

section Install

variable {f : ν} {w : ω} {blank : ι → ω} (hblank : ∀ i, child (blank i) = none)

omit [DecidableEq ι] [DecidableEq ν] in
include hblank in
theorem nodes_blank (h : m f = blank) : nodes child m l f = {f} := by
  cases l with
  | zero => rfl
  | succ l =>
    rw [nodes, h, Finset.sum_eq_zero]
    · rfl
    · intro i _
      rw [hblank]
      rfl

omit [Fintype ι] [DecidableEq ι] [DecidableEq ν] in
include hblank in
theorem lookup_blank (h : m f = blank) : lookup child m key l f = none := by
  cases l with
  | zero =>
    show entry child m (f, key 0) = none
    rw [entry, h, hblank]
    rfl
  | succ l =>
    rw [lookup, slot, h, hblank]
    rfl

include hblank in
theorem Grows.install (hn : (Radix.nodes child m (l + 1) t).Nodup) (hnone : child (m t i) = none)
    (hf : f ∉ Radix.nodes child m (l + 1) t) (hw : child w = some f) (hP : P w) :
    Grows child P m (put (update m f blank) (t, i) w) (l + 1) t {f} := by
  have hft : f ≠ t := fun h => hf (h ▸ self_mem_nodes)
  generalize hm' : put (update m f blank) (t, i) w = m'
  have hself : m' t i = w := by rw [← hm']; exact put_self w
  have hblankrow : m' f = blank := by rw [← hm', put_of_ne hft, update_self]
  have hrow : ∀ j, j ≠ i → m' t j = m t j := by
    intro j hj
    rw [← hm', put_of_ne_index fun h => hj (Prod.ext_iff.mp h).2, update_of_ne hft.symm]
  -- the subtrees that were there are not touched
  have hkeep : ∀ j d, child (m t j) = some d → ∀ q ∈ Radix.nodes child m l d, m' q = m q := by
    intro j d hd q hq
    have hqt : q ≠ t := fun h => root_notMem hn hd (h ▸ hq)
    have hqf : q ≠ f := fun h => hf (h ▸ mem_nodes_child hd hq)
    rw [← hm', put_of_ne hqt, update_of_ne hqf]
  refine ⟨?_, ?_, ?_, ?_, ?_⟩
  · have hc' : child (m' t i) = some f := by rw [hself, hw]
    rw [nodes_split hc', nodes_blank hblank hblankrow, Radix.nodes,
      ← Finset.add_sum_erase _ _ (Finset.mem_univ i), hnone]
    rw [siblings_congr hrow fun j d _ => hkeep j d, Option.elim_none, zero_add, Multiset.cons_add, add_comm]
  · intro q hq hqf
    have hqt : q ≠ t := fun h => hq (h ▸ self_mem_nodes)
    have hqf : q ≠ f := fun h => hqf (Multiset.mem_singleton.mpr h)
    rw [← hm', put_of_ne hqt, update_of_ne hqf]
  · intro key x hx
    obtain ⟨d, hd, hx⟩ := Option.bind_eq_some_iff.mp hx
    have hi : key (l + 1) ≠ i := by
      rintro rfl
      cases hnone.symm.trans hd
    rw [Radix.slot, hrow _ hi, hd]
    exact (slot_congr fun q hq => hkeep _ d hd q (mem_nodes_of_mem_inner hq)).trans hx
  · intro key
    rw [Radix.lookup, Radix.lookup, Radix.slot, Radix.slot]
    by_cases hi : key (l + 1) = i
    · rw [hi, hself, hw, hnone]
      exact lookup_blank hblank hblankrow
    · rw [hrow _ hi]
      cases hd : child (m t (key (l + 1))) with
      | none => rfl
      | some d => exact lookup_congr (hkeep _ d hd)
  · intro hr j d hd
    by_cases hj : j = i
    · subst hj
      rw [hself] at hd ⊢
      cases hw.symm.trans hd
      refine ⟨hP, ?_⟩
      cases l with
      | zero => trivial
      | succ l =>
        intro k e he
        rw [hblankrow, hblank] at he
        cases he
    · rw [hrow j hj] at hd ⊢
      exact ⟨(hr j d hd).1, refs_congr (fun q hq => hkeep j d hd q (mem_nodes_of_mem_inner hq)) (hr j d hd).2⟩

end Install

-- The sums are over every index: from here on no check up to unfolding may try to evaluate them.
attribute [irreducible] nodes inner

end Radix
