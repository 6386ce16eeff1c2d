import Xv6.Vm.User

/-!
# Growing user memory

`Moves` is what a sequence of changes does to a page table and to the allocator: some free pages have become
tables, some have been taken for data, and some pages have gone back. `uvmalloc` and `uvmcopy` add one page
after the other; what they have added is a list of entries (`Grown`), and both undo it when memory runs out.
-/

namespace Xv6.Vm

open Function Wp

variable {s s' s₀ : Mem} {root : Nat} {new new' taken taken' freed freed' : Multiset Nat} {f g : Nat → Option Nat}
  {E : Panic → Prop}

/-- The page table has become one with the map `f`. The free list gave the pages `new` to the table and the
pages `taken` to others, and got the pages `freed`; no other page outside the table has changed. -/
structure Moves (s s' : Mem) (root : Nat) (new taken freed : Multiset Nat) (f : Nat → Option Nat) : Prop where
  tables : tables s' root = tables s root + new
  frame : ∀ q, q ∉ Vm.tables s root → q ∉ s.freelist → q ∉ freed → s'.page q = s.page q
  pointers : Radix.Refs child Pointer s.page 2 root → Radix.Refs child Pointer s'.page 2 root
  slot : ∀ key x, Radix.slot child s.page key 2 root = some x → Radix.slot child s'.page key 2 root = some x
  pte : ∀ vpn < 2 ^ 27, pte s' root vpn = f vpn
  free : freed + (s.freelist : Multiset Nat) = new + taken + s'.freelist
  kend : s'.kend = s.kend

theorem Moves.refl (s : Mem) (root : Nat) : Moves s s root 0 0 0 (Vm.pte s root) :=
  ⟨(add_zero _).symm, fun _ _ _ _ => rfl, id, fun _ _ h => h, fun _ _ => rfl, rfl, rfl⟩

theorem Moves.congr (h : Moves s s' root new taken freed f) (hfg : ∀ vpn < 2 ^ 27, f vpn = g vpn) :
    Moves s s' root new taken freed g :=
  { h with pte := fun vpn hv => (h.pte vpn hv).trans (hfg vpn hv) }

theorem Moves.mem_source (h : Moves s s' root new taken freed f) {q : Nat}
    (hq : q ∈ new ∨ q ∈ taken ∨ q ∈ s'.freelist) : q ∈ freed ∨ q ∈ s.freelist := by
  have hmem : q ∈ new + taken + (s'.freelist : Multiset Nat) := by
    rw [Multiset.mem_add, Multiset.mem_add, or_assoc]
    exact hq
  rw [← h.free] at hmem
  exact Multiset.mem_add.mp hmem

theorem Moves.trans {s'' : Mem} (h : Moves s s' root new taken freed f)
    (h' : Moves s' s'' root new' taken' freed' g) :
    Moves s s'' root (new + new') (taken + taken') (freed + freed') g where
  tables := by rw [h'.tables, h.tables, add_assoc]
  frame q hq hfree hf := by
    rw [Multiset.mem_add, not_or] at hf
    have hsrc : ¬ (q ∈ new ∨ q ∈ taken ∨ q ∈ s'.freelist) := fun hmem => (h.mem_source hmem).elim hf.1 hfree
    push Not at hsrc
    rw [h'.frame q _ hsrc.2.2 hf.2, h.frame q hq hfree hf.1]
    rw [h.tables, Multiset.mem_add, not_or]
    exact ⟨hq, hsrc.1⟩
  pointers := h'.pointers ∘ h.pointers
  slot key x hx := h'.slot key x (h.slot key x hx)
  pte := h'.pte
  free := by
    rw [add_comm freed, add_assoc, h.free, add_left_comm, h'.free]
    ac_rfl
  kend := h'.kend.trans h.kend

theorem Edits.moves (h : Edits s s' root new freed f) : Moves s s' root new 0 freed f where
  tables := h.tables
  frame q hq hfree hf := by
    refine h.frame q hq (fun hn => ?_) hf
    have hmem : q ∈ freed + (s.freelist : Multiset Nat) := h.free ▸ Multiset.mem_add.mpr (.inl hn)
    exact (Multiset.mem_add.mp hmem).elim hf hfree
  pointers := h.pointers
  slot := h.slot
  pte := h.pte
  free := by rw [add_zero, h.free]
  kend := h.kend

theorem Moves.cancel (h : Moves s s' root new taken taken f) (hback : ∀ q ∈ taken, q ∈ s.freelist) :
    Moves s s' root new 0 0 f where
  tables := h.tables
  frame q hq hfree _ := h.frame q hq hfree fun hb => hfree (hback q hb)
  pointers := h.pointers
  slot := h.slot
  pte := h.pte
  free := by
    have hfree := h.free
    rw [add_right_comm, add_comm _ taken] at hfree
    rw [add_zero]
    exact add_left_cancel hfree
  kend := h.kend

theorem moves_kalloc {r : Nat} {rest : List Nat} (hfree : s.freelist = r :: rest) (hr : r ∉ Vm.tables s root)
    (row : Fin 512 → Nat) (deny : List Bool) :
    Moves s ⟨update s.page r row, rest, deny, s.kend⟩ root 0 {r} 0 (Vm.pte s root) := by
  have hsame := update_tables hr row
  refine ⟨?_, fun q _ hq _ => ?_, ?_, ?_, ?_, ?_, rfl⟩
  · rw [add_zero]
    exact Radix.nodes_congr fun q hq => hsame q (Radix.mem_nodes_of_mem_inner hq)
  · refine update_of_ne (fun h => hq ?_) _ _
    rw [hfree, h]
    exact List.mem_cons_self
  · exact Radix.refs_congr fun q hq => hsame q (Radix.mem_nodes_of_mem_inner hq)
  · exact fun key x hx => (Radix.slot_congr fun q hq => hsame q (Radix.mem_nodes_of_mem_inner hq)).trans hx
  · exact fun vpn _ => Radix.lookup_congr hsame
  · rw [hfree, zero_add]
    rfl

/-! ## The allocator and a page table -/

/-- The allocator hands out pages of memory that are not among `used`, and takes them back. -/
structure Pool (s : Mem) (used : Multiset Nat) : Prop where
  distinct : s.freelist.Nodup
  kfreeable : ∀ p ∈ s.freelist, Kfreeable s p
  fresh : ∀ p ∈ s.freelist, p ∉ used

theorem kfreeable_small {p : Nat} (h : Kfreeable s p) : p < 2 ^ 56 := h.2.2.trans (by decide)

theorem Pool.avail {used : Multiset Nat} (h : Pool s used) : Avail s used :=
  ⟨h.distinct, fun p hp => (h.kfreeable p hp).1, fun p hp => kfreeable_small (h.kfreeable p hp), h.fresh⟩

theorem Pool.mono {used used' : Multiset Nat} (h : Pool s used) (hsub : ∀ q ∈ used', q ∈ used) : Pool s used' :=
  ⟨h.distinct, h.kfreeable, fun p hp hu => h.fresh p hp (hsub p hu)⟩

section

variable (h : Moves s s' root new taken 0 f)
include h

theorem Moves.mem_free {q : Nat} (hq : q ∈ new ∨ q ∈ taken ∨ q ∈ s'.freelist) : q ∈ s.freelist :=
  (h.mem_source hq).elim (fun h0 => absurd h0 (Multiset.notMem_zero q)) id

variable (hp : Pool s (Vm.tables s root))
include hp

theorem Moves.nodup : (new + taken + (s'.freelist : Multiset Nat)).Nodup := by
  rw [← h.free]
  exact Multiset.coe_nodup.mpr hp.distinct

theorem Moves.table (ht : Table s root) : Table s' root where
  distinct := by
    rw [h.tables, Multiset.nodup_add]
    refine ⟨ht.distinct, (Multiset.nodup_add.mp (Multiset.nodup_add.mp (h.nodup hp)).1).1, ?_⟩
    exact Multiset.disjoint_left.mpr fun hq hn => hp.fresh _ (h.mem_free (.inl hn)) hq
  pointers := h.pointers ht.pointers

theorem Moves.pool : Pool s' (Vm.tables s' root) := by
  have hn := Multiset.nodup_add.mp (h.nodup hp)
  refine ⟨Multiset.coe_nodup.mp hn.2.1, fun p hmem => ?_, fun p hmem htab => ?_⟩
  · rw [Kfreeable, h.kend]
    exact hp.kfreeable p (h.mem_free (.inr (.inr hmem)))
  · rw [h.tables, Multiset.mem_add] at htab
    rcases htab with htab | hnew
    · exact hp.fresh p (h.mem_free (.inr (.inr hmem))) htab
    · exact Multiset.disjoint_left.mp hn.2.2 (Multiset.mem_add.mpr (.inl hnew)) hmem

theorem Moves.taken_notMem {q : Nat} (hq : q ∈ taken) : q ∉ Vm.tables s' root ∧ q ∉ s'.freelist := by
  have hn := Multiset.nodup_add.mp (h.nodup hp)
  refine ⟨fun htab => ?_, fun hmem => Multiset.disjoint_left.mp hn.2.2 (Multiset.mem_add.mpr (.inr hq)) hmem⟩
  rw [h.tables, Multiset.mem_add] at htab
  rcases htab with htab | hnew
  · exact hp.fresh q (h.mem_free (.inr (.inl hq))) htab
  · exact Multiset.disjoint_left.mp (Multiset.nodup_add.mp hn.1).2.2 hnew hq

end

/-! ## Pages added one by one -/

theorem mapped_one (m : Nat → Option Nat) (v pa perm : Nat) :
    mapped m v 1 pa perm = update m v (some (leaf pa perm)) := by
  rw [← mapped_succ, mapped_zero]

theorem wp_mappages_one {va vpn pa perm : Nat} (ht : Table s root) (ha : Avail s (Vm.tables s root))
    (hva : va = vpn * PGSIZE) (hmax : vpn < 2 ^ 26) (hpa : pa + PGSIZE ≤ 2 ^ 56) (hnone : pte s root vpn = none) :
    wp (mappages root va PGSIZE pa perm) (fun r s' => ∃ new,
      (r = 0 ∧ Edits s s' root new 0 (update (pte s root) vpn (some (leaf pa perm)))) ∨
      (r = -1 ∧ Edits s s' root new 0 (pte s root))) E s := by
  subst hva
  have hdiv : vpn * PGSIZE / PGSIZE = vpn := Nat.mul_div_cancel _ (by decide)
  refine wp.mono (wp_mappages ht ha (Nat.mul_mod_left _ _) (Nat.mod_self _) (by decide) ?_ hpa ?_) ?_
  · show vpn * 4096 + 4096 ≤ 274877906944
    omega
  · intro v h1 h2
    have h1 : vpn * 4096 ≤ v * 4096 := h1
    have h2 : v * 4096 < vpn * 4096 + 4096 := h2
    obtain rfl : v = vpn := by omega
    exact hnone
  · rintro r s' ⟨k, new, hmap, hr⟩
    have he := hmap.edits
    rw [hdiv] at he
    rcases hr with ⟨rfl, rfl⟩ | ⟨rfl, hk⟩
    · rw [Nat.div_self (by decide), mapped_one] at he
      exact ⟨new, .inl ⟨rfl, he⟩⟩
    · obtain rfl : k = 0 := Nat.lt_one_iff.mp hk
      rw [mapped_zero] at he
      exact ⟨new, .inr ⟨rfl, he⟩⟩

/-- The map `m` with the entries `ws` for the pages from `v` on. -/
def placed (m : Nat → Option Nat) (v : Nat) (ws : List Nat) : Nat → Option Nat := fun vpn =>
  if v ≤ vpn ∧ vpn < v + ws.length then ws[vpn - v]? else m vpn

theorem placed_nil (m : Nat → Option Nat) (v : Nat) : placed m v [] = m := by
  funext vpn
  refine if_neg fun h => ?_
  rw [List.length_nil] at h
  omega

theorem placed_concat (m : Nat → Option Nat) (v w : Nat) (ws : List Nat) :
    placed m v (ws ++ [w]) = update (placed m v ws) (v + ws.length) (some w) := by
  funext vpn
  unfold placed
  rw [List.length_append, List.length_singleton]
  by_cases hv : vpn = v + ws.length
  · subst hv
    rw [update_self, if_pos (by omega), Nat.add_sub_cancel_left, List.getElem?_concat_length]
  · rw [update_of_ne hv]
    by_cases hr : v ≤ vpn ∧ vpn < v + ws.length
    · rw [if_pos hr, if_pos (by omega), List.getElem?_append_left (by omega)]
    · rw [if_neg hr, if_neg (by omega)]

theorem placed_self {m : Nat → Option Nat} {v i : Nat} {ws : List Nat} (hi : i < ws.length) :
    placed m v ws (v + i) = ws[i]? := by
  rw [placed, if_pos (by omega), Nat.add_sub_cancel_left]

theorem behind_placed (m : Nat → Option Nat) (v : Nat) (ws : List Nat) :
    behind (placed m v ws) v ws.length = (ws.map pte2pa : Multiset Nat) := by
  refine congrArg _ (List.ext_getElem? fun i => ?_)
  rw [List.getElem?_map, List.getElem?_map]
  by_cases hi : i < ws.length
  · rw [List.getElem?_range' hi, Option.map_some, Nat.one_mul, placed_self hi, List.getElem?_eq_getElem hi]
    rfl
  · rw [List.getElem?_eq_none (by simpa using hi), List.getElem?_eq_none (not_lt.mp hi)]
    rfl

theorem unmapped_placed {m : Nat → Option Nat} {v vpn : Nat} {ws : List Nat}
    (hnone : v ≤ vpn → vpn < v + ws.length → m vpn = none) :
    unmapped (placed m v ws) v ws.length vpn = m vpn := by
  unfold unmapped placed
  by_cases hr : v ≤ vpn ∧ vpn < v + ws.length
  · rw [if_pos hr, hnone hr.1 hr.2]
  · rw [if_neg hr, if_neg hr]

/-- From the page `v` on, pages have been added with the entries `ws`. Each is a fresh page with its flags
and its contents. -/
structure Grown (s₀ s : Mem) (root v : Nat) (row : Nat → Fin 512 → Nat) (perm : Nat → Nat) (new : Multiset Nat)
    (ws : List Nat) : Prop where
  moves : Moves s₀ s root new (ws.map pte2pa : Multiset Nat) 0 (placed (pte s₀ root) v ws)
  words : ∀ i w, ws[i]? = some w → w = leaf (pte2pa w) (perm (v + i)) ∧ s.page (pte2pa w) = row (v + i)

variable {v : Nat} {row : Nat → Fin 512 → Nat} {perm : Nat → Nat} {ws : List Nat}

theorem Grown.nil (s : Mem) (root v : Nat) (row : Nat → Fin 512 → Nat) (perm : Nat → Nat) :
    Grown s s root v row perm 0 [] := by
  refine ⟨(Moves.refl s root).congr fun vpn _ => ?_, fun i w h => absurd h nofun⟩
  rw [placed_nil]

/-- The state in which a page has left the free list and is filled. -/
def took (s : Mem) (r : Nat) (row : Fin 512 → Nat) (rest : List Nat) : Mem :=
  ⟨update s.page r row, rest, s.deny.tail, s.kend⟩

section

variable (hg : Grown s₀ s root v row perm new ws)
include hg

theorem Grown.undo (hmax : v + ws.length ≤ 2 ^ 26)
    (hnone : ∀ vpn, v ≤ vpn → vpn < v + ws.length → pte s₀ root vpn = none)
    (he : Edits s s' root 0 (behind (pte s root) v ws.length) (unmapped (pte s root) v ws.length)) :
    Moves s₀ s' root new 0 0 (pte s₀ root) := by
  have hbehind : behind (pte s root) v ws.length = (ws.map pte2pa : Multiset Nat) := by
    rw [← behind_placed (pte s₀ root) v ws]
    refine congrArg _ (List.map_congr_left fun vpn hvpn => ?_)
    rw [hg.moves.pte vpn (by have := List.mem_range'_1.mp hvpn; omega)]
  rw [hbehind] at he
  have hm := hg.moves.trans he.moves
  rw [add_zero, add_zero] at hm
  refine (hm.cancel fun q hq => hg.moves.mem_free (.inr (.inl hq))).congr fun vpn hvpn => ?_
  have hback : unmapped (placed (pte s₀ root) v ws) v ws.length vpn = pte s₀ root vpn := unmapped_placed (hnone vpn)
  rw [← hback]
  unfold unmapped
  rw [hg.moves.pte vpn hvpn]

variable (hp : Pool s₀ (Vm.tables s₀ root))
include hp

theorem Grown.more (h : Moves s s' root new' 0 0 (pte s root)) : Grown s₀ s' root v row perm (new + new') ws where
  moves := by
    have hm := hg.moves.trans h
    rw [add_zero] at hm
    exact hm.congr hg.moves.pte
  words i w hw := by
    have hmem : pte2pa w ∈ (ws.map pte2pa : Multiset Nat) := List.mem_map_of_mem (List.mem_of_getElem? hw)
    have hout := hg.moves.taken_notMem hp hmem
    rw [h.frame _ hout.1 hout.2 (Multiset.notMem_zero _)]
    exact hg.words i w hw

theorem Grown.concat {r : Nat} {s₁ : Mem} (hk : Moves s s₁ root 0 {r} 0 (pte s root)) (hr : Kfreeable s r)
    (hrow : s₁.page r = row (v + ws.length)) (hperm : perm (v + ws.length) < 1024)
    (he : Edits s₁ s' root new' 0 (update (pte s₁ root) (v + ws.length) (some (leaf r (perm (v + ws.length)))))) :
    Grown s₀ s' root v row perm (new + new') (ws ++ [leaf r (perm (v + ws.length))]) := by
  have hps := hg.moves.pool hp
  have hpa : pte2pa (leaf r (perm (v + ws.length))) = r := pte2pa_leaf hr.1 (kfreeable_small hr) hperm
  have hm := hk.trans he.moves
  rw [zero_add, add_zero] at hm
  refine ⟨?_, fun i w hw => ?_⟩
  · have hall := hg.moves.trans hm
    have htaken : (ws.map pte2pa : Multiset Nat) + {r} =
        ((ws ++ [leaf r (perm (v + ws.length))]).map pte2pa : List Nat) := by
      rw [List.map_append, List.map_singleton, hpa, ← Multiset.coe_add, Multiset.coe_singleton]
    rw [htaken] at hall
    refine hall.congr fun vpn hvpn => ?_
    rw [placed_concat]
    by_cases hv : vpn = v + ws.length
    · rw [hv, update_self, update_self]
    · rw [update_of_ne hv, update_of_ne hv, hk.pte vpn hvpn, hg.moves.pte vpn hvpn]
  · by_cases hi : i < ws.length
    · rw [List.getElem?_append_left hi] at hw
      have hmem : pte2pa w ∈ (ws.map pte2pa : Multiset Nat) := List.mem_map_of_mem (List.mem_of_getElem? hw)
      have hout := hg.moves.taken_notMem hp hmem
      rw [hm.frame _ hout.1 hout.2 (Multiset.notMem_zero _)]
      exact hg.words i w hw
    · obtain rfl : i = ws.length := by
        have hlt := (List.getElem?_eq_some_iff.mp hw).1
        rw [List.length_append, List.length_singleton] at hlt
        omega
      rw [List.getElem?_concat_length] at hw
      cases hw
      have hout := hk.taken_notMem hps (Multiset.mem_singleton_self r)
      rw [hpa, he.moves.frame r hout.1 hout.2 (Multiset.notMem_zero _)]
      exact ⟨rfl, hrow⟩

theorem Grown.giveBack {r : Nat} {s₁ : Mem} (hk : Moves s s₁ root 0 {r} 0 (pte s root))
    (he : Edits s₁ s' root new' 0 (pte s₁ root)) (junk : Fin 512 → Nat) :
    Grown s₀ ⟨update s'.page r junk, r :: s'.freelist, s'.deny, s'.kend⟩ root v row perm
      (new + new') ws := by
  have hps := hg.moves.pool hp
  have hm := hk.trans he.moves
  have hout := hm.taken_notMem hps (Multiset.mem_singleton_self r)
  have hall := hm.trans (edits_kfree hout.1 junk).moves
  rw [zero_add, add_zero] at hall
  refine hg.more hp ((hall.cancel fun q hq => hm.mem_free (.inr (.inl hq))).congr fun vpn hvpn => ?_)
  rw [he.pte vpn hvpn, hk.pte vpn hvpn]

/-- One more page is mapped, or there is no page for the tables and `kfree` brings everything back. -/
theorem Grown.wp_mappages {r : Nat} {rest : List Nat} (ht : Table s₀ root) (hfree : s.freelist = r :: rest)
    (hmax : v + ws.length < 2 ^ 26) (hperm : perm (v + ws.length) < 1024)
    (hnone : pte s₀ root (v + ws.length) = none) :
    wp (mappages root ((v + ws.length) * PGSIZE) PGSIZE r (perm (v + ws.length))) (fun x s' =>
      (x = 0 ∧ ∃ new w, Grown s₀ s' root v row perm new (ws ++ [w])) ∨
      (x = -1 ∧ Kfreeable s' r ∧ ∃ new, Grown s₀
        ⟨update s'.page r fun _ => 1 * 0x0101010101010101, r :: s'.freelist, s'.deny, s'.kend⟩ root v row
        perm new ws)) E (took s r (row (v + ws.length)) rest) := by
  have hps := hg.moves.pool hp
  have hr : r ∈ s.freelist := hfree ▸ List.mem_cons_self
  have hkr := hps.kfreeable r hr
  have hk : Moves s (took s r (row (v + ws.length)) rest) root 0 {r} 0 (pte s root) :=
    moves_kalloc hfree (hps.fresh r hr) _ _
  have hpa : r + PGSIZE ≤ 2 ^ 56 := by
    have hlt : r < 0x88000000 := hkr.2.2
    show r + 4096 ≤ 2 ^ 56
    omega
  have hnone : pte (took s r (row (v + ws.length)) rest) root (v + ws.length) = none := by
    rw [hk.pte _ (by omega), hg.moves.pte _ (by omega), placed, if_neg (by omega), hnone]
  refine (wp_mappages_one (hk.table hps (hg.moves.table hp ht)) (hk.pool hps).avail rfl hmax hpa hnone).mono ?_
  rintro x s' ⟨new', ⟨rfl, he⟩ | ⟨rfl, he⟩⟩
  · exact .inl ⟨rfl, _, _, hg.concat hp hk hkr (update_self _ _ _) hperm he⟩
  · refine .inr ⟨rfl, ?_, _, hg.giveBack hp hk he _⟩
    rw [Kfreeable, he.kend]
    exact hkr

theorem Grown.unmappable
    (hperm : ∀ i < ws.length, perm (v + i) < 1024 ∧ perm (v + i) ||| PTE_V ≠ PTE_V) (hmax : v + ws.length ≤ 2 ^ 26)
    {vpn : Nat} (h1 : v ≤ vpn) (h2 : vpn < v + ws.length) : ∃ w, Unmappable s root true vpn w := by
  obtain ⟨i, rfl⟩ := Nat.exists_eq_add_of_le h1
  have hi : i < ws.length := by omega
  have hw : ws[i]? = some ws[i] := List.getElem?_eq_getElem hi
  have hmem : pte2pa ws[i] ∈ (ws.map pte2pa : Multiset Nat) := List.mem_map_of_mem (List.getElem_mem hi)
  refine ⟨ws[i], ⟨?_, ?_, fun _ => ⟨?_, (hg.moves.taken_notMem hp hmem).1⟩⟩⟩
  · rw [hg.moves.pte _ (by omega), placed_self hi, hw]
  · rw [(hg.words i _ hw).1, pteFlags_leaf (hperm i hi).1]
    exact (hperm i hi).2
  · rw [Kfreeable, hg.moves.kend]
    exact hp.kfreeable _ (hg.moves.mem_free (.inr (.inl hmem)))

end

/-! ## `uvmdealloc` -/

def npages (sz : Nat) : Nat := pgroundup sz / PGSIZE

theorem pgroundup_eq (sz : Nat) : pgroundup sz = npages sz * PGSIZE := by
  rw [npages, pgroundup, Nat.mul_div_cancel _ (by decide : 0 < PGSIZE)]

theorem npages_eq {sz : Nat} (h : sz ≤ MAXVA) : npages sz = (sz + 4095) / 4096 := by
  have h : sz ≤ 274877906944 := h
  show (sz + (4096 - 1)) % 18446744073709551616 / 4096 * 4096 / 4096 = (sz + 4095) / 4096
  omega

theorem signExtend_of_lt {n : Nat} (h : n < 2 ^ 31) : signExtend n = n := by
  rw [signExtend, if_pos (by omega)]
  omega

theorem unmapped_zero (m : Nat → Option Nat) (v : Nat) : unmapped m v 0 = m := by
  funext vpn
  exact if_neg fun h => absurd h.2 (not_lt.mpr h.1)

/-- `uvmdealloc` unmaps and frees the pages above the new size. -/
theorem wp_uvmdealloc {oldsz newsz : Nat} (ht : Table s root) (hmax : oldsz ≤ MAXVA) (hle : newsz ≤ oldsz)
    (hm : ∀ vpn, npages newsz ≤ vpn → vpn < npages oldsz → ∃ w, Unmappable s root true vpn w) :
    wp (uvmdealloc root oldsz newsz) (fun r s' => r = newsz ∧
      Edits s s' root 0 (behind (pte s root) (npages newsz) (npages oldsz - npages newsz))
        (unmapped (pte s root) (npages newsz) (npages oldsz - npages newsz))) E s := by
  have hnone : npages oldsz ≤ npages newsz → Edits s s root 0
      (behind (pte s root) (npages newsz) (npages oldsz - npages newsz))
      (unmapped (pte s root) (npages newsz) (npages oldsz - npages newsz)) := by
    intro h
    rw [Nat.sub_eq_zero_of_le h, unmapped_zero]
    exact .refl s root
  have hle' : npages oldsz ≤ 67108864 := by
    rw [npages_eq hmax]
    have hmax : oldsz ≤ 274877906944 := hmax
    omega
  refine wp_ite.mpr ⟨fun h => ?_, fun h => ?_⟩
  · obtain rfl := Nat.le_antisymm h hle
    exact ⟨rfl, hnone le_rfl⟩
  · have hiff : pgroundup newsz < pgroundup oldsz ↔ npages newsz < npages oldsz := by
      rw [pgroundup_eq, pgroundup_eq]
      exact Nat.mul_lt_mul_right (by decide)
    refine wp_ite.mpr ⟨fun hlt => ?_, fun hlt => ⟨rfl, hnone (not_lt.mp (mt hiff.mpr hlt))⟩⟩
    have hcount : (pgroundup oldsz - pgroundup newsz) / PGSIZE = npages oldsz - npages newsz := by
      rw [pgroundup_eq, pgroundup_eq, ← Nat.sub_mul, Nat.mul_div_cancel _ (by decide : 0 < PGSIZE)]
    rw [hcount, signExtend_of_lt (by omega), pgroundup_eq newsz]
    have hdiv : npages newsz * PGSIZE / PGSIZE = npages newsz := Nat.mul_div_cancel _ (by decide)
    refine wp_bind.mpr ((wp_uvmunmap ht (Nat.mul_mod_left _ _) ?_ ?_).mono ?_)
    · show npages newsz * 4096 + (npages oldsz - npages newsz) * 4096 ≤ 274877906944
      omega
    · intro vpn h1 h2
      rw [hdiv] at h1 h2
      exact hm vpn h1 (by omega)
    · intro _ s' he
      rw [hdiv] at he
      exact ⟨rfl, he⟩

/-! ## `uvmalloc` -/

theorem npages_mul {n : Nat} (h : n ≤ 2 ^ 26) : npages (n * PGSIZE) = n := by
  rw [npages_eq]
  · show (n * 4096 + 4095) / 4096 = n
    omega
  · show n * 4096 ≤ 274877906944
    omega

theorem Grown.length_le (hg : Grown s₀ s root v row perm new ws) :
    ws.length + s.freelist.length ≤ s₀.freelist.length := by
  have hcard := congrArg Multiset.card hg.moves.free
  simp only [Multiset.card_add, Multiset.coe_card, Multiset.card_zero, List.length_map] at hcard
  omega

theorem Grown.deny (hg : Grown s₀ s root v row perm new ws) (deny : List Bool) :
    Grown s₀ ⟨s.page, s.freelist, deny, s.kend⟩ root v row perm new ws where
  moves := { hg.moves with }
  words := hg.words

section

variable (hg : Grown s₀ s root v row perm new ws) (ht : Table s₀ root) (hp : Pool s₀ (tables s₀ root))
  (hperm : ∀ i < ws.length, perm (v + i) < 1024 ∧ perm (v + i) ||| PTE_V ≠ PTE_V) (hmax : v + ws.length ≤ 2 ^ 26)
  (hnone : ∀ vpn, v ≤ vpn → vpn < v + ws.length → pte s₀ root vpn = none)
include hg ht hp hperm hmax hnone

theorem Grown.wp_uvmunmap : wp (uvmunmap root (v * PGSIZE) ws.length true) (fun _ s' =>
    ∃ new, Moves s₀ s' root new 0 0 (pte s₀ root)) E s := by
  have hdiv : v * PGSIZE / PGSIZE = v := Nat.mul_div_cancel _ (by decide)
  refine (Vm.wp_uvmunmap (hg.moves.table hp ht) (Nat.mul_mod_left _ _) ?_ ?_).mono fun _ s' he => ?_
  · show v * 4096 + ws.length * 4096 ≤ 274877906944
    omega
  · intro vpn h1 h2
    rw [hdiv] at h1 h2
    exact hg.unmappable hp hperm hmax h1 h2
  · rw [hdiv] at he
    exact ⟨new, hg.undo hmax hnone he⟩

theorem Grown.wp_uvmdealloc :
    wp (uvmdealloc root ((v + ws.length) * PGSIZE) (v * PGSIZE)) (fun _ s' =>
      ∃ new, Moves s₀ s' root new 0 0 (pte s₀ root)) E s := by
  have hold : npages ((v + ws.length) * PGSIZE) = v + ws.length := npages_mul hmax
  have hnew : npages (v * PGSIZE) = v := npages_mul (by omega)
  refine (Vm.wp_uvmdealloc (hg.moves.table hp ht) ?_ (Nat.mul_le_mul_right _ (Nat.le_add_right _ _)) ?_).mono ?_
  · show (v + ws.length) * 4096 ≤ 274877906944
    omega
  · intro vpn h1 h2
    rw [hnew] at h1
    rw [hold] at h2
    exact hg.unmappable hp hperm hmax h1 h2
  · rintro r s' ⟨-, he⟩
    rw [hold, hnew, Nat.add_sub_cancel_left] at he
    exact ⟨new, hg.undo hmax hnone he⟩

end

/-- `uvmalloc` has grown the memory to `newsz` bytes, or it has only added tables. -/
inductive Allocated (s₀ s : Mem) (root v newsz perm : Nat) : Nat → Prop
  | done {new : Multiset Nat} {ws : List Nat} (grown : Grown s₀ s root v (fun _ _ => 0) (fun _ => perm) new ws)
      (enough : newsz ≤ (v + ws.length) * PGSIZE) (needed : ws.length ≠ 0 → (v + ws.length) * PGSIZE < newsz + PGSIZE) :
      Allocated s₀ s root v newsz perm newsz
  | failed {new : Multiset Nat} (moves : Moves s₀ s root new 0 0 (pte s₀ root)) :
      Allocated s₀ s root v newsz perm 0

theorem readable_ne (xperm : Nat) : PTE_R ||| PTE_U ||| xperm ||| PTE_V ≠ PTE_V := by
  intro h
  have hbit := congrArg (Nat.testBit · 1) h
  rw [Nat.testBit_or, Nat.testBit_or, Nat.testBit_or, Bool.or_assoc] at hbit
  exact absurd hbit nofun

theorem wp_uvmallocLoop {fuel newsz xperm : Nat} (ht : Table s₀ root) (hp : Pool s₀ (tables s₀ root))
    (hperm : PTE_R ||| PTE_U ||| xperm < 1024) (hmax : v + s₀.freelist.length ≤ 2 ^ 26)
    (hnone : ∀ vpn, v ≤ vpn → vpn < v + s₀.freelist.length → pte s₀ root vpn = none)
    (hg : Grown s₀ s root v (fun _ _ => 0) (fun _ => PTE_R ||| PTE_U ||| xperm) new ws)
    (hneeded : ws.length ≠ 0 → (v + ws.length) * PGSIZE < newsz + PGSIZE)
    (hfuel : newsz ≤ (v + ws.length + fuel) * PGSIZE) :
    wp (uvmallocLoop root (v * PGSIZE) newsz xperm fuel ((v + ws.length) * PGSIZE))
      (fun r s' => Allocated s₀ s' root v newsz (PTE_R ||| PTE_U ||| xperm) r) E s := by
  have hleaf : PTE_R ||| PTE_U ||| xperm < 1024 ∧ PTE_R ||| PTE_U ||| xperm ||| PTE_V ≠ PTE_V :=
    ⟨hperm, readable_ne xperm⟩
  induction fuel generalizing s new ws with
  | zero => exact .done hg hfuel hneeded
  | succ fuel ih =>
    refine wp_ite.mpr ⟨fun hlt => wp_bind.mpr (wp_kalloc ?_ fun r rest hfree => ?_), fun hge => ?_⟩
    · have hlen := hg.length_le
      exact wp_bind.mpr (((hg.deny _).wp_uvmdealloc ht hp (fun _ _ => hleaf) (by omega)
        fun vpn h1 h2 => hnone vpn h1 (by omega)).mono fun _ s' ⟨new, h⟩ => .failed h)
    · have hlen := hg.length_le
      rw [hfree, List.length_cons] at hlen
      have htook : (⟨update (update s.page r fun _ => 5 * 0x0101010101010101) r
          fun _ => 0 * 0x0101010101010101, rest, s.deny.tail, s.kend⟩ : Mem) = took s r (fun _ => 0) rest := by
        rw [update_idem]
        rfl
      refine wp_bind.mpr (wp_memset.mpr ?_)
      rw [htook]
      refine wp_bind.mpr ((hg.wp_mappages hp ht hfree (by omega) hperm (hnone _ (by omega) (by omega))).mono ?_)
      rintro x s' (⟨rfl, new', w, hg'⟩ | ⟨rfl, hfreeable, new', hg'⟩)
      · have hnext : ((v + ws.length) * PGSIZE + PGSIZE) % 2 ^ 64 = (v + (ws ++ [w]).length) * PGSIZE := by
          rw [List.length_append, ← Nat.add_assoc]
          exact next_page (by omega)
        rw [hnext]
        refine ih hg' (fun _ => ?_) ?_
        · rw [← hnext, next_page (by omega), Nat.succ_mul]
          exact Nat.add_lt_add_right hlt _
        · rw [List.length_append]
          exact hfuel.trans_eq (congrArg (· * PGSIZE) (by ac_rfl))
      · rw [if_pos (by decide)]
        refine wp_bind.mpr (wp_kfree hfreeable ?_)
        exact wp_bind.mpr ((hg'.wp_uvmdealloc ht hp (fun _ _ => hleaf) (by omega)
          fun vpn h1 h2 => hnone vpn h1 (by omega)).mono fun _ s' ⟨new, h⟩ => .failed h)
    · exact .done hg (not_lt.mp hge) hneeded

theorem wp_uvmalloc {oldsz newsz xperm : Nat} (ht : Table s root) (hp : Pool s (tables s root))
    (hperm : PTE_R ||| PTE_U ||| xperm < 1024) (hle : oldsz ≤ newsz)
    (hmax : npages oldsz + s.freelist.length ≤ 2 ^ 26)
    (hnone : ∀ vpn, npages oldsz ≤ vpn → vpn < npages oldsz + s.freelist.length → pte s root vpn = none) :
    wp (uvmalloc root oldsz newsz xperm)
      (fun r s' => Allocated s s' root (npages oldsz) newsz (PTE_R ||| PTE_U ||| xperm) r) E s := by
  unfold uvmalloc
  rw [if_neg (not_lt.mpr hle), pgroundup_eq]
  have hfuel : newsz ≤ (npages oldsz + ([] : List Nat).length + newsz) * PGSIZE :=
    Nat.le_trans (Nat.le_add_left newsz _) (Nat.le_mul_of_pos_right _ (by decide))
  have hloop := wp_uvmallocLoop (E := E) ht hp hperm hmax hnone (.nil s root _ _ _) (fun h => absurd rfl h) hfuel
  exact hloop

end Xv6.Vm
