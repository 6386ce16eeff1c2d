import Xv6.Vm.Bytes
import Xv6.Vm.Refinement

/-!
# Copies between the kernel and user memory

`copyout`, `copyin` and `copyinstr`. Each also returns the physical addresses of user memory that it
accesses, in order. A copy goes on as long as the pages are there, so what it touches are the translations
of a beginning of the virtual range.
-/

namespace Xv6.Vm

open Wp

/-- `memmove` between the kernel and the physical addresses from `pa` on: the addresses it accesses. -/
def span (pa n : Nat) : List Nat := List.range' pa n

/-- The loop of `copyout`; each round copies at least one byte. -/
def copyoutLoop (pagetable : Nat) : (fuel dstva : Nat) → (src : Nat → UInt8) → (len : Nat) → VmM (Int × List Nat)
  | 0, _, _, _ => return (0, [])
  | fuel + 1, dstva, src, len => do
    if 0 < len then
      let va0 := dstva / PGSIZE * PGSIZE
      if MAXVA ≤ va0 then return (-1, [])
      match ← walk pagetable va0 false with
      | none => return (-1, [])
      | some pte =>
        let w ← load pte
        if w &&& PTE_V = 0 ∨ w &&& PTE_U = 0 ∨ w &&& PTE_W = 0 then return (-1, [])
        let n := min (PGSIZE - (dstva - va0)) len
        modify fun s => s.write (pte2pa w + (dstva - va0)) src n
        let (r, l) ← copyoutLoop pagetable fuel ((va0 + PGSIZE) % 2 ^ 64) (fun j => src (n + j)) (len - n)
        return (r, span (pte2pa w + (dstva - va0)) n ++ l)
    else return (0, [])

/-- Copy from kernel to user. -/
def copyout (pagetable dstva : Nat) (src : Nat → UInt8) (len : Nat) : VmM (Int × List Nat) :=
  copyoutLoop pagetable len dstva src len

/-- The loop of `copyin`; it also returns what it has copied to `dst`. -/
def copyinLoop (pagetable : Nat) : (fuel srcva len : Nat) → VmM (Int × List UInt8 × List Nat)
  | 0, _, _ => return (0, [], [])
  | fuel + 1, srcva, len => do
    if 0 < len then
      let va0 := srcva / PGSIZE * PGSIZE
      match ← walkaddr pagetable va0 with
      | none => return (-1, [], [])
      | some pa0 =>
        let n := min (PGSIZE - (srcva - va0)) len
        let bytes := (span (pa0 + (srcva - va0)) n).map (← get).byte
        let (r, dst, l) ← copyinLoop pagetable fuel ((va0 + PGSIZE) % 2 ^ 64) (len - n)
        return (r, bytes ++ dst, span (pa0 + (srcva - va0)) n ++ l)
    else return (0, [], [])

/-- Copy from user to kernel. -/
def copyin (pagetable srcva len : Nat) : VmM (Int × List UInt8 × List Nat) := copyinLoop pagetable len srcva len

/-- The inner loop of `copyinstr`: the bytes that it reads and copies, the last of which is 0 if `got_null`
is set. -/
def scan (s : Mem) : (p n : Nat) → List UInt8 × Bool
  | _, 0 => ([], false)
  | p, n + 1 =>
    if s.byte p = 0 then ([0], true)
    else
      let (l, got_null) := scan s (p + 1) n
      (s.byte p :: l, got_null)

def copyinstrLoop (pagetable : Nat) : (fuel srcva max : Nat) → VmM (Int × List UInt8 × List Nat)
  | 0, _, _ => return (-1, [], [])
  | fuel + 1, srcva, max => do
    if 0 < max then
      let va0 := srcva / PGSIZE * PGSIZE
      match ← walkaddr pagetable va0 with
      | none => return (-1, [], [])
      | some pa0 =>
        let n := min (PGSIZE - (srcva - va0)) max
        let (bytes, got_null) := scan (← get) (pa0 + (srcva - va0)) n
        if got_null then return (0, bytes, span (pa0 + (srcva - va0)) bytes.length)
        let (r, dst, l) ← copyinstrLoop pagetable fuel ((va0 + PGSIZE) % 2 ^ 64) (max - n)
        return (r, bytes ++ dst, span (pa0 + (srcva - va0)) bytes.length ++ l)
    else return (-1, [], [])

/-- Copy a null-terminated string from user to kernel. -/
def copyinstr (pagetable srcva max : Nat) : VmM (Int × List UInt8 × List Nat) :=
  copyinstrLoop pagetable max srcva max

/-! ## What a copy touches -/

/-- The pages of the user are distinct pages of memory, and none of them is a page of the table. -/
structure UserPages (s : Mem) (pagetable : Nat) : Prop where
  notTable : ∀ vpn < 2 ^ 26, ∀ w, pte s pagetable vpn = some w → w &&& PTE_U ≠ 0 → pte2pa w ∉ tables s pagetable
  inj : ∀ vpn < 2 ^ 26, ∀ vpn' < 2 ^ 26, ∀ w w', pte s pagetable vpn = some w → pte s pagetable vpn' = some w' →
    w &&& PTE_U ≠ 0 → w' &&& PTE_U ≠ 0 → pte2pa w = pte2pa w' → vpn = vpn'

/-- No page of the user is at the physical address 0, which `walkaddr` returns for a page that is not mapped. -/
def NonNull (s : Mem) (pagetable : Nat) : Prop :=
  ∀ vpn < 2 ^ 26, ∀ w, pte s pagetable vpn = some w → w &&& PTE_U ≠ 0 → pte2pa w ≠ 0

variable {s t : Mem} {root va o n len : Nat} {wr : Bool} {E : Panic → Prop}

/-- How many bytes the round at `va` copies if `len` are left. -/
abbrev roundLen (va len : Nat) : Nat := min (PGSIZE - (va - va / PGSIZE * PGSIZE)) len

/-- The address of the byte `va` in the page of the entry `w`. -/
abbrev physAt (w va : Nat) : Nat := pte2pa w + (va - va / PGSIZE * PGSIZE)

theorem vpn_lt (h : va < MAXVA) : va / PGSIZE < 2 ^ 26 := by
  have h : va < 274877906944 := h
  show va / 4096 < 2 ^ 26
  omega

theorem UserPages.congr (h : UserPages s root) (hsame : ∀ q ∈ tables s root, t.page q = s.page q) :
    UserPages t root := by
  obtain ⟨h1, h2⟩ := h
  constructor
  · simpa only [pte_congr hsame, tables_congr hsame] using h1
  · simpa only [pte_congr hsame] using h2

theorem allowed_iff_of_page (hpage : va / PGSIZE = o / PGSIZE) (hva : va < MAXVA) (ho : o < MAXVA) :
    Allowed s root wr va ↔ Allowed s root wr o := by
  rw [Allowed, Allowed, hpage, and_congr_left_iff]
  exact fun _ => iff_of_true hva ho

theorem not_allowed_of_slot (hx : Radix.slot child s.page (key (va / PGSIZE)) 2 root = none) :
    ¬ Allowed s root wr va := by
  rintro ⟨-, w, hw, -⟩
  obtain ⟨-, x, hx', -⟩ := pte_some hw
  cases hx.symm.trans hx'

theorem allowed_iff_of_slot {x : Nat × Fin 512} (hx : Radix.slot child s.page (key (va / PGSIZE)) 2 root = some x)
    (hva : va < MAXVA) : Allowed s root wr va ↔ s.page x.1 x.2 &&& PTE_V ≠ 0 ∧ s.page x.1 x.2 &&& PTE_U ≠ 0 ∧
      (wr = true → s.page x.1 x.2 &&& PTE_W ≠ 0) := by
  rw [Allowed, pte_of_slot hx]
  constructor
  · rintro ⟨-, w, hw, hu⟩
    split at hw
    · next hv =>
      cases hw
      exact ⟨hv, hu⟩
    · cases hw
  · rintro ⟨hv, hu⟩
    exact ⟨hva, _, if_pos hv, hu⟩

theorem UserPages.trans_inj (h : UserPages s root) {x y : Nat} {wr' : Bool} (hx : Allowed s root wr x)
    (hy : Allowed s root wr' y) (heq : trans s root x = trans s root y) : x = y := by
  obtain ⟨hxm, w, hw, hwu, -⟩ := hx
  obtain ⟨hym, w', hw', hwu', -⟩ := hy
  have hpage := congrArg pageOf heq
  rw [pageOf_trans, pageOf_trans, hw, hw'] at hpage
  have hvpn := h.inj _ (vpn_lt hxm) _ (vpn_lt hym) w w' hw hw' hwu hwu' hpage
  rw [trans, trans, hw, hw'] at heq
  have hpa : pte2pa w = pte2pa w' := hpage
  have hmod : pte2pa w + x % 4096 = pte2pa w' + y % 4096 := heq
  have hdiv : x / 4096 = y / 4096 := hvpn
  omega

theorem UserPages.page_notMem (h : UserPages s root) (hva : Allowed s root wr va) :
    pageOf (trans s root va) ∉ tables s root := by
  obtain ⟨hm, w, hw, hu, -⟩ := hva
  rw [pageOf_trans, hw]
  exact h.notTable _ (vpn_lt hm) w hw hu

theorem sub_pageStart : va - va / PGSIZE * PGSIZE = va % PGSIZE := by
  show va - va / 4096 * 4096 = va % 4096
  omega

theorem round_pos (hlen : 0 < len) : 0 < roundLen va len := by
  have hlt : va - va / PGSIZE * PGSIZE < PGSIZE := sub_pageStart ▸ Nat.mod_lt _ (by decide)
  exact lt_min (Nat.sub_pos_of_lt hlt) hlen

theorem round_page {j : Nat} (hj : j < roundLen va len) :
    (va + j) / PGSIZE = va / PGSIZE ∧ (va + j) % PGSIZE = va % PGSIZE + j := by
  have hj : j < min (4096 - (va - va / 4096 * 4096)) len := hj
  constructor
  · show (va + j) / 4096 = va / 4096
    omega
  · show (va + j) % 4096 = va % 4096 + j
    omega

theorem trans_round {j w : Nat} (hj : j < roundLen va len)
    (hw : pte s root (va / PGSIZE) = some w) :
    trans s root (va + j) = physAt w va + j := by
  obtain ⟨h1, h2⟩ := round_page hj
  rw [trans, h1, h2, hw, physAt, sub_pageStart, Nat.add_assoc]
  rfl

theorem span_round {w : Nat} (hw : pte s root (va / PGSIZE) = some w)
    (hn : n ≤ roundLen va len) :
    span (physAt w va) n = (List.range n).map fun j => trans s root (va + j) := by
  rw [span, List.range'_eq_map_range]
  refine List.map_congr_left fun j hj => ?_
  rw [trans_round ((List.mem_range.mp hj).trans_le hn) hw]

theorem next_round (hva : va / PGSIZE * PGSIZE < MAXVA)
    (hlen : len ≠ roundLen va len) :
    (va / PGSIZE * PGSIZE + PGSIZE) % 2 ^ 64 = va + roundLen va len := by
  have hva : va / 4096 * 4096 < 274877906944 := hva
  have hlen : len ≠ min (4096 - (va - va / 4096 * 4096)) len := hlen
  show (va / 4096 * 4096 + 4096) % 18446744073709551616 = va + min (4096 - (va - va / 4096 * 4096)) len
  omega

theorem pageStart_lt : va / PGSIZE * PGSIZE < MAXVA ↔ va < MAXVA := by
  show va / 4096 * 4096 < 274877906944 ↔ va < 274877906944
  omega

theorem pageStart_div : va / PGSIZE * PGSIZE / PGSIZE = va / PGSIZE := Nat.mul_div_cancel _ (by decide)

theorem range_map_append {α : Type*} (f : Nat → α) (n k : Nat) :
    (List.range n).map f ++ (List.range k).map (fun j => f (n + j)) = (List.range (n + k)).map f := by
  rw [List.range_add, List.map_append, List.map_map]
  rfl

theorem forall_lt_add {n k : Nat} {P : Nat → Prop} (h1 : ∀ j < n, P j) (h2 : ∀ j < k, P (n + j)) : ∀ j < n + k, P j := by
  intro j hj
  by_cases hjn : j < n
  · exact h1 j hjn
  · have hj' := h2 (j - n) (by omega)
    rwa [Nat.add_sub_cancel' (by omega)] at hj'

/-! ## `copyout` -/

/-- `copyout` has copied the first `k` bytes and returns `r`; `l` are the addresses that it accessed. -/
structure CopiedOut (s t : Mem) (root dstva : Nat) (src : Nat → UInt8) (len k : Nat) (r : Int) (l : List Nat) :
    Prop where
  allowed : ∀ j < k, Allowed s root true (dstva + j)
  result : r = 0 ∧ k = len ∨ r = -1 ∧ k < len ∧ ¬ Allowed s root true (dstva + k)
  trace : l = (List.range k).map fun j => trans s root (dstva + j)
  bytes : ∀ j < k, t.byte (trans s root (dstva + j)) = src j
  frame : ∀ x, (∀ j < k, trans s root (dstva + j) ≠ x) → t.byte x = s.byte x
  pages : ∀ q, (∀ j < k, pageOf (trans s root (dstva + j)) ≠ q) → t.page q = s.page q
  freelist : t.freelist = s.freelist
  deny : t.deny = s.deny
  kend : t.kend = s.kend

variable {dstva k : Nat} {src : Nat → UInt8} {r : Int} {l : List Nat}

theorem CopiedOut.zero (h : r = 0 ∧ 0 = len ∨ r = -1 ∧ 0 < len ∧ ¬ Allowed s root true dstva) :
    CopiedOut s s root dstva src len 0 r [] :=
  ⟨fun _ hj => absurd hj (Nat.not_lt_zero _), h, rfl, fun _ hj => absurd hj (Nat.not_lt_zero _), fun _ _ => rfl,
    fun _ _ => rfl, rfl, rfl, rfl⟩

theorem CopiedOut.tables (h : CopiedOut s t root dstva src len k r l) (hu : UserPages s root) :
    ∀ q ∈ Vm.tables s root, t.page q = s.page q := fun q hq =>
  h.pages q fun j hj heq => hu.page_notMem (h.allowed j hj) (heq ▸ hq)

theorem write_tables {pa : Nat} (hu : UserPages s root) (hall : ∀ j < n, Allowed s root true (dstva + j))
    (htrans : ∀ j < n, trans s root (dstva + j) = pa + j) (src : Nat → UInt8) :
    ∀ q ∈ Vm.tables s root, (s.write pa src n).page q = s.page q := fun q hq =>
  Mem.page_write_of_ne fun j hj heq => hu.page_notMem (hall j hj) (by rw [htrans j hj, ← heq]; exact hq)

/-- A round of `n` bytes in the page with the entry `w`, and the rest of the copy. -/
theorem CopiedOut.round {w : Nat} (hu : UserPages s root) (hw : pte s root (dstva / PGSIZE) = some w)
    (hall : ∀ j < n, Allowed s root true (dstva + j))
    (hn : n = roundLen dstva len)
    (h : CopiedOut (s.write (physAt w dstva) src n) t root (dstva + n) (fun j => src (n + j)) (len - n) k r l) :
    CopiedOut s t root dstva src len (n + k) r (span (physAt w dstva) n ++ l) := by
  have hle : n ≤ len := hn ▸ min_le_right _ _
  have hspan := span_round hw (le_of_eq hn)
  have htrans : ∀ j < n, trans s root (dstva + j) = physAt w dstva + j :=
    fun j hj => trans_round (hn ▸ hj) hw
  set pa := physAt w dstva with hpa
  have hsame := write_tables hu hall htrans src
  obtain ⟨hallowed, hresult, htrace, hbytes, hframe, hpages, hfl, hdeny, hkend⟩ := h
  simp only [allowed_congr hsame, trans_congr hsame, Nat.add_assoc] at hallowed hresult htrace hbytes hframe hpages
  refine ⟨forall_lt_add hall hallowed, ?_, ?_, ?_, fun x hx => ?_, fun q hq => ?_, ?_, ?_, ?_⟩
  · rcases hresult with ⟨hr, hk⟩ | ⟨hr, hk, hbad⟩
    · exact .inl ⟨hr, by omega⟩
    · exact .inr ⟨hr, by omega, hbad⟩
  · rw [htrace, hspan, ← range_map_append (fun j => trans s root (dstva + j))]
  · refine forall_lt_add (fun j hj => ?_) hbytes
    rw [hframe _ fun i hi heq => ?_, Mem.byte_write, htrans j hj, if_pos (by omega), Nat.add_sub_cancel_left]
    have hij := hu.trans_inj (hallowed i hi) (hall j hj) heq
    omega
  · rw [hframe x fun j hj => hx (n + j) (by omega), Mem.byte_write, if_neg]
    rintro ⟨h1, h2⟩
    refine hx (x - pa) (by omega) ?_
    rw [htrans _ (by omega)]
    omega
  · rw [hpages q fun j hj => hq (n + j) (by omega), Mem.page_write_of_ne fun j hj heq => ?_]
    refine hq j (by omega) ?_
    rw [htrans j hj, heq]
  · rw [hfl, Mem.freelist_write]
  · rw [hdeny, Mem.deny_write]
  · rw [hkend, Mem.kend_write]

theorem copyoutLoop_zero (fuel : Nat) : copyoutLoop root fuel dstva src 0 = pure (0, []) := by
  cases fuel <;> rfl

theorem allowed_round (h : Allowed s root wr va) :
    ∀ j < roundLen va len, Allowed s root wr (va + j) := by
  intro j hj
  have hpage := (round_page hj).1
  refine (allowed_iff_of_page hpage ?_ h.1).mpr h
  rw [← pageStart_lt, hpage, pageStart_lt]
  exact h.1

/-- The rounds after the first. -/
theorem wp_rest {α : Type} {fuel : Nat} {loop : Nat → Nat → VmM α} {R : Nat → Nat → α → Mem → Prop} (hva : va < MAXVA)
    (hlen : 0 < len) (hfuel : len ≤ fuel + 1) (ih : ∀ va len, len ≤ fuel → wp (loop va len) (R va len) E s)
    (hzero : ∀ a b, wp (loop a 0) (R b 0) E s) :
    wp (loop ((va / PGSIZE * PGSIZE + PGSIZE) % 2 ^ 64) (len - roundLen va len))
      (R (va + roundLen va len) (len - roundLen va len)) E s := by
  have hpos : 0 < roundLen va len := round_pos hlen
  by_cases hlast : len = roundLen va len
  · rw [← hlast, Nat.sub_self]
    exact hzero _ _
  · rw [next_round (pageStart_lt.mpr hva) hlast]
    exact ih _ _ (by omega)

theorem wp_copyoutLoop_zero (fuel a b : Nat) : wp (copyoutLoop root fuel a src 0)
    (fun x t => ∃ k, CopiedOut s t root b src 0 k x.1 x.2) E s := by
  rw [copyoutLoop_zero]
  exact ⟨0, .zero (.inl ⟨rfl, rfl⟩)⟩

theorem wp_copyoutLoop {fuel : Nat} (hu : UserPages s root) (hfuel : len ≤ fuel) :
    wp (copyoutLoop root fuel dstva src len) (fun x t => ∃ k, CopiedOut s t root dstva src len k x.1 x.2) E s := by
  induction fuel generalizing s dstva src len with
  | zero =>
    obtain rfl := Nat.le_zero.mp hfuel
    exact wp_copyoutLoop_zero 0 _ _
  | succ fuel ih =>
    refine wp_ite.mpr ⟨fun hlen => wp_ite.mpr ⟨fun hmax => ?_, fun hmax => ?_⟩, fun hlen => ?_⟩
    · refine ⟨0, .zero (.inr ⟨rfl, hlen, fun h => hmax.not_gt (pageStart_lt.mpr h.1)⟩)⟩
    · have hva : dstva < MAXVA := pageStart_lt.mp (not_le.mp hmax)
      refine wp_bind.mpr (wp_walk_false (not_le.mp hmax) ?_)
      rw [pageStart_div]
      cases hx : Radix.slot child s.page (key (dstva / PGSIZE)) 2 root with
      | none => exact ⟨0, .zero (.inr ⟨rfl, hlen, not_allowed_of_slot hx⟩)⟩
      | some x =>
        refine wp_bind.mpr (wp_load.mpr (wp_ite.mpr ⟨fun hbad => ?_, fun hok => ?_⟩))
        · refine ⟨0, .zero (.inr ⟨rfl, hlen, fun h => ?_⟩)⟩
          have hflags := (allowed_iff_of_slot hx hva).mp h
          tauto
        · push Not at hok
          have hallowed : Allowed s root true dstva :=
            (allowed_iff_of_slot hx hva).mpr ⟨hok.1, hok.2.1, fun _ => hok.2.2⟩
          have hpte : pte s root (dstva / PGSIZE) = some (s.page x.1 x.2) := by
            rw [pte_of_slot hx, if_pos hok.1]
          have hsame := write_tables hu (allowed_round hallowed)
            (fun j (hj : j < roundLen dstva len) => trans_round hj hpte) src
          exact wp_bind.mpr ((wp_modify _).mpr (wp_bind.mpr ((wp_rest hva hlen hfuel
            (fun _ _ => ih (hu.congr hsame)) (wp_copyoutLoop_zero fuel)).mono
            fun y t ⟨k, h⟩ => ⟨_, h.round hu hpte (allowed_round hallowed) rfl⟩)))
    · obtain rfl : len = 0 := by omega
      exact ⟨0, .zero (.inl ⟨rfl, rfl⟩)⟩

/-! ## `copyin` -/

theorem allowed_pageStart : Allowed s root wr (va / PGSIZE * PGSIZE) ↔ Allowed s root wr va := by
  rw [Allowed, Allowed, pageStart_lt, pageStart_div]

theorem wp_walkaddr {Q : Option Nat → Mem → Prop} (hn : NonNull s root) (hnone : ¬ Allowed s root false va → Q none s)
    (hsome : ∀ w, Allowed s root false va → pte s root (va / PGSIZE) = some w → Q (some (pte2pa w)) s) :
    wp (walkaddr root va) Q E s := by
  refine wp_ite.mpr ⟨fun hmax => hnone fun h => hmax.not_gt h.1, fun hmax => ?_⟩
  have hva : va < MAXVA := not_le.mp hmax
  refine wp_bind.mpr (wp_walk_false hva ?_)
  cases hx : Radix.slot child s.page (key (va / PGSIZE)) 2 root with
  | none => exact hnone (not_allowed_of_slot hx)
  | some x =>
    have hflags : Allowed s root false va ↔ _ := allowed_iff_of_slot hx hva
    refine wp_bind.mpr (wp_load.mpr (wp_ite.mpr ⟨fun hv => hnone fun h => (hflags.mp h).1 hv, fun hv => ?_⟩))
    refine wp_ite.mpr ⟨fun hu => hnone fun h => (hflags.mp h).2.1 hu, fun hu => ?_⟩
    have hpte : pte s root (va / PGSIZE) = some (s.page x.1 x.2) := by
      rw [pte_of_slot hx, if_pos hv]
    refine wp_ite.mpr ⟨fun h0 => absurd h0 (hn _ (vpn_lt hva) _ hpte hu), fun _ => ?_⟩
    exact hsome _ (hflags.mpr ⟨hv, hu, nofun⟩) hpte

/-- `copyin` has copied the first `k` bytes to `dst` and returns `r`; `l` are the addresses that it accessed. -/
structure CopiedIn (s : Mem) (root srcva len k : Nat) (r : Int) (dst : List UInt8) (l : List Nat) : Prop where
  allowed : ∀ j < k, Allowed s root false (srcva + j)
  result : r = 0 ∧ k = len ∨ r = -1 ∧ k < len ∧ ¬ Allowed s root false (srcva + k)
  bytes : dst = l.map s.byte
  trace : l = (List.range k).map fun j => trans s root (srcva + j)

variable {srcva : Nat} {dst : List UInt8}

theorem CopiedIn.zero (h : r = 0 ∧ 0 = len ∨ r = -1 ∧ 0 < len ∧ ¬ Allowed s root false srcva) :
    CopiedIn s root srcva len 0 r [] [] :=
  ⟨fun _ hj => absurd hj (Nat.not_lt_zero _), h, rfl, rfl⟩

theorem CopiedIn.round {w : Nat} (hw : pte s root (srcva / PGSIZE) = some w) (hallowed : Allowed s root false srcva)
    (hn : n = roundLen srcva len) (h : CopiedIn s root (srcva + n) (len - n) k r dst l) :
    CopiedIn s root srcva len (n + k) r ((span (physAt w srcva) n).map s.byte ++ dst)
      (span (physAt w srcva) n ++ l) := by
  have hle : n ≤ len := hn ▸ min_le_right _ _
  have hspan := span_round hw (le_of_eq hn)
  obtain ⟨hall, hresult, hbytes, htrace⟩ := h
  simp only [Nat.add_assoc] at hall hresult htrace
  refine ⟨forall_lt_add (hn ▸ allowed_round hallowed) hall, ?_, ?_, ?_⟩
  · rcases hresult with ⟨hr, hk⟩ | ⟨hr, hk, hbad⟩
    · exact .inl ⟨hr, by omega⟩
    · exact .inr ⟨hr, by omega, hbad⟩
  · rw [hbytes, List.map_append]
  · rw [htrace, hspan, ← range_map_append fun j => trans s root (srcva + j)]

theorem copyinLoop_zero (fuel : Nat) : copyinLoop root fuel srcva 0 = pure (0, [], []) := by
  cases fuel <;> rfl

theorem wp_copyinLoop_zero (fuel a b : Nat) : wp (copyinLoop root fuel a 0)
    (fun x t => t = s ∧ ∃ k, CopiedIn s root b 0 k x.1 x.2.1 x.2.2) E s := by
  rw [copyinLoop_zero]
  exact ⟨rfl, 0, .zero (.inl ⟨rfl, rfl⟩)⟩

theorem wp_copyinLoop {fuel : Nat} (hn : NonNull s root) (hfuel : len ≤ fuel) :
    wp (copyinLoop root fuel srcva len) (fun x t => t = s ∧ ∃ k, CopiedIn s root srcva len k x.1 x.2.1 x.2.2) E s := by
  induction fuel generalizing srcva len with
  | zero =>
    obtain rfl := Nat.le_zero.mp hfuel
    exact wp_copyinLoop_zero 0 _ _
  | succ fuel ih =>
    refine wp_ite.mpr ⟨fun hlen => wp_bind.mpr (wp_walkaddr hn (fun hbad => ?_) fun w hok hw => ?_), fun hlen => ?_⟩
    · exact ⟨rfl, 0, .zero (.inr ⟨rfl, hlen, mt allowed_pageStart.mpr hbad⟩)⟩
    · rw [allowed_pageStart] at hok
      rw [pageStart_div] at hw
      refine wp_bind.mpr (wp_get.mpr (wp_bind.mpr
        ((wp_rest hok.1 hlen hfuel (fun _ _ => ih) (wp_copyinLoop_zero fuel)).mono ?_)))
      rintro y t ⟨rfl, k, h⟩
      exact ⟨rfl, _, h.round hw hok rfl⟩
    · obtain rfl : len = 0 := by omega
      exact ⟨rfl, 0, .zero (.inl ⟨rfl, rfl⟩)⟩

/-! ## `copyinstr` -/

theorem scan_cases (s : Mem) (p n : Nat) :
    (∃ m < n, scan s p n = ((span p (m + 1)).map s.byte, true) ∧ s.byte (p + m) = 0 ∧
      ∀ j < m, s.byte (p + j) ≠ 0) ∨
    scan s p n = ((span p n).map s.byte, false) ∧ ∀ j < n, s.byte (p + j) ≠ 0 := by
  induction n generalizing p with
  | zero => exact .inr ⟨rfl, fun _ hj => absurd hj (Nat.not_lt_zero _)⟩
  | succ n ih =>
    rw [scan]
    by_cases h0 : s.byte p = 0
    · refine .inl ⟨0, Nat.succ_pos n, ?_, h0, fun _ hj => absurd hj (Nat.not_lt_zero _)⟩
      rw [if_pos h0, span, List.range'_one, List.map_singleton, h0]
    · have hnext : ∀ m, (∀ j < m, s.byte (p + 1 + j) ≠ 0) → ∀ j < m + 1, s.byte (p + j) ≠ 0 := by
        intro m hm j hj
        cases j with
        | zero => exact h0
        | succ j =>
          rw [show p + (j + 1) = p + 1 + j by omega]
          exact hm j (by omega)
      rw [if_neg h0]
      rcases ih (p + 1) with ⟨m, hm, heq, hz, hne⟩ | ⟨heq, hne⟩
      · refine .inl ⟨m + 1, Nat.succ_lt_succ hm, ?_, ?_, hnext m hne⟩
        · rw [heq]
          rfl
        · rw [show p + (m + 1) = p + 1 + m by omega]
          exact hz
      · refine .inr ⟨?_, hnext n hne⟩
        rw [heq]
        rfl

/-- `copyinstr` has copied the first `k` bytes to `dst` and returns `r`; `l` are the addresses that it accessed.
Only the last byte can be 0. -/
structure CopiedStr (s : Mem) (root srcva max k : Nat) (r : Int) (dst : List UInt8) (l : List Nat) : Prop where
  allowed : ∀ j < k, Allowed s root false (srcva + j)
  bound : k ≤ max
  result : (r = 0 ∧ ∃ m, k = m + 1 ∧ s.byte (trans s root (srcva + m)) = 0 ∧
      ∀ j < m, s.byte (trans s root (srcva + j)) ≠ 0) ∨
    r = -1 ∧ (∀ j < k, s.byte (trans s root (srcva + j)) ≠ 0) ∧ (k < max → ¬ Allowed s root false (srcva + k))
  bytes : dst = l.map s.byte
  trace : l = (List.range k).map fun j => trans s root (srcva + j)

variable {max m : Nat}

theorem CopiedStr.zero (h : 0 < max → ¬ Allowed s root false srcva) : CopiedStr s root srcva max 0 (-1) [] [] :=
  ⟨fun _ hj => absurd hj (Nat.not_lt_zero _), Nat.zero_le _, .inr ⟨rfl, fun _ hj => absurd hj (Nat.not_lt_zero _), h⟩,
    rfl, rfl⟩

theorem CopiedStr.last {w : Nat} (hw : pte s root (srcva / PGSIZE) = some w) (hallowed : Allowed s root false srcva)
    (hm : m < roundLen srcva max)
    (hz : s.byte (physAt w srcva + m) = 0)
    (hne : ∀ j < m, s.byte (physAt w srcva + j) ≠ 0) :
    CopiedStr s root srcva max (m + 1) 0
      ((span (physAt w srcva) (m + 1)).map s.byte)
      (span (physAt w srcva) (m + 1)) := by
  refine ⟨fun j hj => allowed_round hallowed j (hj.trans_le hm), hm.trans_le (min_le_right _ _),
    .inl ⟨rfl, m, rfl, ?_, fun j hj => ?_⟩, rfl, span_round hw hm⟩
  · rw [trans_round hm hw]
    exact hz
  · rw [trans_round (hj.trans hm) hw]
    exact hne j hj

theorem CopiedStr.round {w : Nat} (hw : pte s root (srcva / PGSIZE) = some w) (hallowed : Allowed s root false srcva)
    (hn : n = roundLen srcva max)
    (hne : ∀ j < n, s.byte (physAt w srcva + j) ≠ 0)
    (h : CopiedStr s root (srcva + n) (max - n) k r dst l) :
    CopiedStr s root srcva max (n + k) r ((span (physAt w srcva) n).map s.byte ++ dst)
      (span (physAt w srcva) n ++ l) := by
  have hle : n ≤ max := hn ▸ min_le_right _ _
  have hspan := span_round hw (le_of_eq hn)
  have hbytes' : ∀ j < n, s.byte (trans s root (srcva + j)) ≠ 0 := by
    intro j hj
    rw [trans_round (hn ▸ hj) hw]
    exact hne j hj
  obtain ⟨hall, hbound, hresult, hbytes, htrace⟩ := h
  simp only [Nat.add_assoc] at hall hresult htrace
  refine ⟨forall_lt_add (hn ▸ allowed_round hallowed) hall, by omega, ?_, ?_, ?_⟩
  · rcases hresult with ⟨hr, m, hk, hz, hpre⟩ | ⟨hr, hpre, hbad⟩
    · exact .inl ⟨hr, n + m, by omega, hz, forall_lt_add hbytes' hpre⟩
    · exact .inr ⟨hr, forall_lt_add hbytes' hpre, fun hk => hbad (by omega)⟩
  · rw [hbytes, List.map_append]
  · rw [htrace, hspan, ← range_map_append fun j => trans s root (srcva + j)]

theorem copyinstrLoop_zero (fuel : Nat) : copyinstrLoop root fuel srcva 0 = pure (-1, [], []) := by
  cases fuel <;> rfl

theorem wp_copyinstrLoop_zero (fuel a b : Nat) : wp (copyinstrLoop root fuel a 0)
    (fun x t => t = s ∧ ∃ k, CopiedStr s root b 0 k x.1 x.2.1 x.2.2) E s := by
  rw [copyinstrLoop_zero]
  exact ⟨rfl, 0, .zero fun h => absurd h (Nat.not_lt_zero _)⟩

theorem wp_copyinstrLoop {fuel : Nat} (hn : NonNull s root) (hfuel : max ≤ fuel) :
    wp (copyinstrLoop root fuel srcva max)
      (fun x t => t = s ∧ ∃ k, CopiedStr s root srcva max k x.1 x.2.1 x.2.2) E s := by
  induction fuel generalizing srcva max with
  | zero =>
    obtain rfl := Nat.le_zero.mp hfuel
    exact wp_copyinstrLoop_zero 0 _ _
  | succ fuel ih =>
    rw [copyinstrLoop]
    refine wp_ite.mpr ⟨fun hmax => wp_bind.mpr (wp_walkaddr hn (fun hbad => ?_) fun w hok hw => ?_), fun hmax => ?_⟩
    · exact ⟨rfl, 0, .zero fun _ => mt allowed_pageStart.mpr hbad⟩
    · rw [allowed_pageStart] at hok
      rw [pageStart_div] at hw
      refine wp_bind.mpr (wp_get.mpr ?_)
      rcases scan_cases s (physAt w srcva)
        (roundLen srcva max) with ⟨m, hm, heq, hz, hne⟩ | ⟨heq, hne⟩
      · simp only [heq, if_true, List.length_map, span, List.length_range']
        exact ⟨rfl, _, .last hw hok hm hz hne⟩
      · simp only [heq, Bool.false_eq_true, if_false, List.length_map, span, List.length_range']
        refine wp_bind.mpr ((wp_rest hok.1 hmax hfuel (fun _ _ => ih) (wp_copyinstrLoop_zero fuel)).mono ?_)
        rintro y t ⟨rfl, k, h⟩
        exact ⟨rfl, _, h.round hw hok rfl hne⟩
    · obtain rfl : max = 0 := by omega
      exact ⟨rfl, 0, .zero fun h => absurd h (Nat.not_lt_zero _)⟩

/-! ## The three copies -/

theorem CopiedOut.result_iff (h : CopiedOut s t root dstva src len k r l) :
    r = 0 ↔ ∀ j < len, Allowed s root true (dstva + j) := by
  rcases h.result with ⟨hr, rfl⟩ | ⟨hr, hk, hbad⟩
  · exact iff_of_true hr h.allowed
  · exact iff_of_false (by omega) fun hall => hbad (hall k hk)

theorem CopiedIn.result_iff (h : CopiedIn s root srcva len k r dst l) :
    r = 0 ↔ ∀ j < len, Allowed s root false (srcva + j) := by
  rcases h.result with ⟨hr, rfl⟩ | ⟨hr, hk, hbad⟩
  · exact iff_of_true hr h.allowed
  · exact iff_of_false (by omega) fun hall => hbad (hall k hk)

theorem CopiedStr.result_iff (h : CopiedStr s root srcva max k r dst l) :
    r = 0 ↔ ∃ m < max, s.byte (trans s root (srcva + m)) = 0 ∧ ∀ j ≤ m, Allowed s root false (srcva + j) := by
  have hbound := h.bound
  rcases h.result with ⟨hr, m, rfl, hz, -⟩ | ⟨hr, hne, hbad⟩
  · exact iff_of_true hr ⟨m, hbound, hz, fun j hj => h.allowed j (Nat.lt_succ_of_le hj)⟩
  · refine iff_of_false (by omega) ?_
    rintro ⟨m, hm, hz, hall⟩
    -- the copy stopped before the 0, at a byte that the user may not read
    have hkm : k ≤ m := not_lt.mp fun hlt => hne m hlt hz
    exact hbad (hkm.trans_lt hm) (hall k hkm)

/-- User copies touch the addressed bytes that are permitted, and no others. They return 0 exactly if every byte
of the range is permitted; otherwise they stop at the first one that is not. -/
theorem copies_touch_permitted (s : Mem) (pagetable : Nat) :
    (UserPages s pagetable → ∀ dstva src len, ∃ r l t k,
      (copyout pagetable dstva src len).run s = .ok ((r, l), t) ∧
      (r = 0 ↔ ∀ j < len, Allowed s pagetable true (dstva + j)) ∧ k ≤ len ∧
      CopiedOut s t pagetable dstva src len k r l) ∧
    (NonNull s pagetable → ∀ srcva len, ∃ r dst l k,
      (copyin pagetable srcva len).run s = .ok ((r, dst, l), s) ∧
      (r = 0 ↔ ∀ j < len, Allowed s pagetable false (srcva + j)) ∧ k ≤ len ∧
      CopiedIn s pagetable srcva len k r dst l) ∧
    (NonNull s pagetable → ∀ srcva max, ∃ r dst l k,
      (copyinstr pagetable srcva max).run s = .ok ((r, dst, l), s) ∧
      (r = 0 ↔ ∃ m < max, s.byte (trans s pagetable (srcva + m)) = 0 ∧
        ∀ j ≤ m, Allowed s pagetable false (srcva + j)) ∧
      CopiedStr s pagetable srcva max k r dst l) := by
  refine ⟨fun hu dstva src len => ?_, fun hn srcva len => ?_, fun hn srcva max => ?_⟩
  · obtain ⟨⟨r, l⟩, t, hrun, k, h⟩ := exists_of_wp (wp_copyoutLoop hu le_rfl)
    refine ⟨r, l, t, k, hrun, h.result_iff, ?_, h⟩
    rcases h.result with ⟨-, hk⟩ | ⟨-, hk, -⟩ <;> omega
  · obtain ⟨⟨r, dst, l⟩, t, hrun, rfl, k, h⟩ := exists_of_wp (wp_copyinLoop hn le_rfl)
    refine ⟨r, dst, l, k, hrun, h.result_iff, ?_, h⟩
    rcases h.result with ⟨-, hk⟩ | ⟨-, hk, -⟩ <;> omega
  · obtain ⟨⟨r, dst, l⟩, t, hrun, rfl, k, h⟩ := exists_of_wp (wp_copyinstrLoop hn le_rfl)
    exact ⟨r, dst, l, k, hrun, h.result_iff, h⟩

theorem exists_onePage : ∃ s, UserPages s 0x1000 ∧ NonNull s 0x1000 ∧
    ∀ va < PGSIZE, ∀ wr, Allowed s 0x1000 wr va ∧ trans s 0x1000 va = 0x4000 + va := by
  have hrun : ((mappages 0x1000 0 PGSIZE 0x4000 (PTE_R ||| PTE_W ||| PTE_U)).run blankMem).map Prod.fst = .ok 0 := by
    decide +kernel
  have hwp : wp (mappages 0x1000 0 PGSIZE 0x4000 (PTE_R ||| PTE_W ||| PTE_U)) _ (fun _ => False) blankMem :=
    wp_mappages blankMem_table blankMem_avail (by decide) (by decide) (by decide) (by decide) (by decide)
      fun vpn _ _ => blankMem_pte vpn
  obtain ⟨r, s, hmap, k, new, hm, hk⟩ := exists_of_wp hwp
  rw [hmap] at hrun
  obtain rfl : r = 0 := Except.ok.inj hrun
  obtain rfl : k = 1 := by
    rcases hk with ⟨-, hk⟩ | ⟨h, -⟩
    · exact hk
    · cases h
  have hzero : pte s 0x1000 0 = some (leaf 0x4000 (PTE_R ||| PTE_W ||| PTE_U)) :=
    (hm.edits.pte 0 (by decide)).trans (if_pos (by decide))
  have honly : ∀ vpn < 2 ^ 26, ∀ w, pte s 0x1000 vpn = some w → vpn = 0 ∧ pte2pa w = 0x4000 := by
    intro vpn hvpn w hw
    by_cases h0 : vpn = 0
    · subst h0
      cases hzero.symm.trans hw
      exact ⟨rfl, by decide⟩
    · rw [hm.edits.pte vpn (by omega)] at hw
      have hnot : ¬ (0 / PGSIZE ≤ vpn ∧ vpn < 0 / PGSIZE + 1) := by
        rw [Nat.zero_div]
        omega
      rw [mapped, if_neg hnot, blankMem_pte] at hw
      cases hw
  have htables : (0x4000 : Nat) ∉ tables s 0x1000 := by
    rw [hm.edits.tables, blankMem_tables, Multiset.mem_add]
    rintro (h | h)
    · exact absurd (Multiset.mem_singleton.mp h) (by decide)
    · have hfree : (0x4000 : Nat) ∈ (blankMem.freelist : Multiset Nat) := by
        rw [← zero_add (blankMem.freelist : Multiset Nat), hm.edits.free]
        exact Multiset.mem_add.mpr (.inl h)
      exact absurd hfree (by decide)
  refine ⟨s, ⟨fun vpn hv w hw _ => ?_, fun vpn hv vpn' hv' w w' hw hw' _ _ _ => ?_⟩, fun vpn hv w hw _ => ?_,
    fun va hva wr => ?_⟩
  · rw [(honly vpn hv w hw).2]
    exact htables
  · rw [(honly vpn hv w hw).1, (honly vpn' hv' w' hw').1]
  · rw [(honly vpn hv w hw).2]
    decide
  · have hpage : va / PGSIZE = 0 := Nat.div_eq_of_lt hva
    rw [Allowed, trans, hpage, hzero, Nat.mod_eq_of_lt hva]
    exact ⟨⟨hva.trans (by decide), _, rfl, by decide, fun _ => by decide⟩, by
      rw [Option.getD_some, pte2pa_leaf (by decide) (by decide) (by decide)]⟩

/-- Two bytes are copied into a page and back. -/
theorem copies_touch_permitted_onePage : ∃ s t l, UserPages s 0x1000 ∧ NonNull s 0x1000 ∧
    (copyout 0x1000 8 (fun j => UInt8.ofNat (j + 65)) 2).run s = .ok ((0, l), t) ∧ l = [0x4008, 0x4009] ∧
    t.byte 0x4009 = 66 ∧ ∃ dst l', (copyin 0x1000 8 2).run t = .ok ((0, dst, l'), t) ∧ dst = [65, 66] := by
  obtain ⟨s, hu, hn, hpage⟩ := exists_onePage
  obtain ⟨r, l, t, k, hrun, hiff, -, h⟩ :=
    (copies_touch_permitted s 0x1000).1 hu 8 (fun j => UInt8.ofNat (j + 65)) 2
  have hallow : ∀ wr, ∀ j < 2, Allowed s 0x1000 wr (8 + j) := fun wr j hj =>
    (hpage (8 + j) (by show 8 + j < 4096; omega) wr).1
  have htrans : ∀ j < 2, trans s 0x1000 (8 + j) = 0x4008 + j := fun j hj =>
    ((hpage (8 + j) (by show 8 + j < 4096; omega) true).2).trans (Nat.add_assoc 0x4000 8 j).symm
  obtain rfl := hiff.mpr (hallow true)
  obtain rfl : k = 2 := by
    rcases h.result with ⟨-, hk⟩ | ⟨h, -⟩
    · exact hk
    · cases h
  have hsame := h.tables hu
  have hn' : NonNull t 0x1000 := by
    intro vpn hv w hw
    rw [pte_congr hsame] at hw
    exact hn vpn hv w hw
  obtain ⟨r', dst, l', k', hrun', hiff', -, h'⟩ := (copies_touch_permitted t 0x1000).2.1 hn' 8 2
  obtain rfl := hiff'.mpr fun j hj => (allowed_congr hsame).mpr (hallow false j hj)
  obtain rfl : k' = 2 := by
    rcases h'.result with ⟨-, hk⟩ | ⟨h, -⟩
    · exact hk
    · cases h
  have h0 := h.bytes 0 (by decide)
  have h1 := h.bytes 1 (by decide)
  rw [htrans 0 (by decide)] at h0
  rw [htrans 1 (by decide)] at h1
  refine ⟨s, t, l, hu, hn, hrun, ?_, h1, dst, l', hrun', ?_⟩
  · rw [h.trace]
    exact congrArg₂ (fun x y => [x, y]) (htrans 0 (by decide)) (htrans 1 (by decide))
  · rw [h'.bytes, h'.trace]
    simp only [trans_congr hsame]
    show [t.byte (trans s 0x1000 (8 + 0)), t.byte (trans s 0x1000 (8 + 1))] = [65, 66]
    rw [htrans 0 (by decide), htrans 1 (by decide), h0, h1]
    rfl

/-- A table at `0x1000` that maps the virtual pages 0 and 1 to the physical page 0. -/
def nullMem : Mem where
  page p i :=
    if p = 0x1000 ∧ i = 0 then pa2pte 0x2000 ||| PTE_V
    else if p = 0x2000 ∧ i = 0 then pa2pte 0x3000 ||| PTE_V
    else if p = 0x3000 ∧ i.val < 2 then leaf 0 (PTE_R ||| PTE_W ||| PTE_U)
    else 0
  freelist := []
  deny := []
  kend := 0

theorem nullMem_allowed {wr : Bool} {va : Nat} (h : va < 8192) : Allowed nullMem 0x1000 wr va := by
  have hpte : ∀ vpn < 2, pte nullMem 0x1000 vpn = some (leaf 0 (PTE_R ||| PTE_W ||| PTE_U)) := by
    decide +kernel
  refine ⟨h.trans (by decide), _, hpte _ (Nat.div_lt_of_lt_mul h), by decide, fun _ => by decide⟩

/-- The page at the physical address 0 is mapped, but `copyin` does not find it; and where two virtual pages
are one physical page, no memory holds all the source bytes. -/
theorem copies_null_shared :
    (∀ j < 1, Allowed nullMem 0x1000 false (0 + j)) ∧
    ((copyin 0x1000 0 1).run nullMem).map (fun x => x.1.1) = .ok (-1) ∧
    (∀ j < 4097, Allowed nullMem 0x1000 true (0 + j)) ∧
    ∀ t : Mem, ¬ ∀ j < 4097, t.byte (trans nullMem 0x1000 (0 + j)) = UInt8.ofNat (j / 4096) := by
  refine ⟨fun j hj => nullMem_allowed (by omega), by decide +kernel, fun j hj => nullMem_allowed (by omega), ?_⟩
  intro t h
  have hsame : trans nullMem 0x1000 (0 + 0) = trans nullMem 0x1000 (0 + 4096) := by decide +kernel
  have h0 := h 0 (by decide)
  rw [hsame, h 4096 (by decide)] at h0
  exact absurd h0 (by decide)

end Xv6.Vm
