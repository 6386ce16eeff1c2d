import Xv6.Disk.Layout

/-!
# The free map on the disk

`balloc` and `bfree` on the bytes of the bitmap blocks: `balloc` addresses the bits by two nested loops,
`bfree` by division and remainder. The disk is the one that the buffer cache shows.
-/

namespace Xv6

namespace Block

/-- `data[bi/8] &= ~(1 << (bi % 8))` -/
def clearBit (b : Block) (bi : Nat) : Block := fun i =>
  if i.val = bi / 8 then b i &&& ~~~UInt8.ofNat (2 ^ (bi % 8)) else b i

theorem bit_clearBit {b : Block} {bi j : Nat} (hj : j < BPB) :
    (b.clearBit bi).bit j = (!decide (j = bi) && b.bit j) := by
  obtain ⟨hlt, hbit⟩ := bit_of_lt hj
  rw [(bit_of_lt hj).2, hbit, clearBit]
  by_cases hb : j / 8 = bi / 8
  · have hmod : j % 8 < 8 := Nat.mod_lt _ (by decide)
    have hnot : (~~~UInt8.ofNat (2 ^ (bi % 8))).toNat.testBit (j % 8) = !decide (bi % 8 = j % 8) := by
      rw [← testBit_mask, ← UInt8.toNat_toBitVec, ← UInt8.toNat_toBitVec, BitVec.testBit_toNat, BitVec.testBit_toNat,
        UInt8.toBitVec_not, BitVec.getLsbD_not, decide_eq_true hmod, Bool.true_and]
    rw [if_pos hb, UInt8.toNat_and, Nat.testBit_and, hnot, Bool.and_comm]
    congr 2
    exact decide_eq_decide.mpr (by omega)
  · rw [if_neg hb, decide_eq_false (by rintro rfl; exact hb rfl), Bool.not_false, Bool.true_and]

end Block

namespace Bitmap

open Function

variable (sb : Superblock)

/-- The block number `BBLOCK(b, sb)`, a 32-bit number. -/
def bmapBlock (b : Nat) : Nat := sb.bblock b % 2 ^ 32

def bit (img : Disk) (b : Nat) : Bool := (img (bmapBlock sb b)).bit (b % BPB)

/-- `for(bi = 0; bi < BPB && b + bi < sb.size; bi++)`, from `bi` on, up to a clear bit. -/
def scanBlock (blk : Block) (b bi : Nat) : Option Nat :=
  if bi < BPB ∧ b + bi < sb.size then
    if blk.bit bi then scanBlock blk b (bi + 1) else some bi
  else none
termination_by BPB - bi

/-- `for(b = 0; b < sb.size; b += BPB)`, from `b` on, up to a clear bit `bi`. -/
def scan (img : Disk) (b : Nat) : Option (Nat × Nat) :=
  if b < sb.size then
    match scanBlock sb (img (bmapBlock sb b)) b 0 with
    | some bi => some (b, bi)
    | none => scan img (b + BPB)
  else none
termination_by sb.size - b
decreasing_by
  have : 0 < BPB := by decide
  omega

def bzero (img : Disk) (bno : Nat) : Disk := update img bno .zero

/-- Allocate a zeroed disk block: the disk afterwards and the block, 0 if out of disk space. -/
def balloc (img : Disk) : Disk × Nat :=
  match scan sb img 0 with
  | some (b, bi) => (bzero (update img (bmapBlock sb b) ((img (bmapBlock sb b)).setBit bi)) (b + bi), b + bi)
  | none => (img, 0)

/-- Free a disk block; `none` is the panic "freeing free block". -/
def bfree (img : Disk) (b : Nat) : Option Disk :=
  if (img (bmapBlock sb b)).bit (b % BPB) then
    some (update img (bmapBlock sb b) ((img (bmapBlock sb b)).clearBit (b % BPB)))
  else none

/-! ### The scan -/

variable {sb} {img : Disk} {blk : Block} {b bi c r : Nat}

theorem scanBlock_eq_some (h : scanBlock sb blk b bi = some r) :
    bi ≤ r ∧ r < BPB ∧ b + r < sb.size ∧ blk.bit r = false ∧ ∀ j, bi ≤ j → j < r → blk.bit j = true := by
  fun_induction scanBlock sb blk b bi with
  | case1 bi hlt hbit ih =>
    obtain ⟨hle, hr, hsize, hclear, hset⟩ := ih h
    refine ⟨by omega, hr, hsize, hclear, fun j hj hjr => ?_⟩
    rcases hj.eq_or_lt with rfl | hj
    · exact hbit
    · exact hset j hj hjr
  | case2 bi hlt hbit =>
    cases h
    exact ⟨le_rfl, hlt.1, hlt.2, by simpa using hbit, fun j hj hjr => by omega⟩
  | case3 => cases h

theorem scanBlock_eq_none (h : scanBlock sb blk b bi = none) :
    ∀ j, bi ≤ j → j < BPB → b + j < sb.size → blk.bit j = true := by
  fun_induction scanBlock sb blk b bi with
  | case1 bi hlt hbit ih =>
    intro j hj hjb hjs
    rcases hj.eq_or_lt with rfl | hj
    · exact hbit
    · exact ih h j hj hjb hjs
  | case2 => cases h
  | case3 bi hge =>
    intro j hj hjb hjs
    exact absurd ⟨by omega, by omega⟩ hge

/-- The block and the bit of `b + j` that the loops use are those that `bfree` computes. -/
theorem bmapBlock_add (hb : BPB ∣ b) {j : Nat} (hj : j < BPB) : bmapBlock sb (b + j) = bmapBlock sb b := by
  obtain ⟨k, rfl⟩ := hb
  rw [bmapBlock, bmapBlock, Superblock.bblock, Superblock.bblock, Nat.mul_add_div (by decide), Nat.div_eq_of_lt hj,
    Nat.mul_div_cancel_left k (by decide), Nat.add_zero]

theorem mod_add (hb : BPB ∣ b) {j : Nat} (hj : j < BPB) : (b + j) % BPB = j := by
  obtain ⟨k, rfl⟩ := hb
  rw [Nat.mul_add_mod, Nat.mod_eq_of_lt hj]

theorem bit_add (hb : BPB ∣ b) {j : Nat} (hj : j < BPB) :
    bit sb img (b + j) = (img (bmapBlock sb b)).bit j := by
  rw [bit, bmapBlock_add hb hj, mod_add hb hj]

/-- The scan finds the first clear bit. -/
theorem scan_eq (hb : BPB ∣ b) (hset : ∀ c < b, c < sb.size → bit sb img c = true) :
    (∀ a bi, scan sb img b = some (a, bi) → BPB ∣ a ∧ bi < BPB ∧
      a + bi < sb.size ∧ bit sb img (a + bi) = false ∧ ∀ c < a + bi, bit sb img c = true) ∧
    (scan sb img b = none → ∀ c < sb.size, bit sb img c = true) := by
  fun_induction scan sb img b with
  | case1 b hlt bi hscan =>
    obtain ⟨-, hbi, hsize, hclear, hbits⟩ := scanBlock_eq_some hscan
    refine ⟨fun a bi' hr => ?_, nofun⟩
    cases hr
    refine ⟨hb, hbi, hsize, (bit_add hb hbi).trans hclear, fun c hc => ?_⟩
    by_cases hcb : c < b
    · exact hset c hcb (by omega)
    · obtain ⟨j, rfl⟩ := Nat.exists_eq_add_of_le (not_lt.mp hcb)
      rw [bit_add hb (by omega)]
      exact hbits j (Nat.zero_le j) (by omega)
  | case2 b hlt hscan ih =>
    refine ih (Nat.dvd_add hb (Nat.dvd_refl BPB)) fun c hc hcs => ?_
    by_cases hcb : c < b
    · exact hset c hcb hcs
    · obtain ⟨j, rfl⟩ := Nat.exists_eq_add_of_le (not_lt.mp hcb)
      rw [bit_add hb (by omega)]
      exact scanBlock_eq_none hscan j (Nat.zero_le j) (by omega) hcs
  | case3 b hge => exact ⟨nofun, fun _ c hc => hset c (by omega) hc⟩

def first (sb : Superblock) (img : Disk) : Option Nat := (scan sb img 0).map fun x => x.1 + x.2

theorem balloc_of_none (h : first sb img = none) : balloc sb img = (img, 0) := by
  rw [balloc, Option.map_eq_none_iff.mp h]

theorem first_spec (sb : Superblock) (img : Disk) :
    (∀ b, first sb img = some b → b < sb.size ∧ bit sb img b = false ∧ (∀ c < b, bit sb img c = true) ∧
      balloc sb img = (bzero (update img (bmapBlock sb b) ((img (bmapBlock sb b)).setBit (b % BPB))) b, b)) ∧
    (first sb img = none → ∀ c < sb.size, bit sb img c = true) := by
  obtain ⟨hsome, hnone⟩ := @scan_eq sb img 0 ⟨0, rfl⟩ fun c hc => absurd hc (Nat.not_lt_zero c)
  refine ⟨fun b hb => ?_, fun h => hnone (Option.map_eq_none_iff.mp h)⟩
  obtain ⟨⟨a, bi⟩, hscan, rfl⟩ := Option.map_eq_some_iff.mp hb
  obtain ⟨hdvd, hbi, hlt, hclear, hleast⟩ := hsome a bi hscan
  refine ⟨hlt, hclear, hleast, ?_⟩
  rw [balloc, hscan, bmapBlock_add hdvd hbi, mod_add hdvd hbi]

theorem first_eq_find {p : Nat → Bool} (hbit : ∀ c < sb.size, p c = bit sb img c) :
    first sb img = (List.range sb.size).find? fun b => !p b := by
  obtain ⟨hsome, hnone⟩ := first_spec sb img
  cases hscan : first sb img with
  | none =>
    refine (List.find?_eq_none.mpr fun c hc => ?_).symm
    rw [hbit c (List.mem_range.mp hc), hnone hscan c (List.mem_range.mp hc)]
    decide
  | some r =>
    obtain ⟨hlt, hclear, hleast, -⟩ := hsome r hscan
    refine (List.find?_range_eq_some.mpr ⟨?_, List.mem_range.mpr hlt, fun c hc => ?_⟩).symm
    · rw [hbit r hlt, hclear]
      rfl
    · rw [hbit c (by omega), hleast c hc]
      rfl

/-! ### The set of blocks in use -/

theorem eq_of_bmapBlock (hb : b < 2 ^ 31) (hc : c < 2 ^ 31) (hblk : bmapBlock sb c = bmapBlock sb b)
    (hmod : c % BPB = b % BPB) : c = b := by
  have hdiv : c / BPB = b / BPB := by
    have h8192 : BPB = 8192 := rfl
    rw [bmapBlock, bmapBlock, Superblock.bblock, Superblock.bblock] at hblk
    rw [h8192] at hblk ⊢
    omega
  rw [← Nat.div_add_mod c BPB, ← Nat.div_add_mod b BPB, hdiv, hmod]

/-- From `img` to `img'` the bit of block `b` becomes `v`, and no other bit of the map changes. -/
structure SetsBit (sb : Superblock) (img img' : Disk) (b : Nat) (v : Bool) : Prop where
  bits : ∀ c < sb.size, bit sb img' c = if c = b then v else bit sb img c
  same : ∀ j < BPB, j ≠ b % BPB → (img' (bmapBlock sb b)).bit j = (img (bmapBlock sb b)).bit j

theorem SetsBit.of_update (hsize : sb.size < 2 ^ 31) (hb : b < sb.size) {x : Block} {v : Bool}
    (hx : ∀ j < BPB, x.bit j = if j = b % BPB then v else (img (bmapBlock sb b)).bit j) :
    SetsBit sb img (update img (bmapBlock sb b) x) b v := by
  have hmod : ∀ c, c % BPB < BPB := fun c => Nat.mod_lt c (by decide)
  refine ⟨fun c hc => ?_, fun j hj hne => ?_⟩
  · unfold bit
    by_cases hblk : bmapBlock sb c = bmapBlock sb b
    · rw [hblk, update_self, hx _ (hmod c)]
      by_cases hcb : c = b
      · rw [if_pos (congrArg (· % BPB) hcb), if_pos hcb]
      · rw [if_neg (hcb ∘ eq_of_bmapBlock (by omega) (by omega) hblk), if_neg hcb]
    · rw [update_of_ne hblk, if_neg (by rintro rfl; exact hblk rfl)]
  · rw [update_self, hx j hj, if_neg hne]

theorem SetsBit.update {img' : Disk} {v : Bool} (h : SetsBit sb img img' b v) (hb : b < sb.size)
    (hk : ∀ c < sb.size, bmapBlock sb c ≠ r) (x : Block) : SetsBit sb img (update img' r x) b v := by
  refine ⟨fun c hc => ?_, fun j hj hne => ?_⟩
  · rw [← h.bits c hc, bit, bit, update_of_ne (hk c hc)]
  · rw [update_of_ne (hk b hb)]
    exact h.same j hj hne

/-- Block `b`, the first whose bit is clear, is marked and zeroed, and nothing else changes. -/
structure Allocates (sb : Superblock) (img img' : Disk) (b : Nat) : Prop where
  lt : b < sb.size
  clear : bit sb img b = false
  least : ∀ c < b, bit sb img c = true
  map : SetsBit sb img img' b true
  zeroed : img' b = .zero
  kept : ∀ k, k ≠ b → k ≠ bmapBlock sb b → img' k = img k

/-- Block `b` is unmarked, and nothing else changes. -/
structure Frees (sb : Superblock) (img img' : Disk) (b : Nat) : Prop where
  map : SetsBit sb img img' b false
  kept : ∀ k, k ≠ bmapBlock sb b → img' k = img k

theorem balloc_allocates (hsize : sb.size < 2 ^ 31)
    (hown : ∀ c < sb.size, bmapBlock sb c < sb.size → bit sb img (bmapBlock sb c) = true)
    (hfirst : first sb img = some b) : Allocates sb img (balloc sb img).1 b := by
  obtain ⟨hlt, hclear, hleast, heq⟩ := (first_spec sb img).1 b hfirst
  -- the map's own blocks are in use, so `b` is none of them
  have hk : ∀ c < sb.size, bmapBlock sb c ≠ b := by
    rintro c hc rfl
    rw [hown c hc hlt] at hclear
    cases hclear
  have hbit : ∀ j < BPB, ((img (bmapBlock sb b)).setBit (b % BPB)).bit j =
      if j = b % BPB then true else (img (bmapBlock sb b)).bit j := fun j hj => by
    rw [Block.bit_setBit hj]
    by_cases h : j = b % BPB <;> simp [h]
  rw [heq]
  refine ⟨hlt, hclear, hleast, (SetsBit.of_update hsize hlt hbit).update hlt hk .zero, update_self .., ?_⟩
  intro k hkb hkm
  exact (update_of_ne hkb ..).trans (update_of_ne hkm ..)

/-- **The block bitmap implements a set**, if it has its own blocks and block 0 in use. -/
theorem bitmap_is_set (sb : Superblock) (img : Disk) (hsize : sb.size < 2 ^ 31)
    (h0 : bit sb img 0 = true)
    (hown : ∀ c < sb.size, bmapBlock sb c < sb.size → bit sb img (bmapBlock sb c) = true) :
    ((∀ c < sb.size, bit sb img c = true) → balloc sb img = (img, 0)) ∧
    ((∃ c < sb.size, bit sb img c = false) →
      0 < (balloc sb img).2 ∧ Allocates sb img (balloc sb img).1 (balloc sb img).2) ∧
    ∀ b < sb.size, bit sb img b = true → ∃ img', bfree sb img b = some img' ∧ Frees sb img img' b := by
  obtain ⟨hsome, hnone⟩ := first_spec sb img
  refine ⟨fun hall => ?_, fun ⟨c, hc, hclear⟩ => ?_, fun b hb hset => ?_⟩
  · cases hfirst : first sb img with
    | none => exact balloc_of_none hfirst
    | some b =>
      obtain ⟨hlt, hclear, -⟩ := hsome b hfirst
      rw [hall b hlt] at hclear
      cases hclear
  · cases hfirst : first sb img with
    | none =>
      rw [hnone hfirst c hc] at hclear
      cases hclear
    | some b =>
      have halloc := balloc_allocates hsize hown hfirst
      have hresult : (balloc sb img).2 = b := by rw [(hsome b hfirst).2.2.2]
      rw [hresult]
      refine ⟨Nat.pos_of_ne_zero ?_, halloc⟩
      rintro rfl
      have hclear := halloc.clear
      rw [h0] at hclear
      cases hclear
  · refine ⟨_, if_pos hset, .of_update hsize hb fun j hj => ?_, fun k hk => update_of_ne hk ..⟩
    rw [Block.bit_clearBit hj]
    by_cases h : j = b % BPB <;> simp [h]

/-- A disk of `size` blocks with its map in block 1, where the first `used` blocks are in use. -/
def smallDisk (used : Nat) : Disk := fun k =>
  if k = 1 then (List.range used).foldl Block.setBit .zero else .zero

def smallSb (size : Nat) : Superblock := { Mkfs.sb with size := size, bmapstart := 1 }

theorem bitmap_is_set_small :
    0 < (balloc (smallSb 3) (smallDisk 2)).2 ∧
      Allocates (smallSb 3) (smallDisk 2) (balloc (smallSb 3) (smallDisk 2)).1
        (balloc (smallSb 3) (smallDisk 2)).2 :=
  (bitmap_is_set (smallSb 3) (smallDisk 2) (by decide) (by decide +kernel) (by decide +kernel)).2.1
    ⟨2, by decide, by decide +kernel⟩

/-- If the map's own block is free, `balloc` returns it and zeroes it, and its bit is clear again. -/
theorem balloc_zeroes_map :
    bit (smallSb 2) (smallDisk 1) 0 = true ∧ (balloc (smallSb 2) (smallDisk 1)).2 = 1 ∧
      bit (smallSb 2) (balloc (smallSb 2) (smallDisk 1)).1 1 = false := by
  have h0 : bit (smallSb 2) (smallDisk 1) 0 = true := by decide +kernel
  have h1 : bit (smallSb 2) (smallDisk 1) 1 = false := by decide +kernel
  obtain ⟨hsome, hnone⟩ := first_spec (smallSb 2) (smallDisk 1)
  cases hfirst : first (smallSb 2) (smallDisk 1) with
  | none =>
    have := hnone hfirst 1 (by decide)
    cases this
  | some r =>
    obtain ⟨hlt, hclear, -, heq⟩ := hsome r hfirst
    have hr : r = 1 := by
      have : r < 2 := hlt
      rcases (by omega : r = 0 ∨ r = 1) with rfl | rfl
      · rw [h0] at hclear
        cases hclear
      · rfl
    subst hr
    rw [heq]
    exact ⟨h0, rfl, by decide +kernel⟩

end Bitmap

end Xv6
