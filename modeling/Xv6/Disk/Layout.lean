import Mathlib.Data.Nat.Bitwise
import Xv6.Fs.State

/-!
# The bytes of the superblock, of inodes and of the free map

The C structs that lie in the blocks of the file system, little-endian, and `Disk.store`: the disk as
`fs.c` reads it through these structs.
-/

namespace Xv6

def leByte (v j : Nat) : UInt8 := UInt8.ofNat (v / 256 ^ j)

theorem leByte_ushort {v : Nat} (h : v < 2 ^ 16) :
    (leByte v 0).toNat + 256 * (leByte v 1).toNat = v := by
  simp only [leByte, UInt8.toNat_ofNat']
  omega

theorem leByte_uint {v : Nat} (h : v < 2 ^ 32) :
    (leByte v 0).toNat + 256 * (leByte v 1).toNat + 65536 * (leByte v 2).toNat +
      16777216 * (leByte v 3).toNat = v := by
  simp only [leByte, UInt8.toNat_ofNat']
  omega

namespace Block

variable {b : Block} {off n o : Nat} {f : Nat → UInt8}

def getUshort (b : Block) (off : Nat) : UInt16 :=
  UInt16.ofNat ((b.byte off).toNat + 256 * (b.byte (off + 1)).toNat)

def setBytes (b : Block) (off n : Nat) (f : Nat → UInt8) : Block := fun i =>
  if off ≤ i.val ∧ i.val < off + n then f (i.val - off) else b i

theorem byte_setBytes (ho : o < BSIZE) : (b.setBytes off n f).byte o =
    if off ≤ o ∧ o < off + n then f (o - off) else b.byte o := by
  simp only [byte, ho, dif_pos, setBytes]

theorem byte_setBytes_add {j : Nat} (hj : j < n) (hoff : off + n ≤ BSIZE) :
    (b.setBytes off n f).byte (off + j) = f j := by
  rw [byte_setBytes (by omega), if_pos (by omega), Nat.add_sub_cancel_left]

theorem byte_setBytes_of_disjoint (ho : o < BSIZE) (h : o < off ∨ off + n ≤ o) :
    (b.setBytes off n f).byte o = b.byte o := by
  rw [byte_setBytes ho, if_neg (by omega)]

theorem getUshort_setBytes {j v : Nat} (hoff : off + n ≤ BSIZE) (hj : j + 2 ≤ n) (hv : v < 2 ^ 16)
    (h0 : f j = leByte v 0) (h1 : f (j + 1) = leByte v 1) :
    (b.setBytes off n f).getUshort (off + j) = UInt16.ofNat v := by
  rw [getUshort, Nat.add_assoc, byte_setBytes_add (by omega) hoff, byte_setBytes_add (by omega) hoff,
    h0, h1, leByte_ushort hv]

theorem getUint_setBytes {j v : Nat} (hoff : off + n ≤ BSIZE) (hj : j + 4 ≤ n) (hv : v < 2 ^ 32)
    (h : ∀ k < 4, f (j + k) = leByte v k) :
    ((b.setBytes off n f).getUint (off + j)).toNat = v := by
  rw [getUint, Nat.add_assoc off j 1, Nat.add_assoc off j 2, Nat.add_assoc off j 3,
    byte_setBytes_add (by omega) hoff, byte_setBytes_add (by omega) hoff,
    byte_setBytes_add (by omega) hoff, byte_setBytes_add (by omega) hoff,
    show f j = leByte v 0 from h 0 (by omega), h 1 (by omega), h 2 (by omega), h 3 (by omega),
    leByte_uint hv, UInt32.toNat_ofNat_of_lt' hv]

end Block

/-! ## Inodes -/

def InodeType.toShort : InodeType → Nat
  | .free => 0
  | .dir => 1
  | .file => 2
  | .device => 3
  | .other => 4

def InodeType.ofShort : Nat → InodeType
  | 0 => .free
  | 1 => .dir
  | 2 => .file
  | 3 => .device
  | _ => .other

theorem InodeType.ofShort_toShort (t : InodeType) : ofShort t.toShort = t := by
  cases t <;> rfl

def Dinode.byte (d : Dinode) (j : Nat) : UInt8 :=
  if j < 2 then leByte d.type.toShort j
  else if j < 4 then leByte d.major.toUInt16.toNat (j - 2)
  else if j < 6 then leByte d.minor.toUInt16.toNat (j - 4)
  else if j < 8 then leByte d.nlink.toUInt16.toNat (j - 6)
  else if j < 12 then leByte d.size (j - 8)
  else leByte (d.addrs (Fin.ofNat (NDIRECT + 1) ((j - 12) / 4))) ((j - 12) % 4)

/-- The numbers of the inode fit in their fields. -/
structure Dinode.Fits (d : Dinode) : Prop where
  size : d.size < 2 ^ 32
  addrs : ∀ k, d.addrs k < 2 ^ 32

namespace Block

/-- The `struct dinode` at byte offset `off`. -/
def dinode (b : Block) (off : Nat) : Dinode where
  type := .ofShort (b.getUshort off).toNat
  major := (b.getUshort (off + 2)).toInt16
  minor := (b.getUshort (off + 4)).toInt16
  nlink := (b.getUshort (off + 6)).toInt16
  size := (b.getUint (off + 8)).toNat
  addrs := fun k => (b.getUint (off + (12 + 4 * k))).toNat

/-- `*dip = *ip` -/
def setDinode (b : Block) (off : Nat) (d : Dinode) : Block := b.setBytes off 64 d.byte

variable {b : Block} {off off' : Nat} {d : Dinode}

theorem dinode_setDinode (hoff : off + 64 ≤ BSIZE) (hd : d.Fits) : (b.setDinode off d).dinode off = d := by
  have hshort : ∀ x : Int16, (UInt16.ofNat x.toUInt16.toNat).toInt16 = x := fun x => by
    rw [UInt16.ofNat_toNat]
    exact Int16.toInt16_toUInt16 x
  have htype : ((b.setDinode off d).getUshort off).toNat = d.type.toShort := by
    have hlt : d.type.toShort < 2 ^ 16 := by cases d.type <;> decide
    have := getUshort_setBytes (b := b) (j := 0) (f := d.byte) hoff (by omega) hlt rfl rfl
    exact (congrArg UInt16.toNat this).trans (UInt16.toNat_ofNat_of_lt' hlt)
  have hmajor := getUshort_setBytes (b := b) (j := 2) (f := d.byte) hoff (by omega) d.major.toUInt16.toNat_lt
    rfl rfl
  have hminor := getUshort_setBytes (b := b) (j := 4) (f := d.byte) hoff (by omega) d.minor.toUInt16.toNat_lt
    rfl rfl
  have hnlink := getUshort_setBytes (b := b) (j := 6) (f := d.byte) hoff (by omega) d.nlink.toUInt16.toNat_lt
    rfl rfl
  have hsize := getUint_setBytes (b := b) (j := 8) (f := d.byte) hoff (by omega) hd.size fun k hk => by
    simp only [Dinode.byte]
    rw [if_neg (by omega), if_neg (by omega), if_neg (by omega), if_neg (by omega), if_pos (by omega),
      Nat.add_sub_cancel_left]
  have haddrs : ∀ a : Fin (NDIRECT + 1),
      ((b.setDinode off d).getUint (off + (12 + 4 * a))).toNat = d.addrs a := by
    intro a
    have ha : a.val < 13 := a.isLt
    refine getUint_setBytes hoff (by omega) (hd.addrs a) fun k hk => ?_
    have hdiv : (12 + 4 * a.val + k - 12) / 4 = a.val := by omega
    have hmod : (12 + 4 * a.val + k - 12) % 4 = k := by omega
    simp only [Dinode.byte]
    rw [if_neg (by omega), if_neg (by omega), if_neg (by omega), if_neg (by omega), if_neg (by omega),
      hdiv]
    congr 2
    exact Fin.ext (Nat.mod_eq_of_lt ha)
  cases d
  simp only [dinode, Dinode.mk.injEq]
  refine ⟨?_, ?_, ?_, ?_, hsize, funext haddrs⟩
  · rw [htype]
    exact InodeType.ofShort_toShort _
  · rw [setDinode, hmajor]
    exact hshort _
  · rw [setDinode, hminor]
    exact hshort _
  · rw [setDinode, hnlink]
    exact hshort _

theorem dinode_setDinode_of_disjoint (hoff : off' + 64 ≤ BSIZE) (h : off' + 64 ≤ off ∨ off + 64 ≤ off') :
    (b.setDinode off d).dinode off' = b.dinode off' := by
  have hbyte : ∀ j < 64, (b.setDinode off d).byte (off' + j) = b.byte (off' + j) := fun j hj =>
    byte_setBytes_of_disjoint (by omega) (by omega)
  have hshort : ∀ j < 63, (b.setDinode off d).getUshort (off' + j) = b.getUshort (off' + j) := by
    intro j hj
    rw [getUshort, getUshort, Nat.add_assoc, hbyte _ (by omega), hbyte _ (by omega)]
  have hint : ∀ j < 61, (b.setDinode off d).getUint (off' + j) = b.getUint (off' + j) := by
    intro j hj
    rw [getUint, getUint, Nat.add_assoc off' j 1, Nat.add_assoc off' j 2, Nat.add_assoc off' j 3,
      hbyte _ (by omega), hbyte _ (by omega), hbyte _ (by omega), hbyte _ (by omega)]
  have h0 := hshort 0 (by omega)
  rw [Nat.add_zero] at h0
  simp only [dinode, h0, hshort 2 (by omega), hshort 4 (by omega), hshort 6 (by omega), hint 8 (by omega),
    Dinode.mk.injEq, true_and]
  funext a
  have ha : a.val < 13 := a.isLt
  rw [hint _ (by omega)]

end Block

/-! ## The superblock -/

def Superblock.field (sb : Superblock) : Nat → Nat
  | 0 => sb.magic
  | 1 => sb.size
  | 2 => sb.nblocks
  | 3 => sb.ninodes
  | 4 => sb.nlog
  | 5 => sb.logstart
  | 6 => sb.inodestart
  | _ => sb.bmapstart

def Superblock.byte (sb : Superblock) (j : Nat) : UInt8 := leByte (sb.field (j / 4)) (j % 4)

/-- `readsb`: the `struct superblock` in a block. -/
def Block.readsb (b : Block) : Superblock where
  magic := (b.getUint 0).toNat
  size := (b.getUint 4).toNat
  nblocks := (b.getUint 8).toNat
  ninodes := (b.getUint 12).toNat
  nlog := (b.getUint 16).toNat
  logstart := (b.getUint 20).toNat
  inodestart := (b.getUint 24).toNat
  bmapstart := (b.getUint 28).toNat

theorem Block.readsb_setBytes {b : Block} {sb : Superblock} (h : ∀ k < 8, sb.field k < 2 ^ 32) :
    (b.setBytes 0 32 sb.byte).readsb = sb := by
  have hfield : ∀ k < 8, ((b.setBytes 0 32 sb.byte).getUint (0 + 4 * k)).toNat = sb.field k := by
    intro k hk
    refine getUint_setBytes (by decide) (by omega) (h k hk) fun j hj => ?_
    rw [Superblock.byte, show (4 * k + j) / 4 = k by omega, show (4 * k + j) % 4 = j by omega]
  exact Superblock.mk.injEq .. ▸ ⟨hfield 0 (by omega), hfield 1 (by omega), hfield 2 (by omega),
    hfield 3 (by omega), hfield 4 (by omega), hfield 5 (by omega), hfield 6 (by omega),
    hfield 7 (by omega)⟩

/-! ## The free map -/

namespace Block

/-- `data[bi/8] & (1 << (bi % 8))` -/
def bit (b : Block) (bi : Nat) : Bool := (b.byte (bi / 8)).toNat.testBit (bi % 8)

/-- `data[bi/8] |= 1 << (bi % 8)` -/
def setBit (b : Block) (bi : Nat) : Block := fun i =>
  if i.val = bi / 8 then b i ||| UInt8.ofNat (2 ^ (bi % 8)) else b i

theorem bit_zero (bi : Nat) : zero.bit bi = false := by
  have hbyte : zero.byte (bi / 8) = 0 := by
    unfold byte
    split <;> rfl
  rw [bit, hbyte]
  exact Nat.zero_testBit _

theorem bit_of_lt {b : Block} {j : Nat} (hj : j < BPB) :
    ∃ h : j / 8 < BSIZE, b.bit j = (b ⟨j / 8, h⟩).toNat.testBit (j % 8) := by
  have hlt : j / 8 < BSIZE := by
    show j / 8 < 1024
    have : j < 1024 * 8 := hj
    omega
  exact ⟨hlt, by rw [bit, byte, dif_pos hlt]⟩

theorem testBit_mask (bi j : Nat) : (UInt8.ofNat (2 ^ (bi % 8))).toNat.testBit j = decide (bi % 8 = j) := by
  rw [UInt8.toNat_ofNat', Nat.mod_eq_of_lt (Nat.pow_lt_pow_right (by decide) (Nat.mod_lt _ (by decide))),
    Nat.testBit_two_pow]

theorem bit_setBit {b : Block} {bi j : Nat} (hj : j < BPB) :
    (b.setBit bi).bit j = (decide (j = bi) || b.bit j) := by
  obtain ⟨hlt, hbit⟩ := bit_of_lt hj
  rw [(bit_of_lt hj).2, hbit, setBit]
  by_cases hb : j / 8 = bi / 8
  · rw [if_pos hb, UInt8.toNat_or, Nat.testBit_or, testBit_mask, Bool.or_comm]
    congr 1
    exact decide_eq_decide.mpr (by omega)
  · rw [if_neg hb, decide_eq_false (by rintro rfl; exact hb rfl), Bool.false_or]

end Block

/-- The disk as `fs.c` reads it: inodes in the inode blocks, a bit for each block in the free map, and the
bytes of the data blocks. -/
def Disk.store (sb : Superblock) (img : Disk) : Fs.Store where
  bitmap b := (img (sb.bblock b)).bit (b % BPB)
  dinode i := if sb.iblock i < sb.bmapstart then (img (sb.iblock i)).dinode (i % IPB * 64) else .zero .free
  data b := if sb.bmapstart + sb.size / BPB + 1 ≤ b then img b else .zero

end Xv6
