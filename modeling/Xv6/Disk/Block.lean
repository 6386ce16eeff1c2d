import Mathlib.Logic.Function.Basic
import Xv6.Param

/-!
# Disk blocks

A block is `BSIZE` bytes. The kernel overlays C structs on the bytes of a buffer; `getUint` and
`setUint` are the loads and stores of an aligned little-endian 32-bit field at a byte offset.
-/

namespace Xv6

/-- The contents of one disk block. -/
def Block : Type := Fin BSIZE → UInt8

/-- A disk: the contents of every block. -/
abbrev Disk : Type := Nat → Block

namespace Block

def zero : Block := fun _ => 0

instance : Inhabited Block := ⟨zero⟩

/-- Byte `i` of the block (`0` past its end). -/
def byte (b : Block) (i : Nat) : UInt8 := if h : i < BSIZE then b ⟨i, h⟩ else 0

/-- The 32-bit word stored at byte offset `off`. -/
def getUint (b : Block) (off : Nat) : UInt32 :=
  UInt32.ofNat ((b.byte off).toNat + 256 * (b.byte (off + 1)).toNat
    + 65536 * (b.byte (off + 2)).toNat + 16777216 * (b.byte (off + 3)).toNat)

/-- The block with the word `v` stored at byte offset `off`. -/
def setUint (b : Block) (off : Nat) (v : UInt32) : Block := fun i =>
  if off ≤ i.val ∧ i.val < off + 4 then UInt8.ofNat (v.toNat / 256 ^ (i.val - off)) else b i

theorem getUint_zero (off : Nat) : zero.getUint off = 0 := by
  have hbyte : ∀ j, zero.byte j = 0 := fun j => by
    unfold byte
    split <;> rfl
  unfold getUint
  simp only [hbyte]
  rfl

theorem byte_setUint (b : Block) (off : Nat) (v : UInt32) (i : Nat) (hi : i < BSIZE) :
    (b.setUint off v).byte i =
      if off ≤ i ∧ i < off + 4 then UInt8.ofNat (v.toNat / 256 ^ (i - off)) else b.byte i := by
  simp only [byte, hi, dif_pos, setUint]

theorem getUint_setUint_same (b : Block) (off : Nat) (v : UInt32) (h : off + 4 ≤ BSIZE) :
    (b.setUint off v).getUint off = v := by
  have hv : v.toNat < 2 ^ 32 := v.toNat_lt
  apply UInt32.toNat_inj.mp
  simp only [getUint]
  rw [byte_setUint _ _ _ _ (by omega), byte_setUint _ _ _ _ (by omega),
    byte_setUint _ _ _ _ (by omega), byte_setUint _ _ _ _ (by omega),
    if_pos ⟨by omega, by omega⟩, if_pos ⟨by omega, by omega⟩, if_pos ⟨by omega, by omega⟩,
    if_pos ⟨by omega, by omega⟩]
  simp only [Nat.sub_self, Nat.add_sub_cancel_left, UInt8.toNat_ofNat', UInt32.toNat_ofNat']
  omega

theorem getUint_setUint_of_disjoint (b : Block) (off off' : Nat) (v : UInt32)
    (hoff : off' + 4 ≤ BSIZE) (h : off' + 4 ≤ off ∨ off + 4 ≤ off') :
    (b.setUint off v).getUint off' = b.getUint off' := by
  simp only [getUint]
  rw [byte_setUint _ _ _ _ (by omega), byte_setUint _ _ _ _ (by omega),
    byte_setUint _ _ _ _ (by omega), byte_setUint _ _ _ _ (by omega),
    if_neg (by omega), if_neg (by omega), if_neg (by omega), if_neg (by omega)]

end Block

end Xv6
