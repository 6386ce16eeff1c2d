import Mathlib.Data.Fintype.Basic
import Xv6.Param

/-!
# Inodes

The fields of an inode that are on the disk, and that `struct inode` copies.
-/

namespace Xv6

/-- Direct blocks of an inode. -/
abbrev NDIRECT : Nat := 12

/-- Block numbers in an indirect block. -/
abbrev NINDIRECT : Nat := BSIZE / 4

/-- The largest file, in blocks. -/
abbrev MAXFILE : Nat := NDIRECT + NINDIRECT

/-- The field `type`: 0 for a free inode, `T_DIR`, `T_FILE`, `T_DEVICE`, or any other value. -/
inductive InodeType where
  | free | dir | file | device | other
  deriving DecidableEq, Repr

/-- `struct dinode`. -/
structure Dinode where
  type : InodeType
  major : Int16
  minor : Int16
  nlink : Int16
  size : Nat
  addrs : Fin (NDIRECT + 1) → Nat
  deriving DecidableEq

namespace Dinode

/-- `memset(dip, 0, sizeof(*dip)); dip->type = type;` -/
def zero (type : InodeType) : Dinode := ⟨type, 0, 0, 0, 0, fun _ => 0⟩

/-- What `itrunc` leaves of an inode. -/
def trunc (d : Dinode) : Dinode := { d with addrs := fun _ => 0, size := 0 }

end Dinode

end Xv6
