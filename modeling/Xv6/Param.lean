import Mathlib.Algebra.GroupWithZero.Nat
import Mathlib.Algebra.Group.Int.Defs
import Mathlib.Data.Nat.Notation

/-!
# Constants of `param.h` and `fs.h`
-/

namespace Xv6

/-- Maximum number of processes. -/
abbrev NPROC : Nat := 64

instance : NeZero NPROC := ⟨by decide⟩

/-- Open files per process. -/
abbrev NOFILE : Nat := 16

/-- Open files per system. -/
abbrev NFILE : Nat := 100

instance : NeZero NFILE := ⟨by decide⟩

/-- Maximum number of active inodes. -/
abbrev NINODE : Nat := 50

instance : NeZero NINODE := ⟨by decide⟩

/-- Maximum major device number. -/
abbrev NDEV : Nat := 10

/-- Maximum number of blocks any file-system operation writes. -/
abbrev MAXOPBLOCKS : Nat := 10

/-- Maximum number of data blocks in the on-disk log. -/
abbrev LOGSIZE : Nat := MAXOPBLOCKS * 3

/-- Size of the file system in blocks. -/
abbrev FSSIZE : Nat := 2000

/-- Block size in bytes. -/
abbrev BSIZE : Nat := 1024

end Xv6
