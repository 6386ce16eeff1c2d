import Mathlib.Logic.Function.Basic
import Xv6.Disk.Block
import Xv6.Disk.Superblock
import Xv6.Fs.Dinode

/-!
# The state of the file system

What `fs.c` works on, for one file-system call at a time: the disk as the buffer cache shows it, the
inode table, and the blocks that the current transaction has passed to `log_write`. On the disk the free
map is a bit for each block and the inode blocks are an inode for each number; the other blocks are
bytes. A panic ends the run, and so does a process that waits for a lock which it holds itself.
-/

namespace Xv6.Fs

/-- What stops the kernel. -/
inductive Panic where
  | freeingFreeBlock | bmapOutOfRange
  | igetNoInodes | ilock | ilockNoType | iunlock
  | dirlookupNotDir | dirlookupRead | dirlinkRead | isdiremptyReadi
  | unlinkNlink | unlinkWritei
  | logWriteOutside | tooBigTransaction
  | filedup | fileclose | fileread | filewrite
  /-- `acquiresleep` of a lock that the process holds itself -/
  | blocked
  deriving DecidableEq, Repr

/-- The disk: `bitmap b` is the bit of block `b`, `dinode i` the inode `i`, `data b` the bytes of block `b`
where it is neither. -/
structure Store where
  bitmap : Nat → Bool
  dinode : Nat → Dinode
  data : Nat → Block

/-- A pointer to an entry of the inode table. -/
abbrev Ptr : Type := Fin NINODE

/-- `struct inode`; the lock is a bit, since one process runs at a time. -/
structure Inode where
  inum : Nat
  ref : Nat
  valid : Bool
  locked : Bool
  /-- the fields that are copied from the disk -/
  copy : Dinode

/-- What `iput`, `ialloc` and `dirlookup` did, for the record. -/
inductive Event where
  /-- `iput` dropped a reference to the inode `i`, whose fields on the disk were `d`; `left` references
  remain, and `freed` says whether it freed the inode -/
  | put (i : Nat) (d : Dinode) (left : Nat) (freed : Bool)
  /-- `ialloc` returned the inode `i`, to which `refs` entries of the table referred -/
  | alloc (i : Nat) (refs : Nat)
  /-- `dirlookup` found the inode `i`, whose type on the disk was `type` -/
  | found (i : Nat) (type : InodeType)

end Fs

/-- The state of `fs.c` and of the log. -/
structure Fs where
  store : Fs.Store
  itable : Fs.Ptr → Fs.Inode
  /-- the blocks logged since `begin_op`; `none` outside of a transaction -/
  trans : Option (List Nat)
  /-- the events so far -/
  trace : List Fs.Event

namespace Fs

/-- Code of the kernel. -/
abbrev M : Type → Type := StateT Fs (Except Panic)

def setStore (s : Fs) (st : Store) : Fs := { s with store := st }

def setInode (s : Fs) (ip : Ptr) (x : Inode) : Fs :=
  { s with itable := Function.update s.itable ip x }

/-- An assignment to fields of `*ip` that live on the disk. -/
def setCopy (s : Fs) (ip : Ptr) (d : Dinode) : Fs :=
  s.setInode ip { s.itable ip with copy := d }

def copyOf (ip : Ptr) : M Dinode := return ((← get).itable ip).copy

def assign (ip : Ptr) (f : Dinode → Dinode) : M Unit :=
  modify fun s => s.setCopy ip (f (s.itable ip).copy)

variable (sb : Superblock)

def beginOp : M Unit := modify fun s => { s with trans := some [] }

def endOp : M Unit := modify fun s => { s with trans := none }

/-- `log_write` of block `b`: a block that is in the log already is absorbed. -/
def logWrite (b : Nat) : M Unit := do
  match (← get).trans with
  | none => throw .logWriteOutside
  | some l =>
    if LOGSIZE ≤ l.length ∨ sb.nlog - 1 ≤ l.length then throw .tooBigTransaction
    else if b ∈ l then pure ()
    else modify fun s => { s with trans := some (b :: l) }

end Fs

end Xv6
