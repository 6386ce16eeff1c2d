import Xv6.Disk.Layout
import Xv6.Fs.Syscalls

/-!
# `mkfs`

`mkfs.c`: the image is a file of blocks, which `wsect` extends and of which `rsect` reads a block that is
there. A failed `assert` and `die` end the run.
-/

namespace Xv6.Mkfs

open Fs (Dirent slash dot dotdot)

/-- What ends the run early. -/
inductive Exit where
  | assert | die
  deriving DecidableEq, Repr

/-- The image file and the global variables. -/
structure Image where
  img : Disk
  /-- the length of the file in blocks -/
  len : Nat
  freeinode : Nat
  freeblock : Nat

/-- The file after `open` with `O_TRUNC`. -/
def Image.init : Image := ⟨fun _ => .zero, 0, 1, 0⟩

/-- Code of `mkfs`. -/
abbrev M : Type → Type := StateT Image (Except Exit)

def Image.write (s : Image) (sec : Nat) (buf : Block) : Image :=
  { s with img := Function.update s.img sec buf, len := max s.len (sec + 1) }

def wsect (sec : Nat) (buf : Block) : M Unit := modify fun s => s.write sec buf

def rsect (sec : Nat) : M Block := do
  let s ← get
  if sec < s.len then return s.img sec else throw .die

def winode (inum : Nat) (ip : Dinode) : M Unit := do
  let buf ← rsect (sb.iblock inum)
  wsect (sb.iblock inum) (buf.setDinode (inum % IPB * 64) ip)

def rinode (inum : Nat) : M Dinode := do
  let buf ← rsect (sb.iblock inum)
  return buf.dinode (inum % IPB * 64)

/-- `freeinode++` -/
def nextInode : M Nat :=
  modifyGet fun s => (s.freeinode, { s with freeinode := s.freeinode + 1 })

/-- `freeblock++` -/
def nextBlock : M Nat :=
  modifyGet fun s => (s.freeblock, { s with freeblock := s.freeblock + 1 })

def ialloc (type : InodeType) : M Nat := do
  let inum ← nextInode
  winode inum { Dinode.zero type with nlink := 1 }
  return inum

/-- The block that marks the first `used` blocks. -/
def usedBits (used : Nat) : Block := (List.range used).foldl .setBit .zero

def balloc (used : Nat) : M Unit := do
  if BPB ≤ used then throw .assert
  else wsect sb.bmapstart (usedBits used)

/-- `din.addrs[k]`, with the next block if it is 0. -/
def addrOrNext (din : Dinode) (k : Fin (NDIRECT + 1)) : M Dinode := do
  if din.addrs k = 0 then
    let b ← nextBlock
    return { din with addrs := Function.update din.addrs k b }
  else return din

/-- The block `x` for the `fbn`th block of the file. -/
def blockFor (din : Dinode) (fbn : Nat) : M (Dinode × Nat) := do
  if h : fbn < NDIRECT then
    let din ← addrOrNext din ⟨fbn, Nat.lt_succ_of_lt h⟩
    return (din, din.addrs ⟨fbn, Nat.lt_succ_of_lt h⟩)
  else
    let din ← addrOrNext din (Fin.last NDIRECT)
    let ind := din.addrs (Fin.last NDIRECT)
    let indirect ← rsect ind
    let x := (indirect.getUint (4 * (fbn - NDIRECT))).toNat
    if x = 0 then
      let b ← nextBlock
      wsect ind (indirect.setUint (4 * (fbn - NDIRECT)) (UInt32.ofNat b))
      return (din, b)
    else return (din, x)

/-- The loop of `iappend`, for the bytes `p` at offset `off`. -/
def iappendLoop : (fuel : Nat) → (din : Dinode) → (off : Nat) → (p : List UInt8) → M (Dinode × Nat)
  | 0, din, off, _ => return (din, off)
  | fuel + 1, din, off, p => do
    if 0 < p.length then
      let fbn := off / BSIZE
      if MAXFILE ≤ fbn then throw .assert
      else
        let (din, x) ← blockFor din fbn
        let n1 := min p.length ((fbn + 1) * BSIZE - off)
        let buf ← rsect x
        wsect x (buf.patch (off - fbn * BSIZE) n1 fun j => p[j]?)
        iappendLoop fuel din (off + n1) (p.drop n1)
    else return (din, off)

def iappend (inum : Nat) (p : List UInt8) : M Unit := do
  let din ← rinode inum
  let (din, off) ← iappendLoop p.length din din.size p
  winode inum { din with size := off }

/-- A file of the host that is named on the command line. -/
structure HostFile where
  path : List UInt8
  /-- whether `open` succeeds -/
  opens : Bool
  /-- what the calls of `read` return, up to the one that returns 0 -/
  reads : List (List UInt8)
  path_ne_zero : 0 ∉ path
  read_ne_nil : [] ∉ reads
  read_le : ∀ c ∈ reads, c.length ≤ BSIZE

def HostFile.contents (f : HostFile) : List UInt8 := f.reads.flatten

def userDir : List UInt8 := [117, 115, 101, 114, 47]

/-- The name without `"user/"`. -/
def HostFile.base (f : HostFile) : List UInt8 :=
  if f.path.take 5 = userDir then f.path.drop 5 else f.path

/-- The name in the image, without a leading `_`. -/
def HostFile.shortname (f : HostFile) : List UInt8 :=
  if f.base.head? = some 95 then f.base.drop 1 else f.base

/-- One round of the loop over the arguments. -/
def addFile (rootino : Nat) (f : HostFile) : M Unit := do
  if slash ∈ f.base then throw .assert
  else if !f.opens then throw .die
  else if DIRSIZ < f.shortname.length then throw .assert
  else
    let inum ← ialloc .file
    iappend rootino (Dirent.bytes ⟨inum, f.shortname⟩)
    f.reads.forM (iappend inum)

def zeroBlocks (n : Nat) : M Unit := (List.range n).forM fun i => wsect i .zero

-- the run of this loop for `FSSIZE` is not to be unfolded by unification
attribute [irreducible] zeroBlocks

/-- The image with zeroes, and then the superblock. -/
def writeZeroes : M Unit := do
  modify fun s => { s with freeblock := nmeta }
  zeroBlocks FSSIZE
  wsect 1 (Block.zero.setBytes 0 32 sb.byte)

def makeRoot : M Nat := do
  let rootino ← ialloc .dir
  if rootino ≠ ROOTINO then throw .assert
  else
    iappend rootino (Dirent.bytes ⟨rootino, dot⟩)
    iappend rootino (Dirent.bytes ⟨rootino, dotdot⟩)
    return rootino

/-- Fix size of root inode dir. -/
def fixRoot (rootino : Nat) : M Unit := do
  let din ← rinode rootino
  winode rootino { din with size := (din.size / BSIZE + 1) * BSIZE }

def main (files : List HostFile) : M Unit := do
  writeZeroes
  let rootino ← makeRoot
  files.forM (addFile rootino)
  fixRoot rootino
  balloc (← get).freeblock

end Xv6.Mkfs
