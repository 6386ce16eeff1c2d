import Xv6.Fs.Blocks

/-!
# The inode table, directories and paths

`ialloc`, `iget`, `idup`, `ilock`, `iunlock` and `iput` of `fs.c`, then `dirlookup`, `dirlink` and `namex`.
A directory entry is 16 bytes, an inode number and a name of at most `DIRSIZ` bytes.
-/

namespace Xv6

abbrev ROOTINO : Nat := 1

abbrev DIRSIZ : Nat := 14

namespace Fs

variable (sb : Superblock)

/-! ## The inode table -/

def findInode (s : Fs) (inum : Nat) : Option Ptr :=
  (List.finRange NINODE).find? fun ip => 0 < (s.itable ip).ref ∧ (s.itable ip).inum = inum

def emptyInode (s : Fs) : Option Ptr := (List.finRange NINODE).find? fun ip => (s.itable ip).ref = 0

/-- Find the inode with number `inum` and return the in-memory copy. -/
def iget (inum : Nat) : M Ptr := do
  let s ← get
  match s.findInode inum with
  | some ip =>
    modify fun s => s.setInode ip { s.itable ip with ref := (s.itable ip).ref + 1 }
    return ip
  | none => match s.emptyInode with
    | some ip =>
      modify fun s => s.setInode ip { s.itable ip with inum := inum, ref := 1, valid := false }
      return ip
    | none => throw .igetNoInodes

def idup (ip : Ptr) : M Ptr := do
  modify fun s => s.setInode ip { s.itable ip with ref := (s.itable ip).ref + 1 }
  return ip

/-- How many entries in use are for the inode `inum`. -/
def entriesFor (s : Fs) (inum : Nat) : Nat :=
  ((List.finRange NINODE).filter fun ip => 0 < (s.itable ip).ref ∧ (s.itable ip).inum = inum).length

/-- Allocate an inode; `none` if there is no free inode. -/
def ialloc (type : InodeType) : M (Option Ptr) := do
  let s ← get
  match (List.range' 1 (sb.ninodes - 1)).find? fun i => (s.store.dinode i).type = .free with
  | some i =>
    modify fun s => { s with
      store.dinode := Function.update s.store.dinode i (.zero type)
      trace := .alloc i (s.entriesFor i) :: s.trace }
    logWrite sb (sb.iblock i)
    return some (← iget i)
  | none => return none

/-- `acquiresleep(&ip->lock)` -/
def acquireInode (ip : Ptr) : M Unit := do
  if ((← get).itable ip).locked then throw .blocked
  else modify fun s => s.setInode ip { s.itable ip with locked := true }

/-- `releasesleep(&ip->lock)` -/
def releaseInode (ip : Ptr) : M Unit :=
  modify fun s => s.setInode ip { s.itable ip with locked := false }

/-- Lock the given inode; reads the inode from disk if necessary. -/
def ilock (ip : Ptr) : M Unit := do
  if ((← get).itable ip).ref < 1 then throw .ilock
  else
    acquireInode ip
    if ((← get).itable ip).valid then pure ()
    else
      modify fun s => s.setInode ip { s.itable ip with
        copy := s.store.dinode (s.itable ip).inum
        valid := true }
      if (← copyOf ip).type = .free then throw .ilockNoType else pure ()

def iunlock (ip : Ptr) : M Unit := do
  if !((← get).itable ip).locked ∨ ((← get).itable ip).ref < 1 then throw .iunlock
  else releaseInode ip

/-- The part of `iput` for the last reference to an inode without links. -/
def freeInode (ip : Ptr) : M Unit := do
  acquireInode ip
  itrunc sb ip
  assign ip fun d => { d with type := .free }
  iupdate sb ip
  modify fun s => s.setInode ip { s.itable ip with valid := false }
  releaseInode ip

/-- `ip->ref == 1 && ip->valid && ip->nlink == 0` -/
def Inode.last (x : Inode) : Bool := x.ref = 1 ∧ x.valid ∧ x.copy.nlink = 0

/-- Drop a reference to an in-memory inode. -/
def iput (ip : Ptr) : M Unit := do
  let s ← get
  if (s.itable ip).last then freeInode sb ip else pure ()
  modify fun t => { t.setInode ip { t.itable ip with ref := (t.itable ip).ref - 1 } with
    trace := .put (s.itable ip).inum (s.store.dinode (s.itable ip).inum) ((s.itable ip).ref - 1)
      (s.itable ip).last :: t.trace }

def iunlockput (ip : Ptr) : M Unit := do
  iunlock ip
  iput sb ip

/-! ## Directories -/

/-- A C string in a buffer of `DIRSIZ` bytes. -/
def cstr (l : List UInt8) : List UInt8 := (l.take DIRSIZ).takeWhile (· ≠ 0)

/-- `strncmp(s, t, DIRSIZ) == 0` -/
def namecmp (s t : List UInt8) : Bool := cstr s = cstr t

/-- `struct dirent`. -/
structure Dirent where
  inum : Nat
  name : List UInt8

/-- The bytes of a `struct dirent`; `inum` is a `ushort`, and `strncpy` pads the name. -/
def Dirent.bytes (de : Dirent) : List UInt8 :=
  UInt8.ofNat de.inum :: UInt8.ofNat (de.inum / 256) :: ((cstr de.name ++ List.replicate DIRSIZ 0).take DIRSIZ)

/-- The `struct dirent` in 16 bytes. -/
def Dirent.ofBytes : List UInt8 → Dirent
  | b0 :: b1 :: name => ⟨b0.toNat + 256 * b1.toNat, name⟩
  | _ => ⟨0, []⟩

/-- `readi(dp, 0, &de, off, sizeof(de))`, with `panic(e)` if it is short. -/
def readDirent (e : Panic) (dp : Ptr) (off : Nat) : M Dirent := do
  match ← readi sb dp (fun _ => true) off 16 with
  | some l => if l.length = 16 then return .ofBytes l else throw e
  | none => throw e

def dirlookupLoop (dp : Ptr) (name : List UInt8) : (fuel off : Nat) → M (Option (Ptr × Nat))
  | 0, _ => return none
  | fuel + 1, off => do
    if off < (← copyOf dp).size then
      let de ← readDirent sb .dirlookupRead dp off
      if de.inum ≠ 0 ∧ namecmp name de.name then
        modify fun s => { s with trace := .found de.inum (s.store.dinode de.inum).type :: s.trace }
        return some (← iget de.inum, off)
      else dirlookupLoop dp name fuel (off + 16)
    else return none

/-- Look for a directory entry in a directory: the inode and the offset of the entry. -/
def dirlookup (dp : Ptr) (name : List UInt8) : M (Option (Ptr × Nat)) := do
  if (← copyOf dp).type ≠ .dir then throw .dirlookupNotDir
  else dirlookupLoop sb dp name ((← copyOf dp).size / 16 + 1) 0

/-- The loop of `dirlink`: the offset of an empty entry. -/
def emptyLoop (dp : Ptr) : (fuel off : Nat) → M Nat
  | 0, off => return off
  | fuel + 1, off => do
    if off < (← copyOf dp).size then
      let de ← readDirent sb .dirlinkRead dp off
      if de.inum = 0 then return off else emptyLoop dp fuel (off + 16)
    else return off

/-- `writei(dp, 0, &de, off, sizeof(de)) == sizeof(de)` -/
def writeDirent (dp : Ptr) (de : Dirent) (off : Nat) : M Bool := do
  return (← writei sb dp (fun j => de.bytes[j]?) off 16) = some 16

/-- Write a new directory entry (name, inum) into the directory `dp`; `false` for -1. -/
def dirlink (dp : Ptr) (name : List UInt8) (inum : Nat) : M Bool := do
  match ← dirlookup sb dp name with
  | some (ip, _) =>
    iput sb ip
    return false
  | none =>
    let off ← emptyLoop sb dp ((← copyOf dp).size / 16 + 1) 0
    writeDirent sb dp ⟨inum, name⟩ off

/-! ## Paths -/

/-- The character `/`. -/
def slash : UInt8 := 47

/-- The next path element, cut to `DIRSIZ` bytes, and the rest of the path; `none` for 0. -/
def skipelem (path : List UInt8) : Option (List UInt8 × List UInt8) :=
  match path.dropWhile (· = slash) with
  | [] => none
  | p => some ((p.takeWhile (· ≠ slash)).take DIRSIZ, (p.dropWhile (· ≠ slash)).dropWhile (· = slash))

/-- The loop of `namex`; `name` is the last path element that was taken. -/
def namexLoop (parent : Bool) :
    (fuel : Nat) → (path : List UInt8) → (ip : Ptr) → (name : List UInt8) →
      M (Option (Ptr × List UInt8))
  | 0, _, _, _ => return none
  | fuel + 1, path, ip, name => do
    match skipelem path with
    | none =>
      if parent then
        iput sb ip
        return none
      else return some (ip, name)
    | some (name, rest) =>
      ilock ip
      if (← copyOf ip).type ≠ .dir then
        iunlockput sb ip
        return none
      else if parent ∧ rest = [] then
        -- stop one level early
        iunlock ip
        return some (ip, name)
      else match ← dirlookup sb ip name with
        | none =>
          iunlockput sb ip
          return none
        | some (next, _) =>
          iunlockput sb ip
          namexLoop parent fuel rest next name

/-- Look up the inode for a path name, or its parent, for a process in the directory `cwd`. -/
def namex (cwd : Ptr) (path : List UInt8) (parent : Bool) : M (Option (Ptr × List UInt8)) := do
  let ip ← if path.head? = some slash then iget ROOTINO else idup cwd
  namexLoop sb parent (path.length + 1) path ip []

def namei (cwd : Ptr) (path : List UInt8) : M (Option Ptr) := do
  return (← namex sb cwd path false).map (·.1)

/-- The inode of the parent and the final path element. -/
def nameiparent (cwd : Ptr) (path : List UInt8) : M (Option (Ptr × List UInt8)) :=
  namex sb cwd path true

end Fs

end Xv6
