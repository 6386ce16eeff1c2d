import Xv6.Fs.State

/-!
# Blocks and inode contents

`balloc`, `bfree`, `iupdate`, `bmap`, `itrunc`, `readi` and `writei` of `fs.c`. The buffers are those of
the disk as the cache shows it, so `bread` and `brelse` do not appear.
-/

namespace Xv6

open Function

namespace Block

def slice (b : Block) (o m : Nat) : List UInt8 := (List.range m).map fun j => b.byte (o + j)

/-- The byte at `j` of memory that is read from 0 on; reading stops at the first byte that is not mapped. -/
def upTo (src : Nat → Option UInt8) (j : Nat) : Option UInt8 :=
  if ∀ j' < j, (src j').isSome then src j else none

/-- `m` bytes of `src` are copied to offset `o`, up to the first that is not mapped. -/
def patch (b : Block) (o m : Nat) (src : Nat → Option UInt8) : Block := fun i =>
  if o ≤ i.val ∧ i.val < o + m then (upTo src (i.val - o)).getD (b i) else b i

theorem byte_patch (b : Block) (o m : Nat) (src : Nat → Option UInt8) {x : Nat} (hx : x < BSIZE) :
    (b.patch o m src).byte x =
      if o ≤ x ∧ x < o + m then (upTo src (x - o)).getD (b.byte x) else b.byte x := by
  simp only [byte, hx, dif_pos, patch]

theorem upTo_of_isSome {src : Nat → Option UInt8} {m j : Nat} (h : ∀ j < m, (src j).isSome) (hj : j < m) :
    upTo src j = src j := if_pos fun j' hj' => h j' (hj'.trans hj)

end Block

namespace Fs

variable (sb : Superblock)

def setBit (b : Nat) (v : Bool) : M Unit :=
  modify fun s => s.setStore { s.store with bitmap := update s.store.bitmap b v }

def setData (b : Nat) (x : Block) : M Unit :=
  modify fun s => s.setStore { s.store with data := update s.store.data b x }

def bzero (bno : Nat) : M Unit := do
  setData bno .zero
  logWrite sb bno

def balloc : M Nat := do
  let s ← get
  match (List.range sb.size).find? fun b => !s.store.bitmap b with
  | some b =>
    setBit b true
    logWrite sb (sb.bblock b)
    bzero sb b
    return b
  | none => return 0

def bfree (b : Nat) : M Unit := do
  if !(← get).store.bitmap b then throw .freeingFreeBlock
  else
    setBit b false
    logWrite sb (sb.bblock b)

/-- Copy a modified in-memory inode to disk. -/
def iupdate (ip : Ptr) : M Unit := do
  modify fun s => s.setStore { s.store with
    dinode := update s.store.dinode (s.itable ip).inum (s.itable ip).copy }
  logWrite sb (sb.iblock ((← get).itable ip).inum)

/-- `ip->addrs[k] = addr` -/
def setAddr (ip : Ptr) (k : Fin (NDIRECT + 1)) (addr : Nat) : M Unit :=
  assign ip fun d => { d with addrs := update d.addrs k addr }

/-- `ip->addrs[k]`, allocated if it is 0. -/
def addrOrAlloc (ip : Ptr) (k : Fin (NDIRECT + 1)) : M Nat := do
  let addr := (← copyOf ip).addrs k
  if addr = 0 then
    let addr ← balloc sb
    if addr = 0 then return 0
    else
      setAddr ip k addr
      return addr
  else return addr

/-- The disk block address of the `bn`th block in inode `ip`, allocated if there is no such block; 0 if
out of disk space. -/
def bmap (ip : Ptr) (bn : Nat) : M Nat := do
  if h : bn < NDIRECT then addrOrAlloc sb ip ⟨bn, by omega⟩
  else if bn - NDIRECT < NINDIRECT then
    let ind ← addrOrAlloc sb ip (Fin.last NDIRECT)
    if ind = 0 then return 0
    else
      let addr := (((← get).store.data ind).getUint (4 * (bn - NDIRECT))).toNat
      if addr = 0 then
        let addr ← balloc sb
        if addr = 0 then return 0
        else
          setData ind (((← get).store.data ind).setUint (4 * (bn - NDIRECT)) (UInt32.ofNat addr))
          logWrite sb ind
          return addr
      else return addr
  else throw .bmapOutOfRange

/-- One round of the first loop of `itrunc`. -/
def truncDirect (ip : Ptr) (i : Fin NDIRECT) : M Unit := do
  let addr := (← copyOf ip).addrs i.castSucc
  if addr ≠ 0 then
    bfree sb addr
    setAddr ip i.castSucc 0
  else pure ()

/-- One round of the second loop of `itrunc`; `a` is the indirect block. -/
def truncIndirect (a : Block) (j : Nat) : M Unit := do
  if (a.getUint (4 * j)).toNat ≠ 0 then bfree sb (a.getUint (4 * j)).toNat else pure ()

/-- Truncate inode (discard contents). -/
def itrunc (ip : Ptr) : M Unit := do
  (List.finRange NDIRECT).forM (truncDirect sb ip)
  let ind := (← copyOf ip).addrs (Fin.last NDIRECT)
  if ind ≠ 0 then
    (List.range NINDIRECT).forM (truncIndirect sb ((← get).store.data ind))
    bfree sb ind
    setAddr ip (Fin.last NDIRECT) 0
  else pure ()
  assign ip fun d => { d with size := 0 }
  iupdate sb ip

/-- The loop of `readi`; `acc` has been read, and `copyout tot` says whether `either_copyout` of the bytes
from `tot` on succeeds. -/
def readiLoop (ip : Ptr) (copyout : Nat → Bool) :
    (fuel tot off n : Nat) → (acc : List UInt8) → M (Option (List UInt8))
  | 0, _, _, _, acc => return some acc
  | fuel + 1, tot, off, n, acc => do
    if tot < n then
      let addr ← bmap sb ip (off / BSIZE)
      if addr = 0 then return some acc
      else
        let m := min (n - tot) (BSIZE - off % BSIZE)
        if copyout tot then
          readiLoop ip copyout fuel (tot + m) (off + m) n
            (acc ++ ((← get).store.data addr).slice (off % BSIZE) m)
        else return none
    else return some acc

/-- Read `n` bytes at `off`: the bytes, or `none` for -1. -/
def readi (ip : Ptr) (copyout : Nat → Bool) (off n : Nat) : M (Option (List UInt8)) := do
  let size := (← copyOf ip).size
  if size < off ∨ (off + n) % 2 ^ 32 < off then return some []
  else
    let n := if size < off + n then size - off else n
    readiLoop sb ip copyout n 0 off n []

/-- The loop of `writei`: how much has been written, and where it stopped. -/
def writeiLoop (ip : Ptr) (src : Nat → Option UInt8) :
    (fuel tot off n : Nat) → M (Nat × Nat)
  | 0, tot, off, _ => return (tot, off)
  | fuel + 1, tot, off, n => do
    if tot < n then
      let addr ← bmap sb ip (off / BSIZE)
      if addr = 0 then return (tot, off)
      else
        let m := min (n - tot) (BSIZE - off % BSIZE)
        -- either_copyin
        setData addr (((← get).store.data addr).patch (off % BSIZE) m fun j => src (tot + j))
        if ∀ j < m, (src (tot + j)).isSome then
          logWrite sb addr
          writeiLoop ip src fuel (tot + m) (off + m) n
        else return (tot, off)
    else return (tot, off)

/-- Write `n` bytes of `src` at `off`: the number of bytes written, or `none` for -1. -/
def writei (ip : Ptr) (src : Nat → Option UInt8) (off n : Nat) : M (Option Nat) := do
  let size := (← copyOf ip).size
  if size < off ∨ (off + n) % 2 ^ 32 < off then return none
  else if MAXFILE * BSIZE < off + n then return none
  else
    let (tot, off) ← writeiLoop sb ip src n 0 off n
    assign ip fun d => if d.size < off then { d with size := off } else d
    iupdate sb ip
    return some tot

end Fs

end Xv6
