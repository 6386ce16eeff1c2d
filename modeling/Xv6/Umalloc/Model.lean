import Mathlib.Algebra.GroupWithZero.Nat
import Mathlib.Algebra.Group.Int.Defs
import Mathlib.Logic.Function.Basic

/-!
# `malloc` and `free`

The allocator of `umalloc.c` over addresses. Memory is seen as a header at each address; the program that
calls the allocator may write into the blocks it owns. `sbrk` is not modelled but answers: `none` for -1,
or an address. The loops are cut off after `fuel` rounds.
-/

namespace Xv6.Umalloc

/-- `sizeof(Header)` -/
abbrev HEADER : Nat := 16

/-- `union header`: the next block on the free list, and the size in units of the header. -/
structure Header where
  ptr : Nat
  size : Nat

structure Heap where
  hdr : Nat → Header
  /-- 0 before the first call -/
  freep : Nat
  /-- what `sbrk` has returned: addresses and sizes in units -/
  mem : List (Nat × Nat)

/-- Why a call does not return. -/
inductive Stuck where
  /-- a loop goes on -/
  | fuel
  /-- `sbrk` is called once more than it answers -/
  | sbrk
  deriving DecidableEq

namespace Heap

/-- `a->s.ptr = p` -/
def setPtr (h : Heap) (a p : Nat) : Heap :=
  { h with hdr := Function.update h.hdr a ⟨p, (h.hdr a).size⟩ }

/-- `a->s.size = n`; the field is a `uint` -/
def setSize (h : Heap) (a n : Nat) : Heap :=
  { h with hdr := Function.update h.hdr a ⟨(h.hdr a).ptr, n % 2 ^ 32⟩ }

/-- The block `a + a->s.size` -/
def stop (h : Heap) (a : Nat) : Nat := a + HEADER * (h.hdr a).size

/-- Where the loop of `free` stops: `bp` lies between `p` and the next block, or at one of the ends. -/
def between (h : Heap) (bp p : Nat) : Bool :=
  (p < bp && bp < (h.hdr p).ptr) || (p ≥ (h.hdr p).ptr && (p < bp || bp < (h.hdr p).ptr))

/-- The loop of `free`. -/
def seek (h : Heap) (bp : Nat) : (fuel p : Nat) → Except Stuck Nat
  | 0, _ => .error .fuel
  | fuel + 1, p => if h.between bp p then .ok p else h.seek bp fuel (h.hdr p).ptr

/-- `b` comes behind `a` on the free list: `a` takes the block `b` in where they touch, and is linked to
it otherwise. -/
def attach (h : Heap) (a b : Nat) : Heap :=
  if h.stop a = b then (h.setSize a ((h.hdr a).size + (h.hdr b).size)).setPtr a (h.hdr b).ptr
  else h.setPtr a b

def free (h : Heap) (fuel ap : Nat) : Except Stuck Heap := do
  let bp := ap - HEADER
  let p ← h.seek bp fuel h.freep
  let h := h.attach bp (h.hdr p).ptr
  return { h.attach p bp with freep := p }

/-- `morecore(nu)`; `none` for the null pointer. -/
def morecore (h : Heap) (fuel nu : Nat) (answer : Option Nat) : Except Stuck (Option Heap) := do
  let nu := if nu < 4096 then 4096 else nu
  match answer with
  | none => return none
  | some hp =>
    let h := { h with mem := (hp, nu) :: h.mem }
    return some (← (h.setSize hp nu).free fuel (hp + HEADER))

/-- `malloc` takes `nunits` units from the block `p`, which comes behind `prevp`. -/
def take (h : Heap) (nunits prevp p : Nat) : Heap × Nat :=
  if (h.hdr p).size = nunits then ({ h.setPtr prevp (h.hdr p).ptr with freep := prevp }, p + HEADER)
  else
    let h := h.setSize p ((h.hdr p).size - nunits)
    let p := h.stop p
    ({ h.setSize p nunits with freep := prevp }, p + HEADER)

/-- The loop of `malloc`; `answers` are those of `sbrk`. It returns the block, 0 if there is none, and the
answers that it has not used. -/
def mallocLoop (nunits : Nat) : (fuel : Nat) → Heap → (answers : List (Option Nat)) → (prevp p : Nat) →
    Except Stuck ((Heap × Nat) × List (Option Nat))
  | 0, _, _, _, _ => .error .fuel
  | fuel + 1, h, answers, prevp, p =>
    if (h.hdr p).size ≥ nunits then .ok (h.take nunits prevp p, answers)
    else if p = h.freep then
      match answers with
      | [] => .error .sbrk
      | answer :: answers => do
        match ← h.morecore fuel nunits answer with
        | none => return ((h, 0), answers)
        | some h => mallocLoop nunits fuel h answers h.freep (h.hdr h.freep).ptr
    else mallocLoop nunits fuel h answers p (h.hdr p).ptr

/-- `malloc` rounds up to units, and adds one for the header. -/
def units (nbytes : Nat) : Nat := (nbytes + HEADER - 1) / HEADER + 1

/-- The first call makes a list of the block `base`, whose size is 0. -/
def init (h : Heap) (base : Nat) : Heap :=
  if h.freep = 0 then { (h.setPtr base base).setSize base 0 with freep := base } else h

def malloc (h : Heap) (base fuel nbytes : Nat) (answers : List (Option Nat)) :
    Except Stuck ((Heap × Nat) × List (Option Nat)) :=
  let h := h.init base
  mallocLoop (units nbytes) fuel h answers h.freep (h.hdr h.freep).ptr

end Heap

end Xv6.Umalloc
