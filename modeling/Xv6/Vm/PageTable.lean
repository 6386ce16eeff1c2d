import Mathlib.Logic.Function.Basic
import Xv6.Lib.Radix
import Xv6.Lib.Wp

/-!
# Page tables

Physical memory, the page allocator of `kalloc.c`, and the functions of `vm.c` that work on a page table.
A page is named by its address and holds 512 words of 64 bits; a page-table entry is a word, with the
packing of `riscv.h`, and a pointer to one is a page and an index. The free list is a list; the links that
`kalloc.c` keeps inside the free pages are not modelled.
-/

namespace Xv6.Vm

abbrev PGSIZE : Nat := 4096

def PTE_V : Nat := 1 <<< 0
def PTE_R : Nat := 1 <<< 1
def PTE_W : Nat := 1 <<< 2
def PTE_X : Nat := 1 <<< 3
def PTE_U : Nat := 1 <<< 4

abbrev MAXVA : Nat := 1 <<< 38
abbrev KERNBASE : Nat := 0x80000000
abbrev PHYSTOP : Nat := KERNBASE + 128 * 1024 * 1024
abbrev TRAMPOLINE : Nat := MAXVA - PGSIZE
abbrev TRAPFRAME : Nat := TRAMPOLINE - PGSIZE

/-- `PA2PTE` -/
def pa2pte (pa : Nat) : Nat := (pa >>> 12) <<< 10

/-- `PTE2PA` -/
def pte2pa (pte : Nat) : Nat := ((pte >>> 10) <<< 12) % 2 ^ 64

/-- `PTE_FLAGS` -/
def pteFlags (pte : Nat) : Nat := pte &&& 0x3FF

/-- `PX` -/
def px (level va : Nat) : Fin 512 := ⟨(va >>> (12 + 9 * level)) &&& 0x1FF, Nat.lt_succ_of_le Nat.and_le_right⟩

/-- `PGROUNDUP`, on 64 bits -/
def pgroundup (sz : Nat) : Nat := (sz + (PGSIZE - 1)) % 2 ^ 64 / PGSIZE * PGSIZE

/-- What stops the kernel. -/
inductive Panic where
  | kfree | walk
  | mappagesVa | mappagesSize | mappagesSizeZero | mappagesRemap
  | uvmunmapNotAligned | uvmunmapWalk | uvmunmapNotMapped | uvmunmapNotLeaf
  | freewalkLeaf | uvmcopyPte | uvmcopyNotPresent | uvmclear | loadseg
  | filedup
  deriving DecidableEq, Repr

structure Mem where
  page : Nat → Fin 512 → Nat
  /-- `kmem.freelist` -/
  freelist : List Nat
  /-- the next calls of `kalloc` that find the list empty although it is not, since others hold its pages
  for a while -/
  deny : List Bool
  /-- the symbol `end` -/
  kend : Nat

abbrev VmM : Type → Type := StateT Mem (Except Panic)

/-- `*pte` -/
def load (pte : Nat × Fin 512) : VmM Nat := do
  return (← get).page pte.1 pte.2

/-- `*pte = w` -/
def store (pte : Nat × Fin 512) (w : Nat) : VmM Unit :=
  modify fun s => { s with page := Radix.put s.page pte w }

/-- `memset(pa, c, PGSIZE)` -/
def memset (pa c : Nat) : VmM Unit :=
  modify fun s => { s with page := Function.update s.page pa fun _ => c * 0x0101010101010101 }

def kfree (pa : Nat) : VmM Unit := do
  let s ← get
  if pa % PGSIZE ≠ 0 ∨ pa < s.kend ∨ PHYSTOP ≤ pa then throw .kfree
  memset pa 1
  modify fun s => { s with freelist := pa :: s.freelist }

/-- `kalloc`; `none` for the null pointer. -/
def kalloc : VmM (Option Nat) := do
  let s ← get
  set { s with deny := s.deny.tail }
  match s.deny.head?, s.freelist with
  | some true, _ => return none
  | _, [] => return none
  | _, r :: rest =>
    modify fun s => { s with freelist := rest }
    memset r 5
    return some r

/-- The loop of `walk`. -/
def walkFrom (va : Nat) (alloc : Bool) : (level pagetable : Nat) → VmM (Option (Nat × Fin 512))
  | 0, pagetable => return some (pagetable, px 0 va)
  | level + 1, pagetable => do
    let pte := (pagetable, px (level + 1) va)
    let w ← load pte
    if w &&& PTE_V ≠ 0 then walkFrom va alloc level (pte2pa w)
    else if !alloc then return none
    else
      match ← kalloc with
      | none => return none
      | some pagetable =>
        memset pagetable 0
        store pte (pa2pte pagetable ||| PTE_V)
        walkFrom va alloc level pagetable

/-- `walk`; `none` for the null pointer. -/
def walk (pagetable va : Nat) (alloc : Bool) : VmM (Option (Nat × Fin 512)) := do
  if MAXVA ≤ va then throw .walk
  walkFrom va alloc 2 pagetable

/-- `walkaddr`; `none` for 0. -/
def walkaddr (pagetable va : Nat) : VmM (Option Nat) := do
  if MAXVA ≤ va then return none
  match ← walk pagetable va false with
  | none => return none
  | some pte =>
    let w ← load pte
    if w &&& PTE_V = 0 then return none
    if w &&& PTE_U = 0 then return none
    if pte2pa w = 0 then return none
    return some (pte2pa w)

/-- The loop of `mappages`; `n` rounds lead from `a` to `last`. -/
def mapFrom (pagetable last perm : Nat) : (n a pa : Nat) → VmM Int
  | 0, _, _ => return 0
  | n + 1, a, pa => do
    match ← walk pagetable a true with
    | none => return -1
    | some pte =>
      if (← load pte) &&& PTE_V ≠ 0 then throw .mappagesRemap
      store pte (pa2pte pa ||| perm ||| PTE_V)
      if a = last then return 0
      mapFrom pagetable last perm n ((a + PGSIZE) % 2 ^ 64) ((pa + PGSIZE) % 2 ^ 64)

def mappages (pagetable va size pa perm : Nat) : VmM Int := do
  if va % PGSIZE ≠ 0 then throw .mappagesVa
  if size % PGSIZE ≠ 0 then throw .mappagesSize
  if size = 0 then throw .mappagesSizeZero
  mapFrom pagetable ((va + size - PGSIZE) % 2 ^ 64) perm (size / PGSIZE) va pa

/-- The loop of `uvmunmap`; `n` rounds lead from `a` to `bound`. -/
def unmapFrom (pagetable bound : Nat) (do_free : Bool) : (n a : Nat) → VmM Unit
  | 0, _ => return
  | n + 1, a =>
    if a < bound then do
      match ← walk pagetable a false with
      | none => throw .uvmunmapWalk
      | some pte =>
        let w ← load pte
        if w &&& PTE_V = 0 then throw .uvmunmapNotMapped
        if pteFlags w = PTE_V then throw .uvmunmapNotLeaf
        if do_free then kfree (pte2pa w)
        store pte 0
        unmapFrom pagetable bound do_free n ((a + PGSIZE) % 2 ^ 64)
    else return

def uvmunmap (pagetable va npages : Nat) (do_free : Bool) : VmM Unit := do
  if va % PGSIZE ≠ 0 then throw .uvmunmapNotAligned
  unmapFrom pagetable ((va + npages * PGSIZE) % 2 ^ 64) do_free npages va

end Xv6.Vm
