import Xv6.Vm.Translation

/-!
# User memory

The functions of `vm.c` that give a process its memory and take it away. A loop over addresses takes as
many rounds as there are bytes at most.
-/

namespace Xv6.Vm

/-- A number stored in an `int` and then passed as a `uint64`. -/
def signExtend (n : Nat) : Nat := if n % 2 ^ 32 < 2 ^ 31 then n % 2 ^ 32 else n % 2 ^ 32 + (2 ^ 64 - 2 ^ 32)

def uvmcreate : VmM (Option Nat) := do
  match ← kalloc with
  | none => return none
  | some pagetable =>
    memset pagetable 0
    return some pagetable

/-- Deallocate user pages to bring the process size from `oldsz` to `newsz`. -/
def uvmdealloc (pagetable oldsz newsz : Nat) : VmM Nat := do
  if oldsz ≤ newsz then return oldsz
  if pgroundup newsz < pgroundup oldsz then
    uvmunmap pagetable (pgroundup newsz) (signExtend ((pgroundup oldsz - pgroundup newsz) / PGSIZE)) true
  return newsz

def uvmallocLoop (pagetable oldsz newsz xperm : Nat) : (fuel a : Nat) → VmM Nat
  | 0, _ => return newsz
  | fuel + 1, a =>
    if a < newsz then do
      match ← kalloc with
      | none =>
        let _ ← uvmdealloc pagetable a oldsz
        return 0
      | some mem =>
        memset mem 0
        if (← mappages pagetable a PGSIZE mem (PTE_R ||| PTE_U ||| xperm)) ≠ 0 then
          kfree mem
          let _ ← uvmdealloc pagetable a oldsz
          return 0
        uvmallocLoop pagetable oldsz newsz xperm fuel ((a + PGSIZE) % 2 ^ 64)
    else return newsz

/-- Allocate PTEs and physical memory to grow a process from `oldsz` to `newsz`; 0 on error. -/
def uvmalloc (pagetable oldsz newsz xperm : Nat) : VmM Nat := do
  if newsz < oldsz then return oldsz
  uvmallocLoop pagetable (pgroundup oldsz) newsz xperm newsz (pgroundup oldsz)

/-- A round of the loop of `freewalk`; `freeChild` is the recursive call. -/
def freewalkEntry (freeChild : Nat → VmM Unit) (pagetable : Nat) (i : Fin 512) : VmM Unit := do
  let pte ← load (pagetable, i)
  if pte &&& PTE_V ≠ 0 ∧ pte &&& (PTE_R ||| PTE_W ||| PTE_X) = 0 then
    freeChild (pte2pa pte)
    store (pagetable, i) 0
  else if pte &&& PTE_V ≠ 0 then throw .freewalkLeaf

/-- The loop of `freewalk`. A check up to unfolding must not run its 512 rounds. -/
@[irreducible] def freewalkLoop (freeChild : Nat → VmM Unit) (pagetable : Nat) : VmM Unit :=
  (List.finRange 512).forM (freewalkEntry freeChild pagetable)

/-- Free the pages of a page table. The source does not know the level: it goes down as long as an entry
looks like a pointer. With an entry that points below a table of level 0 the model fails. -/
def freewalk : (depth pagetable : Nat) → VmM Unit
  | 0, _ => throw .freewalkLeaf
  | depth + 1, pagetable => do
    freewalkLoop (freewalk depth) pagetable
    kfree pagetable

/-- Free user memory pages, then free page-table pages. -/
def uvmfree (pagetable sz : Nat) : VmM Unit := do
  if 0 < sz then uvmunmap pagetable 0 (pgroundup sz / PGSIZE) true
  freewalk 3 pagetable

/-- `memmove(mem, pa, PGSIZE)` -/
def copyPage (mem pa : Nat) : VmM Unit :=
  modify fun s => { s with page := Function.update s.page mem (s.page pa) }

def uvmcopyLoop (old new sz : Nat) : (fuel i : Nat) → VmM Int
  | 0, _ => return 0
  | fuel + 1, i =>
    if i < sz then do
      match ← walk old i false with
      | none => throw .uvmcopyPte
      | some pte =>
        let w ← load pte
        if w &&& PTE_V = 0 then throw .uvmcopyNotPresent
        match ← kalloc with
        | none =>
          uvmunmap new 0 (i / PGSIZE) true
          return -1
        | some mem =>
          copyPage mem (pte2pa w)
          if (← mappages new i PGSIZE mem (pteFlags w)) ≠ 0 then
            kfree mem
            uvmunmap new 0 (i / PGSIZE) true
            return -1
          uvmcopyLoop old new sz fuel ((i + PGSIZE) % 2 ^ 64)
    else return 0

/-- Copy the memory of a process into the page table `new`. -/
def uvmcopy (old new sz : Nat) : VmM Int := uvmcopyLoop old new sz sz 0

end Xv6.Vm
