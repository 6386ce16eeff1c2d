import Xv6.Param
import Xv6.Proc.Table
import Xv6.Vm.User

/-!
# Processes and their memory

The functions of `proc.c` that create a process, give it memory and free it, run by one process at a time:
the locks are left out. A slot has the fields of `struct proc` of `Xv6.Proc.Table` and those that are private
to the process. A null pointer is the number 0.
-/

namespace Xv6.Kern

open Function Vm

/-- `struct proc`, with the private fields. `ofile` and `cwd` name entries of the file and the inode table;
`name` is the string in the array. -/
structure Task extends Proc NPROC where
  sz : Nat
  pagetable : Nat
  trapframe : Nat
  ofile : Fin NOFILE → Option Nat
  cwd : Nat
  name : List UInt8

structure Kernel where
  mem : Mem
  proc : Fin NPROC → Task
  nextpid : Int32
  /-- `ref` of the entries of the file table -/
  fileRef : Nat → Nat
  /-- `ref` of the entries of the inode table -/
  inodeRef : Nat → Nat
  /-- the page of `trampoline.S` -/
  trampoline : Nat

abbrev KernM : Type → Type := StateT Kernel (Except Panic)

/-- A function of `vm.c` or `kalloc.c`. -/
def onMem {α : Type} (f : VmM α) : KernM α := Wp.zoom Kernel.mem (fun k s => { k with mem := s }) f

def modifyProc (i : Fin NPROC) (f : Task → Task) : KernM Unit :=
  modify fun k => { k with proc := update k.proc i (f (k.proc i)) }

/-- Create a user page table for a given process, with no user memory, but with trampoline and trapframe
pages. -/
def procPagetable (trapframe trampoline : Nat) : VmM (Option Nat) := do
  match ← uvmcreate with
  | none => return none
  | some pagetable =>
    if (← mappages pagetable TRAMPOLINE PGSIZE trampoline (PTE_R ||| PTE_X)) < 0 then
      uvmfree pagetable 0
      return none
    if (← mappages pagetable TRAPFRAME PGSIZE trapframe (PTE_R ||| PTE_W)) < 0 then
      uvmunmap pagetable TRAMPOLINE 1 false
      uvmfree pagetable 0
      return none
    return some pagetable

/-- Free a process's page table, and free the physical memory it refers to. -/
def procFreepagetable (pagetable sz : Nat) : VmM Unit := do
  uvmunmap pagetable TRAMPOLINE 1 false
  uvmunmap pagetable TRAPFRAME 1 false
  uvmfree pagetable sz

/-- Free a proc structure and the data hanging from it, including user pages. -/
def freeproc (i : Fin NPROC) : KernM Unit := do
  let p := (← get).proc i
  if p.trapframe ≠ 0 then onMem (kfree p.trapframe)
  modifyProc i fun p => { p with trapframe := 0 }
  if p.pagetable ≠ 0 then onMem (procFreepagetable p.pagetable p.sz)
  modifyProc i fun p => { p with toProc := p.toProc.freeproc, pagetable := 0, sz := 0, name := [] }

/-- `allocproc`; `none` for the null pointer. -/
def allocproc : KernM (Option (Fin NPROC)) := do
  let k ← get
  match (List.finRange NPROC).find? fun i => (k.proc i).state = .UNUSED with
  | none => return none
  | some i =>
    modify fun k => { k with nextpid := k.nextpid + 1 }
    modifyProc i fun p => { p with toProc := p.toProc.found k.nextpid }
    match ← onMem kalloc with
    | none =>
      freeproc i
      return none
    | some trapframe =>
      modifyProc i fun p => { p with trapframe := trapframe }
      match ← onMem (procPagetable trapframe k.trampoline) with
      | none =>
        freeproc i
        return none
      | some pagetable =>
        modifyProc i fun p => { p with pagetable := pagetable }
        return some i

/-- The words of `struct trapframe`, and the place of `a0` in it. -/
def trapframeWords : Nat := 36
def wordA0 : Fin 512 := ⟨14, by decide⟩

/-- `*(np->trapframe) = *(p->trapframe)` -/
def copyTrapframe (dst from_ : Nat) : VmM Unit :=
  modify fun s =>
    let row i := if i.val < trapframeWords then s.page from_ i else s.page dst i
    { s with page := update s.page dst row }

def filedup (f : Nat) : KernM Unit := do
  let k ← get
  if k.fileRef f < 1 then throw .filedup
  modify fun k => { k with fileRef := update k.fileRef f (k.fileRef f + 1) }

def idup (ip : Nat) : KernM Unit :=
  modify fun k => { k with inodeRef := update k.inodeRef ip (k.inodeRef ip + 1) }

/-- A round of the loop of `fork` over the open files. -/
def dupFile (p np : Fin NPROC) (i : Fin NOFILE) : KernM Unit := do
  match ((← get).proc p).ofile i with
  | none => return
  | some f =>
    filedup f
    modifyProc np fun q => { q with ofile := update q.ofile i (some f) }

/-- Create a new process, copying the parent `p`. -/
def fork (p : Fin NPROC) : KernM Int := do
  match ← allocproc with
  | none => return -1
  | some np =>
    let k ← get
    if (← onMem (uvmcopy (k.proc p).pagetable (k.proc np).pagetable (k.proc p).sz)) < 0 then
      freeproc np
      return -1
    modifyProc np fun q => { q with sz := (k.proc p).sz }
    onMem (copyTrapframe (k.proc np).trapframe (k.proc p).trapframe)
    onMem (store ((k.proc np).trapframe, wordA0) 0)
    (List.finRange NOFILE).forM (dupFile p np)
    idup (k.proc p).cwd
    modifyProc np fun q => { q with cwd := (k.proc p).cwd, name := (k.proc p).name }
    let pid := ((← get).proc np).pid
    modifyProc np fun q => { q with parent := some p }
    modifyProc np fun q => { q with state := .RUNNABLE }
    return pid.toInt

/-- Grow or shrink user memory by `n` bytes. -/
def growproc (i : Fin NPROC) (n : Int) : KernM Int := do
  let p := (← get).proc i
  let newsz := ((p.sz + n) % 2 ^ 64).toNat
  if 0 < n then
    let sz ← onMem (uvmalloc p.pagetable p.sz newsz PTE_W)
    if sz = 0 then return -1
    modifyProc i fun p => { p with sz := sz }
  else if n < 0 then
    let sz ← onMem (uvmdealloc p.pagetable p.sz newsz)
    modifyProc i fun p => { p with sz := sz }
  return 0

end Xv6.Kern
