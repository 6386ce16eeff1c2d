import Xv6.Fs.Syscalls
import Xv6.Lib.Wp

/-!
# The file system with open files and processes

`open` and `write`, which work on the file table and on the descriptors and current directories of the
processes `P`.
-/

namespace Xv6

open Function

/-- The field `type` of `struct file`. -/
inductive FdType where
  | none | pipe | inode | device
  deriving DecidableEq, Repr

namespace Fs

/-- `struct file`. -/
structure OpenFile where
  type : FdType
  ref : Nat
  readable : Bool
  writable : Bool
  ip : Ptr
  off : Nat
  major : Int16

/-- What a process holds. -/
structure FsProc where
  /-- the process is neither unused nor a zombie -/
  live : Bool
  cwd : Ptr
  ofile : Fin NOFILE → Option (Fin NFILE)

end Fs

structure Sys (P : Type) where
  fs : Fs
  ftable : Fin NFILE → Fs.OpenFile
  proc : P → Fs.FsProc

namespace Sys

open Fs (Panic Ptr OpenFile FsProc)

variable {P : Type} [DecidableEq P] (sb : Superblock)

abbrev SysM (P : Type) : Type → Type := StateT (Sys P) (Except Panic)

/-- Code that works on the file system only. -/
def lift {α : Type} (f : Fs.M α) : SysM P α := Wp.zoom fs (fun s t => { s with fs := t }) f

def setFile (s : Sys P) (f : Fin NFILE) (x : OpenFile) : Sys P :=
  { s with ftable := update s.ftable f x }

def setProc (s : Sys P) (p : P) (x : FsProc) : Sys P :=
  { s with proc := update s.proc p x }

/-- `p->ofile[fd] = v` -/
def setFd (s : Sys P) (p : P) (fd : Fin NOFILE) (v : Option (Fin NFILE)) : Sys P :=
  s.setProc p { s.proc p with ofile := update (s.proc p).ofile fd v }

/-! ## Open files -/

/-- Allocate a file structure. -/
def filealloc : SysM P (Option (Fin NFILE)) := do
  let s ← get
  match (List.finRange NFILE).find? fun f => (s.ftable f).ref = 0 with
  | some f =>
    modify fun s => s.setFile f { s.ftable f with ref := 1 }
    return some f
  | none => return none

/-- Allocate a file descriptor for the given file. -/
def fdalloc (p : P) (f : Fin NFILE) : SysM P (Option (Fin NOFILE)) := do
  let s ← get
  match (List.finRange NOFILE).find? fun fd => (s.proc p).ofile fd = none with
  | some fd =>
    modify fun s => s.setFd p fd (some f)
    return some fd
  | none => return none

def fileclose (f : Fin NFILE) : SysM P Unit := do
  let ff := (← get).ftable f
  if ff.ref < 1 then throw .fileclose
  else if 0 < ff.ref - 1 then modify fun s => s.setFile f { ff with ref := ff.ref - 1 }
  else
    modify fun s => s.setFile f { ff with ref := 0, type := .none }
    if ff.type = .inode ∨ ff.type = .device then
      lift do
        Fs.beginOp
        Fs.iput sb ff.ip
        Fs.endOp
    else pure ()

def writeMax : Nat := (MAXOPBLOCKS - 1 - 1 - 2) / 2 * BSIZE

/-- A `writei` in a transaction of its own. -/
def writeChunk (ip : Ptr) (src : Nat → Option UInt8) (off n : Nat) : Fs.M (Option Nat) := do
  Fs.beginOp
  Fs.ilock ip
  let r ← Fs.writei sb ip src off n
  Fs.iunlock ip
  Fs.endOp
  return r

/-- The loop of `filewrite`; `src` is the user's buffer. It returns `i` at its end. -/
def filewriteLoop (f : Fin NFILE) (src : Nat → Option UInt8) : (fuel i n : Nat) → SysM P Nat
  | 0, i, _ => return i
  | fuel + 1, i, n => do
    if i < n then
      let n1 := min (n - i) writeMax
      let ff := (← get).ftable f
      let r ← lift (writeChunk sb ff.ip (fun j => src (i + j)) ff.off n1)
      modify fun s => s.setFile f { s.ftable f with off := ff.off + r.getD 0 }
      if r = some n1 then filewriteLoop f src fuel (i + n1) n else return i
    else return i

/-- Write `n` bytes to file `f`; `dev` is what a device or a pipe returns. -/
def filewrite (f : Fin NFILE) (src : Nat → Option UInt8) (n dev : Int) : SysM P Int := do
  let ff := (← get).ftable f
  if !ff.writable then return -1
  else match ff.type with
    | .inode =>
      let i ← filewriteLoop sb f src n.toNat 0 n.toNat
      return if (i : Int) = n then n else -1
    | .device | .pipe => return dev
    | .none => throw .filewrite

/-! ## Calls -/

/-- The argument `omode` of `sys_open`. -/
structure Omode where
  bits : UInt32

def Omode.creates (m : Omode) : Bool := m.bits &&& 0x200 ≠ 0

def Omode.truncates (m : Omode) : Bool := m.bits &&& 0x400 ≠ 0

def Omode.rdonly (m : Omode) : Bool := m.bits = 0

def Omode.readable (m : Omode) : Bool := m.bits &&& 0x1 = 0

def Omode.writable (m : Omode) : Bool := m.bits &&& 0x1 ≠ 0 ∨ m.bits &&& 0x2 ≠ 0

/-- `sys_open` when no file or no descriptor is free. -/
def openFail (ip : Ptr) : SysM P Unit := lift do
  Fs.iunlockput sb ip
  Fs.endOp

/-- `sys_open` with the inode `ip` and a file and a descriptor for it. -/
def openFile (f : Fin NFILE) (ip : Ptr) (m : Omode) : SysM P Unit := do
  let d ← lift (Fs.copyOf ip)
  modify fun s => s.setFile f { s.ftable f with
    type := if d.type = .device then .device else .inode
    major := if d.type = .device then d.major else (s.ftable f).major
    off := if d.type = .device then (s.ftable f).off else 0
    ip := ip
    readable := m.readable
    writable := m.writable }
  lift do
    if m.truncates ∧ d.type = .file then Fs.itrunc sb ip else pure ()
    Fs.iunlock ip
    Fs.endOp

/-- The descriptor, or `none` for -1. -/
def sysOpen (p : P) (path : Option (List UInt8)) (m : Omode) : SysM P (Option (Fin NOFILE)) := do
  match Fs.argstr path with
  | none => return none
  | some path =>
    lift Fs.beginOp
    match ← lift (Fs.openInode sb ((← get).proc p).cwd path m.creates m.rdonly) with
    | none =>
      lift Fs.endOp
      return none
    | some ip =>
      let d ← lift (Fs.copyOf ip)
      if d.type = .device ∧ (d.major < 0 ∨ Int16.ofNat NDEV ≤ d.major) then
        openFail sb ip
        return none
      else match ← filealloc with
        | none =>
          openFail sb ip
          return none
        | some f => match ← fdalloc p f with
          | none =>
            fileclose sb f
            openFail sb ip
            return none
          | some fd =>
            openFile sb f ip m
            return some fd

/-- After `userinit` on the disk `st`: the process `init` is in the root directory. -/
def boot (st : Fs.Store) (init : P) : Sys P where
  fs := {
    store := st
    itable ip := if ip = 0 then ⟨ROOTINO, 1, false, false, .zero .free⟩ else ⟨0, 0, false, false, .zero .free⟩
    trans := none
    trace := [] }
  ftable _ := ⟨.none, 0, false, false, 0, 0, 0⟩
  proc p := ⟨decide (p = init), 0, fun _ => none⟩

end Sys

end Xv6
