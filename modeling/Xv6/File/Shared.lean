import Mathlib.Logic.Function.Basic
import Xv6.Fs.System
import Xv6.Lib.Run

/-!
# Writers that share a `struct file`

`filewrite` of any number of processes on one `struct file` for an inode, statement by statement. `f->off`
is read when `writei` is called and moved on after it returns; the processes meet in `ilock`, and `begin_op`,
`end_op` and the disk only delay them.
-/

namespace Xv6

/-- A call of `filewrite`; `id` tells the calls apart, `src` is the user's buffer. -/
structure WriteCall where
  id : Nat
  src : Nat → Option UInt8
  n : Int

/-- Where a process is in `filewrite`, right before the statement that the position is named after. `i` is
the local variable, `n1` the length of the chunk, `start` the offset that was passed to `writei`. -/
inductive WritePos where
  /-- any other code -/
  | out
  /-- `while(i < n)` -/
  | loop (c : WriteCall) (i : Nat)
  | beginOp (c : WriteCall) (i n1 : Nat)
  | ilock (c : WriteCall) (i n1 : Nat)
  /-- the call of `writei`, up to its loop -/
  | writei (c : WriteCall) (i n1 : Nat)
  /-- the loop of `writei` -/
  | copy (c : WriteCall) (i n1 start tot : Nat)
  /-- `if(off > ip->size) ip->size = off; iupdate(ip)` -/
  | update (c : WriteCall) (i n1 start tot : Nat)
  /-- `r > 0` and the load of `f->off` in `f->off += r` -/
  | load (c : WriteCall) (i n1 start r : Nat)
  /-- the store of `f->off`, of which `v` was loaded -/
  | store (c : WriteCall) (i n1 start r v : Nat)
  /-- `iunlock(f->ip)`; `r` is what `writei` returned -/
  | iunlock (c : WriteCall) (i n1 : Nat) (r : Option Nat)
  | endOp (c : WriteCall) (i n1 : Nat) (r : Option Nat)
  /-- `return ret`, which is `r`; `done` bytes have been written -/
  | ret (c : WriteCall) (done : Nat) (r : Int)

/-- A chunk that has moved the offset: the bytes from `pos` on of a call, written at `off`. -/
structure WriteChunk where
  call : WriteCall
  pos : Nat
  off : Nat
  len : Nat

/-- The file and the processes `P`. -/
structure SharedFile (P : Type) where
  /-- `f->off` -/
  off : Nat
  /-- `ip->size` -/
  size : Nat
  /-- the contents of the inode -/
  data : Nat → UInt8
  /-- the holder of `ip->lock` -/
  holder : Option P
  pos : P → WritePos
  /-- the number of calls so far -/
  calls : Nat
  /-- the chunks so far, in the order in which they moved the offset -/
  chunks : List WriteChunk
  /-- the calls that have returned, with their results -/
  returned : List (WriteCall × Int)

inductive WriteAct (P : Type) where
  /-- `p` calls `filewrite` -/
  | call (p : P) (src : Nat → Option UInt8) (n : Int)
  /-- the next step of `p`; `full` says that a `bmap` in it finds no free block -/
  | step (p : P) (full : Bool)

namespace SharedFile

variable {P : Type} [DecidableEq P]

def goto (s : SharedFile P) (p : P) (pos : WritePos) : SharedFile P :=
  { s with pos := Function.update s.pos p pos }

/-- The contents after `either_copyin` of `m` bytes at `off`, up to the first that is not mapped. -/
def copyin (data : Nat → UInt8) (src : Nat → Option UInt8) (off m : Nat) : Nat → UInt8 := fun o =>
  if off ≤ o ∧ o < off + m then (Block.upTo src (o - off)).getD (data o) else data o

/-- One round of the loop of `writei`. -/
def copyBlock (s : SharedFile P) (p : P) (full : Bool) (c : WriteCall) (i n1 start tot : Nat) :
    SharedFile P :=
  if tot < n1 ∧ full = false then
    let m := min (n1 - tot) (BSIZE - (start + tot) % BSIZE)
    let data := copyin s.data (fun j => c.src (i + tot + j)) (start + tot) m
    if ∀ j < m, (c.src (i + tot + j)).isSome then
      goto { s with data := data } p (.copy c i n1 start (tot + m))
    else goto { s with data := data } p (.update c i n1 start tot)
  else s.goto p (.update c i n1 start tot)

/-- The next step of the process `p`. -/
def act (s : SharedFile P) (p : P) (full : Bool) : Option (SharedFile P) :=
  match s.pos p with
  | .out => none
  | .loop c i =>
    if (i : Int) < c.n then s.goto p (.beginOp c i (min (c.n - i).toNat Sys.writeMax))
    else s.goto p (.ret c i (if (i : Int) = c.n then c.n else -1))
  | .beginOp c i n1 => s.goto p (.ilock c i n1)
  | .ilock c i n1 =>
    if s.holder = none then some <| goto { s with holder := some p } p (.writei c i n1) else none
  | .writei c i n1 =>
    if s.size < s.off ∨ (s.off + n1) % 2 ^ 32 < s.off ∨ MAXFILE * BSIZE < s.off + n1 then
      s.goto p (.iunlock c i n1 none)
    else s.goto p (.copy c i n1 s.off 0)
  | .copy c i n1 start tot => some (s.copyBlock p full c i n1 start tot)
  | .update c i n1 start tot =>
    some <| goto { s with size := max s.size (start + tot) } p (.load c i n1 start tot)
  | .load c i n1 start r =>
    if 0 < r then s.goto p (.store c i n1 start r s.off) else s.goto p (.iunlock c i n1 (some r))
  | .store c i n1 start r v =>
    some <| goto { s with
      off := v + r
      chunks := s.chunks ++ [⟨c, i, start, r⟩] } p (.iunlock c i n1 (some r))
  | .iunlock c i n1 r => some <| goto { s with holder := none } p (.endOp c i n1 r)
  | .endOp c i n1 r =>
    -- the loop is left if r != n1
    if r = some n1 then s.goto p (.loop c (i + n1))
    else s.goto p (.ret c (i + r.getD 0) (if (i : Int) = c.n then c.n else -1))
  | .ret c _ r => some <| goto { s with returned := (c, r) :: s.returned } p .out

def step (s : SharedFile P) : WriteAct P → Option (SharedFile P)
  | .call p src n => match s.pos p with
    | .out => some <| goto { s with calls := s.calls + 1 } p (.loop ⟨s.calls, src, n⟩ 0)
    | _ => none
  | .step p full => s.act p full

/-- An open file with the offset `off`, before any call. -/
def opened (off size : Nat) (data : Nat → UInt8) : SharedFile P :=
  ⟨off, size, data, none, fun _ => .out, 0, [], []⟩

end SharedFile

end Xv6
