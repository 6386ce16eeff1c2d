import Mathlib.Data.Fintype.BigOperators
import Mathlib.Data.List.FinRange
import Xv6.Lib.DList
import Xv6.Lib.Run

/-!
# The buffer cache

`bio.c`: `N` buffers (`NBUF` in `param.h`) in a ring through `prev` and `next`, used by the processes `P`
for the blocks of one device. What a function does while it holds `bcache.lock` is one step; so are
`acquiresleep`, `releasesleep` and a transfer to or from the disk, during which the process holds the
sleep-lock of the buffer. The contents of a block are of any type `α`.
-/

namespace Xv6

open Function

/-- `struct buf` without its links. `refcnt` is a `uint` in the source; it counts processes and pins. -/
structure Buf (P α : Type) where
  valid : Bool
  dev : Nat
  blockno : Nat
  /-- the holder of the sleep-lock -/
  lock : Option P
  refcnt : Nat
  data : α

inductive BufPos (N : Nat) where
  /-- any other code; the process may hold any number of buffers -/
  | out
  /-- in `bget`, at `acquiresleep(&b->lock)`, for the block `blockno` -/
  | wait (b : Fin N) (blockno : Nat)
  /-- in `bread`, with the buffer that `bget` has returned -/
  | fill (b : Fin N) (blockno : Nat)
  /-- in `brelse`, after `releasesleep(&b->lock)` -/
  | relse (b : Fin N)
  deriving DecidableEq

/-- The buffers, the disk and the processes, with what the properties of the cache are about. -/
structure Bcache (N : Nat) (P α : Type) where
  buf : Fin N → Buf P α
  /-- the links of the buffers and of `bcache.head`, which is `none` -/
  links : DList.Links (Option (Fin N))
  disk : Nat → α
  pos : P → BufPos N
  /-- the most recent contents of a block: what a process has last put into its buffer -/
  contents : Nat → α
  /-- the buffer has been modified since it was last written to the disk -/
  dirty : Fin N → Bool
  /-- the calls of `bpin` that no `bunpin` has undone -/
  pins : Fin N → Nat
  clock : Nat
  /-- the time at which `refcnt` last fell to 0; 0 if it never did -/
  freed : Fin N → Nat

inductive BioAct (N : Nat) (P α : Type) where
  /-- calls `bread(dev, blockno)`, and `bget` finds or recycles a buffer -/
  | bread (p : P) (blockno : Nat)
  /-- gets the sleep-lock in `bget` -/
  | acquiresleep (p : P)
  /-- reads the block in `bread` unless the buffer is valid, and returns -/
  | fill (p : P)
  /-- stores `x` in `b->data` -/
  | modify (p : P) (b : Fin N) (x : α)
  | bwrite (p : P) (b : Fin N)
  /-- calls `brelse(b)`, which releases the sleep-lock -/
  | brelse (p : P) (b : Fin N)
  /-- drops its reference in `brelse` -/
  | drop (p : P)
  | bpin (p : P) (b : Fin N)
  | bunpin (p : P) (b : Fin N)

namespace Bcache

variable {N : Nat} {P α : Type} [DecidableEq P]

def setBuf (s : Bcache N P α) (b : Fin N) (x : Buf P α) : Bcache N P α :=
  { s with buf := update s.buf b x }

def goto (s : Bcache N P α) (p : P) (pos : BufPos N) : Bcache N P α :=
  { s with pos := update s.pos p pos }

/-- `b->dev == dev && b->blockno == blockno` -/
def isBlock (s : Bcache N P α) (dev blockno : Nat) : Option (Fin N) → Bool
  | none => false
  | some b => (s.buf b).dev == dev && (s.buf b).blockno == blockno

def isFree (s : Bcache N P α) : Option (Fin N) → Bool
  | none => false
  | some b => (s.buf b).refcnt == 0

/-- The first loop of `bget`. -/
def cached (s : Bcache N P α) (dev blockno : Nat) : Option (Fin N) :=
  (DList.find s.links.next none (s.isBlock dev blockno) (N + 1) (s.links.next none)).join

/-- The second loop of `bget`. -/
def unused (s : Bcache N P α) : Option (Fin N) :=
  (DList.find s.links.prev none s.isFree (N + 1) (s.links.prev none)).join

/-- `bget` up to `acquiresleep`; there is no step if it panics. -/
def bget (s : Bcache N P α) (dev : Nat) (p : P) (blockno : Nat) : Option (Bcache N P α) :=
  match s.cached dev blockno with
  | some b =>
    some ((s.setBuf b { s.buf b with refcnt := (s.buf b).refcnt + 1 }).goto p (.wait b blockno))
  | none => match s.unused with
    | some b =>
      some ((s.setBuf b { s.buf b with
        dev := dev
        blockno := blockno
        valid := false
        refcnt := 1 }).goto p (.wait b blockno))
    | none => none

/-- `bread` after `bget`. -/
def fill (s : Bcache N P α) (p : P) (b : Fin N) : Bcache N P α :=
  if (s.buf b).valid then s.goto p .out
  else (s.setBuf b { s.buf b with
    data := s.disk (s.buf b).blockno
    valid := true }).goto p .out

/-- The end of `brelse`, with `bcache.lock` held. -/
def drop (s : Bcache N P α) (p : P) (b : Fin N) : Bcache N P α :=
  let s := (s.setBuf b { s.buf b with refcnt := (s.buf b).refcnt - 1 }).goto p .out
  if (s.buf b).refcnt = 0 then
    { s with
      links := (s.links.unlink (some b)).insertAfter none (some b)
      clock := s.clock + 1
      freed := update s.freed b (s.clock + 1) }
  else s

/-- A step of the cache for the device `dev`. -/
def step (dev : Nat) (s : Bcache N P α) : BioAct N P α → Option (Bcache N P α)
  | .bread p blockno => if s.pos p = .out then s.bget dev p blockno else none
  | .acquiresleep p => match s.pos p with
    | .wait b blockno =>
      if (s.buf b).lock = none then
        some ((s.setBuf b { s.buf b with lock := some p }).goto p (.fill b blockno))
      else none
    | _ => none
  | .fill p => match s.pos p with
    | .fill b _ => some (s.fill p b)
    | _ => none
  | .modify p b x =>
    -- only while it holds the lock
    if s.pos p = .out ∧ (s.buf b).lock = some p then
      some { s.setBuf b { s.buf b with data := x } with
        contents := update s.contents (s.buf b).blockno x
        dirty := update s.dirty b true }
    else none
  | .bwrite p b =>
    if s.pos p = .out ∧ (s.buf b).lock = some p then
      some { s with
        disk := update s.disk (s.buf b).blockno (s.buf b).data
        dirty := update s.dirty b false }
    else none
  | .brelse p b =>
    if s.pos p = .out ∧ (s.buf b).lock = some p then
      some ((s.setBuf b { s.buf b with lock := none }).goto p (.relse b))
    else none
  | .drop p => match s.pos p with
    | .relse b => some (s.drop p b)
    | _ => none
  | .bpin p b =>
    -- some bread has returned b
    if s.pos p = .out ∧ (s.buf b).dev = dev then
      some { s.setBuf b { s.buf b with refcnt := (s.buf b).refcnt + 1 } with
        pins := update s.pins b (s.pins b + 1) }
    else none
  | .bunpin p b =>
    if s.pos p = .out then
      some { s.setBuf b { s.buf b with refcnt := (s.buf b).refcnt - 1 } with
        pins := update s.pins b (s.pins b - 1) }
    else none

/-- The links after the loop of `binit`. -/
def binit (N : Nat) : DList.Links (Option (Fin N)) :=
  (List.finRange N).foldl (fun k b => k.insertAfter none (some b)) ⟨fun _ => none, fun _ => none⟩

/-- The cache after `binit`: the buffers are zero, and no process has called anything. -/
def boot (N : Nat) (P : Type) (zero : α) (disk : Nat → α) : Bcache N P α where
  buf := fun _ => ⟨false, 0, 0, none, 0, zero⟩
  links := binit N
  disk := disk
  pos := fun _ => .out
  contents := disk
  dirty := fun _ => false
  pins := fun _ => 0
  clock := 0
  freed := fun _ => 0

/-- How the callers use the cache: a modified buffer is written or pinned before it is released and
stays pinned until it is written; `bunpin` undoes a `bpin` and is called by the holder. -/
def Disciplined (s : Bcache N P α) : BioAct N P α → Prop
  | .brelse _ b => s.dirty b = true → 0 < s.pins b
  | .bunpin p b => (s.buf b).lock = some p ∧ 0 < s.pins b ∧ (s.dirty b = true → 1 < s.pins b)
  | _ => True

instance (s : Bcache N P α) (a : BioAct N P α) : Decidable (Disciplined s a) := by
  cases a <;> unfold Disciplined <;> infer_instance

end Bcache

end Xv6
