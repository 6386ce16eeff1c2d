import Mathlib.Logic.Function.Basic
import Xv6.Lib.Run

/-!
# The console driver

`consoleintr` and `consoleread` of `console.c`. Each part of the code that runs with `cons.lock` held is one
step: an interrupt, and a reader from `acquire`, or from its return out of `sleep`, to the next `sleep` or
to the end. The copies to the reader succeed.
-/

namespace Xv6

open Function

abbrev INPUT_BUF_SIZE : Nat := 128

/-- `struct cons`; the cells of the ring are 0, …, `INPUT_BUF_SIZE - 1`. -/
structure Cons where
  buf : Nat → UInt8
  r : UInt32
  w : UInt32
  e : UInt32

namespace Cons

/-- The character Control-x is `x - '@'`. -/
def ctrlD : UInt8 := 4

def ctrlH : UInt8 := 8

def newline : UInt8 := 10

def carriageReturn : UInt8 := 13

def ctrlP : UInt8 := 16

def ctrlU : UInt8 := 21

def delete : UInt8 := 127

/-- `cons.buf[i % INPUT_BUF_SIZE]` -/
def at_ (s : Cons) (i : UInt32) : UInt8 := s.buf (i.toNat % INPUT_BUF_SIZE)

/-- The loop of `consoleintr` that kills the line; it makes at most `fuel` rounds. -/
def killLine : (fuel : Nat) → Cons → Cons
  | 0, s => s
  | fuel + 1, s =>
    if s.e ≠ s.w ∧ s.at_ (s.e - 1) ≠ newline then killLine fuel { s with e := s.e - 1 } else s

/-- `cons.buf[cons.e++ % INPUT_BUF_SIZE] = c`, then the line is passed on if it is complete. -/
def store (s : Cons) (c : UInt8) : Cons :=
  let e := s.e + 1
  { s with
    buf := update s.buf (s.e.toNat % INPUT_BUF_SIZE) c
    e := e
    w := if c = newline ∨ c = ctrlD ∨ e - s.r = UInt32.ofNat INPUT_BUF_SIZE then e else s.w }

/-- The console input interrupt handler. -/
def consoleintr (c : UInt8) (s : Cons) : Cons :=
  if c = ctrlP then s
  else if c = ctrlU then killLine (s.e - s.w).toNat s
  else if c = ctrlH ∨ c = delete then if s.e ≠ s.w then { s with e := s.e - 1 } else s
  else if c ≠ 0 ∧ s.e - s.r < UInt32.ofNat INPUT_BUF_SIZE then
    s.store (if c = carriageReturn then newline else c)
  else s

/-- Where a reader stops: asleep with `n` bytes to go, or at the end. -/
inductive Stop where
  | sleep (n : Nat) (dst : List UInt8)
  | done (dst : List UInt8)

/-- The loop of `consoleread`, until the reader has to wait: `n` of `target` bytes are still to be read, and
`dst` has been copied out. -/
def readLoop (target : Nat) : (n : Nat) → (dst : List UInt8) → Cons → Stop × Cons
  | 0, dst, s => (.done dst, s)
  | n + 1, dst, s =>
    if s.r = s.w then (.sleep (n + 1) dst, s)
    else
      let c := s.at_ s.r
      let t := { s with r := s.r + 1 }
      if c = ctrlD then
        -- save ^D for next time, to make sure caller gets a 0-byte result
        (.done dst, if n + 1 < target then { t with r := t.r - 1 } else t)
      else if c = newline then (.done (dst ++ [c]), t)
      else readLoop target n (dst ++ [c]) t

end Cons

/-! ## Readers -/

/-- A process that sleeps in `consoleread`. -/
structure Reader where
  target : Nat
  n : Nat
  dst : List UInt8

/-- A device with readers: `intr` is its interrupt handler, `read` the loop of a reader of `target` bytes.
The two are the driver's, or those of an abstract device. -/
structure ReadDevice (δ : Type) where
  intr : UInt8 → δ → δ
  read : (target n : Nat) → (dst : List UInt8) → δ → Cons.Stop × δ

structure Readers (δ P : Type) where
  dev : δ
  reader : P → Option Reader
  killed : P → Bool
  /-- the reads that have returned, the latest first: the bytes delivered, or `none` for -1 -/
  returned : List (P × Option (List UInt8))

inductive ReadAct (P : Type) where
  | intr (c : UInt8)
  /-- a call of `consoleread` for `n` bytes -/
  | call (p : P) (n : Int)
  /-- a process in `sleep` goes on -/
  | wake (p : P)
  | kill (p : P)

namespace Readers

variable {δ P : Type} [DecidableEq P] (D : ReadDevice δ)

/-- `p` reads until it has to wait or is done; where it would have to wait, `killed` is checked first. -/
def advance (s : Readers δ P) (p : P) (x : Reader) : Readers δ P :=
  match D.read x.target x.n x.dst s.dev with
  | (.done dst, dev) => { s with
      dev := dev, reader := update s.reader p none, returned := (p, some dst) :: s.returned }
  | (.sleep n dst, dev) =>
    if s.killed p then { s with
      dev := dev, reader := update s.reader p none, returned := (p, none) :: s.returned }
    else { s with dev := dev, reader := update s.reader p (some ⟨x.target, n, dst⟩) }

def step (s : Readers δ P) : ReadAct P → Option (Readers δ P)
  | .intr c => some { s with dev := D.intr c s.dev }
  | .call p n => match s.reader p with
    | none => some (s.advance D p ⟨n.toNat, n.toNat, []⟩)
    | some _ => none
  | .wake p => match s.reader p with
    | none => none
    | some x => some (s.advance D p x)
  | .kill p => some { s with killed := update s.killed p true }

def init (dev : δ) : Readers δ P := ⟨dev, fun _ => none, fun _ => false, []⟩

end Readers

def Cons.device : ReadDevice Cons := ⟨Cons.consoleintr, Cons.readLoop⟩

def Cons.zero : Cons := ⟨fun _ => 0, 0, 0, 0⟩

end Xv6
