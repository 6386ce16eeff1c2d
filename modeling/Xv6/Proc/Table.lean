import Mathlib.Algebra.GroupWithZero.Nat
import Mathlib.Data.Fin.Basic
import Mathlib.Data.List.FinRange
import Mathlib.Logic.Function.Basic

/-!
# The process table

The fields of `struct proc` that `p->lock` and `wait_lock` protect, and what the functions of
`proc.c` do to one slot while they hold its lock. The table has `n` slots (`NPROC` in `param.h`).
-/

namespace Xv6

/-- `enum procstate`. -/
inductive ProcState where
  | UNUSED | USED | SLEEPING | RUNNABLE | RUNNING | ZOMBIE
  deriving DecidableEq, Repr

/-- A wait channel: a null pointer, the address of a slot, or any other address. -/
inductive Chan (n : Nat) where
  | null
  | proc (p : Fin n)
  | other (a : Nat)
  deriving DecidableEq

structure Proc (n : Nat) where
  state : ProcState
  chan : Chan n
  killed : Bool
  xstate : Int32
  pid : Int32
  parent : Option (Fin n)
  deriving DecidableEq

namespace Proc

variable {n : Nat}

/-- A slot of the static array `proc`, which is zero. -/
def zero : Proc n := ⟨.UNUSED, .null, false, 0, 0, none⟩

/-- The fields that `freeproc` clears. -/
def freeproc (p : Proc n) : Proc n :=
  { p with
    pid := 0
    parent := none
    chan := .null
    killed := false
    xstate := 0
    state := .UNUSED }

/-- `allocproc` at the label `found`. -/
def found (p : Proc n) (pid : Int32) : Proc n := { p with pid := pid, state := .USED }

/-- What `wakeup(chan)` does to a slot. -/
def wakeup (p : Proc n) (chan : Chan n) : Proc n :=
  if p.state = .SLEEPING ∧ p.chan = chan then { p with state := .RUNNABLE } else p

/-- What `kill` does to the slot it has found. -/
def kill (p : Proc n) : Proc n :=
  { p with
    killed := true
    state := if p.state = .SLEEPING then .RUNNABLE else p.state }

end Proc

end Xv6
