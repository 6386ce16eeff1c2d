import Mathlib.Data.BitVec
import Mathlib.Data.Nat.Digits.Defs

/-!
# `printf`

`printint`, `printptr` and the loops over the format: `printf` of the kernel and `vprintf` of the user
library. What is printed is the list of characters handed to `consputc`, or written to the descriptor.
An argument is the 64-bit slot from which `va_arg` reads it.
-/

namespace Xv6.Printf

/-- What can go wrong inside `printint`. -/
inductive Fault
  /-- a store past the end of `buf[20]` -/
  | overflow
  /-- the loop has not ended -/
  | running
  deriving DecidableEq, Repr

/-- `buf[i++] = c`, where `buf` lists what is stored so far. -/
def put (buf : List Char) (c : Char) : Except Fault (List Char) :=
  if buf.length < 20 then .ok (buf ++ [c]) else .error .overflow

/-- `do { buf[i++] = digits[x % base]; } while((x /= base) != 0)` -/
def digitLoop {w : Nat} (digits : List Char) (base : BitVec w) :
    Nat → BitVec w → List Char → Except Fault (List Char)
  | 0, _, _ => .error .running
  | fuel + 1, x, buf => do
    let buf ← put buf (digits.getD (x % base).toNat ' ')
    if x / base ≠ 0 then digitLoop digits base fuel (x / base) buf else return buf

/-- `printint` with a working variable `x` of `w` bits. -/
def printintAt (w : Nat) (digits : List Char) (xx : BitVec 64) (base : Nat) (sign : Bool) :
    Except Fault (List Char) := do
  let neg := sign && xx.slt 0
  let x := (if neg then -xx else xx).setWidth w
  let buf ← digitLoop digits (BitVec.ofNat w base) w x []
  let buf ← if neg then put buf '-' else pure buf
  -- `while(--i >= 0) consputc(buf[i])`
  return buf.reverse

/-- `printptr`: the digits of `x`, the highest first. -/
def printptr (digits : List Char) (x : BitVec 64) : List Char :=
  '0' :: 'x' :: (List.range 16).map fun i => digits.getD (x <<< (4 * i) >>> 60).toNat ' '

/-! ### Directives -/

/-- What a directive prints; an integer is read as `uint64` if it is long and as `int` if not. -/
inductive Conv
  | int (long : Bool) (base : Nat) (sign : Bool)
  | ptr
  | str
  | percent
  | unknown
  deriving DecidableEq, Repr

/-- The tests on `c0`, `c1` and `c2`, with how many characters after `c0` the directive takes. -/
def conversion (c0 c1 c2 : Char) : Conv × Nat :=
  if c0 = 'd' then (.int false 10 true, 0)
  else if c0 = 'l' ∧ c1 = 'd' then (.int true 10 true, 1)
  else if c0 = 'l' ∧ c1 = 'l' ∧ c2 = 'd' then (.int true 10 true, 2)
  else if c0 = 'u' then (.int false 10 false, 0)
  else if c0 = 'l' ∧ c1 = 'u' then (.int true 10 false, 1)
  else if c0 = 'l' ∧ c1 = 'l' ∧ c2 = 'u' then (.int true 10 false, 2)
  else if c0 = 'x' then (.int false 16 false, 0)
  else if c0 = 'l' ∧ c1 = 'x' then (.int true 16 false, 1)
  else if c0 = 'l' ∧ c1 = 'l' ∧ c2 = 'x' then (.int true 16 false, 2)
  else if c0 = 'p' then (.ptr, 0)
  else if c0 = 's' then (.str, 0)
  else if c0 = '%' then (.percent, 0)
  else (.unknown, 0)

/-- The directive that starts with `c0`, before the characters `t`. -/
def conversionAt (c0 : Char) (t : List Char) : Conv × Nat :=
  let c1 := t.headD '\x00'
  let c2 := if c1 = '\x00' then '\x00' else t.tail.headD '\x00'
  conversion c0 c1 c2

/-- What is printed for a directive and how many arguments it takes. `str` reads a string from memory. -/
def emit (w : Nat) (digits : List Char) (str : BitVec 64 → List Char) (c0 : Char) (arg : BitVec 64) :
    Conv → Except Fault (List Char × Nat)
  | .int false base sign => do
    return (← printintAt w digits ((arg.setWidth 32).signExtend 64) base sign, 1)
  | .int true base sign => do return (← printintAt w digits arg base sign, 1)
  | .ptr => return (printptr digits arg, 1)
  | .str => return (if arg = 0 then "(null)".toList else str arg, 1)
  | .percent => return (['%'], 0)
  | .unknown => return (['%', c0], 0)

/-! ### The kernel -/

def digits : List Char :=
  ['0', '1', '2', '3', '4', '5', '6', '7', '8', '9', 'a', 'b', 'c', 'd', 'e', 'f']

/-- `printint` of the kernel, with `unsigned long long x`. -/
def printint : BitVec 64 → Nat → Bool → Except Fault (List Char) := printintAt 64 digits

/-- The loop of `printf` over the format, which ends at a NUL; `ap` lists the arguments. -/
def printf (str : BitVec 64 → List Char) : List Char → (Nat → BitVec 64) → Except Fault (List Char)
  | [], _ => return []
  | cx :: t, ap =>
    if cx = '\x00' then return []
    else if cx ≠ '%' then do return cx :: (← printf str t ap)
    else match t with
      | [] => return []
      | c0 :: t => if c0 = '\x00' then return [] else do
        let (out, used) ← emit 64 digits str c0 (ap 0) (conversionAt c0 t).1
        return out ++ (← printf str (t.drop (conversionAt c0 t).2) fun k => ap (k + used))
termination_by fmt => fmt.length
decreasing_by all_goals simp; try omega

/-! ### The user library -/

namespace User

def digits : List Char :=
  ['0', '1', '2', '3', '4', '5', '6', '7', '8', '9', 'A', 'B', 'C', 'D', 'E', 'F']

/-- `printint` of the user library, with `uint x`. -/
def printint : BitVec 64 → Nat → Bool → Except Fault (List Char) := printintAt 32 digits

/-- The loop of `vprintf`; `state` is 0, or `%` after a `%`. -/
def vprintf (str : BitVec 64 → List Char) (state : Char) :
    List Char → (Nat → BitVec 64) → Except Fault (List Char)
  | [], _ => return []
  | c0 :: t, ap =>
    if c0 = '\x00' then return []
    else if state = '\x00' then
      if c0 = '%' then vprintf str '%' t ap
      else do return c0 :: (← vprintf str '\x00' t ap)
    else if state = '%' then do
      let (out, used) ← emit 32 digits str c0 (ap 0) (conversionAt c0 t).1
      return out ++ (← vprintf str '\x00' (t.drop (conversionAt c0 t).2) fun k => ap (k + used))
    else vprintf str state t ap
termination_by fmt => fmt.length
decreasing_by all_goals simp; try omega

end User

end Xv6.Printf
