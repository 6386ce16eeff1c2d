import Mathlib.Algebra.GroupWithZero.Nat
import Mathlib.Logic.Function.Basic

/-!
# The parser of the shell

`gettoken`, `peek` and the functions `parsecmd`, .., `nulterminate` of `sh.c`. A line is the list of its
bytes without the NUL at its end, and a pointer is an index into it; the state is `*ps`. A read of a byte
behind the NUL, a store at or behind `argv[MAXARGS]` and a loop that does not end stop the run with an
error of their own. `malloc` succeeds.
-/

namespace Xv6.Sh

abbrev MAXARGS : Nat := 10

abbrev O_RDONLY : Nat := 0x000
abbrev O_WRONLY : Nat := 0x001
abbrev O_CREATE : Nat := 0x200
abbrev O_TRUNC : Nat := 0x400

/-- `struct cmd`; `W` is what a word is. -/
inductive Cmd (W : Type) where
  | exec (argv : List W)
  | redir (cmd : Cmd W) (file : W) (mode fd : Nat)
  | pipe (left right : Cmd W)
  | list (left right : Cmd W)
  | back (cmd : Cmd W)
  deriving DecidableEq

/-- A word as the parser returns it: pointers to its first byte and behind its last one. -/
structure Span where
  q : Nat
  eq : Nat
  deriving DecidableEq

/-- Why a run stops. -/
inductive Stop where
  | panic (msg : String)
  /-- a read behind the terminating NUL -/
  | fault
  /-- a store at or behind `argv[MAXARGS]` -/
  | overrun
  /-- the run has not ended -/
  | fuel
  deriving DecidableEq

abbrev P : Type → Type := StateT Nat (Except Stop)

def whitespace : List UInt8 := [' ', '\t', '\r', '\n', '\x0b'].map Char.toUInt8

def symbols : List UInt8 := ['<', '|', '>', '&', ';', '(', ')'].map Char.toUInt8

/-- `strchr(s, c)`, which does not find the NUL. -/
def strchr (s : List UInt8) (c : UInt8) : Bool := c ∈ s

/-- The tokens that `gettoken` returns for a word and for `>>`. -/
abbrev aTok : UInt8 := 'a'.toUInt8
abbrev plusTok : UInt8 := '+'.toUInt8

variable (buf : List UInt8)

/-- `*s` -/
def load (s : Nat) : P UInt8 :=
  if s ≤ buf.length then return buf.getD s 0 else throw .fault

/-- `while(s < es && cond(*s)) s++;` -/
def scanLoop (cond : UInt8 → Bool) : (fuel s : Nat) → P Nat
  | 0, _ => throw .fuel
  | fuel + 1, s => do
    if s < buf.length then
      let c ← load buf s
      if cond c then scanLoop cond fuel (s + 1) else return s
    else return s

def scan (cond : UInt8 → Bool) (s : Nat) : P Nat := scanLoop buf cond (buf.length + 1 - s) s

def isWord (c : UInt8) : Bool := !strchr whitespace c && !strchr symbols c

/-- The `switch` of `gettoken`: the token at `s`, which is not a blank, and where it ends. -/
def token (s : Nat) : P (UInt8 × Nat) := do
  let c ← load buf s
  if c = 0 then return (c, s)
  else if strchr (['|', '(', ')', ';', '&', '<'].map Char.toUInt8) c then return (c, s + 1)
  else if c = '>'.toUInt8 then
    if (← load buf (s + 1)) = '>'.toUInt8 then return (plusTok, s + 2) else return (c, s + 1)
  else return (aTok, ← scan buf isWord s)

/-- The next token, and where it begins and ends. -/
def gettoken : P (UInt8 × Span) := do
  let q ← scan buf (strchr whitespace) (← get)
  let (ret, eq) ← token buf q
  set (← scan buf (strchr whitespace) eq)
  return (ret, ⟨q, eq⟩)

/-- Whether the next byte that is not a blank is one of `toks`. -/
def peek (toks : List Char) : P Bool := do
  let s ← scan buf (strchr whitespace) (← get)
  set s
  let c ← load buf s
  return c ≠ 0 && strchr (toks.map Char.toUInt8) c

/-- `cmd->argv[argc] = q` where `cmd` is the `EXEC` command inside of `ret`. -/
def Cmd.push {W : Type} (w : W) : Cmd W → Cmd W
  | exec argv => exec (argv ++ [w])
  | redir cmd file mode fd => redir (cmd.push w) file mode fd
  | cmd => cmd

/-- The `switch` of `parseredirs`. -/
def redircmd {W : Type} (tok : UInt8) (cmd : Cmd W) (file : W) : Cmd W :=
  if tok = '<'.toUInt8 then .redir cmd file O_RDONLY 0
  else if tok = '>'.toUInt8 then .redir cmd file (O_WRONLY ||| O_CREATE ||| O_TRUNC) 1
  else if tok = plusTok then .redir cmd file (O_WRONLY ||| O_CREATE) 1
  else cmd

def parseredirs : (fuel : Nat) → Cmd Span → P (Cmd Span)
  | 0, _ => throw .fuel
  | fuel + 1, cmd => do
    if ← peek buf ['<', '>'] then
      let (tok, _) ← gettoken buf
      let (tok', file) ← gettoken buf
      if tok' ≠ aTok then throw (.panic "missing file for redirection")
      else parseredirs fuel (redircmd tok cmd file)
    else return cmd

/-- The loop of `parseexec`. -/
def parseargs : (fuel argc : Nat) → Cmd Span → P (Nat × Cmd Span)
  | 0, _, _ => throw .fuel
  | fuel + 1, argc, ret => do
    if ← peek buf ['|', ')', '&', ';'] then return (argc, ret)
    else
      let (tok, w) ← gettoken buf
      if tok = 0 then return (argc, ret)
      else if tok ≠ aTok then throw (.panic "syntax")
      else if MAXARGS ≤ argc then throw .overrun
      else if MAXARGS ≤ argc + 1 then throw (.panic "too many args")
      else parseargs fuel (argc + 1) (← parseredirs buf (buf.length + 1) (ret.push w))

/-- `while(peek(ps, es, "&"))` of `parseline`. -/
def parsebacks : (fuel : Nat) → Cmd Span → P (Cmd Span)
  | 0, _ => throw .fuel
  | fuel + 1, cmd => do
    if ← peek buf ['&'] then
      let _ ← gettoken buf
      parsebacks fuel (.back cmd)
    else return cmd

mutual

def parseline : (fuel : Nat) → P (Cmd Span)
  | 0 => throw .fuel
  | fuel + 1 => do
    let cmd ← parsebacks buf (buf.length + 1) (← parsepipe fuel)
    if ← peek buf [';'] then
      let _ ← gettoken buf
      return .list cmd (← parseline fuel)
    else return cmd

def parsepipe : (fuel : Nat) → P (Cmd Span)
  | 0 => throw .fuel
  | fuel + 1 => do
    let cmd ← parseexec fuel
    if ← peek buf ['|'] then
      let _ ← gettoken buf
      return .pipe cmd (← parsepipe fuel)
    else return cmd

def parseblock : (fuel : Nat) → P (Cmd Span)
  | 0 => throw .fuel
  | fuel + 1 => do
    if !(← peek buf ['(']) then throw (.panic "parseblock")
    else
      let _ ← gettoken buf
      let cmd ← parseline fuel
      if !(← peek buf [')']) then throw (.panic "syntax - missing )")
      else
        let _ ← gettoken buf
        parseredirs buf (buf.length + 1) cmd

def parseexec : (fuel : Nat) → P (Cmd Span)
  | 0 => throw .fuel
  | fuel + 1 => do
    if ← peek buf ['('] then parseblock fuel
    else
      let ret ← parseredirs buf (buf.length + 1) (.exec [])
      let (argc, ret) ← parseargs buf (buf.length + 1) 0 ret
      -- cmd->argv[argc] = 0
      if MAXARGS ≤ argc then throw .overrun
      else return ret

end

/-- Memory after `nulterminate(cmd)`. -/
def nulterminate : Cmd Span → (Nat → UInt8) → Nat → UInt8
  | .exec argv, mem => argv.foldl (fun mem w => Function.update mem w.eq 0) mem
  | .redir cmd file _ _, mem => Function.update (nulterminate cmd mem) file.eq 0
  | .pipe left right, mem => nulterminate right (nulterminate left mem)
  | .list left right, mem => nulterminate right (nulterminate left mem)
  | .back cmd, mem => nulterminate cmd mem

/-- How deep `parsecmd` can go on this line. -/
def depth : Nat := 4 * buf.length + 4

/-- The command and the line, which has a NUL behind each word. -/
def parsecmd : Except Stop (Cmd Span × (Nat → UInt8)) := do
  let (cmd, s) ← (do
    let cmd ← parseline buf (depth buf)
    let _ ← peek buf []
    return cmd : P (Cmd Span)).run 0
  if s ≠ buf.length then throw (.panic "syntax")
  else return (cmd, nulterminate cmd fun i => buf.getD i 0)

end Xv6.Sh
