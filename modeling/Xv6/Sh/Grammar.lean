import Xv6.Sh.Parser

/-!
# The grammar of command lines

The tokens of a line, and which sequences of tokens are commands. The grammar says what a line means,
independently of how the parser reads it:

    line  := pipe '&'* [';' line]
    pipe  := exec ['|' pipe]
    exec  := '(' line ')' redir*  |  redir* (word redir*)*
    redir := ('<' | '>' | '>>') word
-/

namespace Xv6.Sh

inductive Tok where
  | word (w : List UInt8)
  | lt | gt | gtgt | bar | amp | semi | lpar | rpar
  deriving DecidableEq

def symbolTok (c : UInt8) : Tok :=
  if c = '<'.toUInt8 then .lt
  else if c = '|'.toUInt8 then .bar
  else if c = '>'.toUInt8 then .gt
  else if c = '&'.toUInt8 then .amp
  else if c = ';'.toUInt8 then .semi
  else if c = '('.toUInt8 then .lpar
  else .rpar

/-- The tokens of a line: words are maximal runs of bytes that are neither blanks nor symbols. -/
def tokens : List UInt8 → List Tok
  | [] => []
  | c :: cs =>
    if strchr whitespace c then tokens cs
    else if c = '>'.toUInt8 ∧ cs.head? = some '>'.toUInt8 then .gtgt :: tokens cs.tail
    else if strchr symbols c then symbolTok c :: tokens cs
    else .word (c :: cs.takeWhile isWord) :: tokens (cs.dropWhile isWord)
termination_by l => l.length
decreasing_by
  · exact Nat.lt_succ_self _
  · simp only [List.length_tail, List.length_cons]
    omega
  · exact Nat.lt_succ_self _
  · exact Nat.lt_succ_of_le (List.dropWhile_sublist _).length_le

/-- A word as a list of bytes. -/
abbrev Word : Type := List UInt8

inductive Direction where
  | input | output | append

namespace Direction

def tok : Direction → Tok
  | input => .lt
  | output => .gt
  | append => .gtgt

def mode : Direction → Nat
  | input => O_RDONLY
  | output => O_WRONLY ||| O_CREATE ||| O_TRUNC
  | append => O_WRONLY ||| O_CREATE

def fd : Direction → Nat
  | input => 0
  | output => 1
  | append => 1

end Direction

structure Redir where
  dir : Direction
  file : Word

def redirToks (rs : List Redir) : List Tok := rs.flatMap fun r => [r.dir.tok, .word r.file]

/-- The later redirection is the outer one. -/
def redirs (rs : List Redir) (c : Cmd Word) : Cmd Word :=
  rs.foldl (fun c r => .redir c r.file r.dir.mode r.dir.fd) c

/-- The words of a simple command, with the redirections behind each. -/
def argToks (args : List (Word × List Redir)) : List Tok := args.flatMap fun a => .word a.1 :: redirToks a.2

def backs : Nat → Cmd Word → Cmd Word
  | 0, c => c
  | n + 1, c => backs n (.back c)

inductive Nonterminal where
  | line | pipe | exec

/-- `Derives x ts c`: the grammar derives the tokens `ts` from `x`, and their command is `c`. -/
inductive Derives : Nonterminal → List Tok → Cmd Word → Prop
  | last {ts : List Tok} {c : Cmd Word} (n : Nat) :
      Derives .pipe ts c → Derives .line (ts ++ List.replicate n .amp) (backs n c)
  | seq {ts us : List Tok} {c d : Cmd Word} (n : Nat) : Derives .pipe ts c → Derives .line us d →
      Derives .line (ts ++ List.replicate n .amp ++ .semi :: us) (.list (backs n c) d)
  | one {ts : List Tok} {c : Cmd Word} : Derives .exec ts c → Derives .pipe ts c
  | bar {ts us : List Tok} {c d : Cmd Word} : Derives .exec ts c → Derives .pipe us d →
      Derives .pipe (ts ++ .bar :: us) (.pipe c d)
  | block {ts : List Tok} {c : Cmd Word} (rs : List Redir) : Derives .line ts c →
      Derives .exec (.lpar :: ts ++ .rpar :: redirToks rs) (redirs rs c)
  | simple (rs : List Redir) (args : List (Word × List Redir)) (h : args.length < MAXARGS) :
      Derives .exec (redirToks rs ++ argToks args)
        (redirs (rs ++ args.flatMap Prod.snd) (.exec (args.map Prod.fst)))

end Xv6.Sh
