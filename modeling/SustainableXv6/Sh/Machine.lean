import SustainableXv6.Lib.Wp

/-!
# The parser of `user/sh.c`

The parser has no separate scanner. Its functions share a cursor in the line, look at the next
character (`peek`) or read a token (`gettoken`), and call each other. The words of the tree are
pairs of pointers into the line, and `nulterminate` ends each of them by a NUL in the line itself.

A pointer into the line is its offset. The cursor has with it the characters up to the end of the
line, `es`, so `s < es` says that there is one. `panic` ends the process with an error. The memory
for the tree is taken to be there, and so is the stack.

The functions have a bound on the depth of their calls and on the rounds of their loops, and fail
with `Err.fuel` where it is too small.
-/

namespace SustainableXv6.Sh

open Lib

/-! ## Commands -/

/-- `MAXARGS`. -/
def MAXARGS : ℕ := 10

def O_RDONLY : ℕ := 0x000
def O_WRONLY : ℕ := 0x001
def O_CREATE : ℕ := 0x200
def O_TRUNC : ℕ := 0x400

/-- A word of the line, from `q` to `eq`. -/
structure Word where
  q : ℕ
  eq : ℕ
  deriving DecidableEq, Repr

/-- `struct cmd`. The fields `argv` and `eargv` are one list of words, and so are `file` and
`efile`. -/
inductive Cmd
  | exec (argv : List Word)
  | redir (cmd : Cmd) (file : Word) (mode fd : ℕ)
  | pipe (left right : Cmd)
  | list (left right : Cmd)
  | back (cmd : Cmd)
  deriving DecidableEq, Repr

/-- `parseexec` adds an argument to the `execcmd` that it has made, which is below the redirections
in the tree. -/
def Cmd.addArg (w : Word) : Cmd → Cmd
  | .exec argv => .exec (argv ++ [w])
  | .redir cmd file mode fd => .redir (cmd.addArg w) file mode fd
  | cmd => cmd

/-! ## The cursor -/

/-- A pointer into the line, with the characters from there to its end. -/
structure Cursor where
  pos : ℕ
  rest : List Char
  deriving DecidableEq

/-- How a function of the parser fails. -/
inductive Err
  | fuel
  | panic (msg : String)
  deriving DecidableEq

/-- The functions of the parser, with the cursor as their state. -/
abbrev Parse : Type → Type := Prog Cursor Err

def whitespace : List Char := [' ', '\t', '\r', '\n', '\x0b']

def symbols : List Char := ['<', '|', '>', '&', ';', '(', ')']

/-- `while(s < es && p(*s)) s++`. -/
def Cursor.skipWhile (p : Char → Bool) (s : Cursor) : Cursor :=
  ⟨s.pos + (s.rest.takeWhile p).length, s.rest.dropWhile p⟩

/-- The white space is skipped. -/
def Cursor.skip (s : Cursor) : Cursor := s.skipWhile whitespace.contains

/-- A character of a word. -/
def isWord (c : Char) : Bool := !whitespace.contains c && !symbols.contains c

/-- The `switch` of `gettoken`: the token at `s` and the pointer behind it. -/
def Cursor.token (s : Cursor) : Char × Cursor :=
  match s.rest with
  | [] => ('\x00', s)
  | '>' :: '>' :: rest => ('+', ⟨s.pos + 2, rest⟩)
  | c :: rest => if symbols.contains c then (c, ⟨s.pos + 1, rest⟩) else ('a', s.skipWhile isWord)

/-- `gettoken`: the token, and the pointers to its start and to its end. -/
def gettoken : Parse (Char × Word) := do
  let s := (← get).skip
  let r := s.token
  set r.2.skip
  return (r.1, ⟨s.pos, r.2.pos⟩)

/-- `peek`: the next character that is not white space is one of `toks`. -/
def peek (toks : List Char) : Parse Bool := do
  let s := (← get).skip
  set s
  return s.rest.head?.any toks.contains

/-! ## The parser -/

/-- The `switch` of `parseredirs`. -/
def redirect (tok : Char) (file : Word) (cmd : Cmd) : Cmd :=
  if tok = '<' then .redir cmd file O_RDONLY 0
  else if tok = '>' then .redir cmd file (O_WRONLY ||| O_CREATE ||| O_TRUNC) 1
  else if tok = '+' then .redir cmd file (O_WRONLY ||| O_CREATE) 1
  else cmd

/-- `parseredirs`. -/
def parseredirs : ℕ → Cmd → Parse Cmd
  | 0, _ => throw .fuel
  | fuel + 1, cmd => do
    if ← peek ['<', '>'] then
      let tok ← gettoken
      let file ← gettoken
      if file.1 ≠ 'a' then throw (.panic "missing file for redirection")
      else parseredirs fuel (redirect tok.1 file.2 cmd)
    else return cmd

/-- The loop of `parseexec`. -/
def argLoop : ℕ → ℕ → Cmd → Parse Cmd
  | 0, _, _ => throw .fuel
  | fuel + 1, argc, ret => do
    if ← peek ['|', ')', '&', ';'] then return ret
    else
      let tok ← gettoken
      if tok.1 = '\x00' then return ret
      else if tok.1 ≠ 'a' then throw (.panic "syntax")
      else if argc + 1 ≥ MAXARGS then throw (.panic "too many args")
      else
        let ret ← parseredirs fuel (ret.addArg tok.2)
        argLoop fuel (argc + 1) ret

/-- The loop of `parseline`. -/
def backLoop : ℕ → Cmd → Parse Cmd
  | 0, _ => throw .fuel
  | fuel + 1, cmd => do
    if ← peek ['&'] then
      let _ ← gettoken
      backLoop fuel (.back cmd)
    else return cmd

mutual

/-- `parseline`. -/
def parseline : ℕ → Parse Cmd
  | 0 => throw .fuel
  | fuel + 1 => do
    let cmd ← parsepipe fuel
    let cmd ← backLoop fuel cmd
    if ← peek [';'] then
      let _ ← gettoken
      let right ← parseline fuel
      return .list cmd right
    else return cmd

/-- `parsepipe`. -/
def parsepipe : ℕ → Parse Cmd
  | 0 => throw .fuel
  | fuel + 1 => do
    let cmd ← parseexec fuel
    if ← peek ['|'] then
      let _ ← gettoken
      let right ← parsepipe fuel
      return .pipe cmd right
    else return cmd

/-- `parseexec`. -/
def parseexec : ℕ → Parse Cmd
  | 0 => throw .fuel
  | fuel + 1 => do
    if ← peek ['('] then parseblock fuel
    else
      let ret ← parseredirs fuel (.exec [])
      argLoop fuel 0 ret

/-- `parseblock`. -/
def parseblock : ℕ → Parse Cmd
  | 0 => throw .fuel
  | fuel + 1 => do
    if ← peek ['('] then
      let _ ← gettoken
      let cmd ← parseline fuel
      if ← peek [')'] then
        let _ ← gettoken
        parseredirs fuel cmd
      else throw (.panic "syntax - missing )")
    else throw (.panic "parseblock")

end

/-! ## `parsecmd` -/

/-- The string at a pointer: the characters in front of the first NUL. -/
def cstr (mem : List Char) : List Char := mem.takeWhile (· ≠ '\x00')

/-- `nulterminate`, on the memory from the start of the line. -/
def nulterminate : Cmd → List Char → List Char
  | .exec argv, mem => argv.foldl (fun mem w => mem.set w.eq '\x00') mem
  | .redir cmd file _ _, mem => (nulterminate cmd mem).set file.eq '\x00'
  | .pipe left right, mem => nulterminate right (nulterminate left mem)
  | .list left right, mem => nulterminate right (nulterminate left mem)
  | .back cmd, mem => nulterminate cmd mem

/-- The call of `parseline` in `parsecmd`, and the test that all of the line is read. -/
def parseAll (fuel : ℕ) : Parse Cmd := do
  let cmd ← parseline fuel
  let _ ← peek []
  if (← get).rest ≠ [] then throw (.panic "syntax")
  else return cmd

/-- `parsecmd`: the tree, and the memory from the start of the line after `nulterminate`. -/
def parsecmd (mem : List Char) : Except Err (Cmd × List Char) :=
  let s := cstr mem
  match parseAll (4 * s.length + 4) ⟨0, s⟩ with
  | .ok (cmd, _) => .ok (cmd, nulterminate cmd mem)
  | .error e => .error e

end SustainableXv6.Sh
