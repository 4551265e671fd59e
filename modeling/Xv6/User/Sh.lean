import Mathlib.Data.Nat.Notation

/-! # `sh.c`: the parser of the shell

A line is the list `s` of the bytes before its NUL, and a pointer into it an offset; the byte at
`es` is the NUL.  The parsers go on at the offset `*ps`.  They recurse as deep as the line asks
for, so they take fuel, and running out of it is an error of its own. -/
namespace Xv6.Sh

def MAXARGS : ℕ := 10

def O_RDONLY : ℕ := 0x000
def O_WRONLY : ℕ := 0x001
def O_CREATE : ℕ := 0x200

/-- `struct cmd`, where `α` is what names an argument or a file. -/
inductive Cmd (α : Type) where
  | exec (argv : List α)
  | redir (cmd : Cmd α) (file : α) (mode fd : ℕ)
  | pipe (left right : Cmd α)
  | list (left right : Cmd α)
  | back (cmd : Cmd α)
  deriving DecidableEq, Repr

/-- A word in the line, as the pointers `q` to its first byte and `eq` behind its last. -/
structure Span where
  q : ℕ
  eq : ℕ
  deriving DecidableEq, Repr

inductive Error where
  | panic (msg : String)
  | fuel
  deriving DecidableEq, Repr

def whitespace : List UInt8 := [32, 9, 13, 10, 11]

def symbols : List UInt8 := ['<', '|', '>', '&', ';', '(', ')'].map Char.toUInt8

def isWhitespace (c : UInt8) : Bool := whitespace.contains c

def isSymbol (c : UInt8) : Bool := symbols.contains c

def isWordChar (c : UInt8) : Bool := !isWhitespace c && !isSymbol c

def charAt (s : List UInt8) (i : ℕ) : UInt8 := s.getD i 0

/-- `while(s < es && test(*s)) s++` -/
def skipWhile (test : UInt8 → Bool) (s : List UInt8) (i : ℕ) : ℕ :=
  i + ((s.drop i).takeWhile test).length

/-- What `gettoken` returns: 0, the symbol, `+` for `>>`, or `a` for a word. -/
inductive Tok where
  | eof
  | sym (c : UInt8)
  | append
  | word
  deriving DecidableEq, Repr

/-- The parsers: they read and advance `*ps`. -/
abbrev Parser (α : Type) := StateT ℕ (Except Error) α

def panic {α : Type} (msg : String) : Parser α := throw (.panic msg)

section Parser
variable (s : List UInt8)

/-- The token at a pointer that is not at whitespace, and the pointer behind it. -/
def tokenAt (q : ℕ) : Tok × ℕ :=
  if charAt s q = 0 then (.eof,q)
  else if charAt s q = '>'.toUInt8 then
    if charAt s (q + 1) = '>'.toUInt8 then (.append,q + 2) else (.sym '>'.toUInt8,q + 1)
  else if isSymbol (charAt s q) then (.sym (charAt s q),q + 1)
  else (.word,skipWhile isWordChar s q)

def gettoken : Parser (Tok × Span) := fun ps =>
  let q := skipWhile isWhitespace s ps
  let (ret,eq) := tokenAt s q
  return ((ret,⟨q,eq⟩),skipWhile isWhitespace s eq)

def peek (toks : List Char) : Parser Bool := fun ps =>
  let q := skipWhile isWhitespace s ps
  return (charAt s q != 0 && (toks.map Char.toUInt8).contains (charAt s q),q)

/-- The `switch` of `parseredirs`. -/
def addRedir (tok : Tok) (cmd : Cmd Span) (file : Span) : Cmd Span :=
  if tok = .sym '<'.toUInt8 then .redir cmd file O_RDONLY 0
  else if tok = .sym '>'.toUInt8 then .redir cmd file (O_WRONLY ||| O_CREATE) 1
  else if tok = .append then .redir cmd file (O_WRONLY ||| O_CREATE) 1
  else cmd

def parseredirs : ℕ → Cmd Span → Parser (Cmd Span)
  | 0, _ => throw .fuel
  | fuel + 1, cmd => do
    if ← peek s ['<', '>'] then
      let (tok,_) ← gettoken s
      let (ret,file) ← gettoken s
      if ret = .word then parseredirs fuel (addRedir tok cmd file)
      else panic "missing file for redirection"
    else return cmd

/-- `cmd->argv[argc] = q`, where `cmd` is the `execcmd` inside the redirections `ret`. -/
def Cmd.addArg {α : Type} (w : α) : Cmd α → Cmd α
  | .exec argv => .exec (argv ++ [w])
  | .redir cmd file mode fd => .redir (cmd.addArg w) file mode fd
  | cmd => cmd

/-- The loop of `parseexec`. -/
def parseargs : ℕ → ℕ → Cmd Span → Parser (Cmd Span)
  | 0, _, _ => throw .fuel
  | fuel + 1, argc, ret => do
    if ← peek s ['|', ')', '&', ';'] then return ret
    else
      let (tok,word) ← gettoken s
      if tok = .eof then return ret
      else if tok ≠ .word then panic "syntax"
      else if MAXARGS ≤ argc + 1 then panic "too many args"
      else parseargs fuel (argc + 1) (← parseredirs s fuel (ret.addArg word))

/-- The loop of `parseline`. -/
def parsebacks : ℕ → Cmd Span → Parser (Cmd Span)
  | 0, _ => throw .fuel
  | fuel + 1, cmd => do
    if ← peek s ['&'] then
      let _ ← gettoken s
      parsebacks fuel (.back cmd)
    else return cmd

mutual

def parseline : ℕ → Parser (Cmd Span)
  | 0 => throw .fuel
  | fuel + 1 => do
    let cmd ← parsebacks s fuel (← parsepipe fuel)
    if ← peek s [';'] then
      let _ ← gettoken s
      return .list cmd (← parseline fuel)
    else return cmd

def parsepipe : ℕ → Parser (Cmd Span)
  | 0 => throw .fuel
  | fuel + 1 => do
    let cmd ← parseexec fuel
    if ← peek s ['|'] then
      let _ ← gettoken s
      return .pipe cmd (← parsepipe fuel)
    else return cmd

def parseexec : ℕ → Parser (Cmd Span)
  | 0 => throw .fuel
  | fuel + 1 => do
    if ← peek s ['('] then parseblock fuel
    else parseargs s fuel 0 (← parseredirs s fuel (.exec []))

def parseblock : ℕ → Parser (Cmd Span)
  | 0 => throw .fuel
  | fuel + 1 => do
    if ← peek s ['('] then
      let _ ← gettoken s
      let cmd ← parseline fuel
      if ← peek s [')'] then
        let _ ← gettoken s
        parseredirs s fuel cmd
      else panic "syntax - missing )"
    else panic "parseblock"

end

/-- `nulterminate` writes a NUL behind every word. -/
def nulterminate : Cmd Span → List UInt8 → List UInt8
  | .exec argv, buf => argv.foldl (fun buf w => buf.set w.eq 0) buf
  | .redir cmd file _ _, buf => (nulterminate cmd buf).set file.eq 0
  | .pipe left right, buf => nulterminate right (nulterminate left buf)
  | .list left right, buf => nulterminate right (nulterminate left buf)
  | .back cmd, buf => nulterminate cmd buf

/-- The fuel for a line: no more than four calls for each byte. -/
def fuelFor : ℕ := 4 * s.length + 8

/-- The tree, and the line with its NULs. -/
def parsecmd : Except Error (Cmd Span × List UInt8) := do
  let (cmd,ps) ← (parseline s (fuelFor s)).run 0
  let (_,ps) ← (peek s []).run ps
  if ps = s.length then return (cmd,nulterminate cmd s)
  else throw (.panic "syntax")

end Parser

def cstring (buf : List UInt8) (q : ℕ) : List UInt8 := (buf.drop q).takeWhile (· != 0)

def Cmd.map {α β : Type} (f : α → β) : Cmd α → Cmd β
  | .exec argv => .exec (argv.map f)
  | .redir cmd file mode fd => .redir (cmd.map f) (f file) mode fd
  | .pipe left right => .pipe (left.map f) (right.map f)
  | .list left right => .list (left.map f) (right.map f)
  | .back cmd => .back (cmd.map f)

/-- The tree with the strings that its pointers lead to. -/
def Cmd.strings (cmd : Cmd Span) (buf : List UInt8) : Cmd (List UInt8) :=
  cmd.map fun w => cstring buf w.q

end Xv6.Sh
