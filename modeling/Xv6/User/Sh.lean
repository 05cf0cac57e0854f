import Xv6.Fs.Path

/-!
# The shell's parser

`sh.c`, from `gettoken` to `nulterminate`. A pointer into the line is the rest
of the line from there, so the pointer `es` to its end is `[]`, and what is read
there is `NUL`. The parser keeps a word as two pointers, to its first character
and past its last one, and `nulterminate` cuts the words out of the buffer in
the end. The loops and the functions that call each other run for a number of
turns, and `running` says that they are not done.
-/

namespace Xv6

namespace Sh

/-- The end of a string. -/
def NUL : Char := Char.ofNat 0

/-- The words of an `EXEC` command and their end. -/
def MAXARGS : ℕ := 10

/-- `" \t\r\n\v"`. -/
def whitespace : List Char := [' ', '\t', '\r', '\n', Char.ofNat 11]

/-- `"<|>&;()"`. -/
def symbols : List Char := ['<', '|', '>', '&', ';', '(', ')']

/-- A line that is given up, and a call that is not done. -/
inductive ShHalt
  | running
  | panic (s : String)
  deriving DecidableEq

/-- **The parsed command representation.** A word is of type `W`. -/
inductive Cmd (W : Type)
  | exec (argv : List W)
  | redir (cmd : Cmd W) (file : W) (mode fd : ℕ)
  | pipe (left right : Cmd W)
  | list (left right : Cmd W)
  | back (cmd : Cmd W)

/-- A word in the line: `argv[i]` and `eargv[i]`, or `file` and `efile`. -/
structure Word where
  q : List Char
  eq : List Char

/-! ## Tokens -/

/-- `while(s < es && strchr(whitespace, *s)) s++;` -/
def skip (s : List Char) : List Char := s.dropWhile (fun c => decide (c ∈ whitespace))

/-- A character that a word goes on with. -/
def inWord (c : Char) : Bool := decide (c ∉ whitespace) && decide (c ∉ symbols)

/-- The switch of `gettoken`: what it returns and where the token ends. -/
def scan : List Char → Char × List Char
  | [] => (NUL, [])
  | c :: s =>
    if c = '|' ∨ c = '(' ∨ c = ')' ∨ c = ';' ∨ c = '&' ∨ c = '<' then (c, s)
    else if c = '>' then
      if s.headD NUL = '>' then ('+', s.tail) else ('>', s)
    else ('a', (c :: s).dropWhile inWord)

/-- What `gettoken` returns, with the two pointers to the token and the pointer
it leaves. -/
structure Gettoken where
  ret : Char
  word : Word
  ps : List Char

/-- `gettoken`. -/
def gettoken (ps : List Char) : Gettoken :=
  let s := skip ps
  let (ret, eq) := scan s
  ⟨ret, ⟨s, eq⟩, skip eq⟩

/-- `peek`. -/
def peek (ps : List Char) (toks : List Char) : Bool × List Char :=
  let s := skip ps
  (s.headD NUL ≠ NUL && decide (s.headD NUL ∈ toks), s)

/-! ## The parser -/

/-- The `REDIR` command for the symbol `tok`. -/
def redircmd (cmd : Cmd Word) (tok : Char) (file : Word) : Cmd Word :=
  if tok = '<' then .redir cmd file Fs.O_RDONLY 0
  else if tok = '>' then .redir cmd file (Fs.O_WRONLY ||| Fs.O_CREATE) 1
  else if tok = '+' then .redir cmd file (Fs.O_WRONLY ||| Fs.O_CREATE) 1
  else cmd

/-- `parseredirs`. -/
def parseredirs : ℕ → Cmd Word → List Char → Except ShHalt (Cmd Word × List Char)
  | 0, _, _ => .error .running
  | turns + 1, cmd, ps =>
    let (more, ps) := peek ps ['<', '>']
    if more then
      let tok := gettoken ps
      let file := gettoken tok.ps
      if file.ret ≠ 'a' then .error (.panic "missing file for redirection")
      else parseredirs turns (redircmd cmd tok.ret file.word) file.ps
    else .ok (cmd, ps)

/-- `cmd->argv[argc] = q`: the `EXEC` command is inside the redirections that
have been read. -/
def addArg {W : Type} (q : W) : Cmd W → Cmd W
  | .exec argv => .exec (argv ++ [q])
  | .redir cmd file mode fd => .redir (addArg q cmd) file mode fd
  | cmd => cmd

/-- The loop of `parseexec`. -/
def parseargs : ℕ → ℕ → Cmd Word → List Char → Except ShHalt (Cmd Word × List Char)
  | 0, _, _, _ => .error .running
  | turns + 1, argc, ret, ps =>
    let (stop, ps) := peek ps ['|', ')', '&', ';']
    if stop then .ok (ret, ps)
    else
      let tok := gettoken ps
      if tok.ret = NUL then .ok (ret, tok.ps)
      else if tok.ret ≠ 'a' then .error (.panic "syntax")
      else if argc + 1 ≥ MAXARGS then .error (.panic "too many args")
      else do
        let (ret, ps) ← parseredirs turns (addArg tok.word ret) tok.ps
        parseargs turns (argc + 1) ret ps

/-- The loop of `parseline`. -/
def parseback : ℕ → Cmd Word → List Char → Except ShHalt (Cmd Word × List Char)
  | 0, _, _ => .error .running
  | turns + 1, cmd, ps =>
    let (more, ps) := peek ps ['&']
    if more then parseback turns (.back cmd) (gettoken ps).ps
    else .ok (cmd, ps)

mutual

/-- `parseline`. -/
def parseline : ℕ → List Char → Except ShHalt (Cmd Word × List Char)
  | 0, _ => .error .running
  | turns + 1, ps => do
    let (cmd, ps) ← parsepipe turns ps
    let (cmd, ps) ← parseback turns cmd ps
    let (more, ps) := peek ps [';']
    if more then do
      let (right, ps) ← parseline turns (gettoken ps).ps
      return (.list cmd right, ps)
    else return (cmd, ps)

/-- `parsepipe`. -/
def parsepipe : ℕ → List Char → Except ShHalt (Cmd Word × List Char)
  | 0, _ => .error .running
  | turns + 1, ps => do
    let (cmd, ps) ← parseexec turns ps
    let (more, ps) := peek ps ['|']
    if more then do
      let (right, ps) ← parsepipe turns (gettoken ps).ps
      return (.pipe cmd right, ps)
    else return (cmd, ps)

/-- `parseexec`. -/
def parseexec : ℕ → List Char → Except ShHalt (Cmd Word × List Char)
  | 0, _ => .error .running
  | turns + 1, ps =>
    let (block, ps) := peek ps ['(']
    if block then parseblock turns ps
    else do
      let (ret, ps) ← parseredirs turns (.exec []) ps
      parseargs turns 0 ret ps

/-- `parseblock`. -/
def parseblock : ℕ → List Char → Except ShHalt (Cmd Word × List Char)
  | 0, _ => .error .running
  | turns + 1, ps =>
    let (block, ps) := peek ps ['(']
    if !block then .error (.panic "parseblock")
    else do
      let (cmd, ps) ← parseline turns (gettoken ps).ps
      let (closed, ps) := peek ps [')']
      if !closed then .error (.panic "syntax - missing )")
      else parseredirs turns cmd (gettoken ps).ps

end

/-! ## Cutting the words out -/

/-- Where a pointer points to. -/
def index (line p : List Char) : ℕ := line.length - p.length

/-- `*p = 0`. -/
def terminate (line : List Char) (buf p : List Char) : List Char := buf.set (index line p) NUL

/-- `nulterminate`. -/
def nulterminate (line : List Char) : Cmd Word → List Char → List Char
  | .exec argv, buf => argv.foldl (fun buf w => terminate line buf w.eq) buf
  | .redir cmd file _ _, buf => terminate line (nulterminate line cmd buf) file.eq
  | .pipe left right, buf => nulterminate line right (nulterminate line left buf)
  | .list left right, buf => nulterminate line right (nulterminate line left buf)
  | .back cmd, buf => nulterminate line cmd buf

/-- **`parsecmd`**: the command and what the buffer has become. -/
def parsecmd (turns : ℕ) (line : List Char) : Except ShHalt (Cmd Word × List Char) := do
  let (cmd, ps) ← parseline turns line
  let (_, ps) := peek ps []
  if ps ≠ [] then .error (.panic "syntax")
  else return (cmd, nulterminate line cmd (line ++ [NUL]))

/-- The string that a pointer into the buffer stands for. -/
def string (line buf : List Char) (w : Word) : List Char :=
  (buf.drop (index line w.q)).takeWhile (fun c => decide (c ≠ NUL))

end Sh

end Xv6
