import Xv6.User.Sh

/-!
# The shell's grammar

What the parser is for, without its pointers: a line is cut into tokens, and the
tokens derive a command in the grammar

    line  ::= pipe '&'* [';' line]
    pipe  ::= exec ['|' pipe]
    exec  ::= '(' line ')' redir* | redir* (word redir*)*
    redir ::= ('<' | '>' | '>>') word

with fewer than `MAXARGS` words in an `exec`. Here a word is its text.
-/

namespace Xv6

namespace Sh

/-! ## Tokens -/

/-- **The tokens**: words and the eight symbols. -/
inductive Token
  | word (w : List Char)
  | bar
  | lpar
  | rpar
  | semi
  | amp
  | lt
  | gt
  | gtgt
  deriving DecidableEq

/-- The token of a single symbol. -/
def symbol (c : Char) : Token :=
  if c = '|' then .bar
  else if c = '(' then .lpar
  else if c = ')' then .rpar
  else if c = ';' then .semi
  else if c = '&' then .amp
  else if c = '<' then .lt
  else .gt

/-- **The tokens of a line**: words are as long as can be, and two `>` in a row
are one token. -/
def tokens : List Char → List Token
  | [] => []
  | c :: s =>
    if c ∈ whitespace then tokens s
    else if inWord c then .word (c :: s.takeWhile inWord) :: tokens (s.dropWhile inWord)
    else if c = '>' ∧ s.headD NUL = '>' then .gtgt :: tokens s.tail
    else symbol c :: tokens s
termination_by s => s.length
decreasing_by
  · exact Nat.lt_succ_self _
  · exact Nat.lt_succ_of_le (List.dropWhile_sublist _).length_le
  · exact Nat.lt_succ_of_le (List.tail_sublist _).length_le
  · exact Nat.lt_succ_self _

/-! ## Commands -/

/-- A command with other words. -/
def Cmd.map {W V : Type} (f : W → V) : Cmd W → Cmd V
  | .exec argv => .exec (argv.map f)
  | .redir cmd file mode fd => .redir (cmd.map f) (f file) mode fd
  | .pipe left right => .pipe (left.map f) (right.map f)
  | .list left right => .list (left.map f) (right.map f)
  | .back cmd => .back (cmd.map f)

/-- A redirection: the file, and how and where it is opened. -/
structure Redir where
  file : List Char
  mode : ℕ
  fd : ℕ

/-- **Each redirection wraps the command built so far.** -/
def wrap (rs : List Redir) (c : Cmd (List Char)) : Cmd (List Char) :=
  rs.foldl (fun c r => .redir c r.file r.mode r.fd) c

/-! ## Derivations -/

/-- `redir*`. -/
inductive Redirs : List Token → List Redir → Prop
  | nil : Redirs [] []
  | lt {w : List Char} {ts : List Token} {rs : List Redir} (h : Redirs ts rs) :
      Redirs (.lt :: .word w :: ts) (⟨w, Fs.O_RDONLY, 0⟩ :: rs)
  | gt {w : List Char} {ts : List Token} {rs : List Redir} (h : Redirs ts rs) :
      Redirs (.gt :: .word w :: ts) (⟨w, Fs.O_WRONLY ||| Fs.O_CREATE, 1⟩ :: rs)
  | gtgt {w : List Char} {ts : List Token} {rs : List Redir} (h : Redirs ts rs) :
      Redirs (.gtgt :: .word w :: ts) (⟨w, Fs.O_WRONLY ||| Fs.O_CREATE, 1⟩ :: rs)

/-- `(word redir*)*`, with the words and the redirections. -/
inductive Args : List Token → List (List Char) → List Redir → Prop
  | nil : Args [] [] []
  | word {w : List Char} {us ts : List Token} {ws : List (List Char)} {rs rs' : List Redir}
      (hr : Redirs us rs) (h : Args ts ws rs') :
      Args (.word w :: (us ++ ts)) (w :: ws) (rs ++ rs')

/-- The symbols of the grammar that stand for commands. -/
inductive Nonterminal
  | line
  | pipe
  | exec

/-- **The grammar** that the functions of the parser follow, with a nonterminal for each: the tokens
derive the command, and its redirections wrap it one after the other. -/
inductive Derives : Nonterminal → List Token → Cmd (List Char) → Prop
  | line {ts : List Token} {c : Cmd (List Char)} (h : Derives .pipe ts c) (k : ℕ) :
      Derives .line (ts ++ List.replicate k .amp) (Cmd.back^[k] c)
  | list {ts us : List Token} {c d : Cmd (List Char)} (h : Derives .pipe ts c) (k : ℕ)
      (hd : Derives .line us d) :
      Derives .line (ts ++ List.replicate k .amp ++ .semi :: us) (.list (Cmd.back^[k] c) d)
  | exec {ts : List Token} {c : Cmd (List Char)} (h : Derives .exec ts c) : Derives .pipe ts c
  | pipe {ts us : List Token} {c d : Cmd (List Char)} (h : Derives .exec ts c)
      (hd : Derives .pipe us d) : Derives .pipe (ts ++ .bar :: us) (.pipe c d)
  | block {ts us : List Token} {c : Cmd (List Char)} {rs : List Redir} (h : Derives .line ts c)
      (hr : Redirs us rs) : Derives .exec (.lpar :: ts ++ .rpar :: us) (wrap rs c)
  | args {us ts : List Token} {ws : List (List Char)} {rs rs' : List Redir} (hr : Redirs us rs)
      (h : Args ts ws rs') (hlen : ws.length ≤ MAXARGS - 1) :
      Derives .exec (us ++ ts) (wrap (rs ++ rs') (.exec ws))

end Sh

end Xv6
