import Xv6.Lib.Machine
import Mathlib.Data.Fin.Basic
import Mathlib.Data.Nat.Notation
import Mathlib.Data.Int.Notation
import Mathlib.Logic.Function.Basic

/-!
# The console's input

`console.c` keeps what is typed in a ring of `INPUT_BUF` bytes with three
counters that run freely modulo `2^32`: readers have taken what is before `r`,
what is before `w` is committed, and what is between `w` and `e` can still be
edited. `consoleintr` handles a burst of keystrokes without giving `cons.lock`
up, and `consoleread` gives it up only to sleep, so a step is a call of
`consoleintr` or a stretch of `consoleread` between two sleeps.

The processes at the console (`Console`) are written over any buffer that
offers the two operations (`ConsoleOps`), and `Input.ops` are those of
`console.c`.
-/

namespace Xv6

open Function

/-- Bytes in the console's ring. -/
def INPUT_BUF : ℕ := 128

instance : NeZero INPUT_BUF := ⟨by decide⟩

/-- `C(x)`: the code of control and a letter. -/
def C (x : Char) : UInt8 := x.toUInt8 - '@'.toUInt8

/-- What the keystroke's handler puts on the screen: a character, or
`BACKSPACE`, which takes one back. -/
inductive Echo
  | char (c : UInt8)
  | BACKSPACE
  deriving DecidableEq

/-- What keystrokes have set off. -/
structure Typed where
  echo : List Echo
  /-- `wakeup(&input.r)`. -/
  wakeup : Bool
  doprocdump : Bool
  deriving DecidableEq

namespace Typed

/-- Nothing. -/
def nothing : Typed := ⟨[], false, false⟩

/-- One after the other. -/
def append (o o' : Typed) : Typed :=
  ⟨o.echo ++ o'.echo, o.wakeup || o'.wakeup, o.doprocdump || o'.doprocdump⟩

end Typed

/-- How a stretch of `consoleread` ends, with the bytes it has copied to `dst`. -/
inductive Stretch
  /-- In `sleep`, with `n` bytes still to read. -/
  | sleeps (copied : List UInt8) (n : ℕ)
  | returns (copied : List UInt8) (ret : ℤ)
  deriving DecidableEq

namespace Stretch

def copied : Stretch → List UInt8
  | sleeps copied _ | returns copied _ => copied

/-- The stretch has copied one byte more, before all others. -/
def copy (c : UInt8) : Stretch → Stretch
  | sleeps copied n => sleeps (c :: copied) n
  | returns copied ret => returns (c :: copied) ret

@[simp] theorem copied_copy (c : UInt8) (o : Stretch) : (o.copy c).copied = c :: o.copied := by
  cases o <;> rfl

end Stretch

/-! ## The ring -/

/-- `input`: a ring of bytes with three indices that only grow, and wrap at `2 ^ 32`. What is
between `r` and `w` waits for readers, and what is between `w` and `e` can be edited. -/
structure Input where
  buf : Fin INPUT_BUF → UInt8
  /-- Read index. -/
  r : UInt32
  /-- Write index. -/
  w : UInt32
  /-- Edit index. -/
  e : UInt32

namespace Input

/-- `input.buf[i % INPUT_BUF]`. -/
def cell (x : Input) (i : UInt32) : UInt8 := x.buf (Fin.ofNat INPUT_BUF i.toNat)

/-- The loop of `C('U')`. -/
def killLine (x : Input) : List Echo × Input :=
  if x.e ≠ x.w ∧ x.cell (x.e - 1) ≠ '\n'.toUInt8 then
    let (echo, x) := killLine { x with e := x.e - 1 }
    (.BACKSPACE :: echo, x)
  else
    ([], x)
termination_by (x.e - x.w).toNat
decreasing_by
  rename_i h
  have hne : x.e.toNat ≠ x.w.toNat := fun heq => h.1 (UInt32.toNat_inj.mp heq)
  have he := x.e.toNat_lt
  have hw := x.w.toNat_lt
  simp only [UInt32.toNat_sub, UInt32.toNat_one]
  omega

/-- A character is stored, and the line committed when it ends there. -/
def store (c : UInt8) (x : Input) : Typed × Input :=
  let x := { x with buf := update x.buf (Fin.ofNat INPUT_BUF x.e.toNat) c, e := x.e + 1 }
  if c = '\n'.toUInt8 ∨ c = C 'D' ∨ x.e = x.r + UInt32.ofNat INPUT_BUF then
    (⟨[.char c], true, false⟩, { x with w := x.e })
  else
    (⟨[.char c], false, false⟩, x)

/-- What the `switch` of `consoleintr` does with a key. -/
def key (c : UInt8) (x : Input) : Typed × Input :=
  if c = C 'P' then
    (⟨[], false, true⟩, x)
  else if c = C 'U' then
    let (echo, x) := x.killLine
    (⟨echo, false, false⟩, x)
  else if c = C 'H' ∨ c = 0x7f then
    if x.e ≠ x.w then
      (⟨[.BACKSPACE], false, false⟩, { x with e := x.e - 1 })
    else
      (.nothing, x)
  else if c ≠ 0 ∧ x.e - x.r < UInt32.ofNat INPUT_BUF then
    x.store (if c = '\r'.toUInt8 then '\n'.toUInt8 else c)
  else
    (.nothing, x)

/-- The loop of `consoleread`, with `n` bytes of `target` still to read. -/
def read (killed : Bool) (target : ℕ) : ℕ → Input → Stretch × Input
  | 0, x => (.returns [] target, x)
  | n + 1, x =>
    if x.r = x.w then
      if killed then (.returns [] (-1), x) else (.sleeps [] (n + 1), x)
    else
      let c := x.cell x.r
      let x := { x with r := x.r + 1 }
      if c = C 'D' then
        -- saved for next time, unless nothing has been copied
        (.returns [] (target - (n + 1 : ℕ)), if n + 1 < target then { x with r := x.r - 1 } else x)
      else if c = '\n'.toUInt8 then
        (.returns [c] (target - n), x)
      else
        let (o, x) := read killed target n x
        (o.copy c, x)

/-- The bytes from one index to another. -/
def bytes (x : Input) (i j : UInt32) : List UInt8 :=
  (List.range (j - i).toNat).map fun k => x.cell (i + UInt32.ofNat k)

/-- What is committed and not read. -/
def pending (x : Input) : List UInt8 := x.bytes x.r x.w

/-- What can still be edited. -/
def line (x : Input) : List UInt8 := x.bytes x.w x.e

end Input

/-! ## The processes at the console -/

/-- The two operations on a console's input buffer. -/
structure ConsoleOps (B : Type) where
  key : UInt8 → B → Typed × B
  read : (killed : Bool) → (target n : ℕ) → B → Stretch × B

/-- The operations of `console.c`. -/
def Input.ops : ConsoleOps Input := ⟨Input.key, Input.read⟩

/-- Where a process is in `consoleread`: in no call, or in `sleep` with `n`
bytes of `target` still to read; the flag is `p->state == SLEEPING`. -/
inductive ReadPc
  | outside
  | asleep (target n : ℕ) (sleeping : Bool)
  deriving DecidableEq

namespace ReadPc

/-- `p->state = RUNNABLE`. -/
def wake : ReadPc → ReadPc
  | outside => outside
  | asleep target n _ => asleep target n false

/-- Where a stretch leaves the process. -/
def after (target : ℕ) : Stretch → ReadPc
  | .sleeps _ n => asleep target n true
  | .returns _ _ => outside

end ReadPc

/-- **The input buffer and the processes that read.** The buffer is an argument, so that the same
steps run on the ring of `console.c` and on the terminal that it stands for. -/
structure Console (B P : Type) where
  input : B
  pc : P → ReadPc
  /-- `p->killed`. -/
  killed : P → Bool

/-- A burst of keystrokes, or a process that calls `consoleread`, goes on in
it, or is killed. -/
inductive ConsoleEvent (P : Type)
  | consoleintr (keys : List UInt8)
  | consoleread (p : P) (n : ℕ)
  | run (p : P)
  | kill (p : P)
  deriving DecidableEq

/-- What a step shows: the effect of a keystroke, or what a reader has copied and returns. -/
inductive ConsoleOut
  | typed (o : Typed)
  | read (o : Stretch)
  | nothing
  deriving DecidableEq

/-- The process cannot make that step. -/
inductive ConsoleHalt
  | busy

namespace Console

variable {B P : Type}

/-- The loop of `consoleintr`. -/
def consoleintr (ops : ConsoleOps B) : List UInt8 → B → Typed × B
  | [], x => (.nothing, x)
  | c :: keys, x =>
    let (o, x) := ops.key c x
    let (o', x) := consoleintr ops keys x
    (o.append o', x)

/-- A reader that has `cons.lock`, with its `target` and `n`. -/
def reader [DecidableEq P] (s : Console B P) : ConsoleEvent P → Option (P × ℕ × ℕ)
  | .consoleread p n => if s.pc p = .outside then some (p, n, n) else none
  | .run p =>
    match s.pc p with
    | .asleep target n false => some (p, target, n)
    | _ => none
  | _ => none

def step [DecidableEq P] (ops : ConsoleOps B) (s : Console B P) (e : ConsoleEvent P) :
    Except ConsoleHalt (ConsoleOut × Console B P) :=
  match e with
  | .consoleintr keys =>
    let (o, x) := consoleintr ops keys s.input
    .ok (.typed o,
      { s with input := x, pc := if o.wakeup then fun p => (s.pc p).wake else s.pc })
  | .kill p =>
    .ok (.nothing,
      { s with
        pc := update s.pc p (s.pc p).wake
        killed := update s.killed p true })
  | e =>
    match s.reader e with
    | some (p, target, n) =>
      let (o, x) := ops.read (s.killed p) target n s.input
      .ok (.read o, { s with input := x, pc := update s.pc p (.after target o) })
    | none => .error .busy

/-- No process is in `consoleread`. -/
def start (x : B) (killed : P → Bool) : Console B P := ⟨x, fun _ => .outside, killed⟩

end Console

end Xv6
