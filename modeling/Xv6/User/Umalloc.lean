import Xv6.Lib.Machine
import Mathlib.Logic.Function.Basic

/-!
# The user heap

`umalloc.c`. A pointer is a byte address and the memory is read and written by
headers: a block is a header and the units after it, and its size counts the
header. The two search loops go round a list in memory, so they run for a
number of turns, and `running` says that they are not done. What `sbrk` answers
is up to the kernel: an answer for each call, and no memory after the last one.
Beside the allocator the state keeps what it is judged by: the end of the
memory handed out, what `sbrk` has returned, and the pointers that are live with
the number of bytes that were asked for.
-/

namespace Xv6

open Function

/-- `sizeof(Header)`. -/
def HEADER : ℕ := 8

/-- **A header**: the next free block and the size in units. -/
structure Header where
  ptr : ℕ
  size : ℕ

/-- **The state of the heap**: `base` is the address of the header that the
list starts with, `brk` the end of the memory of the process. -/
structure Umalloc where
  base : ℕ
  mem : ℕ → Header
  freep : ℕ
  brk : ℕ
  regions : List (ℕ × ℕ)
  live : List (ℕ × ℕ)

/-- A loop that is not done, an answer of `sbrk` that is no fresh memory, and a
call that its callers do not make. -/
inductive UmallocHalt
  | running
  | sbrk
  | disabled
  deriving DecidableEq

namespace Umalloc

/-- `p->s.ptr = q`. -/
def setPtr (p q : ℕ) (s : Umalloc) : Umalloc :=
  { s with mem := update s.mem p { s.mem p with ptr := q } }

/-- `p->s.size = n`. -/
def setSize (p n : ℕ) (s : Umalloc) : Umalloc :=
  { s with mem := update s.mem p { s.mem p with size := n } }

/-! ## `free` -/

/-- The loop of `free`. -/
def freeLoop (s : Umalloc) (bp : ℕ) : ℕ → ℕ → Except UmallocHalt ℕ
  | 0, _ => .error .running
  | turns + 1, p =>
    if p < bp ∧ bp < (s.mem p).ptr then .ok p
    else if (s.mem p).ptr ≤ p ∧ (p < bp ∨ bp < (s.mem p).ptr) then .ok p
    else freeLoop s bp turns (s.mem p).ptr

/-- Join `bp` with the block after it, or link it there. -/
def joinUpper (p bp : ℕ) (s : Umalloc) : Umalloc :=
  if bp + HEADER * (s.mem bp).size = (s.mem p).ptr then
    let s := s.setSize bp ((s.mem bp).size + (s.mem (s.mem p).ptr).size)
    s.setPtr bp (s.mem (s.mem p).ptr).ptr
  else s.setPtr bp (s.mem p).ptr

/-- Join the block before with `bp`, or link it there. -/
def joinLower (p bp : ℕ) (s : Umalloc) : Umalloc :=
  if p + HEADER * (s.mem p).size = bp then
    let s := s.setSize p ((s.mem p).size + (s.mem bp).size)
    s.setPtr p (s.mem bp).ptr
  else s.setPtr p bp

/-- `free`. -/
def free (turns ap : ℕ) (s : Umalloc) : Except UmallocHalt Umalloc := do
  let bp := ap - HEADER
  let p ← s.freeLoop bp turns s.freep
  return { (s.joinUpper p bp).joinLower p bp with freep := p }

/-! ## `malloc` -/

/-- What `sbrk` may answer: memory above all that was handed out before. -/
def Fresh (s : Umalloc) (p n : ℕ) : Prop := s.brk ≤ p ∧ p + n < 2 ^ 32

instance (s : Umalloc) (p n : ℕ) : Decidable (s.Fresh p n) := inferInstanceAs (Decidable (_ ∧ _))

/-- The bytes that `morecore` asks for. -/
def moreBytes (nu : ℕ) : ℕ := max nu 4096 * HEADER % 2 ^ 32

/-- `morecore`, with the answer of `sbrk`. -/
def morecore (turns nu : ℕ) (answer : Option ℕ) (s : Umalloc) : Except UmallocHalt (ℕ × Umalloc) :=
  match answer with
  | none => .ok (0, s)
  | some p =>
    if s.Fresh p (moreBytes nu) then do
      let s := { s with
        brk := p + moreBytes nu
        regions := (p, moreBytes nu) :: s.regions }
      let s ← (s.setSize p (max nu 4096)).free turns (p + HEADER)
      return (s.freep, s)
    else .error .sbrk

/-- The units for a number of bytes, with their header. -/
def nunits (nbytes : ℕ) : ℕ := (nbytes + HEADER - 1) % 2 ^ 32 / HEADER + 1

/-- A block that is large enough: it is taken out of the list, or its tail is. -/
def take (n prevp p : ℕ) (s : Umalloc) : ℕ × Umalloc :=
  if (s.mem p).size = n then
    (p + HEADER, { s.setPtr prevp (s.mem p).ptr with freep := prevp })
  else
    let rest := (s.mem p).size - n
    let tail := p + HEADER * rest
    (tail + HEADER, { (s.setSize p rest).setSize tail n with freep := prevp })

/-- The loop of `malloc`. -/
def mallocLoop (n : ℕ) : ℕ → List (Option ℕ) → ℕ → ℕ → Umalloc → Except UmallocHalt (ℕ × Umalloc)
  | 0, _, _, _, _ => .error .running
  | turns + 1, answers, prevp, p, s =>
    if n ≤ (s.mem p).size then .ok (s.take n prevp p)
    else if p = s.freep then do
      let (p, s) ← s.morecore turns n (answers.headD none)
      if p = 0 then return (0, s)
      else mallocLoop n turns answers.tail p (s.mem p).ptr s
    else mallocLoop n turns answers p (s.mem p).ptr s

/-- `base.s.ptr = freep = &base; base.s.size = 0;` -/
def init (s : Umalloc) : Umalloc :=
  { (s.setPtr s.base s.base).setSize s.base 0 with freep := s.base }

/-- `malloc`. -/
def malloc (turns nbytes : ℕ) (answers : List (Option ℕ)) (s : Umalloc) :
    Except UmallocHalt (ℕ × Umalloc) :=
  let s := if s.freep = 0 then s.init else s
  mallocLoop (nunits nbytes) turns answers s.freep (s.mem s.freep).ptr s

/-! ## Runs -/

/-- A call, with the turns that its loops are given, and a write of the
program to memory it has. -/
inductive Event
  | malloc (turns nbytes : ℕ) (answers : List (Option ℕ))
  | free (turns ap : ℕ)
  | store (a : ℕ) (v : Header)

/-- The live blocks. -/
def liveBlocks (s : Umalloc) : List (ℕ × ℕ) := s.live.map (fun l => (l.1 - HEADER, nunits l.2))

/-- **One step.** Calls ask for at most `2 ^ 30` bytes, free live pointers and
write to the bytes of live blocks. -/
def step (s : Umalloc) : Event → Except UmallocHalt (ℕ × Umalloc)
  | .malloc turns nbytes answers =>
    if nbytes ≤ 2 ^ 30 then do
      let (ap, s) ← s.malloc turns nbytes answers
      if ap = 0 then return (0, s)
      else return (ap, { s with live := (ap, nbytes) :: s.live })
    else .error .disabled
  | .free turns ap =>
    if ∃ l ∈ s.live, l.1 = ap then do
      let s ← { s with live := s.live.eraseP (fun l => l.1 = ap) }.free turns ap
      return (0, s)
    else .error .disabled
  | .store a v =>
    if ∃ l ∈ s.live, l.1 ≤ a ∧ a + HEADER ≤ l.1 + l.2 then
      .ok (0, { s with mem := update s.mem a v })
    else .error .disabled

/-- **A run.** -/
def exec (s : Umalloc) (es : List Event) : Except UmallocHalt Umalloc := Machine.exec step s es

/-- **Before the first call**: there is no free list yet, nothing has been handed out, and the
header `base` is below the memory to come. -/
structure Initial (s : Umalloc) : Prop where
  freep : s.freep = 0
  base : 0 < s.base
  brk : s.base + HEADER ≤ s.brk
  regions : s.regions = []
  live : s.live = []

end Umalloc

end Xv6
