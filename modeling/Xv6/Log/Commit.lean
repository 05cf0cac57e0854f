import Xv6.Disk.Block
import Mathlib.Logic.Function.Basic
import Mathlib.Data.List.Nodup

/-!
# The log on disk

`log.c` without its concurrency: what `log_write` records, the block writes
of `commit`, and `recover_from_log`. The disk and the buffers are both maps
from block numbers to blocks – a buffer is what `bread` returns – and every
`bwrite` is recorded in order, so that what a machine leaves that stops
between two block writes is a list of writes cut short.
-/

namespace Xv6

/-- Most blocks a system call writes. -/
def MAXOPBLOCKS : ℕ := 10

/-- Most data blocks in the log. -/
def LOGSIZE : ℕ := MAXOPBLOCKS * 3

/-- The part of the disk the superblock gives to the log: `log.start` is
its header block, and `log.size` blocks are its own. -/
structure LogArea where
  start : ℕ
  size : ℕ

namespace LogArea

/-- The log that `mkfs` makes: `nlog` blocks after the boot block and the
superblock. -/
def mkfs : LogArea where
  start := 2
  size := LOGSIZE

/-- The log block at a position. -/
def block (a : LogArea) (tail : ℕ) : ℕ := a.start + tail + 1

theorem block_injective (a : LogArea) : Function.Injective a.block := by
  intro i j hij
  unfold block at hij
  omega

theorem start_ne_block (a : LogArea) (tail : ℕ) : a.start ≠ a.block tail := by
  unfold block
  omega

/-- A block of the log: the header, or one of the `log.size - 1` blocks
after it. -/
def Contains (a : LogArea) (b : ℕ) : Prop := a.start ≤ b ∧ b ≤ a.start + (a.size - 1)

instance (a : LogArea) (b : ℕ) : Decidable (a.Contains b) :=
  inferInstanceAs (Decidable (_ ∧ _))

theorem contains_start (a : LogArea) : a.Contains a.start := ⟨Nat.le_refl _, Nat.le_add_right _ _⟩

theorem ne_start_of_not_contains {a : LogArea} {b : ℕ} (hb : ¬ a.Contains b) : b ≠ a.start := by
  rintro rfl
  exact hb a.contains_start

/-- A home block: a block number – a `uint` – outside the log. -/
def Home (a : LogArea) (b : ℕ) : Prop := ¬ a.Contains b ∧ b < 2 ^ 32

instance (a : LogArea) (b : ℕ) : Decidable (a.Home b) :=
  inferInstanceAs (Decidable (_ ∧ _))

end LogArea

/-- **The state of the log**: the disk, the buffers, `log.lh.block[0..n)`,
and the block writes so far. -/
structure Log where
  disk : ℕ → Block
  buf : ℕ → Block
  lh : List ℕ
  trace : List (ℕ × Block)

namespace Log

/-- A machine that has just started: every `bread` goes to the disk. -/
def reboot (disk : ℕ → Block) : Log := ⟨disk, disk, [], []⟩

/-- Write to a buffer. -/
def setBuf (b : ℕ) (data : Block) (l : Log) : Log :=
  { l with buf := Function.update l.buf b data }

/-- `bwrite`. -/
def bwrite (b : ℕ) (l : Log) : Log :=
  { l with
    disk := Function.update l.disk b (l.buf b)
    trace := l.trace ++ [(b, l.buf b)] }

/-- `log.lh.block[tail]`. -/
def home (l : Log) (tail : ℕ) : ℕ := l.lh.getD tail 0

/-- One turn of the loop of `install_trans`. -/
def installTransStep (a : LogArea) (l : Log) (tail : ℕ) : Log :=
  (l.setBuf (l.home tail) (l.buf (a.block tail))).bwrite (l.home tail)

/-- `install_trans`. -/
def installTrans (a : LogArea) (l : Log) : Log :=
  (List.range l.lh.length).foldl (installTransStep a) l

/-- One turn of the loop of `write_log`. -/
def writeLogStep (a : LogArea) (l : Log) (tail : ℕ) : Log :=
  (l.setBuf (a.block tail) (l.buf (l.home tail))).bwrite (a.block tail)

/-- `write_log`. -/
def writeLog (a : LogArea) (l : Log) : Log :=
  (List.range l.lh.length).foldl (writeLogStep a) l

/-- The stores of `write_head` into the header block. -/
def encodeHead (lh : List ℕ) (b : Block) : Block :=
  (List.range lh.length).foldl (fun b i => b.setWord (i + 1) (lh.getD i 0))
    (b.setWord 0 lh.length)

/-- `write_head`. -/
def writeHead (a : LogArea) (l : Log) : Log :=
  (l.setBuf a.start (encodeHead l.lh (l.buf a.start))).bwrite a.start

/-- The loads of `read_head` from the header block, if they fit
`log.lh.block`. -/
def decodeHead (b : Block) : Option (List ℕ) :=
  if intOfWord (b.word 0) ≤ LOGSIZE then
    some ((List.range (intOfWord (b.word 0)).toNat).map (fun i => b.word (i + 1)))
  else none

/-- `read_head`. -/
def readHead (a : LogArea) (l : Log) : Option Log :=
  (decodeHead (l.buf a.start)).map (fun lh => { l with lh })

/-- `recover_from_log`. -/
def recoverFromLog (a : LogArea) (l : Log) : Option Log := do
  let l ← l.readHead a
  let l := l.installTrans a
  let l := { l with lh := [] }
  return l.writeHead a

/-- `commit`. -/
def commit (a : LogArea) (l : Log) : Log :=
  if 0 < l.lh.length then
    let l := l.writeLog a
    let l := l.writeHead a
    let l := l.installTrans a
    let l := { l with lh := [] }
    l.writeHead a
  else l

/-- The loop of `log_write` over `log.lh.block`: the number is found, or it
goes to the end. -/
def absorb (lh : List ℕ) (b : ℕ) : List ℕ := if b ∈ lh then lh else lh ++ [b]

theorem mem_absorb {lh : List ℕ} {b c : ℕ} : c ∈ absorb lh b ↔ c = b ∨ c ∈ lh := by
  unfold absorb
  by_cases hb : b ∈ lh
  · rw [if_pos hb]
    exact ⟨.inr, fun hc => hc.elim (fun hcb => hcb ▸ hb) id⟩
  · rw [if_neg hb, List.mem_append, List.mem_singleton, or_comm]

theorem nodup_absorb {lh : List ℕ} (h : lh.Nodup) (b : ℕ) : (absorb lh b).Nodup := by
  unfold absorb
  by_cases hb : b ∈ lh
  · rw [if_pos hb]
    exact h
  · rw [if_neg hb]
    exact List.nodup_append_comm.mp (List.nodup_cons.mpr ⟨hb, h⟩)

theorem length_absorb_le (lh : List ℕ) (b : ℕ) : (absorb lh b).length ≤ lh.length + 1 := by
  unfold absorb
  split
  · exact Nat.le_succ _
  · exact Nat.le_of_eq (List.length_append.trans (congrArg _ List.length_singleton))

/-- The test at the start of `log_write`. -/
def tooBig (a : LogArea) (l : Log) : Prop :=
  LOGSIZE ≤ l.lh.length ∨ (a.size : ℤ) - 1 ≤ l.lh.length

instance (a : LogArea) (l : Log) : Decidable (l.tooBig a) :=
  inferInstanceAs (Decidable (_ ∨ _))

/-- A process puts `data` into the buffer of block `b` and calls
`log_write`. `none` is the panic "too big a transaction". -/
def logWrite (a : LogArea) (b : ℕ) (data : Block) (l : Log) : Option Log :=
  let l := l.setBuf b data
  if l.tooBig a then none else some { l with lh := absorb l.lh b }

theorem logWrite_eq_some {a : LogArea} {b : ℕ} {data : Block} {l l' : Log}
    (h : l.logWrite a b data = some l') :
    ¬ l.tooBig a ∧ l' = { l.setBuf b data with lh := absorb l.lh b } := by
  unfold logWrite at h
  by_cases hbig : (l.setBuf b data).tooBig a
  · rw [if_pos hbig] at h
    cases h
  · rw [if_neg hbig] at h
    exact ⟨hbig, (Option.some.inj h).symm⟩

/-- The calls of one transaction. -/
def logWrites (a : LogArea) : List (ℕ × Block) → Log → Option Log
  | [], l => some l
  | w :: ws, l => do
    let l ← l.logWrite a w.1 w.2
    logWrites a ws l

end Log

end Xv6
