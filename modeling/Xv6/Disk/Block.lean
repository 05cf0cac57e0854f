import Xv6.Lib.Bytes
import Mathlib.Data.Int.Notation

/-!
# Blocks

A disk block is `BSIZE` bytes. The log header and the indirect blocks are
arrays of 32-bit words, stored with the low byte first, which the kernel
reads and writes through a pointer cast; `word` and `setWord` are those
accesses.
-/

namespace Xv6

/-- Block size in bytes. -/
def BSIZE : ℕ := 512

/-- A block of bytes. -/
abbrev Block := Fin BSIZE → UInt8

namespace Block

/-- The block of zeros. -/
def zero : Block := fun _ => 0

/-- The byte at an offset. -/
def byte (b : Block) (j : ℕ) : UInt8 := if h : j < BSIZE then b ⟨j, h⟩ else 0

/-- `((uint*)b)[i]`. -/
def word (b : Block) (i : ℕ) : ℕ :=
  (b.byte (4 * i)).toNat + 2 ^ 8 * (b.byte (4 * i + 1)).toNat
    + 2 ^ 16 * (b.byte (4 * i + 2)).toNat + 2 ^ 24 * (b.byte (4 * i + 3)).toNat

/-- `((uint*)b)[i] = w`. -/
def setWord (b : Block) (i w : ℕ) : Block := fun j =>
  if j.val / 4 = i then UInt8.ofNat (w / 2 ^ (8 * (j.val % 4))) else b j

/-- `m` bytes from an offset on. -/
def bytes (b : Block) (start m : ℕ) : List UInt8 := (List.range m).map (fun j => b.byte (start + j))

/-- Store bytes from an offset on. -/
def setBytes (start : ℕ) (src : List UInt8) (b : Block) : Block := fun j =>
  if start ≤ j ∧ j.val < start + src.length then src.getD (j - start) 0 else b j

theorem word_lt (b : Block) (i : ℕ) : b.word i < 2 ^ 32 := Bytes.word_lt b i

@[simp] theorem word_zero (i : ℕ) : zero.word i = 0 := Bytes.word_zero (n := BSIZE) i

theorem byte_setBytes (b : Block) (start : ℕ) (src : List UInt8) {j : ℕ} (hj : j < BSIZE) :
    (b.setBytes start src).byte j
      = if start ≤ j ∧ j < start + src.length then src.getD (j - start) 0 else b.byte j :=
  Bytes.byte_setBytes b start src hj

/-- A word reads back as written. -/
theorem word_setWord_self (b : Block) {i : ℕ} (w : ℕ) (hi : 4 * i + 3 < BSIZE) :
    (b.setWord i w).word i = w % 2 ^ 32 :=
  Bytes.word_setWord_self b w hi

/-- The other words stay. -/
theorem word_setWord_of_ne (b : Block) {i j : ℕ} (w : ℕ) (h : j ≠ i) :
    (b.setWord i w).word j = b.word j :=
  Bytes.word_setWord_of_ne b w h

end Block

/-- A word as an `int`. -/
def intOfWord (w : ℕ) : ℤ := Int.bmod w (2 ^ 32)

theorem intOfWord_of_lt {w : ℕ} (h : w < 2 ^ 31) : intOfWord w = w := by
  unfold intOfWord
  rw [Int.bmod_def]
  omega

end Xv6
