import Mathlib.Algebra.GroupWithZero.Nat
import Mathlib.Algebra.Ring.Int.Defs
import Mathlib.Data.Nat.Notation
import Mathlib.Tactic.Common

/-!
# Bytes and words

A buffer of `n` bytes, read and written by bytes and by little-endian words of
four. Reads beyond the end give zero.
-/

/-- A buffer of bytes. -/
abbrev Bytes (n : ℕ) := Fin n → UInt8

namespace Bytes

variable {n : ℕ}

/-- The buffer of zeros. -/
def zero : Bytes n := fun _ => 0

/-- The byte at an offset. -/
def byte (b : Bytes n) (j : ℕ) : UInt8 := if h : j < n then b ⟨j, h⟩ else 0

/-- `((uint*)b)[i]`. -/
def word (b : Bytes n) (i : ℕ) : ℕ :=
  (b.byte (4 * i)).toNat + 2 ^ 8 * (b.byte (4 * i + 1)).toNat
    + 2 ^ 16 * (b.byte (4 * i + 2)).toNat + 2 ^ 24 * (b.byte (4 * i + 3)).toNat

/-- `((uint*)b)[i] = w`. -/
def setWord (b : Bytes n) (i w : ℕ) : Bytes n := fun j =>
  if j.val / 4 = i then UInt8.ofNat (w / 2 ^ (8 * (j.val % 4))) else b j

/-- Store bytes from an offset on. -/
def setBytes (start : ℕ) (src : List UInt8) (b : Bytes n) : Bytes n := fun j =>
  if start ≤ j ∧ j.val < start + src.length then src.getD (j - start) 0 else b j

theorem word_lt (b : Bytes n) (i : ℕ) : b.word i < 2 ^ 32 := by
  have h : ∀ j, (b.byte j).toNat < 2 ^ 8 := fun j => (b.byte j).toNat_lt
  have h₀ := h (4 * i)
  have h₁ := h (4 * i + 1)
  have h₂ := h (4 * i + 2)
  have h₃ := h (4 * i + 3)
  unfold word
  omega

@[simp] theorem byte_zero (j : ℕ) : (zero : Bytes n).byte j = 0 := by
  unfold byte zero
  split <;> rfl

@[simp] theorem word_zero (i : ℕ) : (zero : Bytes n).word i = 0 := by
  unfold word
  rw [byte_zero, byte_zero, byte_zero, byte_zero]
  rfl

theorem byte_setBytes (b : Bytes n) (start : ℕ) (src : List UInt8) {j : ℕ} (hj : j < n) :
    (b.setBytes start src).byte j
      = if start ≤ j ∧ j < start + src.length then src.getD (j - start) 0 else b.byte j := by
  unfold byte setBytes
  rw [dif_pos hj, dif_pos hj]

theorem byte_setWord_self (b : Bytes n) {i : ℕ} (w : ℕ) (hi : 4 * i + 3 < n) {k : ℕ}
    (hk : k < 4) : ((b.setWord i w).byte (4 * i + k)).toNat = w / 2 ^ (8 * k) % 2 ^ 8 := by
  have hlt : 4 * i + k < n := by omega
  unfold byte setWord
  rw [dif_pos hlt]
  have hdiv : (4 * i + k) / 4 = i := by omega
  have hmod : (4 * i + k) % 4 = k := by omega
  simp only [hdiv, hmod, if_true]
  exact UInt8.toNat_ofNat'

theorem byte_setWord_of_ne (b : Bytes n) {i j : ℕ} (w : ℕ) (h : j / 4 ≠ i) :
    (b.setWord i w).byte j = b.byte j := by
  unfold byte setWord
  by_cases hj : j < n
  · rw [dif_pos hj, dif_pos hj, if_neg h]
  · rw [dif_neg hj, dif_neg hj]

/-- A word reads back as written. -/
theorem word_setWord_self (b : Bytes n) {i : ℕ} (w : ℕ) (hi : 4 * i + 3 < n) :
    (b.setWord i w).word i = w % 2 ^ 32 := by
  have h₀ := b.byte_setWord_self w hi (k := 0) (by omega)
  have h₁ := b.byte_setWord_self w hi (k := 1) (by omega)
  have h₂ := b.byte_setWord_self w hi (k := 2) (by omega)
  have h₃ := b.byte_setWord_self w hi (k := 3) (by omega)
  unfold word
  rw [Nat.add_zero] at h₀
  rw [h₀, h₁, h₂, h₃]
  omega

/-- The other words stay. -/
theorem word_setWord_of_ne (b : Bytes n) {i j : ℕ} (w : ℕ) (h : j ≠ i) :
    (b.setWord i w).word j = b.word j := by
  have hne : ∀ k < 4, (b.setWord i w).byte (4 * j + k) = b.byte (4 * j + k) :=
    fun k hk => b.byte_setWord_of_ne w (by omega)
  unfold word
  rw [hne 1 (by omega), hne 2 (by omega), hne 3 (by omega)]
  have h₀ := hne 0 (by omega)
  rw [Nat.add_zero] at h₀
  rw [h₀]

end Bytes
