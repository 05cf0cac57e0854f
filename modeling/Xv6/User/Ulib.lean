import Mathlib.Data.List.TakeWhile
import Xv6.Lib.Memory

/-!
# The library of user programs

The functions of `ulib.c` that `grep` and the shell rest on. A string that is only read is the
list of the bytes from its pointer on, where what is past their end reads as `NUL`.
-/

namespace Xv6

open Function

namespace Ulib

/-- `memmove`, for an `int n` that is not negative. -/
def memmove (m : Memory) (dst src : ℕ) : ℕ → Memory
  | 0 => m
  | n + 1 => memmove (update m dst (m src)) (dst + 1) (src + 1) n

/-- `strchr`: how far from the pointer the character is. -/
def strchr : List UInt8 → UInt8 → Option ℕ
  | [], _ => none
  | x :: s, c => if x = 0 then none else if x = c then some 0 else (strchr s c).map (· + 1)

/-- **The string that starts where a pointer points to.** -/
def cstr (s : List UInt8) : List UInt8 := s.takeWhile (· ≠ 0)

/-- **`memmove` down** copies the bytes as they were. -/
theorem memmove_apply (m : Memory) {dst src : ℕ} (h : dst ≤ src) (n a : ℕ) :
    memmove m dst src n a = if dst ≤ a ∧ a < dst + n then m (a - dst + src) else m a := by
  induction n generalizing m dst src with
  | zero => exact (if_neg (by omega)).symm
  | succ n ih =>
    rw [memmove, ih _ (Nat.succ_le_succ h)]
    by_cases ha : a = dst
    · rw [ha, if_neg (by omega), update_self, if_pos (by omega), Nat.sub_self, Nat.zero_add]
    · rw [update_of_ne ha]
      by_cases hin : dst ≤ a ∧ a < dst + (n + 1)
      · -- the byte that is read has not been written before
        rw [if_pos (by omega), if_pos hin, update_of_ne (by omega)]
        congr 1
        omega
      · rw [if_neg (by omega), if_neg hin]

theorem bytes_memmove (m : Memory) {dst src : ℕ} (h : dst ≤ src) (n : ℕ) :
    (memmove m dst src n).bytes dst n = m.bytes src n := by
  unfold Memory.bytes
  refine List.map_congr_left (fun i hi => ?_)
  have hi := List.mem_range.mp hi
  rw [memmove_apply m h, if_pos (by omega), Nat.add_sub_cancel_left, Nat.add_comm i]

variable {s : List UInt8} {c : UInt8}

theorem strchr_lt {off : ℕ} (h : strchr s c = some off) :
    off < s.length := by
  induction s generalizing off with
  | nil => cases h
  | cons x s ih =>
    unfold strchr at h
    split at h
    · cases h
    · split at h
      · cases h
        exact Nat.succ_pos _
      · obtain ⟨i, hi, rfl⟩ := Option.map_eq_some_iff.mp h
        exact Nat.succ_lt_succ (ih hi)

/-- The character is not in the string. -/
theorem strchr_eq_none (hc : c ∉ s) (t : List UInt8) :
    strchr (s ++ 0 :: t) c = none := by
  induction s with
  | nil => rfl
  | cons x s ih =>
    rw [List.mem_cons, not_or] at hc
    rw [List.cons_append, strchr]
    split
    · rfl
    · rw [if_neg (Ne.symm hc.1), ih hc.2]
      rfl

/-- **The first place of the character.** -/
theorem strchr_eq_some (hnul : 0 ∉ s) (hc : c ∉ s) (hne : c ≠ 0) (t : List UInt8) :
    strchr (s ++ c :: t) c = some s.length := by
  induction s with
  | nil => rw [List.nil_append, strchr, if_neg hne, if_pos rfl, List.length_nil]
  | cons x s ih =>
    rw [List.mem_cons, not_or] at hnul hc
    rw [List.cons_append, strchr, if_neg (Ne.symm hnul.1), if_neg (Ne.symm hc.1), ih hnul.2 hc.2]
    rfl

/-! ## Strings in buffers -/

theorem cstr_eq_self_iff : cstr s = s ↔ 0 ∉ s := by
  unfold cstr
  rw [List.takeWhile_eq_self_iff]
  constructor
  · exact fun h hmem => of_decide_eq_true (h 0 hmem) rfl
  · rintro h x hx
    refine decide_eq_true ?_
    rintro rfl
    exact h hx

theorem cstr_eq_self (h : 0 ∉ s) : cstr s = s := cstr_eq_self_iff.mpr h

/-- What follows the end does not matter. -/
theorem cstr_append_zero (s t : List UInt8) : cstr (s ++ 0 :: t) = cstr s := by
  induction s with
  | nil => rfl
  | cons c s ih =>
    unfold cstr at ih ⊢
    rw [List.cons_append, List.takeWhile_cons, List.takeWhile_cons, ih]

end Ulib

end Xv6
