import Xv6.User.Ulib

/-!
# Two ways to move memory

The kernel's `memmove` (`string.c`) and that of the user library (`ulib.c`) against the copy of a
snapshot: the bytes of the source as they were, stored at the destination.

Overlap is the point. A loop that goes up is right when the destination is below the source, and
one that goes down when it is above. The kernel looks at the pointers and picks its loop; the user
library always goes up. There the byte that is read may have been written by the same call, and
what comes out is its own fixed point: in the memory it leaves, the destination equals the source
(`memmove_apply_of_lt`). That is the snapshot exactly when the bytes in the overlap were equal to
those they are read over in the first place.
-/

namespace Xv6

open Function

/-! ## The kernel -/

namespace Kstring

/-- A pointer has 32 bits. -/
def ptr (a : ℕ) : ℕ := a % 2 ^ 32

/-- `while(n-- > 0) *d++ = *s++`. -/
def copyUp (m : Memory) (d s : ℕ) : ℕ → Memory
  | 0 => m
  | n + 1 => copyUp (update m d (m s)) (ptr (d + 1)) (ptr (s + 1)) n

/-- `while(n-- > 0) *--d = *--s`. -/
def copyDown (m : Memory) (d s : ℕ) : ℕ → Memory
  | 0 => m
  | n + 1 =>
    let d := ptr (d + (2 ^ 32 - 1))
    let s := ptr (s + (2 ^ 32 - 1))
    copyDown (update m d (m s)) d s n

/-- `memmove` of `string.c`. -/
def memmove (m : Memory) (dst src n : ℕ) : Memory :=
  if src < dst ∧ ptr (src + n) > dst then copyDown m (ptr (dst + n)) (ptr (src + n)) n
  else copyUp m dst src n

/-- In a range that does not wrap the loop that goes up is that of the user library. -/
theorem copyUp_eq (m : Memory) {d s n : ℕ} (hd : d + n ≤ 2 ^ 32) (hs : s + n ≤ 2 ^ 32) :
    copyUp m d s n = Ulib.memmove m d s n := by
  induction n generalizing m d s with
  | zero => rfl
  | succ n ih =>
    rw [copyUp, Ulib.memmove]
    cases n with
    | zero => rfl
    | succ n =>
      rw [ptr, ptr, Nat.mod_eq_of_lt (by omega), Nat.mod_eq_of_lt (by omega),
        ih _ (by omega) (by omega)]

/-- A step back from the end of a range. -/
theorem ptr_pred {p n : ℕ} (h : p + (n + 1) ≤ 2 ^ 32) :
    ptr (ptr (p + (n + 1)) + (2 ^ 32 - 1)) = p + n := by
  unfold ptr
  omega

/-- **Going down** copies the bytes as they were, when the destination is above the source. -/
theorem copyDown_apply (m : Memory) {dst src n : ℕ} (h : src < dst) (hd : dst + n ≤ 2 ^ 32)
    (a : ℕ) : copyDown m (ptr (dst + n)) (ptr (src + n)) n a
      = if dst ≤ a ∧ a < dst + n then m (a - dst + src) else m a := by
  induction n generalizing m with
  | zero => exact (if_neg (by omega)).symm
  | succ n ih =>
    have ih := ih (update m (dst + n) (m (src + n))) (by omega)
    rw [show ptr (dst + n) = dst + n from Nat.mod_eq_of_lt (by omega),
      show ptr (src + n) = src + n from Nat.mod_eq_of_lt (by omega)] at ih
    simp only [copyDown, ptr_pred hd, ptr_pred (show src + (n + 1) ≤ 2 ^ 32 by omega), ih]
    by_cases ha : a = dst + n
    · rw [if_neg (by omega), if_pos (by omega), ha, update_self]
      congr 1
      omega
    · rw [update_of_ne ha]
      by_cases hin : dst ≤ a ∧ a < dst + n
      · -- the byte that is read is below what has been written
        rw [if_pos hin, if_pos (by omega), update_of_ne (by omega)]
      · rw [if_neg hin, if_neg (by omega)]

end Kstring

/-! ## The user library -/

namespace Ulib

/-- **Going up into higher memory** leaves a destination that equals the source as it is then: a
byte of the source that was written was written before it was read. -/
theorem memmove_apply_of_lt (m : Memory) {dst src : ℕ} (h : src < dst) (n a : ℕ) :
    memmove m dst src n a
      = if dst ≤ a ∧ a < dst + n then memmove m dst src n (a - dst + src) else m a := by
  induction n generalizing m dst src a with
  | zero => exact (if_neg (by omega)).symm
  | succ n ih =>
    have ih := ih (update m dst (m src)) (Nat.succ_lt_succ h)
    rw [memmove, ih a]
    by_cases ha : a = dst
    · rw [ha, if_neg (by omega), if_pos (by omega), update_self, ih, if_neg (by omega),
        update_of_ne (by omega), Nat.sub_self, Nat.zero_add]
    · rw [update_of_ne ha]
      by_cases hin : dst ≤ a ∧ a < dst + (n + 1)
      · rw [if_pos (by omega), if_pos hin, show a - (dst + 1) + (src + 1) = a - dst + src by omega]
      · rw [if_neg (by omega), if_neg hin]

/-- The snapshot, byte by byte. -/
theorem store_bytes_apply (m : Memory) (dst src n a : ℕ) :
    m.store dst (m.bytes src n) a = if dst ≤ a ∧ a < dst + n then m (a - dst + src) else m a := by
  unfold Memory.store
  rw [Memory.length_bytes]
  by_cases h : dst ≤ a ∧ a < dst + n
  · rw [if_pos h, if_pos h, List.getD_eq_getElem _ _ (by rw [Memory.length_bytes]; omega),
      Memory.getElem_bytes, Nat.add_comm]
  · rw [if_neg h, if_neg h]

/-- **The loop that goes up, against the snapshot**: they agree when every byte of the overlap
equals the byte that is written over it. With the destination below the source, or past its end,
there is nothing to ask. -/
theorem memmove_eq_store_iff (m : Memory) (dst src n : ℕ) :
    memmove m dst src n = m.store dst (m.bytes src n)
      ↔ (src < dst → ∀ i, dst + i < src + n → m (dst + i) = m (src + i)) := by
  rcases Nat.lt_or_ge src dst with h | h
  · have hin : ∀ i < n, memmove m dst src n (dst + i) = memmove m dst src n (src + i) := by
      intro i hi
      rw [memmove_apply_of_lt m h n (dst + i), if_pos (by omega), Nat.add_sub_cancel_left,
        Nat.add_comm]
    have hsnap : ∀ i < n, m.store dst (m.bytes src n) (dst + i) = m (src + i) := by
      intro i hi
      rw [store_bytes_apply, if_pos (by omega), Nat.add_sub_cancel_left, Nat.add_comm]
    constructor
    · intro heq _ i hi
      have hstep := hin (dst - src + i) (by omega)
      rw [heq, hsnap _ (by omega), show src + (dst - src + i) = dst + i by omega,
        hsnap i (by omega)] at hstep
      exact hstep
    · intro heq
      -- on the index: the byte is read where it was written, or where nothing is written
      have hall : ∀ i < n, memmove m dst src n (dst + i) = m (src + i) := by
        intro i
        induction i using Nat.strong_induction_on with
        | _ i ih =>
          intro hi
          rw [hin i hi]
          by_cases hlow : src + i < dst
          · rw [memmove_apply_of_lt m h, if_neg (by omega)]
          · obtain ⟨j, hj⟩ : ∃ j, src + i = dst + j := ⟨src + i - dst, by omega⟩
            rw [hj, ih j (by omega) (by omega), heq h j (by omega)]
      funext a
      rw [store_bytes_apply]
      by_cases ha : dst ≤ a ∧ a < dst + n
      · rw [if_pos ha, Nat.add_comm (a - dst), ← hall (a - dst) (by omega)]
        congr 1
        omega
      · rw [if_neg ha, memmove_apply_of_lt m h, if_neg ha]
  · refine iff_of_true ?_ (fun hlt => absurd hlt (by omega))
    funext a
    rw [memmove_apply m h, store_bytes_apply]

end Ulib

/-! ## Both -/

/-- **Both against the snapshot**, for ranges that do not wrap and an `n` that the user library's
`int n` does not read as negative. The kernel's copy is the snapshot.
That of the user library is the snapshot exactly when the destination does not begin inside the
source, or each byte of the overlap already is what the copy puts there. -/
theorem memmove_snapshot (m : Memory) {dst src n : ℕ} (_ : n < 2 ^ 31) (hd : dst + n ≤ 2 ^ 32)
    (hs : src + n ≤ 2 ^ 32) :
    Kstring.memmove m dst src n = m.store dst (m.bytes src n)
      ∧ (Ulib.memmove m dst src n = m.store dst (m.bytes src n)
        ↔ (src < dst → ∀ i, dst + i < src + n → m (dst + i) = m (src + i))) := by
  refine ⟨?_, Ulib.memmove_eq_store_iff m dst src n⟩
  unfold Kstring.memmove
  split
  · rename_i h
    funext a
    rw [Kstring.copyDown_apply m h.1 hd, Ulib.store_bytes_apply]
  · rename_i h
    rw [Kstring.copyUp_eq m hd hs, Ulib.memmove_eq_store_iff]
    -- a source below the destination ends below the top of memory, so its end did not wrap
    intro hlt i hi
    rw [Kstring.ptr, Nat.mod_eq_of_lt (by omega)] at h
    omega

/-- Bytes that all differ from their neighbours: the kernel moves two of them up by one, and the
user library moves two of them down by one. -/
theorem memmove_snapshot_distinct :
    Kstring.memmove (fun a => a.toUInt8) 4097 4096 2
        = Memory.store (fun a => a.toUInt8) 4097 (Memory.bytes (fun a => a.toUInt8) 4096 2)
      ∧ Ulib.memmove (fun a => a.toUInt8) 4096 4097 2
        = Memory.store (fun a => a.toUInt8) 4096 (Memory.bytes (fun a => a.toUInt8) 4097 2) :=
  ⟨(memmove_snapshot _ (by decide) (by decide) (by decide)).1,
    (memmove_snapshot _ (by decide) (by decide) (by decide)).2.mpr (nomatch ·)⟩

/-- **The user library loses a byte**: two bytes moved up by one come out as the first of them
twice. -/
theorem memmove_overlap :
    Ulib.memmove (fun a => a.toUInt8) 4097 4096 2
      ≠ Memory.store (fun a => a.toUInt8) 4097 (Memory.bytes (fun a => a.toUInt8) 4096 2) := by
  intro h
  exact absurd (congrFun h 4098) (by decide)

end Xv6
