import Mathlib.Algebra.GroupWithZero.Nat
import Mathlib.Data.List.Basic
import Mathlib.Data.List.GetD
import Mathlib.Data.Nat.Notation
import Mathlib.Logic.Function.Basic
import Mathlib.Tactic.Common

/-!
# Memory

A memory is a byte at every address. A program that works on it reads and writes ranges, and
what is said about a range is said of the list of its bytes.
-/

/-- A byte at every address. -/
abbrev Memory := ℕ → UInt8

namespace Memory

open Function

variable {m m' : Memory} {p n : ℕ}

/-- **The bytes of a range.** -/
def bytes (m : Memory) (p n : ℕ) : List UInt8 := (List.range n).map (fun i => m (p + i))

/-- Store bytes from an address on. -/
def store (m : Memory) (p : ℕ) (src : List UInt8) : Memory := fun a =>
  if p ≤ a ∧ a < p + src.length then src.getD (a - p) 0 else m a

@[simp] theorem length_bytes (m : Memory) (p n : ℕ) : (m.bytes p n).length = n := by
  unfold bytes
  rw [List.length_map, List.length_range]

theorem getElem_bytes (m : Memory) {i : ℕ} (hi : i < (m.bytes p n).length) :
    (m.bytes p n)[i] = m (p + i) := by
  simp only [bytes, List.getElem_map, List.getElem_range]

/-- Two ranges next to each other. -/
theorem bytes_add (m : Memory) (p a b : ℕ) :
    m.bytes p (a + b) = m.bytes p a ++ m.bytes (p + a) b := by
  unfold bytes
  rw [List.range_add, List.map_append, List.map_map]
  congr 1
  refine List.map_congr_left (fun i _ => ?_)
  show m (p + (a + i)) = m (p + a + i)
  rw [Nat.add_assoc]

theorem bytes_one (m : Memory) (p : ℕ) : m.bytes p 1 = [m p] := rfl

/-- The first byte of a range. -/
theorem bytes_succ (m : Memory) (p n : ℕ) : m.bytes p (n + 1) = m p :: m.bytes (p + 1) n := by
  rw [Nat.add_comm n 1, bytes_add]
  rfl

/-- The parts of a range. -/
theorem bytes_eq_append {l r : List UInt8} (h : m.bytes p n = l ++ r) :
    n = l.length + r.length ∧ m.bytes p l.length = l ∧ m.bytes (p + l.length) r.length = r := by
  have hn : n = l.length + r.length := by
    rw [← length_bytes m p n, h, List.length_append]
  rw [hn, bytes_add] at h
  obtain ⟨hl, hr⟩ := List.append_inj h (length_bytes m p l.length)
  exact ⟨hn, hl, hr⟩

/-- Only the bytes of the range matter. -/
theorem bytes_congr (h : ∀ a, p ≤ a → a < p + n → m' a = m a) : m'.bytes p n = m.bytes p n := by
  unfold bytes
  refine List.map_congr_left (fun i hi => ?_)
  have hi := List.mem_range.mp hi
  exact h (p + i) (Nat.le_add_right p i) (by omega)

theorem bytes_update_of_lt {a : ℕ} (h : a < p) (b : UInt8) :
    bytes (update m a b) p n = m.bytes p n :=
  bytes_congr (fun c hc _ => update_of_ne (by omega) b m)

theorem bytes_update_of_ge {a : ℕ} (h : p + n ≤ a) (b : UInt8) :
    bytes (update m a b) p n = m.bytes p n :=
  bytes_congr (fun c _ hc => update_of_ne (by omega) b m)

/-- Bytes are stored one after the other. -/
theorem store_cons (m : Memory) (p : ℕ) (b : UInt8) (src : List UInt8) :
    m.store p (b :: src) = store (update m p b) (p + 1) src := by
  funext a
  unfold store
  rw [List.length_cons]
  by_cases ha : a = p
  · rw [ha, if_pos (by omega), if_neg (by omega), Nat.sub_self, update_self]
    rfl
  · rw [update_of_ne ha]
    by_cases hin : p ≤ a ∧ a < p + (src.length + 1)
    · rw [if_pos hin, if_pos (by omega), show a - p = a - (p + 1) + 1 by omega]
      rfl
    · rw [if_neg hin, if_neg (by omega)]

theorem store_nil (m : Memory) (p : ℕ) : m.store p [] = m := by
  funext a
  exact if_neg (by rw [List.length_nil]; omega)

/-- What was stored is read. -/
theorem bytes_store (m : Memory) (p : ℕ) (src : List UInt8) :
    (m.store p src).bytes p src.length = src := by
  refine List.ext_getElem (length_bytes _ _ _) (fun i hi hi' => ?_)
  rw [getElem_bytes]
  unfold store
  rw [if_pos ⟨Nat.le_add_right p i, by omega⟩, Nat.add_sub_cancel_left, List.getD_eq_getElem _ _ hi']

/-- What is before is not touched. -/
theorem bytes_store_of_le {q : ℕ} (h : p + n ≤ q) (src : List UInt8) :
    (m.store q src).bytes p n = m.bytes p n :=
  bytes_congr (fun a _ ha => if_neg (by omega))

end Memory
