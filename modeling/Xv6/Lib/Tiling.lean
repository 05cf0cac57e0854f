import Mathlib.Data.List.Basic
import Mathlib.Order.Basic

/-!
# Memory in blocks

A block is an address and a number of units of `u` bytes each. How a list of
blocks covers memory is counted byte by byte: `count u bs x` is the number of
blocks of `bs` that the byte `x` lies in. Blocks do not overlap if no count is
above one, and two lists of blocks take up the same memory if their counts
agree. Counts add up, so a block that moves from one list to another, is split
or is joined with its neighbour changes none.
-/

namespace Tiling

variable {u : ℕ} {b c : ℕ × ℕ} {bs bs' : List (ℕ × ℕ)} {x : ℕ}

/-- A byte of a block. -/
def Inside (u : ℕ) (b : ℕ × ℕ) (x : ℕ) : Prop := b.1 ≤ x ∧ x < b.1 + u * b.2

instance (u : ℕ) (b : ℕ × ℕ) (x : ℕ) : Decidable (Inside u b x) :=
  inferInstanceAs (Decidable (_ ∧ _))

/-- **The number of blocks** that a byte lies in. -/
def count (u : ℕ) (bs : List (ℕ × ℕ)) (x : ℕ) : ℕ := bs.countP (fun b => decide (Inside u b x))

/-- One block. -/
def one (u : ℕ) (b : ℕ × ℕ) (x : ℕ) : ℕ := if Inside u b x then 1 else 0

@[simp] theorem count_nil : count u [] x = 0 := rfl

@[simp] theorem count_cons : count u (b :: bs) x = one u b x + count u bs x := by
  unfold count one
  rw [List.countP_cons, Nat.add_comm]
  by_cases h : Inside u b x
  · rw [if_pos h, if_pos (decide_eq_true h)]
  · rw [if_neg h, if_neg (by rw [decide_eq_false h]; exact Bool.false_ne_true)]

@[simp] theorem count_append : count u (bs ++ bs') x = count u bs x + count u bs' x :=
  List.countP_append

/-- The order does not matter. -/
theorem count_perm (h : bs.Perm bs') : count u bs x = count u bs' x := h.countP_eq _

theorem count_pos_iff : 0 < count u bs x ↔ ∃ b ∈ bs, Inside u b x := by
  unfold count
  rw [List.countP_pos_iff]
  simp only [decide_eq_true_eq]

/-- A block of at least one unit has its first byte. -/
theorem inside_start (hu : 0 < u) (hb : 0 < b.2) : Inside u b b.1 := by
  refine ⟨Nat.le_refl _, ?_⟩
  have hpos := Nat.mul_pos hu hb
  omega

/-- **A block is split**, or two neighbours are joined. -/
theorem one_add (u a m n x : ℕ) : one u (a, m + n) x = one u (a, m) x + one u (a + u * m, n) x := by
  have hmul : u * (m + n) = u * m + u * n := Nat.mul_add u m n
  unfold one
  by_cases hx : x < a + u * m
  · have hnot : ¬ Inside u (a + u * m, n) x := fun h => Nat.not_le_of_lt hx h.1
    have hiff : Inside u (a, m + n) x ↔ Inside u (a, m) x := by
      unfold Inside
      dsimp only
      omega
    rw [if_neg hnot, Nat.add_zero]
    exact if_congr hiff rfl rfl
  · have hnot : ¬ Inside u (a, m) x := fun h => hx h.2
    have hiff : Inside u (a, m + n) x ↔ Inside u (a + u * m, n) x := by
      unfold Inside
      dsimp only
      omega
    rw [if_neg hnot, Nat.zero_add]
    exact if_congr hiff rfl rfl

/-- A block counted in bytes. -/
theorem one_bytes (u a n x : ℕ) : one u (a, n) x = one 1 (a, u * n) x := by
  have hiff : Inside u (a, n) x ↔ Inside 1 (a, u * n) x := by
    unfold Inside
    rw [Nat.one_mul]
  unfold one
  exact if_congr hiff rfl rfl

/-- **Blocks of two lists do not overlap**, if no byte is in two. -/
theorem not_inside (h : count u bs x + count u bs' x ≤ 1) (hb : b ∈ bs) (hc : c ∈ bs')
    (hx : Inside u c x) : ¬ Inside u b x := by
  intro hin
  have hpos : 0 < count u bs x := count_pos_iff.mpr ⟨b, hb, hin⟩
  have hpos' : 0 < count u bs' x := count_pos_iff.mpr ⟨c, hc, hx⟩
  omega

/-- The one of two blocks that starts first ends before the other starts. -/
theorem end_le (h : ∀ x, count u bs x + count u bs' x ≤ 1) (hu : 0 < u) (hb : b ∈ bs)
    (hc : c ∈ bs') (hpos : 0 < c.2) (hlt : b.1 ≤ c.1) : b.1 + u * b.2 ≤ c.1 := by
  by_contra hgt
  exact not_inside (h c.1) hb hc (inside_start hu hpos) ⟨hlt, Nat.lt_of_not_le hgt⟩

end Tiling
