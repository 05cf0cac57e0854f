import Mathlib.Algebra.BigOperators.Group.Finset.Piecewise
import Mathlib.Algebra.BigOperators.Ring.Finset
import Mathlib.Algebra.Group.Pi.Lemmas
import Mathlib.Algebra.Order.BigOperators.Group.Finset
import Mathlib.Data.Fintype.BigOperators

/-!
# Reference counts

A table holds pointers, one at each place or none, and what they point at has a
counter. A counter is exact if it is the number of places that point there. A
program that works on the table and the counters changes one at a time, so in
the middle of its work they differ: `extra b` is by how much the counter of `b`
is ahead of the table. It is negative where the program has stored a pointer
and not counted it yet.
-/

namespace Refs

open Function

variable {Q B : Type} [Fintype Q] [DecidableEq B]

/-- The number of places that point to `b`. -/
def count (tab : Q → Option B) (b : B) : ℕ := (Finset.univ.filter (fun q => tab q = some b)).card

/-- **The counters are ahead of the table by `extra`.** -/
def Exact (tab : Q → Option B) (extra ref : B → ℤ) : Prop := ∀ b, ref b = count tab b + extra b

variable {tab : Q → Option B} {extra ref : B → ℤ} {q : Q} {b : B}

theorem count_pos : 0 < count tab b ↔ ∃ q, tab q = some b := by
  unfold count
  rw [Finset.card_pos]
  exact ⟨fun ⟨q, hq⟩ => ⟨q, (Finset.mem_filter.mp hq).2⟩,
    fun ⟨q, hq⟩ => ⟨q, Finset.mem_filter.mpr ⟨Finset.mem_univ q, hq⟩⟩⟩

/-- One place changes. -/
theorem count_update [DecidableEq Q] (tab : Q → Option B) (q : Q) (v : Option B) (b : B) :
    count (update tab q v) b + (if tab q = some b then 1 else 0)
      = count tab b + (if v = some b then 1 else 0) := by
  unfold count
  rw [Finset.card_filter, Finset.card_filter, ← Finset.add_sum_erase _ _ (Finset.mem_univ q),
    ← Finset.add_sum_erase _ _ (Finset.mem_univ q), update_self]
  have hrest : ∑ p ∈ Finset.univ.erase q, (if update tab q v p = some b then 1 else 0)
      = ∑ p ∈ Finset.univ.erase q, (if tab p = some b then 1 else 0) := by
    refine Finset.sum_congr rfl (fun p hp => ?_)
    rw [update_of_ne (Finset.ne_of_mem_erase hp)]
  omega

section

variable (h : Exact tab extra ref)

include h

/-- A pointer that is in the table is counted. -/
theorem Exact.pos (hq : tab q = some b) (hb : 0 ≤ extra b) :
    1 ≤ ref b := by
  have hcount : 0 < count tab b := count_pos.mpr ⟨q, hq⟩
  have href := h b
  omega

/-- A counter changes. -/
theorem Exact.gain {ref' : B → ℤ} {n : ℤ} (hself : ref' b = ref b + n)
    (hrest : ∀ c, c ≠ b → ref' c = ref c) : Exact tab (extra + Pi.single b n) ref' := by
  intro c
  have hc := h c
  rw [Pi.add_apply, Pi.single_apply]
  grind

/-- A counter goes down. -/
theorem Exact.lose {ref' : B → ℤ} (hself : ref' b = ref b - 1) (hrest : ∀ c, c ≠ b → ref' c = ref c) :
    Exact tab (extra - Pi.single b 1) ref' := by
  rw [sub_eq_add_neg, ← Pi.single_neg]
  exact h.gain hself hrest

/-- A pointer is stored at an empty place. -/
theorem Exact.store [DecidableEq Q] (hq : tab q = none) (b : B) :
    Exact (update tab q (some b)) (extra - Pi.single b 1) ref := by
  intro c
  have hcount := count_update tab q (some b) c
  have hc := h c
  rw [Pi.sub_apply, Pi.single_apply]
  grind

/-- A pointer is cleared. -/
theorem Exact.clear [DecidableEq Q] (hq : tab q = some b) :
    Exact (update tab q none) (extra + Pi.single b 1) ref := by
  intro c
  have hcount := count_update tab q none c
  have hc := h c
  rw [Pi.add_apply, Pi.single_apply]
  grind

end

/-- One reference that is held. -/
theorem one_le_single (b : B) : 1 ≤ (Pi.single b 1 : B → ℤ) b := by rw [Pi.single_eq_same]

/-- Two references that are held. -/
theorem one_le_single_add (b c : B) : 1 ≤ (Pi.single b 1 + Pi.single c 1 : B → ℤ) b := by
  rw [Pi.add_apply, Pi.single_eq_same, Pi.single_apply]
  split <;> decide

/-! ## Holders with several references -/

omit [DecidableEq B] in
/-- **The counters are the references held**, all holders together. -/
def Total (held : Q → B → ℕ) (ref : B → ℤ) : Prop := ∀ b, ref b = ∑ q, (held q b : ℤ)

section total

variable {held : Q → B → ℕ}

omit [DecidableEq B] in
theorem Total.le (h : Total held ref) (q : Q) (b : B) : (held q b : ℤ) ≤ ref b := by
  rw [h b]
  exact Finset.single_le_sum (f := fun q => (held q b : ℤ)) (fun _ _ => Int.natCast_nonneg _)
    (Finset.mem_univ q)

omit [DecidableEq B] in
/-- Nobody holds what has no references. -/
theorem Total.eq_zero (h : Total held ref) (hb : ref b = 0) (q : Q) : held q b = 0 := by
  have hle := h.le q b
  omega

variable [DecidableEq Q]

omit [DecidableEq B] in
/-- The holder of the only reference. -/
theorem Total.only (h : Total held ref) (hb : ref b = 1) (hq : 0 < held q b) (p : Q) :
    held p b = if p = q then 1 else 0 := by
  have hsum := h b
  have hle := h.le q b
  by_cases hp : p = q
  · rw [if_pos hp, hp]
    omega
  · rw [if_neg hp]
    have hrest : (held p b : ℤ) ≤ ∑ r ∈ Finset.univ.erase q, (held r b : ℤ) :=
      Finset.single_le_sum (f := fun r => (held r b : ℤ)) (fun _ _ => Int.natCast_nonneg _)
        (Finset.mem_erase.mpr ⟨hp, Finset.mem_univ p⟩)
    rw [← Finset.add_sum_erase _ _ (Finset.mem_univ q)] at hsum
    omega

/-- One holder has more or fewer references than before, and the counter follows. -/
theorem Total.change (h : Total held ref) {ref' : B → ℤ} {n : ℕ}
    (hself : ref' b = ref b + n - held q b) (hrest : ∀ c, c ≠ b → ref' c = ref c) :
    Total (update held q (update (held q) b n)) ref' := by
  intro c
  have hothers : ∀ p ∈ Finset.univ.erase q,
      ((update held q (update (held q) b n) p c : ℕ) : ℤ) = held p c := by
    intro p hp
    rw [update_of_ne (Finset.ne_of_mem_erase hp)]
  have hsum := h c
  rw [← Finset.add_sum_erase _ _ (Finset.mem_univ q)] at hsum ⊢
  rw [Finset.sum_congr rfl hothers, update_self]
  have hrest := hrest c
  grind [update_apply]

end total

end Refs
