import Mathlib.Logic.Function.Basic
import Mathlib.Data.List.Nodup

/-!
# Linked segments in a memory

A singly linked list in a memory is a starting pointer and a `next` field
per cell. The shape such a list has is a **segment**: from the pointer `p`
one reads the cells of `l` in order, and the last `next` field read is
`q`. A whole list is a segment that ends in the null pointer.

Nothing here is about what the cells carry. A memory changes cell by cell,
so the two facts everything else rests on are that a segment depends only
on the `next` fields of its own cells (`Seg.congr`) and that segments
concatenate (`seg_append`); the list a pointer starts is then determined
by the memory (`Seg.unique`).
-/

variable {α : Type}

/-- **A linked segment**: following `next` from `p` one meets exactly the
cells of the list, in order, and stops at `q`. -/
def Seg (next : α → Option α) : Option α → List α → Option α → Prop
  | p, [], q => p = q
  | p, a :: l, q => p = some a ∧ Seg next (next a) l q

namespace Seg

variable {next next' : α → Option α} {p q r : Option α} {a : α} {l l' : List α}

@[simp] theorem nil_iff : Seg next p [] q ↔ p = q := Iff.rfl

@[simp] theorem cons_iff :
    Seg next p (a :: l) q ↔ p = some a ∧ Seg next (next a) l q := Iff.rfl

/-- **A segment reads only its own cells**: a memory that agrees on their
`next` fields has the same segment. -/
theorem congr (h : Seg next p l q) (hn : ∀ a ∈ l, next' a = next a) :
    Seg next' p l q := by
  induction l generalizing p with
  | nil => exact h
  | cons a l ih =>
    obtain ⟨hp, hl⟩ := h
    refine ⟨hp, ?_⟩
    rw [hn a List.mem_cons_self]
    exact ih hl (fun b hb => hn b (List.mem_cons_of_mem a hb))

/-- A segment that starts at the null pointer and ends there is empty. -/
theorem eq_nil_of_none (h : Seg next none l none) : l = [] := by
  cases l with
  | nil => rfl
  | cons a l => exact absurd h.1 (by simp)

/-- The first cell of a non-empty segment is where its pointer points. -/
theorem head (h : Seg next p (a :: l) q) : p = some a := h.1

/-- A whole list is empty exactly when its pointer is null. -/
theorem eq_none_iff (h : Seg next p l none) : p = none ↔ l = [] := by
  constructor
  · rintro rfl
    exact h.eq_nil_of_none
  · rintro rfl
    exact h

/-- **The memory determines the list**: a pointer starts one whole list. -/
theorem unique (h : Seg next p l none) (h' : Seg next p l' none) : l = l' := by
  induction l generalizing p l' with
  | nil =>
    obtain rfl : p = none := h
    exact h'.eq_nil_of_none.symm
  | cons a l ih =>
    obtain ⟨rfl, hl⟩ := h
    cases l' with
    | nil => exact absurd h' (by simp)
    | cons b l' =>
      obtain ⟨hab, hl'⟩ := h'
      obtain rfl := Option.some.inj hab
      rw [ih hl hl']

end Seg

/-- **Segments concatenate**, at the pointer where the first one stops. -/
theorem seg_append {next : α → Option α} {p q : Option α} {l l' : List α} :
    Seg next p (l ++ l') q ↔ ∃ r, Seg next p l r ∧ Seg next r l' q := by
  induction l generalizing p with
  | nil => simp
  | cons a l ih =>
    simp only [List.cons_append, Seg.cons_iff, ih]
    constructor
    · rintro ⟨hp, r, h, h'⟩
      exact ⟨r, ⟨hp, h⟩, h'⟩
    · rintro ⟨r, ⟨hp, h⟩, h'⟩
      exact ⟨hp, r, h, h'⟩

/-- **Redirecting the last cell redirects the segment.** The cells before
it keep their `next` fields, which is where the segment must have no
repeated cell. -/
theorem Seg.redirect {next next' : α → Option α} {p q r : Option α} {a : α}
    {l : List α} (h : Seg next p (l ++ [a]) q) (hl : ∀ b ∈ l, next' b = next b)
    (ha : next' a = r) : Seg next' p (l ++ [a]) r := by
  obtain ⟨s, hs, hsa, -⟩ := seg_append.mp h
  exact seg_append.mpr ⟨s, hs.congr hl, hsa, ha⟩
