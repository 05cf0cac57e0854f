import Mathlib.Data.List.Basic
import Mathlib.Data.Nat.Notation
import Mathlib.Tactic.Common

/-!
# Records that a separator ends

A text is a sequence of records, each one ended by a separator, and what comes after the last
separator: a record that is not finished. A program that reads the text from left to right
sees a record when it sees the separator, so what it does is said by induction on the
records.
-/

namespace Separated

variable {A : Type} [DecidableEq A] {sep : A} {l w : List A}

/-- The records, without their separators. -/
def finished (sep : A) (w : List A) : List (List A) := (w.splitOn sep).dropLast

/-- The record that is not finished. -/
def unfinished (sep : A) (w : List A) : List A := (w.splitOn sep).getLastD []

/-- **A text is a record that is not finished, or a record and the rest.** -/
@[elab_as_elim]
theorem induction (sep : A) {P : List A → Prop} (last : ∀ w, sep ∉ w → P w)
    (record : ∀ l w, sep ∉ l → P w → P (l ++ sep :: w)) (w : List A) : P w := by
  induction hn : w.length using Nat.strongRecOn generalizing w with
  | ind n ih =>
    by_cases hw : sep ∈ w
    · obtain ⟨l, w', rfl, hl⟩ := List.eq_append_cons_of_mem hw
      refine record l w' hl (ih w'.length ?_ w' rfl)
      rw [← hn, List.length_append, List.length_cons]
      omega
    · exact last w hw

theorem finished_of_notMem (hw : sep ∉ w) : finished sep w = [] := by
  unfold finished
  rw [List.splitOn_eq_singleton hw]
  rfl

theorem finished_record (hl : sep ∉ l) (w : List A) :
    finished sep (l ++ sep :: w) = l :: finished sep w := by
  unfold finished
  rw [List.splitOn_append_cons_self_of_not_mem hl,
    List.dropLast_cons_of_ne_nil (List.splitOn_ne_nil _ _)]

theorem unfinished_of_notMem (hw : sep ∉ w) : unfinished sep w = w := by
  unfold unfinished
  rw [List.splitOn_eq_singleton hw]
  rfl

theorem unfinished_record (hl : sep ∉ l) (w : List A) :
    unfinished sep (l ++ sep :: w) = unfinished sep w := by
  unfold unfinished
  rw [List.splitOn_append_cons_self_of_not_mem hl]
  cases hw : w.splitOn sep with
  | nil => exact absurd hw (List.splitOn_ne_nil _ _)
  | cons a as => rfl

theorem unfinished_suffix (sep : A) (w : List A) : unfinished sep w <:+ w := by
  induction w using induction sep with
  | last w hw =>
    exact ⟨[], unfinished_of_notMem hw⟩
  | record l w hl ih =>
    rw [unfinished_record hl]
    exact ih.trans ((List.suffix_cons sep w).trans (List.suffix_append l _))

theorem notMem_unfinished (sep : A) (w : List A) : sep ∉ unfinished sep w := by
  induction w using induction sep with
  | last w hw =>
    rw [unfinished_of_notMem hw]
    exact hw
  | record l w hl ih =>
    rw [unfinished_record hl]
    exact ih

theorem length_unfinished_lt (hw : sep ∈ w) : (unfinished sep w).length < w.length := by
  obtain ⟨l, w', rfl, hl⟩ := List.eq_append_cons_of_mem hw
  have hle := (unfinished_suffix sep w').length_le
  rw [unfinished_record hl, List.length_append, List.length_cons]
  omega

/-- What is before a separator is no part of the record that is not finished. -/
theorem unfinished_append (hw : sep ∈ w) (l : List A) :
    unfinished sep (l ++ w) = unfinished sep w := by
  induction l using induction sep with
  | last l hl =>
    obtain ⟨r, v, rfl, hr⟩ := List.eq_append_cons_of_mem hw
    rw [← List.append_assoc, unfinished_record (fun h => (List.mem_append.mp h).elim hl hr),
      unfinished_record hr]
  | record r l hr ih =>
    rw [List.append_assoc, List.cons_append, unfinished_record hr, ih]

end Separated
