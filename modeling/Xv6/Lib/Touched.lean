import Mathlib.Data.Finset.Card
import Mathlib.Data.Finset.Dedup
import Mathlib.Data.Set.Insert

/-!
# What a list has come to hold

A program appends to a list, and what counts is how many different things it has
appended. Most of them are known beforehand, and the same ones come again and again;
the others are counted. `Touched M n l l'` says that what `l'` has and `l` has not is in
`M`, but for `n` things.
-/

/-- **The new elements** of a list are in a set, but for some number. -/
def Touched {A : Type} (M : Set A) (n : ℕ) (l l' : List A) : Prop :=
  ∃ T : Finset A, T.card ≤ n ∧ ∀ x ∈ l', x ∈ l ∨ x ∈ M ∨ x ∈ T

namespace Touched

variable {A : Type} {M M' : Set A} {n n' : ℕ} {l l₁ l' : List A} {x : A}

theorem refl (M : Set A) (l : List A) : Touched M 0 l l :=
  ⟨∅, Nat.le_refl 0, fun _ hx => .inl hx⟩

theorem of_eq (h : l' = l) : Touched M 0 l l' := h ▸ refl M l

theorem mono (h : Touched M n l l') (hM : M ⊆ M') (hn : n ≤ n') : Touched M' n' l l' := by
  obtain ⟨T, hT, hl⟩ := h
  exact ⟨T, hT.trans hn, fun x hx => (hl x hx).imp_right (Or.imp_left (fun hm => hM hm))⟩

theorem trans [DecidableEq A] (h : Touched M n l l₁) (h' : Touched M n' l₁ l') :
    Touched M (n + n') l l' := by
  obtain ⟨T, hT, hl⟩ := h
  obtain ⟨T', hT', hl'⟩ := h'
  refine ⟨T ∪ T', (Finset.card_union_le T T').trans (Nat.add_le_add hT hT'), fun x hx => ?_⟩
  rcases hl' x hx with hx | hx | hx
  · rcases hl x hx with hx | hx | hx
    · exact .inl hx
    · exact .inr (.inl hx)
    · exact .inr (.inr (Finset.mem_union_left T' hx))
  · exact .inr (.inl hx)
  · exact .inr (.inr (Finset.mem_union_right T hx))

/-- Something of the set is appended. -/
theorem snoc (h : Touched M n l l') (hx : x ∈ M) : Touched M n l (l' ++ [x]) := by
  obtain ⟨T, hT, hl⟩ := h
  refine ⟨T, hT, fun y hy => ?_⟩
  rcases List.mem_append.mp hy with hy | hy
  · exact hl y hy
  · rw [List.mem_singleton.mp hy]
    exact .inr (.inl hx)

/-- One thing is counted instead of known. -/
theorem count [DecidableEq A] (h : Touched M n l l') (hM : M ⊆ insert x M') :
    Touched M' (n + 1) l l' := by
  obtain ⟨T, hT, hl⟩ := h
  refine ⟨insert x T, (Finset.card_insert_le x T).trans (Nat.add_le_add_right hT 1), fun y hy => ?_⟩
  rcases hl y hy with hy | hy | hy
  · exact .inl hy
  · rcases hM hy with rfl | hy
    · exact .inr (.inr (Finset.mem_insert_self y T))
    · exact .inr (.inl hy)
  · exact .inr (.inr (Finset.mem_insert_of_mem hy))

/-- **How many elements** a list has that was empty. -/
theorem card_le [DecidableEq A] {F : Finset A} (h : Touched (fun x => x ∈ F) n [] l) :
    l.toFinset.card ≤ F.card + n := by
  obtain ⟨T, hT, hl⟩ := h
  refine (Finset.card_le_card (t := F ∪ T) (fun x hx => ?_)).trans
    ((Finset.card_union_le F T).trans (Nat.add_le_add_left hT _))
  rcases hl x (List.mem_toFinset.mp hx) with hx | hx | hx
  · cases hx
  · exact Finset.mem_union_left T hx
  · exact Finset.mem_union_right F hx

end Touched
