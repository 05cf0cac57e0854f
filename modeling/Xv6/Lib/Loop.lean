import Mathlib.Data.List.Chain

/-!
# Circular lists in a memory

A circular list is a memory `next` and the list of its nodes in order, from a
first one: `Loop next a l` says that `next` leads from `a` through the nodes of
`l` and back to `a`. Any node can be taken for the first (`Loop.rotate`). A
change of `next` at one node takes its successor out (`Loop.remove`) or puts a
new one in (`Loop.insert`).
-/

variable {α : Type}

/-- `next` leads along a list: it is read at all nodes but the last. -/
theorem isChain_next_congr {next next' : α → α} {l : List α} {z : α}
    (h : List.IsChain (fun x y => next x = y) (l ++ [z])) (hn : ∀ x ∈ l, next' x = next x) :
    List.IsChain (fun x y => next' x = y) (l ++ [z]) := by
  induction l with
  | nil => exact List.isChain_singleton z
  | cons a l ih =>
    have hrest := fun x hx => hn x (List.mem_cons_of_mem a hx)
    cases l with
    | nil =>
      rw [List.cons_append, List.nil_append, List.isChain_cons_cons] at h ⊢
      exact ⟨(hn a List.mem_cons_self).trans h.1, List.isChain_singleton z⟩
    | cons b l =>
      rw [List.cons_append, List.cons_append, List.isChain_cons_cons] at h ⊢
      exact ⟨(hn a List.mem_cons_self).trans h.1, ih h.2 hrest⟩

/-- **A circular list** of the nodes `a :: l`. -/
def Loop (next : α → α) (a : α) (l : List α) : Prop :=
  List.IsChain (fun x y => next x = y) (a :: l ++ [a])

namespace Loop

variable {next next' : α → α} {a b p : α} {l l' u v : List α}

/-- A circular list depends on its own nodes. -/
theorem congr (h : Loop next a l) (hn : ∀ x ∈ a :: l, next' x = next x) : Loop next' a l :=
  isChain_next_congr h hn

/-- **Any node can be the first.** -/
theorem rotate (h : Loop next a (u ++ b :: v)) : Loop next b (v ++ a :: u) := by
  have hsplit : a :: (u ++ b :: v) ++ [a] = (a :: u) ++ b :: (v ++ [a]) := by simp
  have hsplit' : b :: (v ++ a :: u) ++ [b] = (b :: v) ++ a :: (u ++ [b]) := by simp
  unfold Loop at *
  rw [hsplit, List.isChain_split] at h
  rw [hsplit', List.isChain_split]
  exact ⟨h.2, h.1⟩

/-- **A circular list from any of its nodes.** -/
theorem start (h : Loop next a l) (hp : p ∈ a :: l) : ∃ r, Loop next p r ∧ (p :: r).Perm (a :: l) := by
  rcases List.mem_cons.mp hp with rfl | hp
  · exact ⟨l, h, List.Perm.refl _⟩
  · obtain ⟨u, v, rfl⟩ := List.append_of_mem hp
    refine ⟨v ++ a :: u, h.rotate, ?_⟩
    have hperm : (p :: v ++ a :: u).Perm (a :: u ++ p :: v) := List.perm_append_comm
    exact hperm

/-- A node and its successor. -/
theorem next_eq (h : Loop next a l) (hl : a :: l = u ++ p :: v) : next p = v.headD a := by
  unfold Loop at h
  rw [hl, List.append_assoc, List.cons_append] at h
  cases v with
  | nil =>
    rw [List.nil_append, List.isChain_append_cons_cons] at h
    exact h.2.1
  | cons c v =>
    rw [List.cons_append, List.isChain_append_cons_cons] at h
    exact h.2.1

/-- What is before a node and what is after it. -/
theorem split (h : Loop next a l) (hl : a :: l = u ++ p :: v) :
    List.IsChain (fun x y => next x = y) (u ++ [p])
      ∧ List.IsChain (fun x y => next x = y) (v ++ [a]) := by
  unfold Loop at h
  rw [hl, List.append_assoc, List.cons_append, List.isChain_split] at h
  exact ⟨h.1, h.2.tail⟩

/-- A circular list is put together at a node. -/
theorem of_split (hl : a :: l = u ++ p :: v)
    (hu : List.IsChain (fun x y => next x = y) (u ++ [p]))
    (hv : List.IsChain (fun x y => next x = y) (v ++ [a])) (hp : next p = v.headD a) :
    Loop next a l := by
  unfold Loop
  rw [hl, List.append_assoc, List.cons_append, List.isChain_split]
  refine ⟨hu, ?_⟩
  cases v with
  | nil =>
    rw [List.nil_append, List.isChain_cons_cons]
    exact ⟨hp, List.isChain_singleton a⟩
  | cons c v =>
    rw [List.cons_append, List.isChain_cons_cons]
    exact ⟨hp, hv⟩

/-- What is before a node and what is after it, when only its own successor has changed. -/
theorem split_update (h : Loop next a l) (hnodup : (a :: l).Nodup) (hl : a :: l = u ++ p :: v)
    (hn : ∀ x ∈ a :: l, x ≠ p → next' x = next x) :
    List.IsChain (fun x y => next' x = y) (u ++ [p])
      ∧ List.IsChain (fun x y => next' x = y) (v ++ [a]) := by
  obtain ⟨hu, hv⟩ := h.split hl
  rw [hl, List.nodup_append, List.nodup_cons] at hnodup
  obtain ⟨-, ⟨hpv, -⟩, hpu⟩ := hnodup
  refine ⟨isChain_next_congr hu (fun x hx => ?_), isChain_next_congr hv (fun x hx => ?_)⟩
  · exact hn x (by rw [hl]; exact List.mem_append_left _ hx) (hpu x hx p List.mem_cons_self)
  · refine hn x (by rw [hl]; exact List.mem_append_right _ (List.mem_cons_of_mem p hx)) ?_
    rintro rfl
    exact hpv hx

/-- **A node is put in** after another. -/
theorem insert (h : Loop next a l) (hnodup : (a :: l).Nodup) (hl : a :: l = u ++ p :: v)
    (hl' : a :: l' = u ++ p :: b :: v) (hp : next' p = b) (hb : next' b = next p)
    (hn : ∀ x ∈ a :: l, x ≠ p → next' x = next x) : Loop next' a l' := by
  obtain ⟨hu, hv'⟩ := h.split_update hnodup hl hn
  refine of_split hl' hu ?_ hp
  have hbv : next' b = v.headD a := hb.trans (h.next_eq hl)
  cases v with
  | nil =>
    rw [List.cons_append, List.nil_append, List.isChain_cons_cons]
    exact ⟨hbv, List.isChain_singleton a⟩
  | cons c v =>
    rw [List.cons_append, List.cons_append, List.isChain_cons_cons]
    exact ⟨hbv, hv'⟩

/-- **The successor of a node is taken out.** -/
theorem remove (h : Loop next a l) (hnodup : (a :: l).Nodup) (hl : a :: l = u ++ p :: b :: v)
    (hl' : a :: l' = u ++ p :: v) (hp : next' p = next b)
    (hn : ∀ x ∈ a :: l, x ≠ p → next' x = next x) : Loop next' a l' := by
  obtain ⟨hu, hv⟩ := h.split_update hnodup hl hn
  have hl'' : a :: l = (u ++ [p]) ++ b :: v := by
    rw [hl, List.append_assoc]
    rfl
  exact of_split hl' hu hv.tail (hp.trans (h.next_eq hl''))

end Loop
