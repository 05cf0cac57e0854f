import Mathlib.Data.List.Sort
import Mathlib.Order.Basic

/-!
# Stable priority queues

A priority queue is read as the list of its entries, a key with a value
each, in the order they will be extracted. It is **stable** when entries
with equal keys leave in the order they came: putting an entry in places
it after everything whose key is equal or smaller. That placement is
Mathlib's `List.orderedInsert` for the strict comparison of keys, so the
queue is that function and what is proved here is how it meets
concatenation – which is what an implementation that keeps its entries in
several pieces has to know.
-/

namespace StableQueue

variable {K V : Type} [LinearOrder K]

/-- **Put an entry**: after all entries with an equal or smaller key. -/
def put (k : K) (v : V) (q : List (K × V)) : List (K × V) :=
  q.orderedInsert (fun a b => a.1 < b.1) (k, v)

/-- A queue lists its entries by increasing key. -/
def Sorted (q : List (K × V)) : Prop := q.Pairwise (fun a b => a.1 ≤ b.1)

@[simp] theorem put_nil (k : K) (v : V) : put k v [] = [(k, v)] := rfl

variable {k : K} {e : K × V}

theorem put_cons_of_le (v : V) (q : List (K × V)) (h : e.1 ≤ k) :
    put k v (e :: q) = e :: put k v q := by
  unfold put
  rw [List.orderedInsert_cons, if_neg (not_lt.mpr h)]

theorem put_cons_of_lt (v : V) (q : List (K × V)) (h : k < e.1) :
    put k v (e :: q) = (k, v) :: e :: q := by
  unfold put
  rw [List.orderedInsert_cons, if_pos h]

variable {q : List (K × V)}

/-- Entries with equal or smaller keys stay in front. -/
theorem put_append_of_le (v : V) (q' : List (K × V)) (h : ∀ e ∈ q, e.1 ≤ k) :
    put k v (q ++ q') = q ++ put k v q' := by
  induction q with
  | nil => rfl
  | cons e q ih =>
    rw [List.cons_append, put_cons_of_le v _ (h e List.mem_cons_self),
      ih (fun x hx => h x (List.mem_cons_of_mem e hx)), List.cons_append]

/-- Entries with larger keys stay behind. -/
theorem put_append_of_lt (v : V) (q : List (K × V)) {q' : List (K × V)} (h : ∀ e ∈ q', k < e.1) :
    put k v (q ++ q') = put k v q ++ q' := by
  induction q with
  | nil =>
    cases q' with
    | nil => rfl
    | cons e q' =>
      rw [List.nil_append, put_cons_of_lt v q' (h e List.mem_cons_self)]
      rfl
  | cons e q ih =>
    rw [List.cons_append]
    rcases le_or_gt e.1 k with he | he
    · rw [put_cons_of_le v _ he, put_cons_of_le v _ he, ih, List.cons_append]
    · rw [put_cons_of_lt v _ he, put_cons_of_lt v _ he, List.cons_append, List.cons_append]

/-- Nothing is lost and nothing else is gained. -/
theorem perm_put (k : K) (v : V) (q : List (K × V)) : (put k v q).Perm ((k, v) :: q) :=
  List.perm_orderedInsert _ _ _

@[simp] theorem mem_put {v : V} :
    e ∈ put k v q ↔ e = (k, v) ∨ e ∈ q :=
  List.mem_orderedInsert _

@[simp] theorem length_put (k : K) (v : V) (q : List (K × V)) :
    (put k v q).length = q.length + 1 :=
  (perm_put k v q).length_eq

/-- **Putting keeps the order.** -/
theorem Sorted.put (h : Sorted q) (k : K) (v : V) :
    Sorted (put k v q) := by
  induction q with
  | nil => exact List.pairwise_singleton _ _
  | cons e q ih =>
    obtain ⟨he, hq⟩ := List.pairwise_cons.mp h
    rcases le_or_gt e.1 k with hk | hk
    · rw [put_cons_of_le v q hk]
      refine List.pairwise_cons.mpr ⟨fun x hx => ?_, ih hq⟩
      rcases mem_put.mp hx with rfl | hx
      · exact hk
      · exact he x hx
    · rw [put_cons_of_lt v q hk]
      refine List.pairwise_cons.mpr ⟨fun x hx => ?_, h⟩
      rcases List.mem_cons.mp hx with rfl | hx
      · exact hk.le
      · exact hk.le.trans (he x hx)

end StableQueue
