import Mathlib.Logic.Function.Basic
import Mathlib.Data.List.Basic

/-!
# Lists of writes

A device maps addresses to values; `apply` makes a list of writes to it,
the first one first. What a crash leaves is a list of writes cut short, so
the lemmas are about single addresses: one that no write goes to keeps its
value, and where the values written are a function of the address, the
order and the repetition of the writes do not matter.
-/

namespace Writes

open Function

variable {A V : Type} [DecidableEq A]

/-- Make the writes, in order. -/
def apply (d : A → V) (ws : List (A × V)) : A → V :=
  ws.foldl (fun d w => update d w.1 w.2) d

@[simp] theorem apply_nil (d : A → V) : apply d [] = d := rfl

@[simp] theorem apply_cons (d : A → V) (w : A × V) (ws : List (A × V)) :
    apply d (w :: ws) = apply (update d w.1 w.2) ws := rfl

theorem apply_append (d : A → V) (ws ws' : List (A × V)) :
    apply d (ws ++ ws') = apply (apply d ws) ws' :=
  List.foldl_append

/-- An address that no write goes to. -/
theorem apply_of_notMem {d : A → V} {ws : List (A × V)} {a : A} (h : a ∉ ws.map Prod.fst) :
    apply d ws a = d a := by
  induction ws generalizing d with
  | nil => rfl
  | cons w ws ih =>
    rw [List.map_cons, List.mem_cons, not_or] at h
    rw [apply_cons, ih h.2, update_of_ne h.1]

/-- Devices that agree off the writes. -/
theorem apply_congr {d d' : A → V} {ws : List (A × V)} (h : ∀ a ∉ ws.map Prod.fst, d a = d' a) :
    apply d ws = apply d' ws := by
  induction ws generalizing d d' with
  | nil => exact funext (fun a => h a List.not_mem_nil)
  | cons w ws ih =>
    rw [apply_cons, apply_cons]
    refine ih (fun a ha => ?_)
    by_cases haw : a = w.1
    · rw [haw, update_self, update_self]
    · rw [update_of_ne haw, update_of_ne haw]
      exact h a (fun hmem => (List.mem_cons.mp hmem).elim haw ha)

/-- Writes to different addresses. -/
theorem apply_map_of_mem {I : Type} {g : I → A} (hg : Function.Injective g) (d : A → V) (v : I → V)
    {is : List I} {i : I} (hi : i ∈ is) : apply d (is.map (fun i => (g i, v i))) (g i) = v i := by
  induction is generalizing d with
  | nil => cases hi
  | cons j is ih =>
    rw [List.map_cons, apply_cons]
    by_cases hmem : i ∈ is
    · exact ih _ hmem
    · obtain rfl := (List.mem_cons.mp hi).resolve_right hmem
      rw [apply_of_notMem, update_self]
      rw [List.map_map, List.mem_map]
      rintro ⟨j, hj, hji⟩
      exact hmem (hg hji ▸ hj)

/-- Writes of a function of the address. -/
theorem apply_map (d : A → V) (f : A → V) (as : List A) (a : A) :
    apply d (as.map (fun a => (a, f a))) a = if a ∈ as then f a else d a := by
  by_cases ha : a ∈ as
  · rw [if_pos ha]
    exact apply_map_of_mem Function.injective_id d f ha
  · rw [if_neg ha, apply_of_notMem]
    rw [List.map_map, List.mem_map]
    rintro ⟨b, hb, rfl⟩
    exact ha hb

end Writes
