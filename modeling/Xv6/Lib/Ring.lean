import Mathlib.Data.Fin.Basic
import Mathlib.Data.Nat.ModEq
import Mathlib.Data.List.Infix

/-!
# Rings with wrapping counters

A ring of `N` cells with two counters, of what has been taken out and of what
has been put in. The counters wrap modulo `M`, a multiple of `N`, so that a
counter modulo `N` is the cell whatever the number of turns. `Ring.Holds` ties
the cells and the counters to the two sequences, of all that was ever put in
and taken out; the tests on the counters then say whether the ring is empty or
full, and the two operations are a `++` on one of the sequences.
-/

namespace Ring

variable {α : Type} {N M : ℕ} [NeZero N]

/-- **What a ring holds**: its counters `r` and `w` count the sequences `taken`
and `sent`, and its cells hold what was sent and not taken yet. -/
structure Holds (N M : ℕ) [NeZero N] (data : Fin N → α) (r w : ℕ) (sent taken : List α) : Prop where
  r : r = taken.length % M
  w : w = sent.length % M
  room : sent.length ≤ taken.length + N
  order : taken <+: sent
  cells : ∀ (j : ℕ) (h : j < sent.length), taken.length ≤ j → data (Fin.ofNat N j) = sent.get ⟨j, h⟩

namespace Holds

variable {data : Fin N → α} {r w : ℕ} {sent taken : List α}

theorem le (h : Holds N M data r w sent taken) : taken.length ≤ sent.length := h.order.length_le

/-- A new ring. -/
theorem start (data : Fin N → α) : Holds N M data 0 0 [] [] :=
  ⟨(Nat.zero_mod M).symm, (Nat.zero_mod M).symm, Nat.zero_le _, List.prefix_rfl, fun _ h => nomatch h⟩

section

variable (h : Holds N M data r w sent taken)

include h

/-- **Equal counters mean an empty ring.** -/
theorem eq_iff_empty (hN : N < M) :
    r = w ↔ sent.length = taken.length := by
  have hle := h.le
  have hroom := h.room
  rw [h.r, h.w]
  constructor
  · intro heq
    have hmod : sent.length - taken.length ≡ 0 [MOD M] := by
      refine Nat.ModEq.add_right_cancel' taken.length ?_
      rw [Nat.sub_add_cancel hle, Nat.zero_add]
      exact heq.symm
    have hzero := hmod.eq_of_lt_of_lt (by omega) (by omega)
    omega
  · intro heq
    rw [heq]

/-- **Counters `N` apart mean a full ring.** -/
theorem eq_add_iff_full (hN : N < M) :
    w = (r + N) % M ↔ sent.length = taken.length + N := by
  have hle := h.le
  have hroom := h.room
  rw [h.r, h.w, Nat.mod_add_mod]
  constructor
  · intro heq
    have hmod : taken.length + N - sent.length ≡ 0 [MOD M] := by
      refine Nat.ModEq.add_right_cancel' sent.length ?_
      rw [Nat.sub_add_cancel hroom, Nat.zero_add]
      exact heq.symm
    have hzero := hmod.eq_of_lt_of_lt (by omega) (by omega)
    omega
  · intro heq
    rw [heq]

/-- The difference of the counters is the number of things in the ring. -/
theorem sub_mod (hN : N < M) :
    (w + (M - r)) % M = sent.length - taken.length := by
  have hle := h.le
  have hroom := h.room
  have hr : r < M := by
    rw [h.r]
    exact Nat.mod_lt _ (by omega)
  have hmod : w + (M - r) ≡ sent.length - taken.length [MOD M] := by
    refine Nat.ModEq.add_right_cancel' r ?_
    have hw : w + (M - r) + r ≡ w [MOD M] := by
      rw [Nat.add_assoc, Nat.sub_add_cancel hr.le]
      exact Nat.add_modEq_right
    have hs : sent.length - taken.length + r ≡ sent.length [MOD M] := by
      rw [h.r]
      refine ((Nat.mod_modEq taken.length M).add_left _).trans ?_
      rw [Nat.sub_add_cancel hle]
    refine hw.trans (Nat.ModEq.trans ?_ hs.symm)
    rw [h.w]
    exact Nat.mod_modEq _ _
  rw [hmod]
  exact Nat.mod_eq_of_lt (by omega)

end

/-- The cell of a counter is the cell of what it counts. -/
theorem cell_eq (hM : N ∣ M) (n : ℕ) : Fin.ofNat N (n % M) = Fin.ofNat N n := by
  refine Fin.ext ?_
  exact Nat.mod_mod_of_dvd n hM

/-- **Something is put in.** -/
theorem put (h : Holds N M data r w sent taken) (hM : N ∣ M)
    (hfull : sent.length ≠ taken.length + N) (a : α) :
    Holds N M (Function.update data (Fin.ofNat N w) a) r ((w + 1) % M) (sent ++ [a]) taken := by
  have hroom := h.room
  have hle := h.le
  have hcell : Fin.ofNat N w = Fin.ofNat N sent.length := by
    rw [h.w]
    exact cell_eq hM _
  refine ⟨h.r, ?_, ?_, h.order.trans (List.prefix_append _ _), fun j hj hj' => ?_⟩
  · rw [h.w, Nat.mod_add_mod, List.length_append]
    rfl
  · rw [List.length_append]
    show sent.length + 1 ≤ _
    omega
  · rw [List.length_append] at hj
    have hj : j < sent.length + 1 := hj
    rw [hcell]
    by_cases hlast : j = sent.length
    · subst hlast
      simp
    · have hlt : j < sent.length := by omega
      have hne : Fin.ofNat N j ≠ Fin.ofNat N sent.length := by
        intro he
        -- two numbers less than `N` apart are in different cells
        have hmod : sent.length - j ≡ 0 [MOD N] := by
          refine Nat.ModEq.add_right_cancel' j ?_
          rw [Nat.sub_add_cancel hlt.le, Nat.zero_add]
          exact (Fin.val_eq_of_eq he).symm
        have hzero := hmod.eq_of_lt_of_lt (by omega) (by omega)
        omega
      rw [Function.update_of_ne hne, h.cells j hlt hj']
      simp [List.getElem_append_left hlt]

/-- **The next thing is taken out.** -/
theorem get (h : Holds N M data r w sent taken) (hM : N ∣ M)
    (hempty : sent.length ≠ taken.length) :
    Holds N M data ((r + 1) % M) w sent (taken ++ [data (Fin.ofNat N r)]) := by
  have hle := h.le
  have hroom := h.room
  have hlt : taken.length < sent.length := by omega
  have hcell : data (Fin.ofNat N r) = sent.get ⟨taken.length, hlt⟩ := by
    rw [h.r, cell_eq hM]
    exact h.cells taken.length hlt le_rfl
  refine ⟨?_, h.w, ?_, ?_, fun j hj hj' => h.cells j hj ?_⟩
  · rw [h.r, Nat.mod_add_mod, List.length_append]
    rfl
  · rw [List.length_append]
    omega
  · obtain ⟨rest, hrest⟩ := h.order
    subst hrest
    cases rest with
    | nil => simp at hempty
    | cons b rest =>
      rw [hcell]
      refine ⟨rest, ?_⟩
      simp
  · rw [List.length_append] at hj'
    omega

/-- **What was put in last is taken back.** -/
theorem unput {a : α} (h : Holds N M data r w (sent ++ [a]) taken)
    (hsome : taken.length ≤ sent.length) :
    Holds N M data r (sent.length % M) sent taken where
  r := h.r
  w := rfl
  room := by
    have hroom := h.room
    rw [List.length_append] at hroom
    exact (Nat.le_add_right _ _).trans hroom
  order := List.prefix_of_prefix_length_le h.order (List.prefix_append _ _) hsome
  cells j hj hj' := by
    rw [h.cells j (by rw [List.length_append]; omega) hj']
    simp [List.getElem_append_left hj]

/-- The first part of what a ring holds, with a counter that stops short. -/
theorem initial {rest : List α} (h : Holds N M data r w (sent ++ rest) taken)
    (hsome : taken.length ≤ sent.length) :
    Holds N M data r (sent.length % M) sent taken := by
  induction rest using List.reverseRecOn generalizing w with
  | nil =>
    rw [List.append_nil] at h
    rwa [← h.w]
  | append_singleton rest a ih =>
    rw [← List.append_assoc] at h
    refine ih (h.unput ?_)
    rw [List.length_append]
    omega

/-- The rest of what a ring holds, with a counter that has gone ahead. -/
theorem later {mid rest : List α} (h : Holds N M data r w (taken ++ mid ++ rest) taken) :
    Holds N M data ((taken ++ mid).length % M) w (taken ++ mid ++ rest) (taken ++ mid) where
  r := rfl
  w := h.w
  room := by
    have hroom := h.room
    simp only [List.length_append] at hroom ⊢
    omega
  order := List.prefix_append _ _
  cells j hj hj' := h.cells j hj (by rw [List.length_append] at hj'; omega)

/-- The cells of a ring in order, from one counter on. -/
theorem map_range (h : Holds N M data r w (taken ++ sent) taken) (hM : N ∣ M) :
    (List.range sent.length).map (fun k => data (Fin.ofNat N ((r + k) % M))) = sent := by
  refine List.ext_getElem (by simp) fun k hk hk' => ?_
  rw [List.getElem_map, List.getElem_range, h.r, Nat.mod_add_mod, cell_eq hM]
  have hj : taken.length + k < (taken ++ sent).length := by
    rw [List.length_append]
    omega
  rw [h.cells _ hj (Nat.le_add_right _ _)]
  simp

end Holds

end Ring
