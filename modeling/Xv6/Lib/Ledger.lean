import Mathlib.Data.Set.Insert
import Mathlib.Logic.Equiv.Defs
import Mathlib.Logic.Function.Basic

/-!
# Ledgers

Places own things: `owner` gives what a place owns, if anything. A thing in
use is owned by one place, or it is held – by the allocator's caller, say,
who has not stored it anywhere yet. Things move in four ways: a free one is
taken and held, a held one is stored at a place or given back, and a place
gives up what it owned.
-/

/-- **A ledger**: what is in use is held or owned, and never twice. -/
structure Ledger {P B : Type} (owner : P → Option B) (used held : Set B) : Prop where
  unique : ∀ {p q b}, owner p = some b → owner q = some b → p = q
  apart : ∀ {p b}, owner p = some b → b ∉ held
  mem_used : ∀ b, b ∈ used ↔ b ∈ held ∨ ∃ p, owner p = some b

namespace Ledger

open Function

variable {P B : Type} {owner : P → Option B} {used held : Set B}

variable {p : P} {b : B}

variable (h : Ledger owner used held)

include h

theorem used_of_owner (hp : owner p = some b) :
    b ∈ used :=
  (h.mem_used b).mpr (.inr ⟨p, hp⟩)

theorem used_of_held (hb : b ∈ held) : b ∈ used :=
  (h.mem_used b).mpr (.inl hb)

/-- A free thing is taken. -/
theorem take (hb : b ∉ used) :
    Ledger owner (insert b used) (insert b held) where
  unique := h.unique
  apart := fun hp hmem => by
    rcases Set.mem_insert_iff.mp hmem with rfl | hmem
    · exact hb (h.used_of_owner hp)
    · exact h.apart hp hmem
  mem_used := fun c => by
    rw [Set.mem_insert_iff, Set.mem_insert_iff, h.mem_used, or_assoc]

/-- A held thing is given back. -/
theorem release (hb : b ∈ held) :
    Ledger owner (used \ {b}) (held \ {b}) where
  unique := h.unique
  apart := fun hp hmem => h.apart hp hmem.1
  mem_used := fun c => by
    have happart := @h.apart
    rw [Set.mem_sdiff, Set.mem_sdiff, h.mem_used]
    grind

/-- A held thing is stored at an empty place. -/
theorem store [DecidableEq P] (hb : b ∈ held) (hp : owner p = none) :
    Ledger (update owner p (some b)) used (held \ {b}) := by
  obtain ⟨hunique, hapart, hused⟩ := h
  refine ⟨by grind [update_apply], by grind [update_apply], fun c => ?_⟩
  rw [hused, Set.mem_sdiff, Set.mem_singleton_iff]
  constructor
  · rintro (hc | ⟨q, hq⟩)
    · by_cases hcb : c = b
      · exact .inr ⟨p, by rw [update_self, hcb]⟩
      · exact .inl ⟨hc, hcb⟩
    · exact .inr ⟨q, by grind [update_apply]⟩
  · rintro (⟨hc, -⟩ | ⟨q, hq⟩)
    · exact .inl hc
    · grind [update_apply]

/-- The places are named in another way. -/
theorem reindex {Q : Type} (e : Q ≃ P) :
    Ledger (fun q => owner (e q)) used held where
  unique := fun hp hq => e.injective (h.unique hp hq)
  apart := fun hp => h.apart hp
  mem_used := fun b => by
    rw [h.mem_used]
    refine or_congr_right ⟨fun ⟨p, hp⟩ => ⟨e.symm p, ?_⟩, fun ⟨q, hq⟩ => ⟨e q, hq⟩⟩
    rw [e.apply_symm_apply]
    exact hp

/-- Some places give up all they owned. -/
theorem vacate {owner' : P → Option B} (gone : P → Prop) (hgone : ∀ p, gone p → owner' p = none)
    (hkeep : ∀ p, ¬ gone p → owner' p = owner p) :
    Ledger owner' used (held ∪ {b | ∃ p, gone p ∧ owner p = some b}) where
  unique := by
    have hunique := @h.unique
    grind
  apart := by
    have hunique := @h.unique
    have happart := @h.apart
    grind
  mem_used := by
    intro b
    rw [h.mem_used, Set.mem_union, Set.mem_ofPred_eq, or_assoc]
    refine or_congr_right ⟨?_, ?_⟩
    · rintro ⟨p, hp⟩
      by_cases hg : gone p
      · exact .inl ⟨p, hg, hp⟩
      · exact .inr ⟨p, by rw [hkeep p hg, hp]⟩
    · rintro (⟨p, -, hp⟩ | ⟨p, hp⟩) <;> exact ⟨p, by grind⟩

/-- One place gives up what it owned. -/
theorem giveUp {owner' : P → Option B} (hp : owner p = some b) (hgone : owner' p = none)
    (hkeep : ∀ q, q ≠ p → owner' q = owner q) :
    Ledger owner' used (insert b held) := by
  have hset : insert b held = held ∪ {c | ∃ q, q = p ∧ owner q = some c} := by
    ext c
    simp [hp, eq_comm]
  rw [hset]
  exact h.vacate (· = p) (fun _ hq => hq ▸ hgone) hkeep

end Ledger
