import Mathlib.Logic.Function.Basic

/-!
# Locks and who holds them

A lock is free or has a holder. Which locks a process holds can also be read
off the place in its program where it is, and the two agree: `Tracked` says so,
and the rules keep it when a process takes a lock that is free, gives one back,
or does neither. That two processes are never at places that hold the same lock
is all that mutual exclusion means.
-/

namespace Locks

open Function

variable {P L : Type} {lock : L → Option P} {holds holds' : P → L → Prop} {p q : P} {l : L}

/-- **The holder of a lock is the process whose place holds it.** -/
def Tracked (lock : L → Option P) (holds : P → L → Prop) : Prop := ∀ l p, lock l = some p ↔ holds p l

variable (h : Tracked lock holds)

include h

theorem Tracked.exclusive (hp : holds p l) (hq : holds q l) : p = q :=
  Option.some.inj (((h l p).mpr hp).symm.trans ((h l q).mpr hq))

theorem Tracked.not_holds (hl : lock l = none) (p : P) : ¬ holds p l := by
  intro hp
  rw [(h l p).mpr hp] at hl
  cases hl

/-- No lock changes hands. -/
theorem Tracked.same (hsame : ∀ q l, holds' q l ↔ holds q l) :
    Tracked lock holds' :=
  fun l q => (h l q).trans (hsame q l).symm

/-- `p` takes a lock that is free. -/
theorem Tracked.take [DecidableEq L] (hfree : lock l = none)
    (hself : ∀ k, holds' p k ↔ k = l ∨ holds p k) (hrest : ∀ q, q ≠ p → ∀ k, holds' q k ↔ holds q k) :
    
    Tracked (update lock l (some p)) holds' := by
  intro k q
  have hk := h k q
  have hrest := hrest q
  grind [update_apply]

/-- `p` gives back a lock that it holds. -/
theorem Tracked.give [DecidableEq L] (hp : holds p l) (hself : ∀ k, holds' p k ↔ holds p k ∧ k ≠ l)
    (hrest : ∀ q, q ≠ p → ∀ k, holds' q k ↔ holds q k) :
    Tracked (update lock l none) holds' := by
  intro k q
  have hk := h k q
  have hl := (h l p).mpr hp
  have hrest := hrest q
  grind [update_apply]

end Locks
