import Mathlib.Algebra.Order.Ring.Int
import Mathlib.Data.Nat.Notation
import Mathlib.Tactic.Common
import Mathlib.Tactic.Ring

/-!
# The remainder of `long long`

`__moddi3` of `ass1ds.cpp`, which the compiler calls for `%`. It works on the magnitudes and
subtracts the divisor, its double, its double again and so on, and begins anew with the divisor
when the next one is too large. The loops run for a number of turns, and `running` says that
they are not done.

The source asks whether the double is positive before it takes it, but signed overflow is
undefined: a compiler that takes the double of a positive number to be positive drops the
test, and the program's own build does. So overflow is an outcome of its own here, for the
double as for the magnitude of the smallest number.
-/

namespace Xv6

namespace Sched

/-- What a call comes to that does not return: it is not done, its arithmetic is undefined, or
it has called `panic`. -/
inductive ModHalt
  | running
  | overflow
  | panic (s : String)
  deriving DecidableEq

/-- **The arithmetic of `long long`**: a result out of range is signed overflow, and what the
program does from there on is undefined. -/
def longLong (x : ℤ) : Except ModHalt ℤ :=
  if -2 ^ 63 ≤ x ∧ x < 2 ^ 63 then .ok x else .error .overflow

/-- The inner loop. -/
def moddi3Subtract : ℕ → ℤ → ℤ → Except ModHalt ℤ
  | 0, _, _ => .error .running
  | turns + 1, number, divisor2 =>
    if number ≥ divisor2 then do
      let number ← longLong (number - divisor2)
      let double ← longLong (divisor2 + divisor2)
      moddi3Subtract turns number (if double > 0 then double else divisor2)
    else .ok number

/-- The outer loop. -/
def moddi3Loop : ℕ → ℤ → ℤ → Except ModHalt ℤ
  | 0, _, _ => .error .running
  | turns + 1, number, divisor => do
    let number ← moddi3Subtract turns number divisor
    if number < divisor then return number
    else moddi3Loop turns number divisor

/-- `if(n < 0) n = -n;` -/
def magnitude (n : ℤ) : Except ModHalt ℤ := if n < 0 then longLong (-n) else .ok n

/-- `__moddi3`. -/
def moddi3 (turns : ℕ) (number divisor : Int64) : Except ModHalt ℤ :=
  if divisor = 0 then .error (.panic "divide by zero!!!\n")
  else do
    let n ← magnitude number.toInt
    let d ← magnitude divisor.toInt
    let r ← moddi3Loop turns n d
    if number.toInt < 0 then longLong (-r) else return r

/-! ## The doubles of the divisor -/

/-- **A double overflows**: one of the doubles `2 ^ k * d` is out of range, and the number is
large enough for the loop to come to it, which has subtracted the `2 ^ k - 1` divisors before. -/
def Overdoubled (n d : ℤ) : Prop := ∃ k : ℕ, 2 ^ 63 ≤ 2 ^ k * d ∧ 2 ^ k * d ≤ n + d

variable {n d m : ℤ} {turns : ℕ}

theorem longLong_eq (hlow : -2 ^ 63 ≤ n) (hhigh : n < 2 ^ 63) : longLong n = .ok n :=
  if_pos ⟨hlow, hhigh⟩

theorem Overdoubled.mono (h : Overdoubled n d) (hle : n ≤ m) : Overdoubled m d := by
  obtain ⟨k, hlow, hhigh⟩ := h
  exact ⟨k, hlow, by omega⟩

theorem overdoubled_of_le (hover : 2 ^ 63 ≤ d + d) (hle : d ≤ n) : Overdoubled n d :=
  ⟨1, by omega, by omega⟩

/-- One turn of the inner loop leaves as many doubles to come. -/
theorem overdoubled_sub (hd : d < 2 ^ 63) : Overdoubled (n - d) (d + d) ↔ Overdoubled n d := by
  have hdouble : ∀ k : ℕ, (2 : ℤ) ^ k * (d + d) = 2 ^ (k + 1) * d := fun k => by ring
  constructor
  · rintro ⟨k, hlow, hhigh⟩
    rw [hdouble] at hlow hhigh
    exact ⟨k + 1, hlow, by omega⟩
  · rintro ⟨k, hlow, hhigh⟩
    cases k with
    | zero => omega
    | succ k =>
      refine ⟨k, ?_, ?_⟩ <;> rw [hdouble]
      · exact hlow
      · omega

/-- A number below the divisor comes to no double. -/
theorem le_of_overdoubled (h : Overdoubled n d) (hpos : 0 < d) (hd : d < 2 ^ 63) : d ≤ n := by
  obtain ⟨k, hlow, hhigh⟩ := h
  cases k with
  | zero => omega
  | succ k =>
    have hone : d ≤ 2 ^ k * d := le_mul_of_one_le_left hpos.le (one_le_pow₀ (by decide))
    have hdouble : (2 : ℤ) ^ (k + 1) * d = 2 ^ k * d + 2 ^ k * d := by ring
    omega

/-! ## The loops -/

/-- A turn of the inner loop whose double is in range. -/
theorem moddi3Subtract_succ (hle : d ≤ n) (hpos : 0 < d) (hn : n < 2 ^ 63)
    (hdouble : d + d < 2 ^ 63) :
    moddi3Subtract (turns + 1) n d = moddi3Subtract turns (n - d) (d + d) := by
  rw [moddi3Subtract, if_pos hle, longLong_eq (by omega) (by omega),
    longLong_eq (by omega) hdouble]
  show moddi3Subtract turns (n - d) (if d + d > 0 then d + d else d) = _
  rw [if_pos (by omega)]

/-- **The inner loop** does not end well if a double overflows. -/
theorem moddi3Subtract_ne (h : Overdoubled n d) (hpos : 0 < d) (hd : d < 2 ^ 63)
    (hn : n < 2 ^ 63) (r : ℤ) : moddi3Subtract turns n d ≠ .ok r := by
  induction turns generalizing n d with
  | zero => exact nofun
  | succ turns ih =>
    have hle := le_of_overdoubled h hpos hd
    by_cases hdouble : d + d < 2 ^ 63
    · rw [moddi3Subtract_succ hle hpos hn hdouble]
      exact ih ((overdoubled_sub hd).mpr h) (by omega) hdouble (by omega)
    · have hover : longLong (d + d) = .error .overflow := if_neg (fun hin => hdouble hin.2)
      rw [moddi3Subtract, if_pos hle, longLong_eq (by omega) (by omega), hover]
      exact nofun

/-- **The inner loop** ends otherwise, and leaves the remainder as it is. -/
theorem moddi3Subtract_eq {D : ℤ} (h : ¬ Overdoubled n d) (hpos : 0 < d) (hn : n < 2 ^ 63)
    (hnonneg : 0 ≤ n) (hturns : n < turns) (hD : D ∣ d) :
    ∃ r, moddi3Subtract turns n d = .ok r ∧ 0 ≤ r ∧ r ≤ n ∧ (d ≤ n → r < n) ∧ r % D = n % D := by
  induction turns generalizing n d with
  | zero => omega
  | succ turns ih =>
    by_cases hle : d ≤ n
    · have hdouble : d + d < 2 ^ 63 := by
        by_contra hover
        exact h (overdoubled_of_le (by omega) hle)
      rw [moddi3Subtract_succ hle hpos hn hdouble]
      obtain ⟨r, hrun, hr, hrle, -, hmod⟩ := ih (mt (overdoubled_sub (by omega)).mp h) (by omega)
        (by omega) (by omega) (by omega) (Int.dvd_add hD hD)
      refine ⟨r, hrun, hr, by omega, fun _ => by omega, ?_⟩
      obtain ⟨c, hc⟩ := hD
      rw [hmod, hc, Int.sub_mul_emod_self_left]
    · rw [moddi3Subtract, if_neg hle]
      exact ⟨n, rfl, hnonneg, le_rfl, fun hdn => absurd hdn hle, rfl⟩

/-- **The outer loop** ends with the remainder: each turn that is not the last one makes the
number smaller, and a smaller number comes to fewer doubles. -/
theorem moddi3Loop_eq (h : ¬ Overdoubled n d) (hpos : 0 < d) (hn : n < 2 ^ 63) (hnonneg : 0 ≤ n)
    (hturns : n + 1 < turns) : moddi3Loop turns n d = .ok (n % d) := by
  induction turns generalizing n with
  | zero => omega
  | succ turns ih =>
    obtain ⟨r, hrun, hr, hrle, hless, hmod⟩ :=
      moddi3Subtract_eq h hpos hn hnonneg (by omega : n < turns) (Int.dvd_refl d)
    unfold moddi3Loop
    rw [hrun, ← hmod]
    show (if r < d then Except.ok r else moddi3Loop turns r d) = _
    split
    · next hlt => rw [Int.emod_eq_of_lt hr hlt]
    · next hge =>
      have hlt := hless (by omega)
      exact ih (fun hover => h (hover.mono hrle)) (by omega) hr (by omega)

theorem moddi3Loop_ne (h : Overdoubled n d) (hpos : 0 < d) (hd : d < 2 ^ 63) (hn : n < 2 ^ 63)
    (r : ℤ) : moddi3Loop turns n d ≠ .ok r := by
  cases turns with
  | zero => exact nofun
  | succ turns =>
    unfold moddi3Loop
    cases hsub : moddi3Subtract turns n d with
    | error e => exact nofun
    | ok r => exact absurd hsub (moddi3Subtract_ne h hpos hd hn r)

/-! ## The result -/

variable {x : Int64}

/-- The magnitude of a number that has one. -/
theorem magnitude_eq (h : x ≠ Int64.minValue) :
    magnitude x.toInt = .ok |x.toInt| ∧ |x.toInt| < 2 ^ 63 := by
  have hlow := x.le_toInt
  have hhigh := x.toInt_lt
  have hne : x.toInt ≠ -2 ^ 63 := fun heq =>
    h (Int64.toInt_inj.mp (heq.trans Int64.toInt_minValue.symm))
  unfold magnitude
  split
  · next hneg =>
    rw [abs_of_neg hneg]
    exact ⟨longLong_eq (by omega) (by omega), by omega⟩
  · next hpos =>
    rw [abs_of_nonneg (by omega)]
    exact ⟨rfl, hhigh⟩

theorem magnitude_minValue : magnitude Int64.minValue.toInt = .error .overflow := by decide

/-- The remainder has the sign of the number, and the magnitude of the magnitudes' remainder. -/
theorem tmod_eq (a b : ℤ) : a.tmod b = if a < 0 then -(|a| % |b|) else |a| % |b| := by
  rw [Int.emod_abs]
  split
  · next h =>
    rw [abs_of_neg h, ← Int.tmod_eq_emod_of_nonneg (by omega), Int.neg_tmod, Int.neg_neg]
  · next h => rw [abs_of_nonneg (by omega), Int.tmod_eq_emod_of_nonneg (by omega)]

/-- **`__moddi3` returns the remainder** if and only if nothing overflows: neither argument is
the smallest number, and no double of the divisor that the loop comes to is out of range. -/
theorem moddi3_eq_tmod_iff (number : Int64) {divisor : Int64} (hzero : divisor ≠ 0) :
    (∃ turns, moddi3 turns number divisor = .ok (number.toInt.tmod divisor.toInt)) ↔
      number ≠ Int64.minValue ∧ divisor ≠ Int64.minValue ∧
        ¬ Overdoubled |number.toInt| |divisor.toInt| := by
  have hpos : 0 < |divisor.toInt| := abs_pos.mpr (fun heq => hzero (Int64.toInt_inj.mp heq))
  unfold moddi3
  simp only [if_neg hzero]
  by_cases hn : number = Int64.minValue
  · simp only [hn, magnitude_minValue]
    exact ⟨nofun, fun h => absurd rfl h.1⟩
  obtain ⟨hnabs, hnlt⟩ := magnitude_eq hn
  simp only [hnabs]
  by_cases hd : divisor = Int64.minValue
  · simp only [hd, magnitude_minValue]
    exact ⟨nofun, fun h => absurd rfl h.2.1⟩
  obtain ⟨hdabs, hdlt⟩ := magnitude_eq hd
  simp only [hdabs]
  by_cases hover : Overdoubled |number.toInt| |divisor.toInt|
  · refine ⟨?_, fun h => absurd hover h.2.2⟩
    rintro ⟨turns, hrun⟩
    cases hloop : moddi3Loop turns |number.toInt| |divisor.toInt| with
    | error e =>
      simp only [Except.bind, bind, hloop] at hrun
      cases hrun
    | ok r => exact absurd hloop (moddi3Loop_ne hover hpos hdlt hnlt r)
  · refine ⟨fun _ => ⟨hn, hd, hover⟩, fun _ => ⟨|number.toInt|.toNat + 2, ?_⟩⟩
    have hturns : |number.toInt| + 1 < (|number.toInt|.toNat + 2 : ℕ) := by omega
    have hloop := moddi3Loop_eq hover hpos hnlt (abs_nonneg _) hturns
    have hmod := Int.emod_nonneg |number.toInt| hpos.ne'
    have hmodlt := Int.emod_lt_of_pos |number.toInt| hpos
    simp only [Except.bind, bind, hloop, tmod_eq]
    split
    · exact longLong_eq (by omega) (by omega)
    · rfl

/-- `-7 % 3`: the doubles of `3` from `2 ^ 63` on are far above `10`. -/
theorem moddi3_eq_tmod_iff_seven :
    ∃ turns, moddi3 turns (-7) 3 = .ok ((-7 : Int64).toInt.tmod (3 : Int64).toInt) := by
  refine (moddi3_eq_tmod_iff (-7) (by decide)).mpr ⟨by decide, by decide, ?_⟩
  rintro ⟨k, hlow, hhigh⟩
  have hsmall : |(-7 : Int64).toInt| + |(3 : Int64).toInt| = 10 := by decide
  omega

/-- **No remainder of the largest number by one, of the smallest by three, or of five by the
smallest**: the double of `2 ^ 62`, or the magnitude, is undefined. -/
theorem moddi3_overflow : moddi3 64 Int64.maxValue 1 = .error .overflow ∧
    moddi3 64 Int64.minValue 3 = .error .overflow ∧
    moddi3 64 5 Int64.minValue = .error .overflow := by
  decide +kernel

end Sched

end Xv6
