import Mathlib.Computability.Language
import Xv6.User.Ulib

/-!
# The regular expressions of `grep`

`match`, `matchhere` and `matchstar` of `grep.c`. A pointer into a string is the rest of the
bytes from there. What is read past their end is `NUL`, and a `NUL` among them ends the
string as well, so the functions can be given a string in a larger buffer.

A pattern stands for a language: a list of items, each one character or the repetition of
one, and whether the text has to end there. `matchhere` tries the items from left to right
and goes back in the repetitions. That it finds a match if there is one rests on a fact about
repetitions only: a text that starts with a repetition starts with some number of characters
that fit, and `matchstar` tries all these numbers.
-/

namespace Xv6

namespace Grep

open Ulib

/-- `'^'`. -/
def CARET : UInt8 := 0x5E

/-- `'$'`. -/
def DOLLAR : UInt8 := 0x24

/-- `'*'`. -/
def STAR : UInt8 := 0x2A

/-- `'.'`. -/
def POINT : UInt8 := 0x2E

/-! ## The matcher -/

/-- `s[i]`. -/
def charAt (s : List UInt8) (i : ℕ) : UInt8 := s.getD i 0

theorem charAt_cons_zero (c : UInt8) (s : List UInt8) : charAt (c :: s) 0 = c := rfl

/-- There is something before the end. -/
theorem length_pos_of_charAt {s : List UInt8} (h : charAt s 0 ≠ 0) : 0 < s.length := by
  cases s with
  | nil => exact absurd rfl h
  | cons c s => exact Nat.succ_pos _

mutual

/-- `matchhere`. -/
def matchhere (re text : List UInt8) : Bool :=
  if hre : charAt re 0 = 0 then true
  else if charAt re 1 = STAR then
    have := length_pos_of_charAt hre
    matchstar (charAt re 0) (re.drop 2) text
  else if charAt re 0 = DOLLAR ∧ charAt re 1 = 0 then charAt text 0 = 0
  else if charAt text 0 ≠ 0 ∧ (charAt re 0 = POINT ∨ charAt re 0 = charAt text 0) then
    have := length_pos_of_charAt hre
    matchhere (re.drop 1) (text.drop 1)
  else false
termination_by (re.length, text.length, 0)
decreasing_by
  · simp only [List.length_drop]
    exact Prod.Lex.left _ _ (by omega)
  · simp only [List.length_drop]
    exact Prod.Lex.left _ _ (by omega)

/-- `matchstar`. -/
def matchstar (c : UInt8) (re text : List UInt8) : Bool :=
  if matchhere re text then true
  else if h : charAt text 0 ≠ 0 ∧ (charAt text 0 = c ∨ c = POINT) then
    have := length_pos_of_charAt h.1
    matchstar c re (text.drop 1)
  else false
termination_by (re.length, text.length, 1)
decreasing_by
  · exact Prod.Lex.right _ (Prod.Lex.right _ Nat.zero_lt_one)
  · simp only [List.length_drop]
    exact Prod.Lex.right _ (Prod.Lex.left _ _ (by omega))

end

/-- The loop of `match`. -/
def matchLoop (re text : List UInt8) : Bool :=
  if matchhere re text then true
  else if h : charAt text 0 ≠ 0 then
    have := length_pos_of_charAt h
    matchLoop re (text.drop 1)
  else false
termination_by text.length

/-- `match`. -/
def matchRe (re text : List UInt8) : Bool :=
  if charAt re 0 = CARET then matchhere (re.drop 1) text else matchLoop re text

/-! ## What patterns mean -/

/-- An item of a pattern. -/
inductive Item
  | one (c : UInt8)
  | star (c : UInt8)

/-- **A pattern**: its items, and whether the text ends after them. -/
structure Pattern where
  items : List Item
  atEnd : Bool

/-- A character fits a character of the pattern. -/
def Fits (c x : UInt8) : Prop := c = POINT ∨ x = c

/-- The texts of one character. -/
def oneOf (c : UInt8) : Language UInt8 := {w | ∃ x, Fits c x ∧ w = [x]}

open Computability in
/-- The texts that an item stands for. -/
def Item.language : Item → Language UInt8
  | .one c => oneOf c
  | .star c => (oneOf c)∗

/-- **The texts that items stand for**, one after the other. -/
def language (items : List Item) : Language UInt8 := (items.map Item.language).prod

/-- **A text starts with a match**: some first part of it is in the language of the items, and it is
all of the text if the pattern ends with a dollar sign. -/
def Pattern.Matches (p : Pattern) (text : List UInt8) : Prop :=
  ∃ u v, text = u ++ v ∧ u ∈ language p.items ∧ (p.atEnd = true → v = [])

/-- One more item. -/
def Pattern.cons (i : Item) (p : Pattern) : Pattern := ⟨i :: p.items, p.atEnd⟩

/-- **The pattern that is written.** A star belongs to the character before it, whatever this
is, and a dollar is special at the end only. -/
def pattern : List UInt8 → Pattern
  | [] => ⟨[], false⟩
  | [c] => if c = DOLLAR then ⟨[], true⟩ else ⟨[.one c], false⟩
  | c :: d :: re => if d = STAR then (pattern re).cons (.star c) else (pattern (d :: re)).cons (.one c)

/-! ## Strings in buffers -/

/-- The string is at its end. -/
theorem cstr_eq_nil_iff {s : List UInt8} : cstr s = [] ↔ charAt s 0 = 0 := by
  cases s with
  | nil => exact iff_of_true rfl rfl
  | cons c s =>
    show (c :: s).takeWhile (· ≠ 0) = [] ↔ c = 0
    rw [List.takeWhile_cons]
    by_cases hc : c = 0
    · rw [if_neg (by rw [hc]; decide)]
      exact iff_of_true rfl hc
    · rw [if_pos (decide_eq_true hc)]
      exact iff_of_false nofun hc

/-- The string goes on. -/
theorem cstr_eq_cons {s : List UInt8} (h : charAt s 0 ≠ 0) :
    cstr s = charAt s 0 :: cstr (s.drop 1) := by
  cases s with
  | nil => exact absurd rfl h
  | cons c s => exact List.takeWhile_cons_of_pos (decide_eq_true h)

/-! ## Matches -/

theorem matches_nil (text : List UInt8) : (⟨[], false⟩ : Pattern).Matches text :=
  ⟨[], text, rfl, rfl, nofun⟩

variable {text : List UInt8}

theorem matches_end : (⟨[], true⟩ : Pattern).Matches text ↔ text = [] := by
  constructor
  · rintro ⟨u, v, rfl, hu, hv⟩
    have hu : u = [] := hu
    rw [hu, hv rfl]
    rfl
  · rintro rfl
    exact ⟨[], [], rfl, rfl, fun _ => rfl⟩

variable {p : Pattern}

/-- The first item takes a part of the text, and the rest goes on from there. -/
theorem matches_cons {i : Item} :
    (p.cons i).Matches text ↔ ∃ a b, text = a ++ b ∧ a ∈ i.language ∧ p.Matches b := by
  constructor
  · rintro ⟨u, v, rfl, hu, hv⟩
    have hu : u ∈ i.language * language p.items := hu
    obtain ⟨a, ha, b, hb, rfl⟩ := Language.mem_mul.mp hu
    exact ⟨a, b ++ v, List.append_assoc a b v, ha, b, v, rfl, hb, hv⟩
  · rintro ⟨a, b, rfl, ha, u, v, rfl, hu, hv⟩
    refine ⟨a ++ u, v, (List.append_assoc a u v).symm, ?_, hv⟩
    exact Language.mem_mul.mpr ⟨a, ha, u, hu, rfl⟩

variable {c : UInt8}

theorem matches_one :
    (p.cons (.one c)).Matches text ↔ ∃ x rest, text = x :: rest ∧ Fits c x ∧ p.Matches rest := by
  rw [matches_cons]
  constructor
  · rintro ⟨a, b, rfl, ⟨x, hx, rfl⟩, hb⟩
    exact ⟨x, b, rfl, hx, hb⟩
  · rintro ⟨x, rest, rfl, hx, hrest⟩
    exact ⟨[x], rest, rfl, ⟨x, hx, rfl⟩, hrest⟩

open Computability in
/-- **A repetition is a text of characters that fit.** -/
theorem mem_kstar_oneOf {w : List UInt8} : w ∈ (oneOf c)∗ ↔ ∀ x ∈ w, Fits c x := by
  rw [Language.mem_kstar]
  constructor
  · rintro ⟨parts, rfl, hparts⟩ x hx
    obtain ⟨part, hpart, hx⟩ := List.mem_flatten.mp hx
    obtain ⟨y, hy, rfl⟩ := hparts part hpart
    rw [List.mem_singleton.mp hx]
    exact hy
  · intro hw
    refine ⟨w.map (fun x => [x]), ?_, fun part hpart => ?_⟩
    · rw [← List.flatMap_def, List.flatMap_singleton']
    · obtain ⟨x, hx, rfl⟩ := List.mem_map.mp hpart
      exact ⟨x, hw x hx, rfl⟩

/-- A repetition takes nothing, or one character more. -/
theorem matches_star :
    (p.cons (.star c)).Matches text ↔
      p.Matches text ∨ ∃ x rest, text = x :: rest ∧ Fits c x ∧ (p.cons (.star c)).Matches rest := by
  rw [matches_cons]
  constructor
  · rintro ⟨a, b, rfl, ha, hb⟩
    cases a with
    | nil => exact .inl hb
    | cons x a =>
      have ha := mem_kstar_oneOf.mp ha
      refine .inr ⟨x, a ++ b, rfl, ha x List.mem_cons_self, matches_cons.mpr ⟨a, b, rfl, ?_, hb⟩⟩
      exact mem_kstar_oneOf.mpr (fun y hy => ha y (List.mem_cons_of_mem x hy))
  · rintro (htext | ⟨x, rest, rfl, hx, hrest⟩)
    · exact ⟨[], text, rfl, mem_kstar_oneOf.mpr (fun _ hy => (nomatch hy)), htext⟩
    · obtain ⟨a, b, rfl, ha, hb⟩ := matches_cons.mp hrest
      refine ⟨x :: a, b, rfl, mem_kstar_oneOf.mpr (fun y hy => ?_), hb⟩
      rcases List.mem_cons.mp hy with rfl | hy
      · exact hx
      · exact mem_kstar_oneOf.mp ha y hy

/-! ## The matcher and the patterns -/

/-- The first character of a string fits. -/
theorem fits_of_cstr {x : UInt8} {rest : List UInt8} (h : cstr text = x :: rest) (hx : Fits c x) :
    charAt text 0 ≠ 0 ∧ (charAt text 0 = c ∨ c = POINT) := by
  have hgoes : charAt text 0 ≠ 0 := by
    intro hend
    rw [cstr_eq_nil_iff.mpr hend] at h
    cases h
  rw [cstr_eq_cons hgoes] at h
  cases h
  exact ⟨hgoes, hx.symm⟩

variable {re : List UInt8}

/-- **`matchstar`**, for items that `matchhere` decides. -/
theorem matchstar_iff (hre : ∀ text, matchhere re text = true ↔ p.Matches (cstr text))
    (text : List UInt8) :
    matchstar c re text = true ↔ (p.cons (.star c)).Matches (cstr text) := by
  -- by induction on the text, as `matchstar` moves on in it
  induction hn : text.length generalizing text with
  | zero =>
    have hend : charAt text 0 = 0 := by rw [List.length_eq_zero_iff.mp hn]; rfl
    rw [matchstar, matches_star, ← hre, cstr_eq_nil_iff.mpr hend]
    simp [hend]
  | succ n ih =>
    have hrest := ih (text.drop 1) (by rw [List.length_drop, hn]; rfl)
    rw [matchstar, matches_star, ← hre]
    by_cases hhere : matchhere re text = true
    · rw [if_pos hhere]
      exact iff_of_true rfl (.inl hhere)
    rw [if_neg hhere, or_iff_right hhere]
    split
    · next h =>
      rw [hrest, cstr_eq_cons h.1]
      constructor
      · exact fun hmatch => ⟨_, _, rfl, h.2.symm, hmatch⟩
      · rintro ⟨x, rest, heq, -, hmatch⟩
        cases heq
        exact hmatch
    · next h =>
      refine iff_of_false nofun ?_
      rintro ⟨x, rest, heq, hfits, -⟩
      exact h (fits_of_cstr heq hfits)

/-- One character of the pattern, and the rest that `matchhere` decides. -/
theorem matchhere_one (hre : ∀ text, matchhere re text = true ↔ p.Matches (cstr text)) :
    (if charAt text 0 ≠ 0 ∧ (c = POINT ∨ c = charAt text 0) then matchhere re (text.drop 1)
      else false) = true ↔ (p.cons (.one c)).Matches (cstr text) := by
  rw [matches_one]
  split
  · next h =>
    rw [hre, cstr_eq_cons h.1]
    constructor
    · exact fun hmatch => ⟨_, _, rfl, h.2.imp_right Eq.symm, hmatch⟩
    · rintro ⟨x, rest, heq, -, hmatch⟩
      cases heq
      exact hmatch
  · next h =>
    refine iff_of_false nofun ?_
    rintro ⟨x, rest, heq, hfits, -⟩
    obtain ⟨hgoes, hfits⟩ := fits_of_cstr heq hfits
    exact h ⟨hgoes, (hfits.imp_left Eq.symm).symm⟩

/-- The tests of `matchhere` at a character. -/
theorem matchhere_cons (hc : c ≠ 0) (re text : List UInt8) :
    matchhere (c :: re) text
      = if charAt re 0 = STAR then matchstar c (re.drop 1) text
        else if c = DOLLAR ∧ charAt re 0 = 0 then decide (charAt text 0 = 0)
        else if charAt text 0 ≠ 0 ∧ (c = POINT ∨ c = charAt text 0) then matchhere re (text.drop 1)
        else false := by
  rw [matchhere, dif_neg (by rw [charAt_cons_zero]; exact hc)]
  rfl

/-- **`matchhere` decides whether the text starts with a match.** -/
theorem matchhere_iff (hre : 0 ∉ re) (text : List UInt8) :
    matchhere re text = true ↔ (pattern re).Matches (cstr text) := by
  -- the cases are those of `pattern`: the tests of `matchhere` come in the same order
  induction re using pattern.induct generalizing text with
  | case1 =>
    rw [matchhere]
    exact iff_of_true rfl (matches_nil _)
  | case2 =>
    rw [matchhere_cons (by decide), if_neg (by decide), if_pos ⟨rfl, rfl⟩, pattern, if_pos rfl,
      matches_end, cstr_eq_nil_iff, decide_eq_true_iff]
  | case3 c hdollar =>
    have hc : c ≠ 0 := fun h => hre (by rw [h]; exact List.mem_singleton_self 0)
    rw [matchhere_cons hc, if_neg (by decide : charAt [] 0 ≠ STAR), if_neg (fun h => hdollar h.1),
      pattern, if_neg hdollar]
    refine matchhere_one (p := ⟨[], false⟩) (fun text => ?_)
    rw [matchhere]
    exact iff_of_true rfl (matches_nil _)
  | case4 c re ih =>
    rw [List.mem_cons, List.mem_cons, not_or, not_or] at hre
    rw [matchhere_cons (Ne.symm hre.1), charAt_cons_zero, if_pos rfl, pattern, if_pos rfl]
    exact matchstar_iff (ih hre.2.2) text
  | case5 c d re hstar ih =>
    rw [List.mem_cons, not_or] at hre
    have hd : d ≠ 0 := fun h => hre.2 (by rw [h]; exact List.mem_cons_self)
    rw [matchhere_cons (Ne.symm hre.1), charAt_cons_zero, if_neg hstar, if_neg (fun h => hd h.2),
      pattern, if_neg hstar]
    exact matchhere_one (ih hre.2)

/-- The loop of `match` tries every place. -/
theorem matchLoop_iff (hre : 0 ∉ re) (text : List UInt8) :
    matchLoop re text = true ↔ ∃ i ≤ (cstr text).length, (pattern re).Matches ((cstr text).drop i) := by
  fun_induction matchLoop re text with
  | case1 text hhere => exact iff_of_true rfl ⟨0, Nat.zero_le _, (matchhere_iff hre text).mp hhere⟩
  | case2 text hhere h _ ih =>
    rw [matchhere_iff hre, cstr_eq_cons h] at hhere
    rw [ih, cstr_eq_cons h]
    constructor
    · rintro ⟨i, hi, hmatch⟩
      exact ⟨i + 1, Nat.succ_le_succ hi, hmatch⟩
    · rintro ⟨i, hi, hmatch⟩
      cases i with
      | zero => exact absurd hmatch hhere
      | succ i => exact ⟨i, Nat.le_of_succ_le_succ hi, hmatch⟩
  | case3 text hhere h =>
    rw [matchhere_iff hre, cstr_eq_nil_iff.mpr (Decidable.not_not.mp h)] at hhere
    rw [cstr_eq_nil_iff.mpr (Decidable.not_not.mp h)]
    refine iff_of_false nofun ?_
    rintro ⟨i, -, hmatch⟩
    rw [List.drop_nil] at hmatch
    exact hhere hmatch

/-- **What a pattern means**: the text has a place from which it matches, the start only if
the pattern begins with a caret. -/
def Matches (re text : List UInt8) : Prop :=
  if re.head? = some CARET then (pattern re.tail).Matches text
  else ∃ i ≤ text.length, (pattern re).Matches (text.drop i)

/-- The string at the pointer decides. -/
theorem matchRe_iff_cstr (hre : 0 ∉ re) (text : List UInt8) :
    matchRe re text = true ↔ Matches re (cstr text) := by
  unfold matchRe Matches
  cases re with
  | nil =>
    rw [if_neg (by decide : charAt [] 0 ≠ CARET), if_neg nofun]
    exact matchLoop_iff hre text
  | cons c re =>
    rw [charAt_cons_zero, List.head?_cons]
    by_cases hc : c = CARET
    · rw [if_pos hc, if_pos (congrArg some hc)]
      exact matchhere_iff (fun h => hre (List.mem_cons_of_mem c h)) text
    · rw [if_neg hc, if_neg (fun h => hc (Option.some.inj h))]
      exact matchLoop_iff hre text

/-- What follows the string does not matter. -/
theorem matchRe_append_zero (hre : 0 ∉ re) (text t : List UInt8) :
    matchRe re (text ++ 0 :: t) = matchRe re text := by
  rw [Bool.eq_iff_iff, matchRe_iff_cstr hre, matchRe_iff_cstr hre, cstr_append_zero]

/-- The empty pattern matches everything. -/
theorem matchRe_nil (text : List UInt8) : matchRe [] text = true := by
  rw [matchRe_iff_cstr List.not_mem_nil]
  exact ⟨0, Nat.zero_le _, matches_nil _⟩

/-- **`match` decides its patterns**: it returns 1 for the texts that the pattern matches, and for
no other ones. -/
theorem matchRe_iff {re text : List UInt8} (hre : 0 ∉ re) (htext : 0 ∉ text) :
    matchRe re text = true ↔ Matches re text := by
  rw [matchRe_iff_cstr hre, cstr_eq_self htext]

/-- The pattern `$*^.` and the text `a$$^b`. -/
theorem matchRe_iff_dollars : matchRe [DOLLAR, STAR, CARET, POINT] [0x61, DOLLAR, DOLLAR, CARET, 0x62]
    = true ↔ Matches [DOLLAR, STAR, CARET, POINT] [0x61, DOLLAR, DOLLAR, CARET, 0x62] :=
  matchRe_iff (by decide) (by decide)

end Grep

end Xv6
