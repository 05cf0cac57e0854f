import Xv6.User.Grammar

/-!
# Reading tokens

`gettoken` and `peek` in terms of the tokens of the rest of the line: `gettoken`
takes the first one off, and `peek` looks at its first character and leaves the
tokens alone. A line has no `NUL` in it, so the two see the end of the line at
its end only. The two pointers of a word are the longest word from the first one.
-/

namespace Xv6

namespace Sh

variable {ps : List Char}

/-- What `gettoken` returns for a token. -/
def Token.code : Token → Char
  | .word _ => 'a'
  | .bar => '|'
  | .lpar => '('
  | .rpar => ')'
  | .semi => ';'
  | .amp => '&'
  | .lt => '<'
  | .gt => '>'
  | .gtgt => '+'

/-- The symbol that a token starts with. -/
def Token.lead : Token → Option Char
  | .word _ => none
  | .gtgt => some '>'
  | t => some t.code

/-- The first token starts with one of these symbols. -/
def leads (toks : List Char) : List Token → Bool
  | [] => false
  | t :: _ => toks.any (fun c => decide (t.lead = some c))

/-- The text of a word. -/
def text (w : Word) : List Char := w.q.takeWhile inWord

/-- A word of the line: it ends where the longest word from its start does. -/
structure Spans (line : List Char) (w : Word) : Prop where
  suffix : w.q <:+ line
  eq : w.eq = w.q.dropWhile inWord

theorem Spans.mono {line line' : List Char} {w : Word} (h : Spans line w) (hl : line <:+ line') :
    Spans line' w := ⟨h.suffix.trans hl, h.eq⟩

@[simp] theorem tokens_nil : tokens [] = [] := by
  unfold tokens
  rfl

theorem code_eq_word_iff {t : Token} : t.code = 'a' ↔ ∃ w, t = .word w := by
  cases t <;> simp [Token.code]

theorem code_ne_nul (t : Token) : t.code ≠ NUL := by
  cases t with
  | word w => exact (by decide : 'a' ≠ NUL)
  | _ => decide

theorem skip_suffix (s : List Char) : skip s <:+ s := List.dropWhile_suffix _

/-- White space has no tokens. -/
@[simp] theorem tokens_skip (s : List Char) : tokens (skip s) = tokens s := by
  induction s with
  | nil => rfl
  | cons c s ih =>
    unfold skip at ih ⊢
    rw [List.dropWhile_cons]
    by_cases hc : c ∈ whitespace
    · rw [if_pos (decide_eq_true hc), ih]
      conv_rhs => rw [tokens, if_pos hc]
    · rw [if_neg (by rw [decide_eq_false hc]; exact Bool.false_ne_true)]

theorem not_whitespace_of_skip {c : Char} {s : List Char} (h : skip ps = c :: s) :
    c ∉ whitespace := by
  have hhead := List.head?_dropWhile_not (fun c => decide (c ∈ whitespace)) ps
  unfold skip at h
  rw [h] at hhead
  simpa using hhead

/-- **The switch takes the first token off.** -/
theorem scan_cons {c : Char} (s : List Char) (hc : c ∉ whitespace) :
    ∃ t, tokens (c :: s) = t :: tokens (scan (c :: s)).2 ∧ (scan (c :: s)).1 = t.code
      ∧ (scan (c :: s)).2 <:+ s
      ∧ ∀ w, t = .word w →
        w = (c :: s).takeWhile inWord ∧ (scan (c :: s)).2 = (c :: s).dropWhile inWord := by
  rw [tokens, if_neg hc]
  by_cases hword : inWord c = true
  · have hsym : c ∉ symbols := by
      unfold inWord at hword
      simpa [hc] using hword
    have hscan : scan (c :: s) = ('a', (c :: s).dropWhile inWord) := by
      unfold symbols at hsym
      simp only [List.mem_cons, List.not_mem_nil, or_false, not_or] at hsym
      rw [scan, if_neg (by tauto), if_neg (by tauto)]
    rw [if_pos hword, hscan, List.takeWhile_cons, List.dropWhile_cons, if_pos hword, if_pos hword]
    exact ⟨_, rfl, rfl, List.dropWhile_suffix _, fun w hw => ⟨(Token.word.inj hw).symm, rfl⟩⟩
  · rw [if_neg hword]
    have hsym : c ∈ symbols := by
      unfold inWord at hword
      simpa [hc] using hword
    by_cases hgg : c = '>' ∧ s.headD NUL = '>'
    · obtain ⟨rfl, hhead⟩ := hgg
      have hscan : scan ('>' :: s) = ('+', s.tail) := by
        rw [scan, if_neg (by decide), if_pos rfl, if_pos hhead]
      rw [if_pos ⟨rfl, hhead⟩, hscan]
      exact ⟨.gtgt, rfl, rfl, List.tail_suffix s, by rintro _ ⟨⟩⟩
    · rw [if_neg hgg]
      have hscan : scan (c :: s) = ((symbol c).code, s) := by
        unfold symbols at hsym
        simp only [List.mem_cons, List.not_mem_nil, or_false] at hsym
        rcases hsym with rfl | rfl | rfl | rfl | rfl | rfl | rfl
        iterate 2 rfl
        · have hhead : s.headD NUL ≠ '>' := fun hhead => hgg ⟨rfl, hhead⟩
          rw [scan, if_neg (by decide), if_pos rfl, if_neg hhead]
          rfl
        all_goals rfl
      rw [hscan]
      refine ⟨symbol c, rfl, rfl, List.suffix_rfl, fun w hw => ?_⟩
      unfold symbol at hw
      split_ifs at hw

/-- No tokens are left. -/
theorem skip_eq_nil_iff : skip ps = [] ↔ tokens ps = [] := by
  constructor
  · intro h
    rw [← tokens_skip, h, tokens_nil]
  · intro h
    cases hs : skip ps with
    | nil => rfl
    | cons c s =>
      obtain ⟨t, ht, -⟩ := scan_cons s (not_whitespace_of_skip hs)
      rw [← tokens_skip, hs, ht] at h
      exact nomatch h

/-- At the end of the line. -/
theorem gettoken_nil (h : tokens ps = []) :
    (gettoken ps).ret = NUL ∧ (gettoken ps).ps = [] := by
  have hs := skip_eq_nil_iff.mpr h
  unfold gettoken
  rw [hs]
  exact ⟨rfl, rfl⟩

/-- **`gettoken` takes the first token off.** -/
theorem gettoken_cons {t : Token} {ts : List Token} (h : tokens ps = t :: ts) :
    (gettoken ps).ret = t.code ∧ tokens (gettoken ps).ps = ts ∧ (gettoken ps).ps <:+ ps
      ∧ (gettoken ps).ps.length < ps.length
      ∧ ∀ w, t = .word w → text (gettoken ps).word = w ∧ Spans ps (gettoken ps).word := by
  cases hs : skip ps with
  | nil =>
    rw [skip_eq_nil_iff.mp hs] at h
    exact nomatch h
  | cons c s =>
    obtain ⟨t', ht, hret, hsuffix, hword⟩ := scan_cons s (not_whitespace_of_skip hs)
    have hps : c :: s <:+ ps := by
      rw [← hs]
      exact skip_suffix ps
    rw [← tokens_skip, hs, ht] at h
    obtain ⟨rfl, rfl⟩ := List.cons.inj h
    have hlen : (skip (scan (c :: s)).2).length < ps.length :=
      Nat.lt_of_lt_of_le (Nat.lt_succ_of_le ((skip_suffix _).trans hsuffix).length_le)
        hps.length_le
    unfold gettoken
    rw [hs]
    refine ⟨hret, tokens_skip _, ?_, hlen, fun w hw => ?_⟩
    · exact ((skip_suffix _).trans hsuffix).trans ((List.suffix_cons c s).trans hps)
    · obtain ⟨hw, heq⟩ := hword w hw
      exact ⟨hw.symm, hps, heq⟩

/-- The first character of a token. -/
theorem scan_lead {c : Char} {s : List Char} {t : Token} {ts : List Token} (hc : c ∉ whitespace)
    (h : tokens (c :: s) = t :: ts) : t.lead = if c ∈ symbols then some c else none := by
  rw [tokens, if_neg hc] at h
  by_cases hsym : c ∈ symbols
  · have hword : ¬ inWord c = true := by
      unfold inWord
      simp [hsym]
    rw [if_neg hword] at h
    rw [if_pos hsym]
    by_cases hgg : c = '>' ∧ s.headD NUL = '>'
    · rw [if_pos hgg] at h
      rw [← (List.cons.inj h).1, hgg.1]
      rfl
    · rw [if_neg hgg] at h
      rw [← (List.cons.inj h).1]
      unfold symbols at hsym
      simp only [List.mem_cons, List.not_mem_nil, or_false] at hsym
      rcases hsym with rfl | rfl | rfl | rfl | rfl | rfl | rfl <;> rfl
  · have hword : inWord c = true := by
      unfold inWord
      simp [hsym, hc]
    rw [if_pos hword] at h
    rw [if_neg hsym, ← (List.cons.inj h).1]
    rfl

/-- **`peek` looks at the first token.** -/
theorem peek_eq (hnul : NUL ∉ ps) {toks : List Char} (htoks : toks.all symbols.contains = true) :
    peek ps toks = (leads toks (tokens ps), skip ps) := by
  refine Prod.ext ?_ rfl
  show (decide ((skip ps).headD NUL ≠ NUL) && decide ((skip ps).headD NUL ∈ toks)) = _
  rw [← tokens_skip]
  cases hs : skip ps with
  | nil =>
    rw [tokens_nil]
    rfl
  | cons c s =>
    have hws := not_whitespace_of_skip hs
    have hc : c ≠ NUL := by
      rintro rfl
      refine hnul ((skip_suffix ps).subset ?_)
      rw [hs]
      exact List.mem_cons_self
    obtain ⟨t, ht, -⟩ := scan_cons s hws
    have hlead := scan_lead hws ht
    rw [ht, List.headD_cons, decide_eq_true hc, Bool.true_and]
    show decide (c ∈ toks) = toks.any (fun c => decide (t.lead = some c))
    rw [hlead, Bool.eq_iff_iff, decide_eq_true_iff, List.any_eq_true]
    constructor
    · intro hmem
      have hsym := List.contains_iff_mem.mp (List.all_eq_true.mp htoks c hmem)
      exact ⟨c, hmem, decide_eq_true (if_pos hsym)⟩
    · rintro ⟨d, hd, heq⟩
      have heq' := of_decide_eq_true heq
      split_ifs at heq' with hsym
      rwa [Option.some.inj heq']

end Sh

end Xv6
