import Xv6.User.Lexer

/-!
# The parser and the grammar

The parser is the grammar read from left to right: each function takes the
tokens of its symbol off the line and leaves the rest. What it has built derives
from what it has taken, and if the line starts with a derivation that the
following token ends, the function takes that derivation. Every call takes at
least one character off the line or goes on to the next symbol, so a number of
turns that is linear in the length of the line is enough.
-/

namespace Xv6

namespace Sh

variable {line ps : List Char}

/-! ## Commands -/

/-- The words of a command. -/
def Cmd.words {W : Type} : Cmd W → List W
  | .exec argv => argv
  | .redir cmd file _ _ => file :: cmd.words
  | .pipe left right => left.words ++ right.words
  | .list left right => left.words ++ right.words
  | .back cmd => cmd.words

/-- The words are words of the line. -/
def Cut (line : List Char) (c : Cmd Word) : Prop := ∀ w ∈ c.words, Spans line w

theorem map_addArg {W V : Type} (f : W → V) (q : W) (c : Cmd W) :
    (addArg q c).map f = addArg (f q) (c.map f) := by
  induction c with
  | exec argv => simp [addArg, Cmd.map]
  | redir cmd file mode fd ih => simp only [addArg, Cmd.map, ih]
  | pipe left right => rfl
  | list left right => rfl
  | back cmd => rfl

theorem words_addArg {W : Type} {q w : W} {c : Cmd W} (h : w ∈ (addArg q c).words) :
    w = q ∨ w ∈ c.words := by
  induction c with
  | exec argv =>
    rcases List.mem_append.mp h with h | h
    · exact Or.inr h
    · exact Or.inl (List.mem_singleton.mp h)
  | redir cmd file mode fd ih =>
    rcases List.mem_cons.mp h with rfl | h
    · exact Or.inr List.mem_cons_self
    · rcases ih h with h | h
      · exact Or.inl h
      · exact Or.inr (List.mem_cons_of_mem _ h)
  | pipe left right => exact Or.inr h
  | list left right => exact Or.inr h
  | back cmd => exact Or.inr h

variable {c : Cmd Word}

theorem Cut.addArg {q : Word} (h : Cut line c) (hq : Spans line q) :
    Cut line (addArg q c) := by
  intro w hw
  rcases words_addArg hw with rfl | hw
  · exact hq
  · exact h w hw

theorem wrap_append (rs rs' : List Redir) (c : Cmd (List Char)) :
    wrap (rs ++ rs') c = wrap rs' (wrap rs c) := List.foldl_append

/-- A word goes to the `EXEC` command inside its redirections. -/
theorem addArg_wrap (q : List Char) (rs : List Redir) (ws : List (List Char)) :
    addArg q (wrap rs (.exec ws)) = wrap rs (.exec (ws ++ [q])) := by
  induction rs using List.reverseRecOn with
  | nil => rfl
  | append_singleton rs r ih =>
    rw [wrap_append, wrap_append]
    show Cmd.redir (addArg q (wrap rs (.exec ws))) _ _ _ = _
    rw [ih]
    rfl

/-! ## How a call ends -/

/-- The errors of the parser. -/
def syntaxErrors : List String :=
  ["syntax", "missing file for redirection", "syntax - missing )", "too many args"]

/-- **How a call ends**: with a command and the rest of the line, of which `Q`
says what they are, with an error of the parser, or for want of turns, which
is only if they were `short`. -/
def Outcome (short : Prop) (Q : Cmd Word → List Char → Prop) :
    Except ShHalt (Cmd Word × List Char) → Prop
  | .ok (d, ps') => Q d ps'
  | .error (.panic e) => e ∈ syntaxErrors
  | .error .running => short

section outcome

variable {short short' : Prop} {Q Q' : Cmd Word → List Char → Prop}
  {r : Except ShHalt (Cmd Word × List Char)}

theorem Outcome.panic {e : String} (h : e ∈ syntaxErrors) : Outcome short Q (.error (.panic e)) := h

theorem Outcome.imp (h : Outcome short Q r) (hs : short → short')
    (hq : ∀ d ps', Q d ps' → Q' d ps') : Outcome short' Q' r :=
  match r, h with
  | .ok (d, ps'), h => hq d ps' h
  | .error (.panic _), h => h
  | .error .running, h => hs h

/-- The first of two calls. -/
theorem Outcome.bind {f : Cmd Word × List Char → Except ShHalt (Cmd Word × List Char)}
    (h : Outcome short Q r) (hs : short → short')
    (hf : ∀ d ps', Q d ps' → Outcome short' Q' (f (d, ps'))) : Outcome short' Q' (r >>= f) :=
  match r, h with
  | .ok (d, ps'), h => hf d ps' h
  | .error (.panic _), h => h
  | .error .running, h => hs h

end outcome

/-! ## Redirections -/

/-- The redirection of a symbol. -/
def redirOf (t : Token) (w : List Char) : Redir :=
  if t = .lt then ⟨w, Fs.O_RDONLY, 0⟩ else ⟨w, Fs.O_WRONLY ||| Fs.O_CREATE, 1⟩

variable {t : Token} {w : List Char} {ts : List Token} {rs : List Redir}

theorem Redirs.cons (ht : t = .lt ∨ t = .gt ∨ t = .gtgt) (h : Redirs ts rs) :
    Redirs (t :: .word w :: ts) (redirOf t w :: rs) := by
  rcases ht with rfl | rfl | rfl
  · exact .lt h
  · exact .gt h
  · exact .gtgt h

/-- Redirections, one symbol and word at a time. -/
theorem Redirs.induct {motive : List Token → List Redir → Prop} (nil : motive [] [])
    (cons : ∀ t w ts rs, t = .lt ∨ t = .gt ∨ t = .gtgt → motive ts rs →
      motive (t :: .word w :: ts) (redirOf t w :: rs)) (h : Redirs ts rs) : motive ts rs := by
  induction h with
  | nil => exact nil
  | lt h ih => exact cons .lt _ _ _ (Or.inl rfl) ih
  | gt h ih => exact cons .gt _ _ _ (Or.inr (Or.inl rfl)) ih
  | gtgt h ih => exact cons .gtgt _ _ _ (Or.inr (Or.inr rfl)) ih

theorem leads_redir_iff :
    leads ['<', '>'] ts = true ↔ ∃ t us, ts = t :: us ∧ (t = .lt ∨ t = .gt ∨ t = .gtgt) := by
  cases ts with
  | nil => simp [leads]
  | cons t us => cases t <;> simp [leads, Token.lead, Token.code]

theorem map_redircmd (ht : t = .lt ∨ t = .gt ∨ t = .gtgt) (c : Cmd Word) (w : Word) :
    (redircmd c t.code w).map text = wrap [redirOf t (text w)] (c.map text) := by
  rcases ht with rfl | rfl | rfl <;> rfl

theorem Cut.redircmd (ht : t = .lt ∨ t = .gt ∨ t = .gtgt) {w : Word} (h : Cut line c)
    (hw : Spans line w) : Cut line (redircmd c t.code w) := by
  have hcut : ∀ v ∈ w :: c.words, Spans line v := List.forall_mem_cons.mpr ⟨hw, h⟩
  rcases ht with rfl | rfl | rfl <;> exact hcut

theorem nul_of_suffix (hnul : NUL ∉ line) (h : ps <:+ line) : NUL ∉ ps :=
  fun hmem => hnul (h.subset hmem)

/-- One turn of `parseredirs`. -/
theorem parseredirs_succ (hnul : NUL ∉ ps) (turns : ℕ) (c : Cmd Word) :
    parseredirs (turns + 1) c ps
      = if leads ['<', '>'] (tokens ps) = true then
          if (gettoken (gettoken (skip ps)).ps).ret ≠ 'a' then
            .error (.panic "missing file for redirection")
          else parseredirs turns (redircmd c (gettoken (skip ps)).ret
            (gettoken (gettoken (skip ps)).ps).word) (gettoken (gettoken (skip ps)).ps).ps
        else .ok (c, skip ps) := by
  rw [parseredirs, peek_eq hnul rfl]

/-- A symbol and a word are a redirection. -/
theorem parseredirs_word (hnul : NUL ∉ ps) (turns : ℕ) (c : Cmd Word)
    (ht : t = .lt ∨ t = .gt ∨ t = .gtgt) (h : tokens ps = t :: .word w :: ts) :
    ∃ file ps', parseredirs (turns + 1) c ps = parseredirs turns (redircmd c t.code file) ps'
      ∧ tokens ps' = ts ∧ ps' <:+ ps ∧ ps'.length < ps.length ∧ text file = w ∧ Spans ps file := by
  have hskip : tokens (skip ps) = t :: .word w :: ts := (tokens_skip ps).trans h
  obtain ⟨hret, htok, hsuf, hlen, -⟩ := gettoken_cons hskip
  obtain ⟨hret', htok', hsuf', hlen', hword⟩ := gettoken_cons htok
  obtain ⟨htext, hspans⟩ := hword w rfl
  have hps := hsuf.trans (skip_suffix ps)
  refine ⟨_, _, ?_, htok', hsuf'.trans hps, ?_, htext, hspans.mono hps⟩
  · rw [parseredirs_succ hnul, if_pos (leads_redir_iff.mpr ⟨t, _, h, ht⟩),
      if_neg (by rw [hret']; exact fun hne => hne rfl), hret]
  · have hle := hps.length_le
    omega

/-- Anything else after a symbol is an error. -/
theorem parseredirs_error (hnul : NUL ∉ ps) {turns : ℕ} {us : List Token}
    (ht : t = .lt ∨ t = .gt ∨ t = .gtgt) (hts : tokens ps = t :: us)
    (h : ∀ w ts, us ≠ .word w :: ts) :
    parseredirs (turns + 1) c ps = .error (.panic "missing file for redirection") := by
  obtain ⟨-, htok, -⟩ := gettoken_cons ((tokens_skip ps).trans hts)
  rw [parseredirs_succ hnul, if_pos (leads_redir_iff.mpr ⟨t, us, hts, ht⟩), if_pos]
  cases us with
  | nil =>
    rw [(gettoken_nil htok).1]
    decide
  | cons t' us =>
    rw [(gettoken_cons htok).1]
    intro hcode
    obtain ⟨w, rfl⟩ := code_eq_word_iff.mp hcode
    exact h w us rfl

theorem parseredirs_outcome (hnul : NUL ∉ line) (turns : ℕ) (hps : ps <:+ line) (hc : Cut line c) :
    Outcome (turns ≤ ps.length) (fun d ps' => ∃ ts rs, tokens ps = ts ++ tokens ps' ∧ ps' <:+ ps
      ∧ Redirs ts rs ∧ d.map text = wrap rs (c.map text) ∧ Cut line d) (parseredirs turns c ps) := by
  induction turns generalizing c ps with
  | zero => exact Nat.zero_le _
  | succ turns ih =>
    have hnul' := nul_of_suffix hnul hps
    by_cases hlead : leads ['<', '>'] (tokens ps) = true
    · obtain ⟨t, us, hts, ht⟩ := leads_redir_iff.mp hlead
      by_cases hword : ∃ w ts, us = .word w :: ts
      · obtain ⟨w, ts, rfl⟩ := hword
        obtain ⟨file, ps₁, heq, htok, hsuf, hlt, rfl, hspans⟩ :=
          parseredirs_word hnul' turns c ht hts
        rw [heq]
        refine (ih (hsuf.trans hps) (hc.redircmd ht (hspans.mono hps))).imp (fun hs => by omega) ?_
        rintro d ps' ⟨us, rs, hus, hsuf', hr, hmap, hcut⟩
        refine ⟨t :: .word (text file) :: us, redirOf t (text file) :: rs, ?_, hsuf'.trans hsuf,
          hr.cons ht, ?_, hcut⟩
        · rw [hts, ← htok, hus]
          rfl
        · rw [hmap, map_redircmd ht]
          rfl
      · rw [parseredirs_error hnul' ht hts (fun w ts hus => hword ⟨w, ts, hus⟩)]
        exact .panic (by decide)
    · rw [parseredirs_succ hnul', if_neg hlead]
      exact ⟨[], [], (tokens_skip ps).symm, skip_suffix ps, .nil, rfl, hc⟩

variable {rest : List Token}

theorem parseredirs_complete (hr : Redirs ts rs) (hlead : leads ['<', '>'] rest = false) :
    ∀ (turns : ℕ) (c : Cmd Word) {ps : List Char}, NUL ∉ ps → tokens ps = ts ++ rest →
      ps.length < turns →
      ∃ d ps', parseredirs turns c ps = .ok (d, ps') ∧ d.map text = wrap rs (c.map text)
        ∧ tokens ps' = rest ∧ ps' <:+ ps := by
  refine hr.induct (motive := fun ts rs => ∀ (turns : ℕ) (c : Cmd Word) {ps : List Char}, NUL ∉ ps →
    tokens ps = ts ++ rest → ps.length < turns →
      ∃ d ps', parseredirs turns c ps = .ok (d, ps') ∧ d.map text = wrap rs (c.map text)
        ∧ tokens ps' = rest ∧ ps' <:+ ps) ?_ ?_
  · intro turns c ps hnul hts hlen
    obtain ⟨turns, rfl⟩ := Nat.exists_eq_succ_of_ne_zero (Nat.ne_of_gt (Nat.zero_lt_of_lt hlen))
    refine ⟨c, skip ps, ?_, rfl, (tokens_skip ps).trans hts, skip_suffix ps⟩
    rw [List.nil_append] at hts
    rw [parseredirs_succ hnul, hts, hlead]
    rfl
  · intro t w ts rs ht ih turns c ps hnul hts hlen
    obtain ⟨turns, rfl⟩ := Nat.exists_eq_succ_of_ne_zero (Nat.ne_of_gt (Nat.zero_lt_of_lt hlen))
    obtain ⟨file, ps₁, heq, htok, hsuf, hlt, rfl, -⟩ := parseredirs_word hnul turns c ht hts
    obtain ⟨d, ps', hd, hmap, htok', hsuf'⟩ :=
      ih turns (redircmd c t.code file) (nul_of_suffix hnul hsuf) htok (by omega)
    refine ⟨d, ps', heq.trans hd, ?_, htok', hsuf'.trans hsuf⟩
    rw [hmap, map_redircmd ht]
    rfl

/-! ## Words -/

/-- One turn of `parseargs`. -/
theorem parseargs_succ (hnul : NUL ∉ ps) (turns argc : ℕ) (c : Cmd Word) :
    parseargs (turns + 1) argc c ps
      = if leads ['|', ')', '&', ';'] (tokens ps) = true then .ok (c, skip ps)
        else if (gettoken (skip ps)).ret = NUL then .ok (c, (gettoken (skip ps)).ps)
        else if (gettoken (skip ps)).ret ≠ 'a' then .error (.panic "syntax")
        else if argc + 1 ≥ MAXARGS then .error (.panic "too many args")
        else parseredirs turns (addArg (gettoken (skip ps)).word c) (gettoken (skip ps)).ps
          >>= fun r => parseargs turns (argc + 1) r.1 r.2 := by
  rw [parseargs, peek_eq hnul rfl]

/-- The words end before a token that follows them, or at the end of the line. -/
theorem parseargs_stop (hnul : NUL ∉ ps) (turns argc : ℕ) (c : Cmd Word)
    (h : tokens ps = [] ∨ leads ['|', ')', '&', ';'] (tokens ps) = true) :
    ∃ ps', parseargs (turns + 1) argc c ps = .ok (c, ps') ∧ tokens ps' = tokens ps
      ∧ ps' <:+ ps := by
  rw [parseargs_succ hnul]
  by_cases hlead : leads ['|', ')', '&', ';'] (tokens ps) = true
  · rw [if_pos hlead]
    exact ⟨skip ps, rfl, tokens_skip ps, skip_suffix ps⟩
  · have hts := h.resolve_right hlead
    obtain ⟨hret, hps⟩ := gettoken_nil ((tokens_skip ps).trans hts)
    rw [if_neg hlead, if_pos hret, hps]
    refine ⟨[], rfl, ?_, List.nil_suffix⟩
    rw [hts, tokens_nil]

/-- A word is an argument. -/
theorem parseargs_word (hnul : NUL ∉ ps) (turns argc : ℕ) (c : Cmd Word)
    (h : tokens ps = .word w :: ts) :
    ∃ q ps', parseargs (turns + 1) argc c ps
        = (if argc + 1 ≥ MAXARGS then .error (.panic "too many args")
          else parseredirs turns (addArg q c) ps' >>= fun r => parseargs turns (argc + 1) r.1 r.2)
      ∧ tokens ps' = ts ∧ ps' <:+ ps ∧ ps'.length < ps.length ∧ text q = w ∧ Spans ps q := by
  have hskip : tokens (skip ps) = .word w :: ts := (tokens_skip ps).trans h
  obtain ⟨hret, htok, hsuf, hlen, hword⟩ := gettoken_cons hskip
  obtain ⟨htext, hspans⟩ := hword w rfl
  have hle := (skip_suffix ps).length_le
  refine ⟨_, _, ?_, htok, hsuf.trans (skip_suffix ps), by omega, htext,
    hspans.mono (skip_suffix ps)⟩
  have hlead : ¬ leads ['|', ')', '&', ';'] (tokens ps) = true := by
    rw [h]
    simp [leads, Token.lead]
  rw [parseargs_succ hnul, if_neg hlead, if_neg (by rw [hret]; exact code_ne_nul _),
    if_neg (by rw [hret]; exact fun hne => hne rfl)]

/-- Any other token is an error. -/
theorem parseargs_error (hnul : NUL ∉ ps) (turns argc : ℕ) (c : Cmd Word) (h : tokens ps = t :: ts)
    (hlead : ¬ leads ['|', ')', '&', ';'] (tokens ps) = true) (hword : ∀ w, t ≠ .word w) :
    parseargs (turns + 1) argc c ps = .error (.panic "syntax") := by
  have hskip : tokens (skip ps) = t :: ts := (tokens_skip ps).trans h
  obtain ⟨hret, -⟩ := gettoken_cons hskip
  have hcode : t.code ≠ 'a' := by
    intro hcode
    obtain ⟨w, hw⟩ := code_eq_word_iff.mp hcode
    exact hword w hw
  rw [parseargs_succ hnul, if_neg hlead, if_neg (by rw [hret]; exact code_ne_nul _),
    if_pos (by rw [hret]; exact hcode)]

/-- What `parseargs` can find. -/
theorem args_cases (ts : List Token) :
    (ts = [] ∨ leads ['|', ')', '&', ';'] ts = true) ∨ (∃ w us, ts = .word w :: us)
      ∨ ∃ t us, ts = t :: us ∧ ¬ leads ['|', ')', '&', ';'] ts = true ∧ ∀ w, t ≠ .word w := by
  cases ts with
  | nil => exact Or.inl (Or.inl rfl)
  | cons t us =>
    by_cases hlead : leads ['|', ')', '&', ';'] (t :: us) = true
    · exact Or.inl (Or.inr hlead)
    · cases t with
      | word w => exact Or.inr (Or.inl ⟨w, us, rfl⟩)
      | _ => exact Or.inr (Or.inr ⟨_, us, rfl, hlead, fun w hw => nomatch hw⟩)

theorem parseargs_outcome (hnul : NUL ∉ line) (turns : ℕ) {argc : ℕ} {ws : List (List Char)}
    (hps : ps <:+ line) (hc : Cut line c) (hmap : c.map text = wrap rs (.exec ws))
    (hlen : ws.length = argc) (hargc : argc ≤ MAXARGS - 1) :
    Outcome (turns ≤ ps.length) (fun d ps' => ∃ ts ws' rs', tokens ps = ts ++ tokens ps' ∧ ps' <:+ ps
      ∧ Args ts ws' rs' ∧ d.map text = wrap (rs ++ rs') (.exec (ws ++ ws'))
      ∧ (ws ++ ws').length ≤ MAXARGS - 1 ∧ Cut line d) (parseargs turns argc c ps) := by
  induction turns generalizing argc c ps ws rs with
  | zero => exact Nat.zero_le _
  | succ turns ih =>
    have hnul' := nul_of_suffix hnul hps
    rcases args_cases (tokens ps) with hstop | ⟨w, us, hts⟩ | ⟨t, us, hts, hlead, hword⟩
    · obtain ⟨ps₁, heq, htok, hsuf⟩ := parseargs_stop hnul' turns argc c hstop
      rw [heq]
      refine ⟨[], [], [], htok.symm, hsuf, .nil, ?_, ?_, hc⟩
      · rw [List.append_nil, List.append_nil]
        exact hmap
      · rw [List.append_nil, hlen]
        exact hargc
    · obtain ⟨q, ps₁, heq, htok, hsuf, hlt, rfl, hspans⟩ := parseargs_word hnul' turns argc c hts
      rw [heq]
      by_cases hmany : argc + 1 ≥ MAXARGS
      · rw [if_pos hmany]
        exact .panic (by decide)
      · rw [if_neg hmany]
        refine (parseredirs_outcome hnul turns (hsuf.trans hps) (hc.addArg (hspans.mono hps))).bind
          (fun hs => by omega) ?_
        rintro c₁ ps₂ ⟨us₁, rs₁, htok₁, hsuf₁, hr, hmap₁, hcut₁⟩
        rw [map_addArg, hmap, addArg_wrap, ← wrap_append] at hmap₁
        have hle := hsuf₁.length_le
        refine (ih (hsuf₁.trans (hsuf.trans hps)) hcut₁ hmap₁ (by rw [List.length_append, hlen]; rfl)
          (by omega)).imp (fun hs => by omega) ?_
        rintro d ps' ⟨ts₂, ws₂, rs₂, htok₂, hsuf₂, hargs, hmap₂, hlen₂, hcut₂⟩
        rw [List.append_assoc] at hmap₂ hlen₂
        rw [List.append_assoc] at hmap₂
        refine ⟨.word (text q) :: (us₁ ++ ts₂), text q :: ws₂, rs₁ ++ rs₂, ?_,
          hsuf₂.trans (hsuf₁.trans hsuf), .word hr hargs, hmap₂, hlen₂, hcut₂⟩
        rw [hts, ← htok, htok₁, htok₂, List.cons_append, List.append_assoc]
    · rw [parseargs_error hnul' turns argc c hts hlead hword]
      exact .panic (by decide)

/-- What follows the words is no redirection and no block. -/
theorem not_leads_of_follow (h : rest = [] ∨ leads ['|', ')', '&', ';'] rest = true) :
    leads ['<', '>'] rest = false ∧ leads ['('] rest = false := by
  cases rest with
  | nil => exact ⟨rfl, rfl⟩
  | cons t rest =>
    have hlead := h.resolve_left (List.cons_ne_nil _ _)
    cases t <;> simp [leads, Token.lead, Token.code] at hlead ⊢

theorem Args.not_leads {ws : List (List Char)} (ha : Args ts ws rs)
    (h : rest = [] ∨ leads ['|', ')', '&', ';'] rest = true) :
    leads ['<', '>'] (ts ++ rest) = false ∧ leads ['('] (ts ++ rest) = false := by
  cases ha with
  | nil => exact not_leads_of_follow h
  | word hr ha => exact ⟨rfl, rfl⟩

theorem Redirs.not_leads {ts rest : List Token} {rs : List Redir} (hr : Redirs ts rs)
    (h : leads ['('] rest = false) : leads ['('] (ts ++ rest) = false := by
  cases hr with
  | nil => exact h
  | lt | gt | gtgt => rfl

theorem parseargs_complete {ws' : List (List Char)} {rs' : List Redir} (ha : Args ts ws' rs')
    (hrest : rest = [] ∨ leads ['|', ')', '&', ';'] rest = true) :
    ∀ (turns argc : ℕ) (c : Cmd Word) {ps : List Char} {ws : List (List Char)} {rs : List Redir},
      NUL ∉ ps → tokens ps = ts ++ rest → ps.length < turns →
      c.map text = wrap rs (.exec ws) → ws.length = argc → (ws ++ ws').length ≤ MAXARGS - 1 →
      ∃ d ps', parseargs turns argc c ps = .ok (d, ps')
        ∧ d.map text = wrap (rs ++ rs') (.exec (ws ++ ws')) ∧ tokens ps' = rest ∧ ps' <:+ ps := by
  induction ha with
  | nil =>
    intro turns argc c ps ws rs hnul hts hlen hmap _ _
    obtain ⟨turns, rfl⟩ := Nat.exists_eq_succ_of_ne_zero (Nat.ne_of_gt (Nat.zero_lt_of_lt hlen))
    rw [List.nil_append] at hts
    obtain ⟨ps', heq, htok, hsuf⟩ := parseargs_stop hnul turns argc c (by rwa [hts])
    refine ⟨c, ps', heq, ?_, htok.trans hts, hsuf⟩
    rwa [List.append_nil, List.append_nil]
  | @word w us ts ws' rs₁ rs' hr ha ih =>
    intro turns argc c ps ws rs hnul hts hlen hmap hargc hmany
    obtain ⟨turns, rfl⟩ := Nat.exists_eq_succ_of_ne_zero (Nat.ne_of_gt (Nat.zero_lt_of_lt hlen))
    rw [List.cons_append] at hts
    obtain ⟨q, ps₁, heq, htok, hsuf, hlt, rfl, -⟩ := parseargs_word hnul turns argc c hts
    rw [List.length_append, List.length_cons] at hmany
    have hfew : ¬ argc + 1 ≥ MAXARGS := by
      unfold MAXARGS at hmany ⊢
      omega
    have hlead := (ha.not_leads hrest).1
    rw [List.append_assoc] at htok
    obtain ⟨c₁, ps₂, hredirs, hmap₁, htok₁, hsuf₁⟩ := parseredirs_complete hr hlead turns
      (addArg q c) (nul_of_suffix hnul hsuf) htok (by omega)
    rw [map_addArg, hmap, addArg_wrap, ← wrap_append] at hmap₁
    have hle := hsuf₁.length_le
    obtain ⟨d, ps', hd, hmap', htok', hsuf'⟩ := ih turns (argc + 1) c₁
      (nul_of_suffix hnul (hsuf₁.trans hsuf)) htok₁ (by omega) hmap₁
      (by rw [List.length_append, hargc]; rfl)
      (by rw [List.length_append, List.length_append, List.length_singleton]; omega)
    refine ⟨d, ps', ?_, ?_, htok', hsuf'.trans (hsuf₁.trans hsuf)⟩
    · rw [heq, if_neg hfew, hredirs]
      exact hd
    · rw [hmap', List.append_assoc, List.append_assoc]
      rfl

/-! ## Commands in the background -/

/-- One turn of `parseback`. -/
theorem parseback_succ (hnul : NUL ∉ ps) (turns : ℕ) (c : Cmd Word) :
    parseback (turns + 1) c ps
      = if leads ['&'] (tokens ps) = true then parseback turns (.back c) (gettoken (skip ps)).ps
        else .ok (c, skip ps) := by
  rw [parseback, peek_eq hnul rfl]

/-- A symbol that `peek` has seen is taken off. -/
theorem take_symbol (h : tokens ps = t :: ts) :
    tokens (gettoken (skip ps)).ps = ts ∧ (gettoken (skip ps)).ps <:+ ps
      ∧ (gettoken (skip ps)).ps.length < ps.length := by
  have hskip : tokens (skip ps) = t :: ts := (tokens_skip ps).trans h
  obtain ⟨-, htok, hsuf, hlen, -⟩ := gettoken_cons hskip
  have hle := (skip_suffix ps).length_le
  exact ⟨htok, hsuf.trans (skip_suffix ps), by omega⟩

/-- A symbol that is a token of its own. -/
theorem leads_symbol {c : Char} (hc : ∀ t', t'.lead = some c ↔ t' = t) :
    leads [c] ts = true ↔ ∃ us, ts = t :: us := by
  cases ts with
  | nil => exact ⟨fun h => (nomatch h), fun ⟨us, hus⟩ => (nomatch hus)⟩
  | cons t' us =>
    show [c].any (fun c => decide (t'.lead = some c)) = true ↔ _
    rw [List.any_cons, List.any_nil, Bool.or_false, decide_eq_true_iff, hc]
    constructor
    · rintro rfl
      exact ⟨us, rfl⟩
    · rintro ⟨us', h⟩
      exact (List.cons.inj h).1

theorem lead_amp (t : Token) : t.lead = some '&' ↔ t = .amp := by
  cases t <;> simp [Token.lead, Token.code]

theorem lead_semi (t : Token) : t.lead = some ';' ↔ t = .semi := by
  cases t <;> simp [Token.lead, Token.code]

theorem lead_bar (t : Token) : t.lead = some '|' ↔ t = .bar := by
  cases t <;> simp [Token.lead, Token.code]

theorem lead_lpar (t : Token) : t.lead = some '(' ↔ t = .lpar := by
  cases t <;> simp [Token.lead, Token.code]

theorem lead_rpar (t : Token) : t.lead = some ')' ↔ t = .rpar := by
  cases t <;> simp [Token.lead, Token.code]

theorem parseback_outcome (hnul : NUL ∉ ps) (turns : ℕ) (c : Cmd Word) :
    Outcome (turns ≤ ps.length) (fun d ps' => ∃ k, tokens ps = List.replicate k .amp ++ tokens ps'
      ∧ ps' <:+ ps ∧ d.map text = Cmd.back^[k] (c.map text) ∧ d.words = c.words)
      (parseback turns c ps) := by
  induction turns generalizing c ps with
  | zero => exact Nat.zero_le _
  | succ turns ih =>
    rw [parseback_succ hnul]
    by_cases hlead : leads ['&'] (tokens ps) = true
    · rw [if_pos hlead]
      obtain ⟨us, hts⟩ := (leads_symbol lead_amp).mp hlead
      obtain ⟨htok, hsuf, hlt⟩ := take_symbol hts
      refine (ih (nul_of_suffix hnul hsuf) _).imp (fun hs => by omega) ?_
      rintro d ps' ⟨k, htok', hsuf', hmap, hwords⟩
      refine ⟨k + 1, ?_, hsuf'.trans hsuf, hmap, hwords⟩
      rw [hts, ← htok, htok']
      rfl
    · rw [if_neg hlead]
      exact ⟨0, (tokens_skip ps).symm, skip_suffix ps, rfl, rfl⟩

theorem parseback_complete (hrest : leads ['&'] rest = false) (k : ℕ) :
    ∀ (turns : ℕ) (c : Cmd Word) {ps : List Char}, NUL ∉ ps →
      tokens ps = List.replicate k .amp ++ rest → ps.length < turns →
      ∃ d ps', parseback turns c ps = .ok (d, ps') ∧ d.map text = Cmd.back^[k] (c.map text)
        ∧ tokens ps' = rest ∧ ps' <:+ ps := by
  induction k with
  | zero =>
    intro turns c ps hnul hts hlen
    obtain ⟨turns, rfl⟩ := Nat.exists_eq_succ_of_ne_zero (Nat.ne_of_gt (Nat.zero_lt_of_lt hlen))
    refine ⟨c, skip ps, ?_, rfl, (tokens_skip ps).trans hts, skip_suffix ps⟩
    rw [List.replicate_zero, List.nil_append] at hts
    rw [parseback_succ hnul, hts, hrest]
    rfl
  | succ k ih =>
    intro turns c ps hnul hts hlen
    obtain ⟨turns, rfl⟩ := Nat.exists_eq_succ_of_ne_zero (Nat.ne_of_gt (Nat.zero_lt_of_lt hlen))
    rw [List.replicate_succ, List.cons_append] at hts
    obtain ⟨htok, hsuf, hlt⟩ := take_symbol hts
    obtain ⟨d, ps', hd, hmap, htok', hsuf'⟩ :=
      ih turns (.back c) (nul_of_suffix hnul hsuf) htok (by omega)
    refine ⟨d, ps', ?_, hmap, htok', hsuf'.trans hsuf⟩
    rw [parseback_succ hnul, if_pos ((leads_symbol lead_amp).mpr ⟨_, hts⟩)]
    exact hd

/-! ## Soundness -/

/-- The function of a symbol. -/
def parse : Nonterminal → ℕ → List Char → Except ShHalt (Cmd Word × List Char)
  | .line => parseline
  | .pipe => parsepipe
  | .exec => parseexec

/-- The turns that a symbol asks for, beside four for each character. -/
def level : Nonterminal → ℕ
  | .line => 4
  | .pipe => 3
  | .exec => 2

/-- **What a function of the parser has built derives** from what it has taken off
the line. -/
def Taken (line : List Char) (nt : Nonterminal) (ps : List Char) (d : Cmd Word) (ps' : List Char) :
    Prop :=
  ∃ ts, tokens ps = ts ++ tokens ps' ∧ ps' <:+ ps ∧ Derives nt ts (d.map text) ∧ Cut line d

theorem cut_append {d : Cmd Word} (hc : Cut line c) (hd : Cut line d) :
    ∀ w ∈ c.words ++ d.words, Spans line w := fun w hw => by
  rcases List.mem_append.mp hw with hw | hw
  · exact hc w hw
  · exact hd w hw

section turn

variable (hnul : NUL ∉ line) (hps : ps <:+ line) {turns : ℕ}
  (ih : ∀ nt ps, ps <:+ line →
    Outcome (turns < 4 * ps.length + level nt) (Taken line nt ps) (parse nt turns ps))

include hnul hps ih

theorem parsepipe_outcome :
    Outcome (turns < 4 * ps.length + 2) (Taken line .pipe ps) (parsepipe (turns + 1) ps) := by
  rw [parsepipe]
  refine (ih .exec ps hps).bind id ?_
  rintro c ps₁ ⟨ts, htok, hsuf, hder, hcut⟩
  have hps₁ := hsuf.trans hps
  dsimp only
  rw [peek_eq (nul_of_suffix hnul hps₁) rfl]
  dsimp only
  by_cases hlead : leads ['|'] (tokens ps₁) = true
  · rw [if_pos hlead]
    obtain ⟨us, hts⟩ := (leads_symbol lead_bar).mp hlead
    obtain ⟨htok₁, hsuf₁, hlt⟩ := take_symbol hts
    have hle := hsuf.length_le
    refine (ih .pipe _ (hsuf₁.trans hps₁)).bind (fun (hs : turns < 4 * _ + 3) => by omega) ?_
    rintro right ps₂ ⟨us', htok₂, hsuf₂, hder', hcut'⟩
    refine ⟨ts ++ .bar :: us', ?_, hsuf₂.trans (hsuf₁.trans hsuf), .pipe hder hder',
      cut_append hcut hcut'⟩
    rw [htok, hts, ← htok₁, htok₂, List.append_assoc]
    rfl
  · rw [if_neg hlead]
    refine ⟨ts, ?_, (skip_suffix ps₁).trans hsuf, .exec hder, hcut⟩
    rw [tokens_skip]
    exact htok

theorem parseline_outcome :
    Outcome (turns < 4 * ps.length + 3) (Taken line .line ps) (parseline (turns + 1) ps) := by
  rw [parseline]
  refine (ih .pipe ps hps).bind id ?_
  rintro c ps₁ ⟨ts, htok, hsuf, hder, hcut⟩
  have hps₁ := hsuf.trans hps
  have hle := hsuf.length_le
  refine (parseback_outcome (nul_of_suffix hnul hps₁) turns c).bind (fun hs => by omega) ?_
  rintro c₂ ps₂ ⟨k, htok₁, hsuf₁, hmap, hwords⟩
  have hps₂ := hsuf₁.trans hps₁
  have hcut₂ : Cut line c₂ := by
    unfold Cut
    rw [hwords]
    exact hcut
  dsimp only
  rw [peek_eq (nul_of_suffix hnul hps₂) rfl]
  dsimp only
  by_cases hlead : leads [';'] (tokens ps₂) = true
  · rw [if_pos hlead]
    obtain ⟨us, hts⟩ := (leads_symbol lead_semi).mp hlead
    obtain ⟨htok₂, hsuf₂, hlt⟩ := take_symbol hts
    have hle₁ := hsuf₁.length_le
    refine (ih .line _ (hsuf₂.trans hps₂)).bind (fun (hs : turns < 4 * _ + 4) => by omega) ?_
    rintro right ps₃ ⟨us', htok₃, hsuf₃, hder', hcut'⟩
    refine ⟨ts ++ List.replicate k .amp ++ .semi :: us', ?_,
      hsuf₃.trans (hsuf₂.trans (hsuf₁.trans hsuf)), ?_, cut_append hcut₂ hcut'⟩
    · rw [htok, htok₁, hts, ← htok₂, htok₃, List.append_assoc, List.append_assoc]
      rfl
    · show Derives .line _ (.list (c₂.map text) (right.map text))
      rw [hmap]
      exact .list hder k hder'
  · rw [if_neg hlead]
    refine ⟨ts ++ List.replicate k .amp, ?_, (skip_suffix ps₂).trans (hsuf₁.trans hsuf), ?_, hcut₂⟩
    · rw [tokens_skip, htok, htok₁, List.append_assoc]
    · rw [hmap]
      exact .line hder k

theorem parseblock_outcome (hlead : leads ['('] (tokens ps) = true) :
    Outcome (turns < 4 * ps.length) (Taken line .exec ps) (parseblock (turns + 1) ps) := by
  rw [parseblock, peek_eq (nul_of_suffix hnul hps) rfl, hlead]
  obtain ⟨us, hts⟩ := (leads_symbol lead_lpar).mp hlead
  obtain ⟨htok, hsuf, hlt⟩ := take_symbol hts
  have hps₀ := hsuf.trans hps
  refine (ih .line _ hps₀).bind (fun (hs : turns < 4 * _ + 4) => by omega) ?_
  rintro c ps₁ ⟨ts, htok₁, hsuf₁, hder, hcut⟩
  have hps₁ := hsuf₁.trans hps₀
  dsimp only
  rw [peek_eq (nul_of_suffix hnul hps₁) rfl]
  dsimp only
  by_cases hlead' : leads [')'] (tokens ps₁) = true
  · rw [hlead']
    obtain ⟨vs, hts₁⟩ := (leads_symbol lead_rpar).mp hlead'
    obtain ⟨htok₂, hsuf₂, hlt₁⟩ := take_symbol hts₁
    have hle := hsuf₁.length_le
    refine (parseredirs_outcome hnul turns (hsuf₂.trans hps₁) hcut).imp (fun hs => by omega) ?_
    rintro d ps' ⟨us', rs, htok₃, hsuf₃, hr, hmap, hcut'⟩
    refine ⟨.lpar :: ts ++ .rpar :: us', ?_, hsuf₃.trans (hsuf₂.trans (hsuf₁.trans hsuf)), ?_,
      hcut'⟩
    · rw [hts, ← htok, htok₁, hts₁, ← htok₂, htok₃]
      simp
    · rw [hmap]
      exact .block hder hr
  · rw [eq_false_of_ne_true hlead']
    exact .panic (by decide)

omit ih in
/-- Without a parenthesis there are redirections and words. -/
theorem parseexec_outcome (turns : ℕ) (hlead : ¬ leads ['('] (tokens ps) = true) :
    Outcome (turns ≤ ps.length) (Taken line .exec ps) (parseexec (turns + 1) ps) := by
  have hskip := (skip_suffix ps).trans hps
  have hle := (skip_suffix ps).length_le
  rw [parseexec, peek_eq (nul_of_suffix hnul hps) rfl]
  dsimp only
  rw [if_neg hlead]
  have hnone : Cut line (.exec []) := fun w hw => absurd hw List.not_mem_nil
  refine (parseredirs_outcome hnul turns hskip hnone).bind (fun hs => by omega) ?_
  rintro c ps₁ ⟨us, rs, htok, hsuf, hr, hmap, hcut⟩
  have hle₁ := hsuf.length_le
  refine (parseargs_outcome hnul turns (hsuf.trans hskip) hcut hmap rfl (Nat.zero_le _)).imp
    (fun hs => by omega) ?_
  rintro d ps' ⟨ts, ws, rs', htok₁, hsuf₁, hargs, hmap₁, hlen, hcut₁⟩
  refine ⟨us ++ ts, ?_, hsuf₁.trans (hsuf.trans (skip_suffix ps)), ?_, hcut₁⟩
  · rw [← tokens_skip, htok, htok₁, List.append_assoc]
  · rw [hmap₁]
    exact .args hr hargs hlen

end turn

/-- **Every call ends, and what it has built derives**, with all functions at
once. -/
theorem parser_outcome (hnul : NUL ∉ line) (turns : ℕ) : ∀ nt ps, ps <:+ line →
    Outcome (turns < 4 * ps.length + level nt) (Taken line nt ps) (parse nt turns ps) := by
  induction turns using Nat.strong_induction_on with
  | _ turns ih =>
    intro nt ps hps
    match turns, nt with
    | 0, .line =>
      rw [parse, parseline]
      exact Nat.succ_pos _
    | 0, .pipe =>
      rw [parse, parsepipe]
      exact Nat.succ_pos _
    | 0, .exec =>
      rw [parse, parseexec]
      exact Nat.succ_pos _
    | turns + 1, .line =>
      exact (parseline_outcome hnul hps (ih turns (Nat.lt_succ_self _))).imp Nat.succ_lt_succ
        (fun _ _ => id)
    | turns + 1, .pipe =>
      exact (parsepipe_outcome hnul hps (ih turns (Nat.lt_succ_self _))).imp Nat.succ_lt_succ
        (fun _ _ => id)
    | turns + 1, .exec =>
      by_cases hlead : leads ['('] (tokens ps) = true
      · have hle := (skip_suffix ps).length_le
        rw [parse, parseexec, peek_eq (nul_of_suffix hnul hps) rfl]
        dsimp only
        rw [if_pos hlead]
        rw [← tokens_skip] at hlead
        cases turns with
        | zero =>
          rw [parseblock]
          exact Nat.succ_lt_succ (Nat.succ_pos _)
        | succ turns =>
          refine (parseblock_outcome hnul ((skip_suffix ps).trans hps) (ih turns (by omega))
            hlead).imp (fun hs => show turns + 1 + 1 < 4 * ps.length + 2 by omega) ?_
          rintro d ps' ⟨ts, htok, hsuf, htaken⟩
          exact ⟨ts, (tokens_skip ps).symm.trans htok, hsuf.trans (skip_suffix ps), htaken⟩
      · refine (parseexec_outcome hnul hps turns hlead).imp (fun hs => ?_) (fun _ _ => id)
        show turns + 1 < 4 * ps.length + 2
        omega

end Sh

end Xv6
