import Xv6.User.Parser
import Mathlib.Data.List.TakeWhile

/-!
# The shell's parser accepts its grammar

The other direction, and what `nulterminate` makes of the words. A token that follows a symbol of the grammar is never one that the symbol
could go on with, so the parser has no choice and takes all of a derivation. The
words in the buffer end where no word goes on, so a `NUL` at the end of one word
is inside no other.
-/

namespace Xv6

namespace Sh

variable {ps : List Char}

/-! ## Completeness -/

/-- The tokens that can follow a symbol. -/
def follow : Nonterminal → List Char
  | .line => [')']
  | .pipe => [')', '&', ';']
  | .exec => ['|', ')', '&', ';']

/-- Nothing follows, or a token that can. -/
def Follows (nt : Nonterminal) (rest : List Token) : Prop :=
  rest = [] ∨ leads (follow nt) rest = true

variable {rest : List Token}

theorem Follows.pipe_of_line (h : Follows .line rest) (k : ℕ) :
    Follows .pipe (List.replicate k .amp ++ rest) := by
  cases k with
  | zero =>
    rcases h with rfl | h
    · exact Or.inl rfl
    · obtain ⟨us, rfl⟩ := (leads_symbol lead_rpar).mp h
      exact Or.inr rfl
  | succ k => exact Or.inr rfl

theorem Follows.exec_of_pipe (h : Follows .pipe rest) : Follows .exec rest := by
  cases rest with
  | nil => exact Or.inl rfl
  | cons t rest =>
    have hlead := h.resolve_left (List.cons_ne_nil _ _)
    cases t <;> simp [Follows, follow, leads, Token.lead, Token.code] at hlead ⊢

theorem Follows.not_bar (h : Follows .pipe rest) :
    leads ['|'] rest = false := by
  cases rest with
  | nil => rfl
  | cons t rest =>
    have hlead := h.resolve_left (List.cons_ne_nil _ _)
    cases t <;> simp [follow, leads, Token.lead, Token.code] at hlead ⊢

theorem Follows.not_amp (h : Follows .line rest) :
    leads ['&'] rest = false ∧ leads [';'] rest = false ∧ leads ['<', '>'] rest = false := by
  rcases h with rfl | h
  · exact ⟨rfl, rfl, rfl⟩
  · obtain ⟨us, rfl⟩ := (leads_symbol lead_rpar).mp h
    exact ⟨rfl, rfl, rfl⟩

/-- **The derivation at the start of the line is taken.** -/
def Accepts (nt : Nonterminal) (ts : List Token) (c : Cmd (List Char)) : Prop :=
  ∀ (turns : ℕ) {ps : List Char} {rest : List Token}, NUL ∉ ps → tokens ps = ts ++ rest →
    Follows nt rest → 4 * ps.length + level nt ≤ turns →
    ∃ d ps', parse nt turns ps = .ok (d, ps') ∧ d.map text = c ∧ tokens ps' = rest ∧ ps' <:+ ps

variable {ts : List Token} {c : Cmd (List Char)}

theorem Accepts.exec (h : Accepts .exec ts c) :
    Accepts .pipe ts c := by
  intro turns ps rest hnul hts hrest hturns
  replace hturns : 4 * ps.length + 3 ≤ turns := hturns
  obtain ⟨turns, rfl⟩ : ∃ n, turns = n + 1 := ⟨turns - 1, by omega⟩
  obtain ⟨d, ps', hd, hmap, htok, hsuf⟩ :=
    h turns hnul hts hrest.exec_of_pipe (show 4 * ps.length + 2 ≤ turns by omega)
  refine ⟨d, skip ps', ?_, hmap, (tokens_skip ps').trans htok, (skip_suffix ps').trans hsuf⟩
  replace hd : parseexec turns ps = .ok (d, ps') := hd
  show parsepipe (turns + 1) ps = _
  rw [parsepipe, hd]
  show (if (peek ps' ['|']).1 = true then _ else _) = _
  rw [peek_eq (nul_of_suffix hnul hsuf) rfl, htok, hrest.not_bar]
  rfl

variable {us : List Token}

theorem Accepts.pipe {d : Cmd (List Char)} (h : Accepts .exec ts c) (hd : Accepts .pipe us d) :
    Accepts .pipe (ts ++ .bar :: us) (.pipe c d) := by
  intro turns ps rest hnul hts hrest hturns
  replace hturns : 4 * ps.length + 3 ≤ turns := hturns
  obtain ⟨turns, rfl⟩ : ∃ n, turns = n + 1 := ⟨turns - 1, by omega⟩
  rw [List.append_assoc] at hts
  obtain ⟨d₁, ps₁, hd₁, hmap₁, htok₁, hsuf₁⟩ :=
    h turns hnul hts (Or.inr rfl) (show 4 * ps.length + 2 ≤ turns by omega)
  rw [List.cons_append] at htok₁
  obtain ⟨htok₂, hsuf₂, hlt⟩ := take_symbol htok₁
  have hle := hsuf₁.length_le
  obtain ⟨d₂, ps₂, hd₂, hmap₂, htok₃, hsuf₃⟩ :=
    hd turns (nul_of_suffix hnul (hsuf₂.trans hsuf₁)) htok₂ hrest
      (show 4 * _ + 3 ≤ turns by omega)
  refine ⟨.pipe d₁ d₂, ps₂, ?_, ?_, htok₃, hsuf₃.trans (hsuf₂.trans hsuf₁)⟩
  · replace hd₁ : parseexec turns ps = .ok (d₁, ps₁) := hd₁
    replace hd₂ : parsepipe turns (gettoken (skip ps₁)).ps = .ok (d₂, ps₂) := hd₂
    show parsepipe (turns + 1) ps = _
    rw [parsepipe, hd₁]
    show (if (peek ps₁ ['|']).1 = true then
      parsepipe turns (gettoken (peek ps₁ ['|']).2).ps >>= _ else _) = _
    rw [peek_eq (nul_of_suffix hnul hsuf₁) rfl,
      if_pos ((leads_symbol lead_bar).mpr ⟨_, htok₁⟩), hd₂]
    rfl
  · rw [Cmd.map, hmap₁, hmap₂]

/-- A pipe and the symbols that put it in the background. -/
theorem Accepts.back (h : Accepts .pipe ts c) (k : ℕ) (turns : ℕ) (hnul : NUL ∉ ps)
    (hts : tokens ps = ts ++ (List.replicate k .amp ++ rest))
    (hfollows : Follows .pipe (List.replicate k .amp ++ rest)) (hamp : leads ['&'] rest = false)
    (hturns : 4 * ps.length + 3 ≤ turns) :
    ∃ d₁ ps₁ d₂ ps₂, parsepipe turns ps = .ok (d₁, ps₁) ∧ parseback turns d₁ ps₁ = .ok (d₂, ps₂)
      ∧ d₂.map text = Cmd.back^[k] c ∧ tokens ps₂ = rest ∧ ps₂ <:+ ps := by
  obtain ⟨d₁, ps₁, hd₁, hmap₁, htok₁, hsuf₁⟩ := h turns hnul hts hfollows hturns
  have hle := hsuf₁.length_le
  obtain ⟨d₂, ps₂, hd₂, hmap₂, htok₂, hsuf₂⟩ :=
    parseback_complete hamp k turns d₁ (nul_of_suffix hnul hsuf₁) htok₁ (by omega)
  refine ⟨d₁, ps₁, d₂, ps₂, hd₁, hd₂, ?_, htok₂, hsuf₂.trans hsuf₁⟩
  rw [hmap₂, hmap₁]

theorem Accepts.line (h : Accepts .pipe ts c) (k : ℕ) :
    Accepts .line (ts ++ List.replicate k .amp) (Cmd.back^[k] c) := by
  intro turns ps rest hnul hts hrest hturns
  replace hturns : 4 * ps.length + 4 ≤ turns := hturns
  obtain ⟨turns, rfl⟩ : ∃ n, turns = n + 1 := ⟨turns - 1, by omega⟩
  rw [List.append_assoc] at hts
  obtain ⟨hamp, hsemi, -⟩ := hrest.not_amp
  obtain ⟨d₁, ps₁, d₂, ps₂, hd₁, hd₂, hmap, htok, hsuf⟩ :=
    h.back k turns hnul hts (hrest.pipe_of_line k) hamp (by omega)
  refine ⟨d₂, skip ps₂, ?_, hmap, (tokens_skip ps₂).trans htok, (skip_suffix ps₂).trans hsuf⟩
  show parseline (turns + 1) ps = _
  rw [parseline, hd₁]
  show (parseback turns d₁ ps₁ >>= _) = _
  rw [hd₂]
  show (if (peek ps₂ [';']).1 = true then _ else _) = _
  rw [peek_eq (nul_of_suffix hnul hsuf) rfl, htok, hsemi]
  rfl

theorem Accepts.list {d : Cmd (List Char)} (h : Accepts .pipe ts c) (k : ℕ)
    (hd : Accepts .line us d) :
    Accepts .line (ts ++ List.replicate k .amp ++ .semi :: us) (.list (Cmd.back^[k] c) d) := by
  intro turns ps rest hnul hts hrest hturns
  replace hturns : 4 * ps.length + 4 ≤ turns := hturns
  obtain ⟨turns, rfl⟩ : ∃ n, turns = n + 1 := ⟨turns - 1, by omega⟩
  rw [List.append_assoc, List.append_assoc] at hts
  have hfollows : Follows .pipe (List.replicate k .amp ++ (.semi :: us ++ rest)) := by
    cases k with
    | zero => exact Or.inr rfl
    | succ k => exact Or.inr rfl
  obtain ⟨d₁, ps₁, d₂, ps₂, hd₁, hd₂, hmap, htok, hsuf⟩ :=
    h.back k turns hnul hts hfollows rfl (by omega)
  rw [List.cons_append] at htok
  obtain ⟨htok₂, hsuf₂, hlt⟩ := take_symbol htok
  have hle := hsuf.length_le
  obtain ⟨d₃, ps₃, hd₃, hmap₃, htok₃, hsuf₃⟩ :=
    hd turns (nul_of_suffix hnul (hsuf₂.trans hsuf)) htok₂ hrest
      (show 4 * _ + 4 ≤ turns by omega)
  refine ⟨.list d₂ d₃, ps₃, ?_, ?_, htok₃, hsuf₃.trans (hsuf₂.trans hsuf)⟩
  · replace hd₃ : parseline turns (gettoken (skip ps₂)).ps = .ok (d₃, ps₃) := hd₃
    show parseline (turns + 1) ps = _
    rw [parseline, hd₁]
    show (parseback turns d₁ ps₁ >>= _) = _
    rw [hd₂]
    show (if (peek ps₂ [';']).1 = true then
      parseline turns (gettoken (peek ps₂ [';']).2).ps >>= _ else _) = _
    rw [peek_eq (nul_of_suffix hnul hsuf) rfl,
      if_pos ((leads_symbol lead_semi).mpr ⟨_, htok⟩), hd₃]
    rfl
  · rw [Cmd.map, hmap, hmap₃]

theorem Accepts.block {rs : List Redir} (h : Accepts .line ts c) (hr : Redirs us rs) :
    Accepts .exec (.lpar :: ts ++ .rpar :: us) (wrap rs c) := by
  intro turns ps rest hnul hts hrest hturns
  replace hturns : 4 * ps.length + 2 ≤ turns := hturns
  obtain ⟨turns, rfl⟩ : ∃ n, turns = n + 2 := ⟨turns - 2, by omega⟩
  have hts' : tokens (skip ps) = .lpar :: (ts ++ .rpar :: (us ++ rest)) := by
    rw [tokens_skip, hts]
    simp
  obtain ⟨htok, hsuf, hlt⟩ := take_symbol hts'
  have hskip := hsuf.trans (skip_suffix ps)
  have hle := (skip_suffix ps).length_le
  obtain ⟨d₁, ps₁, hd₁, hmap₁, htok₁, hsuf₁⟩ :=
    h turns (nul_of_suffix hnul hskip) htok (Or.inr rfl)
      (show 4 * _ + 4 ≤ turns by omega)
  have hps₁ := hsuf₁.trans hskip
  obtain ⟨htok₂, hsuf₂, hlt₂⟩ := take_symbol htok₁
  have hle₁ := hsuf₁.length_le
  obtain ⟨d, ps', hd, hmap, htok', hsuf'⟩ := parseredirs_complete hr (not_leads_of_follow hrest).1
    turns d₁ (nul_of_suffix hnul (hsuf₂.trans hps₁)) htok₂ (by omega)
  refine ⟨d, ps', ?_, by rw [hmap, hmap₁], htok', hsuf'.trans (hsuf₂.trans hps₁)⟩
  have hlead : leads ['('] (tokens (skip ps)) = true := (leads_symbol lead_lpar).mpr ⟨_, hts'⟩
  replace hd₁ : parseline turns (gettoken (skip (skip ps))).ps = .ok (d₁, ps₁) := hd₁
  have hblock : parseblock (turns + 1) (skip ps) = .ok (d, ps') := by
    rw [parseblock, peek_eq (nul_of_suffix hnul (skip_suffix ps)) rfl, hlead]
    show (parseline turns (gettoken (skip (skip ps))).ps >>= _) = _
    rw [hd₁]
    show (if (!(peek ps₁ [')']).1) = true then _ else
      parseredirs turns d₁ (gettoken (peek ps₁ [')']).2).ps) = _
    rw [peek_eq (nul_of_suffix hnul hps₁) rfl, (leads_symbol lead_rpar).mpr ⟨_, htok₁⟩]
    exact hd
  show parseexec (turns + 2) ps = _
  rw [parseexec, peek_eq hnul rfl]
  rw [tokens_skip] at hlead
  dsimp only
  rw [if_pos hlead]
  exact hblock

theorem Accepts.args {ws : List (List Char)} {rs rs' : List Redir} (hr : Redirs us rs)
    (h : Args ts ws rs') (hlen : ws.length ≤ MAXARGS - 1) :
    Accepts .exec (us ++ ts) (wrap (rs ++ rs') (.exec ws)) := by
  intro turns ps rest hnul hts hrest hturns
  replace hturns : 4 * ps.length + 2 ≤ turns := hturns
  obtain ⟨turns, rfl⟩ : ∃ n, turns = n + 1 := ⟨turns - 1, by omega⟩
  rw [List.append_assoc] at hts
  obtain ⟨hredir, hlpar⟩ := h.not_leads hrest
  have hle := (skip_suffix ps).length_le
  obtain ⟨d₁, ps₁, hd₁, hmap₁, htok₁, hsuf₁⟩ := parseredirs_complete hr hredir turns (.exec [])
    (nul_of_suffix hnul (skip_suffix ps)) ((tokens_skip ps).trans hts) (by omega)
  have hle₁ := hsuf₁.length_le
  have hps₁ := hsuf₁.trans (skip_suffix ps)
  obtain ⟨d, ps', hd, hmap, htok', hsuf'⟩ := parseargs_complete h hrest turns 0 d₁
    (nul_of_suffix hnul hps₁) htok₁ (by omega) hmap₁ rfl hlen
  refine ⟨d, ps', ?_, hmap, htok', hsuf'.trans hps₁⟩
  show parseexec (turns + 1) ps = _
  rw [parseexec, peek_eq hnul rfl, hts, hr.not_leads hlpar]
  show (parseredirs turns (.exec []) (skip ps) >>= _) = _
  rw [hd₁]
  exact hd

/-- **Completeness.** -/
theorem Derives.accepts {nt : Nonterminal} (h : Derives nt ts c) : Accepts nt ts c := by
  induction h with
  | line _ k ih => exact ih.line k
  | list _ k _ ih ih' => exact ih.list k ih'
  | exec _ ih => exact ih.exec
  | pipe _ _ ih ih' => exact ih.pipe ih'
  | block _ hr ih => exact ih.block hr
  | args hr h hlen => exact Accepts.args hr h hlen

/-! ## The words in the buffer -/

section buffer

variable {line buf : List Char}

/-- The characters of words are as in the line. -/
structure Kept (line buf : List Char) : Prop where
  length : buf.length = line.length + 1
  word : ∀ (i : ℕ) (c : Char), (line)[i]? = some c → inWord c = true → buf[i]? = some c

/-- A pointer into the line. -/
theorem index_of_append (pre p : List Char) : index (pre ++ p) p = pre.length := by
  unfold index
  rw [List.length_append, Nat.add_sub_cancel]

variable {w : Word}

/-- No word goes on at its end. -/
theorem Spans.not_inWord (h : Spans line w) {c : Char} (hc : (line)[index line w.eq]? = some c) :
    inWord c = false := by
  obtain ⟨pre, rfl⟩ := h.suffix
  have hq : w.q = w.q.takeWhile inWord ++ w.eq := by
    rw [h.eq, List.takeWhile_append_dropWhile]
  rw [hq, ← List.append_assoc, index_of_append, List.getElem?_append_right (Nat.le_refl _),
    Nat.sub_self, h.eq] at hc
  have hhead := List.head?_dropWhile_not inWord w.q
  rw [List.head?_eq_getElem?, hc] at hhead
  simpa using hhead

/-- **The end of a word is put in the buffer.** -/
theorem Kept.terminate (h : Kept line buf) (hw : Spans line w) :
    Kept line (terminate line buf w.eq)
      ∧ (Sh.terminate line buf w.eq)[index line w.eq]? = some NUL
      ∧ ∀ i : ℕ, buf[i]? = some NUL → (Sh.terminate line buf w.eq)[i]? = some NUL := by
  have hlt : index line w.eq < buf.length := by
    rw [h.length]
    unfold index
    omega
  unfold Sh.terminate
  refine ⟨⟨?_, ?_⟩, ?_, ?_⟩
  · rw [List.length_set]
    exact h.length
  · intro i c hc hword
    have hne : index line w.eq ≠ i := by
      rintro rfl
      rw [hw.not_inWord hc] at hword
      exact Bool.false_ne_true hword
    rw [List.getElem?_set_ne hne]
    exact h.word i c hc hword
  · rw [List.getElem?_set_self hlt]
  · intro i hi
    by_cases hne : index line w.eq = i
    · rw [← hne, List.getElem?_set_self hlt]
    · rw [List.getElem?_set_ne hne]
      exact hi

/-- What `nulterminate` does for the words of a command. -/
structure Terminated (line buf buf' : List Char) (ws : List Word) : Prop where
  kept : Kept line buf'
  ends : ∀ w ∈ ws, buf'[index line w.eq]? = some NUL
  old : ∀ i : ℕ, buf[i]? = some NUL → buf'[i]? = some NUL

variable {ws : List Word}

theorem Terminated.append {buf' buf'' : List Char} {ws' : List Word}
    (h : Terminated line buf buf' ws) (h' : Terminated line buf' buf'' ws') :
    Terminated line buf buf'' (ws ++ ws') where
  kept := h'.kept
  ends := by
    intro w hw
    rcases List.mem_append.mp hw with hw | hw
    · exact h'.old _ (h.ends w hw)
    · exact h'.ends w hw
  old := fun i hi => h'.old i (h.old i hi)

theorem terminated_word (h : Kept line buf) (hw : Spans line w) :
    Terminated line buf (terminate line buf w.eq) [w] := by
  obtain ⟨hkept, hend, hold⟩ := h.terminate hw
  refine ⟨hkept, fun v hv => ?_, hold⟩
  rw [List.mem_singleton.mp hv]
  exact hend

theorem terminated_words (h : Kept line buf) (hws : ∀ w ∈ ws, Spans line w) :
    Terminated line buf (ws.foldl (fun buf w => terminate line buf w.eq) buf) ws := by
  induction ws generalizing buf with
  | nil => exact ⟨h, fun w hw => absurd hw List.not_mem_nil, fun i hi => hi⟩
  | cons w ws ih =>
    obtain ⟨hw, hws⟩ := List.forall_mem_cons.mp hws
    have hfirst := terminated_word h hw
    exact hfirst.append (ih hfirst.kept hws)

variable {c : Cmd Word}

/-- **`nulterminate` ends the words and changes none.** -/
theorem terminated_nulterminate (hc : Cut line c) (h : Kept line buf) :
    Terminated line buf (nulterminate line c buf) c.words := by
  induction c generalizing buf with
  | exec argv => exact terminated_words h hc
  | redir cmd file mode fd ih =>
    obtain ⟨hfile, hcmd⟩ := List.forall_mem_cons.mp hc
    have hinner := ih hcmd h
    have houter := hinner.append (terminated_word hinner.kept hfile)
    refine ⟨houter.kept, fun w hw => houter.ends w ?_, houter.old⟩
    rcases List.mem_cons.mp hw with rfl | hw
    · exact List.mem_append_right _ List.mem_cons_self
    · exact List.mem_append_left _ hw
  | pipe left right ihl ihr =>
    have hleft := ihl (fun w hw => hc w (List.mem_append_left _ hw)) h
    exact hleft.append (ihr (fun w hw => hc w (List.mem_append_right _ hw)) hleft.kept)
  | list left right ihl ihr =>
    have hleft := ihl (fun w hw => hc w (List.mem_append_left _ hw)) h
    exact hleft.append (ihr (fun w hw => hc w (List.mem_append_right _ hw)) hleft.kept)
  | back cmd ih => exact ih hc h

/-- A string in the buffer, from its characters and its end. -/
theorem takeWhile_drop {s : List Char} {n : ℕ}
    (hs : ∀ (j : ℕ) (c : Char), s[j]? = some c → buf[n + j]? = some c)
    (hend : buf[n + s.length]? = some NUL) (hnul : NUL ∉ s) :
    (buf.drop n).takeWhile (fun c => decide (c ≠ NUL)) = s := by
  induction s generalizing n with
  | nil =>
    have hend' : buf[n]? = some NUL := hend
    obtain ⟨hlt, heq⟩ := List.getElem?_eq_some_iff.mp hend'
    rw [List.drop_eq_getElem_cons hlt, heq, List.takeWhile_cons_of_neg (by decide)]
  | cons c s ih =>
    have hfirst : buf[n]? = some c := hs 0 c rfl
    obtain ⟨hlt, heq⟩ := List.getElem?_eq_some_iff.mp hfirst
    have hc : c ≠ NUL := fun hc => hnul (by rw [hc]; exact List.mem_cons_self)
    rw [List.drop_eq_getElem_cons hlt, heq, List.takeWhile_cons, if_pos (decide_eq_true hc)]
    congr 1
    refine ih (fun j d hd => ?_) ?_ (fun hmem => hnul (List.mem_cons_of_mem c hmem))
    · have hnext := hs (j + 1) d hd
      rwa [← Nat.add_assoc, Nat.add_right_comm] at hnext
    · rw [List.length_cons, ← Nat.add_assoc, Nat.add_right_comm] at hend
      exact hend

/-- A word of the line, with the positions of its pointers. -/
theorem Spans.line_eq (h : Spans line w) :
    ∃ pre, line = pre ++ (text w ++ w.eq) ∧ index line w.q = pre.length
      ∧ index line w.eq = pre.length + (text w).length := by
  obtain ⟨pre, hpre⟩ := h.suffix
  have hq : w.q = text w ++ w.eq := by
    rw [h.eq]
    exact List.takeWhile_append_dropWhile.symm
  refine ⟨pre, by rw [← hq, hpre], by rw [← hpre, index_of_append], ?_⟩
  rw [← hpre, hq, ← List.append_assoc, index_of_append, List.length_append]

/-- Between its pointers are the characters of a word. -/
theorem Spans.inWord_of_lt (h : Spans line w) {i : ℕ} (hq : index line w.q ≤ i)
    (heq : i < index line w.eq) : ∃ c, (line)[i]? = some c ∧ inWord c = true := by
  obtain ⟨pre, hline, hstart, hend⟩ := h.line_eq
  obtain ⟨j, rfl⟩ := Nat.exists_eq_add_of_le (hstart ▸ hq)
  have hj : j < (text w).length := by omega
  refine ⟨(text w)[j], ?_, List.mem_takeWhile_imp (List.getElem_mem hj)⟩
  rw [hline, List.getElem?_append_right (Nat.le_add_right _ _), Nat.add_sub_cancel_left,
    List.getElem?_append_left hj, List.getElem?_eq_getElem hj]

/-- **The string of a word is its text.** -/
theorem Terminated.string_eq {buf' : List Char} (h : Terminated line buf buf' ws)
    (hnul : NUL ∉ line) (hw : w ∈ ws) (hspans : Spans line w) :
    string line buf' w = text w := by
  obtain ⟨pre, hline, hstart, hend⟩ := hspans.line_eq
  unfold string
  rw [hstart]
  refine takeWhile_drop (fun j c hc => ?_) ?_ (fun hmem => hnul ?_)
  · have hj := (List.getElem?_eq_some_iff.mp hc).1
    refine h.kept.word _ c ?_ (List.mem_takeWhile_imp (List.mem_of_getElem? hc))
    rw [hline, List.getElem?_append_right (Nat.le_add_right _ _), Nat.add_sub_cancel_left,
      List.getElem?_append_left hj, hc]
  · rw [← hend]
    exact h.ends w hw
  · rw [hline]
    exact List.mem_append_right _ (List.mem_append_left _ hmem)

theorem map_congr {f g : Word → List Char} (h : ∀ w ∈ c.words, f w = g w) :
    c.map f = c.map g := by
  induction c with
  | exec argv => exact congrArg Cmd.exec (List.map_congr_left h)
  | redir cmd file mode fd ih =>
    obtain ⟨hfile, hcmd⟩ := List.forall_mem_cons.mp h
    rw [Cmd.map, Cmd.map, ih hcmd, hfile]
  | pipe left right ihl ihr =>
    rw [Cmd.map, Cmd.map, ihl (fun w hw => h w (List.mem_append_left _ hw)),
      ihr (fun w hw => h w (List.mem_append_right _ hw))]
  | list left right ihl ihr =>
    rw [Cmd.map, Cmd.map, ihl (fun w hw => h w (List.mem_append_left _ hw)),
      ihr (fun w hw => h w (List.mem_append_right _ hw))]
  | back cmd ih => rw [Cmd.map, Cmd.map, ih h]

theorem terminated_line (hc : Cut line c) :
    Terminated line (line ++ [NUL]) (nulterminate line c (line ++ [NUL])) c.words := by
  refine terminated_nulterminate hc ⟨List.length_append, fun i d hd _ => ?_⟩
  rw [List.getElem?_append_left (List.getElem?_eq_some_iff.mp hd).1]
  exact hd

/-- The words of a command are cut out of the buffer as they are in the line. -/
theorem map_string (hc : Cut line c) (hnul : NUL ∉ line) :
    c.map (string line (nulterminate line c (line ++ [NUL]))) = c.map text :=
  map_congr (fun w hw => (terminated_line hc).string_eq hnul hw (hc w hw))

end buffer

/-! ## The parser -/

/-- `parsecmd`, once the line has been parsed. -/
theorem parsecmd_of_parseline {line : List Char} (hnul : NUL ∉ line) {turns : ℕ} {c : Cmd Word}
    (hline : parseline turns line = .ok (c, ps)) (hsuf : ps <:+ line) :
    parsecmd turns line
      = if skip ps = [] then .ok (c, nulterminate line c (line ++ [NUL]))
        else .error (.panic "syntax") := by
  have hpeek : (peek ps []).2 = skip ps := by
    rw [peek_eq (nul_of_suffix hnul hsuf) rfl]
  unfold parsecmd
  rw [hline]
  show (if (peek ps []).2 ≠ [] then _ else _) = _
  rw [hpeek]
  by_cases hrest : skip ps = []
  · rw [if_neg (fun hne => hne hrest), if_pos hrest]
    rfl
  · rw [if_pos hrest, if_neg hrest]

/-- **What `parsecmd` returns**: a command that derives the tokens of the line, or
an error. -/
theorem parsecmd_cases {line : List Char} (hnul : NUL ∉ line) (turns : ℕ) :
    (∃ c, Derives .line (tokens line) (c.map text) ∧ Cut line c
        ∧ parsecmd turns line = .ok (c, nulterminate line c (line ++ [NUL])))
      ∨ (∃ e ∈ syntaxErrors, parsecmd turns line = .error (.panic e))
      ∨ turns < 4 * line.length + 4 ∧ parsecmd turns line = .error .running := by
  have hout : Outcome (turns < 4 * line.length + 4) (Taken line .line line) (parseline turns line) :=
    parser_outcome hnul turns .line line List.suffix_rfl
  have herror : ∀ e, parseline turns line = .error e → parsecmd turns line = .error e := by
    intro e he
    unfold parsecmd
    rw [he]
    rfl
  match hline : parseline turns line, hout with
  | .ok (c, ps), ⟨ts, htok, hsuf, hder, hcut⟩ =>
    rw [parsecmd_of_parseline hnul hline hsuf]
    by_cases hrest : skip ps = []
    · refine .inl ⟨c, ?_, hcut, if_pos hrest⟩
      rw [htok, skip_eq_nil_iff.mp hrest, List.append_nil]
      exact hder
    · exact .inr (.inl ⟨"syntax", by decide, if_neg hrest⟩)
  | .error (.panic e), he => exact .inr (.inl ⟨e, he, herror _ hline⟩)
  | .error .running, hs => exact .inr (.inr ⟨hs, herror _ hline⟩)

theorem parsecmd_cut {line buf : List Char} (hnul : NUL ∉ line) {turns : ℕ} {cmd : Cmd Word}
    (h : parsecmd turns line = .ok (cmd, buf)) :
    Derives .line (tokens line) (cmd.map text) ∧ Cut line cmd
      ∧ buf = nulterminate line cmd (line ++ [NUL]) := by
  rcases parsecmd_cases hnul turns with ⟨c, hder, hcut, hok⟩ | ⟨e, -, herr⟩ | ⟨-, herr⟩
  · rw [hok] at h
    cases h
    exact ⟨hder, hcut, rfl⟩
  · rw [herr] at h
    exact nomatch h
  · rw [herr] at h
    exact nomatch h

/-- **The parser accepts its grammar**: with enough turns `parsecmd` returns a
command if and only if the tokens of the line derive it, with the words as
strings in the buffer, and every other line is given up with an error. -/
theorem parsecmd_iff_derives {line : List Char} (hnul : NUL ∉ line) {turns : ℕ}
    (hturns : 4 * line.length + 4 ≤ turns) :
    (∀ t, (∃ cmd buf, parsecmd turns line = .ok (cmd, buf) ∧ cmd.map (string line buf) = t)
        ↔ Derives .line (tokens line) t)
      ∧ ((¬ ∃ t, Derives .line (tokens line) t) →
        ∃ e ∈ syntaxErrors, parsecmd turns line = .error (.panic e)) := by
  refine ⟨fun t => ⟨?_, fun hder => ?_⟩, fun hnone => ?_⟩
  · rintro ⟨cmd, buf, h, rfl⟩
    obtain ⟨hder, hcut, rfl⟩ := parsecmd_cut hnul h
    rw [map_string hcut hnul]
    exact hder
  · obtain ⟨c, ps, hline, hmap, htok, hsuf⟩ :=
      hder.accepts turns hnul (List.append_nil _).symm (Or.inl rfl) hturns
    have hcmd := parsecmd_of_parseline hnul hline hsuf
    rw [if_pos (skip_eq_nil_iff.mpr htok)] at hcmd
    obtain ⟨-, hcut, -⟩ := parsecmd_cut hnul hcmd
    exact ⟨c, _, hcmd, (map_string hcut hnul).trans hmap⟩
  · rcases parsecmd_cases hnul turns with ⟨c, hder, -⟩ | herr | ⟨hs, -⟩
    · exact absurd ⟨_, hder⟩ hnone
    · exact herr
    · omega

/-- `(a>b c&;)<d|` is a line of the shell: it ends with an empty command. -/
def shLine : List Char :=
  ['(', 'a', '>', 'b', ' ', 'c', '&', ';', ')', '<', 'd', '|']

theorem parsecmd_shLine : ∃ r, parsecmd 60 shLine = .ok r ∧ r.1.words.length = 4 := by
  decide +kernel

theorem parsecmd_iff_derives_line :
    NUL ∉ shLine ∧ ∃ t, Derives .line (tokens shLine) t := by
  have hnul : NUL ∉ shLine := by decide
  obtain ⟨⟨cmd, buf⟩, h, -⟩ := parsecmd_shLine
  exact ⟨hnul, _, ((parsecmd_iff_derives hnul (by decide)).1 _).mp ⟨cmd, buf, h, rfl⟩⟩

/-- **Terminating the words in place yields their texts**: of an accepted line, the
command derives the tokens of the line with the strings in the buffer as its
words, the string of a word is what stood between its two pointers, no character
there has been changed, and the end of no word is put there. -/
theorem parsecmd_strings {line buf : List Char} (hnul : NUL ∉ line) {turns : ℕ} {cmd : Cmd Word}
    (h : parsecmd turns line = .ok (cmd, buf)) :
    Derives .line (tokens line) (cmd.map (string line buf))
      ∧ ∀ w ∈ cmd.words,
        (∃ pre, line = pre ++ (string line buf w ++ w.eq) ∧ index line w.q = pre.length
          ∧ index line w.eq = pre.length + (string line buf w).length)
        ∧ ∀ i, index line w.q ≤ i → i < index line w.eq →
          buf[i]? = (line)[i]? ∧ ∀ v ∈ cmd.words, index line v.eq ≠ i := by
  obtain ⟨hder, hcut, rfl⟩ := parsecmd_cut hnul h
  refine ⟨by rwa [map_string hcut hnul], fun w hw => ⟨?_, fun i hq heq => ?_⟩⟩
  · rw [(terminated_line hcut).string_eq hnul hw (hcut w hw)]
    exact (hcut w hw).line_eq
  · obtain ⟨c, hc, hword⟩ := (hcut w hw).inWord_of_lt hq heq
    refine ⟨((terminated_line hcut).kept.word i c hc hword).trans hc.symm, ?_⟩
    rintro v hv rfl
    rw [(hcut v hv).not_inWord hc] at hword
    exact Bool.false_ne_true hword

theorem parsecmd_strings_line : ∃ cmd buf, parsecmd 60 shLine = .ok (cmd, buf)
    ∧ Derives .line (tokens shLine) (cmd.map (string shLine buf)) := by
  obtain ⟨⟨cmd, buf⟩, h, -⟩ := parsecmd_shLine
  exact ⟨cmd, buf, h, (parsecmd_strings (by decide) h).1⟩

end Sh

end Xv6
