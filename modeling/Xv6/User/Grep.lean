import Mathlib.Data.UInt
import Xv6.Lib.Separated
import Xv6.User.Regexp
import Xv6.User.Ulib

/-!
# `grep`

`grep` reads its input in pieces of any length into one buffer, writes the lines that match,
and keeps the line that is not finished for the next turn. Where a piece has no newline in
it, `grep` takes it that the line does not fit, and drops what it has of the line, the bytes
kept so far included. So a line is lost or cut if a `read` ends in the middle of it and the
next newline is not in the same piece.

What the buffer does is first said in terms of the pieces alone: `kept` is what stays in the
buffer, and every turn writes the lines of what was kept together with the piece.
-/

namespace Xv6

open Function

namespace Grep

open Separated (unfinished)

/-- `'\n'`. -/
def NEWLINE : UInt8 := 0x0A

/-- `sizeof(buf)`. -/
def BUFSIZE : ℕ := 1024

/-! ## The program -/

/-- `buf` from a pointer on. -/
def text (buf : Memory) (p : ℕ) : List UInt8 := buf.bytes p (BUFSIZE - p)

/-- The inner loop: the buffer, the pointer `p`, and what has been written. -/
def scan (re : List UInt8) (buf : Memory) (p : ℕ) (out : List UInt8) : Memory × ℕ × List UInt8 :=
  match h : Ulib.strchr (text buf p) NEWLINE with
  | none => (buf, p, out)
  | some off =>
    have : off < BUFSIZE - p := by
      have hlt := Ulib.strchr_lt h
      rwa [text, Memory.length_bytes] at hlt
    let q := p + off
    let buf : Memory := update buf q 0
    if matchRe re (text buf p) then
      let buf : Memory := update buf q NEWLINE
      scan re buf (q + 1) (out ++ buf.bytes p (q + 1 - p))
    else scan re buf (q + 1) out
termination_by BUFSIZE - p

/-- The state between two `read`s: the buffer, of which the first `m` bytes are kept for the next
turn, and the output so far. -/
structure State where
  buf : Memory
  m : ℕ
  out : List UInt8

/-- One turn of the outer loop, for the bytes that `read` has stored. -/
def turn (re chunk : List UInt8) (s : State) : State :=
  let m := s.m + chunk.length
  let buf := update (s.buf.store s.m chunk) m 0
  let (buf, p, out) := scan re buf 0 s.out
  let m := if p = 0 then 0 else m
  if 0 < m then ⟨Ulib.memmove buf 0 p (m - p), m - p, out⟩ else ⟨buf, m, out⟩

/-- **`grep`**, for what the `read`s return. There is no run if `read` would return nothing
before the end, or more than there is space for. -/
def grep (re : List UInt8) : List (List UInt8) → State → Option State
  | [], s => some s
  | chunk :: chunks, s =>
    if 0 < chunk.length ∧ chunk.length ≤ BUFSIZE - s.m - 1 then grep re chunks (turn re chunk s)
    else none

/-! ## Lines -/

/-- The lines that a newline ends. -/
def lines (w : List UInt8) : List (List UInt8) := Separated.finished NEWLINE w

/-- **The lines that match**, with their newlines. -/
def selected (re w : List UInt8) : List UInt8 :=
  ((lines w).filter (matchRe re)).flatMap (· ++ [NEWLINE])

variable {re l w w' : List UInt8}

theorem selected_of_notMem (hw : NEWLINE ∉ w) : selected re w = [] := by
  unfold selected lines
  rw [Separated.finished_of_notMem hw]
  rfl

theorem selected_line (re : List UInt8) (hl : NEWLINE ∉ l) (w : List UInt8) :
    selected re (l ++ NEWLINE :: w)
      = (if matchRe re l = true then l ++ [NEWLINE] else []) ++ selected re w := by
  unfold selected lines
  rw [Separated.finished_record hl, List.filter_cons]
  split
  · rw [List.flatMap_cons]
  · rfl

/-- **More input goes on with the line that is not finished.** -/
theorem selected_append (re w w' : List UInt8) :
    selected re (w ++ w') = selected re w ++ selected re (unfinished NEWLINE w ++ w') := by
  induction w using Separated.induction NEWLINE with
  | last w hw => rw [Separated.unfinished_of_notMem hw, selected_of_notMem hw, List.nil_append]
  | record l w hl ih =>
    rw [List.append_assoc, List.cons_append, selected_line re hl, selected_line re hl,
      Separated.unfinished_record hl, ih, List.append_assoc]

/-! ## One turn -/

/-- The buffer up to its `NUL`. -/
theorem text_update {buf : Memory} {p : ℕ} {b : UInt8} {t : List UInt8} (c : UInt8)
    (h : text buf p = l ++ b :: t) :
    text (update buf (p + l.length) c) p = l ++ c :: t := by
  obtain ⟨hn, hl, hr⟩ := Memory.bytes_eq_append h
  rw [List.length_cons, Memory.bytes_succ] at hr
  obtain ⟨-, ht⟩ := List.cons.inj hr
  unfold text
  rw [hn, Memory.bytes_add, List.length_cons, Memory.bytes_succ, Memory.bytes_update_of_ge le_rfl,
    update_self, Memory.bytes_update_of_lt (Nat.lt_succ_self _), hl, ht]

/-- **The inner loop** writes the lines that match, and stops at the line that is not
finished, which it leaves as it is. -/
theorem scan_eq (hre : 0 ∉ re) (hw : 0 ∉ w) {buf : Memory} {p : ℕ} {t : List UInt8}
    (out : List UInt8) (htext : text buf p = w ++ 0 :: t) :
    ∃ buf' p', scan re buf p out = (buf', p', out ++ selected re w) ∧
      p' + (unfinished NEWLINE w).length = p + w.length ∧ ∀ a, p' ≤ a → buf' a = buf a := by
  induction w using Separated.induction NEWLINE generalizing buf p out with
  | last w hnew =>
    refine ⟨buf, p, ?_, by rw [Separated.unfinished_of_notMem hnew], fun _ _ => rfl⟩
    rw [scan, selected_of_notMem hnew, List.append_nil]
    split
    · rfl
    · next off hoff =>
      rw [htext, Ulib.strchr_eq_none hnew] at hoff
      cases hoff
  | record l w hl ih =>
    have hnul : 0 ∉ l ∧ 0 ∉ w := by
      rw [List.mem_append, List.mem_cons, not_or, not_or] at hw
      exact ⟨hw.1, hw.2.2⟩
    have htext' : text buf p = l ++ NEWLINE :: (w ++ 0 :: t) := by
      rw [htext, List.append_assoc, List.cons_append]
    have hstr := Ulib.strchr_eq_some hnul.1 hl (by decide) (w ++ 0 :: t)
    have hzero := text_update 0 htext'
    -- the rest of the buffer, whatever has become of the newline
    have hrest : ∀ {buf₁ : Memory} {c : UInt8}, text buf₁ p = l ++ c :: (w ++ 0 :: t) →
        text buf₁ (p + l.length + 1) = w ++ 0 :: t ∧ buf₁.bytes p (l.length + 1) = l ++ [c] := by
      intro buf₁ c h₁
      obtain ⟨hn, hl₁, hr₁⟩ := Memory.bytes_eq_append h₁
      rw [List.length_cons, Memory.bytes_succ] at hr₁
      obtain ⟨hc, ht⟩ := List.cons.inj hr₁
      refine ⟨?_, ?_⟩
      · unfold text
        rw [show BUFSIZE - (p + l.length + 1) = (w ++ 0 :: t).length by
          rw [List.length_cons] at hn
          omega]
        exact ht
      · rw [Memory.bytes_add, hl₁, Memory.bytes_one, hc]
    rw [scan]
    split
    · next hnone =>
      rw [htext', hstr] at hnone
      cases hnone
    · next off hoff =>
      rw [htext', hstr] at hoff
      cases hoff
      dsimp only
      rw [hzero, matchRe_append_zero hre, selected_line re hl, Separated.unfinished_record hl]
      split
      · have hback := text_update NEWLINE hzero
        obtain ⟨hnext, hbytes⟩ := hrest hback
        obtain ⟨buf', p', heq, hp', hsame⟩ := ih hnul.2 (out ++ (l ++ [NEWLINE])) hnext
        refine ⟨buf', p', ?_, ?_, fun a ha => ?_⟩
        · rw [show p + l.length + 1 - p = l.length + 1 by omega, hbytes, heq, List.append_assoc]
        · rw [hp', List.length_append, List.length_cons]
          omega
        · have hle := (Separated.unfinished_suffix NEWLINE w).length_le
          rw [hsame a ha, update_of_ne (by omega), update_of_ne (by omega)]
      · obtain ⟨buf', p', heq, hp', hsame⟩ := ih hnul.2 out (hrest hzero).1
        refine ⟨buf', p', ?_, ?_, fun a ha => ?_⟩
        · rw [heq, List.nil_append]
        · rw [hp', List.length_append, List.length_cons]
          omega
        · have hle := (Separated.unfinished_suffix NEWLINE w).length_le
          rw [hsame a ha, update_of_ne (by omega)]

/-- What the buffer keeps of a line. -/
structure Holds (s : State) (c : List UInt8) : Prop where
  m : s.m = c.length
  bytes : s.buf.bytes 0 c.length = c

/-- **What stays in the buffer** after a piece: the line that is not finished, or nothing if
the piece has no newline. -/
def kept (c chunk : List UInt8) : List UInt8 :=
  if NEWLINE ∈ chunk then unfinished NEWLINE (c ++ chunk) else []

variable {c : List UInt8}

/-- **One turn.** -/
theorem turn_eq {s : State} {chunk : List UInt8} (hre : 0 ∉ re) (hs : Holds s c) (hc : NEWLINE ∉ c)
    (hnul : 0 ∉ c ++ chunk) (hfits : chunk.length ≤ BUFSIZE - s.m - 1) (hpos : 0 < chunk.length) :
    Holds (turn re chunk s) (kept c chunk) ∧
      (turn re chunk s).out = s.out ++ selected re (c ++ chunk) := by
  rw [hs.m] at hfits
  -- the buffer holds what was kept, the piece and a `NUL`
  obtain ⟨buf, hbuf⟩ : ∃ buf : Memory, buf
      = update (s.buf.store c.length chunk) (c.length + chunk.length) 0 := ⟨_, rfl⟩
  have hbytes : buf.bytes 0 (c ++ chunk).length = c ++ chunk := by
    rw [hbuf, List.length_append, Memory.bytes_update_of_ge (by omega), Memory.bytes_add,
      Memory.bytes_store_of_le (by omega), hs.bytes, Nat.zero_add, Memory.bytes_store]
  have htext : text buf 0 = (c ++ chunk) ++ 0 :: buf.bytes ((c ++ chunk).length + 1)
      (BUFSIZE - (c ++ chunk).length - 1) := by
    unfold text
    rw [show BUFSIZE - 0 = (c ++ chunk).length + (BUFSIZE - (c ++ chunk).length - 1 + 1) by
      rw [List.length_append]
      unfold BUFSIZE at hfits ⊢
      omega, Memory.bytes_add, hbytes, Nat.zero_add, Memory.bytes_succ]
    congr 2
    rw [hbuf, List.length_append, update_self]
  obtain ⟨buf', p', hscan, hp', hsame⟩ := scan_eq hre hnul s.out htext
  rw [Nat.zero_add] at hp'
  have hturn : turn re chunk s = (if 0 < (if p' = 0 then 0 else (c ++ chunk).length) then
      ⟨Ulib.memmove buf' 0 p' ((if p' = 0 then 0 else (c ++ chunk).length) - p'),
        (if p' = 0 then 0 else (c ++ chunk).length) - p', s.out ++ selected re (c ++ chunk)⟩
      else ⟨buf', if p' = 0 then 0 else (c ++ chunk).length, s.out ++ selected re (c ++ chunk)⟩) := by
    unfold turn
    dsimp only
    rw [hs.m, ← hbuf, hscan, List.length_append]
  rw [hturn]
  unfold kept
  by_cases hnew : NEWLINE ∈ chunk
  · have hlt := Separated.length_unfinished_lt (List.mem_append_right c hnew)
    have hne : p' ≠ 0 := by omega
    rw [if_pos hnew, if_neg hne, if_pos (by omega)]
    have hm : (c ++ chunk).length - p' = (unfinished NEWLINE (c ++ chunk)).length := by omega
    refine ⟨⟨hm, ?_⟩, rfl⟩
    obtain ⟨l, hl⟩ := Separated.unfinished_suffix NEWLINE (c ++ chunk)
    have hlen : l.length = p' := by
      have hsum := congrArg List.length hl
      rw [List.length_append] at hsum
      omega
    rw [← hl] at hbytes
    obtain ⟨-, -, htail⟩ := Memory.bytes_eq_append hbytes
    dsimp only
    rw [hm, Ulib.bytes_memmove buf' (Nat.zero_le p'), Memory.bytes_congr (fun a ha _ => hsame a ha)]
    rw [Nat.zero_add, hlen] at htail
    exact htail
  · have hall : NEWLINE ∉ c ++ chunk := fun h => (List.mem_append.mp h).elim hc hnew
    have hzero : p' = 0 := by
      rw [Separated.unfinished_of_notMem hall] at hp'
      omega
    rw [if_neg hnew, if_pos hzero, if_neg (Nat.lt_irrefl 0)]
    exact ⟨⟨rfl, rfl⟩, rfl⟩

/-! ## The run -/

/-- What is written, in terms of the pieces. -/
def output (re : List UInt8) : List UInt8 → List (List UInt8) → List UInt8
  | _, [] => []
  | c, chunk :: chunks => selected re (c ++ chunk) ++ output re (kept c chunk) chunks

/-- The pieces fit the space that is left. -/
def Offered : List UInt8 → List (List UInt8) → Prop
  | _, [] => True
  | c, chunk :: chunks =>
    (0 < chunk.length ∧ chunk.length ≤ BUFSIZE - c.length - 1) ∧ Offered (kept c chunk) chunks

instance : (c : List UInt8) → (chunks : List (List UInt8)) → Decidable (Offered c chunks)
  | _, [] => inferInstanceAs (Decidable True)
  | c, chunk :: chunks =>
    have : Decidable (Offered (kept c chunk) chunks) := instDecidableOffered (kept c chunk) chunks
    inferInstanceAs (Decidable (_ ∧ _))

theorem notMem_kept (c chunk : List UInt8) : NEWLINE ∉ kept c chunk := by
  unfold kept
  split
  · exact Separated.notMem_unfinished _ _
  · exact List.not_mem_nil

theorem zero_notMem_kept {chunk : List UInt8} (h : 0 ∉ c ++ chunk) : 0 ∉ kept c chunk := by
  unfold kept
  split
  · exact fun hmem => h ((Separated.unfinished_suffix _ _).mem hmem)
  · exact List.not_mem_nil

variable {chunks : List (List UInt8)}

/-- **A run of `grep`**: there is one if the pieces fit, and it writes the output. -/
theorem grep_eq (hre : 0 ∉ re) {s : State} (hs : Holds s c) (hc : NEWLINE ∉ c)
    (hnul : 0 ∉ c ++ chunks.flatten) :
    (grep re chunks s).map State.out
      = if Offered c chunks then some (s.out ++ output re c chunks) else none := by
  induction chunks generalizing c s with
  | nil =>
    rw [if_pos (show Offered c [] from trivial), output, List.append_nil]
    rfl
  | cons chunk chunks ih =>
    unfold grep Offered
    rw [List.flatten_cons, ← List.append_assoc] at hnul
    have hfirst : 0 ∉ c ++ chunk := fun h => hnul (List.mem_append_left _ h)
    have hlater : 0 ∉ kept c chunk ++ chunks.flatten := fun h => (List.mem_append.mp h).elim
      (zero_notMem_kept hfirst) (fun h => hnul (List.mem_append_right _ h))
    by_cases hfits : 0 < chunk.length ∧ chunk.length ≤ BUFSIZE - s.m - 1
    · obtain ⟨hs', hout⟩ := turn_eq hre hs hc hfirst hfits.2 hfits.1
      rw [if_pos hfits, ih hs' (notMem_kept c chunk) hlater, hout, output, List.append_assoc]
      rw [hs.m] at hfits
      simp only [hfits, and_self, true_and]
    · rw [if_neg hfits]
      rw [hs.m] at hfits
      rw [if_neg (fun h => hfits h.1)]
      rfl

/-! ## Pieces that do not matter -/

/-- **Every piece before a newline has one**: no `read` ends in the middle of a line whose
newline it has not seen, unless the line is never finished. -/
def NewlinesFirst (chunks : List (List UInt8)) : Prop :=
  chunks.Pairwise (fun chunk later => NEWLINE ∈ later → NEWLINE ∈ chunk)

instance (chunks : List (List UInt8)) : Decidable (NewlinesFirst chunks) :=
  inferInstanceAs (Decidable (List.Pairwise _ _))

/-- Nothing is written without a newline. -/
theorem output_of_notMem (hc : NEWLINE ∉ c) (hchunks : ∀ chunk ∈ chunks, NEWLINE ∉ chunk) :
    output re c chunks = [] := by
  induction chunks generalizing c with
  | nil => rfl
  | cons chunk chunks ih =>
    have hchunk := hchunks chunk List.mem_cons_self
    rw [output, selected_of_notMem (fun h => (List.mem_append.mp h).elim hc hchunk),
      List.nil_append]
    exact ih (notMem_kept c chunk) (fun d hd => hchunks d (List.mem_cons_of_mem _ hd))

/-- Of such pieces nothing is lost. -/
theorem output_eq_selected (hc : NEWLINE ∉ c) (h : NewlinesFirst chunks) :
    output re c chunks = selected re (c ++ chunks.flatten) := by
  induction chunks generalizing c with
  | nil =>
    rw [List.flatten_nil, List.append_nil, selected_of_notMem hc]
    rfl
  | cons chunk chunks ih =>
    obtain ⟨hfirst, hlater⟩ := List.pairwise_cons.mp h
    by_cases hnew : NEWLINE ∈ chunk
    · rw [output, ih (notMem_kept c chunk) hlater, kept, if_pos hnew, List.flatten_cons,
        ← List.append_assoc c, selected_append re (c ++ chunk)]
    · -- the line is never finished
      have hnone : ∀ d ∈ chunk :: chunks, NEWLINE ∉ d := by
        intro d hd
        rcases List.mem_cons.mp hd with rfl | hd
        · exact hnew
        · exact fun hmem => hnew (hfirst d hd hmem)
      rw [output_of_notMem hc hnone, selected_of_notMem (fun hmem => ?_)]
      rcases List.mem_append.mp hmem with hmem | hmem
      · exact hc hmem
      · obtain ⟨d, hd, hmem⟩ := List.mem_flatten.mp hmem
        exact hnone d hd hmem

/-- The empty pattern selects everything up to the last newline. -/
theorem length_selected_nil (w : List UInt8) :
    (selected [] w).length + (unfinished NEWLINE w).length = w.length := by
  induction w using Separated.induction NEWLINE with
  | last w hw =>
    rw [selected_of_notMem hw, Separated.unfinished_of_notMem hw, List.length_nil, Nat.zero_add]
  | record l w hl ih =>
    rw [selected_line [] hl, Separated.unfinished_record hl, if_pos (matchRe_nil l),
      List.length_append,
      List.length_append, List.length_append, List.length_singleton, List.length_cons]
    omega

/-- A text before a newline is selected. -/
theorem length_selected_append (hw : NEWLINE ∈ w') (w : List UInt8) :
    (selected [] (w ++ w')).length = w.length + (selected [] w').length := by
  have hsum := length_selected_nil w'
  have hsum' := length_selected_nil (w ++ w')
  rw [Separated.unfinished_append hw, List.length_append] at hsum'
  omega

/-- **What is dropped before a newline is missing.** -/
theorem newlinesFirst_of_length (hc : NEWLINE ∉ c) (hpos : ∀ chunk ∈ chunks, 0 < chunk.length) :
    (output [] c chunks).length ≤ (selected [] (c ++ chunks.flatten)).length ∧
      ((output [] c chunks).length = (selected [] (c ++ chunks.flatten)).length → NewlinesFirst chunks) := by
  induction chunks generalizing c with
  | nil => exact ⟨Nat.zero_le _, fun _ => List.Pairwise.nil⟩
  | cons chunk chunks ih =>
    obtain ⟨hle, hfirst⟩ :=
      ih (notMem_kept c chunk) (fun d hd => hpos d (List.mem_cons_of_mem _ hd))
    have hchunk := hpos chunk List.mem_cons_self
    rw [output, List.flatten_cons, List.length_append]
    by_cases hnew : NEWLINE ∈ chunk
    · have hkept : kept c chunk = unfinished NEWLINE (c ++ chunk) := if_pos hnew
      rw [hkept] at hle hfirst ⊢
      rw [← List.append_assoc c, selected_append [] (c ++ chunk), List.length_append]
      refine ⟨by omega, fun heq => List.pairwise_cons.mpr ⟨fun _ _ _ => hnew, hfirst (by omega)⟩⟩
    · have hkept : kept c chunk = [] := if_neg hnew
      have hnone : NEWLINE ∉ c ++ chunk := fun h => (List.mem_append.mp h).elim hc hnew
      rw [hkept, List.nil_append] at hle hfirst
      rw [hkept, selected_of_notMem hnone, List.length_nil, Nat.zero_add]
      by_cases hlater : NEWLINE ∈ chunks.flatten
      · rw [← List.append_assoc c, length_selected_append hlater, List.length_append]
        exact ⟨by omega, fun heq => by omega⟩
      · rw [selected_of_notMem hlater] at hle hfirst
        refine ⟨by rw [List.length_nil] at hle; omega,
          fun _ => List.pairwise_cons.mpr ⟨?_, hfirst ?_⟩⟩
        · exact fun d hd hmem => absurd (List.mem_flatten.mpr ⟨d, hd, hmem⟩) hlater
        · rw [List.length_nil] at hle ⊢
          omega

theorem length_pos_of_offered (h : Offered c chunks) :
    ∀ chunk ∈ chunks, 0 < chunk.length := by
  induction chunks generalizing c with
  | nil => exact fun _ hd => (nomatch hd)
  | cons chunk chunks ih =>
    intro d hd
    rcases List.mem_cons.mp hd with rfl | hd
    · exact h.1.1
    · exact ih h.2 d hd

/-- `grep` before the first `read`. -/
def State.start (buf : Memory) : State := ⟨buf, 0, []⟩

theorem grep_start (hre : 0 ∉ re) (buf : Memory) (hnul : 0 ∉ chunks.flatten) :
    (grep re chunks (.start buf)).map State.out
      = if Offered [] chunks then some (output re [] chunks) else none :=
  grep_eq hre ⟨rfl, rfl⟩ List.not_mem_nil hnul

/-- **The output of `grep` does not depend on the pieces** that it reads if and only if the
pieces with a newline come first. -/
theorem grep_eq_selected_iff (buf : Memory) {chunks : List (List UInt8)} (hnul : 0 ∉ chunks.flatten)
    (hreads : ∀ re, 0 ∉ re → (grep re chunks (.start buf)).isSome) :
    (∀ re, 0 ∉ re →
      (grep re chunks (.start buf)).map State.out = some (selected re chunks.flatten)) ↔
      NewlinesFirst chunks := by
  have hoffered : Offered [] chunks := by
    by_contra hno
    have hrun := @grep_start [] chunks List.not_mem_nil buf hnul
    rw [if_neg hno, Option.map_eq_none_iff] at hrun
    have hsome := hreads [] List.not_mem_nil
    rw [hrun] at hsome
    cases hsome
  constructor
  · intro hall
    have heq := hall [] List.not_mem_nil
    rw [grep_start List.not_mem_nil buf hnul, if_pos hoffered] at heq
    exact (newlinesFirst_of_length List.not_mem_nil (length_pos_of_offered hoffered)).2
      (congrArg List.length (Option.some.inj heq))
  · intro hfirst re hre
    rw [grep_start hre buf hnul, if_pos hoffered, output_eq_selected List.not_mem_nil hfirst,
      List.nil_append]

/-- A line, and a line that is not finished. -/
def twoReads : List (List UInt8) := [[0x61, 0x62, NEWLINE, 0x63], [0x64, NEWLINE]]

theorem grep_eq_selected_iff_twoReads :
    (∀ re, 0 ∉ re →
      (grep re twoReads (.start 0)).map State.out = some (selected re twoReads.flatten)) ↔
      NewlinesFirst twoReads := by
  have hnul : 0 ∉ twoReads.flatten := by decide
  refine grep_eq_selected_iff 0 hnul (fun re hre => ?_)
  have hrun := grep_start hre 0 hnul
  rw [if_pos (by decide +kernel)] at hrun
  obtain ⟨s, hs, -⟩ := Option.map_eq_some_iff.mp hrun
  rw [hs]
  rfl

/-- **The line `ab` is read in two pieces**, and `b` is written. -/
theorem grep_ne_selected : (grep [] [[0x61], [0x62, NEWLINE]] (.start 0)).map State.out
      = some [0x62, NEWLINE] ∧ selected [] [0x61, 0x62, NEWLINE] = [0x61, 0x62, NEWLINE] := by
  have hb : selected [] [0x62, NEWLINE] = [0x62, NEWLINE] := by
    have hline := selected_line [] (l := [0x62]) (by decide) []
    rw [if_pos (matchRe_nil _), selected_of_notMem List.not_mem_nil] at hline
    exact hline
  have hab : selected [] [0x61, 0x62, NEWLINE] = [0x61, 0x62, NEWLINE] := by
    have hline := selected_line [] (l := [0x61, 0x62]) (by decide) []
    rw [if_pos (matchRe_nil _), selected_of_notMem List.not_mem_nil] at hline
    exact hline
  refine ⟨?_, hab⟩
  rw [grep_start List.not_mem_nil 0 (by decide), if_pos (by decide +kernel), output, output, output,
    List.nil_append, kept, if_neg (by decide), List.nil_append, hb, selected_of_notMem (by decide),
    List.nil_append, List.append_nil]

end Grep

end Xv6
