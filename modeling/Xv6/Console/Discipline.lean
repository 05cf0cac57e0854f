import Xv6.Lib.Ring
import Xv6.Console.Console
import Mathlib.Tactic.NormNum

/-!
# The line discipline

What the console is for, without a ring (`Tty`): the characters typed make up
a line, which backspace and kill-line edit, until a newline, an end of file or
lack of room commits it; readers take what has been committed, in order, up to
a newline or an end of file. `Input.Matches` ties the three counters of
`console.c` to it, and `Input.Matches.step` shows that whatever the console
does is what the discipline does on the same events, however often the
counters wrap.
-/

namespace Xv6

open Function

/-- **A terminal**: what readers have taken, what is committed and waits for
them, and the line that is being typed. -/
structure Tty where
  taken : List UInt8
  waiting : List UInt8
  line : List UInt8

namespace Tty

/-- The line is handed to the readers. -/
def commit (t : Tty) : Tty := { t with waiting := t.waiting ++ t.line, line := [] }

/-- What is waiting and the line fill the buffer. -/
def isFull (t : Tty) : Bool := t.waiting.length + t.line.length == INPUT_BUF

/-- A character goes on the line; a newline, an end of file or lack of room
ends it. -/
def store (c : UInt8) (t : Tty) : Typed × Tty :=
  have t := { t with line := t.line ++ [c] }
  if c = '\n'.toUInt8 ∨ c = C 'D' ∨ t.isFull = true then
    (⟨[.char c], true, false⟩, t.commit)
  else
    (⟨[.char c], false, false⟩, t)

/-- The discipline of one keystroke. -/
def key (c : UInt8) (t : Tty) : Typed × Tty :=
  if c = C 'P' then
    (⟨[], false, true⟩, t)
  else if c = C 'U' then
    (⟨List.replicate t.line.length .BACKSPACE, false, false⟩, { t with line := [] })
  else if c = C 'H' ∨ c = 0x7f then
    (⟨List.replicate (min t.line.length 1) .BACKSPACE, false, false⟩,
      { t with line := t.line.dropLast })
  else if c ≠ 0 ∧ t.waiting.length + t.line.length < INPUT_BUF then
    t.store (if c = '\r'.toUInt8 then '\n'.toUInt8 else c)
  else
    (.nothing, t)

/-- A reader takes what is waiting, one character after the other, until it
has all it asked for or a newline; an end of file ends the read, and is taken
when it is the first thing the read meets. -/
def read (killed : Bool) (target : ℕ) : ℕ → Tty → Stretch × Tty
  | 0, t => (.returns [] target, t)
  | n + 1, t =>
    match t.waiting with
    | [] => if killed then (.returns [] (-1), t) else (.sleeps [] (n + 1), t)
    | c :: rest =>
      let t' := { t with taken := t.taken ++ [c], waiting := rest }
      if c = C 'D' then
        (.returns [] (target - (n + 1 : ℕ)), if n + 1 < target then t else t')
      else if c = '\n'.toUInt8 then
        (.returns [c] (target - n), t')
      else
        let (o, t) := read killed target n t'
        (o.copy c, t)

def ops : ConsoleOps Tty := ⟨key, read⟩

/-- Nothing typed yet. -/
def blank : Tty := ⟨[], [], []⟩

end Tty

namespace Input

/-- **The counters of the ring and the terminal.** -/
structure Tracks (x : Input) (t : Tty) : Prop where
  ring : Ring.Holds INPUT_BUF (2 ^ 32) x.buf x.r.toNat x.e.toNat
    (t.taken ++ t.waiting ++ t.line) t.taken
  w : x.w.toNat = (t.taken ++ t.waiting).length % 2 ^ 32

/-- **The ring between two keystrokes**: a newline is committed as soon as it
is typed. -/
structure Matches (x : Input) (t : Tty) : Prop extends x.Tracks t where
  open_line : '\n'.toUInt8 ∉ t.line

theorem INPUT_BUF_dvd : INPUT_BUF ∣ 2 ^ 32 := by decide

theorem INPUT_BUF_lt : INPUT_BUF < 2 ^ 32 := by decide

section

variable {x : Input} {t : Tty}

namespace Tracks

variable (h : x.Tracks t)

include h

/-- The part of the ring that is committed. -/
theorem ring_waiting :
    Ring.Holds INPUT_BUF (2 ^ 32) x.buf x.r.toNat x.w.toNat (t.taken ++ t.waiting) t.taken := by
  rw [h.w]
  refine h.ring.initial ?_
  rw [List.length_append]
  exact Nat.le_add_right _ _

/-- The part of the ring that can be edited. -/
theorem ring_line :
    Ring.Holds INPUT_BUF (2 ^ 32) x.buf x.w.toNat x.e.toNat (t.taken ++ t.waiting ++ t.line)
      (t.taken ++ t.waiting) := by
  rw [h.w]
  exact h.ring.later

theorem e_eq_w_iff : x.e = x.w ↔ t.line = [] := by
  rw [← UInt32.toNat_inj, eq_comm, h.ring_line.eq_iff_empty INPUT_BUF_lt, List.length_append,
    Nat.add_eq_left, List.length_eq_zero_iff]

theorem r_eq_w_iff : x.r = x.w ↔ t.waiting = [] := by
  rw [← UInt32.toNat_inj, h.ring_waiting.eq_iff_empty INPUT_BUF_lt, List.length_append,
    Nat.add_eq_left, List.length_eq_zero_iff]

/-- How far the indices are apart. -/
theorem sub_r : (x.e - x.r).toNat = t.waiting.length + t.line.length := by
  rw [UInt32.toNat_sub, Nat.add_comm, h.ring.sub_mod INPUT_BUF_lt]
  simp only [List.length_append]
  omega

theorem w_sub_r : (x.w - x.r).toNat = t.waiting.length := by
  rw [UInt32.toNat_sub, Nat.add_comm, h.ring_waiting.sub_mod INPUT_BUF_lt, List.length_append]
  omega

theorem e_sub_w : (x.e - x.w).toNat = t.line.length := by
  rw [UInt32.toNat_sub, Nat.add_comm, h.ring_line.sub_mod INPUT_BUF_lt, List.length_append]
  omega

theorem length_le : t.waiting.length + t.line.length ≤ INPUT_BUF := by
  have hroom := h.ring.room
  simp only [List.length_append] at hroom
  omega

theorem full_iff : x.e = x.r + UInt32.ofNat INPUT_BUF ↔ t.isFull = true := by
  have hfull := h.ring.eq_add_iff_full INPUT_BUF_lt
  unfold Tty.isFull
  rw [← UInt32.toNat_inj, UInt32.toNat_add, beq_iff_eq]
  refine Iff.trans hfull ?_
  simp only [List.length_append]
  omega

theorem room_iff :
    x.e - x.r < UInt32.ofNat INPUT_BUF ↔ t.waiting.length + t.line.length < INPUT_BUF := by
  rw [UInt32.lt_iff_toNat_lt, h.sub_r]
  rfl

/-- What the ring holds is what is waiting. -/
theorem pending_eq : x.pending = t.waiting := by
  unfold pending bytes cell
  rw [h.w_sub_r]
  refine Eq.trans ?_ (h.ring_waiting.map_range INPUT_BUF_dvd)
  refine List.map_congr_left fun k hk => ?_
  rw [UInt32.toNat_add, UInt32.toNat_ofNat']
  simp

theorem line_eq : x.line = t.line := by
  unfold Input.line bytes cell
  rw [h.e_sub_w]
  refine Eq.trans ?_ (h.ring_line.map_range INPUT_BUF_dvd)
  refine List.map_congr_left fun k hk => ?_
  rw [UInt32.toNat_add, UInt32.toNat_ofNat']
  simp

end Tracks

namespace Matches

/-! ## What the operations do -/

theorem start (buf : Fin INPUT_BUF → UInt8) : Matches ⟨buf, 0, 0, 0⟩ .blank where
  ring := Ring.Holds.start buf
  w := rfl
  open_line := List.not_mem_nil

variable {line : List UInt8} {c : UInt8}

section

variable (h : x.Matches t)

include h

/-- The index before `e`. -/
theorem e_sub_one (hline : t.line = line ++ [c]) :
    (x.e - 1).toNat = (t.taken ++ t.waiting ++ line).length % 2 ^ 32 := by
  have he := h.ring.w
  rw [hline] at he
  simp only [List.length_append, List.length_cons, List.length_nil] at he ⊢
  rw [UInt32.toNat_sub, he, UInt32.toNat_one]
  omega

/-- `input.e--`. -/
theorem erase (hline : t.line = line ++ [c]) :
    Matches { x with e := x.e - 1 } { t with line := line } where
  ring := by
    have hring := h.ring
    rw [hline, ← List.append_assoc] at hring
    show Ring.Holds _ _ x.buf x.r.toNat (x.e - 1).toNat _ _
    rw [h.e_sub_one hline]
    refine hring.unput ?_
    simp only [List.length_append]
    omega
  w := h.w
  open_line hmem := h.open_line (by rw [hline]; exact List.mem_append_left _ hmem)

/-- The last character of the line. -/
theorem cell_e (hline : t.line = line ++ [c]) :
    x.cell (x.e - 1) = c := by
  have hring := h.ring
  unfold cell
  rw [h.e_sub_one hline, Ring.Holds.cell_eq INPUT_BUF_dvd]
  rw [hline, ← List.append_assoc] at hring
  rw [hring.cells _ (by simp) (by simp only [List.length_append]; omega)]
  simp

/-- `input.buf[input.e++ % INPUT_BUF] = c`. -/
theorem put (hroom : t.waiting.length + t.line.length < INPUT_BUF) (c : UInt8) :
    Tracks { x with buf := update x.buf (Fin.ofNat INPUT_BUF x.e.toNat) c, e := x.e + 1 }
      { t with line := t.line ++ [c] } where
  ring := by
    have hput := h.ring.put INPUT_BUF_dvd (by simp only [List.length_append]; omega) c
    rw [List.append_assoc] at hput
    dsimp only
    rw [UInt32.toNat_add]
    exact hput
  w := h.w

/-- `input.buf[input.r++ % INPUT_BUF]`. -/
theorem cell_r {rest : List UInt8} (hwaiting : t.waiting = c :: rest) :
    x.cell x.r = c := by
  have hring := h.ring_waiting
  unfold cell
  rw [h.ring.r, Ring.Holds.cell_eq INPUT_BUF_dvd, hring.cells _ (by simp [hwaiting]) le_rfl]
  simp [hwaiting]

theorem take {rest : List UInt8} (hwaiting : t.waiting = c :: rest) :
    Matches { x with r := x.r + 1 } { t with taken := t.taken ++ [c], waiting := rest } where
  ring := by
    have hget := h.ring.get INPUT_BUF_dvd (by simp [hwaiting])
    rw [show x.buf (Fin.ofNat INPUT_BUF x.r.toNat) = c from h.cell_r hwaiting] at hget
    show Ring.Holds _ _ x.buf (x.r + 1).toNat x.e.toNat (t.taken ++ [c] ++ rest ++ t.line) _
    rw [UInt32.toNat_add, List.append_assoc t.taken, List.singleton_append, ← hwaiting]
    exact hget
  w := by
    show x.w.toNat = (t.taken ++ [c] ++ rest).length % 2 ^ 32
    rw [List.append_assoc, List.singleton_append, ← hwaiting]
    exact h.w
  open_line := h.open_line

/-- The kill-line loop stops at the end of the line, and not at a newline. -/
theorem killLine :
    x.killLine.1 = List.replicate t.line.length .BACKSPACE ∧
      x.killLine.2.Matches { t with line := [] } := by
  obtain ⟨taken, waiting, line⟩ := t
  induction line using List.reverseRecOn generalizing x with
  | nil =>
    have he : x.e = x.w := h.e_eq_w_iff.mpr rfl
    rw [Input.killLine, if_neg (fun hc => hc.1 he)]
    exact ⟨rfl, h⟩
  | append_singleton line c ih =>
    have hc : c ≠ '\n'.toUInt8 := by
      rintro rfl
      exact h.open_line (List.mem_append_right _ List.mem_cons_self)
    have hne : x.e ≠ x.w := fun heq => List.append_ne_nil_of_right_ne_nil line (List.cons_ne_nil c [])
      (h.e_eq_w_iff.mp heq)
    obtain ⟨hecho, hmatches⟩ := ih (h.erase rfl)
    rw [Input.killLine, if_pos ⟨hne, (h.cell_e rfl).trans_ne hc⟩]
    refine ⟨?_, hmatches⟩
    dsimp only at hecho ⊢
    rw [hecho, List.length_append]
    rfl

end

/-- `input.w = input.e`. -/
theorem commit (h : x.Tracks t) : Matches { x with w := x.e } t.commit where
  ring := by
    unfold Tty.commit
    dsimp only
    rw [List.append_nil, ← List.append_assoc]
    exact h.ring
  w := by
    unfold Tty.commit
    dsimp only
    rw [h.ring.w, List.append_assoc]
  open_line := List.not_mem_nil

theorem store (h : x.Matches t) (hroom : t.waiting.length + t.line.length < INPUT_BUF) (c : UInt8) :
    (x.store c).1 = (t.store c).1 ∧ (x.store c).2.Matches (t.store c).2 := by
  have hput := h.put hroom c
  unfold Input.store Tty.store
  dsimp only
  by_cases hends : c = '\n'.toUInt8 ∨ c = C 'D' ∨ Tty.isFull { t with line := t.line ++ [c] } = true
  · rw [if_pos hends, if_pos (hends.imp_right (Or.imp_right hput.full_iff.mpr))]
    exact ⟨rfl, commit hput⟩
  · rw [if_neg hends, if_neg fun hx => hends (hx.imp_right (Or.imp_right hput.full_iff.mp))]
    refine ⟨rfl, hput, fun hmem => ?_⟩
    obtain hmem | hmem := List.mem_append.mp hmem
    · exact h.open_line hmem
    · exact hends (.inl (List.mem_singleton.mp hmem).symm)

/-- **A keystroke.** -/
theorem key (h : x.Matches t) (c : UInt8) :
    (x.key c).1 = (t.key c).1 ∧ (x.key c).2.Matches (t.key c).2 := by
  unfold Input.key Tty.key
  split
  · exact ⟨rfl, h⟩
  split
  · obtain ⟨hecho, hmatches⟩ := h.killLine
    exact ⟨congrArg (fun echo => (⟨echo, false, false⟩ : Typed)) hecho, hmatches⟩
  split
  · obtain hline | ⟨line, a, hline⟩ := List.eq_nil_or_concat t.line
    · rw [if_neg (fun hne => hne (h.e_eq_w_iff.mpr hline)), hline]
      refine ⟨rfl, ?_⟩
      rw [List.dropLast_nil, ← hline]
      exact h
    · rw [List.concat_eq_append] at hline
      have hne : x.e ≠ x.w := fun heq => List.append_ne_nil_of_right_ne_nil line
        (List.cons_ne_nil a []) (hline ▸ h.e_eq_w_iff.mp heq)
      have hone : min (line ++ [a]).length 1 = 1 := by
        rw [List.length_append]
        exact min_eq_right (Nat.le_add_left _ _)
      rw [if_pos hne, hline, List.dropLast_concat, hone]
      exact ⟨rfl, h.erase hline⟩
  by_cases hroom : c ≠ 0 ∧ t.waiting.length + t.line.length < INPUT_BUF
  · rw [if_pos hroom, if_pos (hroom.imp_right h.room_iff.mpr)]
    exact h.store hroom.2 _
  · rw [if_neg hroom, if_neg fun hx => hroom (hx.imp_right h.room_iff.mp)]
    exact ⟨rfl, h⟩

/-- **A stretch of a read.** -/
theorem read (h : x.Matches t) (killed : Bool) (target n : ℕ) :
    (x.read killed target n).1 = (t.read killed target n).1 ∧
      (x.read killed target n).2.Matches (t.read killed target n).2 := by
  induction n generalizing x t with
  | zero => exact ⟨rfl, h⟩
  | succ n ih =>
    unfold Input.read Tty.read
    cases hwaiting : t.waiting with
    | nil =>
      rw [if_pos (h.r_eq_w_iff.mpr hwaiting)]
      dsimp only
      split <;> exact ⟨rfl, h⟩
    | cons c rest =>
      have hne : x.r ≠ x.w := fun heq => List.cons_ne_nil c rest (hwaiting ▸ h.r_eq_w_iff.mp heq)
      have htake := h.take hwaiting
      rw [if_neg hne, h.cell_r hwaiting]
      dsimp only
      split
      · refine ⟨rfl, ?_⟩
        split
        · rw [UInt32.add_sub_cancel]
          exact h
        · exact htake
      split
      · exact ⟨rfl, htake⟩
      · obtain ⟨hout, hmatches⟩ := ih htake
        exact ⟨by rw [hout], hmatches⟩

end Matches

end

end Input

/-! ## The terminal's own laws -/

namespace Tty

/-- Keystrokes take nothing back that is committed. -/
theorem key_keeps (c : UInt8) (t : Tty) :
    (t.key c).2.taken = t.taken ∧ t.waiting <+: (t.key c).2.waiting := by
  unfold key store commit
  dsimp only
  split_ifs <;> exact ⟨rfl, by simp⟩

/-- Readers take what is waiting in order, and copy all of it but ends of file. -/
theorem read_takes (killed : Bool) (target n : ℕ) (t : Tty) :
    ∃ some, (t.read killed target n).2.taken = t.taken ++ some ∧
      t.waiting = some ++ (t.read killed target n).2.waiting ∧
      some.filter (· ≠ C 'D') = (t.read killed target n).1.copied := by
  induction n generalizing t with
  | zero => exact ⟨[], (List.append_nil _).symm, rfl, rfl⟩
  | succ n ih =>
    unfold read
    cases hwaiting : t.waiting with
    | nil =>
      refine ⟨[], ?_⟩
      dsimp only
      split <;> exact ⟨(List.append_nil _).symm, hwaiting.symm, rfl⟩
    | cons c rest =>
      dsimp only
      split
      · next hc =>
        split
        · exact ⟨[], (List.append_nil _).symm, hwaiting.symm, rfl⟩
        · exact ⟨[c], rfl, rfl, by rw [hc]; rfl⟩
      · next hc =>
        split
        · exact ⟨[c], rfl, rfl, List.filter_cons_of_pos (decide_eq_true hc)⟩
        · obtain ⟨some, htaken, hrest, hcopied⟩ := ih { t with taken := t.taken ++ [c], waiting := rest }
          refine ⟨c :: some, ?_, ?_, ?_⟩
          · rw [htaken, List.append_assoc]
            rfl
          · rw [List.cons_append, ← hrest]
          · rw [List.filter_cons_of_pos (by simpa using hc), hcopied]
            exact (Stretch.copied_copy c _).symm

/-- **An end of file ends the read that meets it**, and is taken by a read that
meets it before anything else. -/
theorem read_eof (killed : Bool) {target n : ℕ} {t : Tty} {text rest : List UInt8}
    (hwaiting : t.waiting = text ++ C 'D' :: rest)
    (htext : ∀ c ∈ text, c ≠ C 'D' ∧ c ≠ '\n'.toUInt8) (hn : text.length < n) (htarget : n ≤ target) :
    (t.read killed target n).1 = .returns text (target - n + text.length) ∧
      (t.read killed target n).2.waiting =
        if n = target ∧ text = [] then rest else C 'D' :: rest := by
  induction text generalizing t n with
  | nil =>
    obtain _ | n := n
    · cases hn
    · unfold read
      rw [List.nil_append] at hwaiting
      rw [hwaiting]
      dsimp only
      rw [if_pos rfl]
      refine ⟨by simp, ?_⟩
      dsimp only
      split
      · next hlt => rw [if_neg (fun heq => hlt.ne heq.1), hwaiting]
      · next hlt => rw [if_pos ⟨by omega, rfl⟩]
  | cons c text ih =>
    obtain _ | n := n
    · cases hn
    · obtain ⟨heof, hnl⟩ := htext c List.mem_cons_self
      unfold read
      rw [List.cons_append] at hwaiting
      rw [hwaiting]
      dsimp only
      rw [if_neg heof, if_neg hnl]
      obtain ⟨hout, hafter⟩ := ih (t := { t with taken := t.taken ++ [c], waiting := text ++ C 'D' :: rest })
        rfl (fun b hb => htext b (List.mem_cons_of_mem c hb)) (Nat.lt_of_succ_lt_succ hn) (by omega)
      refine ⟨?_, ?_⟩
      · rw [hout]
        show Stretch.returns _ _ = Stretch.returns _ _
        rw [List.length_cons]
        push_cast
        congr 1
        omega
      · dsimp only
        rw [hafter, if_neg (by omega), if_neg (by simp)]

/-- A sleeping reader does not want more than before. -/
theorem le_of_read_sleeps {killed : Bool} {target n m : ℕ} {t : Tty} {copied : List UInt8}
    (h : (t.read killed target n).1 = .sleeps copied m) : m ≤ n := by
  fun_induction Tty.read killed target n t generalizing copied m
  case case6 o _ _ _ => cases o <;> grind [Stretch.copy]
  all_goals grind

end Tty

/-! ## Every run -/

theorem ReadPc.asleep_of_wake {pc : ReadPc} {target n : ℕ} {b : Bool}
    (h : pc.wake = .asleep target n b) : ∃ b', pc = .asleep target n b' := by
  cases pc <;> grind [ReadPc.wake]

namespace Console

variable {P : Type}

/-- The console and a terminal with the same readers. -/
structure Follows (s : Console Input P) (t : Console Tty P) : Prop where
  input : s.input.Matches t.input
  pc : s.pc = t.pc
  killed : s.killed = t.killed
  target : ∀ p target n b, t.pc p = .asleep target n b → n ≤ target

theorem consoleintr_matches {x : Input} {t : Tty} (h : x.Matches t) (keys : List UInt8) :
    (consoleintr Input.ops keys x).1 = (consoleintr Tty.ops keys t).1 ∧
      (consoleintr Input.ops keys x).2.Matches (consoleintr Tty.ops keys t).2 := by
  induction keys generalizing x t with
  | nil => exact ⟨rfl, h⟩
  | cons c keys ih =>
    obtain ⟨hout, hmatches⟩ := h.key c
    obtain ⟨hout', hmatches'⟩ := ih hmatches
    exact ⟨congrArg₂ Typed.append hout hout', hmatches'⟩

theorem consoleintr_keeps (t : Tty) (keys : List UInt8) :
    (consoleintr Tty.ops keys t).2.taken = t.taken ∧
      t.waiting <+: (consoleintr Tty.ops keys t).2.waiting := by
  induction keys generalizing t with
  | nil => exact ⟨rfl, List.prefix_rfl⟩
  | cons c keys ih =>
    obtain ⟨htaken, hwaiting⟩ := t.key_keeps c
    obtain ⟨htaken', hwaiting'⟩ := ih (t.key c).2
    exact ⟨htaken'.trans htaken, hwaiting.trans hwaiting'⟩

/-- The bytes that a step copies to a reader's buffer. -/
def copied : ConsoleOut → List UInt8
  | .read o => o.copied
  | _ => []

variable [DecidableEq P]

/-- Steps of the console, with what they show. -/
inductive Moves {B : Type} (ops : ConsoleOps B) (s : Console B P) :
    ConsoleEvent P → ConsoleOut → Console B P → Prop
  | consoleintr (keys : List UInt8) :
      Moves ops s (.consoleintr keys) (.typed (consoleintr ops keys s.input).1)
        { s with
          input := (consoleintr ops keys s.input).2
          pc := if (consoleintr ops keys s.input).1.wakeup then fun p => (s.pc p).wake else s.pc }
  | kill (p : P) :
      Moves ops s (.kill p) .nothing
        { s with
          pc := update s.pc p (s.pc p).wake
          killed := update s.killed p true }
  | read (e : ConsoleEvent P) (p : P) (target n : ℕ) (hreader : s.reader e = some (p, target, n)) :
      Moves ops s e (.read (ops.read (s.killed p) target n s.input).1)
        { s with
          input := (ops.read (s.killed p) target n s.input).2
          pc := update s.pc p (.after target (ops.read (s.killed p) target n s.input).1) }

variable {e : ConsoleEvent P} {o : ConsoleOut}

theorem step_eq_ok_iff {B : Type} {ops : ConsoleOps B} {s s' : Console B P} :
    step ops s e = .ok (o, s') ↔ Moves ops s e o s' := by
  constructor
  · intro h
    unfold step at h
    split at h
    · cases h
      exact .consoleintr _
    · cases h
      exact .kill _
    · split at h
      · next hreader =>
        cases h
        exact .read _ _ _ _ hreader
      · cases h
  · intro h
    cases h with
    | consoleintr keys => rfl
    | kill p => rfl
    | read _ p target n hreader =>
      cases e with
      | consoleintr | kill => cases hreader
      | consoleread | run =>
        unfold step
        dsimp only
        rw [hreader]

theorem reader_congr {B B' : Type} {s : Console B P} {t : Console B' P} (h : s.pc = t.pc)
    (e : ConsoleEvent P) : s.reader e = t.reader e := by
  cases e <;> simp only [reader, h]

variable {s : Console Input P} {t : Console Tty P}

/-- A reader never wants more than it asked for. -/
theorem Follows.le_target (h : s.Follows t) {p : P} {target n : ℕ}
    (hreader : t.reader e = some (p, target, n)) :
    n ≤ target := by
  have htarget := h.target
  cases e <;> grind [reader]

variable {s' : Console Input P}

/-- **Every step of the console is one of the terminal.** -/
theorem Follows.moves (h : s.Follows t) (hmoves : Moves Input.ops s e o s') :
    ∃ t', Moves Tty.ops t e o t' ∧ s'.Follows t' := by
  cases hmoves with
  | consoleintr keys =>
    obtain ⟨hout, hmatches⟩ := consoleintr_matches h.input keys
    rw [hout, h.pc]
    refine ⟨_, .consoleintr keys, hmatches, rfl, h.killed, fun p target n b hpc => ?_⟩
    have htarget := h.target p target n
    dsimp only at hpc
    split at hpc <;> grind [ReadPc.asleep_of_wake]
  | kill p =>
    refine ⟨_, .kill p, h.input, by rw [h.pc], by rw [h.killed], fun q target n b hpc => ?_⟩
    have htarget := h.target q target n
    grind [update_apply, ReadPc.asleep_of_wake]
  | read _ p target n hreader =>
    rw [reader_congr h.pc] at hreader
    obtain ⟨hout, hmatches⟩ := h.input.read (s.killed p) target n
    rw [show Input.ops.read = Input.read from rfl, hout, h.pc]
    rw [h.killed] at hmatches ⊢
    refine ⟨_, .read _ p target n hreader, hmatches, rfl, rfl, fun q target' m b hpc => ?_⟩
    dsimp only at hpc
    by_cases hq : q = p
    · rw [hq, update_self] at hpc
      cases hstretch : (t.input.read (t.killed p) target n).1 with
      | returns _ _ =>
        rw [show Tty.ops.read = Tty.read from rfl, hstretch] at hpc
        cases hpc
      | sleeps _ k =>
        rw [show Tty.ops.read = Tty.read from rfl, hstretch] at hpc
        cases hpc
        exact (Tty.le_of_read_sleeps hstretch).trans (h.le_target hreader)
    · rw [update_of_ne hq] at hpc
      exact h.target q target' m b hpc

theorem Follows.step (h : s.Follows t) (hstep : step Input.ops s e = .ok (o, s')) :
    ∃ t', Console.step Tty.ops t e = .ok (o, t') ∧ s'.Follows t' := by
  obtain ⟨t', hmoves, hfollows⟩ := h.moves (step_eq_ok_iff.mp hstep)
  exact ⟨t', step_eq_ok_iff.mpr hmoves, hfollows⟩

omit [DecidableEq P] in
theorem follows_start (buf : Fin INPUT_BUF → UInt8) (killed : P → Bool) :
    (start ⟨buf, 0, 0, 0⟩ killed).Follows (start .blank killed) :=
  ⟨.start buf, rfl, rfl, nofun⟩

/-- **Every run of the console is one of a terminal.** -/
theorem exists_terminal {buf : Fin INPUT_BUF → UInt8} {killed : P → Bool}
    {l : List (Machine.Step (Console Input P) (ConsoleEvent P) ConsoleOut)}
    (h : Machine.Run (Console.step Input.ops) (start ⟨buf, 0, 0, 0⟩ killed) l s) :
    ∃ l' t, Machine.Run (Console.step Tty.ops) (start .blank killed) l' t ∧ s.Follows t ∧
      l'.map Machine.Step.shown = l.map Machine.Step.shown :=
  h.simulate (follows_start buf killed) Follows.step

/-- What a step of a terminal does with what is waiting. -/
theorem Moves.waiting {t' : Console Tty P} (h : Moves Tty.ops t e o t') :
    ∃ some, t'.input.taken = t.input.taken ++ some ∧ some.filter (· ≠ C 'D') = copied o ∧
      t.input.waiting <+: some ++ t'.input.waiting ∧
      ((∀ keys, e ≠ .consoleintr keys) → t.input.waiting = some ++ t'.input.waiting) := by
  cases h with
  | consoleintr keys =>
    obtain ⟨htaken, hwaiting⟩ := consoleintr_keeps t.input keys
    exact ⟨[], by rw [htaken, List.append_nil], rfl, hwaiting, fun hne => absurd rfl (hne keys)⟩
  | kill p => exact ⟨[], (List.append_nil _).symm, rfl, List.prefix_rfl, fun _ => rfl⟩
  | read _ p target n hreader =>
    obtain ⟨some, htaken, hwaiting, hcopied⟩ := t.input.read_takes (t.killed p) target n
    refine ⟨some, htaken, hcopied, ?_, fun _ => hwaiting⟩
    rw [hwaiting]
    exact List.prefix_rfl

/-- **What readers have copied is what they have taken**, ends of file apart. -/
theorem copied_of_run {killed : P → Bool}
    {l : List (Machine.Step (Console Tty P) (ConsoleEvent P) ConsoleOut)}
    (h : Machine.Run (Console.step Tty.ops) (start .blank killed) l t) :
    (l.map fun x => copied x.out).flatten = t.input.taken.filter (· ≠ C 'D') := by
  induction h with
  | start => rfl
  | @next l t u e o hrun hstep ih =>
    obtain ⟨some, htaken, hcopied, -, -⟩ := (step_eq_ok_iff.mp hstep).waiting
    rw [List.map_append, List.flatten_append, ih, htaken, List.filter_append, hcopied]
    simp

/-- Keystrokes leave what is committed, and put what they commit after it;
readers take it from the front. -/
def Keeps (x : Machine.Step (Console Input P) (ConsoleEvent P) ConsoleOut) : Prop :=
  match x.event with
  | .consoleintr _ => x.before.input.pending <+: x.after.input.pending
  | _ => ∃ some, x.before.input.pending = some ++ x.after.input.pending ∧
      some.filter (· ≠ C 'D') = copied x.out

/-- A read that meets an end of file returns there; it takes it when it has
copied nothing, and leaves it for the next read otherwise. -/
def EndsAtEof (x : Machine.Step (Console Input P) (ConsoleEvent P) ConsoleOut) : Prop :=
  ∀ p target n text rest, x.before.reader x.event = some (p, target, n) →
    x.before.input.pending = text ++ C 'D' :: rest →
    (∀ c ∈ text, c ≠ C 'D' ∧ c ≠ '\n'.toUInt8) → text.length < n →
    x.out = .read (.returns text (target - n + text.length)) ∧
      x.after.input.pending = if n = target ∧ text = [] then rest else C 'D' :: rest

theorem Follows.keeps (h : s.Follows t) (hmoves : Moves Input.ops s e o s') :
    Keeps ⟨s, e, o, s'⟩ := by
  obtain ⟨t', hmoves', h'⟩ := h.moves hmoves
  obtain ⟨some, -, hcopied, hkeys, hread⟩ := hmoves'.waiting
  unfold Keeps
  dsimp only
  rw [h.input.pending_eq, h'.input.pending_eq]
  cases e with
  | consoleintr keys =>
    cases hmoves' with
    | consoleintr => exact (consoleintr_keeps t.input keys).2
    | read _ p target n hreader => cases hreader
  | _ => exact ⟨some, hread nofun, hcopied⟩

theorem Follows.endsAtEof (h : s.Follows t) (hmoves : Moves Input.ops s e o s') :
    EndsAtEof ⟨s, e, o, s'⟩ := by
  intro p target n text rest hreader hpending htext hn
  dsimp only at hreader hpending ⊢
  obtain ⟨t', hmoves', h'⟩ := h.moves hmoves
  rw [reader_congr h.pc] at hreader
  rw [h.input.pending_eq] at hpending
  rw [h'.input.pending_eq]
  cases hmoves' with
  | consoleintr keys => cases hreader
  | kill p => cases hreader
  | read _ q target' m hreader' =>
    cases hreader.symm.trans hreader'
    obtain ⟨hout, hwaiting⟩ := Tty.read_eof (t.killed p) hpending htext hn (h.le_target hreader)
    exact ⟨congrArg ConsoleOut.read hout, hwaiting⟩

/-- **The console keeps the line discipline**, whatever is typed and read and
however long it runs. The indices stay in order and within `INPUT_BUF` of each
other; what is committed stays until a reader takes it; ends of file end
reads; and the console does what a terminal does on the same events, so that
readers have copied, in order, what the discipline has committed and they have
taken. -/
theorem discipline_of_run (buf : Fin INPUT_BUF → UInt8) (killed : P → Bool)
    (l : List (Machine.Step (Console Input P) (ConsoleEvent P) ConsoleOut)) (s : Console Input P)
    (h : Machine.Run (Console.step Input.ops) (start ⟨buf, 0, 0, 0⟩ killed) l s) :
    s.input.w - s.input.r ≤ s.input.e - s.input.r ∧
      s.input.e - s.input.r ≤ UInt32.ofNat INPUT_BUF ∧
      (∀ x ∈ l, Keeps x ∧ EndsAtEof x) ∧
      ∃ l' t, Machine.Run (Console.step Tty.ops) (start .blank killed) l' t ∧
        l'.map Machine.Step.shown = l.map Machine.Step.shown ∧
        s.input.pending = t.input.waiting ∧ s.input.line = t.input.line ∧
        (l.map fun x => copied x.out).flatten = t.input.taken.filter (· ≠ C 'D') := by
  obtain ⟨l', t, hrun', hfollows, hshown⟩ := exists_terminal h
  have hinput := hfollows.input
  refine ⟨?_, ?_, fun x hx => ?_, l', t, hrun', hshown, hinput.pending_eq, hinput.line_eq, ?_⟩
  · rw [UInt32.le_iff_toNat_le, hinput.w_sub_r, hinput.sub_r]
    exact Nat.le_add_right _ _
  · rw [UInt32.le_iff_toNat_le, hinput.sub_r]
    exact hinput.length_le
  · obtain ⟨l₁, l₂, rfl⟩ := List.append_of_mem hx
    obtain ⟨hbefore, hstep⟩ := h.split
    obtain ⟨-, t₁, -, hfollows₁, -⟩ := exists_terminal hbefore
    have hmoves := step_eq_ok_iff.mp hstep
    exact ⟨hfollows₁.keeps hmoves, hfollows₁.endsAtEof hmoves⟩
  · have hcopied : (l.map fun x => copied x.out) = l'.map fun x => copied x.out := by
      have hmap := congrArg (List.map fun y => copied y.2) hshown
      rw [List.map_map, List.map_map] at hmap
      exact hmap.symm
    rw [hcopied]
    exact copied_of_run hrun'

/-- A reader goes to sleep, a line is typed with a mistake in it and ended by
an end of file, and the reader copies it; the next read has nothing. -/
def typing : List (ConsoleEvent Unit) :=
  [.consoleread () 8, .consoleintr ['l'.toUInt8, 'a'.toUInt8, C 'H', 's'.toUInt8], .consoleintr [C 'D'],
    .run (), .consoleread () 8]

theorem discipline_of_typing :
    ∃ l s, Machine.Run (Console.step Input.ops) (start ⟨fun _ => 0, 0, 0, 0⟩ fun _ => false) l s ∧
      l.map Machine.Step.event = typing ∧ s.input.e - s.input.r ≤ UInt32.ofNat INPUT_BUF ∧
      ∀ x ∈ l, Keeps x ∧ EndsAtEof x := by
  obtain ⟨s, hs, -⟩ : ∃ s, Machine.exec (Console.step Input.ops)
      (start ⟨fun _ => 0, 0, 0, 0⟩ fun _ => false) typing = .ok s ∧ True := by decide +kernel
  obtain ⟨l, hl, htyping⟩ := Machine.exists_run_of_exec hs
  have hall := discipline_of_run _ _ l s hl
  exact ⟨l, s, hl, htyping, hall.2.1, hall.2.2.1⟩

end Console

end Xv6
