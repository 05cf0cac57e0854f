import Xv6.Lib.Ring
import Xv6.Pipe.Pipe
import Mathlib.Tactic.NormNum

/-!
# A pipe is a stream

The counters `nread` and `nwrite` of a pipe are the counters of a ring of
`PIPESIZE` cells that wraps modulo `2^32`, so the tests of `pipe.c` on them are
tests for the empty and the full ring however long the run is
(`PipeState.Streaming`). `PipeState.Calls` follows the calls of `pipewrite`: a
process in one has put in the first `i` bytes of its source, across all its
sleeps, and no other process is in the same call.
-/

namespace Xv6

open Function

namespace PipePc

/-- The call of `pipewrite` a process is in, with its source and the number of
bytes it has put in. -/
def writing : PipePc → Option (ℕ × List UInt8 × ℕ)
  | write call src i | writeFull call src i | writeSleep call src i | writeAsleep call src i _ =>
    some (call, src, i)
  | writeDone call src => some (call, src, src.length)
  | _ => none

@[simp, grind =] theorem writing_wake (pc : PipePc) : pc.wake.writing = pc.writing := by
  cases pc <;> rfl

end PipePc

namespace PipeState

variable {P : Type}

/-- All bytes put in. -/
def sent (s : PipeState P) : List UInt8 := s.deposited.map Prod.snd

/-- The bytes put in by one call. -/
def sentBy (s : PipeState P) (call : ℕ) : List UInt8 :=
  (s.deposited.filter (fun e => e.1 = call)).map Prod.snd

/-! ## The ring -/

/-- **The pipe holds what was put in and not handed out.** -/
def Streaming (s : PipeState P) : Prop :=
  Ring.Holds PIPESIZE (2 ^ 32) s.pipe.data s.pipe.nread.toNat s.pipe.nwrite.toNat s.sent s.delivered

theorem PIPESIZE_dvd : PIPESIZE ∣ 2 ^ 32 := by decide

theorem PIPESIZE_lt : PIPESIZE < 2 ^ 32 := by decide

variable {s : PipeState P}

theorem Streaming.isFull_iff (h : s.Streaming) :
    s.pipe.isFull = true ↔ s.sent.length = s.delivered.length + PIPESIZE := by
  rw [← h.eq_add_iff_full PIPESIZE_lt]
  unfold Pipe.isFull
  rw [beq_iff_eq, ← UInt32.toNat_inj, UInt32.toNat_add]
  rfl

theorem Streaming.isEmpty_iff (h : s.Streaming) :
    s.pipe.isEmpty = true ↔ s.sent.length = s.delivered.length := by
  rw [← h.eq_iff_empty PIPESIZE_lt]
  unfold Pipe.isEmpty
  rw [beq_iff_eq, ← UInt32.toNat_inj]

/-- The counters of the pipe are as far apart as the two streams. -/
theorem Streaming.outstanding (h : s.Streaming) :
    (s.pipe.nwrite - s.pipe.nread).toNat = s.sent.length - s.delivered.length := by
  rw [UInt32.toNat_sub, Nat.add_comm]
  exact h.sub_mod PIPESIZE_lt

variable {s' : PipeState P}

theorem Streaming.congr (h : s.Streaming) (hdata : s'.pipe.data = s.pipe.data)
    (hread : s'.pipe.nread = s.pipe.nread) (hwrite : s'.pipe.nwrite = s.pipe.nwrite)
    (hdep : s'.deposited = s.deposited) (hdel : s'.delivered = s.delivered) : s'.Streaming := by
  unfold Streaming sent
  rw [hdata, hread, hwrite, hdep, hdel]
  exact h

variable [DecidableEq P]

@[simp] theorem closeEnd_pipe (s : PipeState P) (p : P) : (s.closeEnd p).pipe = s.pipe := by
  unfold closeEnd
  split <;> rfl

@[simp] theorem closeEnd_deposited (s : PipeState P) (p : P) :
    (s.closeEnd p).deposited = s.deposited := by
  unfold closeEnd
  split <;> rfl

@[simp] theorem closeEnd_delivered (s : PipeState P) (p : P) :
    (s.closeEnd p).delivered = s.delivered := by
  unfold closeEnd
  split <;> rfl

@[simp] theorem closeEnd_calls (s : PipeState P) (p : P) : (s.closeEnd p).calls = s.calls := by
  unfold closeEnd
  split <;> rfl

@[simp] theorem closeEnd_results (s : PipeState P) (p : P) :
    (s.closeEnd p).results = s.results := by
  unfold closeEnd
  split <;> rfl

@[simp] theorem closeEnd_lock (s : PipeState P) (p : P) : (s.closeEnd p).lock = none := by
  unfold closeEnd
  split <;> rfl

@[simp] theorem closeEnd_pc (s : PipeState P) (p : P) :
    (s.closeEnd p).pc = update s.pc p .outside := by
  unfold closeEnd
  split <;> rfl

variable {p : P}

theorem Streaming.runs (h : s.Streaming) (hrun : Runs s p s') :
    s'.Streaming := by
  cases hrun with
  | @put call src i hp hi hfull =>
    have hroom : s.sent.length ≠ s.delivered.length + PIPESIZE := fun heq =>
      Bool.false_ne_true (hfull.symm.trans (h.isFull_iff.mpr heq))
    have hput := h.put PIPESIZE_dvd hroom (src.get ⟨i, hi⟩)
    unfold Streaming sent at *
    simp only [setPc, Pipe.put, List.map_append, List.map_cons, List.map_nil, UInt32.toNat_add]
    exact hput
  | take hp hempty =>
    have hsome : s.sent.length ≠ s.delivered.length := fun heq =>
      Bool.false_ne_true (hempty.symm.trans (h.isEmpty_iff.mpr heq))
    have hget := h.get PIPESIZE_dvd hsome
    unfold Streaming sent at *
    simp only [setPc, Pipe.skip, Pipe.next, UInt32.toNat_add]
    exact hget
  | closeWrite hp => exact h.congr (by simp; rfl) (by simp; rfl) (by simp; rfl) (by simp; rfl) (by simp; rfl)
  | closeRead hp => exact h.congr (by simp; rfl) (by simp; rfl) (by simp; rfl) (by simp; rfl) (by simp; rfl)
  | _ => exact h.congr rfl rfl rfl rfl rfl

theorem Streaming.moves {e : PipeEvent P} (h : s.Streaming) (hmove : Moves s e s') :
    s'.Streaming := by
  cases hmove with
  | run hrun => exact h.runs hrun
  | _ => exact h.congr rfl rfl rfl rfl rfl

omit [DecidableEq P] in
theorem streaming_start (data : Fin PIPESIZE → UInt8) (killed : P → Bool) :
    (start data killed).Streaming :=
  Ring.Holds.start data

/-! ## The calls -/

omit [DecidableEq P] in
/-- **The calls of `pipewrite`** and what they have put in: each its own source from the start on,
in order, and all of it once it has returned its length. -/
structure Calls (s : PipeState P) : Prop where
  /-- A process in a call has put in the first bytes of its source. -/
  progress : ∀ p call src i, (s.pc p).writing = some (call, src, i) →
    s.calls[call]? = some src ∧ i ≤ src.length ∧ s.sentBy call = src.take i
  /-- A call is of one process. -/
  own : ∀ p q call src i src' i', (s.pc p).writing = some (call, src, i) →
    (s.pc q).writing = some (call, src', i') → p = q
  /-- A call that a process is in has not returned. -/
  pending : ∀ p call src i, (s.pc p).writing = some (call, src, i) → ∀ r, (call, r) ∉ s.results
  returned : ∀ r ∈ s.results, r.1 < s.calls.length
  begun : ∀ e ∈ s.deposited, e.1 < s.calls.length
  order : ∀ call src, s.calls[call]? = some src → s.sentBy call <+: src
  whole : ∀ (call : ℕ) (src : List UInt8), s.calls[call]? = some src →
    (call, (src.length : ℤ)) ∈ s.results → s.sentBy call = src

omit [DecidableEq P] in
theorem Calls.congr (h : s.Calls) (hcalls : s'.calls = s.calls) (hresults : s'.results = s.results)
    (hdep : s'.deposited = s.deposited) (hpc : ∀ q, (s'.pc q).writing = (s.pc q).writing) :
    s'.Calls := by
  have hsent : ∀ call, s'.sentBy call = s.sentBy call := by
    intro call
    unfold sentBy
    rw [hdep]
  obtain ⟨hprogress, hown, hpending, hreturned, hbegun, horder, hwhole⟩ := h
  constructor <;> grind

theorem writing_update (s : PipeState P) (p : P) (pc : PipePc) (q : P)
    (h : pc.writing = (s.pc p).writing) :
    ((update s.pc p pc) q).writing = (s.pc q).writing := by
  grind [update_apply]

omit [DecidableEq P] in
@[simp] theorem writing_wakeupRead (s : PipeState P) (q : P) :
    (s.wakeupRead.pc q).writing = (s.pc q).writing := by
  grind [PipeState.wakeupRead]

omit [DecidableEq P] in
@[simp] theorem writing_wakeupWrite (s : PipeState P) (q : P) :
    (s.wakeupWrite.pc q).writing = (s.pc q).writing := by
  grind [PipeState.wakeupWrite]

omit [DecidableEq P] in
theorem Calls.wakeupRead (h : s.Calls) : s.wakeupRead.Calls :=
  h.congr rfl rfl rfl (writing_wakeupRead s)

omit [DecidableEq P] in
theorem Calls.wakeupWrite (h : s.Calls) : s.wakeupWrite.Calls :=
  h.congr rfl rfl rfl (writing_wakeupWrite s)

theorem Calls.closeEnd (h : s.Calls) (hp : (s.pc p).writing = none) :
    (s.closeEnd p).Calls := by
  refine h.congr (closeEnd_calls s p) (closeEnd_results s p) (closeEnd_deposited s p) (fun q => ?_)
  rw [closeEnd_pc]
  exact writing_update s p .outside q hp.symm

omit [DecidableEq P] in
theorem sentBy_concat (s s' : PipeState P) (call : ℕ) (b : UInt8)
    (h : s'.deposited = s.deposited ++ [(call, b)]) (k : ℕ) :
    s'.sentBy k = if k = call then s.sentBy k ++ [b] else s.sentBy k := by
  unfold sentBy
  rw [h, List.filter_append, List.map_append]
  grind

omit [DecidableEq P] in
theorem Calls.sentBy_new (h : s.Calls) : s.sentBy s.calls.length = [] := by
  unfold sentBy
  rw [List.map_eq_nil_iff, List.filter_eq_nil_iff]
  intro e he heq
  exact (h.begun e he).ne (of_decide_eq_true heq)

variable {call i : ℕ} {src : List UInt8}

omit [DecidableEq P] in
theorem Calls.lt (h : s.Calls) {q : P} (hq : (s.pc q).writing = some (call, src, i)) :
    call < s.calls.length :=
  (List.getElem?_eq_some_iff.mp (h.progress q call src i hq).1).1

/-- A call begins. -/
theorem Calls.begin (h : s.Calls) (hcalls : s'.calls = s.calls ++ [src])
    (hresults : s'.results = s.results) (hdep : s'.deposited = s.deposited)
    (hpc : s'.pc = update s.pc p (.write s.calls.length src 0)) : s'.Calls := by
  have hsent : ∀ call, s'.sentBy call = s.sentBy call := by
    intro call
    unfold sentBy
    rw [hdep]
  have hpc : ∀ q, (s'.pc q).writing
      = if q = p then some (s.calls.length, src, 0) else (s.pc q).writing := by
    intro q
    rw [hpc, update_apply]
    split <;> rfl
  have hnew := h.sentBy_new
  have hlt : ∀ {q call src i}, (s.pc q).writing = some (call, src, i) → call < s.calls.length := h.lt
  have hreturned := h.returned
  refine ⟨fun q k src' j hq => ?_, fun q q' k src₁ j₁ src₂ j₂ hq hq' => ?_,
    fun q k src' j hq r => ?_, ?_, ?_, fun k src' hk => ?_, fun k src' hk => ?_⟩
  · have hprogress := h.progress q k src' j
    grind
  · -- a call that was there before has a smaller number
    have hown := h.own q q' k src₁ j₁ src₂ j₂
    grind
  · have hpending := h.pending q k src' j
    grind
  · grind
  · have hbegun := h.begun
    grind
  · have horder := h.order k src'
    grind
  · have hwhole := h.whole k src'
    grind

/-- A call puts in its next byte. -/
theorem Calls.put (h : s.Calls) (hp : s.pc p = .write call src i) (hi : i < src.length)
    (hcalls : s'.calls = s.calls) (hresults : s'.results = s.results)
    (hdep : s'.deposited = s.deposited ++ [(call, src.get ⟨i, hi⟩)])
    (hpc : s'.pc = update s.pc p (.write call src (i + 1))) : s'.Calls := by
  have hw : (s.pc p).writing = some (call, src, i) := by
    rw [hp]
    rfl
  obtain ⟨hcall, -, htake⟩ := h.progress p call src i hw
  have hpc : ∀ q, (s'.pc q).writing
      = if q = p then some (call, src, i + 1) else (s.pc q).writing := by
    intro q
    rw [hpc, update_apply]
    split <;> rfl
  have hsent : ∀ k, s'.sentBy k = if k = call then src.take (i + 1) else s.sentBy k := by
    intro k
    rw [sentBy_concat s s' call _ hdep]
    split
    · next hk =>
      rw [hk, htake]
      exact List.take_append_getElem hi
    · rfl
  have hlt := h.lt hw
  have hreturned := h.returned
  refine ⟨fun q k src' j hq => ?_, fun q q' k src₁ j₁ src₂ j₂ hq hq' => ?_,
    fun q k src' j hq r => ?_, ?_, ?_, fun k src' hk => ?_, fun k src' hk => ?_⟩
  · have hprogress := h.progress q k src' j
    have hown := h.own q p k src' j src i
    grind
  · -- the process is in the call it was in
    have hown := h.own q q' k
    grind
  · have hpending := h.pending q k
    grind
  · grind
  · have hbegun := h.begun
    grind
  · have horder := h.order k src'
    grind
  · have hwhole := h.whole k src'
    have hpending := h.pending p k src i
    grind

omit [DecidableEq P] in
/-- A call returns, and returns the length of its source only when it has put
in all of it. -/
theorem Calls.finish {r : ℤ} (h : s.Calls) (hw : (s.pc p).writing = some (call, src, i))
    (hr : r = src.length → i = src.length) (hcalls : s'.calls = s.calls)
    (hresults : s'.results = s.results ++ [(call, r)]) (hdep : s'.deposited = s.deposited)
    (hself : (s'.pc p).writing = none) (hother : ∀ q, q ≠ p → (s'.pc q).writing = (s.pc q).writing) :
    s'.Calls := by
  obtain ⟨hcall, -, htake⟩ := h.progress p call src i hw
  have hsent : ∀ call, s'.sentBy call = s.sentBy call := by
    intro call
    unfold sentBy
    rw [hdep]
  have hold : ∀ {q k src' j}, (s'.pc q).writing = some (k, src', j) →
      q ≠ p ∧ (s.pc q).writing = some (k, src', j) := by grind
  have hlt := h.lt hw
  have hreturned := h.returned
  refine ⟨fun q k src' j hq => ?_, fun q q' k src₁ j₁ src₂ j₂ hq hq' => ?_,
    fun q k src' j hq r => ?_, ?_, ?_, fun k src' hk => ?_, fun k src' hk => ?_⟩
  · have hprogress := h.progress q k src' j (hold hq).2
    grind
  · exact h.own q q' k _ _ _ _ (hold hq).2 (hold hq').2
  · have hpending := h.pending q k src' j (hold hq).2
    have hown := h.own q p k src' j src i (hold hq).2
    grind
  · grind
  · have hbegun := h.begun
    grind
  · have horder := h.order k src'
    grind
  · have hwhole := h.whole k src'
    grind

theorem Calls.runs (h : s.Calls) (hrun : Runs s p s') : s'.Calls := by
  cases hrun with
  | put hp hi _ => exact h.put hp hi rfl rfl rfl rfl
  | @giveUp call src i hp _ _ _ =>
    refine h.finish (p := p) (i := i) (by rw [hp]; rfl) (fun hr => ?_) rfl rfl rfl ?_ ?_
    · have hpos := Int.natCast_nonneg src.length
      omega
    · simp [leave, setPc]
      rfl
    · intro q hq
      simp [leave, setPc, hq]
  | finish hp =>
    refine h.finish (p := p) (by rw [hp]; rfl) (fun _ => rfl) rfl rfl rfl ?_ ?_
    · simp [leave, setPc]
      rfl
    · intro q hq
      simp [leave, setPc, hq]
  | @written call src i hp hi =>
    have hle := (h.progress p call src i (by rw [hp]; rfl)).2.1
    refine h.congr rfl rfl rfl (fun q => writing_update s p _ q ?_)
    rw [hp, Nat.le_antisymm hle hi]
    rfl
  | wakeFull hp =>
    refine h.wakeupRead.congr rfl rfl rfl (fun q => writing_update s.wakeupRead p _ q ?_)
    rw [writing_wakeupRead, hp]
    rfl
  | readLeave hp =>
    refine h.wakeupWrite.congr rfl rfl rfl (fun q => writing_update s.wakeupWrite p _ q ?_)
    rw [writing_wakeupWrite, hp]
    rfl
  | closeWrite hp =>
    refine h.wakeupRead.closeEnd ?_
    rw [writing_wakeupRead, hp]
    rfl
  | closeRead hp =>
    refine h.wakeupWrite.closeEnd ?_
    rw [writing_wakeupWrite, hp]
    rfl
  | full hp _ _ _ | sleepFull hp | resumeWrite hp _ | readKilled hp | readWait hp _ _ | readReady hp
  | sleepEmpty hp | resumeRead hp _ | take hp _ | readEnd hp =>
    refine h.congr rfl rfl rfl (fun q => writing_update s p _ q ?_)
    rw [hp]
    rfl

theorem Calls.moves {e : PipeEvent P} (h : s.Calls) (hmove : Moves s e s') :
    s'.Calls := by
  cases hmove with
  | run hrun => exact h.runs hrun
  | write hp => exact h.begin rfl rfl rfl rfl
  | kill => exact h.congr rfl rfl rfl (fun q => writing_update s _ _ q (PipePc.writing_wake _))
  | read hp | closeWrite hp | closeRead hp =>
    refine h.congr rfl rfl rfl (fun q => writing_update s _ _ q ?_)
    rw [hp.1]
    rfl

omit [DecidableEq P] in
theorem calls_start (data : Fin PIPESIZE → UInt8) (killed : P → Bool) :
    (start data killed).Calls where
  progress _ _ _ _ h := nomatch h
  own _ _ _ _ _ _ _ h := nomatch h
  pending _ _ _ _ h := nomatch h
  returned _ h := nomatch h
  begun _ h := nomatch h
  order _ _ h := nomatch h
  whole _ _ h := nomatch h

/-! ## Every run -/

/-- **A pipe is a FIFO stream of bytes.** After any run of any number of
processes, the counters are at most `PIPESIZE` apart, also when they have
wrapped; the bytes handed out are the first of those put in, and the others are
as many as the counters are apart; a call of `pipewrite` has put in the first
bytes of its source, in order, and all of them if it has returned `n`. -/
theorem stream_of_exec [Fintype P] (data : Fin PIPESIZE → UInt8) (killed : P → Bool)
    (es : List (PipeEvent P)) (s : PipeState P) (h : (start data killed).exec es = .ok s) :
    (s.pipe.nwrite - s.pipe.nread).toNat ≤ PIPESIZE ∧
    s.delivered <+: s.sent ∧
    s.sent.length = s.delivered.length + (s.pipe.nwrite - s.pipe.nread).toNat ∧
    (∀ call src, s.calls[call]? = some src → s.sentBy call <+: src) ∧
    ∀ (call : ℕ) (src : List UInt8), s.calls[call]? = some src →
      (call, (src.length : ℤ)) ∈ s.results → s.sentBy call = src := by
  have hinv : s.Streaming ∧ s.Calls := by
    refine Machine.exec_invariant (I := fun s => Streaming s ∧ Calls s) (fun hs hstep => ?_)
      ⟨streaming_start data killed, calls_start data killed⟩ h
    have hmove := moves_of_step hstep
    exact ⟨hs.1.moves hmove, hs.2.moves hmove⟩
  obtain ⟨hring, hcalls⟩ := hinv
  have hroom := Ring.Holds.room hring
  have hle := Ring.Holds.le hring
  rw [hring.outstanding]
  exact ⟨by omega, hring.order, by omega, hcalls.order, hcalls.whole⟩

/-- `false` sleeps on the empty pipe, `true` writes two bytes, and `false`
wakes up and takes one of them. -/
def twoBytes : List (PipeEvent Bool) :=
  [.piperead false 1, .run false, .run false, .pipewrite true [7, 8], .run true, .run true,
    .run true, .run true, .run false, .run false, .run false, .run false, .run false]

theorem exec_twoBytes :
    ∃ s, (start (fun _ => 0) (fun _ => false)).exec twoBytes = .ok s ∧
      s.calls[0]? = some [7, 8] ∧ (0, 2) ∈ s.results ∧ s.delivered = [7] := by
  decide +kernel

theorem stream_of_exec_twoBytes :
    ∃ s, (start (fun _ => 0) (fun _ => false)).exec twoBytes = .ok s ∧ s.delivered = [7] ∧
      s.sentBy 0 = [7, 8] ∧ s.sent.length = 1 + (s.pipe.nwrite - s.pipe.nread).toNat := by
  obtain ⟨s, hs, hcall, hresult, hdel⟩ := exec_twoBytes
  obtain ⟨-, -, hlen, -, hwhole⟩ := stream_of_exec _ _ _ s hs
  refine ⟨s, hs, hdel, hwhole 0 [7, 8] hcall hresult, ?_⟩
  rw [hlen, hdel]
  rfl

end PipeState

end Xv6
