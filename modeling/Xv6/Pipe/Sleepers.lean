import Xv6.Pipe.Stream

/-!
# Who sleeps on a pipe

A process sleeps in `piperead` while the pipe is empty and open for writing,
and in `pipewrite` while it is full and open for reading. A process with
`p->lock` can change that, and then owes the sleepers a `wakeup` before it
lets the lock go: `PipePc.owesRead` and `PipePc.owesWrite` say where in
`pipe.c` it does. All paths pay but one: `pipewrite` that finds the pipe full,
and the process killed or the other end closed, returns `-1` with the bytes it
has put in, and has not woken up the readers for them.
-/

namespace Xv6

open Function

namespace PipePc

/-- Between a change that ends the wait of readers and `wakeup(&p->nread)`. -/
def owesRead : PipePc → Bool
  | write _ _ _ | writeFull _ _ _ | writeDone _ _ | close true => true
  | _ => false

/-- Between a change that ends the wait of writers and `wakeup(&p->nwrite)`. -/
def owesWrite : PipePc → Bool
  | readCopy _ _ | readDone _ | close false => true
  | _ => false

/-- On the way to sleep in `pipewrite`. -/
def foundFull : PipePc → Bool
  | writeFull _ _ _ | writeSleep _ _ _ => true
  | _ => false

/-- On the way to sleep in `piperead`. -/
def foundEmpty : PipePc → Bool
  | readSleep _ => true
  | _ => false

@[simp, grind =] theorem holds_wake (pc : PipePc) : pc.wake.holds = pc.holds := by
  cases pc <;> rfl

@[simp, grind =] theorem sleepsOnRead_wake (pc : PipePc) : pc.wake.sleepsOnRead = false := by
  cases pc <;> rfl

@[simp, grind =] theorem sleepsOnWrite_wake (pc : PipePc) : pc.wake.sleepsOnWrite = false := by
  cases pc <;> rfl

theorem wake_of_holds {pc : PipePc} (h : pc.holds = true) : pc.wake = pc := by
  cases pc <;> first | rfl | cases h

end PipePc

namespace PipeState

variable {P : Type}

/-- Readers sleep on an empty pipe that can still be written to. -/
def ReadersWait (s : PipeState P) : Prop :=
  ∀ q, (s.pc q).sleepsOnRead = true → s.pipe.isEmpty = true ∧ s.pipe.writeopen = true

/-- Writers sleep on a full pipe that can still be read from. -/
def WritersWait (s : PipeState P) : Prop :=
  ∀ q, (s.pc q).sleepsOnWrite = true → s.pipe.isFull = true ∧ s.pipe.readopen = true

/-- **What holds while a process at `pc` has the lock.** -/
structure Tidy (s : PipeState P) (pc : PipePc) : Prop where
  read : pc.owesRead = false → s.ReadersWait
  write : pc.owesWrite = false → s.WritersWait
  full : pc.foundFull = true → s.pipe.isFull = true ∧ s.pipe.readopen = true
  empty : pc.foundEmpty = true → s.pipe.isEmpty = true ∧ s.pipe.writeopen = true

/-- **The lock and the sleepers.** -/
structure Orderly (s : PipeState P) : Prop where
  locked : ∀ p, (s.pc p).holds = true ↔ s.lock = some p
  held : ∀ p, s.lock = some p → s.Tidy (s.pc p)
  free : s.lock = none → s.ReadersWait ∧ s.WritersWait

variable {s s' : PipeState P}

theorem ReadersWait.mono (h : s.ReadersWait) (hempty : s'.pipe.isEmpty = s.pipe.isEmpty)
    (hopen : s'.pipe.writeopen = s.pipe.writeopen)
    (hpc : ∀ q, (s'.pc q).sleepsOnRead = true → (s.pc q).sleepsOnRead = true) : s'.ReadersWait := by
  intro q hq
  rw [hempty, hopen]
  exact h q (hpc q hq)

theorem WritersWait.mono (h : s.WritersWait) (hfull : s'.pipe.isFull = s.pipe.isFull)
    (hopen : s'.pipe.readopen = s.pipe.readopen)
    (hpc : ∀ q, (s'.pc q).sleepsOnWrite = true → (s.pc q).sleepsOnWrite = true) :
    s'.WritersWait := by
  intro q hq
  rw [hfull, hopen]
  exact h q (hpc q hq)

theorem holds_wakeupRead (s : PipeState P) (q : P) :
    (s.wakeupRead.pc q).holds = (s.pc q).holds := by
  grind [wakeupRead]

theorem holds_wakeupWrite (s : PipeState P) (q : P) :
    (s.wakeupWrite.pc q).holds = (s.pc q).holds := by
  grind [wakeupWrite]

/-- Nobody sleeps on `&p->nread` after `wakeup(&p->nread)`. -/
theorem readersWait_wakeupRead (s : PipeState P) : s.wakeupRead.ReadersWait := by
  intro q hq
  grind [wakeupRead]

theorem writersWait_wakeupWrite (s : PipeState P) : s.wakeupWrite.WritersWait := by
  intro q hq
  grind [wakeupWrite]

theorem WritersWait.wakeupRead (h : s.WritersWait) : s.wakeupRead.WritersWait :=
  h.mono rfl rfl (fun q hq => by grind [PipeState.wakeupRead])

theorem ReadersWait.wakeupWrite (h : s.ReadersWait) : s.wakeupWrite.ReadersWait :=
  h.mono rfl rfl (fun q hq => by grind [PipeState.wakeupWrite])

variable [DecidableEq P]

/-! ## A step of the process with the lock -/

section

variable {p : P} {pcs : P → PipePc} {pc : PipePc}

/-- A process moves to a place where it does not sleep. -/
theorem ReadersWait.move (h : s.ReadersWait) (hpc : s'.pc = update s.pc p pc)
    (hempty : s'.pipe.isEmpty = s.pipe.isEmpty) (hopen : s'.pipe.writeopen = s.pipe.writeopen)
    (hawake : pc.sleepsOnRead = false) : s'.ReadersWait := by
  refine h.mono hempty hopen (fun q hq => ?_)
  rw [hpc] at hq
  grind [update_apply]

theorem WritersWait.move (h : s.WritersWait) (hpc : s'.pc = update s.pc p pc)
    (hfull : s'.pipe.isFull = s.pipe.isFull) (hopen : s'.pipe.readopen = s.pipe.readopen)
    (hawake : pc.sleepsOnWrite = false) : s'.WritersWait := by
  refine h.mono hfull hopen (fun q hq => ?_)
  rw [hpc] at hq
  grind [update_apply]

/-- The process goes on with the lock. -/
theorem Orderly.keep (h : s.Orderly) (hlock : s.lock = some p ∨ s.lock = none)
    (hpcs : ∀ q, (pcs q).holds = (s.pc q).holds) (hpc : s'.pc = update pcs p pc)
    (hlock' : s'.lock = some p) (hholds : pc.holds = true) (htidy : s'.Tidy pc) : s'.Orderly := by
  have hlocked := h.locked
  have hpc := congrFun hpc
  refine ⟨fun q => ?_, fun q hq => ?_, fun hnone => ?_⟩ <;> grind [update_apply]

/-- The process lets the lock go. -/
theorem Orderly.release (h : s.Orderly) (hlock : s.lock = some p)
    (hpcs : ∀ q, (pcs q).holds = (s.pc q).holds) (hpc : s'.pc = update pcs p pc)
    (hlock' : s'.lock = none) (hholds : pc.holds = false) (hread : s'.ReadersWait)
    (hwrite : s'.WritersWait) : s'.Orderly := by
  have hlocked := h.locked
  have hpc := congrFun hpc
  refine ⟨fun q => ?_, fun q hq => ?_, fun _ => ⟨hread, hwrite⟩⟩ <;> grind [update_apply]

end

variable {p : P}

/-- The next step of the process is the `return -1` of `pipewrite`. -/
def givesUp (s : PipeState P) (p : P) : Bool :=
  match s.pc p with
  | .write _ src i =>
    decide (i < src.length) && s.pipe.isFull && (!s.pipe.readopen || s.killed p)
  | _ => false

/-- **The step that loses a wakeup is excluded**: `pipewrite` does not give up on a full pipe while
a reader sleeps on it. -/
def StaysForReaders (s : PipeState P) : PipeEvent P → Prop
  | .run p => s.givesUp p = true → ∀ q, (s.pc q).sleepsOnRead = false
  | _ => True

instance [Fintype P] (s : PipeState P) : ∀ e, Decidable (s.StaysForReaders e)
  | .run p => inferInstanceAs (Decidable (s.givesUp p = true → ∀ q, (s.pc q).sleepsOnRead = false))
  | .pipewrite _ _ | .piperead _ _ | .pipeclose _ _ | .kill _ => .isTrue trivial

theorem Orderly.runs (h : s.Orderly) (hcare : s.StaysForReaders (.run p)) (hrun : Runs s p s') :
    s'.Orderly := by
  -- but for a process that has been woken up, the one that runs has the lock
  have hhold : ∀ {pc}, s.pc p = pc → pc.holds = true → s.lock = some p ∧ s.Tidy pc := by
    rintro _ rfl hp
    exact ⟨(h.locked p).mp hp, h.held p ((h.locked p).mp hp)⟩
  cases hrun with
  | put hp hi hfull =>
    obtain ⟨hlock, htidy⟩ := hhold hp rfl
    refine h.keep (.inl hlock) (fun _ => rfl) rfl hlock rfl ⟨nofun, fun _ q hq => ?_, nofun, nofun⟩
    -- no writer sleeps, for the pipe was not full
    have hwas := htidy.write rfl q
    change (update s.pc p _ q).sleepsOnWrite = true at hq
    grind [update_apply, PipePc.sleepsOnWrite]
  | giveUp hp hi hfull hwhy =>
    obtain ⟨hlock, htidy⟩ := hhold hp rfl
    refine h.release hlock (fun _ => rfl) rfl rfl rfl (fun q hq => ?_)
      ((htidy.write rfl).move rfl rfl rfl rfl)
    have hgives : s.givesUp p = true := by
      rcases hwhy with hwhy | hwhy <;> simp [givesUp, hp, hi, hfull, hwhy]
    have hawake := hcare hgives q
    change (update s.pc p _ q).sleepsOnRead = true at hq
    grind [update_apply, PipePc.sleepsOnRead]
  | full hp hi hfull hopen =>
    obtain ⟨hlock, htidy⟩ := hhold hp rfl
    exact h.keep (.inl hlock) (fun _ => rfl) rfl hlock rfl
      ⟨nofun, fun _ => (htidy.write rfl).move rfl rfl rfl rfl, fun _ => ⟨hfull, hopen⟩, nofun⟩
  | written hp hi =>
    obtain ⟨hlock, htidy⟩ := hhold hp rfl
    exact h.keep (.inl hlock) (fun _ => rfl) rfl hlock rfl
      ⟨nofun, fun _ => (htidy.write rfl).move rfl rfl rfl rfl, nofun, nofun⟩
  | wakeFull hp =>
    obtain ⟨hlock, htidy⟩ := hhold hp rfl
    exact h.keep (.inl hlock) (holds_wakeupRead s) rfl hlock rfl
      ⟨fun _ => (readersWait_wakeupRead s).move rfl rfl rfl rfl,
        fun _ => (htidy.write rfl).wakeupRead.move rfl rfl rfl rfl, fun _ => htidy.full rfl, nofun⟩
  | sleepFull hp =>
    obtain ⟨hlock, htidy⟩ := hhold hp rfl
    refine h.release hlock (fun _ => rfl) rfl rfl rfl ((htidy.read rfl).move rfl rfl rfl rfl)
      (fun q hq => ?_)
    have hfull := htidy.full rfl
    have hwas := htidy.write rfl q
    change (update s.pc p _ q).sleepsOnWrite = true at hq
    show s.pipe.isFull = true ∧ s.pipe.readopen = true
    grind [update_apply]
  | resumeWrite hp hlock =>
    exact h.keep (.inr hlock) (fun _ => rfl) rfl rfl rfl
      ⟨nofun, fun _ => (h.free hlock).2.move rfl rfl rfl rfl, nofun, nofun⟩
  | finish hp =>
    obtain ⟨hlock, htidy⟩ := hhold hp rfl
    exact h.release hlock (holds_wakeupRead s) rfl rfl rfl
      ((readersWait_wakeupRead s).move rfl rfl rfl rfl)
      ((htidy.write rfl).wakeupRead.move rfl rfl rfl rfl)
  | readKilled hp =>
    obtain ⟨hlock, htidy⟩ := hhold hp rfl
    exact h.release hlock (fun _ => rfl) rfl rfl rfl ((htidy.read rfl).move rfl rfl rfl rfl)
      ((htidy.write rfl).move rfl rfl rfl rfl)
  | readWait hp hempty hopen =>
    obtain ⟨hlock, htidy⟩ := hhold hp rfl
    exact h.keep (.inl hlock) (fun _ => rfl) rfl hlock rfl
      ⟨fun _ => (htidy.read rfl).move rfl rfl rfl rfl,
        fun _ => (htidy.write rfl).move rfl rfl rfl rfl, nofun, fun _ => ⟨hempty, hopen⟩⟩
  | readReady hp | readEnd hp =>
    obtain ⟨hlock, htidy⟩ := hhold hp rfl
    exact h.keep (.inl hlock) (fun _ => rfl) rfl hlock rfl
      ⟨fun _ => (htidy.read rfl).move rfl rfl rfl rfl, nofun, nofun, nofun⟩
  | sleepEmpty hp =>
    obtain ⟨hlock, htidy⟩ := hhold hp rfl
    refine h.release hlock (fun _ => rfl) rfl rfl rfl (fun q hq => ?_)
      ((htidy.write rfl).move rfl rfl rfl rfl)
    have hempty := htidy.empty rfl
    have hwas := htidy.read rfl q
    change (update s.pc p _ q).sleepsOnRead = true at hq
    show s.pipe.isEmpty = true ∧ s.pipe.writeopen = true
    grind [update_apply]
  | resumeRead hp hlock =>
    exact h.keep (.inr hlock) (fun _ => rfl) rfl rfl rfl
      ⟨fun _ => (h.free hlock).1.move rfl rfl rfl rfl,
        fun _ => (h.free hlock).2.move rfl rfl rfl rfl, nofun, nofun⟩
  | take hp hempty =>
    obtain ⟨hlock, htidy⟩ := hhold hp rfl
    refine h.keep (.inl hlock) (fun _ => rfl) rfl hlock rfl ⟨fun _ q hq => ?_, nofun, nofun, nofun⟩
    have hwas := htidy.read rfl q
    change (update s.pc p _ q).sleepsOnRead = true at hq
    grind [update_apply, PipePc.sleepsOnRead]
  | readLeave hp =>
    obtain ⟨hlock, htidy⟩ := hhold hp rfl
    exact h.release hlock (holds_wakeupWrite s) rfl rfl rfl
      ((htidy.read rfl).wakeupWrite.move rfl rfl rfl rfl)
      ((writersWait_wakeupWrite s).move rfl rfl rfl rfl)
  | closeWrite hp =>
    obtain ⟨hlock, htidy⟩ := hhold hp rfl
    exact h.release hlock (holds_wakeupRead s) (closeEnd_pc _ p) (closeEnd_lock _ p) rfl
      ((readersWait_wakeupRead s).move (closeEnd_pc _ p) (by rw [closeEnd_pipe])
        (by rw [closeEnd_pipe]) rfl)
      ((htidy.write rfl).wakeupRead.move (closeEnd_pc _ p) (by rw [closeEnd_pipe])
        (by rw [closeEnd_pipe]) rfl)
  | closeRead hp =>
    obtain ⟨hlock, htidy⟩ := hhold hp rfl
    exact h.release hlock (holds_wakeupWrite s) (closeEnd_pc _ p) (closeEnd_lock _ p) rfl
      ((htidy.read rfl).wakeupWrite.move (closeEnd_pc _ p) (by rw [closeEnd_pipe])
        (by rw [closeEnd_pipe]) rfl)
      ((writersWait_wakeupWrite s).move (closeEnd_pc _ p) (by rw [closeEnd_pipe])
        (by rw [closeEnd_pipe]) rfl)

/-- `kill` only wakes up. -/
theorem Orderly.kill (h : s.Orderly) (p : P) : (s.kill p).Orderly := by
  have hpc : ∀ q, (s.kill p).pc q = if q = p then (s.pc p).wake else s.pc q :=
    fun q => update_apply ..
  have hread : ∀ q, ((s.kill p).pc q).sleepsOnRead = true → (s.pc q).sleepsOnRead = true := by
    grind
  have hwrite : ∀ q, ((s.kill p).pc q).sleepsOnWrite = true → (s.pc q).sleepsOnWrite = true := by
    grind
  have hholds : ∀ q, ((s.kill p).pc q).holds = (s.pc q).holds := by grind
  have hkeeps : ∀ q, (s.pc q).holds = true → (s.kill p).pc q = s.pc q := by
    grind [PipePc.wake_of_holds]
  refine ⟨fun q => ?_, fun q hq => ?_, fun hnone => ?_⟩
  · rw [hholds]
    exact h.locked q
  · rw [hkeeps q ((h.locked q).mpr hq)]
    have htidy := h.held q hq
    exact ⟨fun ho => (htidy.read ho).mono rfl rfl hread,
      fun ho => (htidy.write ho).mono rfl rfl hwrite, htidy.full, htidy.empty⟩
  · obtain ⟨hr, hw⟩ := h.free hnone
    exact ⟨hr.mono rfl rfl hread, hw.mono rfl rfl hwrite⟩

theorem Orderly.moves {e : PipeEvent P} (h : s.Orderly) (hcare : s.StaysForReaders e) (hmove : Moves s e s') :
    s'.Orderly := by
  cases hmove with
  | run hrun => exact h.runs hcare hrun
  | kill => exact h.kill _
  | write hp | closeWrite hp =>
    exact h.keep (.inr hp.2.1) (fun _ => rfl) rfl rfl rfl
      ⟨nofun, fun _ => (h.free hp.2.1).2.move rfl rfl rfl rfl, nofun, nofun⟩
  | read hp =>
    exact h.keep (.inr hp.2.1) (fun _ => rfl) rfl rfl rfl
      ⟨fun _ => (h.free hp.2.1).1.move rfl rfl rfl rfl,
        fun _ => (h.free hp.2.1).2.move rfl rfl rfl rfl, nofun, nofun⟩
  | closeRead hp =>
    exact h.keep (.inr hp.2.1) (fun _ => rfl) rfl rfl rfl
      ⟨fun _ => (h.free hp.2.1).1.move rfl rfl rfl rfl, nofun, nofun, nofun⟩

omit [DecidableEq P] in
theorem orderly_start (data : Fin PIPESIZE → UInt8) (killed : P → Bool) :
    (start data killed).Orderly where
  locked _ := iff_of_false Bool.false_ne_true (fun heq => nomatch heq)
  held _ h := nomatch h
  free _ := ⟨fun _ h => (nomatch h), fun _ h => (nomatch h)⟩

/-! ## Every run -/

/-- **Nobody is left asleep on a pipe that could serve them**, in a run in
which `pipewrite` does not give up on a full pipe with a reader asleep:
whenever the lock is free, readers sleep only on an empty pipe that is open
for writing, and writers only on a full one that is open for reading. -/
theorem wait_of_exec [Fintype P] (data : Fin PIPESIZE → UInt8) (killed : P → Bool)
    (es : List (PipeEvent P)) (s : PipeState P)
    (hcare : Machine.Along step StaysForReaders (start data killed) es)
    (h : (start data killed).exec es = .ok s) (hlock : s.lock = none) :
    s.ReadersWait ∧ s.WritersWait := by
  have hinv : s.Orderly :=
    Machine.exec_invariant_along (I := Orderly) (fun hs hc hstep => hs.moves hc (moves_of_step hstep))
      (orderly_start data killed) hcare h
  exact hinv.free hlock

/-- `false` sleeps on the pipe and is woken up by the write of `true`, takes
one byte, and sleeps again. -/
def patientReader : List (PipeEvent Bool) :=
  [.piperead false 1, .run false, .run false, .pipewrite true [7], .run true, .run true, .run true,
    .run false, .run false, .run false, .run false, .run false, .piperead false 1, .run false,
    .run false]

theorem wait_of_exec_patientReader :
    ∃ s, (start (fun _ => 0) (fun _ => false)).exec patientReader = .ok s ∧
      (s.pc false).sleepsOnRead = true ∧ s.pipe.isEmpty = true ∧ s.pipe.writeopen = true := by
  obtain ⟨s, hs, hlock, hsleep⟩ : ∃ s, (start (fun _ => 0) (fun _ => false)).exec patientReader = .ok s ∧
      s.lock = none ∧ (s.pc false).sleepsOnRead = true := by decide +kernel
  have hwait := wait_of_exec _ _ _ s (by decide +kernel) hs hlock
  exact ⟨s, hs, hsleep, hwait.1 false hsleep⟩

/-- `false` sleeps on the empty pipe; `true` fills it, with one more byte to
go, is killed, and gives up. -/
def killedWriter : List (PipeEvent Bool) :=
  [.piperead false 1, .run false, .run false, .pipewrite true (List.replicate (PIPESIZE + 1) 7)] ++
    List.replicate PIPESIZE (.run true) ++ [.kill true, .run true]

/-- **The reader sleeps on**, though the pipe is full: the writer has not woken it. -/
theorem readersWait_killedWriter :
    ∃ s, (start (fun _ => 0) (fun _ => false)).exec killedWriter = .ok s ∧ s.lock = none ∧
      ¬s.ReadersWait := by
  obtain ⟨s, hs, hlock, hsleep, hempty⟩ : ∃ s,
      (start (fun _ => 0) (fun _ => false)).exec killedWriter = .ok s ∧ s.lock = none ∧
        (s.pc false).sleepsOnRead = true ∧ s.pipe.isEmpty = false := by decide +kernel
  refine ⟨s, hs, hlock, fun hwait => ?_⟩
  exact absurd (hwait false hsleep).1 (Bool.eq_false_iff.mp hempty)

end PipeState

end Xv6
