import Xv6.Lib.Machine
import Mathlib.Data.Fintype.Basic
import Mathlib.Data.Nat.Notation
import Mathlib.Data.Int.Notation

/-!
# Pipes

`pipe.c` for one pipe and any number of processes. A step is what a process
does without giving up a lock and without a process in between that could
see the difference: it takes `p->lock`, copies one byte, makes one test, or
takes `ptable.lock` for a `wakeup` or a `sleep`. So `kill`, which takes
`ptable.lock` only, can come between any two steps of a process that holds
`p->lock`. A process in `sleep` takes `p->lock` again when it has been woken.

The page of the pipe is freed with its second end. The file table closes that
end when no descriptor is left for the pipe, and then no process is in
`pipe.c` with it.

The state also records what no variable of `pipe.c` does: the bytes that were
put in, each with the call of `pipewrite` that did, the bytes handed out, and
the calls of `pipewrite` with what they returned.
-/

namespace Xv6

open Function

/-- Bytes in a pipe. -/
def PIPESIZE : ℕ := 512

instance : NeZero PIPESIZE := ⟨by decide⟩

/-- `struct pipe`, but for the lock. -/
structure Pipe where
  data : Fin PIPESIZE → UInt8
  nread : UInt32
  nwrite : UInt32
  readopen : Bool
  writeopen : Bool

namespace Pipe

/-- What `pipealloc` sets up. -/
def fresh (data : Fin PIPESIZE → UInt8) : Pipe := ⟨data, 0, 0, true, true⟩

/-- `p->nread == p->nwrite`. -/
def isEmpty (x : Pipe) : Bool := x.nread == x.nwrite

/-- `p->nwrite == p->nread + PIPESIZE`. -/
def isFull (x : Pipe) : Bool := x.nwrite == x.nread + UInt32.ofNat PIPESIZE

/-- `p->data[p->nwrite++ % PIPESIZE] = b`. -/
def put (b : UInt8) (x : Pipe) : Pipe :=
  { x with
    data := update x.data (Fin.ofNat PIPESIZE x.nwrite.toNat) b
    nwrite := x.nwrite + 1 }

/-- `p->data[p->nread++ % PIPESIZE]`. -/
def next (x : Pipe) : UInt8 := x.data (Fin.ofNat PIPESIZE x.nread.toNat)

/-- `p->nread++`. -/
def skip (x : Pipe) : Pipe := { x with nread := x.nread + 1 }

end Pipe

/-- **Where a process is in `pipe.c`.** In `pipewrite` it has the number of
the call, the bytes at `addr` and `i`; in `piperead` it has `n` and `i`. -/
inductive PipePc
  | outside
  /-- At the test of the loops of `pipewrite`. -/
  | write (call : ℕ) (src : List UInt8) (i : ℕ)
  /-- At `wakeup(&p->nread)` before the sleep. -/
  | writeFull (call : ℕ) (src : List UInt8) (i : ℕ)
  /-- At `sleep(&p->nwrite, &p->lock)`. -/
  | writeSleep (call : ℕ) (src : List UInt8) (i : ℕ)
  /-- In `sleep`, and still asleep or not. -/
  | writeAsleep (call : ℕ) (src : List UInt8) (i : ℕ) (asleep : Bool)
  /-- At the last `wakeup(&p->nread)`. -/
  | writeDone (call : ℕ) (src : List UInt8)
  /-- At the test of the first loop of `piperead`. -/
  | read (n : ℕ)
  /-- At `sleep(&p->nread, &p->lock)`. -/
  | readSleep (n : ℕ)
  | readAsleep (n : ℕ) (asleep : Bool)
  /-- At the test of the second loop. -/
  | readCopy (n : ℕ) (i : ℕ)
  /-- At `wakeup(&p->nwrite)`. -/
  | readDone (i : ℕ)
  /-- In `pipeclose`, at the `wakeup`. -/
  | close (writable : Bool)
  deriving DecidableEq

namespace PipePc

/-- `SLEEPING` on `&p->nread`. -/
def sleepsOnRead : PipePc → Bool
  | readAsleep _ asleep => asleep
  | _ => false

/-- `SLEEPING` on `&p->nwrite`. -/
def sleepsOnWrite : PipePc → Bool
  | writeAsleep _ _ _ asleep => asleep
  | _ => false

/-- `p->state = RUNNABLE` for a process that sleeps. -/
def wake : PipePc → PipePc
  | writeAsleep call src i _ => writeAsleep call src i false
  | readAsleep n _ => readAsleep n false
  | pc => pc

/-- Holding `p->lock`. -/
def holds : PipePc → Bool
  | outside | writeAsleep _ _ _ _ | readAsleep _ _ => false
  | _ => true

end PipePc

/-- **The state of a pipe and its processes**, with the history of the calls: what was put in and
handed out so far, which no code reads. -/
structure PipeState (P : Type) where
  pipe : Pipe
  lock : Option P
  freed : Bool
  pc : P → PipePc
  killed : P → Bool
  /-- The sources of the calls of `pipewrite` so far. -/
  calls : List (List UInt8)
  /-- The calls that have returned, and what. -/
  results : List (ℕ × ℤ)
  /-- The bytes put in, with the call. -/
  deposited : List (ℕ × UInt8)
  /-- The bytes handed out. -/
  delivered : List UInt8

/-- Why a step does not happen: it is not the process's turn, or it has
nothing to do here. -/
inductive PipeHalt
  | disabled
  deriving DecidableEq

/-- The steps: a call of a function of `pipe.c`, the next step in it, and
`kill`. -/
inductive PipeEvent (P : Type)
  | pipewrite (p : P) (src : List UInt8)
  | piperead (p : P) (n : ℕ)
  | pipeclose (p : P) (writable : Bool)
  | run (p : P)
  | kill (p : P)

namespace PipeState

variable {P : Type} [DecidableEq P]

def setPc (p : P) (pc : PipePc) (s : PipeState P) : PipeState P :=
  { s with pc := update s.pc p pc }

/-- `release(&p->lock)` and return. -/
def leave (p : P) (s : PipeState P) : PipeState P := { s with lock := none }.setPc p .outside

/-- `wakeup(&p->nread)`. -/
def wakeupRead (s : PipeState P) : PipeState P :=
  { s with pc := fun q => if (s.pc q).sleepsOnRead then (s.pc q).wake else s.pc q }

/-- `wakeup(&p->nwrite)`. -/
def wakeupWrite (s : PipeState P) : PipeState P :=
  { s with pc := fun q => if (s.pc q).sleepsOnWrite then (s.pc q).wake else s.pc q }

/-- `kill`: the process will see it, and is woken if it sleeps. -/
def kill (p : P) (s : PipeState P) : PipeState P :=
  { s with killed := update s.killed p true }.setPc p (s.pc p).wake

/-- One step in `pipewrite` with `p->lock`, at the test of its loops. -/
def writeTest (p : P) (call : ℕ) (src : List UInt8) (i : ℕ) (s : PipeState P) : PipeState P :=
  if h : i < src.length then
    if s.pipe.isFull then
      if s.pipe.readopen = false ∨ s.killed p then
        { s with results := s.results ++ [(call, -1)] }.leave p
      else s.setPc p (.writeFull call src i)
    else
      { s with
        pipe := s.pipe.put (src.get ⟨i, h⟩)
        deposited := s.deposited ++ [(call, src.get ⟨i, h⟩)] }.setPc p (.write call src (i + 1))
  else s.setPc p (.writeDone call src)

/-- One step in `piperead`, at the test of its first loop. -/
def readTest (p : P) (n : ℕ) (s : PipeState P) : PipeState P :=
  if s.pipe.isEmpty ∧ s.pipe.writeopen then
    if s.killed p then s.leave p else s.setPc p (.readSleep n)
  else s.setPc p (.readCopy n 0)

/-- One turn of the second loop of `piperead`. -/
def readTurn (p : P) (n i : ℕ) (s : PipeState P) : PipeState P :=
  if i < n then
    if s.pipe.isEmpty then s.setPc p (.readDone i)
    else
      { s with
        pipe := s.pipe.skip
        delivered := s.delivered ++ [s.pipe.next] }.setPc p (.readCopy n (i + 1))
  else s.setPc p (.readDone i)

/-- The end of `pipeclose`, after its `wakeup`. -/
def closeEnd (p : P) (s : PipeState P) : PipeState P :=
  if s.pipe.readopen = false ∧ s.pipe.writeopen = false then { s with freed := true }.leave p
  else s.leave p

/-- **The next step of a process** in a function of `pipe.c`. -/
def run (p : P) (s : PipeState P) : Except PipeHalt (PipeState P) :=
  match s.pc p with
  | .outside => .error .disabled
  | .write call src i => .ok (s.writeTest p call src i)
  | .writeFull call src i => .ok (s.wakeupRead.setPc p (.writeSleep call src i))
  | .writeSleep call src i =>
    .ok ({ s with lock := none }.setPc p (.writeAsleep call src i true))
  | .writeAsleep call src i asleep =>
    if asleep = false ∧ s.lock = none then
      .ok ({ s with lock := some p }.setPc p (.write call src i))
    else .error .disabled
  | .writeDone call src =>
    .ok ({ s.wakeupRead with results := s.results ++ [(call, (src.length : ℤ))] }.leave p)
  | .read n => .ok (s.readTest p n)
  | .readSleep n => .ok ({ s with lock := none }.setPc p (.readAsleep n true))
  | .readAsleep n asleep =>
    if asleep = false ∧ s.lock = none then .ok ({ s with lock := some p }.setPc p (.read n))
    else .error .disabled
  | .readCopy n i => .ok (s.readTurn p n i)
  | .readDone _ => .ok (s.wakeupWrite.leave p)
  | .close writable =>
    .ok (if writable then s.wakeupRead.closeEnd p else s.wakeupWrite.closeEnd p)

/-- A process that can take `p->lock`. -/
def Enters (s : PipeState P) (p : P) : Prop := s.pc p = .outside ∧ s.lock = none ∧ s.freed = false

instance (s : PipeState P) (p : P) : Decidable (s.Enters p) := inferInstanceAs (Decidable (_ ∧ _ ∧ _))

variable [Fintype P]

/-- **One step.** The end that frees the page is closed when no process is in
`pipe.c`. -/
def step (s : PipeState P) : PipeEvent P → Except PipeHalt (Unit × PipeState P)
  | .pipewrite p src =>
    if s.Enters p then
      .ok ((), { s with lock := some p, calls := s.calls ++ [src] }.setPc p
        (.write s.calls.length src 0))
    else .error .disabled
  | .piperead p n =>
    if s.Enters p then .ok ((), { s with lock := some p }.setPc p (.read n))
    else .error .disabled
  | .pipeclose p true =>
    if s.Enters p ∧ (s.pipe.readopen ∨ ∀ q, s.pc q = .outside) then
      .ok ((), { s with lock := some p, pipe := { s.pipe with writeopen := false } }.setPc p
        (.close true))
    else .error .disabled
  | .pipeclose p false =>
    if s.Enters p ∧ (s.pipe.writeopen ∨ ∀ q, s.pc q = .outside) then
      .ok ((), { s with lock := some p, pipe := { s.pipe with readopen := false } }.setPc p
        (.close false))
    else .error .disabled
  | .run p => (s.run p).map (fun s => ((), s))
  | .kill p => .ok ((), s.kill p)

/-- **A run.** -/
def exec (s : PipeState P) (es : List (PipeEvent P)) : Except PipeHalt (PipeState P) :=
  Machine.exec step s es

/-- A pipe from `pipealloc`. -/
def start (data : Fin PIPESIZE → UInt8) (killed : P → Bool) : PipeState P where
  pipe := .fresh data
  lock := none
  freed := false
  pc := fun _ => .outside
  killed := killed
  calls := []
  results := []
  deposited := []
  delivered := []

/-! ## The ways a step goes through -/

omit [Fintype P] in
/-- **What a process does with its next step.** -/
inductive Runs (s : PipeState P) (p : P) : PipeState P → Prop
  | put {call : ℕ} {src : List UInt8} {i : ℕ} (hp : s.pc p = .write call src i)
      (hi : i < src.length) (hfull : s.pipe.isFull = false) :
    Runs s p ({ s with
      pipe := s.pipe.put (src.get ⟨i, hi⟩)
      deposited := s.deposited ++ [(call, src.get ⟨i, hi⟩)] }.setPc p (.write call src (i + 1)))
  | giveUp {call : ℕ} {src : List UInt8} {i : ℕ} (hp : s.pc p = .write call src i)
      (hi : i < src.length) (hfull : s.pipe.isFull = true)
      (hwhy : s.pipe.readopen = false ∨ s.killed p = true) :
    Runs s p ({ s with results := s.results ++ [(call, -1)] }.leave p)
  | full {call : ℕ} {src : List UInt8} {i : ℕ} (hp : s.pc p = .write call src i)
      (hi : i < src.length) (hfull : s.pipe.isFull = true) (hopen : s.pipe.readopen = true) :
    Runs s p (s.setPc p (.writeFull call src i))
  | written {call : ℕ} {src : List UInt8} {i : ℕ} (hp : s.pc p = .write call src i)
      (hi : src.length ≤ i) : Runs s p (s.setPc p (.writeDone call src))
  | wakeFull {call : ℕ} {src : List UInt8} {i : ℕ} (hp : s.pc p = .writeFull call src i) :
    Runs s p (s.wakeupRead.setPc p (.writeSleep call src i))
  | sleepFull {call : ℕ} {src : List UInt8} {i : ℕ} (hp : s.pc p = .writeSleep call src i) :
    Runs s p ({ s with lock := none }.setPc p (.writeAsleep call src i true))
  | resumeWrite {call : ℕ} {src : List UInt8} {i : ℕ}
      (hp : s.pc p = .writeAsleep call src i false) (hlock : s.lock = none) :
    Runs s p ({ s with lock := some p }.setPc p (.write call src i))
  | finish {call : ℕ} {src : List UInt8} (hp : s.pc p = .writeDone call src) :
    Runs s p ({ s.wakeupRead with results := s.results ++ [(call, (src.length : ℤ))] }.leave p)
  | readKilled {n : ℕ} (hp : s.pc p = .read n) : Runs s p (s.leave p)
  | readWait {n : ℕ} (hp : s.pc p = .read n) (hempty : s.pipe.isEmpty = true)
      (hopen : s.pipe.writeopen = true) : Runs s p (s.setPc p (.readSleep n))
  | readReady {n : ℕ} (hp : s.pc p = .read n) : Runs s p (s.setPc p (.readCopy n 0))
  | sleepEmpty {n : ℕ} (hp : s.pc p = .readSleep n) :
    Runs s p ({ s with lock := none }.setPc p (.readAsleep n true))
  | resumeRead {n : ℕ} (hp : s.pc p = .readAsleep n false) (hlock : s.lock = none) :
    Runs s p ({ s with lock := some p }.setPc p (.read n))
  | take {n i : ℕ} (hp : s.pc p = .readCopy n i) (hempty : s.pipe.isEmpty = false) :
    Runs s p ({ s with
      pipe := s.pipe.skip
      delivered := s.delivered ++ [s.pipe.next] }.setPc p (.readCopy n (i + 1)))
  | readEnd {n i : ℕ} (hp : s.pc p = .readCopy n i) : Runs s p (s.setPc p (.readDone i))
  | readLeave {i : ℕ} (hp : s.pc p = .readDone i) : Runs s p (s.wakeupWrite.leave p)
  | closeWrite (hp : s.pc p = .close true) : Runs s p (s.wakeupRead.closeEnd p)
  | closeRead (hp : s.pc p = .close false) : Runs s p (s.wakeupWrite.closeEnd p)

omit [Fintype P] in
theorem runs_of_run {s s' : PipeState P} {p : P} (h : s.run p = .ok s') : Runs s p s' := by
  unfold run at h
  split at h
  · cases h
  · next call src i hp =>
    cases h
    unfold writeTest
    split
    · next hi =>
      split
      · next hfull =>
        split
        · next hwhy => exact .giveUp hp hi hfull hwhy
        · next hgo =>
          refine .full hp hi hfull ?_
          exact Bool.eq_true_of_not_eq_false (fun hr => hgo (.inl hr))
      · next hfull => exact .put hp hi (Bool.eq_false_of_not_eq_true hfull)
    · next hi => exact .written hp (Nat.le_of_not_lt hi)
  · next hp =>
    cases h
    exact .wakeFull hp
  · next hp =>
    cases h
    exact .sleepFull hp
  · next hp =>
    obtain ⟨hwake, h⟩ := Machine.ok_of_ite h
    cases h
    rw [hwake.1] at hp
    exact .resumeWrite hp hwake.2
  · next hp =>
    cases h
    exact .finish hp
  · next n hp =>
    cases h
    unfold readTest
    split
    · next hempty =>
      split
      · exact .readKilled hp
      · exact .readWait hp hempty.1 hempty.2
    · exact .readReady hp
  · next hp =>
    cases h
    exact .sleepEmpty hp
  · next hp =>
    obtain ⟨hwake, h⟩ := Machine.ok_of_ite h
    cases h
    rw [hwake.1] at hp
    exact .resumeRead hp hwake.2
  · next n i hp =>
    cases h
    unfold readTurn
    split
    · split
      · exact .readEnd hp
      · next hempty => exact .take hp (Bool.eq_false_of_not_eq_true hempty)
    · exact .readEnd hp
  · next hp =>
    cases h
    exact .readLeave hp
  · next writable hp =>
    cases h
    cases writable with
    | true => exact .closeWrite hp
    | false => exact .closeRead hp

/-- **The ways a step goes through.** -/
inductive Moves (s : PipeState P) : PipeEvent P → PipeState P → Prop
  | write {p : P} {src : List UInt8} (hp : s.Enters p) :
    Moves s (.pipewrite p src) ({ s with lock := some p, calls := s.calls ++ [src] }.setPc p
      (.write s.calls.length src 0))
  | read {p : P} {n : ℕ} (hp : s.Enters p) :
    Moves s (.piperead p n) ({ s with lock := some p }.setPc p (.read n))
  | closeWrite {p : P} (hp : s.Enters p) :
    Moves s (.pipeclose p true)
      ({ s with lock := some p, pipe := { s.pipe with writeopen := false } }.setPc p (.close true))
  | closeRead {p : P} (hp : s.Enters p) :
    Moves s (.pipeclose p false)
      ({ s with lock := some p, pipe := { s.pipe with readopen := false } }.setPc p (.close false))
  | run {p : P} {s' : PipeState P} (hrun : Runs s p s') : Moves s (.run p) s'
  | kill {p : P} : Moves s (.kill p) (s.kill p)

theorem moves_of_step {s s' : PipeState P} {e : PipeEvent P} {o : Unit}
    (h : s.step e = .ok (o, s')) : Moves s e s' := by
  unfold step at h
  split at h
  · obtain ⟨hp, h⟩ := Machine.ok_of_ite h
    cases h
    exact .write hp
  · obtain ⟨hp, h⟩ := Machine.ok_of_ite h
    cases h
    exact .read hp
  · obtain ⟨hp, h⟩ := Machine.ok_of_ite h
    cases h
    exact .closeWrite hp.1
  · obtain ⟨hp, h⟩ := Machine.ok_of_ite h
    cases h
    exact .closeRead hp.1
  · next p =>
    cases hrun : s.run p with
    | error x =>
      rw [hrun] at h
      cases h
    | ok t =>
      rw [hrun] at h
      cases h
      exact .run (runs_of_run hrun)
  · cases h
    exact .kill

end PipeState

end Xv6
