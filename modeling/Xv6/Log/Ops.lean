import Xv6.Lib.Machine
import Xv6.Log.Commit
import Mathlib.Data.Fintype.Defs
import Mathlib.Data.Finset.Basic

/-!
# Operations on the log

`log.c` with its concurrency: any number of processes that call `begin_op`,
then `log_write` any number of times, then `end_op`. A step is one critical
section of `log.lock`, the part of `log_write` before it takes the lock, or
one turn of `commit`, which holds no lock. A process that `begin_op` puts to
sleep stays in its loop and takes the lock again later.

The state also keeps what no variable of `log.c` does: the blocks each
operation has logged, and for every commit the operations it was for and the
log as it found it. Nothing reads these.
-/

namespace Xv6

/-- Where a process is in `commit`. -/
inductive Stage
  | enter
  | writeLog (tail : ℕ)
  | writeHead
  | installTrans (tail : ℕ)
  | reset
  | erase
  | leave
  deriving DecidableEq

/-- Where a process is in `log.c`; between `begin_op` and `end_op`, with the
blocks its operation has logged. -/
inductive Pc
  | outside
  | waiting
  | inOp (blocks : Finset ℕ)
  | logging (blocks : Finset ℕ) (b : ℕ)
  | commit (stage : Stage)
  deriving DecidableEq

namespace Pc

/-- Between `begin_op` and `end_op`. -/
def isInOp : Pc → Bool
  | inOp _ | logging _ _ => true
  | _ => false

/-- In the part of `end_op` that commits. -/
def isCommit : Pc → Bool
  | commit _ => true
  | _ => false

/-- The blocks the operation has logged. -/
def blocks : Pc → Finset ℕ
  | inOp blocks | logging blocks _ => blocks
  | _ => ∅

theorem blocks_eq_empty {x : Pc} (h : x.isInOp = false) : x.blocks = ∅ := by
  cases x with
  | inOp | logging => exact Bool.noConfusion h
  | outside | waiting | commit => rfl

end Pc

/-- A commit that has installed its blocks: the operations that had ended
since the one before, and the log as the commit found it. -/
structure Committed where
  ops : List (Finset ℕ)
  log : Log

/-- **The state of `log.c`**: the log, `log.outstanding` and
`log.committing`, the processes, and the record of operations and
commits, with the log as the last commit found it. -/
structure LogState (P : Type) where
  log : Log
  outstanding : ℤ
  committing : Bool
  pc : P → Pc
  ended : List (Finset ℕ)
  begun : Log
  commits : List Committed

/-- Why a step does not happen: it is another process's turn, `log.c`
panics, or a store goes past `log.lh.block`. -/
inductive LogHalt
  | disabled
  | tooBig
  | outsideTrans
  | committing
  | overrun
  deriving DecidableEq

/-- What a step did. -/
inductive LogDone
  | began
  | slept
  | tested
  | logged
  | ended
  | committing
  deriving DecidableEq

/-- The steps of a process: a critical section of `log.lock`, the start of `log_write`, or a turn of
`commit`. Those of different processes may come in any order. -/
inductive LogEvent (P : Type)
  | beginOp (p : P)
  | logTest (p : P) (b : ℕ) (data : Block)
  | logWrite (p : P)
  | endOp (p : P)
  | commit (p : P)

namespace LogState

variable {P : Type} [DecidableEq P]

def setPc (p : P) (pc : Pc) (s : LogState P) : LogState P :=
  { s with pc := Function.update s.pc p pc }

/-- One turn of the loop of `begin_op`. -/
def beginOp (p : P) (s : LogState P) : Except LogHalt (LogDone × LogState P) :=
  if s.pc p = .outside ∨ s.pc p = .waiting then
    if s.committing then
      .ok (.slept, s.setPc p .waiting)
    else if (LOGSIZE : ℤ) < s.log.lh.length + (s.outstanding + 1) * MAXOPBLOCKS then
      .ok (.slept, s.setPc p .waiting)
    else
      .ok (.began, { s with outstanding := s.outstanding + 1 }.setPc p (.inOp ∅))
  else .error .disabled

/-- `log_write` up to `acquire`, in a process that has just put `data` into
the buffer. -/
def logTest (a : LogArea) (p : P) (b : ℕ) (data : Block) (s : LogState P) :
    Except LogHalt (LogDone × LogState P) :=
  match s.pc p with
  | .inOp blocks =>
    let s := { s with log := s.log.setBuf b data }
    if s.log.tooBig a then .error .tooBig
    else if s.outstanding < 1 then .error .outsideTrans
    else .ok (.tested, s.setPc p (.logging blocks b))
  | _ => .error .disabled

/-- The critical section of `log_write`. -/
def logWrite (p : P) (s : LogState P) : Except LogHalt (LogDone × LogState P) :=
  match s.pc p with
  | .logging blocks b =>
    if b ∉ s.log.lh ∧ LOGSIZE ≤ s.log.lh.length then .error .overrun
    else .ok (.logged, { s with log := { s.log with lh := Log.absorb s.log.lh b } }.setPc p
      (.inOp (insert b blocks)))
  | _ => .error .disabled

/-- The first critical section of `end_op`. -/
def endOp (p : P) (s : LogState P) : Except LogHalt (LogDone × LogState P) :=
  match s.pc p with
  | .inOp blocks =>
    let s := { s with outstanding := s.outstanding - 1 }
    if s.committing then .error .committing
    else
      let s := { s with ended := s.ended ++ [blocks] }
      if s.outstanding = 0 then
        .ok (.committing,
          { s with committing := true, begun := s.log }.setPc p (.commit .enter))
      else .ok (.ended, s.setPc p .outside)
  | _ => .error .disabled

/-- One turn of `commit`, and the second critical section of `end_op`. -/
def commitStep (a : LogArea) (p : P) (s : LogState P) : Stage → LogState P
  | .enter =>
    if 0 < s.log.lh.length then s.setPc p (.commit (.writeLog 0))
    else s.setPc p (.commit .leave)
  | .writeLog tail =>
    if tail < s.log.lh.length then
      { s with log := s.log.writeLogStep a tail }.setPc p (.commit (.writeLog (tail + 1)))
    else s.setPc p (.commit .writeHead)
  | .writeHead => { s with log := s.log.writeHead a }.setPc p (.commit (.installTrans 0))
  | .installTrans tail =>
    if tail < s.log.lh.length then
      { s with log := s.log.installTransStep a tail }.setPc p (.commit (.installTrans (tail + 1)))
    else s.setPc p (.commit .reset)
  | .reset =>
    { s with
      log := { s.log with lh := [] }
      ended := []
      commits := s.commits ++ [Committed.mk s.ended s.begun] }.setPc p (.commit .erase)
  | .erase => { s with log := s.log.writeHead a }.setPc p (.commit .leave)
  | .leave => { s with committing := false }.setPc p .outside

/-- **One step.** -/
def step (a : LogArea) (s : LogState P) : LogEvent P → Except LogHalt (LogDone × LogState P)
  | .beginOp p => s.beginOp p
  | .logTest p b data => s.logTest a p b data
  | .logWrite p => s.logWrite p
  | .endOp p => s.endOp p
  | .commit p =>
    match s.pc p with
    | .commit stage => .ok (.committing, s.commitStep a p stage)
    | _ => .error .disabled

/-- The state when `initlog` has recovered. -/
def start (l : Log) : LogState P where
  log := l
  outstanding := 0
  committing := false
  pc := fun _ => .outside
  ended := []
  begun := l
  commits := []

/-- **A run.** -/
def exec (a : LogArea) (s : LogState P) (es : List (LogEvent P)) : Except LogHalt (LogState P) :=
  Machine.exec (step a) s es

/-- The processes between `begin_op` and `end_op`. -/
def inOps [Fintype P] (s : LogState P) : Finset P := Finset.univ.filter (fun p => (s.pc p).isInOp)

/-- **The ways a step goes through.** -/
inductive Moves (a : LogArea) (s : LogState P) : LogEvent P → LogDone → LogState P → Prop
  | sleep {p : P} (hp : s.pc p = .outside ∨ s.pc p = .waiting) :
    Moves a s (.beginOp p) .slept (s.setPc p .waiting)
  | begin {p : P} (hp : s.pc p = .outside ∨ s.pc p = .waiting) (hc : s.committing = false)
      (hroom : s.log.lh.length + (s.outstanding + 1) * MAXOPBLOCKS ≤ (LOGSIZE : ℤ)) :
    Moves a s (.beginOp p) .began
      ({ s with outstanding := s.outstanding + 1 }.setPc p (.inOp ∅))
  | test {p : P} {b : ℕ} {data : Block} {blocks : Finset ℕ} (hp : s.pc p = .inOp blocks)
      (hbig : ¬ s.log.tooBig a) :
    Moves a s (.logTest p b data) .tested
      ({ s with log := s.log.setBuf b data }.setPc p (.logging blocks b))
  | write {p : P} {b : ℕ} {blocks : Finset ℕ} (hp : s.pc p = .logging blocks b) :
    Moves a s (.logWrite p) .logged
      ({ s with log := { s.log with lh := Log.absorb s.log.lh b } }.setPc p
        (.inOp (insert b blocks)))
  | endLast {p : P} {blocks : Finset ℕ} (hp : s.pc p = .inOp blocks) (hc : s.committing = false)
      (hlast : s.outstanding - 1 = 0) :
    Moves a s (.endOp p) .committing
      ({ s with
        outstanding := s.outstanding - 1
        ended := s.ended ++ [blocks]
        committing := true
        begun := s.log }.setPc p (.commit .enter))
  | endMore {p : P} {blocks : Finset ℕ} (hp : s.pc p = .inOp blocks) (hc : s.committing = false) :
    Moves a s (.endOp p) .ended
      ({ s with
        outstanding := s.outstanding - 1
        ended := s.ended ++ [blocks] }.setPc p .outside)
  | commit {p : P} {stage : Stage} (hp : s.pc p = .commit stage) :
    Moves a s (.commit p) .committing (s.commitStep a p stage)

theorem moves_of_step {a : LogArea} {s s' : LogState P} {e : LogEvent P} {r : LogDone}
    (h : s.step a e = .ok (r, s')) : Moves a s e r s' := by
  cases e with
  | beginOp p =>
    obtain ⟨hp, h⟩ := Machine.ok_of_ite h
    split_ifs at h with hc hroom <;> cases h
    · exact .sleep hp
    · exact .sleep hp
    · exact .begin hp (Bool.not_eq_true _ ▸ hc) (Int.not_lt.mp hroom)
  | logTest p b data =>
    dsimp only [step, logTest] at h
    split at h
    · next blocks hp =>
      obtain ⟨hbig, h⟩ := Machine.ok_of_ite_error h
      obtain ⟨-, h⟩ := Machine.ok_of_ite_error h
      cases h
      exact .test hp hbig
    · cases h
  | logWrite p =>
    dsimp only [step, logWrite] at h
    split at h
    · next blocks b hp =>
      obtain ⟨-, h⟩ := Machine.ok_of_ite_error h
      cases h
      exact .write hp
    · cases h
  | endOp p =>
    dsimp only [step, endOp] at h
    split at h
    · next blocks hp =>
      obtain ⟨hc, h⟩ := Machine.ok_of_ite_error h
      have hc : s.committing = false := Bool.not_eq_true _ ▸ hc
      split_ifs at h with hlast <;> cases h
      · exact .endLast hp hc hlast
      · exact .endMore hp hc
    · cases h
  | commit p =>
    dsimp only [step] at h
    split at h <;> cases h
    next stage hp => exact .commit hp

/-- **The ways a step does not go through.** -/
inductive Halts (a : LogArea) (s : LogState P) : LogEvent P → LogHalt → Prop
  | disabled {e : LogEvent P} : Halts a s e .disabled
  | tooBig {p : P} {b : ℕ} {data : Block} {blocks : Finset ℕ} (hp : s.pc p = .inOp blocks)
      (hbig : s.log.tooBig a) : Halts a s (.logTest p b data) .tooBig
  | outsideTrans {p : P} {b : ℕ} {data : Block} {blocks : Finset ℕ} (hp : s.pc p = .inOp blocks)
      (hout : s.outstanding < 1) : Halts a s (.logTest p b data) .outsideTrans
  | overrun {p : P} {b : ℕ} {blocks : Finset ℕ} (hp : s.pc p = .logging blocks b)
      (hb : b ∉ s.log.lh) (hlen : LOGSIZE ≤ s.log.lh.length) : Halts a s (.logWrite p) .overrun
  | committing {p : P} {blocks : Finset ℕ} (hp : s.pc p = .inOp blocks)
      (hc : s.committing = true) : Halts a s (.endOp p) .committing

theorem halts_of_step {a : LogArea} {s : LogState P} {e : LogEvent P} {r : LogHalt}
    (h : s.step a e = .error r) : Halts a s e r := by
  cases e with
  | beginOp p =>
    dsimp only [step, beginOp] at h
    split_ifs at h
    cases h
    exact .disabled
  | logTest p b data =>
    dsimp only [step, logTest] at h
    split at h
    · next blocks hp =>
      split_ifs at h with hbig hout
      · cases h
        exact .tooBig hp hbig
      · cases h
        exact .outsideTrans hp hout
    · cases h
      exact .disabled
  | logWrite p =>
    dsimp only [step, logWrite] at h
    split at h
    · next blocks b hp =>
      split_ifs at h with hfull
      cases h
      exact .overrun hp hfull.1 hfull.2
    · cases h
      exact .disabled
  | endOp p =>
    dsimp only [step, endOp] at h
    split at h
    · next blocks hp =>
      split_ifs at h with hc
      cases h
      exact .committing hp hc
    · cases h
      exact .disabled
  | commit p =>
    dsimp only [step] at h
    split at h <;> cases h
    exact .disabled

end LogState

end Xv6
