import Xv6.Log.Crash
import Xv6.Log.Ops
import Mathlib.Algebra.BigOperators.Group.Finset.Piecewise
import Mathlib.Data.Fintype.Basic

/-!
# No operation is split across commits

`log.outstanding` counts the operations and `log.committing` marks a commit,
and each keeps the other out: `end_op` starts a commit only when it takes the
count to zero, and `begin_op` lets nobody in until the commit is over. So
while a commit turns, nobody logs, and the blocks of an operation are in
`log.lh` together until one commit installs them all.
-/

namespace Xv6

open Function

namespace LogState

variable {P : Type} {a : LogArea} {s s' : LogState P}

/-! ## One process moves -/

section fields

variable [DecidableEq P] (s) (p : P) (x : Pc)

@[simp] theorem setPc_log : (s.setPc p x).log = s.log := rfl
@[simp] theorem setPc_pc : (s.setPc p x).pc = update s.pc p x := rfl

end fields

/-- A turn of `commit` that is not its last one stays in `commit` and leaves
the counters alone. -/
theorem commitStep_of_ne_leave [DecidableEq P] (s : LogState P) (p : P) {stage : Stage}
    (h : stage ≠ .leave) :
    ∃ stage', (s.commitStep a p stage).pc = update s.pc p (.commit stage')
      ∧ (s.commitStep a p stage).outstanding = s.outstanding
      ∧ (s.commitStep a p stage).committing = s.committing := by
  cases stage with
  | leave => exact absurd rfl h
  | enter | writeLog tail | installTrans tail =>
    unfold commitStep
    dsimp only
    split <;> exact ⟨_, rfl, rfl, rfl⟩
  | writeHead | reset | erase => exact ⟨_, rfl, rfl, rfl⟩

section handshake

variable [Fintype P]

/-- A sum over the processes when one of them moves. -/
theorem sum_update [DecidableEq P] (g : Pc → ℕ) (f : P → Pc) (p : P) (x : Pc) :
    ∑ q, g (update f p x q) + g (f p) = ∑ q, g (f q) + g x := by
  rw [← Finset.add_sum_erase _ _ (Finset.mem_univ p),
    ← Finset.add_sum_erase _ (fun q => g (f q)) (Finset.mem_univ p), update_self]
  have hrest : ∑ q ∈ Finset.univ.erase p, g (update f p x q)
      = ∑ q ∈ Finset.univ.erase p, g (f q) :=
    Finset.sum_congr rfl (fun q hq => by rw [update_of_ne (Finset.ne_of_mem_erase hq)])
  rw [hrest]
  omega

/-- The number of operations when one process moves. -/
theorem card_inOps_update [DecidableEq P] (p : P) (x : Pc) (h : s'.pc = update s.pc p x) :
    s'.inOps.card + (if (s.pc p).isInOp then 1 else 0)
      = s.inOps.card + if x.isInOp then 1 else 0 := by
  unfold inOps
  rw [Finset.card_filter, Finset.card_filter, h]
  exact sum_update (fun x => if x.isInOp then 1 else 0) s.pc p x

theorem isInOp_eq_false_of_card (h : s.inOps.card = 0) (p : P) : (s.pc p).isInOp = false := by
  by_contra hp
  have hmem : p ∈ s.inOps := Finset.mem_filter.mpr ⟨Finset.mem_univ p, by simpa using hp⟩
  rw [Finset.card_eq_zero.mp h] at hmem
  exact Finset.notMem_empty p hmem

/-! ## The handshake -/

/-- **The handshake**: `log.outstanding` counts the operations, it is zero
while `log.committing` is set, and at most one process is in `commit`, with
`log.committing` set. -/
structure Handshake (s : LogState P) : Prop where
  count : s.outstanding = s.inOps.card
  zero : s.committing = true → s.inOps.card = 0
  commit : ∀ p, (s.pc p).isCommit → s.committing = true
  unique : ∀ p q, (s.pc p).isCommit → (s.pc q).isCommit → p = q

namespace Handshake

theorem start (l : Log) : (LogState.start l : LogState P).Handshake := by
  have hnone : (LogState.start l : LogState P).inOps = ∅ :=
    Finset.filter_eq_empty_iff.mpr (fun _ _ h => Bool.noConfusion h)
  refine ⟨?_, fun h => Bool.noConfusion h, fun _ h => Bool.noConfusion h,
    fun _ _ h => Bool.noConfusion h⟩
  rw [hnone]
  rfl

variable {p : P} {x : Pc}

variable (h : s.Handshake)

include h

/-- A process moves within an operation, within `commit`, or outside both. -/
theorem move [DecidableEq P] (hpc : s'.pc = update s.pc p x) (hin : x.isInOp = (s.pc p).isInOp)
    (hcom : x.isCommit = (s.pc p).isCommit) (hout : s'.outstanding = s.outstanding)
    (hc : s'.committing = s.committing) :
    s'.Handshake := by
  have hcard : s'.inOps.card = s.inOps.card := by
    have := card_inOps_update p x hpc
    rw [hin] at this
    omega
  have hpc := congrFun hpc
  obtain ⟨hcount, hzero, hcommit, hunique⟩ := h
  constructor <;> grind [update_apply]

/-- **Nobody commits during an operation.** -/
theorem committing_of_isInOp (hp : (s.pc p).isInOp) :
    s.committing = false := by
  have hzero := h.zero
  grind [isInOp_eq_false_of_card]

/-- No commit is going on. -/
theorem not_commit (hc : s.committing = false) (q : P) :
    (s.pc q).isCommit = false := by
  have hcommit := h.commit q
  grind

/-- The only process in `commit` leaves it. -/
theorem not_commit_of_leave (hp : (s.pc p).isCommit) {q : P} (hq : q ≠ p) :
    (s.pc q).isCommit = false := by
  have hunique := h.unique q p
  grind

/-- The count goes with the process. -/
theorem count_update [DecidableEq P] (hpc : s'.pc = update s.pc p x)
    (hout : s'.outstanding + (if (s.pc p).isInOp then 1 else 0)
      = s.outstanding + if x.isInOp then 1 else 0) : s'.outstanding = s'.inOps.card := by
  have hcard := card_inOps_update p x hpc
  rw [h.count] at hout
  split_ifs at hout hcard <;> omega

/-- Nobody is in `commit` after the step. -/
theorem of_not_commit [DecidableEq P] (hpc : s'.pc = update s.pc p x) (hx : x.isCommit = false)
    (hno : ∀ q, q ≠ p → (s.pc q).isCommit = false) (hc : s'.committing = false)
    (hout : s'.outstanding + (if (s.pc p).isInOp then 1 else 0)
      = s.outstanding + if x.isInOp then 1 else 0) : s'.Handshake := by
  have hpc' := congrFun hpc
  refine ⟨h.count_update hpc hout, ?_, ?_, ?_⟩ <;> grind [update_apply]

/-- The last operation ends, and its process commits. -/
theorem enter_commit [DecidableEq P] {stage : Stage} (hpc : s'.pc = update s.pc p (.commit stage))
    (hno : ∀ q, q ≠ p → (s.pc q).isCommit = false) (hc : s'.committing = true)
    (hout : s'.outstanding + (if (s.pc p).isInOp then 1 else 0) = s.outstanding + 0)
    (hzero : s'.outstanding = 0) : s'.Handshake := by
  have hcount := h.count_update hpc hout
  have hpc := congrFun hpc
  refine ⟨hcount, fun _ => by omega, fun _ _ => hc, ?_⟩
  grind [update_apply]

end Handshake

variable [DecidableEq P]

namespace Handshake

/-- **The handshake, one step.** -/
theorem step (h : s.Handshake) {e : LogEvent P} {r : LogDone} (hstep : s.step a e = .ok (r, s')) :
    s'.Handshake := by
  cases moves_of_step hstep with
  | sleep hp => refine h.move rfl ?_ ?_ rfl rfl <;> rcases hp with hp | hp <;> rw [hp] <;> rfl
  | begin hp hc hroom =>
    refine h.of_not_commit rfl rfl (fun q _ => h.not_commit hc q) hc ?_
    rcases hp with hp | hp <;> rw [hp] <;> exact Int.add_zero _
  | test hp hbig => exact h.move rfl (by rw [hp]; rfl) (by rw [hp]; rfl) rfl rfl
  | write hp => exact h.move rfl (by rw [hp]; rfl) (by rw [hp]; rfl) rfl rfl
  | endLast hp hc hlast =>
    refine h.enter_commit rfl (fun q _ => h.not_commit hc q) rfl ?_ hlast
    rw [hp]
    exact (Int.sub_add_cancel _ _).trans (Int.add_zero _).symm
  | endMore hp hc =>
    refine h.of_not_commit rfl rfl (fun q _ => h.not_commit hc q) hc ?_
    rw [hp]
    exact (Int.sub_add_cancel _ _).trans (Int.add_zero _).symm
  | @commit p stage hp =>
    have hcommit : (s.pc p).isCommit := by rw [hp]; rfl
    by_cases hleave : stage = .leave
    · subst hleave
      refine h.of_not_commit rfl rfl (fun q hq => h.not_commit_of_leave hcommit hq) rfl ?_
      rw [hp]
      rfl
    · obtain ⟨stage', hpc, hout, hcom⟩ := commitStep_of_ne_leave (a := a) s p hleave
      exact h.move hpc (by rw [hp]; rfl) (by rw [hp]; rfl) hout hcom

end Handshake

end handshake

/-! ## The record of operations -/

/-- **What has been logged**: no block twice, and exactly the blocks of the
operations since the last commit. -/
structure Recorded (s : LogState P) : Prop where
  nodup : s.log.lh.Nodup
  mem_lh : ∀ b, b ∈ s.log.lh ↔ (∃ op ∈ s.ended, b ∈ op) ∨ ∃ p, b ∈ (s.pc p).blocks

namespace Recorded

theorem start {l : Log} (hl : l.lh = []) : (LogState.start l : LogState P).Recorded where
  nodup := by
    show l.lh.Nodup
    rw [hl]
    exact List.nodup_nil
  mem_lh := fun b => by
    show b ∈ l.lh ↔ _
    rw [hl]
    simp [LogState.start, Pc.blocks]

variable [DecidableEq P] {p : P} {x : Pc}

/-- The blocks of the operations when one process moves. -/
theorem exists_mem_blocks_update (hpc : s'.pc = update s.pc p x) (b : ℕ) :
    (∃ q, b ∈ (s'.pc q).blocks) ↔ b ∈ x.blocks ∨ ∃ q, q ≠ p ∧ b ∈ (s.pc q).blocks := by
  rw [hpc]
  constructor
  · rintro ⟨q, hq⟩
    grind [update_apply]
  · rintro (hb | ⟨q, hqp, hq⟩)
    · exact ⟨p, by rwa [update_self]⟩
    · exact ⟨q, by rwa [update_of_ne hqp]⟩

theorem exists_mem_blocks (s : LogState P) (p : P) (b : ℕ) :
    (∃ q, b ∈ (s.pc q).blocks) ↔ b ∈ (s.pc p).blocks ∨ ∃ q, q ≠ p ∧ b ∈ (s.pc q).blocks :=
  exists_mem_blocks_update (update_eq_self p s.pc).symm b

/-- **A process moves**, and what is logged is what the operations have
logged then. -/
theorem of_update (hpc : s'.pc = update s.pc p x) (hnodup : s'.log.lh.Nodup)
    (hmem : ∀ b, b ∈ s'.log.lh ↔
      (∃ op ∈ s'.ended, b ∈ op) ∨ b ∈ x.blocks ∨ ∃ q, q ≠ p ∧ b ∈ (s.pc q).blocks) :
    s'.Recorded :=
  ⟨hnodup, fun b => by rw [hmem, exists_mem_blocks_update hpc]⟩

/-- A process moves between places where its operation has the same
blocks. -/
theorem move (h : s.Recorded) (hpc : s'.pc = update s.pc p x) (hlh : s'.log.lh = s.log.lh)
    (hended : s'.ended = s.ended) (hx : x.blocks = (s.pc p).blocks) : s'.Recorded := by
  refine of_update hpc (hlh ▸ h.nodup) (fun b => ?_)
  rw [hlh, hended, hx, h.mem_lh, exists_mem_blocks s p b]

/-- An operation ends. -/
theorem end_op (h : s.Recorded) {blocks : Finset ℕ} (hp : s.pc p = .inOp blocks)
    (hpc : s'.pc = update s.pc p x) (hx : x.blocks = ∅) (hlh : s'.log.lh = s.log.lh)
    (hended : s'.ended = s.ended ++ [blocks]) : s'.Recorded := by
  refine of_update hpc (hlh ▸ h.nodup) (fun b => ?_)
  rw [hlh, hended, h.mem_lh, exists_mem_blocks s p b, hp, hx]
  simp [Pc.blocks, or_and_right, exists_or, or_assoc]

variable [Fintype P]

/-- The commit is done with its blocks. -/
theorem reset (hs : s.Handshake) (hp : s.pc p = .commit .reset) :
    (s.commitStep a p .reset).Recorded := by
  have hcom : s.committing = true := hs.commit p (by rw [hp]; rfl)
  have hnone : ∀ q, (s.pc q).blocks = ∅ := fun q =>
    Pc.blocks_eq_empty (isInOp_eq_false_of_card (hs.zero hcom) q)
  refine of_update (s := s) rfl List.nodup_nil (fun b => ?_)
  show b ∈ [] ↔ (∃ op ∈ [], b ∈ op) ∨ b ∈ (Pc.commit .erase).blocks ∨ _
  simp only [hnone]
  simp [Pc.blocks]

/-- **What has been logged, one step.** -/
theorem step (h : s.Recorded) (hs : s.Handshake) {e : LogEvent P} {r : LogDone}
    (hstep : s.step a e = .ok (r, s')) : s'.Recorded := by
  cases moves_of_step hstep with
  | sleep hp | begin hp hc hroom =>
    exact h.move rfl rfl rfl (by rcases hp with hp | hp <;> rw [hp] <;> rfl)
  | test hp hbig => exact h.move rfl rfl rfl (by rw [hp]; rfl)
  | @write p b blocks hp =>
    refine of_update (s := s) rfl (Log.nodup_absorb h.nodup b) (fun c => ?_)
    show c ∈ Log.absorb s.log.lh b ↔ (∃ op ∈ s.ended, c ∈ op) ∨ c ∈ insert b blocks ∨ _
    rw [Log.mem_absorb, h.mem_lh, exists_mem_blocks s p c, hp, Finset.mem_insert]
    rw [or_left_comm, or_assoc]
    rfl
  | endLast hp hc hlast | endMore hp hc => exact h.end_op hp rfl rfl rfl rfl
  | @commit p stage hp =>
    cases stage with
    | enter | writeLog | installTrans =>
      unfold commitStep
      dsimp only
      split <;> exact h.move rfl rfl rfl (by rw [hp]; rfl)
    | writeHead | erase | leave => exact h.move rfl rfl rfl (by rw [hp]; rfl)
    | reset => exact reset hs hp

end Recorded

end LogState

/-! ## The record of commits -/

namespace Log

variable {a : LogArea} {l : Log}

/-- **How far `commit` has come** at each of its stages, on the log that it
began with: the functions of the sequential `commit` up to there. -/
def commitAt (a : LogArea) (l : Log) : Stage → Log
  | .enter => l
  | .writeLog tail => (List.range tail).foldl (writeLogStep a) l
  | .writeHead => l.writeLog a
  | .installTrans tail =>
    (List.range tail).foldl (installTransStep a) ((l.writeLog a).writeHead a)
  | .reset => ((l.writeLog a).writeHead a).installTrans a
  | .erase => { ((l.writeLog a).writeHead a).installTrans a with lh := [] }
  | .leave => l.commit a

/-- The stages that `commit` comes to: an empty log is left at once, and
the loops end with the header. -/
def ComesTo (l : Log) : Stage → Prop
  | .enter | .leave => True
  | .writeLog tail | .installTrans tail => 0 < l.lh.length ∧ tail ≤ l.lh.length
  | .writeHead | .reset | .erase => 0 < l.lh.length

theorem lh_foldl {f : Log → ℕ → Log} (hf : ∀ l i, (f l i).lh = l.lh) (is : List ℕ) (l : Log) :
    (is.foldl f l).lh = l.lh := by
  induction is generalizing l with
  | nil => rfl
  | cons i is ih => exact (ih _).trans (hf l i)

theorem lh_writeLog (a : LogArea) (l : Log) : (l.writeLog a).lh = l.lh :=
  lh_foldl (f := writeLogStep a) (fun _ _ => rfl) _ l

/-- The header is the same until `commit` is done with it. -/
theorem lh_commitAt {stage : Stage} (herase : stage ≠ .erase) (hleave : stage ≠ .leave) :
    (l.commitAt a stage).lh = l.lh := by
  have hlog : ((l.writeLog a).writeHead a).lh = l.lh := lh_writeLog a l
  cases stage with
  | enter => rfl
  | writeLog tail => exact lh_foldl (f := writeLogStep a) (fun _ _ => rfl) _ l
  | writeHead => exact hlog
  | installTrans | reset =>
    exact (lh_foldl (f := installTransStep a) (fun _ _ => rfl) _ _).trans hlog
  | erase => exact absurd rfl herase
  | leave => exact absurd rfl hleave

end Log

/-- **A commit has installed its operations**: what the disk has seen begins
with the writes of that commit up to the last home block, `install_trans`
has written every block of every operation home, and if they fit the log,
with what their buffers held when the commit began. -/
structure Committed.Installed (a : LogArea) (c : Committed) (l : Log) : Prop where
  done : (c.log.commitAt a .reset).trace <+: l.trace
  home : ∀ op ∈ c.ops, ∀ b ∈ op, ∃ data, (b, data) ∈
    (c.log.commitAt a .reset).trace.drop (c.log.commitAt a (.installTrans 0)).trace.length
  data : Log.Fits a c.log.lh → (c.log.commitAt a .reset).trace
    = (c.log.commitAt a (.installTrans 0)).trace ++ c.log.lh.map (fun b => (b, c.log.buf b))

/-- A commit whose log lists the blocks of its operations installs them. -/
theorem Committed.installed {a : LogArea} {c : Committed}
    (h : ∀ op ∈ c.ops, ∀ b ∈ op, b ∈ c.log.lh) : c.Installed a (c.log.commitAt a .reset) := by
  refine ⟨List.prefix_refl _, fun op hop b hb => ?_, fun hfits => (Log.emits_install hfits).trace⟩
  obtain ⟨ws, hemits, hws⟩ := Log.exists_emits_installTrans a ((c.log.writeLog a).writeHead a)
  have hmem : b ∈ ws.map Prod.fst := by
    rw [hws]
    exact (Log.lh_writeLog a c.log).symm ▸ h op hop b hb
  obtain ⟨w, hw, rfl⟩ := List.mem_map.mp hmem
  refine ⟨w.2, ?_⟩
  show w ∈ List.drop _ (((c.log.writeLog a).writeHead a).installTrans a).trace
  rw [hemits.trace]
  exact List.drop_left.symm ▸ hw

namespace LogState

variable {P : Type} {a : LogArea} {s s' : LogState P} {p : P} {x : Pc}

/-- **The commits**: one that is going on has come as far as its stage says,
and those that are over have installed their operations. -/
structure Installs (a : LogArea) (s : LogState P) : Prop where
  stage : ∀ p stage, s.pc p = .commit stage →
    s.log = s.begun.commitAt a stage ∧ s.begun.ComesTo stage
  commits : ∀ c ∈ s.commits, c.Installed a s.log

variable [DecidableEq P]

/-- **A turn of `commit`** takes the log to the next stage. -/
theorem commitStep_commitAt (p : P) {stage : Stage} (h : s.log = s.begun.commitAt a stage)
    (hto : s.begun.ComesTo stage) (hne : stage ≠ .leave) :
    ∃ stage', (s.commitStep a p stage).pc = update s.pc p (.commit stage')
      ∧ (s.commitStep a p stage).log = s.begun.commitAt a stage' ∧ s.begun.ComesTo stage'
      ∧ (s.commitStep a p stage).begun = s.begun := by
  have hlh : stage ≠ .erase → s.log.lh = s.begun.lh := fun herase =>
    h ▸ Log.lh_commitAt herase hne
  cases stage with
  | enter =>
    unfold commitStep
    dsimp only
    rw [hlh nofun]
    split
    · next hpos => exact ⟨.writeLog 0, rfl, h, ⟨hpos, Nat.zero_le _⟩, rfl⟩
    · next hnone => exact ⟨.leave, rfl, h.trans (if_neg hnone).symm, trivial, rfl⟩
  | writeLog tail =>
    unfold commitStep
    dsimp only
    rw [hlh nofun]
    split
    · next htail =>
      refine ⟨.writeLog (tail + 1), rfl, ?_, ⟨hto.1, htail⟩, rfl⟩
      show s.log.writeLogStep a tail = (List.range (tail + 1)).foldl _ _
      rw [h, List.range_succ, List.foldl_append]
      rfl
    · next htail =>
      obtain rfl : tail = s.begun.lh.length := Nat.le_antisymm hto.2 (Nat.le_of_not_lt htail)
      exact ⟨.writeHead, rfl, h, hto.1, rfl⟩
  | writeHead =>
    exact ⟨.installTrans 0, rfl, congrArg (Log.writeHead a) h, ⟨hto, Nat.zero_le _⟩, rfl⟩
  | installTrans tail =>
    unfold commitStep
    dsimp only
    rw [hlh nofun]
    split
    · next htail =>
      refine ⟨.installTrans (tail + 1), rfl, ?_, ⟨hto.1, htail⟩, rfl⟩
      show s.log.installTransStep a tail = (List.range (tail + 1)).foldl _ _
      rw [h, List.range_succ, List.foldl_append]
      rfl
    · next htail =>
      obtain rfl : tail = s.begun.lh.length := Nat.le_antisymm hto.2 (Nat.le_of_not_lt htail)
      refine ⟨.reset, rfl, h.trans ?_, hto.1, rfl⟩
      show _ = (List.range ((s.begun.writeLog a).lh.length)).foldl _ _
      rw [Log.lh_writeLog]
      rfl
  | reset =>
    exact ⟨.erase, rfl, congrArg (fun l : Log => { l with lh := [] }) h, hto, rfl⟩
  | erase =>
    exact ⟨.leave, rfl, (congrArg (Log.writeHead a) h).trans (if_pos hto).symm, trivial, rfl⟩
  | leave => exact absurd rfl hne

/-- The block writes so far stay. -/
theorem trace_prefix_commitStep (s : LogState P) (p : P) (stage : Stage) :
    s.log.trace <+: (s.commitStep a p stage).log.trace := by
  cases stage with
  | enter | writeLog | installTrans =>
    unfold commitStep
    dsimp only
    split <;> first | exact List.prefix_refl _ | exact List.prefix_append _ _
  | writeHead | erase => exact List.prefix_append _ _
  | reset | leave => exact List.prefix_refl _

/-- A commit is recorded when its blocks are installed. -/
theorem mem_commits_commitStep {p : P} {stage : Stage} {c : Committed}
    (hc : c ∈ (s.commitStep a p stage).commits) :
    c ∈ s.commits ∨ stage = .reset ∧ c = ⟨s.ended, s.begun⟩ := by
  cases stage with
  | enter | writeLog | installTrans =>
    unfold commitStep at hc
    dsimp only at hc
    split at hc <;> exact .inl hc
  | reset => exact (List.mem_append.mp hc).imp id (fun hc => ⟨rfl, List.mem_singleton.mp hc⟩)
  | writeHead | erase | leave => exact .inl hc

namespace Installs

/-- **A process moves**, and the commits that are over stay as they are. -/
theorem move (h : s.Installs a) (hpc : s'.pc = update s.pc p x)
    (hstage : ∀ stage, x = .commit stage →
      s'.log = s'.begun.commitAt a stage ∧ s'.begun.ComesTo stage)
    (hothers : ∀ q, q ≠ p → (s.pc q).isCommit = false) (htrace : s.log.trace <+: s'.log.trace)
    (hcommits : ∀ c ∈ s'.commits, c ∈ s.commits ∨ c.Installed a s.log) : s'.Installs a := by
  refine ⟨fun q stage hq => ?_, fun c hc => ?_⟩
  · rw [hpc, update_apply] at hq
    have hcommit : (Pc.commit stage).isCommit = true := rfl
    grind
  · obtain ⟨hdone, hhome, hdata⟩ := (hcommits c hc).elim (h.commits c) id
    exact ⟨hdone.trans htrace, hhome, hdata⟩

/-- A process moves outside `commit`, while nobody is in it. -/
theorem move_outside (h : s.Installs a) (hpc : s'.pc = update s.pc p x) (hx : x.isCommit = false)
    (hothers : ∀ q, q ≠ p → (s.pc q).isCommit = false) (htrace : s'.log.trace = s.log.trace)
    (hcommits : s'.commits = s.commits) : s'.Installs a := by
  refine h.move hpc (fun stage hstage => ?_) hothers (htrace ▸ List.prefix_refl _)
    (fun c hc => .inl (hcommits ▸ hc))
  rw [hstage] at hx
  exact Bool.noConfusion hx

/-- A process goes to sleep, and leaves the log to whoever is in `commit`. -/
theorem sleep (h : s.Installs a) : (s.setPc p .waiting).Installs a := by
  refine ⟨fun q stage hq => ?_, h.commits⟩
  rw [setPc_pc, update_apply] at hq
  exact h.stage q stage (by grind)

omit [DecidableEq P] in
/-- The operations of a commit are installed when it comes to record them. -/
theorem installed_of_reset (h : s.Installs a) (hr : s.Recorded) (hp : s.pc p = .commit .reset) :
    (Committed.mk s.ended s.begun).Installed a s.log := by
  obtain ⟨hlog, -⟩ := h.stage p _ hp
  have hlh : s.log.lh = s.begun.lh := hlog ▸ Log.lh_commitAt nofun nofun
  rw [hlog]
  exact Committed.installed (fun op hop b hb => hlh ▸ (hr.mem_lh b).mpr (.inl ⟨op, hop, hb⟩))

variable [Fintype P]

/-- **The commits, one step.** -/
theorem step (h : s.Installs a) (hs : s.Handshake) (hr : s.Recorded) {e : LogEvent P} {r : LogDone}
    (hstep : s.step a e = .ok (r, s')) : s'.Installs a := by
  cases moves_of_step hstep with
  | sleep hp => exact h.sleep
  | begin hp hc hroom | endMore hp hc =>
    exact h.move_outside rfl rfl (fun q _ => hs.not_commit hc q) rfl rfl
  | @test p b data blocks hp hbig | @write p b blocks hp =>
    have hc := hs.committing_of_isInOp (p := p) (by rw [hp]; rfl)
    exact h.move_outside rfl rfl (fun q _ => hs.not_commit hc q) rfl rfl
  | endLast hp hc hlast =>
    refine h.move rfl (fun _ hx => ?_) (fun q _ => hs.not_commit hc q) (List.prefix_refl _)
      (fun _ => .inl)
    cases hx
    exact ⟨rfl, trivial⟩
  | @commit p stage hp =>
    have hothers : ∀ q, q ≠ p → (s.pc q).isCommit = false := fun q hq =>
      hs.not_commit_of_leave (by rw [hp]; rfl) hq
    obtain ⟨hlog, hto⟩ := h.stage p stage hp
    by_cases hleave : stage = .leave
    · subst hleave
      exact h.move_outside rfl rfl hothers rfl rfl
    obtain ⟨stage', hpc, hlog', hto', hbegun⟩ := commitStep_commitAt p hlog hto hleave
    refine h.move hpc (fun _ hx => ?_) hothers (s.trace_prefix_commitStep p stage)
      (fun c hc => (mem_commits_commitStep hc).imp id ?_)
    · cases hx
      rw [hbegun]
      exact ⟨hlog', hto'⟩
    · rintro ⟨rfl, rfl⟩
      exact h.installed_of_reset hr hp

end Installs

/-! ## Every run -/

variable [Fintype P]

/-- **The invariants of a run** that starts with an empty log. -/
theorem installs_of_exec {l : Log} (hl : l.lh = []) {es : List (LogEvent P)}
    (h : (start l).exec a es = .ok s) : s.Handshake ∧ s.Recorded ∧ s.Installs a := by
  refine Machine.exec_invariant (I := fun s : LogState P => s.Handshake ∧ s.Recorded ∧ s.Installs a)
    (fun hs hstep => ⟨hs.1.step hstep, hs.2.1.step hs.1 hstep, hs.2.2.step hs.1 hs.2.1 hstep⟩)
    ⟨Handshake.start l, Recorded.start hl, fun _ _ hp => Pc.noConfusion hp,
      fun _ hc => absurd hc List.not_mem_nil⟩ h

/-- While a commit is going on, nobody starts an operation or logs. -/
theorem Handshake.done_of_committing (h : s.Handshake) (hc : s.committing = true) {e : LogEvent P}
    {r : LogDone} (hstep : s.step a e = .ok (r, s')) :
    r ≠ .began ∧ r ≠ .tested ∧ r ≠ .logged := by
  have hnone : ∀ p, (s.pc p).isInOp = false := isInOp_eq_false_of_card (h.zero hc)
  cases moves_of_step hstep with
  | begin hp hc' hroom => grind
  | @test p b data blocks hp hbig | @write p b blocks hp =>
    have := hnone p
    rw [hp] at this
    exact Bool.noConfusion this
  | sleep | endLast | endMore | commit => decide

/-- **`end_op` never finds a commit going on.** -/
theorem Handshake.step_ne_committing (h : s.Handshake) (e : LogEvent P) :
    s.step a e ≠ .error .committing := by
  intro hstep
  cases halts_of_step hstep with
  | @committing p blocks hp hc =>
    have hno := h.committing_of_isInOp (p := p) (by rw [hp]; rfl)
    rw [hc] at hno
    exact Bool.noConfusion hno

/-- **No operation is split across commits.** From the end of `initlog`, in
whatever order the processes take their steps: `log.outstanding` is the
number of operations; `commit` runs only when that is zero, and does to the
log what the sequential `Log.commit` does; while `log.committing` is set no
`begin_op` succeeds and nothing is logged; the panic in `end_op` does not
happen; each commit so far has written home all the blocks of all the
operations that ended since the one before, and those of the later
operations are all still in `log.lh`; and `log.lh` never lists a block
twice. -/
theorem ops_whole_of_exec {d : ℕ → Block} {l : Log} {es : List (LogEvent P)}
    (hl : Log.recoverFromLog a (Log.reboot d) = some l) (h : (start l).exec a es = .ok s) :
    s.outstanding = s.inOps.card
      ∧ (∀ p stage, s.pc p = .commit stage →
        s.inOps.card = 0 ∧ s.log = s.begun.commitAt a stage)
      ∧ (s.committing = true → ∀ e r s', s.step a e = .ok (r, s') →
        r ≠ .began ∧ r ≠ .tested ∧ r ≠ .logged)
      ∧ (∀ e, s.step a e ≠ .error .committing)
      ∧ (∀ c ∈ s.commits, c.Installed a s.log)
      ∧ (∀ op ∈ s.ended, ∀ b ∈ op, b ∈ s.log.lh)
      ∧ (∀ p, ∀ b ∈ (s.pc p).blocks, b ∈ s.log.lh)
      ∧ s.log.lh.Nodup := by
  obtain ⟨hs, hr, hi⟩ := installs_of_exec (Log.quiet_recoverFromLog hl).lh h
  refine ⟨hs.count,
    fun p stage hp => ⟨hs.zero (hs.commit p (by rw [hp]; rfl)), (hi.stage p stage hp).1⟩,
    fun hc e r s' => hs.done_of_committing hc, hs.step_ne_committing, hi.commits,
    fun op hop b hb => (hr.mem_lh b).mpr (.inl ⟨op, hop, hb⟩),
    fun p b hb => (hr.mem_lh b).mpr (.inr ⟨p, hb⟩), hr.nodup⟩

/-- Two operations that overlap, and the commit after them. -/
def twoOps : List (LogEvent (Fin 2)) :=
  [.beginOp 0, .beginOp 1, .logTest 0 100 (fun _ => 1), .logWrite 0, .endOp 0,
    .logTest 1 101 (fun _ => 2), .logWrite 1, .endOp 1] ++ List.replicate 11 (.commit 1)

/-- Both have ended up in one commit, which has written their blocks. -/
theorem ops_whole_of_exec_twoOps :
    ∃ s, (start (Log.writeHead ⟨2, 30⟩ (Log.reboot (fun _ => Block.zero)))).exec ⟨2, 30⟩ twoOps = .ok s
      ∧ s.commits.map Committed.ops = [[{100}, {101}]]
      ∧ ∀ c ∈ s.commits, c.Installed ⟨2, 30⟩ s.log := by
  have hrun : ∃ s, (start (Log.writeHead ⟨2, 30⟩ (Log.reboot (fun _ => Block.zero)))).exec ⟨2, 30⟩
      twoOps = .ok s ∧ s.commits.map Committed.ops = [[{100}, {101}]] := ⟨_, rfl, rfl⟩
  obtain ⟨s, hs, hcommits⟩ := hrun
  obtain ⟨-, -, -, -, hwhole, -⟩ := ops_whole_of_exec (Log.recoverFromLog_zero ⟨2, 30⟩) hs
  exact ⟨s, hs, hcommits, hwhole⟩

end LogState

end Xv6
