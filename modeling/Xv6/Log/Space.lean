import Xv6.Log.Handshake
import Mathlib.Algebra.BigOperators.Ring.Finset
import Mathlib.Algebra.Order.BigOperators.Group.Finset

/-!
# Log space

`begin_op` lets an operation in when `MAXOPBLOCKS` blocks for it and for each
operation that is already in still fit `LOGSIZE`, and that reservation is
kept: operations that log at most `MAXOPBLOCKS` blocks each never need more
than `LOGSIZE`. But `log_write` compares `log.lh.n` with `log.size - 1`, and
`mkfs` makes `log.size` equal to `LOGSIZE`, header included; so the block
that uses the last of the reservation is one too many, and after
`LOGSIZE - 1` blocks even a block that is logged already is refused.
-/

namespace Xv6

namespace LogState

variable {P : Type} [DecidableEq P] [Fintype P] {a : LogArea} {s s' : LogState P}

/-! ## The blocks since the last commit -/

/-- **The blocks that the operations since the last commit have logged.** -/
def uncommitted (s : LogState P) : Finset ℕ :=
  s.ended.foldr (· ∪ ·) ∅ ∪ Finset.univ.biUnion (fun p => (s.pc p).blocks)

omit [DecidableEq P] in
theorem mem_uncommitted {b : ℕ} :
    b ∈ s.uncommitted ↔ (∃ op ∈ s.ended, b ∈ op) ∨ ∃ p, b ∈ (s.pc p).blocks := by
  have hended : ∀ ops : List (Finset ℕ), b ∈ ops.foldr (· ∪ ·) ∅ ↔ ∃ op ∈ ops, b ∈ op := by
    intro ops
    induction ops with
    | nil => simp
    | cons op ops ih => simp [ih]
  unfold uncommitted
  rw [Finset.mem_union, hended, Finset.mem_biUnion]
  simp

omit [DecidableEq P] in
/-- `log.lh.n` is their number. -/
theorem Recorded.card_uncommitted (h : s.Recorded) : s.uncommitted.card = s.log.lh.length := by
  rw [← List.toFinset_card_of_nodup h.nodup]
  congr 1
  ext b
  rw [mem_uncommitted, List.mem_toFinset, h.mem_lh]

/-! ## The test -/

/-- The condition on a step: `log_write` is called while the operations
since the last commit have logged fewer than `LOGSIZE - 1` blocks. -/
def Small (s : LogState P) (e : LogEvent P) : Prop :=
  ∀ p b data blocks, e = .logTest p b data → s.pc p = .inOp blocks →
    s.uncommitted.card < LOGSIZE - 1

/-- The test of `log_write`, one step. -/
theorem Recorded.step_ne_tooBig_iff (h : s.Recorded) {e : LogEvent P} :
    s.step .mkfs e ≠ .error .tooBig ↔ s.Small e := by
  have htest : s.log.tooBig .mkfs ↔ LOGSIZE - 1 ≤ s.uncommitted.card := by
    rw [h.card_uncommitted]
    show LOGSIZE ≤ s.log.lh.length ∨ (LOGSIZE : ℤ) - 1 ≤ s.log.lh.length ↔ _
    unfold LOGSIZE MAXOPBLOCKS
    omega
  constructor
  · rintro hne p b data blocks rfl hp
    by_contra hcard
    refine hne ?_
    show s.logTest .mkfs p b data = _
    unfold logTest
    rw [hp]
    exact if_pos (htest.mpr (Nat.le_of_not_lt hcard))
  · intro hsmall hstep
    cases halts_of_step hstep with
    | tooBig hp hbig => exact Nat.not_lt.mpr (htest.mp hbig) (hsmall _ _ _ _ rfl hp)

/-- **When a run meets the panic "too big a transaction"**: exactly when
`log_write` is called after `LOGSIZE - 1` blocks since the last commit. -/
theorem exec_ne_tooBig_iff {d : ℕ → Block} {l : Log} {es : List (LogEvent P)}
    (hl : Log.recoverFromLog .mkfs (Log.reboot d) = some l) :
    (start l).exec .mkfs es ≠ .error .tooBig ↔ Machine.Along (step .mkfs) Small (start l) es :=
  Machine.exec_ne_error_iff_along (I := fun s : LogState P => s.Handshake ∧ s.Recorded)
    (fun hs hstep => ⟨hs.1.step hstep, hs.2.step hs.1 hstep⟩) (fun hs => hs.2.step_ne_tooBig_iff)
    ⟨Handshake.start l, Recorded.start (Log.quiet_recoverFromLog hl).lh⟩

/-- Three processes begin an operation each, and then each pair of the list
logs that many blocks for its process. -/
def fill (ps : List (Fin 3 × ℕ)) : List (LogEvent (Fin 3)) :=
  [.beginOp 0, .beginOp 1, .beginOp 2]
    ++ ps.flatMap (fun pn => (List.range pn.2).flatMap (fun i =>
      [.logTest pn.1 (100 + 10 * pn.1 + i) Block.zero, .logWrite pn.1]))

/-- **The thirtieth block is refused.** `begin_op` lets three operations in,
two of them log `MAXOPBLOCKS` blocks each and the third logs all but one of
its own; none has logged more than it may, and `log_write` panics on the
last one. -/
theorem logTest_tooBig_of_fill :
    ∃ l s, Log.recoverFromLog .mkfs (Log.reboot (fun _ => Block.zero)) = some l
      ∧ (start l).exec .mkfs (fill [(0, 10), (1, 10), (2, 9)]) = .ok s
      ∧ (∀ p, (s.pc p).blocks.card ≤ MAXOPBLOCKS)
      ∧ (insert 129 (s.pc 2).blocks).card ≤ MAXOPBLOCKS
      ∧ s.step .mkfs (.logTest 2 129 Block.zero) = .error .tooBig := by
  exact ⟨_, _, Log.recoverFromLog_zero .mkfs, rfl, by decide +kernel, by decide +kernel, rfl⟩

/-- The run that logs the twenty-ninth block meets no panic, and each of its
calls meets the condition; in the run that goes on to the thirtieth one call
does not. -/
theorem exec_ne_tooBig_iff_fill_limit :
    ∃ l, (start l).exec .mkfs (fill [(0, 10), (1, 10), (2, 9)]) ≠ .error .tooBig
      ∧ Machine.Along (step .mkfs) Small (start l) (fill [(0, 10), (1, 10), (2, 9)])
      ∧ ¬ Machine.Along (step .mkfs) Small (start l) (fill [(0, 10), (1, 10), (2, 10)]) := by
  have hl := Log.recoverFromLog_zero .mkfs
  refine ⟨Log.writeHead .mkfs (Log.reboot fun _ => Block.zero), nofun,
    (exec_ne_tooBig_iff hl).mp nofun, fun hsmall => ?_⟩
  exact (exec_ne_tooBig_iff hl).mpr hsmall rfl

/-! ## The reservation -/

/-- The blocks an operation may still log. -/
def slack (x : Pc) : ℕ := if x.isInOp then MAXOPBLOCKS - x.blocks.card else 0

/-- The condition on a step: no operation logs more than `MAXOPBLOCKS`
blocks. -/
def WithinOpLimit (s : LogState P) (e : LogEvent P) : Prop :=
  ∀ p blocks b, e = .logWrite p → s.pc p = .logging blocks b → (insert b blocks).card ≤ MAXOPBLOCKS

instance (s : LogState P) (e : LogEvent P) : Decidable (s.WithinOpLimit e) :=
  decidable_of_iff ((match e with
    | .logWrite p => match s.pc p with
      | .logging blocks b => decide ((insert b blocks).card ≤ MAXOPBLOCKS)
      | _ => true
    | _ => true) = true) (by
    constructor
    · rintro h p blocks b rfl hp
      simpa [hp] using h
    · intro h
      split
      · split
        · exact decide_eq_true (h _ _ _ rfl ‹_›)
        · rfl
      · rfl)

/-- **The reservation**: what is logged, and what the operations may still
log, fits. -/
def Reserved (s : LogState P) : Prop := s.log.lh.length + ∑ p, slack (s.pc p) ≤ LOGSIZE

omit [DecidableEq P] in
theorem sum_slack_le (s : LogState P) : ∑ p, slack (s.pc p) ≤ s.inOps.card * MAXOPBLOCKS := by
  unfold inOps
  rw [Finset.card_filter, Finset.sum_mul]
  refine Finset.sum_le_sum (fun p _ => ?_)
  unfold slack
  split
  · rw [Nat.one_mul]
    exact Nat.sub_le _ _
  · exact Nat.zero_le _

/-- A process moves, and its operation does not come to need more than the
log has lost. -/
theorem Reserved.move (h : s.Reserved) {p : P} {x : Pc} (hpc : s'.pc = Function.update s.pc p x)
    (hle : s'.log.lh.length + slack x ≤ s.log.lh.length + slack (s.pc p)) : s'.Reserved := by
  have hsum := sum_update slack s.pc p x
  unfold Reserved at h ⊢
  rw [hpc]
  omega

omit [DecidableEq P] [Fintype P] in
/-- A block is logged: it was logged already, or it takes one of the blocks
of its operation. -/
theorem length_absorb_add_slack_le (hr : s.Recorded) {p : P} {b : ℕ} {blocks : Finset ℕ}
    (hp : s.pc p = .logging blocks b) (hm : (insert b blocks).card ≤ MAXOPBLOCKS) :
    (Log.absorb s.log.lh b).length + slack (.inOp (insert b blocks))
      ≤ s.log.lh.length + slack (s.pc p) := by
  rw [hp]
  show _ + (MAXOPBLOCKS - (insert b blocks).card) ≤ _ + (MAXOPBLOCKS - blocks.card)
  by_cases hb : b ∈ s.log.lh
  · have hcard := Finset.card_le_card (Finset.subset_insert b blocks)
    have hlen : Log.absorb s.log.lh b = s.log.lh := if_pos hb
    rw [hlen]
    omega
  · have hnew : b ∉ blocks := fun hmem => hb ((hr.mem_lh b).mpr (.inr ⟨p, by rw [hp]; exact hmem⟩))
    have hlen := Log.length_absorb_le s.log.lh b
    rw [Finset.card_insert_of_notMem hnew] at hm ⊢
    omega

/-- **The reservation, one step.** -/
theorem Reserved.step (h : s.Reserved) (hs : s.Handshake) (hr : s.Recorded) {e : LogEvent P}
    {r : LogDone} (hm : s.WithinOpLimit e) (hstep : s.step a e = .ok (r, s')) : s'.Reserved := by
  cases moves_of_step hstep with
  | sleep hp =>
    refine h.move rfl ?_
    rcases hp with hp | hp <;> rw [hp] <;> exact Nat.le_refl _
  | @begin p hp hc hroom =>
    have hsum := sum_update slack s.pc p (.inOp ∅)
    have hle := s.sum_slack_le
    have hcount := hs.count
    have hnew : slack (.inOp ∅) = MAXOPBLOCKS := rfl
    show s.log.lh.length + ∑ q, slack (Function.update s.pc p (.inOp ∅) q) ≤ LOGSIZE
    rw [hcount] at hroom
    unfold MAXOPBLOCKS at *
    omega
  | test hp hbig =>
    refine h.move rfl ?_
    rw [hp]
    exact Nat.le_refl _
  | write hp => exact h.move rfl (length_absorb_add_slack_le hr hp (hm _ _ _ rfl hp))
  | endLast hp hc hlast => exact h.move rfl (Nat.le_add_right _ _)
  | endMore hp hc => exact h.move rfl (Nat.le_add_right _ _)
  | @commit p stage hp =>
    cases stage with
    | enter | writeLog | installTrans =>
      unfold commitStep
      dsimp only
      split <;> exact h.move rfl (by rw [hp]; exact Nat.le_refl _)
    | writeHead | erase | leave => exact h.move rfl (by rw [hp]; exact Nat.le_refl _)
    | reset => exact h.move rfl (by rw [hp]; exact Nat.zero_le _)

/-- **The reservation suffices**: while no operation logs more than
`MAXOPBLOCKS` blocks, the log never lists more than `LOGSIZE`, and no store
goes past `log.lh.block`. -/
theorem reserved_of_exec {l : Log} (hl : l.lh = []) {es : List (LogEvent P)}
    (hm : Machine.Along (LogState.step a) WithinOpLimit (start l) es) (h : (start l).exec a es = .ok s) :
    s.log.lh.length ≤ LOGSIZE ∧ ∀ e, s.WithinOpLimit e → s.step a e ≠ .error .overrun := by
  have hstart : (start l : LogState P).Reserved := by
    show l.lh.length + ∑ _ : P, 0 ≤ LOGSIZE
    rw [hl, Finset.sum_const_zero]
    exact Nat.zero_le _
  obtain ⟨hs, hr, hres⟩ := Machine.exec_invariant_along
    (I := fun s : LogState P => s.Handshake ∧ s.Recorded ∧ s.Reserved)
    (fun hs hm hstep => ⟨hs.1.step hstep, hs.2.1.step hs.1 hstep, hs.2.2.step hs.1 hs.2.1 hm hstep⟩)
    ⟨Handshake.start l, Recorded.start hl, hstart⟩ hm h
  refine ⟨(Nat.le_add_right _ _).trans hres, fun e hme hstep => ?_⟩
  cases halts_of_step hstep with
  | @overrun p b blocks hp hb hlen =>
    have hle := length_absorb_add_slack_le hr hp (hme p blocks b rfl hp)
    have hlen' : (Log.absorb s.log.lh b).length = s.log.lh.length + 1 := by
      unfold Log.absorb
      rw [if_neg hb, List.length_append, List.length_singleton]
    have hone : slack (s.pc p) ≤ ∑ q, slack (s.pc q) :=
      Finset.single_le_sum (f := fun q => slack (s.pc q)) (fun _ _ => Nat.zero_le _)
        (Finset.mem_univ p)
    unfold Reserved at hres
    omega

/-- In a log of one block more the three operations log `MAXOPBLOCKS` blocks
each, and these fill the header's list to its end. -/
theorem reserved_of_exec_fill_limit :
    ∃ s, (start (Log.reboot fun _ => Block.zero)).exec ⟨2, LOGSIZE + 1⟩
          (fill [(0, 10), (1, 10), (2, 10)]) = .ok s
      ∧ s.log.lh.length = LOGSIZE
      ∧ ∀ e, s.WithinOpLimit e → s.step ⟨2, LOGSIZE + 1⟩ e ≠ .error .overrun := by
  have hm : Machine.Along (step ⟨2, LOGSIZE + 1⟩) WithinOpLimit (start (Log.reboot fun _ => Block.zero))
      (fill [(0, 10), (1, 10), (2, 10)]) := by
    decide +kernel
  exact ⟨_, rfl, rfl, (reserved_of_exec rfl hm rfl).2⟩

end LogState

end Xv6
