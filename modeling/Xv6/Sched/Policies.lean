import Xv6.Sched.Runs

/-!
# Switching the policy

The two queues hand their processes to each other when the scheduling policy
changes. What a queue holds is read off by emptying it: `extractions` calls
`extractMin` until it returns null, `dequeues` calls `dequeue`. A switch into an
empty queue makes the one reading after it the other reading before it, a switch
into a queue with processes does nothing, and two switches there and back leave
both readings.
-/

namespace Xv6

variable {P : Type}

namespace SchedDS

/-- Call `extractMin` until it returns null, and collect what it returns. -/
def extractions : ℕ → SchedDS P → Option (List P)
  | 0, _ => none
  | calls + 1, s => do
    let (p, s) ← s.extractMinPriorityQueue
    match p with
    | none => return []
    | some p => return p :: (← extractions calls s)

/-- Call `dequeue` until it returns null, and collect what it returns. -/
def dequeues : ℕ → SchedDS P → Option (List P)
  | 0, _ => none
  | calls + 1, s =>
    match s.dequeueRoundRobinQueue with
    | (none, _) => some []
    | (some p, s) => (dequeues calls s).map (p :: ·)

variable {s : SchedDS P} {q : Queues P}

/-- `extractMin` returns the processes of the entries, in order. -/
theorem extractions_eq (h : s.Refines q) {calls : ℕ} (hc : q.pq.length < calls) :
    s.extractions calls = some (q.pq.map Prod.snd) := by
  induction calls generalizing s q with
  | zero => exact absurd hc (Nat.not_lt_zero _)
  | succ calls ih =>
    obtain ⟨s', hext, hs'⟩ := extractMinPriorityQueue_refines h
    obtain ⟨pq, rrq, rp⟩ := q
    unfold extractions
    rw [hext]
    cases pq with
    | nil => rfl
    | cons e es =>
      have hrest : s'.extractions calls = some (es.map Prod.snd) :=
        ih hs' (Nat.lt_of_succ_lt_succ hc)
      show (s'.extractions calls).bind _ = _
      rw [hrest]
      rfl

/-- `dequeue` returns the processes of the queue, in order. -/
theorem dequeues_eq (h : s.Refines q) {calls : ℕ} (hc : q.rrq.length < calls) :
    s.dequeues calls = some q.rrq := by
  induction calls generalizing s q with
  | zero => exact absurd hc (Nat.not_lt_zero _)
  | succ calls ih =>
    obtain ⟨hp, hs'⟩ := dequeueRoundRobinQueue_refines h
    obtain ⟨pq, rrq, rp⟩ := q
    unfold dequeues
    rw [show s.dequeueRoundRobinQueue = (_, s.dequeueRoundRobinQueue.2) from Prod.ext hp rfl]
    cases rrq with
    | nil => rfl
    | cons p ps =>
      have hrest : dequeues calls s.dequeueRoundRobinQueue.2 = some ps :=
        ih hs' (Nat.lt_of_succ_lt_succ hc)
      show (dequeues calls s.dequeueRoundRobinQueue.2).map _ = _
      rw [hrest]
      rfl

/-- **What `pq` holds**: the processes `extractMin` returns, one after the other. -/
def pqOrder (s : SchedDS P) : Option (List P) := s.extractions (NPROCLIST + 1)

/-- **What `rrq` holds**: the processes `dequeue` returns, one after the other. -/
def rrqOrder (s : SchedDS P) : Option (List P) := s.dequeues (NPROCLIST + 1)

variable (h : s.Refines q)

include h

/-- The queues fit into the pool of links. -/
theorem Refines.size_le : q.size ≤ NPROCLIST := by
  obtain ⟨g, hg, rfl⟩ := h
  have hlen := hg.length_links
  omega

theorem Refines.pqOrder : s.pqOrder = some (q.pq.map Prod.snd) := by
  have hle := h.size_le
  unfold Queues.size at hle
  exact extractions_eq h (by omega)

theorem Refines.rrqOrder : s.rrqOrder = some q.rrq := by
  have hle := h.size_le
  unfold Queues.size at hle
  exact dequeues_eq h (by omega)

/-! ## One switch -/

/-- A switch into an empty `rrq`. -/
theorem switchToRoundRobin_of_empty (hr : q.rrq = []) :
    ∃ s', s.switchToRoundRobinPolicyPriorityQueue = some (true, s')
      ∧ s'.Refines ⟨[], q.pq.map Prod.snd, q.rp⟩ := by
  obtain ⟨s', hsw, hs'⟩ := switchToRoundRobinPolicyPriorityQueue_refines h
  unfold Queues.switchToRoundRobin at hsw hs'
  rw [if_pos hr] at hsw hs'
  exact ⟨s', hsw, hs'⟩

/-- A switch into an `rrq` with processes. -/
theorem switchToRoundRobin_of_nonempty (hr : q.rrq ≠ []) :
    s.switchToRoundRobinPolicyPriorityQueue = some (false, s) := by
  obtain ⟨g, hg, rfl⟩ := h
  have hne : ¬ s.roundRobinQ.isEmpty = true := fun hem =>
    hr (List.map_eq_nil_iff.mpr (hg.rrq.isEmpty_iff.mp hem))
  unfold switchToRoundRobinPolicyPriorityQueue Map.transfer
  rw [Bool.eq_false_iff.mpr hne]
  rfl

/-- A switch into an empty `pq`. -/
theorem switchToPriorityQueue_of_empty (hp : q.pq = []) :
    ∃ s', s.switchToPriorityQueuePolicyRoundRobinQueue = (true, s')
      ∧ s'.Refines ⟨q.rrq.map (fun p => (0, p)), [], q.rp⟩ := by
  obtain ⟨hok, hs'⟩ := switchToPriorityQueuePolicyRoundRobinQueue_refines h
  unfold Queues.switchToPriorityQueue at hok hs'
  rw [if_pos hp] at hok hs'
  exact ⟨_, Prod.ext hok rfl, hs'⟩

/-- A switch into a `pq` with processes. -/
theorem switchToPriorityQueue_of_nonempty (hp : q.pq ≠ []) :
    s.switchToPriorityQueuePolicyRoundRobinQueue = (false, s) := by
  have hne : s.priorityQ.isEmpty = false :=
    (isEmptyPriorityQueue_refines h).trans (decide_eq_false hp)
  unfold switchToPriorityQueuePolicyRoundRobinQueue LinkedList.transfer
  rw [hne]
  rfl

theorem isEmptyRoundRobinQueue_refines :
    s.isEmptyRoundRobinQueue = decide (q.rrq = []) := by
  obtain ⟨g, hg, rfl⟩ := h
  unfold isEmptyRoundRobinQueue
  rw [Bool.eq_iff_iff, decide_eq_true_iff, hg.rrq.isEmpty_iff]
  exact List.map_eq_nil_iff.symm

end SchedDS

variable [DecidableEq P]

/-- **A policy switch moves every process and keeps the order**, after any
sequence of calls that leaves `ps` in `pq` and `rs` in `rrq`. The last two parts
are the switches there and back. -/
theorem switch_moves_all (cs : List (Call P)) :
    ∃ s ps rs, runCalls cs initSchedDS = some s ∧ s.pqOrder = some ps ∧ s.rrqOrder = some rs
      ∧ (s.isEmptyRoundRobinQueue = true →
        ∃ s', s.switchToRoundRobinPolicyPriorityQueue = some (true, s')
          ∧ s'.isEmptyPriorityQueue = true ∧ s'.rrqOrder = some ps)
      ∧ (s.isEmptyRoundRobinQueue = false →
        s.switchToRoundRobinPolicyPriorityQueue = some (false, s))
      ∧ (s.isEmptyPriorityQueue = true →
        ∃ s', s.switchToPriorityQueuePolicyRoundRobinQueue = (true, s')
          ∧ s'.isEmptyRoundRobinQueue = true ∧ s'.pqOrder = some rs
          ∧ (s.isEmptyRoundRobinQueue = false →
            s'.getMinAccumulatorPriorityQueue = some (some 0)))
      ∧ (s.isEmptyPriorityQueue = false →
        s.switchToPriorityQueuePolicyRoundRobinQueue = (false, s))
      ∧ (s.isEmptyPriorityQueue = true →
        ∃ s', s.switchToPriorityQueuePolicyRoundRobinQueue.2.switchToRoundRobinPolicyPriorityQueue
            = some (true, s')
          ∧ s'.isEmptyPriorityQueue = true ∧ s'.rrqOrder = some rs)
      ∧ (s.isEmptyRoundRobinQueue = true →
        ∃ s' s'', s.switchToRoundRobinPolicyPriorityQueue = some (true, s')
          ∧ s'.switchToPriorityQueuePolicyRoundRobinQueue = (true, s'')
          ∧ s''.isEmptyRoundRobinQueue = true ∧ s''.pqOrder = some ps) := by
  obtain ⟨s, hs, h⟩ := runCalls_refines cs SchedDS.initSchedDS_refines
  generalize cs.foldl (fun q c => c.apply q) Queues.empty = q at h
  have hpq := SchedDS.isEmptyPriorityQueue_refines h
  have hrrq := SchedDS.isEmptyRoundRobinQueue_refines h
  refine ⟨s, _, _, hs, h.pqOrder, h.rrqOrder, fun hr => ?_, fun hr => ?_, fun hp => ?_,
    fun hp => ?_, fun hp => ?_, fun hr => ?_⟩
  · rw [hrrq, decide_eq_true_iff] at hr
    obtain ⟨s', hsw, hs'⟩ := SchedDS.switchToRoundRobin_of_empty h hr
    exact ⟨s', hsw, SchedDS.isEmptyPriorityQueue_refines hs', hs'.rrqOrder⟩
  · rw [hrrq, decide_eq_false_iff_not] at hr
    exact SchedDS.switchToRoundRobin_of_nonempty h hr
  · rw [hpq, decide_eq_true_iff] at hp
    obtain ⟨s', hsw, hs'⟩ := SchedDS.switchToPriorityQueue_of_empty h hp
    refine ⟨s', hsw, SchedDS.isEmptyRoundRobinQueue_refines hs', ?_, fun hr => ?_⟩
    · rw [hs'.pqOrder, List.map_map]
      exact congrArg some (List.map_id _)
    · rw [hrrq, decide_eq_false_iff_not] at hr
      obtain ⟨p, ps, hcons⟩ := List.exists_cons_of_ne_nil hr
      rw [SchedDS.getMinAccumulatorPriorityQueue_refines hs', hcons]
      rfl
  · rw [hpq, decide_eq_false_iff_not] at hp
    exact SchedDS.switchToPriorityQueue_of_nonempty h hp
  · rw [hpq, decide_eq_true_iff] at hp
    obtain ⟨s', hsw, hs'⟩ := SchedDS.switchToPriorityQueue_of_empty h hp
    obtain ⟨s'', hsw', hs''⟩ := SchedDS.switchToRoundRobin_of_empty hs' rfl
    rw [hsw]
    refine ⟨s'', hsw', SchedDS.isEmptyPriorityQueue_refines hs'', ?_⟩
    rw [hs''.rrqOrder, List.map_map]
    exact congrArg some (List.map_id _)
  · rw [hrrq, decide_eq_true_iff] at hr
    obtain ⟨s', hsw, hs'⟩ := SchedDS.switchToRoundRobin_of_empty h hr
    obtain ⟨s'', hsw', hs''⟩ := SchedDS.switchToPriorityQueue_of_empty hs' rfl
    refine ⟨s', s'', hsw, hsw', SchedDS.isEmptyRoundRobinQueue_refines hs'', ?_⟩
    rw [hs''.pqOrder, List.map_map]
    exact congrArg some (List.map_id _)

end Xv6
