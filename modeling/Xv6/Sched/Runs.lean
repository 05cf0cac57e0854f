import Xv6.Sched.Queues

/-!
# Runs of the scheduling structures

Any sequence of calls of the three interfaces, in any order, with any
processes and with accumulators that change between the calls as they
like. Each call terminates and keeps the representation invariant
(`Call.run_refines`), so every state a sequence reaches from `initSchedDS`
has it.

Restricted to the priority queue, a sequence of calls is also compared
value by value with a reference that is nothing but a list of keyed
processes kept in extraction order.
-/

namespace Xv6

variable {P : Type} [DecidableEq P]

/-- **A call that changes the structures.** `acc` gives the accumulators at
the time of the call. -/
inductive Call (P : Type) where
  | put (acc : P → ℤ) (p : P)
  | extractMin
  | extractProc (acc : P → ℤ) (p : P)
  | switchToRoundRobinPolicy
  | enqueue (p : P)
  | dequeue
  | switchToPriorityQueuePolicy
  | add (p : P)
  | remove (p : P)

/-- What a call does to the structures. -/
def Call.run : Call P → SchedDS P → Option (SchedDS P)
  | put acc p, s => (s.putPriorityQueue acc p).map Prod.snd
  | extractMin, s => s.extractMinPriorityQueue.map Prod.snd
  | extractProc acc p, s => (s.extractProcPriorityQueue acc p).map Prod.snd
  | switchToRoundRobinPolicy, s => s.switchToRoundRobinPolicyPriorityQueue.map Prod.snd
  | enqueue p, s => (s.enqueueRoundRobinQueue p).map Prod.snd
  | dequeue, s => some s.dequeueRoundRobinQueue.2
  | switchToPriorityQueuePolicy, s => some s.switchToPriorityQueuePolicyRoundRobinQueue.2
  | add p, s => (s.addRunningProcessHolder p).map Prod.snd
  | remove p, s => (s.removeRunningProcessHolder p).map Prod.snd

/-- What a call does to the queues. -/
def Call.apply : Call P → Queues P → Queues P
  | put acc p, q => (q.put (acc p) p).2
  | extractMin, q => q.extractMin.2
  | extractProc acc p, q => (q.extractProc acc p).2
  | switchToRoundRobinPolicy, q => q.switchToRoundRobin.2
  | enqueue p, q => (q.enqueue p).2
  | dequeue, q => q.dequeue.2
  | switchToPriorityQueuePolicy, q => q.switchToPriorityQueue.2
  | add p, q => (q.add p).2
  | remove p, q => (q.remove p).2

variable {s : SchedDS P} {q : Queues P}

/-- **A call terminates and refines its counterpart on the queues.** -/
theorem Call.run_refines (c : Call P) (h : s.Refines q) :
    ∃ s', c.run s = some s' ∧ s'.Refines (c.apply q) := by
  have key : ∀ {α : Type} {o : Option (α × SchedDS P)} {r : α} {q' : Queues P},
      (∃ s', o = some (r, s') ∧ s'.Refines q') → ∃ s', o.map Prod.snd = some s' ∧ s'.Refines q' := by
    rintro α o r q' ⟨s', rfl, hs'⟩
    exact ⟨s', rfl, hs'⟩
  cases c with
  | put acc p => exact key (SchedDS.putPriorityQueue_refines h acc p)
  | extractMin => exact key (SchedDS.extractMinPriorityQueue_refines h)
  | extractProc acc p => exact key (SchedDS.extractProcPriorityQueue_refines h acc p)
  | switchToRoundRobinPolicy => exact key (SchedDS.switchToRoundRobinPolicyPriorityQueue_refines h)
  | enqueue p => exact key (SchedDS.enqueueRoundRobinQueue_refines h p)
  | dequeue => exact ⟨_, rfl, (SchedDS.dequeueRoundRobinQueue_refines h).2⟩
  | switchToPriorityQueuePolicy =>
    exact ⟨_, rfl, (SchedDS.switchToPriorityQueuePolicyRoundRobinQueue_refines h).2⟩
  | add p => exact key (SchedDS.addRunningProcessHolder_refines h p)
  | remove p => exact key (SchedDS.removeRunningProcessHolder_refines h p)

/-- A sequence of calls, one after the other. -/
def runCalls : List (Call P) → SchedDS P → Option (SchedDS P)
  | [], s => some s
  | c :: cs, s => do
    let s ← c.run s
    runCalls cs s

/-- A run refines the run on the queues. -/
theorem runCalls_refines (cs : List (Call P)) (h : s.Refines q) :
    ∃ s', runCalls cs s = some s' ∧ s'.Refines (cs.foldl (fun q c => c.apply q) q) := by
  induction cs generalizing s q with
  | nil => exact ⟨s, rfl, h⟩
  | cons c cs ih =>
    obtain ⟨s₁, hc, h₁⟩ := c.run_refines h
    obtain ⟨s', hcs, h'⟩ := ih h₁
    refine ⟨s', ?_, h'⟩
    unfold runCalls
    rw [hc]
    exact hcs

/-- **The representation invariant holds after any sequence of calls.** No
call dereferences a null pointer or loops, and in the state reached the
nodes in use form a search tree whose pointers match and whose lists are
not empty, `last` is right in every list, and every link and every node is
in exactly one place. -/
theorem runCalls_initSchedDS_rep (cs : List (Call P)) :
    ∃ s g, runCalls cs initSchedDS = some s ∧ s.Rep g := by
  obtain ⟨s, hs, g, hg, -⟩ := runCalls_refines cs SchedDS.initSchedDS_refines
  exact ⟨s, g, hs, hg⟩

/-! ## The priority queue against a list -/

/-- A call of the priority queue. -/
inductive PqCall (P : Type) where
  | put (acc : P → ℤ) (p : P)
  | extractMin
  | isEmpty
  | getMinAccumulator

/-- What a call returns. -/
inductive PqResult (P : Type) where
  | bool (b : Bool)
  | proc (p : Option P)
  | key (k : Option ℤ)

/-- A call on the structures. -/
def PqCall.run : PqCall P → SchedDS P → Option (PqResult P × SchedDS P)
  | put acc p, s => do
    let (ok, s) ← s.putPriorityQueue acc p
    return (.bool ok, s)
  | extractMin, s => do
    let (p, s) ← s.extractMinPriorityQueue
    return (.proc p, s)
  | isEmpty, s => some (.bool s.isEmptyPriorityQueue, s)
  | getMinAccumulator, s => do
    let k ← s.getMinAccumulatorPriorityQueue
    return (.key k, s)

/-- **The reference**: a list of keyed processes, of which `room` fit. A put
goes behind all entries with an equal or smaller key, or is refused and
changes nothing; an extraction takes the head. -/
def PqCall.reference (room : ℕ) : PqCall P → List (ℤ × P) → PqResult P × List (ℤ × P)
  | put acc p, q =>
    if q.length < room then (.bool true, StableQueue.put (acc p) p q) else (.bool false, q)
  | extractMin, q => (.proc (q.head?.map Prod.snd), q.tail)
  | isEmpty, q => (.bool (decide (q = [])), q)
  | getMinAccumulator, q => (.key (q.head?.map Prod.fst), q)

/-- The results of a sequence of calls on the structures. -/
def runPqCalls : List (PqCall P) → SchedDS P → Option (List (PqResult P) × SchedDS P)
  | [], s => some ([], s)
  | c :: cs, s => do
    let (r, s) ← c.run s
    let (rs, s) ← runPqCalls cs s
    return (r :: rs, s)

/-- The results of a sequence of calls on the reference, and the list it ends with. -/
def referencePqCalls (room : ℕ) :
    List (PqCall P) → List (ℤ × P) → List (PqResult P) × List (ℤ × P)
  | [], q => ([], q)
  | c :: cs, q =>
    let (r, q) := c.reference room q
    let (rs, q) := referencePqCalls room cs q
    (r :: rs, q)

omit [DecidableEq P] in
/-- The reference stays sorted by key. -/
theorem sorted_referencePqCalls (room : ℕ) (cs : List (PqCall P)) {q : List (ℤ × P)}
    (h : StableQueue.Sorted q) : StableQueue.Sorted (referencePqCalls room cs q).2 := by
  induction cs generalizing q with
  | nil => exact h
  | cons c cs ih =>
    refine ih ?_
    cases c with
    | put acc p =>
      show StableQueue.Sorted (if q.length < room then
        (PqResult.bool true, StableQueue.put (acc p) p q) else (PqResult.bool false, q)).2
      by_cases hroom : q.length < room
      · rw [if_pos hroom]
        exact h.put (acc p) p
      · rw [if_neg hroom]
        exact h
    | extractMin => exact List.Pairwise.sublist (List.tail_sublist q) h
    | isEmpty => exact h
    | getMinAccumulator => exact h

omit [DecidableEq P] in
/-- One call returns what the reference returns, and the queue goes on
refining it. The other two structures stay as they are. -/
theorem PqCall.run_reference (c : PqCall P) (h : s.Refines q) :
    let r := c.reference (NPROCLIST - (q.rrq.length + q.rp.length)) q.pq
    ∃ s', c.run s = some (r.1, s') ∧ s'.Refines { q with pq := r.2 } := by
  cases c with
  | put acc p =>
    obtain ⟨s', hput, hs'⟩ := SchedDS.putPriorityQueue_refines h acc p
    refine ⟨s', ?_, ?_⟩
    all_goals
      unfold PqCall.reference
      unfold Queues.put Queues.size at hput hs'
      by_cases hroom : q.pq.length < NPROCLIST - (q.rrq.length + q.rp.length)
    · rw [if_pos (show _ < NPROCLIST by omega)] at hput
      simp only [if_pos hroom, PqCall.run, hput]
      rfl
    · rw [if_neg (show ¬ _ < NPROCLIST by omega)] at hput
      simp only [if_neg hroom, PqCall.run, hput]
      rfl
    · rw [if_pos (show _ < NPROCLIST by omega)] at hs'
      simpa only [if_pos hroom] using hs'
    · rw [if_neg (show ¬ _ < NPROCLIST by omega)] at hs'
      simpa only [if_neg hroom] using hs'
  | extractMin =>
    obtain ⟨s', hext, hs'⟩ := SchedDS.extractMinPriorityQueue_refines h
    have hq : q.extractMin = (q.pq.head?.map Prod.snd, { q with pq := q.pq.tail }) := by
      obtain ⟨_ | ⟨e, es⟩, _, _⟩ := q <;> rfl
    rw [hq] at hext hs'
    refine ⟨s', ?_, hs'⟩
    unfold PqCall.run
    simp only [hext]
    rfl
  | isEmpty =>
    refine ⟨s, ?_, h⟩
    show some (PqResult.bool s.isEmptyPriorityQueue, s) = _
    rw [SchedDS.isEmptyPriorityQueue_refines h]
    rfl
  | getMinAccumulator =>
    refine ⟨s, ?_, h⟩
    unfold PqCall.run
    simp only [SchedDS.getMinAccumulatorPriorityQueue_refines h]
    rfl

omit [DecidableEq P] in
/-- A sequence of calls returns what the reference returns. -/
theorem runPqCalls_reference (cs : List (PqCall P)) (h : s.Refines q) :
    ∃ s', runPqCalls cs s
      = some ((referencePqCalls (NPROCLIST - (q.rrq.length + q.rp.length)) cs q.pq).1, s') := by
  induction cs generalizing s q with
  | nil => exact ⟨s, rfl⟩
  | cons c cs ih =>
    obtain ⟨s₁, hc, h₁⟩ := c.run_reference h
    obtain ⟨s', hcs⟩ := ih h₁
    refine ⟨s', ?_⟩
    unfold runPqCalls referencePqCalls
    simp only [hc, hcs, Option.bind_eq_bind, Option.bind_some]
    rfl

/-- **The priority queue refines a stable priority queue.** From any state
the structures can be in with the queue empty, every sequence of calls
returns what the reference list returns, the list having room for as many
entries as there are free links; and the reference is sorted by key at the
end of the sequence, whichever it is. -/
theorem runPqCalls_eq_reference (before : List (Call P)) (s : SchedDS P)
    (hs : runCalls before initSchedDS = some s) (he : s.isEmptyPriorityQueue = true)
    (cs : List (PqCall P)) :
    ∃ s' fl, s.mem.linkPool.Free fl
      ∧ runPqCalls cs s = some ((referencePqCalls fl.length cs []).1, s')
      ∧ StableQueue.Sorted (referencePqCalls fl.length cs []).2 := by
  obtain ⟨s₀, hs₀, h⟩ := runCalls_refines before SchedDS.initSchedDS_refines
  obtain rfl : s = s₀ := Option.some.inj (hs.symm.trans hs₀)
  generalize before.foldl (fun q c => c.apply q) Queues.empty = q at h
  rw [SchedDS.isEmptyPriorityQueue_refines h, decide_eq_true_iff] at he
  obtain ⟨s', hrun⟩ := runPqCalls_reference cs h
  obtain ⟨g, hg, rfl⟩ := h
  refine ⟨s', g.freeLinks, hg.free.links, ?_,
    sorted_referencePqCalls _ cs List.Pairwise.nil⟩
  have hlen := hg.length_links
  unfold Queues.size at hlen
  rw [he] at hrun hlen
  rw [hrun, show NPROCLIST - (g.queues.rrq.length + g.queues.rp.length) = g.freeLinks.length by
    simp only [List.length_nil] at hlen
    omega]

/-- From `initSchedDS`, with two processes of equal key. -/
theorem runPqCalls_eq_reference_of_nil :
    let cs : List (PqCall Bool) :=
      [.put (fun _ => 3) true, .put (fun _ => 3) false, .extractMin, .getMinAccumulator]
    ∃ s' fl, (initSchedDS : SchedDS Bool).mem.linkPool.Free fl
      ∧ runPqCalls cs initSchedDS = some ((referencePqCalls fl.length cs []).1, s')
      ∧ StableQueue.Sorted (referencePqCalls fl.length cs []).2 :=
  runPqCalls_eq_reference [] initSchedDS rfl rfl _

end Xv6
