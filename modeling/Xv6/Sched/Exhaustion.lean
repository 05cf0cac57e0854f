import Xv6.Sched.Runs

/-!
# Full and nearly full pools

The three structures share the links, and the tree takes its nodes from a
second pool. An insertion is refused when the links are used up and never for
want of a node, and a refused one leaves everything where it was. `extractProc`
rebuilds the whole tree out of the two pools; it refuses to start without a free
node, and once it has started no insertion it makes is refused.
-/

namespace Xv6

variable {P : Type}

namespace SchedDS

variable {s : SchedDS P} {g : Layout P}

/-- **An insertion that fails for want of a link alone**: it returns false
exactly when all links are in use, and then leaves the layout – what is in the
three structures, in which order, and the two free lists – as it was. -/
def FailsWhenFull (g : Layout P) (r : Option (Bool × SchedDS P)) : Prop :=
  ∃ ok s', r = some (ok, s') ∧ (ok = false ↔ g.queues.size = NPROCLIST)
    ∧ (ok = false → s'.Rep g)

/-- All links are in use when none is free. -/
theorem Rep.freeLinks_eq_nil_iff (h : s.Rep g) :
    g.freeLinks = [] ↔ g.queues.size = NPROCLIST := by
  have hlen := h.length_links
  rw [← List.length_eq_zero_iff]
  omega

/-- With a free link there is a free node. -/
theorem Rep.freeLinks_eq_nil_of_freeNodes (h : s.Rep g) (hfn : g.freeNodes = []) :
    g.freeLinks = [] := by
  cases hfl : g.freeLinks with
  | nil => rfl
  | cons a fl =>
    obtain ⟨b, fn, hcons⟩ := h.exists_freeNode hfl
    exact absurd (hcons.symm.trans hfn) (List.cons_ne_nil b fn)

/-- An insertion that succeeds when there is room, and without a free link
returns false and keeps the layout, fails when full. -/
theorem failsWhenFull_of {r : Option (Bool × SchedDS P)} (h : s.Rep g)
    (hroom : g.queues.size < NPROCLIST → ∃ s', r = some (true, s'))
    (hfull : g.freeLinks = [] → ∃ s', r = some (false, s') ∧ s'.Rep g) : FailsWhenFull g r := by
  have hlen := h.length_links
  by_cases hfl : g.freeLinks = []
  · obtain ⟨s', hr, hrep⟩ := hfull hfl
    exact ⟨false, s', hr, iff_of_true rfl (h.freeLinks_eq_nil_iff.mp hfl), fun _ => hrep⟩
  · obtain ⟨s', hr⟩ := hroom (h.size_lt_iff.mpr hfl)
    refine ⟨true, s', hr, iff_of_false Bool.true_eq_false_eq_False ?_, fun h => nomatch h⟩
    exact fun hsize => hfl (h.freeLinks_eq_nil_iff.mpr hsize)

theorem putPriorityQueue_failsWhenFull (h : s.Rep g) (acc : P → ℤ) (p : P) :
    FailsWhenFull g (s.putPriorityQueue acc p) := by
  refine failsWhenFull_of h (fun hroom => ?_)
    (fun hfl => putPriorityQueue_of_free_nil h hfl acc p)
  obtain ⟨s', hput, -⟩ := putPriorityQueue_refines ⟨g, h, rfl⟩ acc p
  unfold Queues.put at hput
  rw [if_pos hroom] at hput
  exact ⟨s', hput⟩

theorem enqueueRoundRobinQueue_failsWhenFull (h : s.Rep g) (p : P) :
    FailsWhenFull g (s.enqueueRoundRobinQueue p) := by
  refine failsWhenFull_of h (fun hroom => ?_) (fun hfl => ⟨s, ?_, h⟩)
  · obtain ⟨s', henq, -⟩ := enqueueRoundRobinQueue_refines ⟨g, h, rfl⟩ p
    unfold Queues.enqueue at henq
    rw [if_pos hroom] at henq
    exact ⟨s', henq⟩
  · unfold enqueueRoundRobinQueue
    rw [LinkedList.enqueue_of_free_nil (hfl ▸ h.free.links)]
    rfl

theorem addRunningProcessHolder_failsWhenFull (h : s.Rep g) (p : P) :
    FailsWhenFull g (s.addRunningProcessHolder p) := by
  refine failsWhenFull_of h (fun hroom => ?_) (fun hfl => ⟨s, ?_, h⟩)
  · obtain ⟨s', hadd, -⟩ := addRunningProcessHolder_refines ⟨g, h, rfl⟩ p
    unfold Queues.add at hadd
    rw [if_pos hroom] at hadd
    exact ⟨s', hadd⟩
  · unfold addRunningProcessHolder
    rw [LinkedList.enqueue_of_free_nil (hfl ▸ h.free.links)]
    rfl

end SchedDS

variable [DecidableEq P]

/-- **Insertions fail only when the links are used up, and then change nothing**,
after any sequence of calls. Nodes run out only together with the links. -/
theorem insertions_failWhenFull (cs : List (Call P)) :
    ∃ s g, runCalls cs initSchedDS = some s ∧ s.Rep g
      ∧ (g.freeNodes = [] → g.freeLinks = [])
      ∧ ∀ (acc : P → ℤ) (p : P), SchedDS.FailsWhenFull g (s.putPriorityQueue acc p)
        ∧ SchedDS.FailsWhenFull g (s.enqueueRoundRobinQueue p)
        ∧ SchedDS.FailsWhenFull g (s.addRunningProcessHolder p) := by
  obtain ⟨s, hs, g, hg, -⟩ := runCalls_refines cs SchedDS.initSchedDS_refines
  exact ⟨s, g, hs, hg, hg.freeLinks_eq_nil_of_freeNodes, fun acc p =>
    ⟨SchedDS.putPriorityQueue_failsWhenFull hg acc p,
      SchedDS.enqueueRoundRobinQueue_failsWhenFull hg p,
      SchedDS.addRunningProcessHolder_failsWhenFull hg p⟩⟩

/-! ## Taking one process out -/

/-- An entry under the process's present accumulator. -/
def present (acc : P → ℤ) (e : ℤ × P) : ℤ × P := (acc e.2, e.2)

/-- The drain puts every other entry back, once. -/
theorem rekey_perm (acc : P → ℤ) (p : P) (es : List (ℤ × P)) :
    (rekey acc p es []).Perm ((es.filter (fun e => e.2 ≠ p)).map (present acc)) := by
  have hfold : ∀ (l q : List (ℤ × P)),
      (l.foldl (fun q e => StableQueue.put (acc e.2) e.2 q) q).Perm
        (l.map (present acc) ++ q) := by
    intro l
    induction l with
    | nil => exact fun q => List.Perm.refl q
    | cons e l ih =>
      intro q
      refine (ih _).trans ?_
      refine ((StableQueue.perm_put (acc e.2) e.2 q).append_left _).trans ?_
      exact List.perm_middle
  unfold rekey
  exact (hfold _ []).trans (List.Perm.of_eq (List.append_nil _))

/-- The drain keeps the order of entries that stand under their present keys. -/
theorem rekey_eq_filter {acc : P → ℤ} {es : List (ℤ × P)} (p : P) (hs : StableQueue.Sorted es)
    (hkey : ∀ e ∈ es, e.1 = acc e.2) : rekey acc p es [] = es.filter (fun e => e.2 ≠ p) := by
  have hfold : ∀ (l q : List (ℤ × P)), StableQueue.Sorted (q ++ l) →
      (∀ e ∈ l, e.1 = acc e.2) →
      l.foldl (fun q e => StableQueue.put (acc e.2) e.2 q) q = q ++ l := by
    intro l
    induction l with
    | nil => exact fun q _ _ => (List.append_nil q).symm
    | cons e l ih =>
      intro q hsort hk
      have he : (acc e.2, e.2) = e := Prod.ext (hk e List.mem_cons_self).symm rfl
      -- nothing before `e` has a larger key, so the put is an append
      have hput : StableQueue.put (acc e.2) e.2 q = q ++ [e] := by
        have hle : ∀ x ∈ q, x.1 ≤ acc e.2 := fun x hx => by
          rw [← hk e List.mem_cons_self]
          exact (List.pairwise_append.mp hsort).2.2 x hx e List.mem_cons_self
        have happ := StableQueue.put_append_of_le e.2 [] hle
        rw [List.append_nil] at happ
        rw [happ, StableQueue.put_nil, he]
      rw [List.foldl_cons, hput, ih (q ++ [e]) (by simpa using hsort)
        (fun x hx => hk x (List.mem_cons_of_mem e hx)), List.append_assoc]
      rfl
  unfold rekey
  refine hfold _ [] (List.Pairwise.sublist List.filter_sublist hs) (fun e he => ?_)
  exact hkey e (List.mem_filter.mp he).1

/-- **`extractProc` takes out one process and loses nothing**, after any sequence
of calls. With a free node it returns whether the process was in `pq`; `pq` then
holds the other entries, as often as before and under their present accumulators,
in the old order if they stood under those already; and the loop that gives up at
the first refused `tempMap.put` does the same as the one that ignores the results.
Without a free node it returns false and changes nothing. -/
theorem extractProc_removes_exactly (cs : List (Call P)) :
    ∃ s g, runCalls cs initSchedDS = some s ∧ s.Rep g ∧ ∀ (acc : P → ℤ) (p : P),
      (s.mem.nodePool.freeNodes ≠ none →
        (∃ ok s' g', s.extractProcPriorityQueue acc p = some (ok, s') ∧ s'.Rep g'
          ∧ (ok = true ↔ p ∈ g.queues.pq.map Prod.snd)
          ∧ g'.queues.pq.Perm ((g.queues.pq.filter (fun e => e.2 ≠ p)).map (present acc))
          ∧ StableQueue.Sorted g'.queues.pq
          ∧ g'.queues.rrq = g.queues.rrq ∧ g'.queues.rp = g.queues.rp
          ∧ ((∀ e ∈ g.queues.pq, e.1 = acc e.2) →
            g'.queues.pq = g.queues.pq.filter (fun e => e.2 ≠ p)))
        ∧ Map.extractProcStrict acc p NPROCLIST s.priorityQ Map.empty false s.mem
          = s.priorityQ.extractProc acc p s.mem)
      ∧ (s.mem.nodePool.freeNodes = none →
        s.extractProcPriorityQueue acc p = some (false, s)) := by
  obtain ⟨s, hs, g, hg, -⟩ := runCalls_refines cs SchedDS.initSchedDS_refines
  refine ⟨s, g, hs, hg, fun acc p => ⟨fun hfree => ⟨?_, ?_⟩, fun hnone => ?_⟩⟩
  · have hroom : g.queues.keysInUse < NPROCMAP := by
      have hlen := hg.length_nodes
      rw [SchedDS.length_nodes_eq_keysInUse hg] at hlen
      have hpos : g.freeNodes.length ≠ 0 := fun hz => hfree (by
        have hseg := hg.free.nodes.seg
        rw [List.length_eq_zero_iff.mp hz] at hseg
        exact hseg)
      omega
    obtain ⟨s', hext, g', hg', hq⟩ :=
      SchedDS.extractProcPriorityQueue_refines ⟨g, hg, rfl⟩ acc p
    unfold Queues.extractProc at hext hq
    rw [if_pos hroom] at hext hq
    refine ⟨_, s', g', hext, hg', decide_eq_true_iff, ?_, hg'.ordered.sorted, ?_, ?_, fun hkey => ?_⟩
    all_goals rw [hq]
    · exact rekey_perm acc p g.queues.pq
    · exact rekey_eq_filter p hg.ordered.sorted hkey
  · obtain ⟨T', m', t', fl', fn', -, hstrict, -⟩ := hg.extractProcLoop acc p
    unfold Map.extractProc
    rw [hstrict, if_neg (by rwa [Option.isNone_iff_eq_none])]
  · unfold SchedDS.extractProcPriorityQueue Map.extractProc
    rw [hnone]
    rfl

end Xv6
