import Xv6.Proc.Ready

/-!
# `get_min`

A process that becomes `RUNNABLE` gets the accumulator that `get_min` returns,
which should be the least among those that compete for the CPU: the keys in `pq`
and the accumulators of the processes in `rpholder`. The function asks whether
`pq` is empty first and then returns 0 without a look at `rpholder`, so with an
empty ready queue the running processes do not count.
-/

namespace Xv6

/-- The first key of a sorted queue is its least. -/
theorem StableQueue.Sorted.min?_keys {V : Type} {q : List (ℤ × V)} (h : StableQueue.Sorted q) :
    (q.map Prod.fst).min? = q.head?.map Prod.fst := by
  cases q with
  | nil => rfl
  | cons e q =>
    refine List.min?_eq_some_iff.mpr ⟨List.mem_cons_self, fun a ha => ?_⟩
    obtain ⟨x, hx, rfl⟩ := List.mem_map.mp ha
    rcases List.mem_cons.mp hx with rfl | hx
    · exact le_refl _
    · exact (List.pairwise_cons.mp h).1 x hx

namespace Kernel

variable {D : Type} {n : ℕ} [Scheduling D Slot] [LawfulScheduling D]

/-- The accumulators of the running processes. -/
def running (k : Kernel D n) : List ℤ := k.queues.rp.map k.getAccumulator

/-- **What competes for the CPU**: the keys in `pq` and the accumulators of the
processes in `rpholder`. -/
def competing (k : Kernel D n) : List ℤ := k.queues.pq.map Prod.fst ++ k.running

/-- `get_min` in terms of the two minima. -/
theorem getMin_eq (k : Kernel D n) :
    k.getMin = if k.queues.pq = [] then 0
      else if k.queues.rp = [] then ((k.queues.pq.map Prod.fst).min?).getD 0
      else min (((k.queues.pq.map Prod.fst).min?).getD 0) (k.running.min?.getD 0) := by
  have hpq : Scheduling.pqIsEmpty k.ds = decide (k.queues.pq.length = 0) :=
    (LawfulScheduling.hom.pqIsEmpty k.ds).symm
  have hrp : Scheduling.rpIsEmpty k.ds = decide (k.queues.rp.length = 0) :=
    (LawfulScheduling.hom.rpIsEmpty k.ds).symm
  have hkey : Scheduling.pqGetMinAccumulator k.ds = (k.queues.pq.map Prod.fst).min? := by
    rw [StableQueue.Sorted.min?_keys k.sorted_pq]
    exact (LawfulScheduling.hom.pqGetMinAccumulator k.ds).symm
  have hrun : Scheduling.rpGetMinAccumulator k.getAccumulator k.ds = k.running.min? := by
    unfold running
    rw [← LinkedList.minKeyOf_eq_min?]
    exact (LawfulScheduling.hom.rpGetMinAccumulator k.getAccumulator k.ds).symm
  unfold getMin
  rw [hpq, hrp, hkey, hrun]
  simp only [decide_eq_true_eq, List.length_eq_zero_iff]
  by_cases hp : k.queues.pq = []
  · rw [if_pos hp, if_pos hp]
  · rw [if_neg hp, if_neg hp]
    by_cases hr : k.queues.rp = []
    · rw [if_pos hr, if_pos hr]
    · rw [if_neg hr, if_neg hr]
      generalize ((k.queues.pq.map Prod.fst).min?).getD 0 = a
      generalize k.running.min?.getD 0 = b
      split <;> omega

/-- The least of two lists that are not empty. -/
theorem min?_append {l l' : List ℤ} (h : l ≠ []) (h' : l' ≠ []) :
    (l ++ l').min? = some (min (l.min?.getD 0) (l'.min?.getD 0)) := by
  obtain ⟨a, ha⟩ := Option.isSome_iff_exists.mp (List.isSome_min?_of_ne_nil h)
  obtain ⟨b, hb⟩ := Option.isSome_iff_exists.mp (List.isSome_min?_of_ne_nil h')
  rw [ha, hb]
  show _ = some (min a b)
  obtain ⟨hmem, hle⟩ := List.min?_eq_some_iff.mp ha
  obtain ⟨hmem', hle'⟩ := List.min?_eq_some_iff.mp hb
  refine List.min?_eq_some_iff.mpr ⟨?_, fun x hx => ?_⟩
  · rcases Int.le_total a b with hab | hab
    · rw [Int.min_eq_left hab]
      exact List.mem_append_left _ hmem
    · rw [Int.min_eq_right hab]
      exact List.mem_append_right _ hmem'
  · rcases List.mem_append.mp hx with hx | hx
    · exact (Int.min_le_left a b).trans (hle x hx)
    · exact (Int.min_le_right a b).trans (hle' x hx)

/-- With a process in `pq`, or none running, `get_min` is the minimum. -/
theorem getMin_of_queued (k : Kernel D n) (h : k.queues.pq = [] → k.queues.rp = []) :
    k.getMin = k.competing.min?.getD 0 := by
  rw [getMin_eq]
  unfold competing running
  by_cases hp : k.queues.pq = []
  · rw [if_pos hp, hp, h hp]
    rfl
  · rw [if_neg hp]
    by_cases hr : k.queues.rp = []
    · rw [if_pos hr, hr, List.map_nil, List.append_nil]
    · have hp' : k.queues.pq.map Prod.fst ≠ [] := fun h => hp (List.map_eq_nil_iff.mp h)
      have hr' : k.queues.rp.map k.getAccumulator ≠ [] := fun h => hr (List.map_eq_nil_iff.mp h)
      rw [if_neg hr, min?_append hp' hr']
      rfl

/-- **When `get_min` is the minimum**, in every state of the kernel: unless `pq`
is empty while the least running accumulator is other than 0. The three facts on
the left are that it returns the minimum, that it returns 0 only if the minimum
is 0 or nothing competes, and that a process it is asked for does not start
below all that compete. -/
theorem getMin_least_iff (k : Kernel (Sched Slot) n) :
    (k.getMin = k.competing.min?.getD 0
        ∧ (k.getMin = 0 → k.competing.min? = some 0 ∨ k.competing = [])
        ∧ ∀ p, k.competing ≠ [] →
          ∃ a ∈ k.competing, a ≤ ((k.makeRunnable p).proc p).accumulator)
      ↔ (k.queues.pq = [] → k.queues.rp = [] ∨ k.running.min? = some 0) := by
  constructor
  · rintro ⟨hmin, -, -⟩ hp
    by_cases hr : k.queues.rp = []
    · exact Or.inl hr
    · right
      have hr' : k.running ≠ [] := fun h => hr (List.map_eq_nil_iff.mp h)
      obtain ⟨b, hb⟩ := Option.isSome_iff_exists.mp (List.isSome_min?_of_ne_nil hr')
      rw [getMin_eq, if_pos hp] at hmin
      unfold competing at hmin
      rw [hp, List.map_nil, List.nil_append, hb] at hmin
      rw [hb]
      exact congrArg some hmin.symm
  · intro hcond
    have hmin : k.getMin = k.competing.min?.getD 0 := by
      by_cases hp : k.queues.pq = []
      · rcases hcond hp with hr | hzero
        · exact k.getMin_of_queued (fun _ => hr)
        · rw [getMin_eq, if_pos hp]
          unfold competing
          rw [hp, List.map_nil, List.nil_append, hzero]
          rfl
      · exact k.getMin_of_queued (fun h => absurd h hp)
    refine ⟨hmin, fun hzero => ?_, fun p hne => ?_⟩
    · by_cases hne : k.competing = []
      · exact Or.inr hne
      · obtain ⟨a, ha⟩ := Option.isSome_iff_exists.mp (List.isSome_min?_of_ne_nil hne)
        rw [ha] at hmin ⊢
        exact Or.inl (congrArg some (hmin.symm.trans hzero))
    · obtain ⟨a, ha⟩ := Option.isSome_iff_exists.mp (List.isSome_min?_of_ne_nil hne)
      rw [ha] at hmin
      refine ⟨a, (List.min?_eq_some_iff.mp ha).1, ?_⟩
      rw [makeRunnable_proc, Function.update_self]
      exact hmin.ge

/-- **A running process that does not count.** The first process yields once and
runs again with accumulator 5, and the second CPU takes its other entry off the
queue. Then `get_min` is 0. -/
theorem getMin_not_least_of_running :
    ∃ k, (start 2).exec [.userinitAlloc, .userinit, .dispatch 0, .yield 0, .dispatch 0,
        .dispatch 1] = .ok k
      ∧ k.competing = [5] ∧ k.getMin = 0 := by
  obtain ⟨k, hk, hq⟩ := exec_of_plain (n := 2) [.userinitAlloc, .userinit, .dispatch 0, .yield 0,
    .dispatch 0, .dispatch 1] rfl
  refine ⟨k, hk, ?_, ?_⟩
  · show (k.map Sched.queuesHom).ds.pq.map Prod.fst
      ++ (k.map Sched.queuesHom).ds.rp.map (k.map Sched.queuesHom).getAccumulator = [5]
    rw [hq]
    decide +kernel
  · rw [← map_getMin (h := Sched.queuesHom), hq]
    decide +kernel

end Kernel

end Xv6
