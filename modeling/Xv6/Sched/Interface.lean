import Xv6.Sched.Queues

/-!
# The scheduling interface

The kernel reaches the structures through the function pointers of `pq` and
`rpholder` only; `Scheduling` is that interface, and an implementation is
lawful if there are queues it behaves like. There are two implementations.
`Sched` is the program's: the pools with their pointers, together with the
proof that they are well formed, so that no call can fault. `Queues` is the
plain one: there the same kernel can be run without any pointers, and
`Scheduling.Hom` says that the queues of a `Sched` are a homomorphic image
of it.
-/

namespace Xv6

variable {P : Type}

/-- **The function pointers the kernel uses**: those of `pq` and `rpholder`
that `proc.c` calls. -/
class Scheduling (D : Type) (P : outParam Type) where
  pqIsEmpty : D → Bool
  pqPut : (P → ℤ) → P → D → Bool × D
  pqGetMinAccumulator : D → Option ℤ
  pqExtractMin : D → Option P × D
  rpIsEmpty : D → Bool
  rpAdd : P → D → Bool × D
  rpRemove : P → D → Bool × D
  rpGetMinAccumulator : (P → ℤ) → D → Option ℤ

/-! ## Queues, field by field -/

namespace Queues

variable (q : Queues P) (k : ℤ) (p : P)

@[simp] theorem put_rp : (q.put k p).2.rp = q.rp := by
  unfold put
  split <;> rfl

@[simp] theorem put_rrq : (q.put k p).2.rrq = q.rrq := by
  unfold put
  split <;> rfl

theorem put_pq_of_lt (h : q.size < NPROCLIST) :
    (q.put k p).2.pq = StableQueue.put k p q.pq := by
  unfold put
  rw [if_pos h]

theorem put_pq_of_le (h : NPROCLIST ≤ q.size) : (q.put k p).2.pq = q.pq := by
  unfold put
  rw [if_neg (Nat.not_lt.mpr h)]

/-- A put adds at most the one entry. -/
theorem size_put_le : (q.put k p).2.size ≤ q.size + 1 := by
  unfold put
  split
  · show (StableQueue.put k p q.pq).length + q.rrq.length + q.rp.length
      ≤ q.pq.length + q.rrq.length + q.rp.length + 1
    rw [StableQueue.length_put]
    omega
  · exact Nat.le_succ _

/-- A put keeps what is there. -/
theorem mem_put_of_mem {e : ℤ × P} (h : e ∈ q.pq) : e ∈ (q.put k p).2.pq := by
  unfold put
  split
  · exact StableQueue.mem_put.mpr (.inr h)
  · exact h

@[simp] theorem remove_pq [DecidableEq P] : (q.remove p).2.pq = q.pq := rfl

@[simp] theorem remove_rp [DecidableEq P] : (q.remove p).2.rp = q.rp.erase p := rfl

/-- A removal frees the one entry. -/
theorem size_remove_of_mem [DecidableEq P] (h : p ∈ q.rp) : (q.remove p).2.size + 1 = q.size := by
  have hlen := List.length_erase_of_mem h
  have hpos := List.length_pos_of_mem h
  show q.pq.length + q.rrq.length + (q.rp.erase p).length + 1
    = q.pq.length + q.rrq.length + q.rp.length
  omega

theorem size_remove_le [DecidableEq P] : (q.remove p).2.size ≤ q.size :=
  Nat.add_le_add_left List.length_erase_le _

/-- An extraction takes the head. -/
theorem extractMin_eq_some {q' : Queues P} (h : q.extractMin = (some p, q')) :
    ∃ k es, q.pq = (k, p) :: es ∧ q' = { q with pq := es } := by
  unfold extractMin at h
  split at h
  · cases h
  · next e es he =>
    cases h
    exact ⟨e.1, es, he, rfl⟩

end Queues

/-! ## Implementations -/

/-- The queues themselves are an implementation. -/
instance [DecidableEq P] : Scheduling (Queues P) P where
  pqIsEmpty q := decide (q.pq.length = 0)
  pqPut acc p q := q.put (acc p) p
  pqGetMinAccumulator q := q.pq.head?.map Prod.fst
  pqExtractMin q := q.extractMin
  rpIsEmpty q := decide (q.rp.length = 0)
  rpAdd p q := q.add p
  rpRemove p q := q.remove p
  rpGetMinAccumulator acc q := LinkedList.minKeyOf acc q.rp

/-- **A homomorphism of implementations**: every call returns the same on
both sides and leaves images behind. -/
structure Scheduling.Hom (D D' : Type) {P : Type} [Scheduling D P] [Scheduling D' P] where
  toFun : D → D'
  pqIsEmpty (s) : pqIsEmpty (toFun s) = pqIsEmpty s
  pqPut (acc p s) : pqPut acc p (toFun s) = ((pqPut acc p s).1, toFun (pqPut acc p s).2)
  pqGetMinAccumulator (s) : pqGetMinAccumulator (toFun s) = pqGetMinAccumulator s
  pqExtractMin (s) : pqExtractMin (toFun s) = ((pqExtractMin s).1, toFun (pqExtractMin s).2)
  rpIsEmpty (s) : rpIsEmpty (toFun s) = rpIsEmpty s
  rpAdd (p s) : rpAdd p (toFun s) = ((rpAdd p s).1, toFun (rpAdd p s).2)
  rpRemove (p s) : rpRemove p (toFun s) = ((rpRemove p s).1, toFun (rpRemove p s).2)
  rpGetMinAccumulator (acc s) : rpGetMinAccumulator acc (toFun s) = rpGetMinAccumulator acc s

/-- **A lawful implementation** behaves like queues that are sorted and
within the budget. -/
class LawfulScheduling (D : Type) {P : Type} [DecidableEq P] [Scheduling D P] where
  hom : Scheduling.Hom D (Queues P)
  size_le (s : D) : (hom.toFun s).size ≤ NPROCLIST
  sorted (s : D) : StableQueue.Sorted (hom.toFun s).pq

/-! ## The program's implementation -/

/-- **Well-formed structures**: those that stand for some queues. The kernel's model runs on these,
so that no state of it has a broken pool, tree or list. -/
structure Sched (P : Type) where
  ds : SchedDS P
  wf : ∃ q, ds.Refines q

namespace Sched

/-- The structures `initSchedDS` leaves. -/
def init : Sched P := ⟨initSchedDS, Queues.empty, SchedDS.initSchedDS_refines⟩

/-- The result of a call that does not fault. -/
def returned {α : Type} : (o : Option (α × SchedDS P)) →
    (∃ r s' q', o = some (r, s') ∧ s'.Refines q') → α × Sched P
  | some (r, s'), h => (r, ⟨s', by obtain ⟨_, _, q', hs, hq⟩ := h; cases hs; exact ⟨q', hq⟩⟩)
  | none, h => absurd h (by rintro ⟨_, _, _, hs, _⟩; cases hs)

theorem returned_of_eq {α : Type} {o : Option (α × SchedDS P)} {r : α} {s' : SchedDS P}
    (h : ∃ r s' q', o = some (r, s') ∧ s'.Refines q') (ho : o = some (r, s')) :
    (returned o h).1 = r ∧ (returned o h).2.ds = s' := by
  subst ho
  exact ⟨rfl, rfl⟩

/-- `pq.put`. -/
def put (acc : P → ℤ) (p : P) (s : Sched P) : Bool × Sched P :=
  returned (s.ds.putPriorityQueue acc p) <| by
    obtain ⟨q, h⟩ := s.wf
    exact ⟨_, _, _, (SchedDS.putPriorityQueue_refines h acc p).choose_spec⟩

/-- `pq.extractMin`. -/
def extractMin (s : Sched P) : Option P × Sched P :=
  returned s.ds.extractMinPriorityQueue <| by
    obtain ⟨q, h⟩ := s.wf
    exact ⟨_, _, _, (SchedDS.extractMinPriorityQueue_refines h).choose_spec⟩

/-- `rpholder.add`. -/
def add (p : P) (s : Sched P) : Bool × Sched P :=
  returned (s.ds.addRunningProcessHolder p) <| by
    obtain ⟨q, h⟩ := s.wf
    exact ⟨_, _, _, (SchedDS.addRunningProcessHolder_refines h p).choose_spec⟩

/-- `rpholder.remove`. -/
def remove [DecidableEq P] (p : P) (s : Sched P) : Bool × Sched P :=
  returned (s.ds.removeRunningProcessHolder p) <| by
    obtain ⟨q, h⟩ := s.wf
    exact ⟨_, _, _, (SchedDS.removeRunningProcessHolder_refines h p).choose_spec⟩

/-- The program's structures are an implementation. -/
instance [DecidableEq P] : Scheduling (Sched P) P where
  pqIsEmpty s := s.ds.isEmptyPriorityQueue
  pqPut acc p s := s.put acc p
  pqGetMinAccumulator s := s.ds.getMinAccumulatorPriorityQueue.join
  pqExtractMin s := s.extractMin
  rpIsEmpty s := s.ds.isEmptyRunningProcessHolder
  rpAdd p s := s.add p
  rpRemove p s := s.remove p
  rpGetMinAccumulator acc s := (s.ds.getMinAccumulatorRunningProcessHolder acc).join

/-! ## It is lawful -/

/-- **The queues the structures stand for**: the in-order walk of the tree
and the two lists. -/
noncomputable def queues (s : Sched P) : Queues P := s.wf.choose

theorem refines_queues (s : Sched P) : s.ds.Refines s.queues := s.wf.choose_spec

/-- The structures stand for one set of queues only. -/
theorem queues_eq {s : Sched P} {q : Queues P} (h : s.ds.Refines q) : s.queues = q := by
  obtain ⟨g, hg, hq⟩ := s.refines_queues
  obtain ⟨g', hg', rfl⟩ := h
  rw [← hq]
  unfold Layout.queues
  rw [hg.tree.unique hg'.tree, hg.rrq.unique hg'.rrq, hg.rp.unique hg'.rp]

@[simp] theorem queues_init : (init : Sched P).queues = Queues.empty :=
  queues_eq SchedDS.initSchedDS_refines

/-- A call that refines a function on the queues is that function there. -/
theorem returned_queues {α : Type} {o : Option (α × SchedDS P)} {r : α × Queues P}
    (h : ∃ r s' q', o = some (r, s') ∧ s'.Refines q')
    (ho : ∃ s', o = some (r.1, s') ∧ s'.Refines r.2) :
    r = ((returned o h).1, (returned o h).2.queues) := by
  obtain ⟨s', hs, href⟩ := ho
  obtain ⟨hr, hds⟩ := returned_of_eq h hs
  refine Prod.ext hr.symm (queues_eq ?_).symm
  rw [hds]
  exact href

/-- **Taking the queues is a homomorphism.** -/
noncomputable def queuesHom [DecidableEq P] : Scheduling.Hom (Sched P) (Queues P) where
  toFun := queues
  pqIsEmpty s := by
    show _ = s.ds.isEmptyPriorityQueue
    rw [SchedDS.isEmptyPriorityQueue_refines s.refines_queues]
    exact decide_eq_decide.mpr List.length_eq_zero_iff
  pqPut acc p s := returned_queues _ (SchedDS.putPriorityQueue_refines s.refines_queues acc p)
  pqGetMinAccumulator s := by
    show _ = s.ds.getMinAccumulatorPriorityQueue.join
    rw [SchedDS.getMinAccumulatorPriorityQueue_refines s.refines_queues]
    rfl
  pqExtractMin s := returned_queues _ (SchedDS.extractMinPriorityQueue_refines s.refines_queues)
  rpIsEmpty s := by
    show _ = s.ds.isEmptyRunningProcessHolder
    rw [SchedDS.isEmptyRunningProcessHolder_refines s.refines_queues]
    exact decide_eq_decide.mpr List.length_eq_zero_iff
  rpAdd p s := returned_queues _ (SchedDS.addRunningProcessHolder_refines s.refines_queues p)
  rpRemove p s := returned_queues _ (SchedDS.removeRunningProcessHolder_refines s.refines_queues p)
  rpGetMinAccumulator acc s := by
    show _ = (s.ds.getMinAccumulatorRunningProcessHolder acc).join
    rw [SchedDS.getMinAccumulatorRunningProcessHolder_refines s.refines_queues]
    rfl

/-- **The program's structures are lawful.** -/
noncomputable instance [DecidableEq P] : LawfulScheduling (Sched P) where
  hom := queuesHom
  size_le s := by
    obtain ⟨g, hg, hq⟩ := s.refines_queues
    show s.queues.size ≤ NPROCLIST
    rw [← hq]
    exact Nat.le.intro ((Nat.add_comm _ _).trans hg.length_links)
  sorted s := by
    obtain ⟨g, hg, hq⟩ := s.refines_queues
    show StableQueue.Sorted s.queues.pq
    rw [← hq]
    exact hg.ordered.sorted

end Sched

end Xv6
