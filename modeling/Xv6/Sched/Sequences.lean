import Xv6.Sched.Runs
import Mathlib.Algebra.BigOperators.Fin
import Mathlib.Algebra.Order.BigOperators.Group.Finset
import Mathlib.Tactic.DeriveFintype

/-!
# Lists over one pool

`rrq`, `rpholder` and the list of every map node are `LinkedList`s that take
their links from one pool, and a link that one of them gives back is the next one
that any of them takes. `Lists` is a family of such lists; a sequence of calls on
its members, in any order, returns what it returns on a family of plain lists.

Only one thing can go wrong with a family – that two members meet the same link –
and `Lists.Rep.replace` says once why it does not: an operation on one member
trades links between that member and the free list, and touches no other.
-/

namespace Xv6

open Function

open Finset

variable {ι P : Type}

/-- **A family of lists** and the pool they share. -/
structure Lists (ι P : Type) where
  pool : LinkPool P
  list : ι → LinkedList

/-- **A call of one of the lists.** `acc` gives the accumulators at the time of the
call. -/
inductive ListCall (ι P : Type) where
  | enqueue (i : ι) (p : P)
  | dequeue (i : ι)
  | remove (i : ι) (p : P)
  | getMinKey (i : ι) (acc : P → ℤ)

/-- What a call returns: a `bool`, a process or null, or the minimum that is stored
unless the result is false. -/
inductive ListResult (P : Type) where
  | bool (b : Bool)
  | proc (p : Option P)
  | key (k : Option ℤ)

section Calls

variable [DecidableEq ι] [DecidableEq P]

/-- A call on the lists. -/
def ListCall.run : ListCall ι P → Lists ι P → Option (ListResult P × Lists ι P)
  | enqueue i p, s => do
    let (ok, l, pool) ← (s.list i).enqueue p s.pool
    return (.bool ok, ⟨pool, update s.list i l⟩)
  | dequeue i, s =>
    let (p, l, pool) := (s.list i).dequeue s.pool
    some (.proc p, ⟨pool, update s.list i l⟩)
  | remove i p, s => do
    let (ok, l, pool) ← (s.list i).remove p s.pool
    return (.bool ok, ⟨pool, update s.list i l⟩)
  | getMinKey i acc, s => do
    let k ← (s.list i).getMinKey acc s.pool
    return (.key k, s)

/-- **The reference**: plain lists, room for `NPROCLIST` processes in all. An enqueue appends
at the end, a dequeue takes the head, a remove deletes the first occurrence, and
none of them touches another list. -/
def ListCall.reference [Fintype ι] : ListCall ι P → (ι → List P) → ListResult P × (ι → List P)
  | enqueue i p, f =>
    if ∑ j, (f j).length < NPROCLIST then (.bool true, update f i (f i ++ [p]))
    else (.bool false, f)
  | dequeue i, f => (.proc (f i).head?, update f i (f i).tail)
  | remove i p, f => (.bool (decide (p ∈ f i)), update f i ((f i).erase p))
  | getMinKey i acc, f => (.key ((f i).map acc).min?, f)

/-- The results of a sequence of calls on the lists. -/
def runListCalls : List (ListCall ι P) → Lists ι P → Option (List (ListResult P) × Lists ι P)
  | [], s => some ([], s)
  | c :: cs, s => do
    let (r, s) ← c.run s
    let (rs, s) ← runListCalls cs s
    return (r :: rs, s)

/-- The results of a sequence of calls on the reference. -/
def referenceListCalls [Fintype ι] :
    List (ListCall ι P) → (ι → List P) → List (ListResult P) × (ι → List P)
  | [], f => ([], f)
  | c :: cs, f =>
    let (r, f) := c.reference f
    let (rs, f) := referenceListCalls cs f
    (r :: rs, f)

end Calls

/-! ## The invariant -/

/-- **The cells of a family**, and the free links: no link is in two places, and
none is lost. -/
structure Lists.Rep [Fintype ι] (s : Lists ι P) (fl : List LinkPtr)
    (xs : ι → List (LinkPtr × P)) : Prop where
  free : s.pool.Free fl
  list : ∀ i, (s.list i).Rep s.pool (xs i)
  nodup : ∀ i, (fl ++ linksOf (xs i)).Nodup
  disjoint : ∀ i j, i ≠ j → List.Disjoint (linksOf (xs i)) (linksOf (xs j))
  count : fl.length + ∑ i, (xs i).length = NPROCLIST

/-- **The family holds the lists** `f`. -/
def Lists.Holds [Fintype ι] (s : Lists ι P) (f : ι → List P) : Prop :=
  ∃ fl xs, s.Rep fl xs ∧ ∀ i, procsOf (xs i) = f i

namespace Lists

variable [Fintype ι] [DecidableEq ι] {s : Lists ι P} {fl : List LinkPtr}
  {xs : ι → List (LinkPtr × P)}

namespace Rep

omit [DecidableEq ι] in
/-- A list is short enough for the loops over it. -/
theorem length_le (h : s.Rep fl xs) (i : ι) : (xs i).length ≤ NPROCLIST := by
  have hle : (xs i).length ≤ ∑ j, (xs j).length :=
    single_le_sum (f := fun j => (xs j).length) (fun _ _ => Nat.zero_le _) (mem_univ i)
  have hcount := h.count
  omega

omit [DecidableEq ι] in
/-- The links that an operation on one list may touch are in no other list. -/
theorem notMem_of_ne (h : s.Rep fl xs) {i j : ι} (hij : j ≠ i) {a : LinkPtr}
    (ha : a ∈ linksOf (xs j)) : a ∉ fl ++ linksOf (xs i) := by
  intro hm
  rcases List.mem_append.mp hm with hm | hm
  · exact (List.nodup_append.mp (h.nodup j)).2.2 a hm a ha rfl
  · exact h.disjoint j i hij ha hm

/-- **An operation on one list** that trades links between the list and the free
list, and touches no others, leaves the other lists as they are. -/
theorem replace (h : s.Rep fl xs) (i : ι) {l' : LinkedList} {L' : LinkPool P}
    {fl' : List LinkPtr} {ys : List (LinkPtr × P)} (hl : l'.Rep L' ys) (hf : L'.Free fl')
    (hperm : (fl' ++ linksOf ys).Perm (fl ++ linksOf (xs i)))
    (hframe : ∀ b ∉ fl ++ linksOf (xs i), L'.links b = s.pool.links b) :
    (⟨L', update s.list i l'⟩ : Lists ι P).Rep fl' (update xs i ys) where
  free := hf
  list := by
    intro j
    show (update s.list i l' j).Rep L' _
    by_cases hj : j = i
    · subst hj
      rw [update_self, update_self]
      exact hl
    · rw [update_of_ne hj, update_of_ne hj]
      exact (h.list j).congr (fun a ha => hframe a (h.notMem_of_ne hj ha))
  nodup := by
    intro j
    have hnd := hperm.nodup_iff.mpr (h.nodup i)
    by_cases hj : j = i
    · subst hj
      rw [update_self]
      exact hnd
    · rw [update_of_ne hj]
      refine List.nodup_append.mpr ⟨(List.nodup_append.mp hnd).1,
        (List.nodup_append.mp (h.nodup j)).2.1, fun a ha b hb hab => ?_⟩
      subst hab
      exact h.notMem_of_ne hj hb (hperm.subset (List.mem_append_left _ ha))
  disjoint := by
    have hys : ∀ j, j ≠ i → List.Disjoint (linksOf ys) (linksOf (xs j)) := fun j hj a ha hb =>
      h.notMem_of_ne hj hb (hperm.subset (List.mem_append_right _ ha))
    intro j k hjk
    have hold := h.disjoint j k hjk
    have hsymm := fun hj => (hys j hj).symm
    grind [update_apply]
  count := by
    have hlen := hperm.length_eq
    have hcount := h.count
    rw [← add_sum_erase univ _ (mem_univ i)] at hcount ⊢
    have hrest : ∑ j ∈ univ.erase i, (update xs i ys j).length
        = ∑ j ∈ univ.erase i, (xs j).length :=
      sum_congr rfl (fun j hj => by rw [update_of_ne (mem_erase.mp hj).1])
    rw [hrest, update_self]
    simp only [List.length_append, length_linksOf] at hlen
    omega

/-- The lists that an updated family holds. -/
theorem holds_update (h : s.Rep fl xs) (i : ι) {l' : LinkedList} {L' : LinkPool P}
    {fl' : List LinkPtr} {ys : List (LinkPtr × P)} {f : ι → List P} {ps : List P}
    (hl : l'.Rep L' ys) (hf : L'.Free fl')
    (hperm : (fl' ++ linksOf ys).Perm (fl ++ linksOf (xs i)))
    (hframe : ∀ b ∉ fl ++ linksOf (xs i), L'.links b = s.pool.links b)
    (hfs : ∀ j, procsOf (xs j) = f j) (hps : procsOf ys = ps) :
    (⟨L', update s.list i l'⟩ : Lists ι P).Holds (update f i ps) := by
  refine ⟨fl', update xs i ys, h.replace i hl hf hperm hframe, fun j => ?_⟩
  grind [update_apply]

end Rep

/-! ## The calls -/

variable [DecidableEq P] {f : ι → List P}

omit [Fintype ι] [DecidableEq P] in
/-- Storing a list back where it was changes nothing. -/
theorem update_list_self (s : Lists ι P) (i : ι) :
    (⟨s.pool, update s.list i (s.list i)⟩ : Lists ι P) = s := by
  rw [update_eq_self]

variable (h : s.Holds f)

include h

/-- **`enqueue`** on a member. -/
theorem Holds.enqueue (i : ι) (p : P) :
    ∃ s', (ListCall.enqueue i p).run s = some (((ListCall.enqueue i p).reference f).1, s')
      ∧ s'.Holds ((ListCall.enqueue i p).reference f).2 := by
  obtain ⟨fl, xs, h, hf⟩ := h
  have hcount := h.count
  have hsum : ∑ j, (f j).length = ∑ j, (xs j).length :=
    sum_congr rfl (fun j _ => by rw [← hf j, length_procsOf])
  rw [ListCall.run, ListCall.reference]
  cases fl with
  | nil =>
    rw [if_neg (by rw [hsum]; simp only [List.length_nil] at hcount; omega)]
    refine ⟨s, ?_, [], xs, h, hf⟩
    rw [LinkedList.enqueue_of_free_nil h.free]
    show some (_, (⟨s.pool, update s.list i (s.list i)⟩ : Lists ι P)) = _
    rw [update_list_self]
  | cons a fl =>
    rw [if_pos (by rw [hsum]; simp only [List.length_cons] at hcount; omega)]
    obtain ⟨l', L', henq, hrep, hfree, hframe⟩ :=
      LinkedList.enqueue_of_free_cons (h.list i) h.free (h.nodup i) p
    refine ⟨⟨L', update s.list i l'⟩, ?_, h.holds_update i hrep hfree ?_ ?_ hf ?_⟩
    · rw [henq]
      rfl
    · exact SchedDS.perm_enqueued a fl (xs i) p
    · exact fun b hb => hframe b (by grind)
    · rw [procsOf_append, hf i]
      rfl

/-- **`dequeue`** on a member. -/
theorem Holds.dequeue (i : ι) :
    ∃ s', (ListCall.dequeue i).run s = some (((ListCall.dequeue i).reference f).1, s')
      ∧ s'.Holds ((ListCall.dequeue i).reference f).2 := by
  obtain ⟨fl, xs, h, hf⟩ := h
  have hrep := h.list i
  have hnd := h.nodup i
  have hfi := hf i
  rw [ListCall.run, ListCall.reference]
  cases hxs : xs i with
  | nil =>
    rw [hxs] at hrep hfi
    have hfi' : f i = [] := hfi.symm
    refine ⟨s, ?_, fl, xs, h, fun j => ?_⟩
    · rw [LinkedList.dequeue_of_nil hrep, hfi']
      show some (_, (⟨s.pool, update s.list i (s.list i)⟩ : Lists ι P)) = _
      rw [update_list_self]
      rfl
    · show procsOf (xs j) = update f i (f i).tail j
      rw [hfi', List.tail_nil, ← hfi', update_eq_self, hf j]
  | cons c cs =>
    rw [hxs] at hrep hnd hfi
    have hfi' : f i = c.2 :: procsOf cs := hfi.symm
    obtain ⟨l', L', hdeq, hrep', hfree, hframe⟩ := LinkedList.dequeue_of_cons hrep h.free hnd
    refine ⟨⟨L', update s.list i l'⟩, ?_, h.holds_update i hrep' hfree ?_ ?_ hf ?_⟩
    · rw [hdeq, hfi']
      rfl
    · rw [hxs]
      exact List.perm_middle.symm
    · refine fun b hb => hframe b (fun hbc => hb ?_)
      simp [hxs, hbc]
    · rw [hfi']
      rfl

/-- **`remove`** on a member. -/
theorem Holds.remove (i : ι) (p : P) :
    ∃ s', (ListCall.remove i p).run s = some (((ListCall.remove i p).reference f).1, s')
      ∧ s'.Holds ((ListCall.remove i p).reference f).2 := by
  obtain ⟨fl, xs, h, hf⟩ := h
  rw [ListCall.run, ListCall.reference]
  by_cases hp : p ∈ procsOf (xs i)
  · obtain ⟨us, e, ws, hxs, rfl, hus, herase⟩ := SchedDS.exists_first_cell hp
    obtain ⟨l', L', hrem, hrep', hfree, hframe⟩ := LinkedList.remove_of_mem (hxs ▸ h.list i) h.free
      (hxs ▸ h.nodup i) hus (hxs ▸ h.length_le i)
    refine ⟨⟨L', update s.list i l'⟩, ?_, h.holds_update i hrep' hfree ?_ ?_ hf ?_⟩
    · rw [hrem, decide_eq_true (show e.2 ∈ f i from hf i ▸ hp)]
      rfl
    · rw [hxs]
      refine List.perm_iff_count.mpr (fun y => ?_)
      simp only [linksOf_append, linksOf_cons, List.count_append, List.count_cons]
      omega
    · refine fun b hb => hframe b (fun hm => hb ?_)
      rw [hxs]
      exact List.mem_append_right _ hm
    · rw [herase, hf i]
  · have hpf : p ∉ f i := hf i ▸ hp
    refine ⟨s, ?_, fl, xs, h, fun j => ?_⟩
    · rw [LinkedList.remove_of_notMem (h.list i) hp (h.length_le i), decide_eq_false hpf]
      show some (_, (⟨s.pool, update s.list i (s.list i)⟩ : Lists ι P)) = _
      rw [update_list_self]
    · show procsOf (xs j) = update f i ((f i).erase p) j
      rw [List.erase_of_not_mem hpf, update_eq_self, hf j]

/-- **`getMinKey`** on a member. -/
theorem Holds.getMinKey (i : ι) (acc : P → ℤ) :
    ∃ s', (ListCall.getMinKey i acc).run s = some (((ListCall.getMinKey i acc).reference f).1, s')
      ∧ s'.Holds ((ListCall.getMinKey i acc).reference f).2 := by
  refine ⟨s, ?_, h⟩
  obtain ⟨fl, xs, h, hf⟩ := h
  rw [ListCall.run, ListCall.reference]
  rw [LinkedList.getMinKey_spec acc (h.list i) (h.length_le i), LinkedList.minKeyOf_eq_min?,
    hf i]
  rfl

/-- One call. -/
theorem Holds.run (c : ListCall ι P) :
    ∃ s', c.run s = some ((c.reference f).1, s') ∧ s'.Holds (c.reference f).2 := by
  cases c with
  | enqueue i p => exact h.enqueue i p
  | dequeue i => exact h.dequeue i
  | remove i p => exact h.remove i p
  | getMinKey i acc => exact h.getMinKey i acc

/-- Any number of calls. -/
theorem Holds.runListCalls (cs : List (ListCall ι P)) :
    ∃ s', runListCalls cs s = some ((referenceListCalls cs f).1, s')
      ∧ s'.Holds (referenceListCalls cs f).2 := by
  induction cs generalizing s f with
  | nil => exact ⟨s, rfl, h⟩
  | cons c cs ih =>
    obtain ⟨s₁, hrun, h₁⟩ := h.run c
    obtain ⟨s', hruns, h'⟩ := ih h₁
    refine ⟨s', ?_, h'⟩
    unfold Xv6.runListCalls
    rw [hrun]
    show (Xv6.runListCalls cs s₁).bind _ = _
    rw [hruns]
    rfl

end Lists

/-! ## The lists of the scheduler -/

/-- **The holders of the scheduler's lists.** -/
inductive Holder where
  | rrq
  | rpholder
  | node (n : Fin NPROCMAP)
  deriving DecidableEq, Fintype

/-- The lists of the scheduler, as a family. -/
def SchedDS.lists (s : SchedDS P) : Lists Holder P where
  pool := s.mem.linkPool
  list
    | .rrq => s.roundRobinQ
    | .rpholder => s.runningProcHolder
    | .node n => (s.mem.node n).listOfProcs

/-- The cells at one node of a tree, none if the tree does not have the node. -/
def SearchTree.cellsAt : SearchTree P → NodePtr → List (LinkPtr × P)
  | .nil, _ => []
  | .node l n _ cs r, x => l.cellsAt x ++ (if x = n then cs else []) ++ r.cellsAt x

namespace SearchTree

variable {t : SearchTree P} {x : NodePtr}

theorem cellsAt_of_notMem (h : x ∉ t.nodes) :
    t.cellsAt x = [] := by
  induction t with
  | nil => rfl
  | node l n k cs r ihl ihr =>
    grind [nodes, cellsAt]

/-- The list of a node of the tree has the node's cells. -/
theorem Rep.cellsAt {m : Mem P} {par root : Option NodePtr} (h : t.Rep m par root)
    (hnd : t.nodes.Nodup) (hx : x ∈ t.nodes) :
    (m.node x).listOfProcs.Rep m.linkPool (t.cellsAt x) := by
  induction t generalizing par root with
  | nil => exact absurd hx List.not_mem_nil
  | node l n k cs r ihl ihr =>
    obtain ⟨-, -, -, hlist, hleft, hright⟩ := h
    simp only [nodes, List.nodup_append, List.nodup_cons, List.mem_append, List.mem_cons] at hnd hx
    unfold SearchTree.cellsAt
    -- the node is in one of the three parts only
    rcases hx with hxl | rfl | hxr
    · rw [if_neg (by grind), cellsAt_of_notMem (t := r) (by grind), List.append_nil,
        List.append_nil]
      exact ihl hleft hnd.1 hxl
    · rw [cellsAt_of_notMem (t := l) (by grind), if_pos rfl,
        cellsAt_of_notMem hnd.2.1.1, List.append_nil]
      exact hlist
    · rw [cellsAt_of_notMem (t := l) (by grind), if_neg (by grind)]
      exact ihr hright hnd.2.1.2 hxr

/-- The cells of a node are among those of the tree. -/
theorem linksOf_cellsAt_sublist (t : SearchTree P) (x : NodePtr) :
    (linksOf (t.cellsAt x)).Sublist t.links := by
  induction t with
  | nil => exact List.Sublist.refl _
  | node l n k cs r ihl ihr =>
    unfold cellsAt links
    rw [linksOf_append, linksOf_append]
    refine (ihl.append ?_).append ihr
    split
    · exact List.Sublist.refl _
    · exact List.nil_sublist _

/-- Two nodes share no link. -/
theorem disjoint_cellsAt (h : t.links.Nodup) {y : NodePtr} (hxy : x ≠ y) :
    List.Disjoint (linksOf (t.cellsAt x)) (linksOf (t.cellsAt y)) := by
  induction t with
  | nil => exact List.disjoint_nil_left _
  | node l n k cs r ihl ihr =>
    simp only [links, List.nodup_append, List.mem_append] at h
    have hsub := fun z a (ha : a ∈ linksOf (l.cellsAt z)) => (l.linksOf_cellsAt_sublist z).subset ha
    have hsub' := fun z a (ha : a ∈ linksOf (r.cellsAt z)) =>
      (r.linksOf_cellsAt_sublist z).subset ha
    have hmid : ∀ z a, a ∈ linksOf (if z = n then cs else []) → z = n ∧ a ∈ linksOf cs := by
      intro z a ha
      split at ha
      · next hz => exact ⟨hz, ha⟩
      · cases ha
    intro a ha hb
    unfold cellsAt at ha hb
    simp only [linksOf_append, List.mem_append] at ha hb
    replace ha := ha.imp_left (Or.imp_right (hmid x a))
    replace hb := hb.imp_left (Or.imp_right (hmid y a))
    have hleft := @ihl h.1.1 a
    have hright := @ihr h.2.1 a
    -- a link of both nodes stands in one of the three parts
    grind

/-- Every link of the tree is at one of the nodes. -/
theorem sum_length_cellsAt {N : ℕ} (h : ∀ x ∈ t.nodes, x < N) :
    ∑ n : Fin N, (t.cellsAt n).length = t.links.length := by
  induction t with
  | nil => exact sum_const_zero
  | node l n k cs r ihl ihr =>
    unfold nodes at h
    have hn : n < N := h n (List.mem_append_right _ List.mem_cons_self)
    have hmid : ∑ x : Fin N, (if (x : ℕ) = n then cs else []).length = cs.length := by
      rw [Fintype.sum_eq_single ⟨n, hn⟩, if_pos rfl]
      intro x hx
      rw [if_neg (fun h => hx (Fin.ext h))]
      rfl
    unfold links cellsAt
    simp only [List.length_append, sum_add_distrib, length_linksOf]
    rw [ihl (fun x hx => h x (List.mem_append_left _ hx)), hmid,
      ihr (fun x hx => h x (List.mem_append_right _ (List.mem_cons_of_mem n hx)))]

end SearchTree

/-- The cells of a layout, holder by holder. -/
def Layout.cells (g : Layout P) : Holder → List (LinkPtr × P)
  | .rrq => g.rrq
  | .rpholder => g.rp
  | .node n => g.tree.cellsAt n

/-- The holders, as the nodes and two more. -/
def Holder.equivOption : Holder ≃ Option (Option (Fin NPROCMAP)) where
  toFun
    | .rrq => none
    | .rpholder => some none
    | .node n => some (some n)
  invFun
    | none => .rrq
    | some none => .rpholder
    | some (some n) => .node n
  left_inv := by rintro (_ | _ | n) <;> rfl
  right_inv := by rintro (_ | _ | n) <;> rfl

/-- A sum over the holders. -/
theorem Holder.sum_eq (f : Holder → ℕ) :
    ∑ i, f i = f .rrq + f .rpholder + ∑ n, f (.node n) := by
  rw [← Holder.equivOption.symm.sum_comp f, Fintype.sum_option, Fintype.sum_option,
    ← Nat.add_assoc]
  rfl

/-- **The lists of the scheduler are such a family**, in every state it can be in. -/
theorem SchedDS.Rep.lists {s : SchedDS P} {g : Layout P} (h : s.Rep g) :
    s.lists.Rep g.freeLinks g.cells := by
  have hnl := h.nodup_links
  have hlen := h.links.length_eq
  unfold Layout.allLinks at hnl hlen
  have hsub := fun n a (ha : a ∈ linksOf (g.tree.cellsAt n)) =>
    (g.tree.linksOf_cellsAt_sublist n).subset ha
  simp only [List.nodup_append, List.mem_append] at hnl
  have hrrqrp : List.Disjoint (linksOf g.rrq) (linksOf g.rp) := by grind [List.Disjoint]
  have hnoderrq : ∀ n, List.Disjoint (linksOf (g.tree.cellsAt n)) (linksOf g.rrq) := by
    grind [List.Disjoint]
  have hnoderp : ∀ n, List.Disjoint (linksOf (g.tree.cellsAt n)) (linksOf g.rp) := by
    grind [List.Disjoint]
  refine ⟨h.free.links, ?_, ?_, ?_, ?_⟩
  · rintro (_ | _ | n)
    · exact h.rrq
    · exact h.rp
    · show (s.mem.node n).listOfProcs.Rep _ (g.tree.cellsAt n)
      by_cases hn : (n : ℕ) ∈ g.tree.nodes
      · exact h.tree.cellsAt (List.nodup_append.mp h.nodup_nodes).2.1 hn
      · have hfree : (n : ℕ) ∈ g.freeNodes := by
          have hmem := h.nodes.mem_iff.mpr (List.mem_range.mpr n.isLt)
          exact (List.mem_append.mp hmem).resolve_right hn
        rw [SearchTree.cellsAt_of_notMem hn, show (s.mem.node n).listOfProcs = _ from
          h.free.nodes.listOfProcs n hfree]
        exact LinkedList.Rep.empty _
  · rintro (_ | _ | n)
    · exact h.nodup_rrq
    · exact h.nodup_rp
    · exact h.nodup_tree.sublist ((g.tree.linksOf_cellsAt_sublist n).append_left _)
  · rintro (_ | _ | n) (_ | _ | n') hne
    · exact absurd rfl hne
    · exact hrrqrp
    · exact (hnoderrq n').symm
    · exact hrrqrp.symm
    · exact absurd rfl hne
    · exact (hnoderp n').symm
    · exact hnoderrq n
    · exact hnoderp n
    · refine SearchTree.disjoint_cellsAt hnl.1.1.2.1 (fun hn => hne ?_)
      rw [Fin.ext hn]
  · have hsum : ∑ n : Fin NPROCMAP, (g.cells (.node n)).length = g.tree.links.length := by
      refine SearchTree.sum_length_cellsAt (fun x hx => ?_)
      exact List.mem_range.mp (h.nodes.mem_iff.mp (List.mem_append_right _ hx))
    rw [Holder.sum_eq, hsum]
    simp only [List.length_append, length_linksOf, List.length_range] at hlen
    show g.freeLinks.length + (g.rrq.length + g.rp.length + g.tree.links.length) = _
    omega

/-- **`LinkedList` refines a finite sequence.** From every state the scheduling
structures can be in, any sequence of calls on `rrq`, `rpholder` and the lists of
the map nodes returns what it returns on plain lists, and the lists afterwards are
the plain ones: a call on one of them has not changed another. -/
theorem runListCalls_eq_reference [DecidableEq P] (before : List (Call P)) :
    ∃ s f, runCalls before initSchedDS = some s ∧ s.lists.Holds f
      ∧ ∀ cs : List (ListCall Holder P),
        ∃ s', runListCalls cs s.lists = some ((referenceListCalls cs f).1, s')
          ∧ s'.Holds (referenceListCalls cs f).2 := by
  obtain ⟨s, hs, g, hg, -⟩ := runCalls_refines before SchedDS.initSchedDS_refines
  have hholds : s.lists.Holds (fun i => procsOf (g.cells i)) :=
    ⟨g.freeLinks, g.cells, hg.lists, fun _ => rfl⟩
  exact ⟨s, _, hs, hholds, hholds.runListCalls⟩

end Xv6
