import Xv6.Sched.Drain
import Mathlib.Data.List.Dedup

/-!
# The scheduling structures, and what they are for

`SchedDS.Rep` is the representation invariant: the three structures and the
two free lists hold every link and every node of the pools exactly once,
and each has the shape it should have. `Queues` says what the structures
are for – a stable priority queue of keyed processes, a FIFO queue and a
collection of running processes, with room for `NPROCLIST` entries in all
– and mentions no pointer.

Every operation keeps the invariant and does on the pointers what its
counterpart does on `Queues`. The insertions fail exactly when there is no
room, which needs the one counting fact of the development: a tree has no
more nodes than entries, so that nodes never run out before links do.
-/

namespace Xv6

open Function

variable {P : Type}

/-- **Three queues in one budget**: the keyed entries in the order they
will be extracted, the FIFO queue, and the running processes. -/
structure Queues (P : Type) where
  pq : List (ℤ × P)
  rrq : List P
  rp : List P

namespace Queues

/-- How many entries there are in all. -/
def size (q : Queues P) : ℕ := q.pq.length + q.rrq.length + q.rp.length

/-- All queues empty. -/
def empty : Queues P := ⟨[], [], []⟩

/-- Put a process under a key, behind equal and smaller keys. -/
def put (k : ℤ) (p : P) (q : Queues P) : Bool × Queues P :=
  if q.size < NPROCLIST then (true, { q with pq := StableQueue.put k p q.pq }) else (false, q)

/-- Take the first entry. -/
def extractMin (q : Queues P) : Option P × Queues P :=
  match q.pq with
  | [] => (none, q)
  | e :: es => (some e.2, { q with pq := es })

/-- How many different keys are in use. -/
def keysInUse (q : Queues P) : ℕ := (q.pq.map Prod.fst).dedup.length

/-- Take out every entry of a process; the others come back under their
present keys. -/
def extractProc [DecidableEq P] (acc : P → ℤ) (p : P) (q : Queues P) : Bool × Queues P :=
  if q.keysInUse < NPROCMAP then
    (decide (p ∈ q.pq.map Prod.snd), { q with pq := rekey acc p q.pq [] })
  else (false, q)

/-- Move all entries to the FIFO queue, if that is empty. -/
def switchToRoundRobin (q : Queues P) : Bool × Queues P :=
  if q.rrq = [] then (true, { q with pq := [], rrq := q.pq.map Prod.snd }) else (false, q)

/-- Move the FIFO queue to the priority queue, if that is empty, all under
key 0. -/
def switchToPriorityQueue (q : Queues P) : Bool × Queues P :=
  if q.pq = [] then (true, { q with pq := q.rrq.map (fun p => (0, p)), rrq := [] }) else (false, q)

/-- Enter the FIFO queue. -/
def enqueue (p : P) (q : Queues P) : Bool × Queues P :=
  if q.size < NPROCLIST then (true, { q with rrq := q.rrq ++ [p] }) else (false, q)

/-- Leave the FIFO queue. -/
def dequeue (q : Queues P) : Option P × Queues P :=
  match q.rrq with
  | [] => (none, q)
  | p :: ps => (some p, { q with rrq := ps })

/-- Enter the collection of running processes. -/
def add (p : P) (q : Queues P) : Bool × Queues P :=
  if q.size < NPROCLIST then (true, { q with rp := q.rp ++ [p] }) else (false, q)

/-- Leave the collection of running processes, once. -/
def remove [DecidableEq P] (p : P) (q : Queues P) : Bool × Queues P :=
  (decide (p ∈ q.rp), { q with rp := q.rp.erase p })

end Queues

/-! ## The representation invariant -/

/-- **Where everything is**: the free links and nodes, the tree, and the
cells of the two lists. -/
structure Layout (P : Type) where
  freeLinks : List LinkPtr
  freeNodes : List NodePtr
  tree : SearchTree P
  rrq : List (LinkPtr × P)
  rp : List (LinkPtr × P)

/-- The queues a layout stands for. -/
def Layout.queues (g : Layout P) : Queues P :=
  ⟨g.tree.entries, procsOf g.rrq, procsOf g.rp⟩

/-- Every link a layout mentions. -/
def Layout.allLinks (g : Layout P) : List LinkPtr :=
  g.freeLinks ++ g.tree.links ++ linksOf g.rrq ++ linksOf g.rp

/-- Every node a layout mentions. -/
def Layout.allNodes (g : Layout P) : List NodePtr := g.freeNodes ++ g.tree.nodes

/-- **The representation invariant**: the pools and the three structures in memory are as the
layout `g` says, and every link and every node is in one place of it. -/
structure SchedDS.Rep (s : SchedDS P) (g : Layout P) : Prop where
  /-- The free lists are as the layout has them, every free node having null
  children and parent and an empty list. -/
  free : s.mem.Free g.freeLinks g.freeNodes
  /-- The nodes form the tree, with left, right and parent pointers that
  match, and each node's list is well formed. -/
  tree : g.tree.Rep s.mem none s.priorityQ.root
  /-- Keys are in search order, strictly. -/
  ordered : g.tree.Ordered
  /-- Every tree node's list is non-empty. -/
  full : g.tree.Full
  /-- The round-robin list is well formed. -/
  rrq : s.roundRobinQ.Rep s.mem.linkPool g.rrq
  /-- The list of running processes is well formed. -/
  rp : s.runningProcHolder.Rep s.mem.linkPool g.rp
  /-- Every link is in exactly one place. -/
  links : g.allLinks.Perm (List.range NPROCLIST)
  /-- Every node is in exactly one place. -/
  nodes : g.allNodes.Perm (List.range NPROCMAP)

namespace SchedDS

/-- **The structures refine the queues.** -/
def Refines (s : SchedDS P) (q : Queues P) : Prop := ∃ g, s.Rep g ∧ g.queues = q

namespace Rep

variable {s : SchedDS P} {g : Layout P}

variable (h : s.Rep g)

include h

theorem nodup_links : g.allLinks.Nodup :=
  h.links.nodup_iff.mpr List.nodup_range

theorem nodup_nodes : g.allNodes.Nodup :=
  h.nodes.nodup_iff.mpr List.nodup_range

/-- Free links and entries add up to the pool. -/
theorem length_links : g.freeLinks.length + g.queues.size = NPROCLIST := by
  have hlen := h.links.length_eq
  unfold Layout.allLinks at hlen
  unfold Queues.size Layout.queues
  simp only [List.length_append, List.length_range, length_linksOf] at hlen
  simp only [length_procsOf, SearchTree.length_entries]
  omega

/-- Free and used nodes add up to the pool. -/
theorem length_nodes : g.freeNodes.length + g.tree.nodes.length = NPROCMAP := by
  have hlen := h.nodes.length_eq
  unfold Layout.allNodes at hlen
  simpa using hlen

theorem tree_le : g.tree.nodes.length ≤ NPROCMAP := by
  have hlen := h.length_nodes
  omega

/-- **Nodes never run out before links do.** -/
theorem exists_freeNode {a : LinkPtr} {fl : List LinkPtr}
    (hfl : g.freeLinks = a :: fl) : ∃ b fn, g.freeNodes = b :: fn := by
  refine List.exists_cons_of_ne_nil (fun hfn => ?_)
  have hlinks := h.length_links
  have hnodes := h.length_nodes
  have hle := SearchTree.length_nodes_le h.full
  have hent := SearchTree.length_entries g.tree
  unfold Queues.size Layout.queues at hlinks
  rw [hfl] at hlinks
  rw [hfn] at hnodes
  simp only [List.length_cons, List.length_nil, NPROCLIST, NPROCMAP] at hlinks hnodes
  omega

/-- There is room exactly when there is a free link. -/
theorem size_lt_iff : g.queues.size < NPROCLIST ↔ g.freeLinks ≠ [] := by
  have hlen := h.length_links
  rw [ne_eq, ← List.length_eq_zero_iff]
  omega

/-- The lists are short enough for their loops. -/
theorem length_rp_le : g.rp.length ≤ NPROCLIST := by
  have hlen := h.length_links
  unfold Queues.size Layout.queues at hlen
  simp only [length_procsOf] at hlen
  omega

theorem length_tree_le : g.tree.links.length ≤ NPROCLIST := by
  have hlen := h.length_links
  unfold Queues.size Layout.queues at hlen
  simp only [SearchTree.length_entries] at hlen
  omega

theorem nodup_tree : (g.freeLinks ++ g.tree.links).Nodup :=
  (List.nodup_append.mp (List.nodup_append.mp h.nodup_links).1).1

theorem nodup_rrq : (g.freeLinks ++ linksOf g.rrq).Nodup :=
  (List.nodup_append.mp h.nodup_links).1.sublist ((List.sublist_append_left _ _).append_right _)

theorem nodup_rp : (g.freeLinks ++ linksOf g.rp).Nodup :=
  h.nodup_links.sublist (((List.sublist_append_left _ _).trans
    (List.sublist_append_left _ _)).append_right _)

variable {fl al : List LinkPtr} {fn an : List NodePtr} {L' : LinkPool P} {l' : LinkedList}
  {xs : List (LinkPtr × P)}

/-- **An operation on the tree** with the free links and nodes leaves the lists. -/
theorem replaceTree {T' : Map} {m' : Mem P} {t : SearchTree P}
    (hfree : m'.Free fl fn) (ht : t.Rep m' none T'.root) (hord : t.Ordered) (hfull : t.Full)
    (hs : s.mem.SameOff m' al an) (hal : ∀ a ∈ al, a ∈ g.freeLinks ++ g.tree.links)
    (hl : (fl ++ t.links).Perm (g.freeLinks ++ g.tree.links))
    (hn : (fn ++ t.nodes).Perm g.allNodes) :
    ({ s with mem := m', priorityQ := T' } : SchedDS P).Rep ⟨fl, fn, t, g.rrq, g.rp⟩ := by
  obtain ⟨hnl, -, hrp⟩ := List.nodup_append.mp h.nodup_links
  obtain ⟨-, -, hrrq⟩ := List.nodup_append.mp hnl
  refine ⟨hfree, ht, hord, hfull, h.rrq.congr (fun a ha => hs.links a (fun hm => ?_)),
    h.rp.congr (fun a ha => hs.links a (fun hm => ?_)),
    ((hl.append_right _).append_right _).trans h.links, hn.trans h.nodes⟩
  · exact hrrq a (hal a hm) a ha rfl
  · exact hrp a (List.mem_append_left _ (hal a hm)) a ha rfl

/-- **An operation on the round-robin list** leaves the tree and the other list. -/
theorem replaceRrq (hrep : l'.Rep L' xs) (hfree : L'.Free fl)
    (hs : ∀ a ∉ g.freeLinks ++ linksOf g.rrq, L'.links a = s.mem.linkPool.links a)
    (hl : (fl ++ linksOf xs).Perm (g.freeLinks ++ linksOf g.rrq)) :
    ({ s with mem := { s.mem with linkPool := L' }, roundRobinQ := l' } : SchedDS P).Rep
      ⟨fl, g.freeNodes, g.tree, xs, g.rp⟩ := by
  have hnl := h.nodup_links
  simp only [Layout.allLinks, List.nodup_append, List.mem_append] at hnl hs
  refine ⟨⟨hfree, h.free.nodes⟩, h.tree.congr (fun a ha => hs a ?_) (fun _ _ => rfl), h.ordered,
    h.full, hrep, h.rp.congr (fun a ha => hs a ?_),
    (List.perm_iff_count.mpr (fun y => ?_)).trans h.links, h.nodes⟩
  · grind
  · grind
  · have hcnt := hl.count_eq y
    simp only [Layout.allLinks, List.count_append] at hcnt ⊢
    omega

/-- **An operation on the list of running processes**, likewise. -/
theorem replaceRp (hrep : l'.Rep L' xs) (hfree : L'.Free fl)
    (hs : ∀ a ∉ g.freeLinks ++ linksOf g.rp, L'.links a = s.mem.linkPool.links a)
    (hl : (fl ++ linksOf xs).Perm (g.freeLinks ++ linksOf g.rp)) :
    ({ s with mem := { s.mem with linkPool := L' }, runningProcHolder := l' } : SchedDS P).Rep
      ⟨fl, g.freeNodes, g.tree, g.rrq, xs⟩ := by
  have hnl := h.nodup_links
  simp only [Layout.allLinks, List.nodup_append, List.mem_append] at hnl hs
  refine ⟨⟨hfree, h.free.nodes⟩, h.tree.congr (fun a ha => hs a ?_) (fun _ _ => rfl), h.ordered,
    h.full, h.rrq.congr (fun a ha => hs a ?_), hrep,
    (List.perm_iff_count.mpr (fun y => ?_)).trans h.links, h.nodes⟩
  · grind
  · grind
  · have hcnt := hl.count_eq y
    simp only [Layout.allLinks, List.count_append] at hcnt ⊢
    omega

end Rep

/-! ## Initialisation -/

/-- The free list after `n` links: the last built first. -/
theorem initLinks_free (n : ℕ) :
    (initLinks n : LinkPool P).Free (List.range n).reverse := by
  induction n with
  | zero => rfl
  | succ n ih =>
    rw [List.range_succ, List.reverse_append, List.reverse_singleton, List.singleton_append]
    refine ⟨rfl, ?_⟩
    have hself : (initLinks (n + 1) : LinkPool P).links n
        = ⟨none, (initLinks n : LinkPool P).freeLinks⟩ :=
      update_self _ _ _
    unfold LinkPool.next
    rw [hself]
    refine Seg.congr ih (fun a ha => congrArg Link.next ?_)
    have hne : a ≠ n := Nat.ne_of_lt (List.mem_range.mp (List.mem_reverse.mp ha))
    exact update_of_ne hne _ _

/-- The free nodes after `n` of them, all blank. -/
theorem initNodes_free (n : ℕ) : (initNodes n).Free (List.range n).reverse
    ∧ ∀ x, ∃ o, (initNodes n).nodes x = { MapNode.blank with next := o } := by
  induction n with
  | zero => exact ⟨⟨rfl, by simp, by simp, by simp, by simp⟩, fun _ => ⟨none, rfl⟩⟩
  | succ n ih =>
    have hself : (initNodes (n + 1)).nodes n
        = { MapNode.blank with next := (initNodes n).freeNodes } :=
      update_self _ _ _
    have hother : ∀ x, x ≠ n → (initNodes (n + 1)).nodes x = (initNodes n).nodes x :=
      fun x hx => update_of_ne hx _ _
    have hblank : ∀ x, ∃ o, (initNodes (n + 1)).nodes x = { MapNode.blank with next := o } := by
      intro x
      by_cases hx : x = n
      · subst hx
        exact ⟨_, hself⟩
      · rw [hother x hx]
        exact ih.2 x
    refine ⟨⟨?_, ?_, ?_, ?_, ?_⟩, hblank⟩
    · rw [List.range_succ, List.reverse_append, List.reverse_singleton, List.singleton_append]
      refine ⟨rfl, ?_⟩
      unfold NodePool.next
      rw [hself]
      refine ih.1.seg.congr (fun a ha => ?_)
      have hne : a ≠ n := Nat.ne_of_lt (List.mem_range.mp (List.mem_reverse.mp ha))
      exact congrArg MapNode.next (hother a hne)
    all_goals
      intro x _
      obtain ⟨o, ho⟩ := hblank x
      rw [ho]
      rfl

/-- **`initSchedDS` establishes the invariant**, with all queues empty. -/
theorem initSchedDS_refines : (initSchedDS : SchedDS P).Refines Queues.empty := by
  refine ⟨⟨(List.range NPROCLIST).reverse, (List.range NPROCMAP).reverse, .nil, [], []⟩,
    ⟨⟨initLinks_free _, (initNodes_free _).1⟩, rfl, trivial, trivial, LinkedList.Rep.empty _,
      LinkedList.Rep.empty _, ?_, ?_⟩, rfl⟩
  · simp [Layout.allLinks, SearchTree.links]
  · simp [Layout.allNodes, SearchTree.nodes]

/-! ## The operations -/

section Operations

variable {s : SchedDS P} {q : Queues P}

/-- **A put without a free link** returns false and leaves the layout. A node it
has taken goes back to the front of the free list. -/
theorem putPriorityQueue_of_free_nil {g : Layout P} (hg : s.Rep g) (hfl : g.freeLinks = [])
    (acc : P → ℤ) (p : P) :
    ∃ s', s.putPriorityQueue acc p = some (false, s') ∧ s'.Rep g := by
  have hnn := hg.nodup_nodes
  obtain ⟨m', hput, hfree, hs⟩ := Map.put_of_free_nil acc p hg.tree (hfl ▸ hg.free) hnn hg.tree_le
  refine ⟨{ s with mem := m' }, ?_, ⟨hfl ▸ hfree, ?_, hg.ordered, hg.full, ?_, ?_, hg.links,
    hg.nodes⟩⟩
  · unfold putPriorityQueue
    simp only [hput, Option.bind_eq_bind, Option.bind_some]
    rfl
  · exact hg.tree.frame hs (fun _ _ => List.not_mem_nil)
      (fun x hx => SearchTree.notMem_of_nodup_append hnn hx)
  · exact hg.rrq.congr (fun a _ => hs.links a List.not_mem_nil)
  · exact hg.rp.congr (fun a _ => hs.links a List.not_mem_nil)

theorem links_enqueued {g : Layout P} {a : LinkPtr} {fl : List LinkPtr} (hfl : g.freeLinks = a :: fl)
    (bs : List LinkPtr) : ∀ c ∈ a :: bs, c ∈ g.freeLinks ++ bs := by
  simp only [hfl, List.mem_append, List.mem_cons]
  tauto

section

variable (h : s.Refines q)

include h

/-- **`pq.put`**. -/
theorem putPriorityQueue_refines (acc : P → ℤ) (p : P) :
    ∃ s', s.putPriorityQueue acc p = some ((q.put (acc p) p).1, s')
      ∧ s'.Refines (q.put (acc p) p).2 := by
  obtain ⟨g, hg, rfl⟩ := h
  cases hfl : g.freeLinks with
  | nil =>
    have hfull : ¬ g.queues.size < NPROCLIST := fun hlt => hg.size_lt_iff.mp hlt hfl
    obtain ⟨s', hput, hrep⟩ := putPriorityQueue_of_free_nil hg hfl acc p
    unfold Queues.put
    rw [if_neg hfull]
    exact ⟨s', hput, g, hrep, rfl⟩
  | cons a fl =>
    obtain ⟨b, fn, hfn⟩ := hg.exists_freeNode hfl
    have hroom : g.queues.size < NPROCLIST := hg.size_lt_iff.mpr (by simp [hfl])
    have hnn : (b :: fn ++ g.tree.nodes).Nodup := hfn ▸ hg.nodup_nodes
    obtain ⟨T', m', hput, hrep, hfree, hs⟩ := Map.put_of_free_cons acc p hg.tree
      (hfl ▸ hfn ▸ hg.free) (hfl ▸ hg.nodup_tree) hnn hg.tree_le
    have hlinks := SearchTree.links_put_perm g.tree (acc p) (a, p) b
    have hnodes := SearchTree.nodes_put_perm g.tree (acc p) (a, p) b
    unfold Queues.put
    rw [if_pos hroom]
    refine ⟨{ s with mem := m', priorityQ := T' }, ?_, _, hg.replaceTree hfree hrep
      (hg.ordered.put _ _ _) (hg.full.put _ _ _) hs (links_enqueued hfl _) ?_ ?_, ?_⟩
    · unfold putPriorityQueue
      simp only [hput, Option.bind_eq_bind, Option.bind_some]
      rfl
    · rw [hfl]
      exact (hlinks.append_left fl).trans List.perm_middle
    · refine List.perm_iff_count.mpr (fun y => ?_)
      have hcnt := hnodes.count_eq y
      unfold Layout.allNodes
      rw [hfn]
      split at hcnt <;> rename_i hkey <;>
        simp only [hkey, if_true, if_false, Bool.false_eq_true, List.count_append,
          List.count_cons] at hcnt ⊢ <;> omega
    · unfold Layout.queues
      rw [SearchTree.entries_put hg.ordered]

/-- **`pq.isEmpty`**. -/
theorem isEmptyPriorityQueue_refines :
    s.isEmptyPriorityQueue = decide (q.pq = []) := by
  obtain ⟨g, hg, rfl⟩ := h
  have hiff : g.tree.entries = [] ↔ g.tree = .nil := by
    rw [← List.length_eq_zero_iff, SearchTree.length_entries]
    exact ⟨hg.full.eq_nil, fun ht => by rw [ht]; rfl⟩
  unfold isEmptyPriorityQueue Layout.queues
  rw [Bool.eq_iff_iff, decide_eq_true_iff, Map.isEmpty_iff hg.tree, hiff]

/-- **`pq.getMinAccumulator`** is the key of the next entry. -/
theorem getMinAccumulatorPriorityQueue_refines :
    s.getMinAccumulatorPriorityQueue = some (q.pq.head?.map Prod.fst) := by
  obtain ⟨g, hg, rfl⟩ := h
  unfold getMinAccumulatorPriorityQueue
  rw [Map.getMinKey_spec hg.tree hg.tree_le]
  by_cases hne : g.tree = .nil
  · rw [hne]
    unfold Layout.queues
    rw [hne]
    rfl
  · obtain ⟨x, k, hx, hk⟩ := SearchTree.exists_minKey hne
    obtain ⟨c, cs, hcs⟩ := List.exists_cons_of_ne_nil (hg.full.minCells_ne_nil hne)
    unfold Layout.queues
    rw [SearchTree.entries_extractMin hk hcs, hk]
    rfl

/-- **`pq.extractMin`**. -/
theorem extractMinPriorityQueue_refines :
    ∃ s', s.extractMinPriorityQueue = some (q.extractMin.1, s')
      ∧ s'.Refines q.extractMin.2 := by
  obtain ⟨g, hg, rfl⟩ := h
  by_cases hne : g.tree = .nil
  · have hrep := hg.tree
    rw [hne] at hrep
    have hq : g.queues.extractMin = (none, g.queues) := by
      unfold Queues.extractMin Layout.queues
      rw [hne]
      rfl
    rw [hq]
    refine ⟨s, ?_, g, hg, rfl⟩
    unfold extractMinPriorityQueue
    simp only [Map.extractMin_of_nil hrep, Option.bind_eq_bind, Option.bind_some]
    rfl
  · obtain ⟨c, cs, T', m', fn', hext, hcs, hrep, hfree, hnodes, hs⟩ :=
      Map.extractMin_spec hg.tree hg.free hne hg.full hg.nodup_tree hg.nodup_nodes hg.tree_le
    obtain ⟨x, k, hx, hk⟩ := SearchTree.exists_minKey hne
    have hlinks := SearchTree.links_extractMin hx hcs
    have hq : g.queues.extractMin
        = (some c.2, { g.queues with pq := g.tree.extractMin.entries }) := by
      unfold Queues.extractMin Layout.queues
      simp only [SearchTree.entries_extractMin hk hcs]
    rw [hq]
    refine ⟨{ s with mem := m', priorityQ := T' }, ?_, _, hg.replaceTree hfree hrep
      hg.ordered.extractMin hg.full.extractMin hs (fun _ => List.mem_append_right _) ?_ hnodes, rfl⟩
    · unfold extractMinPriorityQueue
      simp only [hext, Option.bind_eq_bind, Option.bind_some]
      rfl
    · rw [hlinks]
      exact List.perm_middle.symm

/-- **`pq.switchToRoundRobinPolicy`**. -/
theorem switchToRoundRobinPolicyPriorityQueue_refines :
    ∃ s', s.switchToRoundRobinPolicyPriorityQueue = some (q.switchToRoundRobin.1, s')
      ∧ s'.Refines q.switchToRoundRobin.2 := by
  obtain ⟨g, hg, rfl⟩ := h
  have hnl := hg.nodup_links
  unfold Layout.allLinks at hnl
  have hempty : s.roundRobinQ.isEmpty = true ↔ g.queues.rrq = [] := by
    rw [hg.rrq.isEmpty_iff]
    exact List.map_eq_nil_iff.symm
  unfold switchToRoundRobinPolicyPriorityQueue Map.transfer Queues.switchToRoundRobin
  by_cases hr : g.queues.rrq = []
  · rw [if_pos hr, hempty.mpr hr]
    obtain ⟨T', q', m', xs', fl', fn', hloop, hdone⟩ := Map.transferLoop_spec hg.tree hg.rrq hg.free
      hg.full (List.nodup_append.mp hnl).1 hg.nodup_nodes
      (by have := hg.nodes.length_eq; unfold Layout.allNodes at this; rw [this]; simp)
      hg.length_tree_le
    refine ⟨{ s with mem := m', priorityQ := T', roundRobinQ := q' }, ?_,
      ⟨fl', fn', .nil, xs', g.rp⟩, ⟨hdone.free, hdone.root, trivial, trivial, hdone.list, ?_, ?_, ?_⟩,
      ?_⟩
    · simp only [Bool.not_true, Bool.false_eq_true, if_false, hloop, Option.bind_eq_bind,
        Option.bind_some]
      rfl
    · refine hg.rp.congr (fun a ha => hdone.frame.links a (fun hm => ?_))
      exact (List.nodup_append.mp hnl).2.2 a hm a ha rfl
    · refine List.Perm.trans ?_ hg.links
      show ((fl' ++ [] ++ linksOf xs') ++ linksOf g.rp).Perm _
      rw [List.append_nil]
      exact hdone.links.append_right _
    · refine List.Perm.trans ?_ hg.nodes
      show (fn' ++ []).Perm _
      rw [List.append_nil]
      exact hdone.nodes
    · have hrr : procsOf g.rrq = [] := hr
      unfold Layout.queues
      rw [hdone.procs, hrr]
      rfl
  · rw [if_neg hr]
    refine ⟨s, ?_, g, hg, rfl⟩
    have : s.roundRobinQ.isEmpty = false := by
      rw [Bool.eq_false_iff]
      exact fun hem => hr (hempty.mp hem)
    rw [this]
    rfl

end

theorem perm_enqueued (a : LinkPtr) (fl : List LinkPtr) (xs : List (LinkPtr × P)) (p : P) :
    (fl ++ linksOf (xs ++ [(a, p)])).Perm (a :: fl ++ linksOf xs) := by
  rw [linksOf_append, ← List.append_assoc]
  exact List.perm_append_singleton a _

section

variable (h : s.Refines q)

include h

/-- **`rrq.enqueue`**. -/
theorem enqueueRoundRobinQueue_refines (p : P) :
    ∃ s', s.enqueueRoundRobinQueue p = some ((q.enqueue p).1, s')
      ∧ s'.Refines (q.enqueue p).2 := by
  obtain ⟨g, hg, rfl⟩ := h
  unfold enqueueRoundRobinQueue Queues.enqueue
  cases hfl : g.freeLinks with
  | nil =>
    rw [if_neg (fun hlt => hg.size_lt_iff.mp hlt hfl)]
    refine ⟨s, ?_, g, hg, rfl⟩
    rw [LinkedList.enqueue_of_free_nil (hfl ▸ hg.free.links)]
    rfl
  | cons a fl =>
    rw [if_pos (hg.size_lt_iff.mpr (by simp [hfl]))]
    obtain ⟨l', L', henq, hrep, hfree, hs⟩ :=
      LinkedList.enqueue_of_free_cons hg.rrq (hfl ▸ hg.free.links) (hfl ▸ hg.nodup_rrq) p
    refine ⟨_, by rw [henq]; rfl, _, hg.replaceRrq hrep hfree
      (fun c hc => hs c (fun hm => hc (links_enqueued hfl _ c hm)))
      (hfl ▸ perm_enqueued a fl g.rrq p), by simp [Layout.queues]⟩

/-- **`rrq.dequeue`**. -/
theorem dequeueRoundRobinQueue_refines :
    s.dequeueRoundRobinQueue.1 = q.dequeue.1
      ∧ s.dequeueRoundRobinQueue.2.Refines q.dequeue.2 := by
  obtain ⟨g, hg, rfl⟩ := h
  unfold dequeueRoundRobinQueue Queues.dequeue
  cases hr : g.rrq with
  | nil =>
    rw [LinkedList.dequeue_of_nil (hr ▸ hg.rrq)]
    unfold Layout.queues
    rw [hr]
    exact ⟨rfl, g, hg, by unfold Layout.queues; rw [hr]; rfl⟩
  | cons c cs =>
    obtain ⟨l', L', hdeq, hrep, hfree, hs⟩ :=
      LinkedList.dequeue_of_cons (hr ▸ hg.rrq) hg.free.links (hr ▸ hg.nodup_rrq)
    rw [hdeq]
    unfold Layout.queues
    rw [hr]
    refine ⟨rfl, _, hg.replaceRrq hrep hfree (fun b hb => hs b ?_) ?_, rfl⟩
    · rintro rfl
      exact hb (by simp [hr])
    · rw [hr]
      exact List.perm_middle.symm

/-- **`rrq.switchToPriorityQueuePolicy`**: the list becomes the list of one
node. The node is there, since the list holds a link the tree does not. -/
theorem switchToPriorityQueuePolicyRoundRobinQueue_refines :
    s.switchToPriorityQueuePolicyRoundRobinQueue.1 = q.switchToPriorityQueue.1
      ∧ s.switchToPriorityQueuePolicyRoundRobinQueue.2.Refines q.switchToPriorityQueue.2 := by
  have hpq := isEmptyPriorityQueue_refines h
  obtain ⟨g, hg, rfl⟩ := h
  unfold isEmptyPriorityQueue at hpq
  unfold switchToPriorityQueuePolicyRoundRobinQueue LinkedList.transfer Queues.switchToPriorityQueue
  rw [hpq]
  by_cases hp : g.queues.pq = []
  · have htree : g.tree = .nil := hg.full.eq_nil (by
      rw [← SearchTree.length_entries]
      exact List.length_eq_zero_iff.mpr hp)
    simp only [hp, decide_true, Bool.not_true, Bool.false_eq_true, if_false, if_true]
    by_cases hr : g.rrq = []
    · rw [if_pos (hg.rrq.isEmpty_iff.mpr hr)]
      refine ⟨rfl, g, hg, ?_⟩
      unfold Layout.queues
      rw [hr, show g.tree.entries = [] from hp]
      rfl
    · rw [if_neg (fun hem => hr (hg.rrq.isEmpty_iff.mp hem))]
      have hnn := hg.nodup_nodes
      have hlen := hg.length_nodes
      unfold Layout.allNodes at hnn
      obtain ⟨b, fn, hfn⟩ : ∃ b fn, g.freeNodes = b :: fn := by
        refine List.exists_cons_of_ne_nil (fun hfn => ?_)
        rw [hfn, htree] at hlen
        exact absurd (show 0 = NPROCMAP from hlen) (by decide)
      rw [hfn] at hnn
      obtain ⟨N, halloc, hfree, hb, hs⟩ := NodePool.allocNode_of_free_cons (hfn ▸ hg.free.nodes)
        (List.nodup_append.mp hnn).1 0
      have hbfn : b ∉ fn := (List.nodup_cons.mp (List.nodup_append.mp hnn).1).1
      have hnode : (({ s.mem with nodePool := N } : Mem P).modifyNode b
          (fun x => { x with listOfProcs := s.roundRobinQ })).node b
          = ⟨0, s.roundRobinQ, none, none, none, none⟩ := by
        rw [Mem.modifyNode_self]
        show { N.nodes b with listOfProcs := s.roundRobinQ } = _
        rw [hb]
      rw [halloc]
      refine ⟨rfl, ⟨g.freeLinks, fn, .node .nil b 0 g.rrq .nil, [], g.rp⟩,
        ⟨?_, ⟨rfl, ?_, ?_, ?_, ?_, ?_⟩, ?_, ?_, LinkedList.Rep.empty _, hg.rp, ?_, ?_⟩, ?_⟩
      · have hN : ({ s.mem with nodePool := N } : Mem P).Free g.freeLinks fn :=
          ⟨hg.free.links, hfree⟩
        exact hN.modifyNode hbfn _
      · rw [hnode]
      · rw [hnode]
      · rw [hnode]
        exact hg.rrq
      · rw [hnode]
        rfl
      · rw [hnode]
        rfl
      · exact ⟨trivial, trivial, by simp [SearchTree.keys], by simp [SearchTree.keys]⟩
      · exact ⟨trivial, hr, trivial⟩
      · refine List.Perm.trans (List.Perm.of_eq ?_) hg.links
        unfold Layout.allLinks
        rw [htree]
        simp [SearchTree.links]
      · refine List.Perm.trans (List.perm_iff_count.mpr (fun y => ?_)) hg.nodes
        unfold Layout.allNodes
        rw [hfn, htree]
        simp [SearchTree.nodes, List.count_cons]
      · simp [Layout.queues, SearchTree.entries]
  · simp only [hp, decide_false, Bool.not_false, if_true, if_false]
    exact ⟨trivial, g, hg, rfl⟩

/-- **`rpholder.isEmpty`**. -/
theorem isEmptyRunningProcessHolder_refines :
    s.isEmptyRunningProcessHolder = decide (q.rp = []) := by
  obtain ⟨g, hg, rfl⟩ := h
  unfold isEmptyRunningProcessHolder
  rw [Bool.eq_iff_iff, decide_eq_true_iff, hg.rp.isEmpty_iff]
  exact List.map_eq_nil_iff.symm

/-- **`rpholder.getMinAccumulator`**. -/
theorem getMinAccumulatorRunningProcessHolder_refines (acc : P → ℤ) :
    s.getMinAccumulatorRunningProcessHolder acc = some (LinkedList.minKeyOf acc q.rp) := by
  obtain ⟨g, hg, rfl⟩ := h
  exact LinkedList.getMinKey_spec acc hg.rp hg.length_rp_le

/-- **`rpholder.add`**. -/
theorem addRunningProcessHolder_refines (p : P) :
    ∃ s', s.addRunningProcessHolder p = some ((q.add p).1, s') ∧ s'.Refines (q.add p).2 := by
  obtain ⟨g, hg, rfl⟩ := h
  unfold addRunningProcessHolder Queues.add
  cases hfl : g.freeLinks with
  | nil =>
    rw [if_neg (fun hlt => hg.size_lt_iff.mp hlt hfl)]
    refine ⟨s, ?_, g, hg, rfl⟩
    rw [LinkedList.enqueue_of_free_nil (hfl ▸ hg.free.links)]
    rfl
  | cons a fl =>
    rw [if_pos (hg.size_lt_iff.mpr (by simp [hfl]))]
    obtain ⟨l', L', henq, hrep, hfree, hs⟩ :=
      LinkedList.enqueue_of_free_cons hg.rp (hfl ▸ hg.free.links) (hfl ▸ hg.nodup_rp) p
    refine ⟨_, by rw [henq]; rfl, _, hg.replaceRp hrep hfree
      (fun c hc => hs c (fun hm => hc (links_enqueued hfl _ c hm)))
      (hfl ▸ perm_enqueued a fl g.rp p), by simp [Layout.queues]⟩

end

section Remove

variable [DecidableEq P]

/-- The first cell that carries a process, with what stands before and
after it. -/
theorem exists_first_cell {p : P} {xs : List (LinkPtr × P)} (h : p ∈ procsOf xs) :
    ∃ us e ws, xs = us ++ e :: ws ∧ e.2 = p ∧ p ∉ procsOf us
      ∧ procsOf (us ++ ws) = (procsOf xs).erase p := by
  induction xs with
  | nil => exact absurd h List.not_mem_nil
  | cons c xs ih =>
    by_cases hc : c.2 = p
    · refine ⟨[], c, xs, rfl, hc, List.not_mem_nil, ?_⟩
      rw [procsOf_cons, hc, List.erase_cons_head]
      rfl
    · obtain ⟨us, e, ws, rfl, he, hus, hperm⟩ := ih ((List.mem_cons.mp h).resolve_left (Ne.symm hc))
      refine ⟨c :: us, e, ws, rfl, he, ?_, ?_⟩
      · rw [procsOf_cons]
        exact List.not_mem_cons_of_ne_of_not_mem (Ne.symm hc) hus
      · rw [procsOf_cons, List.erase_cons_tail (by simpa using hc), ← hperm]
        rfl

/-- **`rpholder.remove`**. -/
theorem removeRunningProcessHolder_refines (h : s.Refines q) (p : P) :
    ∃ s', s.removeRunningProcessHolder p = some ((q.remove p).1, s')
      ∧ s'.Refines (q.remove p).2 := by
  obtain ⟨g, hg, rfl⟩ := h
  unfold removeRunningProcessHolder Queues.remove
  by_cases hp : p ∈ procsOf g.rp
  · obtain ⟨us, e, ws, hrp, rfl, hus, herase⟩ := exists_first_cell hp
    obtain ⟨l', L', hrem, hrep, hfree, hs⟩ := LinkedList.remove_of_mem (hrp ▸ hg.rp)
      hg.free.links (hrp ▸ hg.nodup_rp) hus (hrp ▸ hg.length_rp_le)
    refine ⟨_, ?_, _, hg.replaceRp hrep hfree
      (fun c hc => hs c (fun hm => hc (List.mem_append_right _ (hrp ▸ hm)))) ?_, ?_⟩
    · rw [hrem, show decide (e.2 ∈ g.queues.rp) = true from decide_eq_true hp]
      rfl
    · rw [hrp]
      simp only [linksOf_append, linksOf_cons, List.perm_iff_count, List.count_append,
        List.count_cons]
      intro y
      omega
    · unfold Layout.queues
      rw [herase]
  · refine ⟨s, ?_, g, hg, ?_⟩
    · rw [LinkedList.remove_of_notMem hg.rp hp hg.length_rp_le,
        show decide (p ∈ g.queues.rp) = false from decide_eq_false hp]
      rfl
    · unfold Layout.queues
      rw [List.erase_of_not_mem hp]

omit [DecidableEq P] in
/-- The tree has one node for each key in use. -/
theorem length_nodes_eq_keysInUse {g : Layout P} (hg : s.Rep g) :
    g.tree.nodes.length = g.queues.keysInUse := by
  have hperm : g.tree.keys.Perm (g.tree.entries.map Prod.fst).dedup :=
    (List.perm_ext_iff_of_nodup hg.ordered.nodup_keys (List.nodup_dedup _)).mpr
      (fun k => by rw [List.mem_dedup]; exact hg.full.mem_keys_iff k)
  rw [SearchTree.length_nodes_eq_keys]
  exact hperm.length_eq

/-- The loop of `extractProc` in a state of the structures. -/
theorem Rep.extractProcLoop {g : Layout P} (hg : s.Rep g) (acc : P → ℤ) (p : P) :
    ∃ T' m' t' fl' fn', Map.extractProcLoop acc p NPROCLIST s.priorityQ Map.empty false s.mem
        = some (decide (p ∈ g.queues.pq.map Prod.snd), T', m')
      ∧ Map.extractProcStrict acc p NPROCLIST s.priorityQ Map.empty false s.mem
        = Map.extractProcLoop acc p NPROCLIST s.priorityQ Map.empty false s.mem
      ∧ Extracted acc p g.tree .nil g.freeLinks g.freeNodes s.mem T' m' t' fl' fn' := by
  have hnn := hg.nodup_nodes
  have hle := hg.links.length_eq
  have hne := hg.nodes.length_eq
  have hnil : SearchTree.nil.Rep s.mem none Map.empty.root := rfl
  unfold Layout.allLinks at hle
  unfold Layout.allNodes at hnn hne
  simp only [List.length_append, List.length_range, length_linksOf] at hle hne
  refine Map.extractProcLoop_spec acc p false hg.tree hnil hg.free trivial hg.full trivial
    ?_ ?_ ?_ ?_ hg.length_tree_le
  · simpa [SearchTree.links] using hg.nodup_tree
  · simpa [SearchTree.nodes] using hnn
  · simp only [List.length_append, SearchTree.links, SearchTree.nodes, List.length_nil, NPROCLIST,
      NPROCMAP] at hle hne ⊢
    omega
  · simp only [List.length_append, SearchTree.nodes, List.length_nil]
    omega

/-- **`pq.extractProc`**. -/
theorem extractProcPriorityQueue_refines (h : s.Refines q) (acc : P → ℤ) (p : P) :
    ∃ s', s.extractProcPriorityQueue acc p = some ((q.extractProc acc p).1, s')
      ∧ s'.Refines (q.extractProc acc p).2 := by
  obtain ⟨g, hg, rfl⟩ := h
  have hkeys := length_nodes_eq_keysInUse hg
  have hlen := hg.length_nodes
  unfold extractProcPriorityQueue Queues.extractProc Map.extractProc
  cases hfn : g.freeNodes with
  | nil =>
    rw [hfn] at hlen
    rw [if_neg (show ¬ g.queues.keysInUse < NPROCMAP by simp at hlen; omega)]
    refine ⟨s, ?_, g, hg, rfl⟩
    have hseg := hg.free.nodes.seg
    rw [hfn] at hseg
    rw [show s.mem.nodePool.freeNodes = none from hseg]
    rfl
  | cons b fn =>
    rw [hfn] at hlen
    rw [if_pos (show g.queues.keysInUse < NPROCMAP by simp at hlen; omega)]
    have hroot : s.mem.nodePool.freeNodes = some b := (hfn ▸ hg.free.nodes.seg).head
    obtain ⟨T', m', t', fl', fn', hloop, -, hdone⟩ := hg.extractProcLoop acc p
    have hframe := hdone.frame
    have hpl := hdone.links
    have hpn := hdone.nodes
    simp only [SearchTree.links, SearchTree.nodes, List.append_nil] at hframe hpl hpn
    refine ⟨{ s with mem := m', priorityQ := T' }, ?_, _, hg.replaceTree hdone.free hdone.tree
      hdone.ordered hdone.full hframe (fun _ hm => hm) hpl hpn, ?_⟩
    · rw [hroot]
      simp only [Option.isNone_some, Bool.false_eq_true, if_false, hloop, Option.bind_eq_bind,
        Option.bind_some]
      rfl
    · unfold Layout.queues
      rw [hdone.entries]
      rfl

end Remove

end Operations

end SchedDS

end Xv6
