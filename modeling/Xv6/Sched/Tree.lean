import Xv6.Sched.Lists
import Xv6.Lib.StableQueue

/-!
# Search trees of lists

`SearchTree` is a tree of `MapNode`s with its addresses: each node comes
with where it lives, its key and the cells of its list. This module is
about the shape alone – putting a cell under a key, taking the first cell
of the leftmost node – and about how the shape reads as a queue: the
entries in order, by node from left to right and along the list of each.

The two facts that carry everything above are `entries_put`, that a put in
the tree is a stable put in the list of entries, and `entries_extractMin`,
that what is taken is the head of that list.
-/

namespace Xv6

variable {P : Type}

/-- **A search tree with its addresses**: left subtree, node, its key, the
cells of its list, right subtree. -/
inductive SearchTree (P : Type) where
  | nil : SearchTree P
  | node (left : SearchTree P) (n : NodePtr) (key : ℤ) (cells : List (LinkPtr × P))
      (right : SearchTree P) : SearchTree P

namespace SearchTree

/-- The addresses of the nodes. -/
def nodes : SearchTree P → List NodePtr
  | nil => []
  | node l n _ _ r => l.nodes ++ n :: r.nodes

/-- The links of all the lists. -/
def links : SearchTree P → List LinkPtr
  | nil => []
  | node l _ _ xs r => l.links ++ linksOf xs ++ r.links

/-- The keys, in order. -/
def keys : SearchTree P → List ℤ
  | nil => []
  | node l _ k _ r => l.keys ++ k :: r.keys

/-- **The entries**, in the order the tree lists them: by node from left to
right, and along the list of each node. -/
def entries : SearchTree P → List (ℤ × P)
  | nil => []
  | node l _ k xs r => l.entries ++ (procsOf xs).map (fun p => (k, p)) ++ r.entries

/-- **The search order**, strict on both sides, so that keys are
distinct. -/
def Ordered : SearchTree P → Prop
  | nil => True
  | node l _ k _ r =>
    l.Ordered ∧ r.Ordered ∧ (∀ k' ∈ l.keys, k' < k) ∧ (∀ k' ∈ r.keys, k < k')

/-- No node has an empty list. -/
def Full : SearchTree P → Prop
  | nil => True
  | node l _ _ xs r => l.Full ∧ xs ≠ [] ∧ r.Full

/-- There are as many entries as links. -/
theorem length_entries (t : SearchTree P) : t.entries.length = t.links.length := by
  induction t with
  | nil => rfl
  | node l n k xs r ihl ihr => simp [entries, links, ihl, ihr]

variable {t : SearchTree P}

/-- **A full tree has no more nodes than links.** -/
theorem length_nodes_le (h : t.Full) :
    t.nodes.length ≤ t.links.length := by
  induction t with
  | nil => exact le_rfl
  | node l n k xs r ihl ihr =>
    obtain ⟨hl, hxs, hr⟩ := h
    have hl' := ihl hl
    have hr' := ihr hr
    have hpos : 0 < xs.length := List.length_pos_iff.mpr hxs
    simp only [nodes, links, List.length_append, List.length_cons, length_linksOf]
    omega

/-- The key of an entry is one of the tree's keys. -/
theorem mem_keys_of_mem_entries {e : ℤ × P} (h : e ∈ t.entries) :
    e.1 ∈ t.keys := by
  induction t with
  | nil => exact absurd h List.not_mem_nil
  | node l n k xs r ihl ihr =>
    simp only [entries, List.mem_append, List.mem_map] at h
    simp only [keys, List.mem_append, List.mem_cons]
    rcases h with (h | ⟨p, -, rfl⟩) | h
    · exact Or.inl (ihl h)
    · exact Or.inr (Or.inl rfl)
    · exact Or.inr (Or.inr (ihr h))

/-- Each node has its key. -/
theorem length_nodes_eq_keys (t : SearchTree P) : t.nodes.length = t.keys.length := by
  induction t with
  | nil => rfl
  | node l n k xs r ihl ihr => simp [nodes, keys, ihl, ihr]

/-- In a full tree the keys are those of the entries. -/
theorem Full.mem_keys_iff (h : t.Full) (k : ℤ) :
    k ∈ t.keys ↔ k ∈ t.entries.map Prod.fst := by
  induction t with
  | nil => exact Iff.rfl
  | node l n k' xs r ihl ihr =>
    obtain ⟨hl, hxs, hr⟩ := h
    have hmid : k ∈ ((procsOf xs).map (fun p => (k', p))).map Prod.fst ↔ k = k' := by
      obtain ⟨c, cs, rfl⟩ := List.exists_cons_of_ne_nil hxs
      rw [List.map_map, List.mem_map]
      exact ⟨fun ⟨_, _, h⟩ => h.symm, fun h => ⟨c.2, List.mem_cons_self, h.symm⟩⟩
    simp only [keys, entries, List.mem_append, List.mem_cons, List.map_append, ihl hl, ihr hr, hmid]
    rw [or_assoc]

/-- The search order makes the keys distinct. -/
theorem Ordered.nodup_keys (h : t.Ordered) : t.keys.Nodup := by
  induction t with
  | nil => exact List.nodup_nil
  | node l n k xs r ihl ihr =>
    obtain ⟨hl, hr, hlt, hgt⟩ := h
    simp only [keys, List.nodup_append, List.nodup_cons, List.mem_cons]
    grind

/-! ## Putting and taking, on the shape -/

/-- Put a cell under a key: at the end of the list of the node that has the
key, or alone in a new node `b` where the search ends. -/
def put (k : ℤ) (c : LinkPtr × P) (b : NodePtr) : SearchTree P → SearchTree P
  | nil => node nil b k [c] nil
  | node l n k' xs r =>
    if k = k' then node l n k' (xs ++ [c]) r
    else if k < k' then node (l.put k c b) n k' xs r
    else node l n k' xs (r.put k c b)

/-- Whether the search for a key ends at a node that has it. -/
def hasKey (k : ℤ) : SearchTree P → Bool
  | nil => false
  | node l _ k' _ r => if k = k' then true else if k < k' then l.hasKey k else r.hasKey k

/-- The leftmost node. -/
def minNode : SearchTree P → Option NodePtr
  | nil => none
  | node nil n _ _ _ => some n
  | node l _ _ _ _ => l.minNode

/-- The cells of the leftmost node. -/
def minCells : SearchTree P → List (LinkPtr × P)
  | nil => []
  | node nil _ _ xs _ => xs
  | node l _ _ _ _ => l.minCells

/-- The key of the leftmost node. -/
def minKey : SearchTree P → Option ℤ
  | nil => none
  | node nil _ k _ _ => some k
  | node l _ _ _ _ => l.minKey

/-- Replace the cells of the leftmost node. -/
def setMin (cs : List (LinkPtr × P)) : SearchTree P → SearchTree P
  | nil => nil
  | node nil n k _ r => node nil n k cs r
  | node l n k xs r => node (l.setMin cs) n k xs r

/-- Take the leftmost node out: its right subtree takes its place. -/
def dropMin : SearchTree P → SearchTree P
  | nil => nil
  | node nil _ _ _ r => r
  | node l n k xs r => node l.dropMin n k xs r

/-- Take the first cell of the leftmost node, and the node with it when
that was its only cell. -/
def extractMin (t : SearchTree P) : SearchTree P :=
  match t.minCells with
  | [] => t
  | [_] => t.dropMin
  | _ :: cs => t.setMin cs

variable {k : ℤ} {c : LinkPtr × P}

/-- The keys after a put: one more where the search found none. -/
theorem mem_keys_put {x : ℤ} {b : NodePtr} (h : x ∈ (t.put k c b).keys) : x = k ∨ x ∈ t.keys := by
  induction t with
  | nil => exact Or.inl (List.mem_singleton.mp h)
  | node l n k' xs r ihl ihr =>
    unfold put at h
    split at h
    · exact Or.inr h
    · split at h <;> simp only [keys, List.mem_append, List.mem_cons] at h ⊢ <;> grind

/-- **A put keeps the search order.** -/
theorem Ordered.put (h : t.Ordered) (k : ℤ) (c : LinkPtr × P) (b : NodePtr) :
    (t.put k c b).Ordered := by
  induction t with
  | nil => exact ⟨trivial, trivial, by simp [keys], by simp [keys]⟩
  | node l n k' xs r ihl ihr =>
    obtain ⟨hl, hr, hlt, hgt⟩ := h
    unfold SearchTree.put
    split
    · exact ⟨hl, hr, hlt, hgt⟩
    · split
      · exact ⟨ihl hl, hr, fun x hx => by have := mem_keys_put hx; grind, hgt⟩
      · exact ⟨hl, ihr hr, hlt, fun x hx => by have := mem_keys_put hx; grind⟩

theorem Full.put (h : t.Full) (k : ℤ) (c : LinkPtr × P) (b : NodePtr) : (t.put k c b).Full := by
  induction t with
  | nil => exact ⟨trivial, by simp, trivial⟩
  | node l n k' xs r ihl ihr =>
    obtain ⟨hl, hxs, hr⟩ := h
    unfold SearchTree.put
    split
    · exact ⟨hl, by simp, hr⟩
    · split
      · exact ⟨ihl hl, hxs, hr⟩
      · exact ⟨hl, hxs, ihr hr⟩

/-- A put adds the cell's link. -/
theorem links_put_perm (t : SearchTree P) (k : ℤ) (c : LinkPtr × P) (b : NodePtr) :
    (t.put k c b).links.Perm (c.1 :: t.links) := by
  induction t with
  | nil => exact List.Perm.refl _
  | node l n k' xs r ihl ihr =>
    unfold put
    split
    · simp only [links, linksOf_append, linksOf_cons, linksOf_nil, List.append_assoc,
        List.singleton_append]
      rw [← List.append_assoc, ← List.append_assoc]
      exact List.perm_middle
    · split
      · exact (ihl.append_right _).append_right _
      · exact (ihr.append_left _).trans List.perm_middle

/-- A put adds the new node where the search found none. -/
theorem nodes_put_perm (t : SearchTree P) (k : ℤ) (c : LinkPtr × P) (b : NodePtr) :
    (t.put k c b).nodes.Perm (if t.hasKey k then t.nodes else b :: t.nodes) := by
  induction t with
  | nil => exact List.Perm.refl _
  | node l n k' xs r ihl ihr =>
    unfold put hasKey
    split
    · exact List.Perm.refl _
    · split
      · simp only [nodes]
        refine (ihl.append_right _).trans ?_
        split
        · exact List.Perm.refl _
        · exact List.Perm.refl _
      · simp only [nodes]
        refine ((ihr.cons n).append_left _).trans ?_
        split
        · exact List.Perm.refl _
        · exact ((List.Perm.swap b n _).append_left _).trans List.perm_middle

/-- The keys of the entries are below, or above, what the keys of the tree
are. -/
theorem forall_entries {Q : ℤ → Prop} (h : ∀ k ∈ t.keys, Q k) :
    ∀ e ∈ t.entries, Q e.1 :=
  fun _ he => h _ (mem_keys_of_mem_entries he)

/-- **A put is a stable put on the entries**: the in-order list of the tree
receives the entry after everything with an equal or smaller key. -/
theorem entries_put (h : t.Ordered) (k : ℤ) (c : LinkPtr × P) (b : NodePtr) :
    (t.put k c b).entries = StableQueue.put k c.2 t.entries := by
  induction t with
  | nil => rfl
  | node l n k' xs r ihl ihr =>
    obtain ⟨hl, hr, hlt, hgt⟩ := h
    have hmid : ∀ e ∈ (procsOf xs).map (fun p => (k', p)), e.1 = k' := by simp
    have hbelow := forall_entries hlt
    have habove := forall_entries hgt
    unfold put
    split
    · -- the key is here: behind this node's list, before everything on the right
      rename_i hk
      subst hk
      have hright : ∀ e ∈ r.entries, k < e.1 := forall_entries hgt
      have hleft : ∀ e ∈ l.entries ++ (procsOf xs).map (fun p => (k, p)), e.1 ≤ k := by grind
      simp only [entries]
      rw [StableQueue.put_append_of_le c.2 _ hleft]
      have hr' : StableQueue.put k c.2 r.entries = (k, c.2) :: r.entries := by
        have := StableQueue.put_append_of_lt c.2 [] hright
        simpa using this
      rw [hr']
      simp
    · split
      · rename_i hlt'
        have hright : ∀ e ∈ (procsOf xs).map (fun p => (k', p)) ++ r.entries, k < e.1 := by grind
        simp only [entries]
        rw [ihl hl, List.append_assoc, List.append_assoc,
          StableQueue.put_append_of_lt c.2 _ hright]
      · have hle : k' ≤ k := by omega
        have hleft : ∀ e ∈ l.entries ++ (procsOf xs).map (fun p => (k', p)), e.1 ≤ k := by grind
        simp only [entries]
        rw [ihr hr, StableQueue.put_append_of_le c.2 _ hleft]

/-- The entries come by increasing key. -/
theorem Ordered.sorted (h : t.Ordered) : StableQueue.Sorted t.entries := by
  induction t with
  | nil => exact List.Pairwise.nil
  | node l n k xs r ihl ihr =>
    obtain ⟨hl, hr, hlt, hgt⟩ := h
    have hmid : ∀ e ∈ (procsOf xs).map (fun p => (k, p)), e.1 = k := by simp
    have hbelow := forall_entries hlt
    have habove := forall_entries hgt
    unfold StableQueue.Sorted entries
    rw [List.append_assoc]
    refine List.pairwise_append.mpr ⟨ihl hl, List.pairwise_append.mpr ⟨?_, ihr hr, ?_⟩, ?_⟩
    · exact List.pairwise_map.mpr (List.pairwise_of_forall (fun _ _ => le_rfl))
    all_goals grind

/-! ### The leftmost node -/

variable {n : NodePtr}

/-- The leftmost node is one of the nodes. -/
theorem minNode_mem (h : t.minNode = some n) :
    n ∈ t.nodes := by
  induction t with
  | nil => exact absurd h (by simp [minNode])
  | node l n' k xs r ihl _ =>
    cases l with
    | nil => simp_all [minNode, nodes]
    | node => exact List.mem_append_left _ (ihl h)

/-- Replacing the leftmost cells leaves the leftmost node where it is. -/
theorem minNode_setMin (cs : List (LinkPtr × P)) (t : SearchTree P) :
    (t.setMin cs).minNode = t.minNode := by
  induction t with
  | nil => rfl
  | node l n k xs r ihl _ =>
    cases l with
    | nil => rfl
    | node l' n' k' xs' r' =>
      cases l' with
      | nil => rfl
      | node => exact ihl

@[simp] theorem setMin_nodes (cs : List (LinkPtr × P)) (t : SearchTree P) :
    (t.setMin cs).nodes = t.nodes := by
  induction t with
  | nil => rfl
  | node l n k xs r ihl _ =>
    cases l with
    | nil => rfl
    | node => simp only [setMin, nodes] at ihl ⊢; rw [ihl]

@[simp] theorem setMin_keys (cs : List (LinkPtr × P)) (t : SearchTree P) :
    (t.setMin cs).keys = t.keys := by
  induction t with
  | nil => rfl
  | node l n k xs r ihl _ =>
    cases l with
    | nil => rfl
    | node => simp only [setMin, keys] at ihl ⊢; rw [ihl]

/-- What is dropped with the leftmost node is its address. -/
theorem nodes_eq_of_minNode (h : t.minNode = some n) :
    t.nodes = n :: t.dropMin.nodes := by
  induction t with
  | nil => exact absurd h (by simp [minNode])
  | node l n' k xs r ihl _ =>
    cases l with
    | nil => simp_all [minNode, nodes, dropMin]
    | node => simp only [dropMin, nodes] at ihl ⊢; rw [ihl h]; rfl

/-- The links begin with those of the leftmost node. -/
theorem links_eq_minCells (t : SearchTree P) :
    t.links = linksOf t.minCells ++ t.dropMin.links := by
  induction t with
  | nil => rfl
  | node l n k xs r ihl _ =>
    cases l with
    | nil => simp [minCells, links, dropMin]
    | node => simp only [minCells, dropMin, links] at ihl ⊢; rw [ihl]; simp

/-- Replacing the leftmost cells replaces the first links. -/
theorem links_setMin (h : t.minNode = some n) (cs : List (LinkPtr × P)) :
    (t.setMin cs).links = linksOf cs ++ t.dropMin.links := by
  induction t with
  | nil => exact absurd h (by simp [minNode])
  | node l n' k xs r ihl _ =>
    cases l with
    | nil => simp [setMin, links, dropMin]
    | node =>
      have := ihl h
      simp only [setMin, dropMin, links] at this ⊢
      rw [this]
      simp

/-- Replacing the leftmost cells before dropping their node does
nothing. -/
@[simp] theorem dropMin_setMin (cs : List (LinkPtr × P)) (t : SearchTree P) :
    (t.setMin cs).dropMin = t.dropMin := by
  induction t with
  | nil => rfl
  | node l n k xs r ihl _ =>
    cases l with
    | nil => rfl
    | node l' n' k' xs' r' =>
      cases l' with
      | nil => rfl
      | node => simp only [setMin, dropMin] at ihl ⊢; rw [ihl]

/-- The leftmost node of a full tree has a cell to take. -/
theorem Full.minCells_ne_nil (h : t.Full) (hne : t ≠ nil) :
    t.minCells ≠ [] := by
  induction t with
  | nil => exact absurd rfl hne
  | node l n k xs r ihl _ =>
    cases l with
    | nil => exact h.2.1
    | node => exact ihl h.1 (by simp)

variable {cs : List (LinkPtr × P)}

theorem Full.setMin (h : t.Full) (hcs : cs ≠ []) : (t.setMin cs).Full := by
  induction t with
  | nil => trivial
  | node l n k xs r ihl _ =>
    cases l with
    | nil => exact ⟨trivial, hcs, h.2.2⟩
    | node => exact ⟨ihl h.1, h.2⟩

theorem Full.dropMin (h : t.Full) : t.dropMin.Full := by
  induction t with
  | nil => trivial
  | node l n k xs r ihl _ =>
    cases l with
    | nil => exact h.2.2
    | node => exact ⟨ihl h.1, h.2⟩

theorem Ordered.setMin (h : t.Ordered) (cs : List (LinkPtr × P)) :
    (t.setMin cs).Ordered := by
  induction t with
  | nil => trivial
  | node l n k xs r ihl _ =>
    cases l with
    | nil => exact h
    | node l' n' k' xs' r' =>
      obtain ⟨hl, hr, hlt, hgt⟩ := h
      exact ⟨ihl hl, hr, by rw [setMin_keys]; exact hlt, hgt⟩

theorem keys_dropMin_subset (t : SearchTree P) : ∀ k ∈ t.dropMin.keys, k ∈ t.keys := by
  induction t with
  | nil => exact fun _ h => h
  | node l n k xs r ihl _ =>
    cases l with
    | nil => exact fun x h => List.mem_cons_of_mem k h
    | node =>
      intro x h
      rcases List.mem_append.mp h with h | h
      · exact List.mem_append_left _ (ihl x h)
      · exact List.mem_append_right _ h

theorem Ordered.dropMin (h : t.Ordered) : t.dropMin.Ordered := by
  induction t with
  | nil => trivial
  | node l n k xs r ihl _ =>
    obtain ⟨hl, hr, hlt, hgt⟩ := h
    cases l with
    | nil => exact hr
    | node => exact ⟨ihl hl, hr, fun x hx => hlt x (keys_dropMin_subset _ x hx), hgt⟩

/-- The entries begin with those of the leftmost node. -/
theorem entries_eq_minCells (h : t.minKey = some k) (cs : List (LinkPtr × P)) :
    t.entries = (procsOf t.minCells).map (fun p => (k, p)) ++ t.dropMin.entries
      ∧ (t.setMin cs).entries = (procsOf cs).map (fun p => (k, p)) ++ t.dropMin.entries := by
  induction t with
  | nil => exact absurd h (by simp [minKey])
  | node l n k' xs r ihl _ =>
    cases l with
    | nil =>
      obtain rfl : k' = k := Option.some.inj h
      simp [minCells, setMin, dropMin, entries]
    | node =>
      obtain ⟨h₁, h₂⟩ := ihl h
      constructor
      · simp only [minCells, dropMin, entries] at h₁ ⊢
        rw [h₁]
        simp
      · simp only [setMin, dropMin, entries] at h₂ ⊢
        rw [h₂]
        simp

theorem exists_minKey (hne : t ≠ nil) :
    ∃ n k, t.minNode = some n ∧ t.minKey = some k := by
  induction t with
  | nil => exact absurd rfl hne
  | node l n k xs r ihl _ =>
    cases l with
    | nil => exact ⟨n, k, rfl, rfl⟩
    | node => exact ihl (by simp)

theorem Ordered.extractMin (h : t.Ordered) : t.extractMin.Ordered := by
  unfold SearchTree.extractMin
  split
  · exact h
  · exact h.dropMin
  · exact h.setMin _

theorem Full.extractMin (h : t.Full) : t.extractMin.Full := by
  unfold SearchTree.extractMin
  split
  · exact h
  · exact h.dropMin
  · rename_i hne _
    exact h.setMin (fun hnil => hne (by rw [hnil]))

/-- **Taking the minimum takes the head of the entries**, with the key of
the leftmost node. -/
theorem entries_extractMin (hk : t.minKey = some k) (hc : t.minCells = c :: cs) :
    t.entries = (k, c.2) :: t.extractMin.entries := by
  obtain ⟨h₁, h₂⟩ := entries_eq_minCells hk cs
  rw [h₁, hc]
  unfold extractMin
  rw [hc]
  cases cs with
  | nil => rfl
  | cons d cs => rw [h₂]; rfl

/-- Taking the minimum gives up one link. -/
theorem links_extractMin (hn : t.minNode = some n) (hc : t.minCells = c :: cs) :
    t.links = c.1 :: t.extractMin.links := by
  rw [links_eq_minCells, hc]
  unfold extractMin
  rw [hc]
  cases cs with
  | nil => rfl
  | cons d cs => rw [links_setMin hn]; rfl

end SearchTree

end Xv6
