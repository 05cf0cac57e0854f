import Xv6.Sched.Tree

/-!
# What the tree operations do

`SearchTree.Rep` says that a memory holds a tree under a root pointer, with
every `left`, `right` and `parent` field as the shape demands, and each
operation of `Map` and `MapNode` is shown to do on the memory what its
namesake does on the shape.

The loops of `MapNode` only ever walk down, so a step into a subtree
changes nothing above it. That is why the statements are about a subtree
with an arbitrary parent: the induction is on the tree, and what lies
outside the subtree comes back through the frame – an operation leaves
alone every link and node that is neither in the tree it works on nor on a
free list.
-/

namespace Xv6

open Function

variable {P : Type}

namespace NodePool

/-- The `next` field of a node, which threads the free ones. -/
def next (N : NodePool) (n : NodePtr) : Option NodePtr := (N.nodes n).next

/-- **The free nodes**: the free list meets exactly `fn`, and each of them
has null tree pointers and an empty list. -/
structure Free (N : NodePool) (fn : List NodePtr) : Prop where
  seg : Seg N.next N.freeNodes fn none
  parent : ∀ n ∈ fn, (N.nodes n).parent = none
  left : ∀ n ∈ fn, (N.nodes n).left = none
  right : ∀ n ∈ fn, (N.nodes n).right = none
  listOfProcs : ∀ n ∈ fn, (N.nodes n).listOfProcs = LinkedList.empty

@[simp] theorem modify_nodes_self (N : NodePool) (n : NodePtr) (f : MapNode → MapNode) :
    (N.modify n f).nodes n = f (N.nodes n) :=
  update_self _ _ _

@[simp] theorem modify_nodes_of_ne (N : NodePool) {n x : NodePtr} (f : MapNode → MapNode)
    (h : x ≠ n) : (N.modify n f).nodes x = N.nodes x :=
  update_of_ne h _ _

variable {N : NodePool} {fn : List NodePtr}

/-- The free list depends on its own nodes alone. -/
theorem Free.congr {N' : NodePool} (h : N.Free fn) (hf : N'.freeNodes = N.freeNodes)
    (hn : ∀ n ∈ fn, N'.nodes n = N.nodes n) :
    N'.Free fn where
  seg := by
    rw [hf]
    exact h.seg.congr (fun n hm => congrArg MapNode.next (hn n hm))
  parent := fun n hm => by rw [hn n hm, h.parent n hm]
  left := fun n hm => by rw [hn n hm, h.left n hm]
  right := fun n hm => by rw [hn n hm, h.right n hm]
  listOfProcs := fun n hm => by rw [hn n hm, h.listOfProcs n hm]

variable {b : NodePtr}

/-- The free nodes behind the head, in a memory that changed the head and
moved past it. -/
theorem Free.tail {N' : NodePool} (h : N.Free (b :: fn)) (hb : b ∉ fn)
    (hf : N'.freeNodes = N.next b) (hn : ∀ n, n ≠ b → N'.nodes n = N.nodes n) :
    N'.Free fn := by
  have hne : ∀ n ∈ fn, n ≠ b := fun n hm hnb => hb (hnb ▸ hm)
  have htail : (⟨N.nodes, N.next b⟩ : NodePool).Free fn :=
    ⟨h.seg.2, fun n hm => h.parent n (List.mem_cons_of_mem b hm),
      fun n hm => h.left n (List.mem_cons_of_mem b hm),
      fun n hm => h.right n (List.mem_cons_of_mem b hm),
      fun n hm => h.listOfProcs n (List.mem_cons_of_mem b hm)⟩
  exact htail.congr hf (fun n hm => hn n (hne n hm))

/-- **Taking a node**: the head of the free list, with the key asked for
and nothing else in it. -/
theorem allocNode_of_free_cons (h : N.Free (b :: fn)) (hnd : (b :: fn).Nodup) (key : ℤ) :
    ∃ N', N.allocNode key = (some b, N') ∧ N'.Free fn
      ∧ N'.nodes b = ⟨key, LinkedList.empty, none, none, none, none⟩
      ∧ ∀ n, n ≠ b → N'.nodes n = N.nodes n := by
  have hb : b ∈ b :: fn := List.mem_cons_self
  have hframe : ∀ n, n ≠ b →
      (N.modify b (fun m => { m with next := none, key := key })).nodes n = N.nodes n :=
    fun n hn => modify_nodes_of_ne N _ hn
  refine ⟨{ N.modify b (fun m => { m with next := none, key := key }) with
    freeNodes := (N.nodes b).next }, ?_, ?_, ?_, hframe⟩
  · unfold allocNode
    rw [h.seg.head]
  · exact h.tail (List.nodup_cons.mp hnd).1 rfl hframe
  · show (N.modify b (fun m => { m with next := none, key := key })).nodes b = _
    rw [modify_nodes_self, h.parent b hb, h.left b hb, h.right b hb, h.listOfProcs b hb]

/-- **Giving a node back** in front of the free list, when its own list is
empty. -/
theorem deallocNode_free (h : N.Free fn) (hb : b ∉ fn)
    (hl : (N.nodes b).listOfProcs = LinkedList.empty) :
    (N.deallocNode b).Free (b :: fn) ∧ ∀ n, n ≠ b → (N.deallocNode b).nodes n = N.nodes n := by
  have hframe : ∀ n, n ≠ b → (N.deallocNode b).nodes n = N.nodes n :=
    fun n hn => update_of_ne hn _ _
  have hself : (N.deallocNode b).nodes b
      = { N.nodes b with parent := none, left := none, right := none, next := N.freeNodes } :=
    update_self _ _ _
  have hne : ∀ n ∈ fn, n ≠ b := fun n hm hnb => hb (hnb ▸ hm)
  obtain ⟨hseg, hparent, hleft, hright, hlist⟩ := h
  refine ⟨⟨⟨rfl, ?_⟩, ?_, ?_, ?_, ?_⟩, hframe⟩
  · unfold next
    rw [hself]
    exact hseg.congr (fun n hm => congrArg MapNode.next (hframe n (hne n hm)))
  all_goals grind

end NodePool

namespace Mem

/-- Both free lists. -/
structure Free (m : Mem P) (fl : List LinkPtr) (fn : List NodePtr) : Prop where
  links : m.linkPool.Free fl
  nodes : m.nodePool.Free fn

/-- **The frame**: `m'` is `m` outside the links `fl` and the nodes
`fn`. -/
structure SameOff (m m' : Mem P) (fl : List LinkPtr) (fn : List NodePtr) : Prop where
  links : ∀ a ∉ fl, m'.linkPool.links a = m.linkPool.links a
  nodes : ∀ n ∉ fn, m'.node n = m.node n

variable {m : Mem P} {fl : List LinkPtr} {fn : List NodePtr}

theorem SameOff.mono {m' : Mem P} {fl' : List LinkPtr} {fn' : List NodePtr} (h : m.SameOff m' fl fn)
    (hl : ∀ a ∈ fl, a ∈ fl') (hn : ∀ n ∈ fn, n ∈ fn') :
    m.SameOff m' fl' fn' :=
  ⟨fun a ha => h.links a (fun hm => ha (hl a hm)),
    fun n hm => h.nodes n (fun hm' => hm (hn n hm'))⟩

theorem SameOff.refl (m : Mem P) (fl : List LinkPtr) (fn : List NodePtr) : m.SameOff m fl fn :=
  ⟨fun _ _ => rfl, fun _ _ => rfl⟩

@[simp] theorem modifyNode_self (m : Mem P) (n : NodePtr) (f : MapNode → MapNode) :
    (m.modifyNode n f).node n = f (m.node n) :=
  NodePool.modify_nodes_self _ _ _

variable {n : NodePtr}

@[simp] theorem modifyNode_of_ne (m : Mem P) {x : NodePtr} (f : MapNode → MapNode) (h : x ≠ n) :
    (m.modifyNode n f).node x = m.node x :=
  NodePool.modify_nodes_of_ne _ _ h

/-- A write to a node in use leaves the free lists as they are. -/
theorem Free.modifyNode (h : m.Free fl fn) (hn : n ∉ fn) (f : MapNode → MapNode) :
    (m.modifyNode n f).Free fl fn :=
  ⟨h.links, h.nodes.congr rfl (fun _ hx => modifyNode_of_ne m f (fun hxn => hn (hxn ▸ hx)))⟩

/-- With no link left, `enqueueAt` fails and changes nothing. -/
theorem enqueueAt_of_free_nil (h : m.Free [] fn) (n : NodePtr) (p : P) :
    m.enqueueAt n p = some (false, m) := by
  unfold enqueueAt
  rw [LinkedList.enqueue_of_free_nil h.links]
  simp only [Option.bind_eq_bind, Option.bind_some]
  have : m.modifyNode n (fun x => { x with listOfProcs := (m.node n).listOfProcs }) = m := by
    show { m with nodePool := { m.nodePool with nodes := update _ n (m.node n) } } = m
    unfold Mem.node
    rw [update_eq_self]
  exact congrArg (fun m' => some (false, m')) this

/-- **Appending to the list of a node** with the first free link: only that
node and the links of its list change. -/
theorem enqueueAt_of_free_cons {a : LinkPtr} {xs : List (LinkPtr × P)} (h : m.Free (a :: fl) fn)
    (hl : (m.node n).listOfProcs.Rep m.linkPool xs) (hnd : (a :: fl ++ linksOf xs).Nodup)
    (hn : n ∉ fn) (p : P) :
    ∃ m' l, m.enqueueAt n p = some (true, m') ∧ l.Rep m'.linkPool (xs ++ [(a, p)])
      ∧ m'.Free fl fn ∧ m'.node n = { m.node n with listOfProcs := l }
      ∧ m.SameOff m' (a :: linksOf xs) [n] := by
  obtain ⟨l, L, henq, hrep, hfree, hframe⟩ :=
    LinkedList.enqueue_of_free_cons hl h.links hnd p
  refine ⟨{ m with linkPool := L }.modifyNode n (fun x => { x with listOfProcs := l }), l,
    ?_, hrep, ?_, modifyNode_self _ _ _, hframe, fun x hx => ?_⟩
  · unfold enqueueAt
    rw [henq]
    rfl
  · have hL : ({ m with linkPool := L } : Mem P).Free fl fn := ⟨hfree, h.nodes⟩
    exact hL.modifyNode hn _
  · exact modifyNode_of_ne _ _ (fun hxn => hx (List.mem_singleton.mpr hxn))

/-- **A failed allocation is undone**: with no link left the node taken for
the process goes back where it was. -/
theorem allocNode_of_free_nil (h : m.Free [] fn) (hnd : fn.Nodup) (p : P) (key : ℤ) :
    ∃ m', m.allocNode p key = some (none, m') ∧ m'.Free [] fn ∧ m.SameOff m' [] fn := by
  cases fn with
  | nil =>
    refine ⟨m, ?_, h, SameOff.refl m _ _⟩
    unfold allocNode
    rw [show m.nodePool.freeNodes = none from h.nodes.seg]
    rfl
  | cons b fn =>
    obtain ⟨N, halloc, hfree, hb, hframe⟩ :=
      NodePool.allocNode_of_free_cons h.nodes hnd key
    have hbf : b ∉ fn := (List.nodup_cons.mp hnd).1
    have henq := enqueueAt_of_free_nil (m := ⟨m.linkPool, N⟩) ⟨h.links, hfree⟩ b p
    obtain ⟨hfree', hframe'⟩ :=
      NodePool.deallocNode_free hfree hbf (by rw [hb])
    refine ⟨⟨m.linkPool, N.deallocNode b⟩, ?_, ⟨h.links, hfree'⟩, fun _ _ => rfl, fun n hn => ?_⟩
    · unfold allocNode
      rw [show m.nodePool.freeNodes = some b from h.nodes.seg.head, halloc]
      simp only [Option.isNone_some, Bool.false_eq_true, if_false, henq]
      rfl
    · rw [List.mem_cons, not_or] at hn
      exact (hframe' n hn.1).trans (hframe n hn.1)

/-- **A node for a process**: the first free node, with the first free link
in its list. -/
theorem allocNode_of_free_cons {a : LinkPtr} {b : NodePtr} (h : m.Free (a :: fl) (b :: fn))
    (hfl : (a :: fl).Nodup) (hfn : (b :: fn).Nodup) (p : P) (key : ℤ) :
    ∃ m' l, m.allocNode p key = some (some b, m') ∧ l.Rep m'.linkPool [(a, p)]
      ∧ m'.Free fl fn ∧ m'.node b = ⟨key, l, none, none, none, none⟩
      ∧ m.SameOff m' [a] [b] := by
  obtain ⟨N, halloc, hfree, hb, hframe⟩ := NodePool.allocNode_of_free_cons h.nodes hfn key
  have hl : ((⟨m.linkPool, N⟩ : Mem P).node b).listOfProcs.Rep m.linkPool [] := by
    show (N.nodes b).listOfProcs.Rep _ _
    rw [hb]
    exact LinkedList.Rep.empty _
  obtain ⟨m', l, henq, hrep, hfree', hnode, hsame⟩ :=
    enqueueAt_of_free_cons (m := ⟨m.linkPool, N⟩) ⟨h.links, hfree⟩ hl (by simpa using hfl)
      (List.nodup_cons.mp hfn).1 p
  refine ⟨m', l, ?_, hrep, hfree', ?_, hsame.links, fun n hn => ?_⟩
  · unfold allocNode
    rw [show m.nodePool.freeNodes = some b from h.nodes.seg.head, halloc]
    simp only [Option.isNone_some, Bool.false_eq_true, if_false, henq]
    rfl
  · rw [hnode]
    show { N.nodes b with listOfProcs := l } = _
    rw [hb]
  · rw [hsame.nodes n hn]
    exact hframe n (fun hnb => hn (List.mem_singleton.mpr hnb))

end Mem

/-! ## Trees in memory -/

namespace SearchTree

/-- **The memory holds the tree** under `root`, whose parent is `par`. -/
def Rep (m : Mem P) : SearchTree P → Option NodePtr → Option NodePtr → Prop
  | nil, _, root => root = none
  | node l n k xs r, par, root =>
    root = some n ∧ (m.node n).key = k ∧ (m.node n).parent = par
      ∧ (m.node n).listOfProcs.Rep m.linkPool xs
      ∧ l.Rep m (some n) (m.node n).left ∧ r.Rep m (some n) (m.node n).right

variable {m m' : Mem P} {t : SearchTree P} {par root : Option NodePtr}

/-- **The frame of a tree**: a memory that agrees on its links and nodes
holds the same tree. -/
theorem Rep.congr (h : t.Rep m par root)
    (hl : ∀ a ∈ t.links, m'.linkPool.links a = m.linkPool.links a)
    (hn : ∀ n ∈ t.nodes, m'.node n = m.node n) : t.Rep m' par root := by
  induction t generalizing par root with
  | nil => exact h
  | node l n k xs r ihl ihr =>
    obtain ⟨hroot, hk, hp, hxs, hleft, hright⟩ := h
    simp only [links, nodes, List.mem_append, List.mem_cons] at hl hn
    have hnode : m'.node n = m.node n := hn n (Or.inr (Or.inl rfl))
    refine ⟨hroot, by rw [hnode, hk], by rw [hnode, hp], ?_, ?_, ?_⟩
    · rw [hnode]
      exact hxs.congr (fun a ha => hl a (Or.inl (Or.inr ha)))
    · rw [hnode]
      exact ihl hleft (fun a ha => hl a (Or.inl (Or.inl ha))) (fun x hx => hn x (Or.inl hx))
    · rw [hnode]
      exact ihr hright (fun a ha => hl a (Or.inr ha)) (fun x hx => hn x (Or.inr (Or.inr hx)))

variable {fl : List LinkPtr} {fn : List NodePtr}

/-- The frame, from a memory that changed elsewhere. -/
theorem Rep.frame (h : t.Rep m par root) (hs : m.SameOff m' fl fn) (hl : ∀ a ∈ t.links, a ∉ fl)
    (hn : ∀ n ∈ t.nodes, n ∉ fn) : t.Rep m' par root :=
  h.congr (fun a ha => hs.links a (hl a ha)) (fun n hm => hs.nodes n (hn n hm))

/-- A null root is the empty tree. -/
theorem Rep.root_eq_none_iff (h : t.Rep m par root) : root = none ↔ t = nil := by
  cases t with
  | nil => exact ⟨fun _ => rfl, fun _ => h⟩
  | node l n k xs r => simp [h.1]

/-- A memory holds one tree under a root. -/
theorem Rep.unique {t' : SearchTree P} {par' : Option NodePtr} (h : t.Rep m par root)
    (h' : t'.Rep m par' root) : t = t' := by
  induction t generalizing t' par par' root with
  | nil => exact (h'.root_eq_none_iff.mp h).symm
  | node l n k xs r ihl ihr =>
    cases t' with
    | nil => exact absurd (h.1.symm.trans h') (by simp)
    | node l' n' k' xs' r' =>
      obtain ⟨hroot, hk, -, hxs, hl, hr⟩ := h
      obtain ⟨hroot', hk', -, hxs', hl', hr'⟩ := h'
      obtain rfl : n = n' := Option.some.inj (hroot.symm.trans hroot')
      rw [ihl hl hl', ihr hr hr', hxs.unique hxs', ← hk, ← hk']

variable {l r : SearchTree P} {n : NodePtr} {k : ℤ} {xs : List (LinkPtr × P)}

section

variable (h : (node l n k xs r).Rep m par root)

include h

/-- **A new left subtree**: the node's left pointer was the only write to
it, and its list and right subtree are where they were. -/
theorem Rep.replaceLeft {l' : SearchTree P} {q : Option NodePtr} (hs : m.SameOff m' fl fn)
    (hx : ∀ a ∈ linksOf xs, a ∉ fl) (hrl : ∀ a ∈ r.links, a ∉ fl) (hrn : ∀ x ∈ r.nodes, x ∉ fn)
    (hn : m'.node n = { m.node n with left := q }) (hl : l'.Rep m' (some n) q) :
    (node l' n k xs r).Rep m' par root := by
  obtain ⟨hroot, hk, hp, hxs, -, hr⟩ := h
  refine ⟨hroot, by rw [hn, ← hk], by rw [hn, ← hp], ?_, ?_, ?_⟩
  · rw [hn]
    exact hxs.congr (fun a ha => hs.links a (hx a ha))
  · rw [hn]
    exact hl
  · rw [hn]
    exact hr.frame hs hrl hrn

/-- **A new right subtree**, likewise. -/
theorem Rep.replaceRight {r' : SearchTree P} {q : Option NodePtr} (hs : m.SameOff m' fl fn)
    (hx : ∀ a ∈ linksOf xs, a ∉ fl) (hll : ∀ a ∈ l.links, a ∉ fl) (hln : ∀ x ∈ l.nodes, x ∉ fn)
    (hn : m'.node n = { m.node n with right := q }) (hr : r'.Rep m' (some n) q) :
    (node l n k xs r').Rep m' par root := by
  obtain ⟨hroot, hk, hp, hxs, hl, -⟩ := h
  refine ⟨hroot, by rw [hn, ← hk], by rw [hn, ← hp], ?_, ?_, ?_⟩
  · rw [hn]
    exact hxs.congr (fun a ha => hs.links a (hx a ha))
  · rw [hn]
    exact hl.frame hs hll hln
  · rw [hn]
    exact hr

/-- **A new list** in a node, both subtrees being where they were. -/
theorem Rep.replaceCells {ys : List (LinkPtr × P)} {q : LinkedList} (hs : m.SameOff m' fl fn)
    (hll : ∀ a ∈ l.links, a ∉ fl) (hrl : ∀ a ∈ r.links, a ∉ fl) (hln : ∀ x ∈ l.nodes, x ∉ fn)
    (hrn : ∀ x ∈ r.nodes, x ∉ fn) (hn : m'.node n = { m.node n with listOfProcs := q })
    (hq : q.Rep m'.linkPool ys) :
    (node l n k ys r).Rep m' par root := by
  obtain ⟨hroot, hk, hp, -, hl, hr⟩ := h
  refine ⟨hroot, by rw [hn, ← hk], by rw [hn, ← hp], ?_, ?_, ?_⟩
  · rw [hn]
    exact hq
  · rw [hn]
    exact hl.frame hs hll hln
  · rw [hn]
    exact hr.frame hs hrl hrn

end

/-- **The pieces of a tree are apart**, from each other and from what the
whole tree is apart from. -/
structure Apart (fl : List LinkPtr) (fn : List NodePtr) (l : SearchTree P) (n : NodePtr)
    (xs : List (LinkPtr × P)) (r : SearchTree P) : Prop where
  left_links : (fl ++ l.links).Nodup
  left_nodes : (fn ++ l.nodes).Nodup
  right_links : (fl ++ r.links).Nodup
  right_nodes : (fn ++ r.nodes).Nodup
  cells : (fl ++ linksOf xs).Nodup
  self : n ∉ fn
  self_left : n ∉ l.nodes
  self_right : n ∉ r.nodes
  left_cells : ∀ a ∈ l.links, a ∉ linksOf xs
  left_right_links : ∀ a ∈ l.links, a ∉ r.links
  right_cells : ∀ a ∈ r.links, a ∉ linksOf xs
  left_right_nodes : ∀ x ∈ l.nodes, x ∉ r.nodes

theorem apart_of_nodup (hl : (fl ++ (node l n k xs r).links).Nodup)
    (hn : (fn ++ (node l n k xs r).nodes).Nodup) :
    Apart fl fn l n xs r := by
  simp only [links, nodes, List.nodup_append, List.nodup_cons, List.mem_append,
    List.mem_cons] at hl hn
  constructor <;> try rw [List.nodup_append]
  all_goals grind

/-- What is on the free list is not in the tree. -/
theorem notMem_of_nodup_append {α : Type} {l l' : List α} {a : α} (h : (l ++ l').Nodup)
    (ha : a ∈ l') : a ∉ l :=
  fun hm => (List.nodup_append.mp h).2.2 a hm a ha rfl

end SearchTree

/-! ## Put -/

variable {m : Mem P} {n : NodePtr}

/-- **Hanging a new node** under `n`: the first free node, with the process
in its list and `n` as its parent. `f` is the write to the child pointer
of `n`. -/
theorem Mem.hang_spec {a : LinkPtr} {fl : List LinkPtr} {b : NodePtr} {fn : List NodePtr}
    (h : m.Free (a :: fl) (b :: fn)) (hfl : (a :: fl).Nodup) (hfn : (b :: fn).Nodup)
    (hn : n ∉ b :: fn) (p : P) (key : ℤ) (f : MapNode → MapNode) :
    ∃ m₁, m.allocNode p key = some (some b, m₁)
      ∧ let m' := (m₁.modifyNode n f).modifyNode b (fun x => { x with parent := some n })
        (SearchTree.node .nil b key [(a, p)] .nil).Rep m' (some n) (some b)
          ∧ m'.Free fl fn ∧ m'.node n = f (m.node n) ∧ m.SameOff m' [a] [n, b] := by
  obtain ⟨m₁, l, halloc, hrep, hfree, hb, hsame⟩ := m.allocNode_of_free_cons h hfl hfn p key
  rw [List.mem_cons, not_or] at hn
  have hbn : b ≠ n := fun hbn => hn.1 hbn.symm
  refine ⟨m₁, halloc, ?_, ?_, ?_, fun c hc => hsame.links c hc, fun x hx => ?_⟩
  · have hnode : ((m₁.modifyNode n f).modifyNode b (fun x => { x with parent := some n })).node b
        = ⟨key, l, none, some n, none, none⟩ := by
      rw [Mem.modifyNode_self, Mem.modifyNode_of_ne m₁ f hbn, hb]
    refine ⟨rfl, ?_, ?_, ?_, ?_, ?_⟩
    · rw [hnode]
    · rw [hnode]
    · rw [hnode]
      exact hrep
    · rw [hnode]
      rfl
    · rw [hnode]
      rfl
  · exact (hfree.modifyNode hn.2 f).modifyNode (List.nodup_cons.mp hfn).1 _
  · rw [Mem.modifyNode_of_ne _ _ hn.1, Mem.modifyNode_self,
      hsame.nodes n (fun hm => hn.1 (List.mem_singleton.mp hm))]
  · simp only [List.mem_cons, List.not_mem_nil, or_false, not_or] at hx
    rw [Mem.modifyNode_of_ne _ _ hx.2, Mem.modifyNode_of_ne _ _ hx.1]
    exact hsame.nodes x (fun hm => hx.2 (List.mem_singleton.mp hm))

namespace MapNode

/-- **A put with no link left fails** and leaves the tree and both pools as
they are. -/
theorem put_of_free_nil (acc : P → ℤ) (p : P) {fn : List NodePtr} (hf : m.Free [] fn)
    (hfn : fn.Nodup) {t : SearchTree P} {par : Option NodePtr} {fuel : ℕ} (h : t.Rep m par (some n))
    (hdisj : ∀ x ∈ t.nodes, x ∉ fn) (hfuel : t.nodes.length ≤ fuel) :
    ∃ m', put acc p fuel n m = some (false, m') ∧ m'.Free [] fn ∧ m.SameOff m' [] fn := by
  induction t generalizing par n fuel with
  | nil => exact absurd h (by simp [SearchTree.Rep])
  | node l n' k xs r ihl ihr =>
    obtain ⟨hroot, hk, -, -, hl, hr⟩ := h
    obtain rfl : n = n' := Option.some.inj hroot
    simp only [SearchTree.nodes, List.length_append, List.length_cons] at hfuel
    obtain ⟨fuel, rfl⟩ : ∃ j, fuel = j + 1 := ⟨fuel - 1, by omega⟩
    have hnf : n ∉ fn := hdisj n (by simp [SearchTree.nodes])
    -- a failed allocation writes the null pointer it found there back
    have hundo : ∀ f : MapNode → MapNode, f (m.node n) = m.node n →
        ∃ m₁, m.allocNode p (acc p) = some (none, m₁) ∧ (m₁.modifyNode n f).Free [] fn
          ∧ m.SameOff (m₁.modifyNode n f) [] fn := by
      intro f hfn'
      obtain ⟨m₁, halloc, hfree, hsame⟩ := m.allocNode_of_free_nil hf hfn p (acc p)
      refine ⟨m₁, halloc, hfree.modifyNode hnf f, hsame.links, fun x hx => ?_⟩
      by_cases hxn : x = n
      · subst hxn
        rw [Mem.modifyNode_self, hsame.nodes x hx, hfn']
      · rw [Mem.modifyNode_of_ne _ _ hxn, hsame.nodes x hx]
    unfold put
    simp only [hk]
    split
    · exact ⟨m, Mem.enqueueAt_of_free_nil hf n p, hf, Mem.SameOff.refl m _ _⟩
    · split
      · cases hleft : (m.node n).left with
        | some left =>
          rw [hleft] at hl
          exact ihl hl (fun x hx => hdisj x (by simp [SearchTree.nodes, hx])) (by omega)
        | none =>
          obtain ⟨m₁, halloc, hfree, hsame⟩ :=
            hundo (fun x => { x with left := none }) (by simp [← hleft])
          refine ⟨_, ?_, hfree, hsame⟩
          simp only [halloc, Option.bind_eq_bind, Option.bind_some]
          rfl
      · cases hright : (m.node n).right with
        | some right =>
          rw [hright] at hr
          exact ihr hr (fun x hx => hdisj x (by simp [SearchTree.nodes, hx])) (by omega)
        | none =>
          obtain ⟨m₁, halloc, hfree, hsame⟩ :=
            hundo (fun x => { x with right := none }) (by simp [← hright])
          refine ⟨_, ?_, hfree, hsame⟩
          simp only [halloc, Option.bind_eq_bind, Option.bind_some]
          rfl

/-- **A put with a link and a node to spare succeeds**, and does on the
memory what `SearchTree.put` does on the shape: the descent ends at the
node that has the key, or hangs a new one. -/
theorem put_of_free_cons (acc : P → ℤ) (p : P) {a : LinkPtr} {fl : List LinkPtr} {b : NodePtr}
    {fn : List NodePtr} (hf : m.Free (a :: fl) (b :: fn)) {t : SearchTree P} {par : Option NodePtr}
    {fuel : ℕ} (h : t.Rep m par (some n)) (hnl : (a :: fl ++ t.links).Nodup)
    (hnn : (b :: fn ++ t.nodes).Nodup) (hfuel : t.nodes.length ≤ fuel) :
    ∃ m', put acc p fuel n m = some (true, m')
      ∧ (t.put (acc p) (a, p) b).Rep m' par (some n)
      ∧ m'.Free fl (if t.hasKey (acc p) then b :: fn else fn)
      ∧ m.SameOff m' (a :: t.links) (b :: t.nodes) := by
  induction t generalizing par n fuel with
  | nil => exact absurd h (by simp [SearchTree.Rep])
  | node l n' k xs r ihl ihr =>
    obtain rfl : n = n' := Option.some.inj h.1
    obtain ⟨-, hk, -, hxs, hl, hr⟩ := id h
    simp only [SearchTree.nodes, List.length_append, List.length_cons] at hfuel
    obtain ⟨fuel, rfl⟩ : ∃ j, fuel = j + 1 := ⟨fuel - 1, by omega⟩
    have hap := SearchTree.apart_of_nodup hnl hnn
    have hfl := (List.nodup_append.mp hnl).1
    have hfn := (List.nodup_append.mp hnn).1
    simp only [SearchTree.links, SearchTree.nodes, List.nodup_append, List.nodup_cons,
      List.mem_append, List.mem_cons] at hnl hnn
    unfold put SearchTree.put SearchTree.hasKey
    simp only [hk]
    split
    · -- the key is here
      obtain ⟨m', q, henq, hrep, hfree, hnode, hsame⟩ :=
        Mem.enqueueAt_of_free_cons hf hxs hap.cells hap.self p
      refine ⟨m', henq, h.replaceCells hsame ?_ ?_ ?_ ?_ hnode hrep, hfree, hsame.mono ?_ ?_⟩
      all_goals grind [SearchTree.links, SearchTree.nodes]
    · split
      · cases hleft : (m.node n).left with
        | some left =>
          -- go on in the left subtree; this node and the right subtree are framed
          rw [hleft] at hl
          obtain ⟨m', hput, hrep, hfree, hsame⟩ := ihl hl hap.left_links hap.left_nodes
            (show l.nodes.length ≤ fuel by omega)
          have hnode : m'.node n = { m.node n with left := some left } := by
            rw [hsame.nodes n (by grind), ← hleft]
          refine ⟨m', hput, h.replaceLeft hsame ?_ ?_ ?_ hnode hrep, hfree, hsame.mono ?_ ?_⟩
          all_goals grind [SearchTree.links, SearchTree.nodes]
        | none =>
          obtain ⟨m₁, halloc, hrep, hfree, hnode, hsame⟩ :=
            Mem.hang_spec hf hfl hfn hap.self p (acc p) (fun x => { x with left := some b })
          rw [hleft] at hl
          obtain rfl : l = .nil := hl.root_eq_none_iff.mp rfl
          refine ⟨_, ?_, h.replaceLeft hsame ?_ ?_ ?_ hnode hrep, hfree, hsame.mono ?_ ?_⟩
          · simp only [halloc, Option.bind_eq_bind, Option.bind_some]
            rfl
          all_goals grind [SearchTree.links, SearchTree.nodes]
      · cases hright : (m.node n).right with
        | some right =>
          rw [hright] at hr
          obtain ⟨m', hput, hrep, hfree, hsame⟩ := ihr hr hap.right_links hap.right_nodes
            (show r.nodes.length ≤ fuel by omega)
          have hnode : m'.node n = { m.node n with right := some right } := by
            rw [hsame.nodes n (by grind), ← hright]
          refine ⟨m', hput, h.replaceRight hsame ?_ ?_ ?_ hnode hrep, hfree, hsame.mono ?_ ?_⟩
          all_goals grind [SearchTree.links, SearchTree.nodes]
        | none =>
          obtain ⟨m₁, halloc, hrep, hfree, hnode, hsame⟩ :=
            Mem.hang_spec hf hfl hfn hap.self p (acc p) (fun x => { x with right := some b })
          rw [hright] at hr
          obtain rfl : r = .nil := hr.root_eq_none_iff.mp rfl
          refine ⟨_, ?_, h.replaceRight hsame ?_ ?_ ?_ hnode hrep, hfree, hsame.mono ?_ ?_⟩
          · simp only [halloc, Option.bind_eq_bind, Option.bind_some]
            rfl
          all_goals grind [SearchTree.links, SearchTree.nodes]

end MapNode

/-! ## The leftmost node -/

/-- **`getMinNode` finds the leftmost node.** -/
theorem MapNode.getMinNode_spec {t : SearchTree P} {par : Option NodePtr} {fuel : ℕ}
    (h : t.Rep m par (some n)) (hfuel : t.nodes.length ≤ fuel) :
    MapNode.getMinNode m fuel n = t.minNode := by
  induction t generalizing par n fuel with
  | nil => exact absurd h (by simp [SearchTree.Rep])
  | node l n' k xs r ihl _ =>
    obtain ⟨hroot, -, -, -, hl, -⟩ := h
    obtain rfl : n = n' := Option.some.inj hroot
    simp only [SearchTree.nodes, List.length_append, List.length_cons] at hfuel
    obtain ⟨fuel, rfl⟩ : ∃ j, fuel = j + 1 := ⟨fuel - 1, by omega⟩
    unfold MapNode.getMinNode
    cases l with
    | nil =>
      rw [show (m.node n).left = none from hl]
      rfl
    | node l' n'' k' xs' r' =>
      have hleft : (m.node n).left = some n'' := hl.1
      rw [hleft] at hl ⊢
      exact ihl hl (show _ ≤ fuel by omega)

/-- **Taking the first process of a node's list**: only the node and the
link change. -/
theorem MapNode.dequeue_spec {fl : List LinkPtr} {fn : List NodePtr} {c : LinkPtr × P}
    {cs : List (LinkPtr × P)} (hf : m.Free fl fn)
    (hl : (m.node n).listOfProcs.Rep m.linkPool (c :: cs)) (hnd : (fl ++ linksOf (c :: cs)).Nodup)
    (hn : n ∉ fn) :
    ∃ m' q, MapNode.dequeue m n = (some c.2, m') ∧ q.Rep m'.linkPool cs
      ∧ m'.Free (c.1 :: fl) fn ∧ m'.node n = { m.node n with listOfProcs := q }
      ∧ m.SameOff m' [c.1] [n] := by
  obtain ⟨q, L, hdeq, hrep, hfree, hframe⟩ := LinkedList.dequeue_of_cons hl hf.links hnd
  refine ⟨{ m with linkPool := L }.modifyNode n (fun x => { x with listOfProcs := q }), q,
    ?_, hrep, ?_, Mem.modifyNode_self _ _ _, fun a ha => ?_, fun x hx => ?_⟩
  · unfold MapNode.dequeue
    rw [hdeq]
  · have hL : ({ m with linkPool := L } : Mem P).Free (c.1 :: fl) fn := ⟨hfree, hf.nodes⟩
    exact hL.modifyNode hn _
  · exact hframe a (fun hac => ha (List.mem_singleton.mpr hac))
  · exact Mem.modifyNode_of_ne _ _ (fun hxn => hx (List.mem_singleton.mpr hxn))

namespace SearchTree

variable {m : Mem P} {t : SearchTree P} {par root : Option NodePtr}

/-- The list of the leftmost node represents its cells. -/
theorem Rep.minCells {x : NodePtr} (h : t.Rep m par root) (hx : t.minNode = some x) :
    (m.node x).listOfProcs.Rep m.linkPool t.minCells ∧ some (m.node x).key = t.minKey := by
  induction t generalizing par root with
  | nil => exact absurd hx (by simp [minNode])
  | node l n k xs r ihl _ =>
    obtain ⟨-, hk, -, hxs, hl, -⟩ := h
    cases l with
    | nil =>
      obtain rfl : n = x := Option.some.inj hx
      exact ⟨hxs, congrArg some hk⟩
    | node => exact ihl hl hx

/-- **A new list in the leftmost node.** -/
theorem Rep.setMin {m' : Mem P} {x : NodePtr} {q : LinkedList} {cs : List (LinkPtr × P)}
    {fl : List LinkPtr} (h : t.Rep m par root) (hx : t.minNode = some x) (hs : m.SameOff m' fl [x])
    (hfl : ∀ a ∈ fl, a ∈ linksOf t.minCells) (hnl : t.links.Nodup) (hnn : t.nodes.Nodup)
    (hnode : m'.node x = { m.node x with listOfProcs := q }) (hq : q.Rep m'.linkPool cs) :
    (t.setMin cs).Rep m' par root := by
  induction t generalizing par root with
  | nil => exact absurd hx (by simp [minNode])
  | node l n k xs r ihl _ =>
    have hap : Apart [] [] l n xs r := apart_of_nodup (k := k) hnl hnn
    obtain ⟨-, -, -, -, -, -, hleft, hright, hcells, hlinks, hcells', hnodes⟩ := id hap
    cases l with
    | nil =>
      obtain rfl : n = x := Option.some.inj hx
      replace hfl : ∀ a ∈ fl, a ∈ linksOf xs := hfl
      refine h.replaceCells hs ?_ ?_ ?_ ?_ hnode hq <;> grind [links, nodes]
    | node l' n' k' xs' r' =>
      have hxl : x ∈ (node l' n' k' xs' r').nodes := minNode_mem hx
      have hminl : ∀ a ∈ fl, a ∈ (node l' n' k' xs' r').links := fun a ha => by
        rw [links_eq_minCells]
        exact List.mem_append_left _ (hfl a ha)
      refine h.replaceLeft hs ?_ ?_ ?_ (hs.nodes n ?_)
        (ihl h.2.2.2.2.1 hx hfl hap.left_links hap.left_nodes) <;> grind

/-- **A new parent** for the root of a subtree. -/
theorem Rep.setParent {m' : Mem P} {par' : Option NodePtr} (h : t.Rep m par root)
    (hL : m'.linkPool = m.linkPool) (hnn : t.nodes.Nodup)
    (hroot : ∀ x, root = some x → m'.node x = { m.node x with parent := par' })
    (hs : ∀ y ∈ t.nodes, some y ≠ root → m'.node y = m.node y) : t.Rep m' par' root := by
  cases t with
  | nil => exact h
  | node l n k xs r =>
    obtain ⟨rfl, hk, -, hxs, hl, hr⟩ := h
    have hn := hroot n rfl
    simp only [nodes, List.nodup_append, List.nodup_cons, List.mem_cons] at hnn
    have hlinks : ∀ a, m'.linkPool.links a = m.linkPool.links a := fun a => by rw [hL]
    refine ⟨rfl, by rw [hn, ← hk], by rw [hn], ?_, ?_, ?_⟩
    · rw [hn, hL]
      exact hxs
    · rw [hn]
      exact hl.congr (fun a _ => hlinks a) (fun y hy => hs y (by simp [nodes, hy]) (by grind))
    · rw [hn]
      exact hr.congr (fun a _ => hlinks a) (fun y hy => hs y (by simp [nodes, hy]) (by grind))

end SearchTree

/-! ## Taking the minimum -/

/-- The two writes that take the leftmost node out when it is not the root:
its parent's left pointer goes to its right child, whose parent pointer
follows. -/
def Mem.splice (m : Mem P) (parent : NodePtr) (right : Option NodePtr) : Mem P :=
  let m := m.modifyNode parent (fun x => { x with left := right })
  match right with
  | none => m
  | some r => m.modifyNode r (fun x => { x with parent := some parent })

@[simp] theorem Mem.splice_linkPool (m : Mem P) (parent : NodePtr) (right : Option NodePtr) :
    (m.splice parent right).linkPool = m.linkPool := by
  cases right <;> rfl

@[simp] theorem Mem.splice_freeNodes (m : Mem P) (parent : NodePtr) (right : Option NodePtr) :
    (m.splice parent right).nodePool.freeNodes = m.nodePool.freeNodes := by
  cases right <;> rfl

variable {parent : NodePtr}

theorem Mem.splice_node_of_ne (m : Mem P) {x : NodePtr} {right : Option NodePtr} (hp : x ≠ parent)
    (hr : some x ≠ right) : (m.splice parent right).node x = m.node x := by
  cases right with
  | none => exact Mem.modifyNode_of_ne m _ hp
  | some r =>
    show ((m.modifyNode parent _).modifyNode r _).node x = _
    rw [Mem.modifyNode_of_ne _ _ (fun h => hr (congrArg some h)), Mem.modifyNode_of_ne m _ hp]

theorem Mem.splice_node_parent (m : Mem P) {right : Option NodePtr} (hr : some parent ≠ right) :
    (m.splice parent right).node parent = { m.node parent with left := right } := by
  cases right with
  | none => exact Mem.modifyNode_self m _ _
  | some r =>
    show ((m.modifyNode parent _).modifyNode r _).node parent = _
    rw [Mem.modifyNode_of_ne _ _ (fun h => hr (congrArg some h)), Mem.modifyNode_self]

theorem Mem.splice_node_right (m : Mem P) {r : NodePtr} (hr : r ≠ parent) :
    (m.splice parent (some r)).node r = { m.node r with parent := some parent } := by
  show ((m.modifyNode parent _).modifyNode r _).node r = _
  rw [Mem.modifyNode_self, Mem.modifyNode_of_ne m _ hr]

namespace SearchTree

/-- The root of a subtree is one of its nodes. -/
theorem Rep.root_mem {t : SearchTree P} {par : Option NodePtr} {x : NodePtr}
    (h : t.Rep m par (some x)) : x ∈ t.nodes := by
  cases t with
  | nil => exact absurd h (by simp [Rep])
  | node l n k xs r =>
    obtain rfl : x = n := Option.some.inj h.1
    simp [nodes]

/-- **Splicing out the leftmost node**, below a node that stays. The
induction goes down the left spine: the writes are all inside the left
subtree, or the left pointer of this node and the root of what replaces
the subtree. -/
theorem Rep.splice {l r : SearchTree P} {x : NodePtr} {k : ℤ} {xs : List (LinkPtr × P)}
    {par root : Option NodePtr} (h : (node l n k xs r).Rep m par root) (hx : l.minNode = some x)
    (hnl : (node l n k xs r).links.Nodup) (hnn : (node l n k xs r).nodes.Nodup) :
    ∃ q, (m.node x).parent = some q
      ∧ (node l.dropMin n k xs r).Rep (m.splice q (m.node x).right) par root
      ∧ (m.splice q (m.node x).right).node x = m.node x
      ∧ m.SameOff (m.splice q (m.node x).right) [] (n :: l.nodes) := by
  induction l generalizing n k xs r par root with
  | nil => exact absurd hx (by simp [minNode])
  | node l' n' k' xs' r' ihl _ =>
    have hap : Apart [] [] (node l' n' k' xs' r') n xs r := apart_of_nodup (k := k) hnl hnn
    have hap' : Apart [] [] l' n' xs' r' :=
      apart_of_nodup (k := k') hap.left_links hap.left_nodes
    have hleft := h.2.2.2.2.1
    have hlinks : ∀ (q : NodePtr) (o : Option NodePtr) (a : LinkPtr), a ∉ ([] : List LinkPtr) →
        (m.splice q o).linkPool.links a = m.linkPool.links a := fun q o a _ => by
      rw [Mem.splice_linkPool]
    cases l' with
    | nil =>
      -- the left child is the leftmost node: its right subtree moves up
      obtain rfl : n' = x := Option.some.inj hx
      obtain ⟨hroot', -, hpar', -, -, hr'⟩ := hleft
      have hmem : ∀ y, (m.node n').right = some y → y ∈ r'.nodes := fun y hy => by
        rw [hy] at hr'
        exact hr'.root_mem
      simp only [nodes, List.nil_append, List.nodup_append, List.nodup_cons, List.mem_cons,
        List.cons_append] at hnn
      have hs : m.SameOff (m.splice n (m.node n').right) [] (n :: r'.nodes) :=
        ⟨hlinks n _, fun y hy => Mem.splice_node_of_ne m (by grind) (by grind)⟩
      refine ⟨n, hpar', ?_, Mem.splice_node_of_ne m (by grind) (by grind),
        hs.mono (fun _ h => h) (by grind [nodes])⟩
      refine h.replaceLeft hs (by simp) (by simp) (by grind)
        (Mem.splice_node_parent m (by grind)) ?_
      refine hr'.setParent (Mem.splice_linkPool m _ _) hap'.right_nodes (fun y hy => ?_)
        (fun y hy hne => Mem.splice_node_of_ne m (by grind) hne)
      rw [hy]
      exact Mem.splice_node_right m (by grind)
    | node l'' n'' k'' xs'' r'' =>
      obtain ⟨q, hq, hrep, hxn, hs⟩ := ihl hleft hx hap.left_links hap.left_nodes
      have hsub : ∀ y ∈ n' :: (node l'' n'' k'' xs'' r'').nodes,
          y ∈ (node (node l'' n'' k'' xs'' r'') n' k' xs' r').nodes := by
        grind [nodes]
      have hnode : (m.splice q (m.node x).right).node n
          = { m.node n with left := (m.node n).left } :=
        hs.nodes n (fun hm => hap.self_left (hsub n hm))
      refine ⟨q, hq, h.replaceLeft hs (by simp) (by simp) ?_ hnode hrep, hxn,
        hs.mono (fun _ h => h) (fun y hy => List.mem_cons_of_mem n (hsub y hy))⟩
      exact fun y hy hm => hap.left_right_nodes y (hsub y hm) hy

end SearchTree

namespace Map

variable {T : Map} {m : Mem P} {t : SearchTree P}

/-- **Unlinking the leftmost node** leaves the tree without it. The node
itself and everything outside the tree stay as they are. -/
theorem unlink_spec {x : NodePtr} (h : t.Rep m none T.root) (hx : t.minNode = some x)
    (hnl : t.links.Nodup) (hnn : t.nodes.Nodup) :
    ∃ T' m', T.unlink x m = some (T', m') ∧ t.dropMin.Rep m' none T'.root
      ∧ m'.nodePool.freeNodes = m.nodePool.freeNodes ∧ m'.linkPool = m.linkPool
      ∧ m'.node x = m.node x ∧ ∀ y ∉ t.nodes, m'.node y = m.node y := by
  cases t with
  | nil => exact absurd hx (by simp [SearchTree.minNode])
  | node l n k xs r =>
    have hap : SearchTree.Apart [] [] l n xs r := SearchTree.apart_of_nodup (k := k) hnl hnn
    have hroot : T.root = some n := h.1
    cases l with
    | nil =>
      -- the root itself: its right subtree becomes the tree
      obtain rfl : n = x := Option.some.inj hx
      have hr := h.2.2.2.2.2
      unfold unlink
      rw [if_pos hroot.symm]
      cases hright : (m.node n).right with
      | none =>
        rw [hright] at hr
        obtain rfl : r = .nil := hr.root_eq_none_iff.mp rfl
        exact ⟨⟨none⟩, m, rfl, rfl, rfl, rfl, rfl, fun _ _ => rfl⟩
      | some y =>
        rw [hright] at hr
        have hyr : y ∈ r.nodes := hr.root_mem
        have hny : n ≠ y := fun hny => hap.self_right (hny ▸ hyr)
        refine ⟨⟨some y⟩, m.modifyNode y (fun x => { x with parent := none }), rfl, ?_, rfl, rfl,
          Mem.modifyNode_of_ne m _ hny, fun z hz => Mem.modifyNode_of_ne m _ ?_⟩
        · refine hr.setParent rfl hap.right_nodes ?_ ?_
          · intro z hz
            obtain rfl := Option.some.inj hz
            exact Mem.modifyNode_self m _ _
          · intro z _ hz
            exact Mem.modifyNode_of_ne m _ (fun hzy => hz (congrArg some hzy))
        · rintro rfl
          exact hz (by simp [SearchTree.nodes, hyr])
    | node l' n' k' xs' r' =>
      obtain ⟨q, hq, hrep, hnode, hs⟩ := h.splice hx hnl hnn
      have hxl : x ∈ (SearchTree.node l' n' k' xs' r').nodes := SearchTree.minNode_mem hx
      have hne : ¬ some x = T.root := by
        rw [hroot]
        exact fun hxn => hap.self_left (Option.some.inj hxn ▸ hxl)
      refine ⟨T, m.splice q (m.node x).right, ?_, hrep, Mem.splice_freeNodes m _ _,
        Mem.splice_linkPool m _ _, hnode, fun y hy => hs.nodes y (fun hm => hy ?_)⟩
      · unfold unlink
        simp only [if_neg hne, hq, Option.bind_eq_bind, Option.bind_some]
        unfold Mem.splice
        cases (m.node x).right <;> rfl
      · grind [SearchTree.nodes]

/-- An empty tree has nothing to extract. -/
theorem extractMin_of_nil (h : SearchTree.nil.Rep m none T.root) :
    T.extractMin m = some (none, T, m) := by
  unfold extractMin
  rw [show T.root = none from h]

variable {fn : List NodePtr}

/-- **`extractMin` takes the first cell of the leftmost node**, and the node
with it when that was its only cell. -/
theorem extractMin_spec {fl : List LinkPtr} (h : t.Rep m none T.root) (hf : m.Free fl fn)
    (hne : t ≠ .nil) (hfull : t.Full) (hnl : (fl ++ t.links).Nodup) (hnn : (fn ++ t.nodes).Nodup)
    (hlen : t.nodes.length ≤ NPROCMAP) :
    ∃ c cs T' m' fn', T.extractMin m = some (some c.2, T', m') ∧ t.minCells = c :: cs
      ∧ t.extractMin.Rep m' none T'.root ∧ m'.Free (c.1 :: fl) fn'
      ∧ (fn' ++ t.extractMin.nodes).Perm (fn ++ t.nodes) ∧ m.SameOff m' t.links t.nodes := by
  obtain ⟨x, k, hx, -⟩ := SearchTree.exists_minKey hne
  obtain ⟨c, cs, hcs⟩ := List.exists_cons_of_ne_nil (hfull.minCells_ne_nil hne)
  obtain ⟨-, htl, hdl⟩ := List.nodup_append.mp hnl
  obtain ⟨hfn, htn, hdn⟩ := List.nodup_append.mp hnn
  have hxt : x ∈ t.nodes := SearchTree.minNode_mem hx
  have hxf : x ∉ fn := SearchTree.notMem_of_nodup_append hnn hxt
  have hcells : ∀ a ∈ linksOf (c :: cs), a ∈ t.links := fun a ha => by
    rw [SearchTree.links_eq_minCells, hcs]
    exact List.mem_append_left _ ha
  have hnd : (fl ++ linksOf (c :: cs)).Nodup := by
    rw [SearchTree.links_eq_minCells, hcs, ← List.append_assoc] at hnl
    exact (List.nodup_append.mp hnl).1
  -- the cell leaves the list of the leftmost node
  obtain ⟨m₁, q, hdeq, hq, hfree, hnode, hs⟩ :=
    MapNode.dequeue_spec hf (hcs ▸ (h.minCells hx).1) hnd hxf
  have hrep : (t.setMin cs).Rep m₁ none T.root := by
    refine h.setMin hx hs (fun a ha => ?_) htl htn hnode hq
    rw [hcs]
    exact List.mem_singleton.mp ha ▸ List.mem_cons_self
  obtain ⟨root, hroot⟩ : ∃ root, T.root = some root :=
    Option.ne_none_iff_exists'.mp (fun hn => hne (h.root_eq_none_iff.mp hn))
  have hmin : MapNode.getMinNode m NPROCMAP root = some x := by
    rw [← hx]
    exact MapNode.getMinNode_spec (hroot ▸ h) hlen
  have hs' : m.SameOff m₁ t.links t.nodes := hs.mono
    (fun a ha => hcells a (List.mem_singleton.mp ha ▸ List.mem_cons_self))
    (fun y hy => List.mem_singleton.mp hy ▸ hxt)
  have hempty : MapNode.isEmpty m₁ x = true ↔ cs = [] := by
    unfold MapNode.isEmpty
    rw [hnode]
    exact hq.isEmpty_iff
  cases cs with
  | cons d ds =>
    refine ⟨c, d :: ds, T, m₁, fn, ?_, hcs, ?_, hfree, ?_, hs'⟩
    · have hne' : ¬ MapNode.isEmpty m₁ x = true := fun hem => by simpa using hempty.mp hem
      unfold extractMin
      simp only [hroot, hmin, Option.bind_eq_bind, Option.bind_some, hdeq, if_neg hne']
      rfl
    · unfold SearchTree.extractMin
      rw [hcs]
      exact hrep
    · unfold SearchTree.extractMin
      rw [hcs]
      simp
  | nil =>
    -- the node has run empty and leaves the tree
    obtain ⟨T', m₂, hun, hrep₂, hfn₂, hL₂, hnode₂, hs₂⟩ :=
      unlink_spec hrep (by
        rw [← hx]
        exact SearchTree.minNode_setMin _ t) (by
        rw [SearchTree.links_setMin hx]
        rw [SearchTree.links_eq_minCells] at htl
        exact (List.nodup_append.mp htl).2.1) (by rw [SearchTree.setMin_nodes]; exact htn)
    rw [SearchTree.dropMin_setMin] at hrep₂
    rw [SearchTree.setMin_nodes] at hs₂
    have hfree₂ : m₂.nodePool.Free fn :=
      hfree.nodes.congr hfn₂ (fun y hy => hs₂ y (fun hm => hdn y hy y hm rfl))
    have hlist : (m₂.nodePool.nodes x).listOfProcs = LinkedList.empty := by
      show (m₂.node x).listOfProcs = _
      rw [hnode₂, hnode]
      exact hq.eq_empty
    obtain ⟨hfree₃, hframe₃⟩ := NodePool.deallocNode_free hfree₂ hxf hlist
    have hnodes := SearchTree.nodes_eq_of_minNode hx
    have hxd : x ∉ t.dropMin.nodes := by
      rw [hnodes] at htn
      exact (List.nodup_cons.mp htn).1
    refine ⟨c, [], T', { m₂ with nodePool := m₂.nodePool.deallocNode x }, x :: fn,
      ?_, hcs, ?_, ⟨?_, hfree₃⟩, ?_, ?_, ?_⟩
    · unfold extractMin
      simp only [hroot, hmin, Option.bind_eq_bind, Option.bind_some, hdeq, hempty.mpr rfl, if_true,
        hun]
      rfl
    · unfold SearchTree.extractMin
      rw [hcs]
      exact hrep₂.congr (fun _ _ => rfl) (fun y hy => hframe₃ y (fun hyx => hxd (hyx ▸ hy)))
    · show m₂.linkPool.Free _
      rw [hL₂]
      exact hfree.links
    · unfold SearchTree.extractMin
      rw [hcs, hnodes]
      exact List.perm_middle.symm
    · intro a ha
      show m₂.linkPool.links a = _
      rw [hL₂]
      exact hs'.links a ha
    · intro y hy
      have hyx : y ≠ x := fun hyx => hy (hyx ▸ hxt)
      exact (hframe₃ y hyx).trans ((hs₂ y hy).trans (hs'.nodes y hy))

/-! ## Put and the minimum key, from the root -/

/-- **A failed put** leaves the tree and both pools as they are. -/
theorem put_of_free_nil (acc : P → ℤ) (p : P) (h : t.Rep m none T.root) (hf : m.Free [] fn)
    (hnn : (fn ++ t.nodes).Nodup) (hlen : t.nodes.length ≤ NPROCMAP) :
    ∃ m', T.put acc p m = some (false, T, m') ∧ m'.Free [] fn ∧ m.SameOff m' [] fn := by
  have hfn := (List.nodup_append.mp hnn).1
  obtain ⟨_ | root⟩ := T
  · obtain ⟨m', halloc, hfree, hs⟩ := m.allocNode_of_free_nil hf hfn p (acc p)
    refine ⟨m', ?_, hfree, hs⟩
    unfold put
    simp only [halloc, Option.bind_eq_bind, Option.bind_some]
    rfl
  · obtain ⟨m', hput, hfree, hs⟩ := MapNode.put_of_free_nil acc p hf hfn h
      (fun x hx => SearchTree.notMem_of_nodup_append hnn hx) hlen
    refine ⟨m', ?_, hfree, hs⟩
    unfold put
    simp only [hput, Option.bind_eq_bind, Option.bind_some]
    rfl

/-- **A put with a link and a node to spare** does on the memory what
`SearchTree.put` does on the shape. -/
theorem put_of_free_cons (acc : P → ℤ) (p : P) {a : LinkPtr} {fl : List LinkPtr} {b : NodePtr}
    (h : t.Rep m none T.root) (hf : m.Free (a :: fl) (b :: fn)) (hnl : (a :: fl ++ t.links).Nodup)
    (hnn : (b :: fn ++ t.nodes).Nodup) (hlen : t.nodes.length ≤ NPROCMAP) :
    ∃ T' m', T.put acc p m = some (true, T', m')
      ∧ (t.put (acc p) (a, p) b).Rep m' none T'.root
      ∧ m'.Free fl (if t.hasKey (acc p) then b :: fn else fn)
      ∧ m.SameOff m' (a :: t.links) (b :: t.nodes) := by
  cases hroot : T.root with
  | none =>
    obtain rfl : t = .nil := h.root_eq_none_iff.mp hroot
    obtain ⟨m', l, halloc, hrep, hfree, hnode, hs⟩ := m.allocNode_of_free_cons hf
      (List.nodup_append.mp hnl).1 (List.nodup_append.mp hnn).1 p (acc p)
    refine ⟨⟨some b⟩, m', ?_, ⟨rfl, ?_, ?_, ?_, ?_, ?_⟩, hfree, hs⟩
    · unfold put
      simp only [hroot, halloc, Option.bind_eq_bind, Option.bind_some]
      rfl
    all_goals rw [hnode]
    · exact hrep
    · rfl
    · rfl
  | some root =>
    rw [hroot] at h
    obtain ⟨m', hput, hrep, hfree, hs⟩ := MapNode.put_of_free_cons acc p hf h hnl hnn hlen
    refine ⟨T, m', ?_, by rw [hroot]; exact hrep, hfree, hs⟩
    unfold put
    simp only [hroot, hput, Option.bind_eq_bind, Option.bind_some]
    rfl

/-- **The minimum key** is the key of the leftmost node. -/
theorem getMinKey_spec (h : t.Rep m none T.root) (hlen : t.nodes.length ≤ NPROCMAP) :
    T.getMinKey m = some t.minKey := by
  unfold getMinKey MapNode.getMinKey
  cases hroot : T.root with
  | none =>
    obtain rfl : t = .nil := h.root_eq_none_iff.mp hroot
    rfl
  | some root =>
    have hne : t ≠ .nil := fun ht => by
      rw [h.root_eq_none_iff.mpr ht] at hroot
      exact absurd hroot (by simp)
    obtain ⟨x, k, hx, hk⟩ := SearchTree.exists_minKey hne
    have hkey := (h.minCells hx).2
    rw [hroot] at h
    simp only [MapNode.getMinNode_spec h hlen, hx, Option.bind_eq_bind, Option.bind_some,
      Option.pure_def, hkey]
    rw [hk]
    rfl

/-- The root is null exactly when the tree has no entries. -/
theorem isEmpty_iff {par : Option NodePtr} (h : t.Rep m par T.root) :
    T.isEmpty = true ↔ t = .nil := by
  unfold isEmpty
  rw [Option.isNone_iff_eq_none, h.root_eq_none_iff]

end Map

end Xv6
