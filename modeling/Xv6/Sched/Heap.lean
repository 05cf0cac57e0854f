import Xv6.Lib.Linked
import Mathlib.Data.Int.Notation

/-!
# The scheduling structures, pointer by pointer

`ass1ds.cpp` keeps the processes the scheduler works on in three
structures: `priorityQ`, a binary search tree of FIFO lists keyed by the
accumulator; `roundRobinQ`, a FIFO list; and `runningProcHolder`, the list
of running processes. All of them take their list links from one pool and
the tree takes its nodes from another, both carved out once by
`initSchedDS` and then recycled through free lists.

The model keeps the pointers. A `Link` or `MapNode` lives at an address of
its pool, a null pointer is `none`, and every function below makes the
writes its C++ namesake makes, in the same order. A method that works on
`*this` takes the object by value and returns it with the writes done; the
caller stores it back where it came from.

The result type is `Option`: `none` is a dereference of a null pointer, or
a loop that has not finished within as many rounds as the pool has cells.
Neither happens from `initSchedDS` on, which is a theorem about these
definitions and not an assumption of them.
-/

namespace Xv6

open Function

/-- Maximum number of processes (`param.h`). -/
def NPROC : ℕ := 64

/-- The number of `Link`s in the pool. -/
def NPROCLIST : ℕ := 2 * NPROC

/-- The number of `MapNode`s in the pool. -/
def NPROCMAP : ℕ := 2 * NPROC

/-- Where a `Link` lives. -/
abbrev LinkPtr := ℕ

/-- Where a `MapNode` lives. -/
abbrev NodePtr := ℕ

/-- A list link: the process it carries and the link after it. -/
structure Link (P : Type) where
  p : Option P
  next : Option LinkPtr

/-- A linked list: its first and its last link. -/
structure LinkedList where
  first : Option LinkPtr
  last : Option LinkPtr
  deriving DecidableEq

/-- A tree node. `next` threads the free nodes; the other three pointers
are the tree's. -/
structure MapNode where
  key : ℤ
  listOfProcs : LinkedList
  next : Option NodePtr
  parent : Option NodePtr
  left : Option NodePtr
  right : Option NodePtr

/-- The links and the head of the list of free ones. -/
structure LinkPool (P : Type) where
  links : LinkPtr → Link P
  freeLinks : Option LinkPtr

/-- The tree nodes and the head of the list of free ones. -/
structure NodePool where
  nodes : NodePtr → MapNode
  freeNodes : Option NodePtr

/-- Everything a tree operation reads and writes besides the root. -/
structure Mem (P : Type) where
  linkPool : LinkPool P
  nodePool : NodePool

/-- A tree, as the C++ `Map`: its root. -/
structure Map where
  root : Option NodePtr
  deriving DecidableEq

/-- **The static data of `ass1ds.cpp`**: the two pools and the three
structures built over them. -/
structure SchedDS (P : Type) where
  mem : Mem P
  priorityQ : Map
  roundRobinQ : LinkedList
  runningProcHolder : LinkedList

variable {P : Type}

namespace LinkedList

/-- `LinkedList()`. -/
def empty : LinkedList := ⟨none, none⟩

/-- Whether the list is empty. -/
def isEmpty (l : LinkedList) : Bool := l.first.isNone

end LinkedList

/-! ## The link pool -/

namespace LinkPool

/-- A write to the `next` field of a link. -/
def setNext (L : LinkPool P) (a : LinkPtr) (n : Option LinkPtr) : LinkPool P :=
  { L with links := update L.links a { L.links a with next := n } }

/-- Take a link off the free list, for the process `p`. -/
def allocLink (L : LinkPool P) (p : P) : Option LinkPtr × LinkPool P :=
  match L.freeLinks with
  | none => (none, L)
  | some ans =>
    (some ans,
      { links := update L.links ans ⟨some p, none⟩
        freeLinks := (L.links ans).next })

/-- Put a link back at the head of the free list. -/
def deallocLink (L : LinkPool P) (link : LinkPtr) : LinkPool P :=
  { L.setNext link L.freeLinks with freeLinks := some link }

/-- The loop of `Link::getLast`: follow `next` until it is null. -/
def getLast (L : LinkPool P) : ℕ → LinkPtr → Option LinkPtr
  | 0, _ => none
  | fuel + 1, ans =>
    match (L.links ans).next with
    | none => some ans
    | some next => getLast L fuel next

end LinkPool

namespace LinkedList

/-- Append a chain of links: hang it after the last link, or make it the
whole list, and move `last` to its end. -/
def append (l : LinkedList) (link : Option LinkPtr) (L : LinkPool P) :
    Option (LinkedList × LinkPool P) :=
  match link with
  | none => some (l, L)
  | some a =>
    if l.isEmpty then do
      let last ← L.getLast NPROCLIST a
      return (⟨some a, some last⟩, L)
    else do
      let last ← l.last
      let L := L.setNext last (some a)
      let last ← L.getLast NPROCLIST a
      return (⟨l.first, some last⟩, L)

/-- Append a process. The allocation of the link may fail. -/
def enqueue (l : LinkedList) (p : P) (L : LinkPool P) :
    Option (Bool × LinkedList × LinkPool P) :=
  match L.allocLink p with
  | (none, L) => some (false, l, L)
  | (some link, L) => do
    let (l, L) ← l.append (some link) L
    return (true, l, L)

/-- Remove and return the first process. -/
def dequeue (l : LinkedList) (L : LinkPool P) :
    Option P × LinkedList × LinkPool P :=
  match l.first with
  | none => (none, l, L)
  | some first =>
    let p := (L.links first).p
    let next := (L.links first).next
    (p, ⟨next, if next.isNone then none else l.last⟩, L.deallocLink first)

/-- The loop of `LinkedList::remove`, with its two cursors: `cur` is null
or the link after `prev`. -/
def removeLoop [DecidableEq P] (l : LinkedList) (p : P) (L : LinkPool P) :
    ℕ → LinkPtr → Option LinkPtr → Option (Bool × LinkedList × LinkPool P)
  | _, _, none => some (false, l, L)
  | 0, _, some _ => none
  | fuel + 1, prev, some cur =>
    if (L.links cur).p = some p then
      let next := (L.links cur).next
      -- removes the last link
      let l := if next.isNone then { l with last := some prev } else l
      some (true, l, (L.setNext prev next).deallocLink cur)
    else
      removeLoop l p L fuel cur (L.links cur).next

/-- Remove the first link that carries `p`. -/
def remove [DecidableEq P] (l : LinkedList) (p : P) (L : LinkPool P) :
    Option (Bool × LinkedList × LinkPool P) :=
  match l.first with
  | none => some (false, l, L)
  | some first =>
    if (L.links first).p = some p then
      let (_, l, L) := l.dequeue L
      some (true, l, L)
    else
      removeLoop l p L NPROCLIST first (L.links first).next

/-- The loop of `LinkedList::getMinKey`: `forEach` with the minimum so
far. -/
def minKeyLoop (acc : P → ℤ) (L : LinkPool P) :
    ℕ → Option LinkPtr → ℤ → Option ℤ
  | _, none, minKey => some minKey
  | 0, some _, _ => none
  | fuel + 1, some link, minKey => do
    let p ← (L.links link).p
    let key := acc p
    minKeyLoop acc L fuel (L.links link).next (if key < minKey then key else minKey)

/-- The minimum accumulator of the members, `none` inside when there are
none. -/
def getMinKey (l : LinkedList) (acc : P → ℤ) (L : LinkPool P) :
    Option (Option ℤ) :=
  match l.first with
  | none => some none
  | some first => do
    let p ← (L.links first).p
    let minKey ← minKeyLoop acc L NPROCLIST (some first) (acc p)
    return some minKey

end LinkedList

/-! ## The node pool -/

namespace NodePool

/-- A write to some fields of a node. -/
def modify (N : NodePool) (n : NodePtr) (f : MapNode → MapNode) : NodePool :=
  { N with nodes := update N.nodes n (f (N.nodes n)) }

/-- Put a node back at the head of the free list, its tree pointers
cleared. Its list is left as it is. -/
def deallocNode (N : NodePool) (node : NodePtr) : NodePool :=
  { N.modify node (fun m =>
      { m with parent := none, left := none, right := none, next := N.freeNodes }) with
    freeNodes := some node }

/-- `allocNode(key)`: take a node off the free list. -/
def allocNode (N : NodePool) (key : ℤ) : Option NodePtr × NodePool :=
  match N.freeNodes with
  | none => (none, N)
  | some ans =>
    (some ans,
      { N.modify ans (fun m => { m with next := none, key := key }) with
        freeNodes := (N.nodes ans).next })

end NodePool

namespace Mem

/-- A write to some fields of a node. -/
def modifyNode (m : Mem P) (n : NodePtr) (f : MapNode → MapNode) : Mem P :=
  { m with nodePool := m.nodePool.modify n f }

/-- The node at an address. -/
def node (m : Mem P) (n : NodePtr) : MapNode := m.nodePool.nodes n

/-- Append a process to the list of a node. -/
def enqueueAt (m : Mem P) (n : NodePtr) (p : P) : Option (Bool × Mem P) := do
  let (ok, l, L) ← (m.node n).listOfProcs.enqueue p m.linkPool
  return (ok, { m with linkPool := L }.modifyNode n (fun x => { x with listOfProcs := l }))

/-- `allocNode(p, key)`: a node whose list holds `p`. When no link is left
for `p` the node goes back to the pool. -/
def allocNode (m : Mem P) (p : P) (key : ℤ) : Option (Option NodePtr × Mem P) :=
  if m.nodePool.freeNodes.isNone then
    some (none, m)
  else
    match m.nodePool.allocNode key with
    | (none, N) => some (none, { m with nodePool := N })
    | (some ans, N) => do
      let (ok, m) ← { m with nodePool := N }.enqueueAt ans p
      if ok then
        return (some ans, m)
      else
        return (none, { m with nodePool := m.nodePool.deallocNode ans })

end Mem

namespace MapNode

/-- `MapNode::put`, the descent from `node`. Both sides do the same with
the child pointer they follow: go on there, or hang a new node there and
tell it its parent. -/
def put (acc : P → ℤ) (p : P) : ℕ → NodePtr → Mem P → Option (Bool × Mem P)
  | 0, _, _ => none
  | fuel + 1, node, m =>
    let key := acc p
    if key = (m.node node).key then
      m.enqueueAt node p
    else if key < (m.node node).key then
      match (m.node node).left with
      | some left => put acc p fuel left m
      | none => do
        let (ans, m) ← m.allocNode p key
        let m := m.modifyNode node (fun x => { x with left := ans })
        match ans with
        | some left => return (true, m.modifyNode left (fun x => { x with parent := some node }))
        | none => return (false, m)
    else
      match (m.node node).right with
      | some right => put acc p fuel right m
      | none => do
        let (ans, m) ← m.allocNode p key
        let m := m.modifyNode node (fun x => { x with right := ans })
        match ans with
        | some right => return (true, m.modifyNode right (fun x => { x with parent := some node }))
        | none => return (false, m)

/-- `MapNode::getMinNode`: go left until there is no left. -/
def getMinNode (m : Mem P) : ℕ → NodePtr → Option NodePtr
  | 0, _ => none
  | fuel + 1, minNode =>
    match (m.node minNode).left with
    | some left => getMinNode m fuel left
    | none => some minNode

/-- `MapNode::getMinKey`. -/
def getMinKey (m : Mem P) (fuel : ℕ) (n : NodePtr) : Option ℤ := do
  let minNode ← getMinNode m fuel n
  return (m.node minNode).key

/-- `MapNode::isEmpty`. -/
def isEmpty (m : Mem P) (n : NodePtr) : Bool := (m.node n).listOfProcs.isEmpty

/-- `MapNode::dequeue`. -/
def dequeue (m : Mem P) (n : NodePtr) : Option P × Mem P :=
  let (p, l, L) := (m.node n).listOfProcs.dequeue m.linkPool
  (p, { m with linkPool := L }.modifyNode n (fun x => { x with listOfProcs := l }))

end MapNode

namespace Map

/-- `Map()`. -/
def empty : Map := ⟨none⟩

/-- Whether the tree is empty. -/
def isEmpty (t : Map) : Bool := t.root.isNone

/-- `Map::put`. -/
def put (t : Map) (acc : P → ℤ) (p : P) (m : Mem P) : Option (Bool × Map × Mem P) :=
  match t.root with
  | none => do
    let (root, m) ← m.allocNode p (acc p)
    return (!(Map.mk root).isEmpty, ⟨root⟩, m)
  | some root => do
    let (ok, m) ← MapNode.put acc p NPROCMAP root m
    return (ok, t, m)

/-- `Map::getMinKey`, `none` inside when the tree is empty. -/
def getMinKey (t : Map) (m : Mem P) : Option (Option ℤ) :=
  match t.root with
  | none => some none
  | some root => do
    let key ← MapNode.getMinKey m NPROCMAP root
    return some key

/-- Take the leftmost node, whose list has run empty, out of the tree: its
right subtree takes its place. -/
def unlink (t : Map) (minNode : NodePtr) (m : Mem P) : Option (Map × Mem P) :=
  let right := (m.node minNode).right
  if some minNode = t.root then
    match right with
    | none => some (⟨right⟩, m)
    | some r => some (⟨right⟩, m.modifyNode r (fun x => { x with parent := none }))
  else do
    let parent ← (m.node minNode).parent
    let m := m.modifyNode parent (fun x => { x with left := right })
    match right with
    | none => return (t, m)
    | some r => return (t, m.modifyNode r (fun x => { x with parent := some parent }))

/-- `Map::extractMin`. -/
def extractMin (t : Map) (m : Mem P) : Option (Option P × Map × Mem P) :=
  match t.root with
  | none => some (none, t, m)
  | some root => do
    let minNode ← MapNode.getMinNode m NPROCMAP root
    let (p, m) := MapNode.dequeue m minNode
    if MapNode.isEmpty m minNode then
      let (t, m) ← t.unlink minNode m
      return (p, t, { m with nodePool := m.nodePool.deallocNode minNode })
    else
      return (p, t, m)

/-- The loop of `Map::extractProc`: drain the tree into `tempMap`, all but
the entries of `p`, and say whether there was one. -/
def extractProcLoop [DecidableEq P] (acc : P → ℤ) (p : P) :
    ℕ → Map → Map → Bool → Mem P → Option (Bool × Map × Mem P)
  | fuel, t, tempMap, ans, m =>
    if t.isEmpty then
      some (ans, tempMap, m)
    else
      match fuel with
      | 0 => none
      | fuel + 1 => do
        let (otherP, t, m) ← t.extractMin m
        if otherP = some p then
          extractProcLoop acc p fuel t tempMap true m
        else do
          let otherP ← otherP
          let (_, tempMap, m) ← tempMap.put acc otherP m
          extractProcLoop acc p fuel t tempMap ans m

/-- `Map::extractProc`. -/
def extractProc [DecidableEq P] (t : Map) (acc : P → ℤ) (p : P) (m : Mem P) :
    Option (Bool × Map × Mem P) :=
  if m.nodePool.freeNodes.isNone then
    some (false, t, m)
  else
    extractProcLoop acc p NPROCLIST t Map.empty false m

/-- The loop of `Map::transfer`: drain the tree into the list `q`. -/
def transferLoop : ℕ → Map → LinkedList → Mem P → Option (Map × LinkedList × Mem P)
  | fuel, t, q, m =>
    if t.isEmpty then
      some (t, q, m)
    else
      match fuel with
      | 0 => none
      | fuel + 1 => do
        let (p, t, m) ← t.extractMin m
        let p ← p
        let (_, q, L) ← q.enqueue p m.linkPool
        transferLoop fuel t q { m with linkPool := L }

/-- `Map::transfer`, with the list `roundRobinQ` that the tree is drained into. -/
def transfer (t : Map) (roundRobinQ : LinkedList) (m : Mem P) :
    Option (Bool × Map × LinkedList × Mem P) :=
  if !roundRobinQ.isEmpty then
    some (false, t, roundRobinQ, m)
  else do
    let (t, q, m) ← transferLoop NPROCLIST t roundRobinQ m
    return (true, t, q, m)

end Map

/-- `LinkedList::transfer`, with the tree `priorityQ`: the whole list becomes
the list of one new node with key 0. -/
def LinkedList.transfer (l : LinkedList) (priorityQ : Map) (m : Mem P) :
    Bool × LinkedList × Map × Mem P :=
  if !priorityQ.isEmpty then
    (false, l, priorityQ, m)
  else if l.isEmpty then
    (true, l, priorityQ, m)
  else
    match m.nodePool.allocNode 0 with
    | (none, N) => (false, l, priorityQ, { m with nodePool := N })
    | (some node, N) =>
      (true, LinkedList.empty, ⟨some node⟩,
        { m with nodePool := N }.modifyNode node (fun x => { x with listOfProcs := l }))

/-! ## The three interfaces

`schedulinginterface.h` hands the structures to `proc.c` as records of
function pointers; these are the functions behind them. -/

namespace SchedDS

/-- `pq.isEmpty`. -/
def isEmptyPriorityQueue (s : SchedDS P) : Bool := s.priorityQ.isEmpty

/-- `pq.put`. -/
def putPriorityQueue (acc : P → ℤ) (p : P) (s : SchedDS P) : Option (Bool × SchedDS P) := do
  let (ok, t, m) ← s.priorityQ.put acc p s.mem
  return (ok, { s with mem := m, priorityQ := t })

/-- `pq.getMinAccumulator`: the stored value, when the call returns
true. -/
def getMinAccumulatorPriorityQueue (s : SchedDS P) : Option (Option ℤ) :=
  s.priorityQ.getMinKey s.mem

/-- `pq.extractMin`. -/
def extractMinPriorityQueue (s : SchedDS P) : Option (Option P × SchedDS P) := do
  let (p, t, m) ← s.priorityQ.extractMin s.mem
  return (p, { s with mem := m, priorityQ := t })

/-- `pq.switchToRoundRobinPolicy`. -/
def switchToRoundRobinPolicyPriorityQueue (s : SchedDS P) : Option (Bool × SchedDS P) := do
  let (ok, t, q, m) ← s.priorityQ.transfer s.roundRobinQ s.mem
  return (ok, { s with mem := m, priorityQ := t, roundRobinQ := q })

/-- `pq.extractProc`. -/
def extractProcPriorityQueue [DecidableEq P] (acc : P → ℤ) (p : P) (s : SchedDS P) :
    Option (Bool × SchedDS P) := do
  let (ok, t, m) ← s.priorityQ.extractProc acc p s.mem
  return (ok, { s with mem := m, priorityQ := t })

/-- `rrq.isEmpty`. -/
def isEmptyRoundRobinQueue (s : SchedDS P) : Bool := s.roundRobinQ.isEmpty

/-- `rrq.enqueue`. -/
def enqueueRoundRobinQueue (p : P) (s : SchedDS P) : Option (Bool × SchedDS P) := do
  let (ok, q, L) ← s.roundRobinQ.enqueue p s.mem.linkPool
  return (ok, { s with mem := { s.mem with linkPool := L }, roundRobinQ := q })

/-- `rrq.dequeue`. -/
def dequeueRoundRobinQueue (s : SchedDS P) : Option P × SchedDS P :=
  let (p, q, L) := s.roundRobinQ.dequeue s.mem.linkPool
  (p, { s with mem := { s.mem with linkPool := L }, roundRobinQ := q })

/-- `rrq.switchToPriorityQueuePolicy`. -/
def switchToPriorityQueuePolicyRoundRobinQueue (s : SchedDS P) : Bool × SchedDS P :=
  let (ok, q, t, m) := s.roundRobinQ.transfer s.priorityQ s.mem
  (ok, { s with mem := m, priorityQ := t, roundRobinQ := q })

/-- `rpholder.isEmpty`. -/
def isEmptyRunningProcessHolder (s : SchedDS P) : Bool := s.runningProcHolder.isEmpty

/-- `rpholder.add`. -/
def addRunningProcessHolder (p : P) (s : SchedDS P) : Option (Bool × SchedDS P) := do
  let (ok, q, L) ← s.runningProcHolder.enqueue p s.mem.linkPool
  return (ok, { s with mem := { s.mem with linkPool := L }, runningProcHolder := q })

/-- `rpholder.remove`. -/
def removeRunningProcessHolder [DecidableEq P] (p : P) (s : SchedDS P) :
    Option (Bool × SchedDS P) := do
  let (ok, q, L) ← s.runningProcHolder.remove p s.mem.linkPool
  return (ok, { s with mem := { s.mem with linkPool := L }, runningProcHolder := q })

/-- `rpholder.getMinAccumulator`: the stored value, when the call returns
true. -/
def getMinAccumulatorRunningProcessHolder (acc : P → ℤ) (s : SchedDS P) : Option (Option ℤ) :=
  s.runningProcHolder.getMinKey acc s.mem.linkPool

end SchedDS

/-! ## Initialisation -/

/-- The first loop of `initSchedDS`, `n` links in: the last one built heads
the free list. -/
def initLinks : ℕ → LinkPool P
  | 0 => ⟨fun _ => ⟨none, none⟩, none⟩
  | i + 1 =>
    let L := initLinks i
    ⟨update L.links i ⟨none, L.freeLinks⟩, some i⟩

/-- `MapNode()`. The constructor leaves the key alone, and the pages the
nodes are carved out of are zeroed. -/
def MapNode.blank : MapNode := ⟨0, LinkedList.empty, none, none, none, none⟩

/-- The second loop of `initSchedDS`, `n` nodes in. -/
def initNodes : ℕ → NodePool
  | 0 => ⟨fun _ => MapNode.blank, none⟩
  | i + 1 =>
    let N := initNodes i
    ⟨update N.nodes i { MapNode.blank with next := N.freeNodes }, some i⟩

/-- `initSchedDS`: both pools full, all three structures empty. -/
def initSchedDS : SchedDS P where
  mem := ⟨initLinks NPROCLIST, initNodes NPROCMAP⟩
  priorityQ := Map.empty
  roundRobinQ := LinkedList.empty
  runningProcHolder := LinkedList.empty

end Xv6
