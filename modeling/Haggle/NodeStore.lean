import Haggle.SendList
import Haggle.Trace

/-!
# The node store

The store is a list of references to nodes. A node is an object that callers hold references to as
well, and that the store marks as stored; a reference is the position of its object here.
-/

namespace Haggle

namespace Node

/-- `hasInterface`. -/
def hasInterface (n : Node) (i : Interface) : Bool := n.interfaces.any i.same

/-- The first interface that meets a condition is set to up or down. -/
def markFirst (p : Interface → Bool) (isUp : Bool) : List Interface → Option (List Interface)
  | [] => none
  | j :: l =>
    if p j then some ({ j with isUp := isUp } :: l) else (markFirst p isUp l).map (j :: ·)

/-- `setInterfaceUp`. -/
def setInterfaceUp (now : Timeval) (n : Node) (i : Interface) : Node :=
  match markFirst (fun j => i.same j && !j.isUp) true n.interfaces with
  | none => n
  | some interfaces => stamp now { n with interfaces := interfaces }

/-- `setInterfaceDown`. -/
def setInterfaceDown (now : Timeval) (n : Node) (i : Interface) : Node :=
  match markFirst (fun j => i.same j && j.isUp) false n.interfaces with
  | none => n
  | some interfaces => stamp now { n with interfaces := interfaces }

/-- `isAvailable`. -/
def isAvailable (n : Node) : Bool := n.interfaces.any (·.isUp)

/-- `isNeighbor`. -/
def isNeighbor (n : Node) : Bool :=
  (n.type = .peer || n.type = .undefined || n.type = .gateway) && n.isAvailable

/-- The interfaces of a node that is replaced: those that the new node shares keep their state if
they are up. -/
def takeUp (now : Timeval) (n : Node) (interfaces : List Interface) : Node :=
  interfaces.foldl (fun n i => if n.hasInterface i && i.isUp then n.setInterfaceUp now i else n) n

end Node

/-- A node, with whether node descriptions have been exchanged and whether it is in the store. -/
structure NodeObject where
  node : Node
  nodeDescExch : Bool
  stored : Bool

abbrev NodeHeap := List NodeObject

namespace NodeHeap

def node (h : NodeHeap) (k : ℕ) : Option Node := (h[k]?).map (·.node)

/-- `operator==` of nodes, and of references: those to one object are equal. -/
def sameNode (h : NodeHeap) (r k : ℕ) : Bool :=
  (h.node r).any fun n => (h.node k).any fun m => n.same m

def sameRef (h : NodeHeap) (r k : ℕ) : Bool := (r = k && (h.node r).isSome) || h.sameNode r k

/-- Node `k` has an interface of node `r`. -/
def shares (h : NodeHeap) (k r : ℕ) : Bool :=
  (h.node r).any fun m => m.interfaces.any fun i => (h.node k).any (·.hasInterface i)

def setStored (h : NodeHeap) (refs : List ℕ) (b : Bool) : NodeHeap :=
  h.mapIdx fun i o => if i ∈ refs then { o with stored := b } else o

def modifyNode (h : NodeHeap) (k : ℕ) (f : Node → Node) : NodeHeap :=
  h.modify k fun o => { o with node := f o.node }

/-- What node `k` takes over when it replaces node `r`. -/
def replace (now : Timeval) (h : NodeHeap) (k r : ℕ) : NodeHeap :=
  match h[r]? with
  | none => h
  | some old =>
    ((h.modifyNode k fun n => n.takeUp now old.node.interfaces).setStored [r] false).modify k
      fun o => { o with nodeDescExch := old.nodeDescExch }

end NodeHeap

structure NodeStore where
  heap : NodeHeap
  records : List ℕ

namespace NodeStore

open NodeHeap

def empty : NodeStore := ⟨[], []⟩

/-- `add(NodeRef&)`, and `add(Node *)`, which looks at what the node holds only. -/
def addWith (same : ℕ → ℕ → Bool) (s : NodeStore) (k : ℕ) : Bool × NodeStore :=
  if (s.heap.node k).isNone || s.records.any (same · k) then (false, s)
  else (true, ⟨s.heap.setStored [k] true, s.records ++ [k]⟩)

def add (s : NodeStore) (k : ℕ) : Bool × NodeStore := s.addWith s.heap.sameRef k

def addPtr (s : NodeStore) (k : ℕ) : Bool × NodeStore := s.addWith s.heap.sameNode k

/-- `retrieve`, for a node or an interface. -/
def retrieve (s : NodeStore) (p : ℕ → Bool) (mustBeNeighbor : Bool) : Option ℕ :=
  s.records.find? fun r => !(mustBeNeighbor && !(s.heap.node r).any (·.isNeighbor)) && p r

def hasInterface (s : NodeStore) (i : Interface) (r : ℕ) : Bool :=
  (s.heap.node r).any (·.hasInterface i)

/-- The loop of `update`: the records that stay, and those that are replaced. -/
def updateRecords (now : Timeval) (k : ℕ) : NodeHeap → List ℕ → NodeHeap × List ℕ × List ℕ
  | h, [] => (h, [], [])
  | h, r :: l =>
    if h.shares k r then
      let (h, kept, nl) := updateRecords now k (h.replace now k r) l
      (h, kept, r :: nl)
    else
      let (h, kept, nl) := updateRecords now k h l
      (h, r :: kept, nl)

/-- `update`, with the nodes that are replaced. -/
def update (now : Timeval) (s : NodeStore) (k : ℕ) : Bool × List ℕ × NodeStore :=
  let (h, kept, nl) := updateRecords now k s.heap s.records
  if nl.isEmpty then (false, [], s)
  else (true, nl, ⟨h.setStored [k] true, kept ++ [k]⟩)

/-- The first record that meets a condition is removed. -/
def removeFirst (s : NodeStore) (p : ℕ → Bool) : Option ℕ × NodeStore :=
  match s.records.find? p with
  | none => (none, s)
  | some r => (some r, ⟨s.heap.setStored [r] false, s.records.eraseP p⟩)

/-- `remove(const InterfaceRef&)`. -/
def removeInterface (s : NodeStore) (i : Interface) : Option ℕ × NodeStore :=
  s.removeFirst (s.hasInterface i)

/-- `remove(const NodeRef&)`. -/
def remove (s : NodeStore) (k : ℕ) : Bool × NodeStore :=
  let (r, s) := s.removeFirst (s.heap.sameRef · k)
  (r.isSome, s)

/-- `remove(const Node::Type_t)`. -/
def removeType (s : NodeStore) (type : NodeType) : ℕ × NodeStore :=
  let isType := fun r => (s.heap.node r).any fun n => n.type = type
  let gone := s.records.filter isType
  (gone.length, ⟨s.heap.setStored gone false, s.records.filter fun r => !isType r⟩)

/-- The calls of the store, and what callers do in between: they make nodes, which may be marked as
copies of a stored node are, and set interfaces to up and down. -/
inductive Call
  | create (o : NodeObject)
  | setInterfaceUp (now : Timeval) (k : ℕ) (i : Interface)
  | setInterfaceDown (now : Timeval) (k : ℕ) (i : Interface)
  | add (k : ℕ)
  | addPtr (k : ℕ)
  | update (now : Timeval) (k : ℕ)
  | removeInterface (i : Interface)
  | remove (k : ℕ)
  | removeType (type : NodeType)

def step (s : NodeStore) : Call → NodeStore
  | .create o => { s with heap := s.heap ++ [o] }
  | .setInterfaceUp now k i => { s with heap := s.heap.modifyNode k (·.setInterfaceUp now i) }
  | .setInterfaceDown now k i => { s with heap := s.heap.modifyNode k (·.setInterfaceDown now i) }
  | .add k => (s.add k).2
  | .addPtr k => (s.addPtr k).2
  | .update now k => (s.update now k).2.2
  | .removeInterface i => (s.removeInterface i).2
  | .remove k => (s.remove k).2
  | .removeType type => (s.removeType type).2

end NodeStore
end Haggle
