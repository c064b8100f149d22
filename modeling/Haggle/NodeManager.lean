import Haggle.NodeRecords

/-!
# The node manager

Interfaces of neighbors come up and go down, the data store calls back with nodes that were asked
for or inserted, and node descriptions arrive. The handlers run one at a time; a task of the data
store is outstanding until its callback is handled, and callbacks come in any order. The state of an
interface changes with its event.
-/

namespace Haggle
namespace NodeManager

/-- A new contact, or the end of one, with the node as it is then. -/
structure Contact where
  isNew : Bool
  node : Node

structure State where
  store : NodeStore
  retrieving : List Interface
  inserting : List Node
  contacts : List Contact

/-- The node of this device, what a new node of no type holds, and the merging of filters. -/
structure Surroundings where
  thisNode : Node
  isDevice : thisNode.type = .localDevice
  blank : Node
  merge : NodeFilter → NodeFilter → NodeFilter

section Helpers

def State.node (s : State) (k : ℕ) : Option Node := s.store.heap.node k

/-- A new object for a node. -/
def State.create (s : State) (n : Node) : State :=
  { s with store := { s.store with heap := s.store.heap ++ [⟨n, false, false⟩] } }

def State.modifyNode (s : State) (k : ℕ) (f : Node → Node) : State :=
  { s with store := { s.store with heap := s.store.heap.modifyNode k f } }

/-- `EVENT_TYPE_NODE_CONTACT_NEW` or `EVENT_TYPE_NODE_CONTACT_END`. -/
def State.post (s : State) (isNew : Bool) (k : ℕ) : State :=
  { s with contacts := s.contacts ++ (s.node k).toList.map (⟨isNew, ·⟩) }

end Helpers

section Handlers

variable (env : Surroundings)

/-- `onNeighborInterfaceUp`. -/
def onNeighborInterfaceUp (now : Timeval) (s : State) (i : Interface) : State :=
  match s.store.retrieve (s.store.hasInterface i) true with
  | none => { s with retrieving := s.retrieving ++ [i] }
  | some neigh => s.modifyNode neigh (·.setInterfaceUp now i)

/-- `Node::create()` and `addInterface`. -/
def undefinedNode (now : Timeval) (i : Interface) : Node :=
  Node.addInterface now { env.blank with type := .undefined, interfaces := [] } i

/-- `onRetrieveNode`. -/
def onRetrieveNode (now : Timeval) (s : State) (node : Option Node) (i : Interface) : State :=
  let k := s.store.heap.length
  let s := s.create (node.getD (undefinedNode env now i))
  let (updated, _, store) := s.store.update now k
  let s := { s with store := if updated then store else (s.store.add k).2 }
  s.post true k

/-- `onNeighborInterfaceDown`. -/
def onNeighborInterfaceDown (now : Timeval) (s : State) (i : Interface) : State :=
  match s.store.retrieve (s.store.hasInterface i) false with
  | none => s
  | some node =>
    let s := s.modifyNode node (·.setInterfaceDown now i)
    if (s.node node).any (·.isAvailable) then s
    else State.post { s with store := (s.store.remove node).2 } false node

/-- The interfaces of a node that are in the interface store are up. -/
def syncInterfaces (now : Timeval) (stored : Interface → Bool) (n : Node) : Node :=
  n.interfaces.foldl (fun n i => if stored i then n.setInterfaceUp now i else n) n

/-- `nodeUpdate`. -/
def nodeUpdate (now : Timeval) (stored : Interface → Bool) (s : State) (node : Node) : State :=
  let k := s.store.heap.length
  let s := s.create node
  let (updated, _, store) := s.store.update now k
  if updated then { s with store := store }
  else
    let s := s.modifyNode k (syncInterfaces now stored)
    if (s.node k).any (·.isAvailable) then
      State.post { s with store := (s.store.add k).2 } true k
    else s

/-- A data object with a node description: the node made of it, and where it came from. -/
structure Description where
  node : Option Node
  remoteIface : Option Interface

/-- The neighbor that a description may be of. -/
def neighborFor (s : State) (node : Node) : Option Node :=
  (s.store.retrieve (fun r => (s.node r).any (·.same node)) true).bind s.node

/-- One data object of `onReceiveNodeDescription`. -/
def receiveNodeDescription (now : Timeval) (stored : Interface → Bool) (s : State)
    (d : Description) : State :=
  match d.node with
  | none => s
  | some node =>
    if node.same env.thisNode then s
    else
      let neighbor := neighborFor s node
      let fromThirdParty := d.remoteIface.any fun i => !node.hasInterface i
      let node := if fromThirdParty then node
        else d.remoteIface.elim node (node.setInterfaceUp now)
      match neighbor with
      | some m =>
        if fromThirdParty then s
        else if m.type = .undefined then
          nodeUpdate now stored s
            { node with bloomfilter := env.merge node.bloomfilter m.bloomfilter }
        else if node.nodeDescriptionCreateTime ≤ m.nodeDescriptionCreateTime then s
        else nodeUpdate now stored s node
      | none =>
        if fromThirdParty then { s with inserting := s.inserting ++ [node] }
        else nodeUpdate now stored s node

/-- `onReceiveNodeDescription`, which does nothing in shutdown. -/
def onReceiveNodeDescription (now : Timeval) (stored : Interface → Bool) (running : Bool)
    (s : State) (ds : List Description) : State :=
  if running then ds.foldl (receiveNodeDescription env now stored) s else s

/-- `onInsertedNode`. -/
def onInsertedNode (now : Timeval) (stored : Interface → Bool) (s : State) (node : Node) : State :=
  nodeUpdate now stored s node

end Handlers

section Runs

/-- What the manager handles. A callback is the one of the task at a position in the list of those
outstanding; a node that was inserted has its filter merged with the one that was stored. -/
inductive Act
  | interfaceUp (now : Timeval) (i : Interface)
  | retrieved (now : Timeval) (position : ℕ) (node : Option Node) (isUp : Bool)
  | interfaceDown (now : Timeval) (i : Interface)
  | descriptions (now : Timeval) (stored : Interface → Bool) (running : Bool)
      (ds : List Description)
  | inserted (now : Timeval) (stored : Interface → Bool) (position : ℕ) (bloomfilter : NodeFilter)

variable (env : Surroundings)

def step (s : State) : Act → State
  | .interfaceUp now i => onNeighborInterfaceUp now s i
  | .retrieved now position node isUp =>
    match s.retrieving[position]? with
    | none => s
    | some i => onRetrieveNode env now { s with retrieving := s.retrieving.eraseIdx position } node
        { i with isUp := isUp }
  | .interfaceDown now i => onNeighborInterfaceDown now s i
  | .descriptions now stored running ds => onReceiveNodeDescription env now stored running s ds
  | .inserted now stored position bloomfilter =>
    match s.inserting[position]? with
    | none => s
    | some node => onInsertedNode now stored
        { s with inserting := s.inserting.eraseIdx position }
        { node with bloomfilter := bloomfilter }

/-- The node of the device is in the store from the start. -/
def init : State := ⟨⟨[⟨env.thisNode, false, true⟩], [0]⟩, [], [], []⟩

end Runs

section Parts

variable {s : State}

theorem node_modifyNode_self (s : State) (k : ℕ) (f : Node → Node) :
    (s.modifyNode k f).node k = (s.node k).map f := by
  unfold State.modifyNode State.node
  rw [NodeHeap.node_modifyNode, if_pos rfl]

theorem node_create (s : State) (n : Node) :
    (s.create n).node s.store.heap.length = some n := by
  unfold State.create State.node NodeHeap.node
  simp

theorem sig_syncInterfaces (now : Timeval) (stored : Interface → Bool) (n : Node) :
    (syncInterfaces now stored n).sig = n.sig := by
  unfold syncInterfaces
  generalize n.interfaces = l
  induction l generalizing n with
  | nil => rfl
  | cons i l ih =>
    rw [List.foldl_cons, ih]
    split_ifs
    · exact Node.sig_setInterfaceUp now n i
    · rfl

/-- What is left of `nodeUpdate` when no record shares an interface with the node. -/
theorem nodeUpdate_of_not_shares (now : Timeval) (stored : Interface → Bool) {n : Node}
    (hnone : ∀ r ∈ (s.create n).store.records,
      (s.create n).store.heap.shares s.store.heap.length r = false) :
    nodeUpdate now stored s n =
      if (syncInterfaces now stored n).isAvailable then
        State.post { (s.create n).modifyNode s.store.heap.length (syncInterfaces now stored) with
          store := (((s.create n).modifyNode s.store.heap.length
            (syncInterfaces now stored)).store.add s.store.heap.length).2 } true s.store.heap.length
      else (s.create n).modifyNode s.store.heap.length (syncInterfaces now stored) := by
  unfold nodeUpdate
  simp only [NodeStore.update_of_not_shares now hnone, node_modifyNode_self, node_create,
    Option.map_some, Option.any_some]
  rfl

theorem shares_create {r : ℕ} {m : Node} (hm : s.node r = some m) (n : Node) :
    (s.create n).store.heap.shares s.store.heap.length r = m.interfaces.any n.hasInterface := by
  have hsome : (s.store.heap.node r).isSome := by
    rw [show s.store.heap.node r = some m from hm]
    rfl
  have hr : (s.create n).store.heap.node r = some m := (NodeHeap.node_append hsome _).trans hm
  have hn : (s.create n).store.heap.node s.store.heap.length = some n := node_create s n
  unfold NodeHeap.shares
  rw [hr, hn]
  rfl

end Parts

section Descriptions

variable (env : Surroundings)

/-- The node that a description brings to `nodeUpdate`, if it gets there. -/
def updatesWith (now : Timeval) (s : State) (d : Description) : Option Node :=
  d.node.bind fun node =>
    if node.same env.thisNode || d.remoteIface.any fun i => !node.hasInterface i then none
    else
      let node' := d.remoteIface.elim node (node.setInterfaceUp now)
      match neighborFor s node with
      | none => some node'
      | some m =>
        if m.type = .undefined then
          some { node' with bloomfilter := env.merge node'.bloomfilter m.bloomfilter }
        else if node'.nodeDescriptionCreateTime ≤ m.nodeDescriptionCreateTime then none
        else some node'

variable {env}

/-- A data object brings a node to `nodeUpdate`, or changes what is outstanding only. -/
theorem receiveNodeDescription_eq (now : Timeval) (stored : Interface → Bool) (s : State)
    (d : Description) : (∃ n ∈ updatesWith env now s d,
      receiveNodeDescription env now stored s d = nodeUpdate now stored s n) ∨
        ∃ inserting, receiveNodeDescription env now stored s d =
          { s with inserting := inserting } := by
  unfold receiveNodeDescription updatesWith
  cases d.node with
  | none => exact .inr ⟨s.inserting, rfl⟩
  | some node =>
    by_cases hsame : node.same env.thisNode = true
    · exact .inr ⟨s.inserting, by simp [hsame]⟩
    cases hthird : d.remoteIface.any fun i => !node.hasInterface i with
    | true =>
      cases hneighbor : neighborFor s node with
      | none => exact .inr ⟨s.inserting ++ [node], by simp [hsame, hthird, hneighbor]⟩
      | some m => exact .inr ⟨s.inserting, by simp [hsame, hthird, hneighbor]⟩
    | false =>
      simp only [hsame, hthird, Option.bind_some, Bool.false_eq_true, if_false, Bool.or_false]
      cases neighborFor s node with
      | none => exact .inl ⟨_, rfl, rfl⟩
      | some m =>
        simp only
        split_ifs
        · exact .inl ⟨_, rfl, rfl⟩
        · exact .inr ⟨s.inserting, rfl⟩
        · exact .inl ⟨_, rfl, rfl⟩

end Descriptions

end NodeManager
end Haggle
