import Haggle.NodeRecords
import Haggle.OpenRequests

/-!
# The node descriptions that are sent

The node manager sends the description of its node to a new contact, and to all neighbors when it is
told to. Until it knows the outcome it has an entry for the node and the data object. It finds the
entry by comparing nodes: a result has the node that the protocol holds, and the one in the node
store that is equal to it is what the entry is compared with.
-/

namespace Haggle
namespace DescriptionSends

/-- An entry of the send list: a node and the identifier of a data object. -/
structure SendEntry where
  node : ℕ
  dObj : Digest
  retries : ℕ
deriving DecidableEq

structure State where
  store : NodeStore
  sendList : List SendEntry

/-- What `EVENT_TYPE_DATAOBJECT_SEND` asks for, for each of its nodes. -/
abbrev Send := ℕ × Digest

section Handlers

/-- The comparison that finds an entry. -/
def isFor (h : NodeHeap) (node : ℕ) (dObj : Digest) (e : SendEntry) : Bool :=
  h.sameRef e.node node && e.dObj = dObj

def State.isInSendList (s : State) (node : ℕ) (dObj : Digest) : Bool :=
  s.sendList.any (isFor s.store.heap node dObj)

/-- `getBloomfilter()->has(dObj)`. -/
def State.hasObject (has : NodeFilter → Digest → Bool) (s : State) (node : ℕ) (dObj : Digest) :
    Bool :=
  (s.store.heap.node node).any fun n => has n.bloomfilter dObj

/-- `sendNodeDescription`, with the nodes that the event is for. -/
def sendNodeDescription (has : NodeFilter → Digest → Bool) (dObj : Digest) :
    State → List ℕ → State × List ℕ
  | s, [] => (s, [])
  | s, neigh :: neighList =>
    if s.hasObject has neigh dObj || s.isInSendList neigh dObj then
      sendNodeDescription has dObj s neighList
    else
      let (s', targetList) := sendNodeDescription has dObj
        { s with sendList := s.sendList ++ [⟨neigh, dObj, 0⟩] } neighList
      (s', neigh :: targetList)

/-- `onNewNodeContact`. -/
def onNewNodeContact (has : NodeFilter → Digest → Bool) (running : Bool) (dObj : Digest)
    (s : State) (neigh : ℕ) : State × List ℕ :=
  if running then sendNodeDescription has dObj s [neigh] else (s, [])

/-- `retrieveNeighbors`. -/
def State.neighbors (s : State) : List ℕ :=
  s.store.records.filter fun r => (s.store.heap.node r).any (·.isNeighbor)

/-- `onSendNodeDescription`. -/
def onSendNodeDescription (has : NodeFilter → Digest → Bool) (running : Bool) (dObj : Digest)
    (s : State) : State × List ℕ :=
  if running then sendNodeDescription has dObj s s.neighbors else (s, [])

/-- The first entry that meets a condition is changed or erased. -/
def changeFirst (p : SendEntry → Bool) (f : SendEntry → Option SendEntry) :
    List SendEntry → List SendEntry
  | [] => []
  | e :: l => if p e then (f e).toList ++ l else e :: changeFirst p f l

/-- `setExchangedNodeDescription`. -/
def State.setExchanged (s : State) (node : ℕ) (yes : Bool) : State :=
  { s with store := { s.store with
    heap := s.store.heap.modify node fun o => { o with nodeDescExch := yes } } }

/-- `onSendResult`, with the event that sends the data object again. -/
def onSendResult (nodeDescriptionRetries : ℕ) (successful : Bool) (s : State) (node : Option ℕ)
    (dObj : Digest) : State × List Send :=
  match node with
  | none => (s, [])
  | some node =>
    let neigh := (s.store.retrieve (s.store.heap.sameRef · node) false).getD node
    let found := isFor s.store.heap neigh dObj
    match s.sendList.find? found with
    | none => (s, [])
    | some e =>
      if successful then
        ({ s.setExchanged neigh true with
          sendList := changeFirst found (fun _ => none) s.sendList }, [])
      else if e.retries + 1 ≤ nodeDescriptionRetries ∧
          (s.store.heap.node neigh).any (·.isNeighbor) then
        ({ s.setExchanged neigh false with
          sendList := changeFirst found (fun e => some { e with retries := e.retries + 1 })
            s.sendList }, [(neigh, dObj)])
      else
        ({ s.setExchanged neigh false with
          sendList := changeFirst found (fun _ => none) s.sendList }, [])

end Handlers

section Runs

/-- Whether what is sent is what an entry is for. -/
def fits (h : NodeHeap) (e : SendEntry) (o : Send) : Bool := isFor h o.1 o.2 e

/-- The manager, with what is being sent and has no result yet. For the entries of the send list
`made` has all that has been sent. -/
structure Ledger where
  state : State
  opened : List Send
  made : List Send

def Ledger.init : Ledger := ⟨⟨NodeStore.empty, []⟩, [], []⟩

/-- What happens: the node store is called, in whatever order; a node is met, or its description is
to be sent to all neighbors; and what was sent as number `i` has a result, with the object for the
node that the protocol holds. -/
inductive Move
  | store (call : NodeStore.Call)
  | newContact (running : Bool) (dObj : Digest) (neigh : ℕ)
  | nodeDescriptionSend (running : Bool) (dObj : Digest)
  | sendResult (successful : Bool) (i : ℕ) (node : ℕ)

def Ledger.sent (l : Ledger) (dObj : Digest) (r : State × List ℕ) : Ledger where
  state := r.1
  opened := l.opened ++ r.2.map (·, dObj)
  made := l.made ++ r.2.map (·, dObj)

def Ledger.reported (l : Ledger) (i : ℕ) (r : State × List Send) : Ledger where
  state := r.1
  opened := l.opened.eraseIdx i ++ r.2
  made := OpenRequests.current (fits r.1.store.heap) r.1.sendList (l.made ++ r.2)

/-- Contacts are nodes that there are, and all that is sent has one result, which is about the node
that it was sent to. -/
def Ledger.step (has : NodeFilter → Digest → Bool) (nodeDescriptionRetries : ℕ) (l : Ledger) :
    Move → Ledger
  | .store call => { l with state := { l.state with store := l.state.store.step call } }
  | .newContact running dObj neigh =>
    if (l.state.store.heap.node neigh).isSome then
      l.sent dObj (onNewNodeContact has running dObj l.state neigh)
    else l
  | .nodeDescriptionSend running dObj =>
    l.sent dObj (onSendNodeDescription has running dObj l.state)
  | .sendResult successful i node =>
    match l.opened[i]? with
    | none => l
    | some o =>
      if l.state.store.heap.sameRef node o.1 then
        l.reported i (onSendResult nodeDescriptionRetries successful l.state (some node) o.2)
      else l

/-- There is one entry at the most for a neighbor and a data object, each entry has one sending
without a result, and there have been as many as allowed. -/
structure Ledger.Bounded (nodeDescriptionRetries : ℕ) (l : Ledger) : Prop where
  once : ∀ n ∈ l.state.store.records, ∀ dObj,
    l.state.sendList.countP (isFor l.state.store.heap n dObj) ≤ 1
  alone : ∀ e ∈ l.state.sendList,
    l.state.sendList.countP (isFor l.state.store.heap e.node e.dObj) ≤ 1
  one_open : ∀ e ∈ l.state.sendList, l.opened.countP (fits l.state.store.heap e) = 1
  made_le : ∀ e ∈ l.state.sendList,
    l.made.countP (fits l.state.store.heap e) ≤ nodeDescriptionRetries + 1

/-- No node is equal to two nodes that are not equal. -/
def Told (h : NodeHeap) (nodes : List ℕ) : Prop :=
  ∀ a ∈ nodes, ∀ b ∈ nodes, ∀ c ∈ nodes, h.sameRef a b = true → h.sameRef b c = true →
    h.sameRef a c = true

instance (h : NodeHeap) (nodes : List ℕ) : Decidable (Told h nodes) :=
  inferInstanceAs (Decidable (∀ a ∈ nodes, ∀ b ∈ nodes, ∀ c ∈ nodes, h.sameRef a b = true →
    h.sameRef b c = true → h.sameRef a c = true))

/-- The nodes of the entries for a data object. -/
def Ledger.entriesOf (l : Ledger) (dObj : Digest) : List ℕ :=
  (l.state.sendList.filter fun e => e.dObj = dObj).map SendEntry.node

/-- The nodes that are compared when a data object is sent or has been. -/
def Ledger.involved (l : Ledger) (dObj : Digest) : List ℕ :=
  l.state.store.records ++ l.entriesOf dObj ++ (l.made.filter fun o => o.2 = dObj).map Prod.fst

/-- The node that a call may put into the store. -/
def arriving : NodeStore.Call → List ℕ
  | .add k => [k]
  | .addPtr k => [k]
  | .update _ k => [k]
  | _ => []

/-- The nodes that a step has to do with can be told from each other. -/
def Ledger.Tells (l : Ledger) : Move → Prop
  | .store call =>
    ∀ e ∈ l.state.sendList, Told l.state.store.heap (l.entriesOf e.dObj ++ arriving call)
  | .newContact _ dObj neigh => Told l.state.store.heap (neigh :: l.involved dObj)
  | .nodeDescriptionSend _ dObj => Told l.state.store.heap (l.involved dObj)
  | .sendResult _ i node =>
    match l.opened[i]? with
    | none => True
    | some o => Told l.state.store.heap (node :: l.involved o.2)

instance (l : Ledger) : ∀ m, Decidable (l.Tells m)
  | .store call => inferInstanceAs (Decidable (∀ e ∈ l.state.sendList,
      Told l.state.store.heap (l.entriesOf e.dObj ++ arriving call)))
  | .newContact _ dObj neigh =>
    inferInstanceAs (Decidable (Told l.state.store.heap (neigh :: l.involved dObj)))
  | .nodeDescriptionSend _ dObj =>
    inferInstanceAs (Decidable (Told l.state.store.heap (l.involved dObj)))
  | .sendResult _ i node =>
    match h : l.opened[i]? with
    | none => .isTrue (by simp only [Ledger.Tells, h])
    | some o => decidable_of_iff (Told l.state.store.heap (node :: l.involved o.2))
        (by simp only [Ledger.Tells, h])

end Runs

end DescriptionSends
end Haggle
