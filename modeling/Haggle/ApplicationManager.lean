import Haggle.Node
import Haggle.Bloomfilter
import Haggle.Trace

/-!
# The application manager

Applications register by control messages, and their nodes are then in the node store. What an
application is interested in is kept in the data store, whose tasks run one after the other: first
those of high priority, in the order of their insertion, then the queries. Their callbacks, and the
results of what is sent, are handled in any order. A reference to a node is the position of its
object.
-/

namespace Haggle
namespace ApplicationManager

inductive EventType
  | shutdown
  | contactNew
  | contactEnd
  | filter (n : ℕ)
deriving DecidableEq

/-- An application node. The one that is read from the data store has no filter event and no event
interests. -/
structure App where
  id : Digest
  name : Bytes
  attrs : Attributes
  filterEvent : Option ℕ
  eventInterests : List EventType
  bloomfilter : CountingBloomfilter

/-- Tasks of high priority. -/
inductive Task
  | insertNode (k : ℕ)
  | retrieveNode (k : ℕ)
  | deleteFilter (event : Option ℕ)
  | retrieveLast

inductive Callback
  | node (k : ℕ)
  | appNodes (nodes : List App)
  | finishedProcessing

/-- What happened: nodes went into the node store and out of it, data objects were sent and results
came back, and filters of applications were emptied or an object was taken out of them. -/
inductive Entry
  | registered (app : Digest)
  | deregistered (app : Digest)
  | sent (app object : Digest)
  | result (app object : Digest) (success : Bool)
  | reset (app : Digest)
  | removed (app object : Digest)
deriving DecidableEq

structure State where
  heap : List App
  records : List ℕ
  thisAttrs : Attributes
  numClients : ℕ
  inShutdown : Bool
  pendingDOs : List (Digest × Digest)
  dataStoreFinishedProcessing : Bool
  readySignals : ℕ
  created : ℕ
  nextEvent : ℕ
  kept : List App
  tasks : List Task
  queries : ℕ
  callbacks : List Callback
  log : List Entry

/-- The hash of filters, the shape that they have, and the identifiers of the data objects that the
manager creates. -/
structure Surroundings where
  sha1 : Bytes → Digest
  shape : FilterShape
  objectId : ℕ → Digest

section Applications

def State.app (s : State) (k : ℕ) : Option App := s.heap[k]?

def State.hasId (s : State) (id : Digest) (k : ℕ) : Bool := (s.app k).any (·.id = id)

/-- `retrieve` by an identifier. -/
def State.retrieve (s : State) (id : Digest) : Option ℕ := s.records.find? (s.hasId id)

def State.modifyApp (s : State) (k : ℕ) (f : App → App) : State :=
  { s with heap := s.heap.modify k f }

def State.create (s : State) (a : App) : State := { s with heap := s.heap ++ [a] }

/-- `add` of the node store. Nodes of other types have identifiers as well. -/
def State.add (s : State) (isOther : Bool) (k : ℕ) : State :=
  (s.app k).elim s fun a =>
    if isOther || s.records.any (s.hasId a.id) then s
    else { s with records := s.records ++ [k], log := s.log ++ [.registered a.id] }

/-- `remove` of the node store. -/
def State.remove (s : State) (id : Digest) : State :=
  if s.records.any (s.hasId id) then
    { s with records := s.records.eraseP (s.hasId id), log := s.log ++ [.deregistered id] }
  else s

/-- `addAttribute`, with whether it was new. -/
def putAttribute (m : Attributes) (a : Attribute) : Attributes × Bool :=
  if (Attributes.find m a).isSome then (m, false) else (Attributes.add m a, true)

def App.addEventInterest (a : App) (e : EventType) : App :=
  if e ∈ a.eventInterests then a else { a with eventInterests := a.eventInterests ++ [e] }

def App.addToBloomfilter (sha1 : Bytes → Digest) (object : Digest) (a : App) : App :=
  { a with bloomfilter := a.bloomfilter.add sha1 object }

def App.hasEventInterest (a : App) (e : EventType) : Bool := e ∈ a.eventInterests

/-- `updateApplicationInterests`; the filter goes to the data store. -/
def updateApplicationInterests (s : State) (k : ℕ) : State :=
  (s.app k).elim s fun a =>
    let n := a.filterEvent.getD s.nextEvent
    { s.modifyApp k (fun a => { a with filterEvent := some n }.addEventInterest (.filter n)) with
      nextEvent := if a.filterEvent.isSome then s.nextEvent else s.nextEvent + 1 }

/-- `sendToApplication`. -/
def sendToApplication (s : State) (app object : Digest) : State :=
  { s with pendingDOs := s.pendingDOs ++ [(app, object)], log := s.log ++ [.sent app object] }

/-- The applications with an interest in an event. -/
def State.interested (s : State) (e : EventType) : List App :=
  (s.records.filterMap s.app).filter (·.hasEventInterest e)

variable (env : Surroundings)

/-- A data object that the manager creates is sent to one application. -/
def reply (s : State) (app : Digest) : State :=
  sendToApplication { s with created := s.created + 1 } app (env.objectId s.created)

/-- `sendToAllApplications`, with copies of one data object. -/
def sendToAllApplications (s : State) (e : EventType) : State :=
  (s.interested e).foldl (fun s' a => sendToApplication s' a.id (env.objectId s.created))
    { s with created := s.created + 1 }

/-- `onNeighborStatusChange`. Nothing is sent when the last interface of a neighbor goes down. -/
def onNeighborStatusChange (s : State) (lastInterface : Bool) : State :=
  if s.numClients = 0 || lastInterface then s else sendToAllApplications env s .contactNew

def ulongValues : ℕ := 2 ^ 64

/-- `++` and `--` of an `unsigned long`. -/
def ulongSucc (n : ℕ) : ℕ := if n + 1 = ulongValues then 0 else n + 1

def ulongPred (n : ℕ) : ℕ := if n = 0 then ulongValues - 1 else n - 1

/-- `deRegisterApplication`. -/
def deRegisterApplication (s : State) (k : ℕ) : State :=
  (s.app k).elim s fun a =>
    let s := { s with numClients := ulongPred s.numClients }
    let copy := s.heap.length
    let s := (s.create a).remove a.id
    { s with tasks := s.tasks ++ [.deleteFilter a.filterEvent, .insertNode copy] }

end Applications

section Messages

/-- An interest in a control message. -/
structure Interest where
  name : Option Bytes
  value : Bytes
  weight : Option Bytes

inductive EventInterest
  | shutdown
  | neighborUpdate
  | other

/-- An element of a control message; `invalid` is every type that is not handled. -/
inductive Control
  | registrationRequest
  | deregistrationNotice
  | shutdown
  | registerInterest (interests : List Interest)
  | removeInterest (interests : List Interest)
  | getInterests
  | registerEventInterest (events : List EventInterest)
  | getDataObjects
  | deleteDataObject (object : Option Digest) (keepInBloomfilter : Bool)
  | sendNodeDescription
  | invalid

/-- A control data object: who it is from, whether another node has that identifier, and its
elements. -/
structure Message where
  id : Digest
  name : Bytes
  isOther : Bool
  controls : Option (List Control)

variable (env : Surroundings)

/-- One interest that is registered: it goes to this node and to the application. -/
def addInterest (k : ℕ) (r : State × Bool) (i : Interest) : State × Bool :=
  match i.name, r.1.app k with
  | some name, some a =>
    let attr : Attribute := ⟨name, i.value, (i.weight.map strtoul).getD 1⟩
    let put := putAttribute a.attrs attr
    ({ r.1.modifyApp k (fun a => { a with attrs := put.1 }) with
      thisAttrs := (putAttribute r.1.thisAttrs attr).1 }, r.2 || put.2)
  | _, _ => r

/-- One interest that is removed, from the application only. -/
def dropInterest (k : ℕ) (r : State × Bool) (i : Interest) : State × Bool :=
  match i.name, r.1.app k with
  | some name, some a =>
    let erased := Attributes.erase a.attrs ⟨name, if i.value = lit "*" then [] else i.value, 1⟩
    (r.1.modifyApp k fun a => { a with attrs := erased.1 }, r.2 || decide (erased.2 ≠ 0))
  | _, _ => r

/-- `addApplicationEventInterest`. -/
def addApplicationEventInterest (k : ℕ) (s : State) : EventInterest → State
  | .shutdown => s.modifyApp k (·.addEventInterest .shutdown)
  | .neighborUpdate =>
    onNeighborStatusChange env (s.modifyApp k fun a =>
      (a.addEventInterest .contactNew).addEventInterest .contactEnd) false
  | .other => s

/-- A new application node. -/
def newApp (id : Digest) (name : Bytes) : App :=
  ⟨id, name, HashMap.empty, none, [], CountingBloomfilter.new env.shape⟩

/-- One element of a control message, for the node that the application had in the store when the
message arrived. No state: the rest of the event is not handled. -/
def onControl (m : Message) (appNode : Option ℕ) (s : State) : Control → Option State
  | .registrationRequest =>
    some (if s.inShutdown then s
      else match appNode with
        | some _ => reply env s m.id
        | none => { s.create (newApp env m.id m.name) with
            tasks := s.tasks ++ [.retrieveNode s.heap.length] })
  | .deregistrationNotice => some (appNode.elim s (deRegisterApplication s))
  | .shutdown => some s
  | .registerInterest interests =>
    some (if s.inShutdown then s
      else appNode.elim s fun k =>
        let r := interests.foldl (addInterest k) (s, false)
        if r.2 then updateApplicationInterests r.1 k else r.1)
  | .removeInterest interests =>
    some (if s.inShutdown then s
      else appNode.elim s fun k =>
        let r := interests.foldl (dropInterest k) (s, false)
        if r.2 then
          let s := updateApplicationInterests r.1 k
          { s with tasks := s.tasks ++ [.insertNode k], queries := s.queries + 1 }
        else r.1)
  | .getInterests => some (if s.inShutdown then s else appNode.elim s fun _ => reply env s m.id)
  | .registerEventInterest events =>
    some (if s.inShutdown then s
      else appNode.elim s fun k => events.foldl (addApplicationEventInterest env k) s)
  | .getDataObjects =>
    some (if s.inShutdown then s
      else appNode.elim s fun k =>
        let s := s.modifyApp k fun a => { a with bloomfilter := .new env.shape }
        updateApplicationInterests { s with log := s.log ++ [.reset m.id] } k)
  | .deleteDataObject object keepInBloomfilter =>
    some (if s.inShutdown || keepInBloomfilter then s
      else match appNode, object with
        | some k, some o =>
          let s := s.modifyApp k fun a => { a with bloomfilter := a.bloomfilter.remove env.sha1 o }
          { s with log := s.log ++ [.removed m.id o] }
        | _, _ => s)
  | .sendNodeDescription => some s
  | .invalid => none

/-- The elements of a message, with whether the event is handled on. -/
def onControls (m : Message) (appNode : Option ℕ) : State → List Control → State × Bool
  | s, [] => (s, true)
  | s, c :: l =>
    match onControl env m appNode s c with
    | none => (s, false)
    | some s => onControls m appNode s l

/-- `onReceiveFromApplication`. A data object that is no control message ends it. -/
def onReceiveFromApplication : State → List (Option Message) → State
  | s, [] => s
  | s, none :: _ => s
  | s, some m :: l =>
    if m.isOther then s
    else match m.controls with
      | none => s
      | some controls =>
        let r := onControls env m (s.retrieve m.id) s controls
        if r.2 then onReceiveFromApplication r.1 l else r.1

end Messages

section Events

variable (env : Surroundings)

/-- `onRetrieveNode`. -/
def onRetrieveNode (s : State) (isOther : Bool) (k : ℕ) : State :=
  (s.app k).elim s fun a =>
    let s := s.modifyApp k fun a => { a with bloomfilter := .new env.shape }
    let s := updateApplicationInterests (s.add isOther k) k
    reply env { s with numClients := ulongSucc s.numClients } a.id

def addAll (m attrs : Attributes) : Attributes :=
  attrs.toList.foldl (fun m e => (putAttribute m e.2).1) m

/-- `onRetrieveAppNodes`: the attributes of this node are removed one by one, and then those of the
applications are added, from the node store if it has the node. -/
def onRetrieveAppNodes (s : State) (nodes : List App) : State :=
  let emptied := s.thisAttrs.toList.foldl (fun m e => (Attributes.erase m e.2).1) s.thisAttrs
  let nodes := nodes.map fun a => ((s.retrieve a.id).bind s.app).getD a
  { s with thisAttrs := nodes.foldl (fun m a => addAll m a.attrs) emptied }

def signalIsReadyForShutdown (s : State) : State := { s with readySignals := s.readySignals + 1 }

/-- `onDataStoreFinishedProcessing`. -/
def onDataStoreFinishedProcessing (s : State) : State :=
  let s := { s with dataStoreFinishedProcessing := true }
  if s.pendingDOs.isEmpty then signalIsReadyForShutdown s else s

/-- One data object of a filter match, for one application. -/
def matchObject (a : App) (s : State) (o : Digest × Bool) : State :=
  if o.2 || a.bloomfilter.has env.sha1 o.1 then s else sendToApplication s a.id o.1

/-- `onApplicationFilterMatchEvent`; an object comes with whether it is a node description. -/
def onApplicationFilterMatchEvent (s : State) (event : ℕ) (objects : List (Digest × Bool)) :
    State :=
  (s.interested (.filter event)).foldl (fun s a => objects.foldl (matchObject env a) s) s

/-- The node that the data manager takes for a send result: the one of the event, unless it is not
in the store and another one with its identifier is. -/
def resultNode (s : State) (k : ℕ) : ℕ :=
  if k ∈ s.records then k else ((s.app k).bind fun a => s.retrieve a.id).getD k

/-- `onSendResult`, of this manager and of the data manager. -/
def onSendResult (s : State) (k : ℕ) (object : Digest) (success : Bool) : State :=
  (s.app k).elim s fun a =>
    let s := { s with
      pendingDOs := s.pendingDOs.filter fun p => p.2 ≠ object
      log := s.log ++ [.result a.id object success] }
    let s :=
      if success then s.modifyApp (resultNode s k) (·.addToBloomfilter env.sha1 object) else s
    if s.inShutdown && s.pendingDOs.isEmpty && s.dataStoreFinishedProcessing then
      signalIsReadyForShutdown s
    else s

/-- `onPrepareShutdown`. -/
def onPrepareShutdown (s : State) : State :=
  let s := sendToAllApplications env { s with inShutdown := true } .shutdown
  let lst := s.records
  if lst.isEmpty then
    let s := { s with dataStoreFinishedProcessing := true }
    if s.pendingDOs.isEmpty then signalIsReadyForShutdown s else s
  else
    let s := lst.foldl deRegisterApplication s
    { s with tasks := s.tasks ++ [.retrieveLast] }

/-- An application node goes into the data store, in place of the one with its identifier. -/
def keep (kept : List App) (a : App) : List App := kept.filter (fun b => b.id ≠ a.id) ++ [a]

/-- What is kept of an application. -/
def App.stored (a : App) : App := { a with filterEvent := none, eventInterests := [] }

/-- A task of the data store. A node that is not there is returned as it was asked for. -/
def runTask (s : State) : Task → State
  | .insertNode k => (s.app k).elim s fun a => { s with kept := keep s.kept a.stored }
  | .retrieveNode k =>
    match (s.app k).bind fun a => s.kept.find? (·.id = a.id) with
    | some b => { s.create b with callbacks := s.callbacks ++ [.node s.heap.length] }
    | none => { s with callbacks := s.callbacks ++ [.node k] }
  | .deleteFilter _ => s
  | .retrieveLast => { s with callbacks := s.callbacks ++ [.finishedProcessing] }

/-- The first task of the queue is run. -/
def runDataStore (s : State) : State :=
  match s.tasks with
  | t :: l => runTask { s with tasks := l } t
  | [] =>
    if s.queries = 0 then s
    else { s with queries := s.queries - 1, callbacks := s.callbacks ++ [.appNodes s.kept.reverse] }

def onCallback (s : State) (isOther : Bool) : Callback → State
  | .node k => onRetrieveNode env s isOther k
  | .appNodes nodes => onRetrieveAppNodes s nodes
  | .finishedProcessing => onDataStoreFinishedProcessing s

inductive Act
  | receive (messages : List (Option Message))
  | dataStore
  | callback (position : ℕ) (isOther : Bool)
  | neighborStatus (lastInterface : Bool)
  | filterMatch (event : ℕ) (objects : List (Digest × Bool))
  | sendResult (k : ℕ) (object : Digest) (success : Bool)
  | prepareShutdown

def step (s : State) : Act → State
  | .receive messages => onReceiveFromApplication env s messages
  | .dataStore => runDataStore s
  | .callback position isOther =>
    (s.callbacks[position]?).elim s
      (onCallback env { s with callbacks := s.callbacks.eraseIdx position } isOther)
  | .neighborStatus lastInterface => onNeighborStatusChange env s lastInterface
  | .filterMatch event objects => onApplicationFilterMatchEvent env s event objects
  | .sendResult k object success => onSendResult env s k object success
  | .prepareShutdown => onPrepareShutdown env s

/-- At the start the data store is asked for the applications that it keeps. -/
def init (kept : List App) : State :=
  ⟨[], [], HashMap.empty, 0, false, [], false, 0, 0, 0, kept, [], 1, [], []⟩

end Events

end ApplicationManager
end Haggle
