import Haggle.AssocList
import Haggle.DoubleText
import Haggle.RoutingUpdates

/-!
# The forwarding module of PRoPHET

The module numbers the nodes that it hears of and keeps, under their numbers, its own metrics and
those that its neighbors have sent. Maps are association lists here; an entry that is not there is
made when it is looked up, with a metric of zero that has never been aged.
-/

namespace Haggle
namespace Prophet

/-- `operator[]` of a map, and a change through the reference that it returns. -/
def modifyAt {K V : Type} [DecidableEq K] (new : V) (k : K) (f : V → V) (m : List (K × V)) :
    List (K × V) :=
  AssocList.set k (f ((AssocList.get m k).getD new)) m

structure Metric where
  p : ℚ
  time : Timeval
deriving DecidableEq

def Metric.new : Metric := ⟨0, ⟨0, 0⟩⟩

abbrev Rib := List (ℕ × Metric)

/-- The metric of a node number, zero if there is none. -/
def Rib.metric (rib : Rib) (k : ℕ) : Metric := (AssocList.get rib k).getD .new

structure Parameters where
  P_encounter : ℚ
  beta : ℚ
  gamma : ℚ
  aging_time_unit : ℚ

structure State where
  nodeid_to_id_number : List (Bytes × ℕ)
  id_number_to_nodeid : List (ℕ × Bytes)
  next_id_number : ℕ
  rib : Rib
  neighbor_ribs : List (ℕ × Rib)

def this_node_id : ℕ := 1

def name : Bytes := lit "Prophet"

section Tables

/-- `id_for_string`. -/
def idForString (s : State) (nodeid : Bytes) : ℕ × State :=
  let retval := (AssocList.get s.nodeid_to_id_number nodeid).getD 0
  if retval = 0 then
    (s.next_id_number,
      { s with
        nodeid_to_id_number := AssocList.set nodeid s.next_id_number s.nodeid_to_id_number
        id_number_to_nodeid := AssocList.set s.next_id_number nodeid s.id_number_to_nodeid
        next_id_number := s.next_id_number + 1 })
  else (retval, s)

/-- The constructor makes sure that the node of the device has the number one. -/
def State.init (thisNode : Bytes) : State := (idForString ⟨[], [], 1, [], []⟩ thisNode).2

def State.nodeid (s : State) (k : ℕ) : Bytes := (AssocList.get s.id_number_to_nodeid k).getD []

def State.modifyRib (s : State) (k : ℕ) (f : Metric → Metric) : State :=
  { s with rib := modifyAt .new k f s.rib }

def State.modifyNeighborRib (s : State) (k : ℕ) (f : Rib → Rib) : State :=
  { s with neighbor_ribs := modifyAt [] k f s.neighbor_ribs }

end Tables

section Metrics

variable (pr : Parameters)

/-- The number of time units that have passed, as the conversion to `long` gives it. -/
def agingSteps (seconds : ℤ) : ℤ :=
  let x : ℚ := seconds / pr.aging_time_unit
  if 0 ≤ x then ⌊x⌋ else ⌈x⌉

/-- A metric that is almost zero is made zero. -/
def cutOff (p : ℚ) : ℚ := if p < 1 / 1000000 then 0 else p

/-- `age_metric`. -/
def ageMetric (now : Timeval) (m : Metric) : Metric :=
  if m.time = ⟨0, 0⟩ then { m with time := now }
  else
    let K := agingSteps pr (now.sub m.time).sec
    if 0 < K then ⟨cutOff (m.p * pr.gamma ^ K.toNat), now⟩ else m

/-- `_newNeighbor`. -/
def newNeighbor (s : State) (type : NodeType) (idStr : Bytes) : State :=
  if type ≠ .peer then s
  else
    let (k, s) := idForString s idStr
    s.modifyRib k fun m => { m with p := m.p + (1 - m.p) * pr.P_encounter }

/-- `_endNeighbor`. -/
def endNeighbor (now : Timeval) (s : State) (type : NodeType) (idStr : Bytes) : State :=
  if type ≠ .peer then s
  else
    let (k, s) := idForString s idStr
    s.modifyRib k fun m => ⟨cutOff (m.p * pr.gamma), now⟩

/-- The parameter of an element; a missing one makes an empty string. -/
def nodeIdOf (m : Metadata) : Bytes := (m.getParameter (lit "node_id")).getD []

/-- One `Metric` of the routing information of node `b`, with the times at which the metrics of
both nodes are aged. What is no number leaves the metric as it was. -/
def receiveMetric (b : ℕ) (times : Timeval × Timeval) (s : State) (mm : Metadata) : State :=
  let (c, s) := idForString s (nodeIdOf mm)
  let s := s.modifyNeighborRib b (modifyAt .new c fun m =>
    { m with p := (DoubleText.scan mm.content).getD m.p })
  if c = this_node_id then s
  else
    let s := (s.modifyRib b (ageMetric pr times.1)).modifyRib c (ageMetric pr times.2)
    let P_bc := (Rib.metric ((AssocList.get s.neighbor_ribs b).getD []) c).p
    let P_ab := (s.rib.metric b).p
    s.modifyRib c fun m => { m with p := m.p + (1 - m.p) * P_ab * P_bc * pr.beta }

def receiveMetrics (b : ℕ) : (ℕ → Timeval × Timeval) → State → List Metadata → State
  | _, s, [] => s
  | clock, s, mm :: mms =>
    receiveMetrics b (fun i => clock (i + 1)) (receiveMetric pr b (clock 0) s mm) mms

/-- `newRoutingInformation`. -/
def newRoutingInformation (clock : ℕ → Timeval × Timeval) (s : State) (m : Metadata) : State :=
  if m.name ≠ name then s
  else
    let (b, s) := idForString s (nodeIdOf m)
    receiveMetrics pr b clock (s.modifyNeighborRib b id) (m.getAll (lit "Metric"))

/-- The part of a value of the repository before the colon, and the one behind it. -/
def splitValue (value : Bytes) : Bytes × Bytes :=
  if (58 : UInt8) ∈ value then
    (value.takeWhile (· ≠ 58), (value.dropWhile (· ≠ 58)).tail)
  else (value, value)

/-- `setSaveState`, for an entry of this module. -/
def setSaveState (uninit : Timeval) (s : State) (key value : Bytes) : State :=
  let (k, s) := idForString s key
  let (metric, time) := splitValue value
  s.modifyRib k fun _ => ⟨(DoubleText.scan metric).getD 0, Timeval.ofString uninit time⟩

/-- The metrics in the order of their numbers. -/
def inOrder {V : Type} (m : List (ℕ × V)) : List (ℕ × V) := m.mergeSort fun x y => x.1 ≤ y.1

/-- A metric is aged when it is printed, unless it is zero. -/
def advertise (clock : ℕ → Timeval) (e : ℕ × Metric) : ℕ × Metric :=
  if e.2.p ≠ 0 then (e.1, ageMetric pr (clock e.1) e.2) else e

def metricElement (p : ℚ) (nodeid : Bytes) : Metadata :=
  (Metadata.new (lit "Metric") (DoubleText.print p)).setParameter (lit "node_id") nodeid

/-- `addRoutingInformation`, on a device with identifier `thisNode`. A number with more than 31
characters is printed beyond its buffer. -/
def addRoutingInformation (clock : ℕ → Timeval) (thisNode : Bytes) (s : State) (parent : Metadata) :
    Option (State × Metadata) :=
  let sent := ((inOrder s.rib).filter fun e => e.2.p ≠ 0).map (advertise pr clock)
  if sent.all fun e => (DoubleText.print e.2.p).length ≤ 31 then
    some ({ s with rib := s.rib.map (advertise pr clock) },
      sent.foldl (fun m e => m.addMetadata (metricElement e.2.p (s.nodeid e.1)))
        (parent.setParameter (lit "node_id") thisNode))
  else none

end Metrics

section Choice

variable (pr : Parameters) (prefers : ℚ → ℚ → Bool)

/-- `sortedNodeListInsert`: before the first node with a smaller metric. -/
def sortedNodeListInsert {N : Type} (node : N) (metric : ℚ) : List (N × ℚ) → List (N × ℚ)
  | [] => [(node, metric)]
  | x :: l =>
    if x.2 < metric then (node, metric) :: x :: l else x :: sortedNodeListInsert node metric l

/-- The nodes of the event that is raised, if there is one. -/
def best {N : Type} (limit : ℕ) (l : List (N × ℚ)) : Option (List N) :=
  if l.isEmpty then none else some ((l.take limit).map Prod.fst)

/-- An entry of the table of a neighbor: is the neighbor a good delegate for the node? -/
def targetStep (blank : Node) (clock : ℕ → Timeval) (b : ℕ) (r : State × List (Node × ℚ))
    (e : ℕ × Metric) : State × List (Node × ℚ) :=
  if e.1 = this_node_id ∨ e.1 = b then r
  else
    let s := r.1.modifyRib e.1 (ageMetric pr (clock e.1))
    if prefers (s.rib.metric e.1).p e.2.p then
      match Node.createWithId blank (s.nodeid e.1) with
      | none => (s, r.2)
      | some target => (s, sortedNodeListInsert target e.2.p r.2)
    else (s, r.2)

/-- `_generateTargetsFor`. -/
def generateTargetsFor (blank : Node) (limit : ℕ) (clock : ℕ → Timeval) (s : State)
    (neighbor : Bytes) : State × Option (List Node) :=
  let (b, s) := idForString s neighbor
  let s := s.modifyNeighborRib b id
  let entries := inOrder ((AssocList.get s.neighbor_ribs b).getD [])
  let (s, sorted) := entries.foldl (targetStep pr prefers blank clock b) (s, [])
  (s, best limit sorted)

/-- The table of a neighbor: is the neighbor a good delegate for the target `d`? -/
def delegateStep (retrieve : Bytes → Option Node) (other_targets : List Node) (d : ℕ) (P_ad : ℚ)
    (r : State × List (Node × ℚ)) (e : ℕ × Rib) : State × List (Node × ℚ) :=
  if e.1 = this_node_id ∨ e.1 = d then r
  else
    match retrieve (r.1.nodeid e.1) with
    | none => r
    | some delegate =>
      if other_targets.any fun n => n.same delegate then r
      else
        let s := r.1.modifyNeighborRib e.1 (modifyAt .new d id)
        let P_bd := (Rib.metric e.2 d).p
        (s, if prefers P_ad P_bd then sortedNodeListInsert delegate P_bd r.2 else r.2)

/-- `_generateDelegatesFor`. -/
def generateDelegatesFor (retrieve : Bytes → Option Node) (other_targets : List Node) (limit : ℕ)
    (now : Timeval) (s : State) (target : Bytes) : State × Option (List Node) :=
  let (d, s) := idForString s target
  let s := s.modifyRib d (ageMetric pr now)
  let P_ad := (s.rib.metric d).p
  let (s, sorted) := (inOrder s.neighbor_ribs).foldl
    (delegateStep prefers retrieve other_targets d P_ad) (s, [])
  (s, best limit sorted)

end Choice

section Runs

/-- What a module is asked to do. -/
inductive Op
  | newNeighbor (type : NodeType) (idStr : Bytes)
  | endNeighbor (now : Timeval) (type : NodeType) (idStr : Bytes)
  | newRoutingInformation (clock : ℕ → Timeval × Timeval) (m : Metadata)
  | addRoutingInformation (clock : ℕ → Timeval) (parent : Metadata)
  | setSaveState (uninit : Timeval) (key value : Bytes)
  | generateTargetsFor (prefers : ℚ → ℚ → Bool) (blank : Node) (limit : ℕ) (clock : ℕ → Timeval)
      (neighbor : Bytes)
  | generateDelegatesFor (prefers : ℚ → ℚ → Bool) (retrieve : Bytes → Option Node)
      (other_targets : List Node) (limit : ℕ) (now : Timeval) (target : Bytes)

variable (pr : Parameters) (thisNode : Bytes)

def step (s : State) : Op → Option State
  | .newNeighbor type idStr => some (newNeighbor pr s type idStr)
  | .endNeighbor now type idStr => some (endNeighbor pr now s type idStr)
  | .newRoutingInformation clock m => some (newRoutingInformation pr clock s m)
  | .addRoutingInformation clock parent =>
    (addRoutingInformation pr clock thisNode s parent).map Prod.fst
  | .setSaveState uninit key value => some (setSaveState uninit s key value)
  | .generateTargetsFor prefers blank limit clock neighbor =>
    some (generateTargetsFor pr prefers blank limit clock s neighbor).1
  | .generateDelegatesFor prefers retrieve other_targets limit now target =>
    some (generateDelegatesFor pr prefers retrieve other_targets limit now s target).1

/-- A module after a list of requests; none once it has written beyond a buffer. -/
def history (ops : List Op) : Option State :=
  Trace.run (fun s op => s.bind fun s => step pr thisNode s op) (some (.init thisNode)) ops

end Runs

section Maps

variable {K V : Type} [DecidableEq K] {new : V} {k k' : K} {f : V → V} {m : List (K × V)}

theorem get_modifyAt_self : AssocList.get (modifyAt new k f m) k =
    some (f ((AssocList.get m k).getD new)) :=
  AssocList.get_set_self _ _ _

theorem get_modifyAt_of_ne (h : k ≠ k') :
    AssocList.get (modifyAt new k f m) k' = AssocList.get m k' :=
  AssocList.get_set_of_ne h _ _

theorem forall_modifyAt {P : V → Prop} (hnew : P new) (hm : ∀ e ∈ m, P e.2)
    (hf : ∀ v, P v → P (f v)) : ∀ e ∈ modifyAt new k f m, P e.2 := by
  intro e he
  rcases AssocList.mem_set he with rfl | he
  · apply hf
    cases hget : AssocList.get m k with
    | none => exact hnew
    | some v => exact hm _ (AssocList.mem_of_get hget)
  · exact hm e he

end Maps

end Prophet
end Haggle
