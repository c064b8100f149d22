import Haggle.NodeStore
import Haggle.RoutingUpdates

/-!
# Routing information that comes in batches

An event brings data objects with routing information. The manager gives its forwarding module a
task for each of them that comes from a known peer, and stops at the first one that does not.
-/

namespace Haggle
namespace RoutingBatches

open Forwarding (managerName)
open RoutingUpdates (recursiveRoutingUpdate)

/-- What the manager reads of a data object. -/
structure Received where
  metadata : Metadata
  remoteInterface : Option Interface

/-- What the manager asks its forwarding module for. -/
inductive Task
  | newRoutingInformation (dObj : Received)
  | generateRoutingInformationDataObject (neighbor : Node) (recurse_list : List Node)

/-- The manager with its configuration, the name of its forwarding module, and the nodes in the node
store. -/
structure Manager where
  inShutdown : Bool
  recursiveRoutingUpdates : Bool
  forwardingModule : Option Bytes
  thisNode : Node
  blank : Node
  nodes : List Node

section Model

variable (mgr : Manager)

/-- `retrieve`, for an interface. -/
def retrieve (iface : Option Interface) : Option Node :=
  iface.bind fun i => mgr.nodes.find? fun n => n.hasInterface i

def hasRoutingInformation (name : Bytes) (dObj : Received) : Bool :=
  ((dObj.metadata.getMetadata managerName).bind (·.getMetadata name)).isSome

/-- The tasks for one data object from a peer. -/
def process (peer : Node) (dObj : Received) : List Task :=
  .newRoutingInformation dObj ::
    if mgr.recursiveRoutingUpdates then
      let update := recursiveRoutingUpdate mgr.blank
        ((mgr.nodes.filter Node.isNeighbor).map fun n => (n, ())) peer
          (dObj.metadata.getMetadata managerName)
      update.1.map fun n => .generateRoutingInformationDataObject n.1 update.2
    else []

/-- The loop of `onRoutingInformation`. -/
def processAll : List Received → List Task
  | [] => []
  | dObj :: dObjs =>
    match retrieve mgr dObj.remoteInterface with
    | none => []
    | some peer =>
      if peer.same mgr.thisNode then []
      else
        (if mgr.forwardingModule.any fun name => hasRoutingInformation name dObj then
          process mgr peer dObj else []) ++ processAll dObjs

def onRoutingInformation (dObjs : List Received) : List Task :=
  if mgr.inShutdown then [] else processAll mgr dObjs

/-- The peer that a data object comes from, if it is known and another one. -/
def otherPeer (dObj : Received) : Option Node :=
  (retrieve mgr dObj.remoteInterface).filter fun peer => !peer.same mgr.thisNode

/-- The data object carries routing information for the module. -/
def informs (dObj : Received) : Bool :=
  mgr.forwardingModule.any fun name => hasRoutingInformation name dObj

/-- The tasks for a data object, whatever else is in the list. -/
def tasksOf (dObj : Received) : List Task :=
  if informs mgr dObj then (otherPeer mgr dObj).elim [] fun peer => process mgr peer dObj else []

def Useful (dObj : Received) : Prop :=
  informs mgr dObj = true ∧ (otherPeer mgr dObj).isSome

/-- A forwarding module is in the state afterwards that each data object alone, in the order of the
list, leads to. -/
def Independent (dObjs : List Received) : Prop :=
  ∀ (S : Type) (run : S → Task → S) (s : S),
    (onRoutingInformation mgr dObjs).foldl run s = (dObjs.flatMap (tasksOf mgr)).foldl run s

/-- No data object that is useful comes in shutdown, or behind one from an unknown interface or from
this device. -/
structure Heard (dObjs : List Received) : Prop where
  running : mgr.inShutdown = true → ∀ d ∈ dObjs, ¬ Useful mgr d
  behind : ∀ l d l', dObjs = l ++ d :: l' → otherPeer mgr d = none → ∀ d' ∈ l', ¬ Useful mgr d'

end Model

variable {mgr : Manager} {dObj : Received} {dObjs : List Received}

theorem tasksOf_eq_nil_iff : tasksOf mgr dObj = [] ↔ ¬ Useful mgr dObj := by
  unfold tasksOf Useful
  cases informs mgr dObj with
  | false => simp
  | true =>
    cases otherPeer mgr dObj with
    | none => simp
    | some peer => simp [process]

theorem flatMap_tasksOf_eq_nil_iff :
    dObjs.flatMap (tasksOf mgr) = [] ↔ ∀ d ∈ dObjs, ¬ Useful mgr d := by
  rw [List.flatMap_eq_nil_iff]
  exact forall₂_congr fun d _ => tasksOf_eq_nil_iff

/-- Every module ends in the same state exactly if it gets the same tasks. -/
theorem independent_iff_tasks :
    Independent mgr dObjs ↔ onRoutingInformation mgr dObjs = dObjs.flatMap (tasksOf mgr) := by
  constructor
  · intro h
    have hlist := h (List Task) (fun s t => s ++ [t]) []
    have hcollect : ∀ l s : List Task, l.foldl (fun s t => s ++ [t]) s = s ++ l := by
      intro l
      induction l with
      | nil => exact fun s => (List.append_nil s).symm
      | cons t l ih => exact fun s => by rw [List.foldl_cons, ih, List.append_assoc]; rfl
    rwa [hcollect, hcollect, List.nil_append, List.nil_append] at hlist
  · intro h S run s
    rw [h]

theorem processAll_cons {peer : Node} (hpeer : otherPeer mgr dObj = some peer) :
    processAll mgr (dObj :: dObjs) = tasksOf mgr dObj ++ processAll mgr dObjs := by
  obtain ⟨hretrieve, hother⟩ := Option.filter_eq_some_iff.mp hpeer
  have hsame : ¬ peer.same mgr.thisNode = true := by simpa using hother
  simp only [processAll, hretrieve, if_neg hsame, tasksOf, hpeer, Option.elim_some, informs]

theorem processAll_stop (hpeer : otherPeer mgr dObj = none) :
    processAll mgr (dObj :: dObjs) = [] ∧ tasksOf mgr dObj = [] := by
  refine ⟨?_, by simp [tasksOf, hpeer]⟩
  rw [processAll]
  cases hretrieve : retrieve mgr dObj.remoteInterface with
  | none => rfl
  | some peer =>
    have hsame : peer.same mgr.thisNode = true := by
      simpa [otherPeer, hretrieve] using hpeer
    simp only [if_pos hsame]

/-- The loop does all that is to be done exactly if it stops in front of nothing useful. -/
theorem processAll_iff (dObjs : List Received) :
    processAll mgr dObjs = dObjs.flatMap (tasksOf mgr) ↔
      ∀ l d l', dObjs = l ++ d :: l' → otherPeer mgr d = none → ∀ d' ∈ l', ¬ Useful mgr d' := by
  induction dObjs with
  | nil => exact iff_of_true rfl fun l d l' h => absurd h (by simp)
  | cons dObj dObjs ih =>
    -- A place in the list is the first one or a later one.
    have hsplit : (∀ l d l', dObj :: dObjs = l ++ d :: l' → otherPeer mgr d = none →
        ∀ d' ∈ l', ¬ Useful mgr d') ↔
        (otherPeer mgr dObj = none → ∀ d' ∈ dObjs, ¬ Useful mgr d') ∧
          ∀ l d l', dObjs = l ++ d :: l' → otherPeer mgr d = none → ∀ d' ∈ l', ¬ Useful mgr d' := by
      constructor
      · intro h
        exact ⟨h [] dObj dObjs rfl, fun l d l' heq => h (dObj :: l) d l' (by rw [heq]; rfl)⟩
      · rintro ⟨hfirst, hlater⟩ l d l' heq
        cases l with
        | nil =>
          obtain ⟨rfl, rfl⟩ := List.cons.inj heq
          exact hfirst
        | cons x l => exact hlater l d l' (List.cons.inj heq).2
    rw [hsplit, ← ih, List.flatMap_cons]
    cases hpeer : otherPeer mgr dObj with
    | some peer =>
      rw [processAll_cons hpeer, List.append_cancel_left_eq]
      exact ⟨fun h => ⟨nofun, h⟩, fun h => h.2⟩
    | none =>
      obtain ⟨hstop, hnone⟩ := @processAll_stop mgr dObj dObjs hpeer
      rw [hstop, hnone, List.nil_append, eq_comm, flatMap_tasksOf_eq_nil_iff]
      refine ⟨fun h => ⟨fun _ => h, ih.mpr fun l d l' heq _ d' hd' => h d' ?_⟩, fun h => h.1 rfl⟩
      rw [heq]
      exact List.mem_append_right l (List.mem_cons_of_mem d hd')

/-- A batch is processed one by one exactly if all that is useful in it is heard. -/
theorem independent_iff (mgr : Manager) (dObjs : List Received) :
    Independent mgr dObjs ↔ Heard mgr dObjs := by
  rw [independent_iff_tasks, onRoutingInformation]
  cases hshutdown : mgr.inShutdown with
  | true =>
    simp only [if_true]
    rw [eq_comm, flatMap_tasksOf_eq_nil_iff]
    refine ⟨fun h => ⟨fun _ => h, fun l d l' heq _ d' hd' => h d' ?_⟩,
      fun h => h.running hshutdown⟩
    rw [heq]
    exact List.mem_append_right l (List.mem_cons_of_mem d hd')
  | false =>
    rw [if_neg Bool.false_ne_true, processAll_iff]
    exact ⟨fun h => ⟨fun hs => absurd (hshutdown.symm.trans hs) Bool.false_ne_true, h⟩,
      fun h => h.behind⟩

end RoutingBatches

namespace Sample

open RoutingBatches

/-- A manager with a module and one peer. -/
def router : RoutingBatches.Manager :=
  ⟨false, false, some (lit "Prophet"), deviceNode .localDevice false, lostNode,
    [deviceNode .peer true]⟩

/-- A data object with routing information that came over an interface. -/
def routed (iface : Option Interface) : RoutingBatches.Received :=
  ⟨(Metadata.new (lit "Haggle") []).addMetadata
    ((Metadata.new Forwarding.managerName []).addMetadata (Metadata.new (lit "Prophet") [])), iface⟩

/-- The object of the peer is lost behind one without an interface. -/
theorem not_independent_routed : ¬ Independent router [routed none, routed (some (wlan true))] := by
  rw [independent_iff_tasks]
  intro h
  have hlen : (([routed none, routed (some (wlan true))]).flatMap (tasksOf router)).length = 1 := by
    decide +kernel
  rw [← h] at hlen
  exact absurd hlen (by decide)

end Sample
end Haggle
