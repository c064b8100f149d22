import Haggle.StoredNodeRead
import Haggle.StoreQueries
import Haggle.Trace

/-!
# What queries depend on

A query that drops the view it reads through sees its own limit, whatever earlier operations have
left there: its result depends on the tables, and on the files or the nodes in memory that data
objects and nodes are made of.
-/

namespace Haggle
namespace StoreQueries

inductive Query
  | evaluateFilters (f : Faults) (dObj : Option DataObject) (dataobject_rowid : ℤ)
  | evaluateDataObjects (f : Faults) (eventType : ℤ)
  | dataObjectQuery (f : Faults) (node : Node) (attrMatch : ℕ)
  | dataObjectForNodesQuery (node : Node) (nodes : List (Node × Faults)) (attrMatch : ℕ)
  | nodeQuery (f : Faults) (dObj : Option DataObject) (maxResp attrMatch : ℕ)

/-- The pieces that the operations of the data store are made of: the queries, the limits that other
operations set, all statements that write, and what reading a node does to the node store. The kernel
and the files change on their own. -/
inductive Operation
  | query (q : Query)
  | limitDataobjects (f : Faults) (dataobject_rowid : ℤ)
  | limitNodes (f : Faults) (node_rowid : ℤ)
  | write (db : Database)
  | retrieveNode (n : Node) (forceCallback : Bool)
  | outside (kernel : NodeKernel) (files : FileSystem)

section Steps

variable (env : Environment)

def answer : Query → State → State × Outcome
  | .evaluateFilters _ none _, s => (s, ⟨-1, []⟩)
  | .evaluateFilters f (some o) rowid, s => evaluateFilters env f o rowid s
  | .evaluateDataObjects f eventType, s => evaluateDataObjects env f eventType s
  | .dataObjectQuery f node attrMatch, s => doDataObjectQuery env f node attrMatch s
  | .dataObjectForNodesQuery node nodes attrMatch, s =>
    doDataObjectForNodesQuery env node nodes attrMatch s
  | .nodeQuery _ none _ _, s => (s, ⟨-1, []⟩)
  | .nodeQuery f (some o) maxResp attrMatch, s => doNodeQuery env f o maxResp attrMatch s

def step (s : State) : Operation → State
  | .query q => (answer env q s).1
  | .limitDataobjects f rowid => { s with dataobjectView := setView f rowid s.dataobjectView }
  | .limitNodes f rowid => { s with nodeView := setView f rowid s.nodeView }
  | .write db => { s with db := db }
  | .retrieveNode n forceCallback => { s with
      kernel := { s.kernel with
        nodeStore := (StoredNode.retrieveNode s.kernel s.db.nodes n forceCallback).2 } }
  | .outside k fs => { s with kernel := k, files := fs }

/-- States that agree on what a query may depend on. Filters are matched in the tables alone; data
objects have files, and nodes are looked for in memory first. -/
def Query.Agree (q : Query) (s t : State) : Prop :=
  s.db = t.db ∧
    match q with
    | .evaluateFilters .. => True
    | .nodeQuery .. => s.kernel = t.kernel
    | _ => s.files = t.files

end Steps

section Views

end Views

section Queries

variable (env : Environment) {f : Faults} {s t : State}

/-- A query for data objects changes nothing but the view. -/
theorem doDataObjectQueryStep2_frame (f : Faults) (node : Node) (delegate : Option Node)
    (max_matches : ℤ) (threshold attrMatch : ℕ) (s : State) :
    (doDataObjectQueryStep2 env f node delegate max_matches threshold attrMatch s).1.db = s.db ∧
      (doDataObjectQueryStep2 env f node delegate max_matches threshold attrMatch s).1.files =
        s.files := by
  simp only [doDataObjectQueryStep2]
  split_ifs
  · exact ⟨rfl, rfl⟩
  · split <;> exact ⟨rfl, rfl⟩

end Queries

end StoreQueries

namespace Sample

open StoreQueries

/-- A node and a data object with a common attribute. -/
def matchedTables : Database where
  nodes :=
    { StoredNode.emptyTables with
      nodes := { StoredNode.emptyTables.nodes with
        rows := [[(lit "rowid", .int 1), (lit "id", .blob digest.1), (lit "sum_weights", .int 3),
          (lit "resolution_threshold", .int 10)]] }
      attributes := { StoredNode.emptyTables.attributes with
        rows := [[(lit "rowid", .int 1), (lit "name", .text (lit "a")),
          (lit "value", .text (lit "v"))]] }
      links := { StoredNode.emptyTables.links with
        rows := [[(lit "node_rowid", .int 1), (lit "attr_rowid", .int 1), (lit "weight", .int 3)]] } }
  dataobjects := { StoredObject.emptyTable with
    rows := [[(lit "rowid", .int 1), (lit "id", .blob digest.1)]] }
  dataobjectAttributes := [⟨1, 1⟩]
  filters := []
  filterAttributes := []
  nodes_pos := by decide
  dataobjects_pos := by decide

def queryEnvironment : Environment where
  plan := ⟨id, fun l => List.Perm.refl l⟩
  filterPlan := ⟨id, fun l => List.Perm.refl l⟩
  platform := onePlatform
  storagepath := lit "/s"
  hash := digest.1
  has _ _ := false
  describe _ := none
  byInterfaces _ _ := -1

/-- The node is in memory too. -/
def matchedStart : State :=
  ⟨matchedTables, some 0, some 0, { bareKernel with nodeStore := [weighted 3] },
    ⟨[], fun _ => true, fun _ => true, fun _ _ => true, []⟩⟩

def executed : Faults := ⟨true, true, true, none⟩

def matchedObject : DataObject :=
  { DataObject.new (lit "/s") digest.1 with id := digest }

def matchedQuery (f : Faults) : Query := .nodeQuery f (some matchedObject) 0 1

def asked (ops : List Operation) (f : Faults) : Outcome :=
  (answer queryEnvironment (matchedQuery f) (Trace.run (step queryEnvironment) matchedStart ops)).2

end Sample
end Haggle
