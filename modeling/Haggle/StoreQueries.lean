import Haggle.FilterMatching
import Haggle.StoredNode

/-!
# Queries of the data store

The views for matching read the link tables through two dynamic views, which a query replaces before
it reads them: the view is dropped and created anew, limited to the node or the data object of the
query or to nothing. The result of both statements is ignored, and so is a view that is left from an
earlier operation. Nodes and data objects are then made of the rows that match.
-/

namespace Haggle

/-- `operator==` of nodes: nodes of no type are compared by their interfaces. -/
def Node.same (n m : Node) : Bool :=
  if n.type = .undefined ∨ m.type = .undefined then
    n.interfaces.any fun i => m.interfaces.any i.same
  else n.id = m.id

namespace StoreQueries

open Matching Relational
open StoredObject (columnText columnInt hasId)
open StoredNode (hasNodeId int32 signed)

section Tables

/-- The tables that queries read. Rows are numbered from one on. -/
structure Database where
  nodes : NodeTables
  dataobjects : Sql.Table
  dataobjectAttributes : List DataobjectAttribute
  filters : List FilterRow
  filterAttributes : List FilterAttribute
  nodes_pos : ∀ r ∈ nodes.nodes.rows, 0 < columnInt r (lit "rowid")
  dataobjects_pos : ∀ r ∈ dataobjects.rows, 0 < columnInt r (lit "rowid")

namespace Database

variable (db : Database)

/-- What matching reads of the tables of nodes and data objects. -/
def tables : Tables where
  nodes := db.nodes.nodes.rows.map fun r => ⟨columnInt r (lit "rowid"),
    Int64.ofInt (columnInt r (lit "sum_weights")),
    Int64.ofInt (columnInt r (lit "resolution_threshold"))⟩
  dataobjects := db.dataobjects.rows.map (columnInt · (lit "rowid"))
  nodeAttributes := db.nodes.links.rows.map fun r => ⟨columnInt r (lit "node_rowid"),
    columnInt r (lit "attr_rowid"), Int64.ofInt (columnInt r (lit "weight"))⟩
  dataobjectAttributes := db.dataobjectAttributes
  nodes_pos := by
    rw [List.forall_mem_map]
    exact db.nodes_pos
  dataobjects_pos := by
    rw [List.forall_mem_map]
    exact db.dataobjects_pos

def attributes : List AttributeRow :=
  db.nodes.attributes.rows.map fun r =>
    ⟨columnInt r (lit "rowid"), columnText r (lit "name"), columnText r (lit "value")⟩

/-- `getDataObjectRowId`. -/
def getDataObjectRowId (id : Digest) : ℤ :=
  match db.dataobjects.rows.find? (hasId id) with
  | some r => columnInt r (lit "rowid")
  | none => -1

def dataobjectRow (rowid : ℤ) : Option Sql.Row :=
  db.dataobjects.rows.find? fun r => columnInt r (lit "rowid") = rowid

/-- The column `timestamp` of a data object, in the left join of the view. -/
def timestamp (rowid : ℤ) : Option ℤ :=
  (db.dataobjectRow rowid).bind fun r =>
    match Sql.Row.value r (lit "timestamp") with
    | .int i => some i
    | _ => none

end Database

end Tables

section Views

/-- A dynamic view: missing, or limited to a row, where 0 stands for no limit. -/
abbrev View := Option ℤ

/-- What becomes of the statements of an operation. The query itself may not compile, or may end
with an error behind a number of rows. -/
structure Faults where
  drop : Bool
  create : Bool
  compile : Bool
  error : Option ℕ

/-- All statements are executed. -/
def Faults.executed : Faults := ⟨true, true, true, none⟩

def dropView (f : Faults) (v : View) : View := if f.drop then none else v

/-- A view that is still there keeps its limit. -/
def createView (f : Faults) (limit : ℤ) : View → View
  | some l => some l
  | none => if f.create then some limit else none

/-- `setViewLimitedDataobjectAttributes` and `setViewLimitedNodeAttributes`. -/
def setView (f : Faults) (limit : ℤ) (v : View) : View := createView f limit (dropView f v)

/-- A query through a view: its rows and whether it was completed. There is nothing if it does not
compile, as without the view. -/
def select {α : Type} (f : Faults) (v : View) (query : ℤ → Option (List α)) :
    Option (List α × Bool) :=
  match v with
  | none => none
  | some limit =>
    if f.compile then
      match query limit, f.error with
      | none, _ => some ([], false)
      | some rows, none => some (rows, true)
      | some rows, some n => some (rows.take n, false)
    else none

end Views

section Queries

/-- What queries use besides the tables: the order in which SQLite goes through rows, the filters of
nodes, and the nodes of node descriptions. `byInterfaces` finds a node by interfaces whose names
have apostrophes. -/
structure Environment where
  plan : Plan
  filterPlan : FilterPlan
  platform : Platform
  storagepath : Bytes
  hash : Bytes
  has : NodeFilter → Digest → Bool
  describe : DataObject → Option Node
  byInterfaces : Sql.Table → List Interface → ℤ

structure State where
  db : Database
  dataobjectView : View
  nodeView : View
  kernel : NodeKernel
  files : FileSystem

inductive Posted
  | filter (event : ℤ) (dObjs : List DataObject)
  | result (nodes : List Node) (dObjs : List DataObject)

structure Outcome where
  returned : ℤ
  posted : List Posted

/-- A loop over rows that ends when it has found enough: what it has found, and whether that was
enough. -/
def gather {ρ α : Type} (enough : ℕ → Bool) (accept : ρ → Option α) :
    ℕ → List ρ → List α × Bool
  | _, [] => ([], false)
  | n, r :: rs =>
    match accept r with
    | none => gather enough accept n rs
    | some a =>
      if enough (n + 1) then ([a], true)
      else
        let (l, b) := gather enough accept (n + 1) rs
        (a :: l, b)

variable (env : Environment)

/-- `getDataObjectFromRowId`. -/
def getDataObjectFromRowId (db : Database) (fs : FileSystem) (rowid : ℤ) : Option DataObject :=
  (db.dataobjectRow rowid).bind
    (StoredObject.createDataObject env.platform fs
      (DataObject.new env.storagepath env.hash env.platform.plainChar))

/-- `getNodeFromRowId`. -/
def getNodeFromRowId (db : Database) (k : NodeKernel) (rowid : ℤ) : Option Node × List Node :=
  match db.nodes.nodes.rows.find? fun r => columnInt r (lit "rowid") = rowid with
  | none => (none, k.nodeStore)
  | some r => StoredNode.createNode k db.nodes r

/-- `getNodeRowId`: a node of no type is found by one of its interfaces. -/
def getNodeRowId (db : Database) (n : Node) : ℤ :=
  if n.type ≠ .undefined then
    match db.nodes.nodes.rows.find? (hasNodeId n.id) with
    | some r => columnInt r (lit "rowid")
    | none => -1
  else if n.interfaces.any fun i => 39 ∈ cStr i.identifierStr then
    env.byInterfaces db.nodes.interfaces n.interfaces
  else
    match db.nodes.interfaces.rows.find? fun r => n.interfaces = [] || n.interfaces.any fun i =>
        columnInt r (lit "type") = StoredNode.interfaceTypeNumber i.type &&
          columnText r (lit "mac_str") = cStr i.identifierStr with
    | some r => columnInt r (lit "node_rowid")
    | none => -1

def filterRows (db : Database) (limit : ℤ) : List FilterMatch :=
  (matchFiltersAndDataobjectsAsRatio env.filterPlan
    (limitedDataobjects limit db.dataobjectAttributes) db.attributes db.filterAttributes
    db.filters).filter fun m => m.ratio.any (0 < ·)

def evaluateFilters (f : Faults) (dObj : DataObject) (dataobject_rowid : ℤ) (s : State) :
    State × Outcome :=
  let rowid := if dataobject_rowid = 0 then s.db.getDataObjectRowId dObj.id else dataobject_rowid
  if rowid < 0 then (s, ⟨-1, []⟩)
  else
    let s := { s with dataobjectView := setView f rowid s.dataobjectView }
    match select f s.dataobjectView fun limit => some (filterRows env s.db limit) with
    | none => (s, ⟨-1, []⟩)
    | some (rows, done) =>
      (s, ⟨if done then rows.length else -1, rows.map fun m =>
        .filter (int32 ((m.filter.map FilterRow.event).getD 0)).toInt [dObj]⟩)

/-- At most ten data objects are reported. -/
def evaluateDataObjects (f : Faults) (eventType : ℤ) (s : State) : State × Outcome :=
  let s := { s with dataobjectView := setView f 0 s.dataobjectView }
  match select f s.dataobjectView fun limit => some ((filterRows env s.db limit).filter fun m =>
      m.filter.any fun r => r.event = eventType) with
  | none => (s, ⟨-1, []⟩)
  | some (rows, done) =>
    let (dObjs, enough) := gather (· = 10)
      (fun m => getDataObjectFromRowId env s.db s.files m.dataobject_rowid) 0 rows
    if enough || done then
      (s, ⟨dObjs.length, if dObjs = [] then [] else [.filter eventType dObjs]⟩)
    else (s, ⟨-1, []⟩)

/-- The rows of the query for a node, in the order of the view. -/
def dataObjectRows (db : Database) (threshold attrMatch : ℕ) (limit : ℤ) :
    Option (List MatchRow) :=
  (dataObjectQuery db.tables env.plan limit (Int64.ofNat threshold) attrMatch).map
    (orderByDesc fun r => [(ratio db.tables r.node_rowid r.weight).map Int64.toInt,
      some (r.mcount : ℤ), db.timestamp r.dataobject_rowid])

/-- A data object that neither the node nor the delegate has, and that describes neither. -/
def candidate (node : Node) (delegate : Option Node) (o : DataObject) : Bool :=
  !env.has node.bloomfilter o.id && !(delegate.any fun d => env.has d.bloomfilter o.id) &&
    !(o.isNodeDesc && (env.describe o).any fun m => m.same node || delegate.any (·.same m))

/-- `_doDataObjectQueryStep2`: the data objects that it adds to the result. -/
def doDataObjectQueryStep2 (f : Faults) (node : Node) (delegate : Option Node) (max_matches : ℤ)
    (threshold attrMatch : ℕ) (s : State) : State × List DataObject :=
  let rowid := getNodeRowId env s.db node
  if rowid = -1 then (s, [])
  else
    let s := { s with nodeView := setView f rowid s.nodeView }
    match select f s.nodeView (dataObjectRows env s.db threshold attrMatch) with
    | none => (s, [])
    | some (rows, _) =>
      (s, (gather (fun n => max_matches ≠ 0 && max_matches ≤ n) (fun r =>
        (getDataObjectFromRowId env s.db s.files r.dataobject_rowid).filter
          (candidate env node delegate)) 0 rows).1)

def doDataObjectQuery (f : Faults) (node : Node) (attrMatch : ℕ) (s : State) : State × Outcome :=
  let (s, dObjs) := doDataObjectQueryStep2 env f node none
    (int32 node.maxDataObjectsInMatch).toInt (node.matchThreshold % 2 ^ 32) attrMatch s
  (s, ⟨dObjs.length, if dObjs = [] then [] else [.result [node] dObjs]⟩)

/-- The loop over the nodes of a query for several: all data objects, and how many the last node
has. -/
def forNodesLoop (delegate : Node) (threshold attrMatch : ℕ) (has_maximum : Bool) :
    List (Node × Faults) → ℤ → List DataObject → ℕ → State → State × List DataObject × ℕ
  | [], _, dObjs, num_match, s => (s, dObjs, num_match)
  | (node, f) :: nodes, num_left, dObjs, num_match, s =>
    if has_maximum ∧ num_left ≤ 0 then (s, dObjs, num_match)
    else
      let (s, found) := doDataObjectQueryStep2 env f node (some delegate) (int32 num_left).toInt
        threshold attrMatch s
      forNodesLoop delegate threshold attrMatch has_maximum nodes
        (if has_maximum then num_left - found.length else num_left) (dObjs ++ found)
        found.length s

/-- The result is reported if the last node that was looked at has a match. -/
def doDataObjectForNodesQuery (node : Node) (nodes : List (Node × Faults)) (attrMatch : ℕ)
    (s : State) : State × Outcome :=
  let num_left := signed node.maxDataObjectsInMatch
  let (s, dObjs, num_match) := forNodesLoop env node (node.matchThreshold % 2 ^ 32) attrMatch
    (0 < num_left) nodes num_left [] 0 s
  (s, ⟨num_match, if num_match = 0 then [] else [.result [node] dObjs]⟩)

def nodeRows (db : Database) (maxResp attrMatch : ℕ) (limit : ℤ) : Option (List MatchRow) :=
  (nodeQuery db.tables env.plan limit attrMatch).map fun rows =>
    let rows := orderByDesc (fun r => [(ratio db.tables r.node_rowid r.weight).map Int64.toInt,
      some (r.mcount : ℤ)]) rows
    if 0 < maxResp then rows.take maxResp else rows

/-- Only peers and gateways are targets. -/
def isTarget (n : Node) : Bool := n.type = .peer || n.type = .gateway

def nodeLoop (db : Database) : List MatchRow → NodeKernel → List Node × NodeKernel
  | [], k => ([], k)
  | r :: rows, k =>
    let (n, ns) := getNodeFromRowId db k r.node_rowid
    let (l, k) := nodeLoop db rows { k with nodeStore := ns }
    ((n.filter isTarget).toList ++ l, k)

def doNodeQuery (f : Faults) (dObj : DataObject) (maxResp attrMatch : ℕ) (s : State) :
    State × Outcome :=
  let s := { s with
    dataobjectView := setView f (s.db.getDataObjectRowId dObj.id) s.dataobjectView }
  match select f s.dataobjectView (nodeRows env s.db maxResp attrMatch) with
  | none => (s, ⟨-1, []⟩)
  | some (rows, done) =>
    let (nodes, k) := nodeLoop s.db rows s.kernel
    let s := { s with kernel := k }
    if done then (s, ⟨nodes.length, if nodes = [] then [] else [.result nodes [dObj]]⟩)
    else (s, ⟨-1, []⟩)

end Queries

end StoreQueries
end Haggle
