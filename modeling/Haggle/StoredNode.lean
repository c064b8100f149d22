import Haggle.Node
import Haggle.StoredObject

/-!
# Nodes in the data store

A node is spread over four tables: the node itself, its attributes, which it shares with other
nodes, the links to them, which carry the weights, and its interfaces. A node that is read is taken
from the node store if it is there; the attributes and interfaces of the tables are added to it in
both cases.
-/

namespace Haggle

structure NodeTables where
  nodes : Sql.Table
  attributes : Sql.Table
  links : Sql.Table
  interfaces : Sql.Table

/-- What the data store uses of the rest of the kernel. -/
structure NodeKernel where
  nodeStore : List Node
  interfaceStore : List Interface
  deviceId : Digest
  now : Timeval
  memory : Memory

namespace StoredNode

open StoredObject (columnText columnBlob columnInt milliseconds)

/-- A loop that ends at the first step that fails. -/
def runAll {α σ : Type} (f : α → σ → σ × Bool) : List α → σ → σ × Bool
  | [], s => (s, true)
  | a :: l, s =>
    match f a s with
    | (s, false) => (s, false)
    | (s, true) => runAll f l s

section Write

def emptyTables : NodeTables where
  nodes := ⟨lit "table_nodes", [lit "rowid", lit "type", lit "id", lit "id_str", lit "name",
    lit "bloomfilter", lit "nodedescription_createtime", lit "num_attributes", lit "sum_weights",
    lit "resolution_max_matching_dataobjects", lit "resolution_threshold", lit "timestamp"], [], 1⟩
  attributes := ⟨lit "table_attributes", [lit "rowid", lit "name", lit "value"], [], 1⟩
  links := ⟨lit "table_map_nodes_to_attributes_via_rowid", [lit "rowid", lit "node_rowid",
    lit "attr_rowid", lit "weight", lit "timestamp"], [], 1⟩
  interfaces := ⟨lit "table_interfaces", [lit "rowid", lit "type", lit "mac", lit "mac_str",
    lit "node_rowid", lit "timestamp"], [], 1⟩

def nodeTypeNumber : NodeType → ℕ
  | .undefined => 0
  | .localDevice => 1
  | .application => 2
  | .peer => 3
  | .gateway => 4

def interfaceTypeNumber : InterfaceType → ℕ
  | .undefined => 0
  | .applicationPort => 1
  | .applicationLocal => 2
  | .ethernet => 3
  | .wifi => 4
  | .bluetooth => 5
  | .media => 6

/-- All statements are printed into one buffer, which cuts them. -/
def sqlcmd (text : Bytes) : Bytes := text.take 7999

def idStr (n : Node) : Bytes := n.id.1.flatMap Interface.hexByte

def insertNodeHead : Bytes :=
  lit "INSERT INTO table_nodes (type,id,id_str,name,bloomfilter,nodedescription_createtime," ++
    lit "resolution_max_matching_dataobjects,resolution_threshold) VALUES ("

def insertNodeValues (n : Node) : List Sql.Operand :=
  [.numeral (decimal (nodeTypeNumber n.type)), .parameter 0, .string (cStr (idStr n)),
    .string (cStr n.name), .parameter 1, printed (milliseconds n.nodeDescriptionCreateTime),
    .numeral (decimal n.maxDataObjectsInMatch), .numeral (decimal n.matchThreshold)]

def insertAttrHead : Bytes := lit "INSERT INTO table_attributes (name,value) VALUES("

def insertAttrValues (a : Attribute) : List Sql.Operand :=
  [.string (cStr a.name), .string (cStr a.value)]

/-- A number of type `unsigned long`, taken to be one of type `sqlite_int64`. -/
def signed (n : ℕ) : ℤ := (BitVec.ofNat 64 n).toInt

def insertNodeAttrHead : Bytes :=
  lit "INSERT INTO table_map_nodes_to_attributes_via_rowid (node_rowid,attr_rowid,weight) VALUES ("

def insertNodeAttrValues (node_rowid attr_rowid : ℤ) (weight : ℕ) : List Sql.Operand :=
  [printed node_rowid, printed attr_rowid, printed (signed weight)]

def insertIfaceHead : Bytes :=
  lit "INSERT INTO table_interfaces (type,mac,mac_str,node_rowid) VALUES("

def insertIfaceValues (node_rowid : ℤ) (i : Interface) : List Sql.Operand :=
  [.numeral (decimal (interfaceTypeNumber i.type)), .parameter 0, .string (cStr i.identifierStr),
    printed node_rowid]

def insertCmd (head : Bytes) (values : List Sql.Operand) : Bytes :=
  sqlcmd (head ++ (Sql.operandsText values ++ lit ");"))

/-- `SQL_FIND_ATTR_CMD`; of the row that it finds only the number is used. -/
def findAttrCmd (a : Attribute) : Bytes :=
  sqlcmd (lit "SELECT * FROM table_attributes WHERE (name='" ++ (cStr a.name ++
    (lit "' AND value='" ++ (cStr a.value ++ lit "');"))))

/-- What `sqlite3_step` says to an insertion. -/
inductive Inserted
  | error
  | constraint
  | row (rowid : ℤ) (t : Sql.Table)

section Insert

variable (beyond : Bytes → List Sql.Value → Sql.Table → Option (List Sql.Row × Sql.Table))

/-- An insertion into a table whose rows differ in the columns `unique`. -/
def insertUnique (unique : List Bytes) (text : Bytes) (bound : List Sql.Value) (t : Sql.Table) :
    Inserted :=
  match Sql.run beyond text bound t with
  | none => .error
  | some (_, t') =>
    if (t'.rows.drop t.rows.length).any fun r =>
        t.rows.any fun x => unique.all fun c => Sql.Row.value x c = Sql.Row.value r c then
      .constraint
    else .row (t'.rowid - 1) t'

def getAttributeRowId (db : NodeTables) (a : Attribute) : ℤ :=
  match Sql.run beyond (findAttrCmd a) [] db.attributes with
  | some (r :: _, _) => columnInt r (lit "rowid")
  | _ => -1

def insertLink (node_rowid attr_rowid : ℤ) (weight : ℕ) (db : NodeTables) : NodeTables × Bool :=
  match insertUnique beyond [lit "node_rowid", lit "attr_rowid"]
    (insertCmd insertNodeAttrHead (insertNodeAttrValues node_rowid attr_rowid weight)) []
    db.links with
  | .error => (db, false)
  | .constraint => (db, true)
  | .row _ t => ({ db with links := t }, true)

def insertAttribute (node_rowid : ℤ) (a : Attribute) (db : NodeTables) : NodeTables × Bool :=
  match insertUnique beyond [lit "name", lit "value"]
    (insertCmd insertAttrHead (insertAttrValues a)) [] db.attributes with
  | .error => (db, false)
  | .constraint => insertLink beyond node_rowid (getAttributeRowId beyond db a) a.weight db
  | .row rowid t => insertLink beyond node_rowid rowid a.weight { db with attributes := t }

/-- An interface that is in the table already is not inserted. -/
def insertInterface (node_rowid : ℤ) (i : Interface) (db : NodeTables) : NodeTables × Bool :=
  match insertUnique beyond [lit "type", lit "mac"]
    (insertCmd insertIfaceHead (insertIfaceValues node_rowid i)) [.blob i.identifier]
    db.interfaces with
  | .error => (db, false)
  | .constraint => (db, true)
  | .row _ t => ({ db with interfaces := t }, true)

def insertParts (node_rowid : ℤ) (n : Node) (db : NodeTables) : NodeTables × Bool :=
  match runAll (insertAttribute beyond node_rowid) (n.attrs.toList.map Prod.snd) db with
  | (db, false) => (db, false)
  | (db, true) => runAll (insertInterface beyond node_rowid) n.interfaces db

def insertNodeRow (n : Node) (db : NodeTables) : Inserted :=
  insertUnique beyond [lit "id"] (insertCmd insertNodeHead (insertNodeValues n))
    [.blob n.id.1, .blob n.bloomfilter.raw] db.nodes

def hasNodeId (id : Digest) (r : Sql.Row) : Bool := Sql.Row.value r (lit "id") = .blob id.1

def ofNode (node_rowid : ℤ) (r : Sql.Row) : Bool := columnInt r (lit "node_rowid") = node_rowid

/-- `_deleteNode`, with the trigger that removes what belongs to the node. -/
def deleteNode (id : Digest) (db : NodeTables) : NodeTables :=
  let rowids := (db.nodes.rows.filter (hasNodeId id)).map (columnInt · (lit "rowid"))
  { db with
    nodes := { db.nodes with rows := db.nodes.rows.filter fun r => !hasNodeId id r }
    links := { db.links with
      rows := db.links.rows.filter fun r => !rowids.any (ofNode · r) }
    interfaces := { db.interfaces with
      rows := db.interfaces.rows.filter fun r => !rowids.any (ofNode · r) } }

end Insert

end Write

section Read

def nodeTypeOf : ℤ → Option NodeType
  | 0 => some .undefined
  | 1 => some .localDevice
  | 2 => some .application
  | 3 => some .peer
  | 4 => some .gateway
  | _ => none

def interfaceTypeOf : ℤ → InterfaceType
  | 1 => .applicationPort
  | 2 => .applicationLocal
  | 3 => .ethernet
  | 4 => .wifi
  | 5 => .bluetooth
  | 6 => .media
  | _ => .undefined

/-- `sqlite3_column_int`. -/
def int32 (z : ℤ) : BitVec 32 := BitVec.ofInt 32 z

/-- A number of type `int`, taken to be one of type `unsigned long`. -/
def unsigned (z : BitVec 32) : ℕ := (z.signExtend 64).toNat

def storedTime (ms : ℤ) : Timeval :=
  if ms = 0 then ⟨-1, 0⟩ else StoredObject.ofMilliseconds ms

theorem length_digestOf (b : Bytes) : ((b ++ List.replicate 20 0).take 20).length = 20 := by
  simp

def digestOf (b : Bytes) : Digest := ⟨(b ++ List.replicate 20 0).take 20, length_digestOf b⟩

variable (k : NodeKernel) (db : NodeTables)

/-- `Node::create_with_id`: the node of the device takes the identifier of the device. -/
def restoreNode (r : Sql.Row) : Option Node :=
  match nodeTypeOf (int32 (columnInt r (lit "type"))).toInt with
  | none => none
  | some type =>
    let raw := columnText r (lit "bloomfilter")
    if raw = [] then none
    else some {
      type := type
      id := match type with
        | .localDevice => k.deviceId
        | .undefined => digestOf []
        | _ => digestOf (columnText r (lit "id"))
      name := columnText r (lit "name")
      attrs := HashMap.empty
      interfaces := []
      nodeDescriptionCreateTime :=
        storedTime (columnInt r (lit "nodedescription_createtime"))
      maxDataObjectsInMatch :=
        (int32 (columnInt r (lit "resolution_max_matching_dataobjects"))).toNat
      matchThreshold := (int32 (columnInt r (lit "resolution_threshold"))).toNat
      bloomfilter := ⟨type = .application, raw⟩ }

/-- `getAttrFromRowId`. -/
def getAttrFromRowId (attr_rowid node_rowid : ℤ) : Option Attribute :=
  let attrs := db.attributes.rows.filter fun a => columnInt a (lit "rowid") = attr_rowid
  let weights := db.links.rows.filter fun w =>
    ofNode node_rowid w && columnInt w (lit "attr_rowid") = attr_rowid
  match attrs, weights with
  | a :: _, w :: _ => some ⟨columnText a (lit "name"), columnText a (lit "value"),
      unsigned (int32 (columnInt w (lit "weight")))⟩
  | _, _ => none

def addStoredAttribute (node_rowid : ℤ) (r : Sql.Row) (n : Node) : Node × Bool :=
  match getAttrFromRowId db (columnInt r (lit "attr_rowid")) node_rowid with
  | none => (n, false)
  | some a => (n.addAttribute k.now a, true)

/-- An interface is taken from the interface store if it is there. -/
def storedInterface (r : Sql.Row) : Option Interface :=
  let type := interfaceTypeOf (int32 (columnInt r (lit "type"))).toInt
  let identifier := columnText r (lit "mac")
  match k.interfaceStore.find? (·.equal type identifier) with
  | some i => some i
  | none => Interface.create k.memory type identifier

def addStoredInterface (r : Sql.Row) (n : Node) : Node × Bool :=
  match storedInterface k r with
  | none => (n, false)
  | some i => (n.addInterface k.now i, true)

/-- The attributes and interfaces of the tables are added, to a new node or to one of the node
store. -/
def fillNode (node_rowid : ℤ) (n : Node) : Node × Bool :=
  match runAll (addStoredAttribute k db node_rowid) (db.links.rows.filter (ofNode node_rowid)) n with
  | (n, false) => (n, false)
  | (n, true) => runAll (addStoredInterface k) (db.interfaces.rows.filter (ofNode node_rowid)) n

/-- The node store behind a change of the node that it finds first. -/
def putNode (m : Node) : List Node → List Node
  | [] => []
  | n :: l => if n.id = m.id then m :: l else n :: putNode m l

/-- `createNode`: the node, and the node store. -/
def createNode (r : Sql.Row) : Option Node × List Node :=
  let rowid := columnInt r (lit "rowid")
  match k.nodeStore.find? (·.id = digestOf (columnText r (lit "id"))) with
  | some m =>
    let (m, ok) := fillNode k db rowid m
    (if ok then some m else none, putNode m k.nodeStore)
  | none =>
    match restoreNode k r with
    | none => (none, k.nodeStore)
    | some n =>
      let (n, ok) := fillNode k db rowid n
      (if ok then some n else none, k.nodeStore)

/-- `getNodeRowId` and `getNodeFromRowId`. -/
def getNode (id : Digest) : Option Node × List Node :=
  match db.nodes.rows.find? (hasNodeId id) with
  | none => (none, k.nodeStore)
  | some r => createNode k db r

/-- `_retrieveNode`: with `forceCallback` the interfaces of the node that is asked for are added. -/
def retrieveNode (ref : Node) (forceCallback : Bool) : Option Node × List Node :=
  match getNode k db ref.id with
  | (none, ns) => (none, ns)
  | (some n, ns) =>
    if forceCallback then
      let n' := ref.interfaces.foldl (Node.addInterface k.now) n
      (some n', if ns.any (·.id = ref.id) then putNode n' ns else ns)
    else (some n, ns)

end Read

section Insert

/-- An insertion: the tables, whether it succeeded, the node that was inserted, and the node store. -/
structure Insertion where
  tables : NodeTables
  ok : Bool
  node : Node
  nodeStore : List Node

variable (beyond : Bytes → List Sql.Value → Sql.Table → Option (List Sql.Row × Sql.Table))
  (merge : NodeFilter → NodeFilter → NodeFilter) (k : NodeKernel)

/-- The filter of the node that is replaced is merged into the new one. -/
def mergeNode (mergeBloomfilter : Bool) (n : Node) (db : NodeTables) : Node × List Node :=
  if mergeBloomfilter then
    match getNode k db n.id with
    | (some e, ns) => ({ n with bloomfilter := merge n.bloomfilter e.bloomfilter }, ns)
    | (none, ns) => (n, ns)
  else (n, k.nodeStore)

/-- `_insertNode`: a node that is there already is replaced. -/
def insertNode (mergeBloomfilter : Bool) (n : Node) (db : NodeTables) : Insertion :=
  if n.type = .undefined then ⟨db, false, n, k.nodeStore⟩
  else
    match insertNodeRow beyond n db with
    | .error => ⟨db, false, n, k.nodeStore⟩
    | .row rowid t =>
      let r := insertParts beyond rowid n { db with nodes := t }
      ⟨r.1, r.2, n, k.nodeStore⟩
    | .constraint =>
      let (n, ns) := mergeNode merge k mergeBloomfilter n db
      let db := deleteNode n.id db
      match insertNodeRow beyond n db with
      | .row rowid t =>
        let r := insertParts beyond rowid n { db with nodes := t }
        ⟨r.1, r.2, n, ns⟩
      | _ => ⟨db, false, n, ns⟩

end Insert

end StoredNode
end Haggle
