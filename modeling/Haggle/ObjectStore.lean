import Haggle.Relational
import Haggle.StoredObjectRead
import Haggle.Trace

/-!
# Insertion, deletion and events of the data store

The table of data objects changes by insertions, which first remove older node descriptions of the
same node, by deletions and by aging. Removals are reported in events. Each statement may fail: what
becomes of it is an input of the operation.
-/

namespace Haggle
namespace ObjectStore

open StoredObject

/-- The table, and the events that data objects were deleted, with their flags: the last comes
first. -/
structure Store where
  table : Sql.Table
  posted : List (List DataObject × Bool)

/-- How a statement ends that writes. Only `SQLITE_ERROR` is taken to be an error, but there are other
codes of statements that were not executed. -/
inductive Ended
  | done
  | error
  | other
deriving DecidableEq

/-- What the data store uses: the effect of text that is no insertion, the platform, the fields of a
new object, and the identifier of the node that a node description is of. -/
structure Environment where
  beyond : Bytes → List Sql.Value → Sql.Table → Option (List Sql.Row × Sql.Table)
  platform : Platform
  storagepath : Bytes
  hash : Bytes
  describe : DataObject → Option Bytes

def Store.post (s : Store) (dObjs : List DataObject) (keepInBloomfilter : Bool) : Store :=
  { s with posted := (dObjs, keepInBloomfilter) :: s.posted }

section Delete

/-- The statement of `_deleteDataObject`, and what the function returns. -/
def deleteRow (d : Ended) (id : Digest) (s : Store) : Store × Bool :=
  match d with
  | .done => ({ s with table := deleteRows s.table id }, true)
  | .error => (s, false)
  | .other => (s, true)

variable (env : Environment)

def read (fs : FileSystem) (r : Sql.Row) : Option DataObject :=
  createDataObject env.platform fs
    (DataObject.new env.storagepath env.hash env.platform.plainChar) r

/-- `getDataObjectFromRowId` of `getDataObjectRowId`. -/
def lookup (fs : FileSystem) (t : Sql.Table) (id : Digest) : Option DataObject :=
  (t.rows.find? (hasId id)).bind (read env fs)

/-- `_deleteDataObject` by an identifier: the removal is reported before it is tried. -/
def deleteDataObjectById (fs : FileSystem) (d : Ended) (id : Digest)
    (shouldReportRemoval keepInBloomfilter : Bool) (s : Store) : Store :=
  if shouldReportRemoval then
    match lookup env fs s.table id with
    | none => s
    | some o => (deleteRow d id (s.post [{ o with stored := false }] keepInBloomfilter)).1
  else (deleteRow d id s).1

/-- `_deleteDataObject` by a data object: the removal is reported unless it has failed. -/
def deleteDataObject (d : Ended) (o : DataObject)
    (shouldReportRemoval keepInBloomfilter : Bool) (s : Store) : Store :=
  let (s, ok) := deleteRow d o.id s
  if ok && shouldReportRemoval then s.post [o] keepInBloomfilter else s

def deleteAll (ds : Digest → Ended) (shouldReportRemoval : Bool) (os : List DataObject)
    (s : Store) : Store :=
  os.foldl (fun s o => deleteDataObject (ds o.id) o shouldReportRemoval false s) s

end Delete

section Insert

/-- An insertion: the data object, where it comes from, the files at that time, and what becomes of
the statements. -/
structure Insert where
  dObj : DataObject
  origin : Origin
  files : FileSystem
  selects : Bool
  deletes : Digest → Ended
  inserts : Ended
  linked : Bool

variable (env : Environment)

/-- The rows of the node descriptions of a node. -/
def descriptionRows (t : Sql.Table) (node_id : Bytes) : List Sql.Row :=
  t.rows.filter fun r => Sql.Row.value r (lit "node_id") = .text (cStr node_id)

/-- The loop over stored node descriptions: the newest so far, those to delete, and whether the new
one is still the newest. -/
structure Newest where
  newest : DataObject
  older : List DataObject
  isNew : Bool

def newestStep (dObj : DataObject) (n : Newest) (o : DataObject) : Newest :=
  if o.createTime < n.newest.createTime then { n with older := n.older ++ [o] }
  else if n.newest.id ≠ dObj.id then ⟨o, n.older ++ [n.newest], n.isNew⟩
  else ⟨o, n.older, false⟩

/-- `deleteDataObjectNodeDescriptions`: the identifier of the node if the description is the newest.
Rows of which no data object can be made are skipped. -/
def deleteDataObjectNodeDescriptions (x : Insert) (s : Store) : Store × Option Bytes :=
  match env.describe x.dObj with
  | none => (s, none)
  | some node_id =>
    if x.selects then
      let rows := Relational.orderByDesc (fun r => [some (columnInt r (lit "createtime"))])
        (descriptionRows s.table node_id)
      let n := (rows.filterMap (read env x.files)).foldl (newestStep x.dObj) ⟨x.dObj, [], true⟩
      (deleteAll x.deletes true n.older s, if n.isNew then some node_id else none)
    else (s, none)

/-- The row of a data object and its links. Without an error the function goes on, also if there is no
row. -/
def insertRow (x : Insert) (node_id : Bytes) (s : Store) : Store × Insertion :=
  match x.inserts with
  | .done =>
    let r := StoredObject.insertDataObject env.beyond env.platform s.table x.dObj
      { x.origin with nodeId := node_id } x.linked
    ({ s with table := r.2 }, r.1)
  | .error => (s, .failed)
  | .other =>
    let r := linkRow x.dObj x.linked s.table
    ({ s with table := r.2 }, r.1)

/-- `_insertDataObject`. -/
def insertDataObject (x : Insert) (s : Store) : Store × Insertion :=
  if x.dObj.isNodeDesc then
    match deleteDataObjectNodeDescriptions env x s with
    | (s, none) => (s, .failed)
    | (s, some node_id) => insertRow env x node_id s
  else insertRow env x (lit "-") s

end Insert

section Age

/-- `DATASTORE_MAX_DATAOBJECTS_AGED_AT_ONCE`. -/
def maxAgedAtOnce : ℕ := 3

/-- Aging: the rows that the statement selects, how many of them it returns before it ends with an
error, and what becomes of the deletions. -/
structure Age where
  files : FileSystem
  old : Sql.Row → Bool
  error : Option ℕ
  deletes : Digest → Ended
  keepInBloomfilter : Bool

variable (env : Environment)

/-- The data objects that are aged. The loop ends before the error if it has enough of them. -/
def agedObjects (x : Age) (t : Sql.Table) : Option (List DataObject) :=
  let rows := t.rows.filter x.old
  match x.error with
  | none => some ((rows.filterMap (read env x.files)).take maxAgedAtOnce)
  | some n =>
    let os := ((rows.take n).filterMap (read env x.files)).take maxAgedAtOnce
    if os.length = maxAgedAtOnce then some os else none

/-- `_ageDataObjects`: one event for all, whatever became of the deletions. -/
def ageDataObjects (x : Age) (s : Store) : Store :=
  match agedObjects env x s.table with
  | none => s
  | some os =>
    (deleteAll x.deletes false os s).post (os.map fun o => { o with stored := false })
      x.keepInBloomfilter

end Age

end ObjectStore
end Haggle
