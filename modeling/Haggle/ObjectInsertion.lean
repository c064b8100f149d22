import Haggle.DeletionEvents
import Haggle.FilterMatching
import Haggle.Matching

/-!
# The insertion of a data object

`_insertDataObject` locks the object and issues its statements one by one: the deletion of older
node descriptions, the row, and for each attribute a row and a link. There is no transaction, so
what was written before an error stays. A row in conflict with an object that is not persistent is
deleted, and then the function calls itself without unlocking.
-/

namespace Haggle
namespace ObjectInsertion

open Matching (AttributeRow DataobjectAttribute)
open ObjectStore
open StoredObject (Origin columnInt hasId deleteRows)

section Model

/-- The tables of data objects, of attributes and of the links between them. -/
structure Db where
  store : Store
  attributes : List AttributeRow
  lastAttribute : ℤ
  links : List DataobjectAttribute

/-- What becomes of the statements for an attribute: its row, the search for a row that is there
already, and the link. -/
structure Part where
  row : Bool
  finds : Bool
  link : Bool

/-- What becomes of the statements of one call. `columns` is what the statement for the row writes;
there is nothing if it cannot be made, compiled or executed. -/
structure Call where
  origin : Origin
  files : FileSystem
  selects : Bool
  deletes : Digest → Ended
  columns : Option Sql.Row
  parts : ℕ → Part
  removes : Bool

/-- The tables, and what the function changes of the data object. -/
structure State where
  db : Db
  stored : Bool
  duplicate : Bool
  locks : ℤ

/-- The state behind a call, what it returns, and the row and the tables for which it evaluates the
filters. Nothing is returned as long as the function calls itself. -/
structure Returned where
  state : State
  value : Option ℤ
  evaluated : Option (ℤ × Db)

/-- The trigger on data objects: the links of the rows that are gone. -/
def prune (before after : Sql.Table) (links : List DataobjectAttribute) :
    List DataobjectAttribute :=
  links.filter fun l => !(before.rows.any fun r =>
    decide (r ∉ after.rows) && columnInt r (lit "rowid") = l.dataobject_rowid)

def Db.withStore (db : Db) (s : Store) : Db :=
  { db with store := s, links := prune db.store.table s.table db.links }

def Db.delete (db : Db) (done : Bool) (id : Digest) : Db :=
  if done then db.withStore { db.store with table := deleteRows db.store.table id } else db

section Links

/-- The name and the value in the statements for an attribute. -/
def text (a : Attribute) : Bytes × Bytes := (cStr a.name, cStr a.value)

def names (a : Attribute) (r : AttributeRow) : Bool := (r.name, r.value) = text a

/-- The row of an attribute, and the number that the code takes for it. -/
def insertAttribute (a : Attribute) (p : Part) (db : Db) : Option (Db × ℤ) :=
  if p.row then
    match db.attributes.find? (names a) with
    | some r => some (db, if p.finds then r.rowid else -1)
    | none => some ({ db with
        attributes := db.attributes ++ [⟨db.lastAttribute + 1, (text a).1, (text a).2⟩]
        lastAttribute := db.lastAttribute + 1 }, db.lastAttribute + 1)
  else none

/-- A link that is there already is no error. -/
def insertLink (l : DataobjectAttribute) (p : Part) (db : Db) : Option Db :=
  if p.link then some (if l ∈ db.links then db else { db with links := db.links ++ [l] })
  else none

/-- The loop over the attributes. -/
def linkAll (dataobject_rowid : ℤ) : List (Attribute × Part) → Db → Db × Bool
  | [], db => (db, true)
  | (a, p) :: l, db =>
    match insertAttribute a p db with
    | none => (db, false)
    | some (db, attr_rowid) =>
      match insertLink ⟨dataobject_rowid, attr_rowid⟩ p db with
      | none => (db, false)
      | some db => linkAll dataobject_rowid l db

end Links

variable (env : Environment) (o : DataObject)

/-- What the check of node descriptions knows of the call. -/
def Call.insert (c : Call) : Insert where
  dObj := o
  origin := c.origin
  files := c.files
  selects := c.selects
  deletes := c.deletes
  inserts := .done
  linked := true

/-- The older descriptions of the node are deleted; nothing is returned if the object is not to be
inserted. -/
def describe (c : Call) (db : Db) : Db × Option Bytes :=
  if o.isNodeDesc then
    let r := deleteDataObjectNodeDescriptions env (c.insert o) db.store
    (db.withStore r.1, r.2)
  else (db, some (lit "-"))

def insertRow (columns : Sql.Row) (db : Db) : Db :=
  { db with store := { db.store with table := { db.store.table with
      rows := db.store.table.rows ++
        [(lit "rowid", .int db.store.table.rowid) :: columns]
      rowid := db.store.table.rowid + 1 } } }

/-- The attributes in their order, each with what becomes of it. -/
def attempts (parts : ℕ → Part) : List (Attribute × Part) :=
  (o.attrs.toList.map Prod.snd).zipIdx.map fun (a, i) => (a, parts i)

def State.leave (s : State) (db : Db) : State := { s with db := db, locks := s.locks - 1 }

/-- The attributes behind a row. An object that is not persistent is removed again when the filters
were evaluated. -/
def finish (c : Call) (columns : Sql.Row) (s : State) : Returned :=
  let rowid : ℤ := s.db.store.table.rowid
  match linkAll rowid (attempts o c.parts) (insertRow columns s.db) with
  | (db, false) => ⟨{ s with stored := true }.leave db, some (-1), none⟩
  | (db, true) =>
    ⟨{ s with stored := true }.leave (if o.persistent then db else db.delete c.removes o.id),
      some 0, some (rowid, db)⟩

/-- `_insertDataObject`. -/
def insertDataObject : List Call → State → Returned
  | [], s => ⟨s, none, none⟩
  | c :: calls, s =>
    let s := { s with locks := s.locks + 1 }
    match describe env o c s.db with
    | (db, none) => ⟨s.leave db, some (-1), none⟩
    | (db, some _) =>
      match c.columns with
      | none => ⟨s.leave db, some (-1), none⟩
      | some columns =>
        if db.store.table.rows.any (hasId o.id) then
          if o.persistent then
            ⟨{ s with stored := true, duplicate := true }.leave db, some 0, none⟩
          else insertDataObject calls { s with db := db.delete c.removes o.id }
        else finish o c columns { s with db := db }

/-- There is a link from the row of the object to a row of the attribute. -/
def Linked (dataobject_rowid : ℤ) (db : Db) (a : Attribute) : Prop :=
  ∃ r ∈ db.attributes, names a r = true ∧ ⟨dataobject_rowid, r.rowid⟩ ∈ db.links

end Model

section Condition

variable (env : Environment) (o : DataObject) (c : Call) (db : Db)

/-- The stored descriptions of a node that can be read, in the order in which they are read. -/
def described (node_id : Bytes) : List DataObject :=
  (Relational.orderByDesc (fun r => [some (columnInt r (lit "createtime"))])
    (descriptionRows db.store.table node_id)).filterMap (read env c.files)

/-- A stored description is outdated if the new one or one that is read before is newer, or if it is
another than the new one and one that is read behind it is not older. -/
def Outdated (l : List DataObject) (d : DataObject) : Prop :=
  ∃ l₁ l₂, l = l₁ ++ d :: l₂ ∧ (d.createTime < o.createTime ∨
    (∃ e ∈ l₁, d.createTime < e.createTime) ∨
      d.id ≠ o.id ∧ ∃ e ∈ l₂, d.createTime ≤ e.createTime)

/-- An outdated description has a row, and it is deleted. -/
def Removes : Prop :=
  o.isNodeDesc = true ∧ c.selects = true ∧ ∃ node_id, env.describe o = some node_id ∧
    ∃ d, Outdated o (described env c db node_id) d ∧ c.deletes d.id = .done ∧
      ∃ r ∈ db.store.table.rows, hasId d.id r = true

/-- The object is no node description, or all stored ones of its node are older. -/
def Accepted : Prop :=
  o.isNodeDesc = true → c.selects = true ∧ ∃ node_id, env.describe o = some node_id ∧
    ∀ d ∈ described env c db node_id, d.createTime < o.createTime

/-- The object has a row, and not that of an older description that is deleted. -/
def Stored : Prop :=
  (∃ r ∈ db.store.table.rows, hasId o.id r = true) ∧
    ¬(o.isNodeDesc = true ∧ c.deletes o.id = .done ∧ ∃ node_id, env.describe o = some node_id ∧
      ∃ d ∈ described env c db node_id, d.id = o.id)

/-- All statements for the attributes are executed, and the row of an attribute that is there
already is found. -/
def Links : Prop :=
  ∀ e ∈ attempts o c.parts, e.2.row = true ∧ e.2.link = true ∧
    ((∃ r ∈ db.attributes, names e.1 r = true) →
      ∃ e' ∈ attempts o c.parts, text e.1 = text e'.1 ∧ e'.2.finds = true)

/-- Nothing is deleted for an object that is not written. One that is there already is persistent,
and one that is not is linked. -/
structure Safe : Prop where
  unwritten : ¬(Accepted env o c db ∧ c.columns.isSome = true) → ¬Removes env o c db
  stored : Accepted env o c db → c.columns.isSome = true → Stored env o c db →
    o.persistent = true
  linked : Accepted env o c db → c.columns.isSome = true → ¬Stored env o c db → Links o c db

/-- The numbers of the rows of attributes are given once. -/
structure Numbered : Prop where
  numbers : ∀ r ∈ db.attributes, 0 < r.rowid ∧ r.rowid ≤ db.lastAttribute
  rowids : (db.attributes.map AttributeRow.rowid).Nodup
  last : 0 ≤ db.lastAttribute

/-- The number of a new row is that of no other row and of no link. -/
structure Ordered : Prop extends Numbered db where
  rows : ∀ r ∈ db.store.table.rows, columnInt r (lit "rowid") < db.store.table.rowid
  links : ∀ l ∈ db.links, l.dataobject_rowid < db.store.table.rowid

end Condition

section Descriptions

variable {o : DataObject}

end Descriptions

section Rows

variable {env : Environment} {o : DataObject} {c : Call} {db : Db}

theorem rows_deleteAll (ds : Digest → Ended) (os : List DataObject) (s : Store) :
    (deleteAll ds true os s).table.rows =
      s.table.rows.filter fun r => !((carriedOut ds os).any fun d => hasId d.id r) := by
  induction os generalizing s with
  | nil => simp [deleteAll, carriedOut]
  | cons o os ih =>
    have hstep : deleteAll ds true (o :: os) s =
        deleteAll ds true os (deleteDataObject (ds o.id) o true false s) := rfl
    rw [hstep, ih, carriedOut, carriedOut]
    by_cases hd : ds o.id = .done
    · rw [List.filter_cons_of_pos (by simp [hd])]
      simp only [hd, deleteDataObject, deleteRow, Bool.and_self, if_true, Store.post, deleteRows,
        List.filter_filter, List.any_cons, Bool.not_or]
      exact List.filter_congr fun r _ => Bool.and_comm _ _
    · rw [List.filter_cons_of_neg (by simp [hd])]
      have htable : (deleteDataObject (ds o.id) o true false s).table = s.table := by
        cases hds : ds o.id
        · exact absurd hds hd
        · rfl
        · rfl
      rw [htable]

/-- The descriptions that are deleted, if it comes to that. -/
def older (env : Environment) (o : DataObject) (c : Call) (db : Db) : List DataObject :=
  if o.isNodeDesc && c.selects then
    match env.describe o with
    | none => []
    | some node_id =>
      ((described env c db node_id).foldl (newestStep o) ⟨o, [], true⟩).older
  else []

end Rows

section Linking

variable {dataobject_rowid : ℤ} {db : Db}

/-- What the statements for attributes keep: they add rows and links, with new row numbers. -/
structure Adds (dataobject_rowid : ℤ) (db db' : Db) : Prop where
  store : db'.store = db.store
  attributes : db.attributes ⊆ db'.attributes
  links : db.links ⊆ db'.links
  own : ∀ l ∈ db'.links, l ∈ db.links ∨ l.dataobject_rowid = dataobject_rowid

theorem Adds.refl (db : Db) : Adds dataobject_rowid db db :=
  ⟨rfl, List.Subset.refl _, List.Subset.refl _, fun _ hl => Or.inl hl⟩

theorem Adds.trans {db₁ db₂ : Db} (h : Adds dataobject_rowid db db₁)
    (h' : Adds dataobject_rowid db₁ db₂) : Adds dataobject_rowid db db₂ where
  store := h'.store.trans h.store
  attributes := List.Subset.trans h.attributes h'.attributes
  links := List.Subset.trans h.links h'.links
  own := fun l hl => (h'.own l hl).elim (h.own l) Or.inr

theorem insertLink_eq {l : DataobjectAttribute} {p : Part} {db db' : Db}
    (h : insertLink l p db = some db') :
    db'.attributes = db.attributes ∧ db'.lastAttribute = db.lastAttribute ∧
      db'.store = db.store ∧ ∀ x, x ∈ db'.links ↔ x ∈ db.links ∨ x = l := by
  rw [insertLink] at h
  split_ifs at h with hlink hmem
  · obtain rfl := Option.some.inj h
    exact ⟨rfl, rfl, rfl, fun x => ⟨Or.inl, fun hx => hx.elim id fun heq => heq ▸ hmem⟩⟩
  · obtain rfl := Option.some.inj h
    exact ⟨rfl, rfl, rfl, fun x => by simp⟩

theorem Linked.mono {a : Attribute} {db' : Db} (h : Linked dataobject_rowid db a)
    (hadds : Adds dataobject_rowid db db') : Linked dataobject_rowid db' a := by
  obtain ⟨r, hr, hn, hl⟩ := h
  exact ⟨r, hadds.attributes hr, hn, hadds.links hl⟩

end Linking

section Calls

variable {env : Environment} {o : DataObject} {c : Call} {calls : List Call} {s : State}

end Calls

end ObjectInsertion

namespace Sample

open ObjectInsertion

def emptyTables : State :=
  ⟨⟨⟨StoredObject.emptyTable, []⟩, [], 0, []⟩, false, false, 0⟩

end Sample
end Haggle
