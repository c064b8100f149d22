import Haggle.Aging
import Haggle.ObjectStore
import Haggle.StoreQueries

/-!
# Aging data objects

The aging statement selects data objects that are older than an age and that the view of matching
filters does not name. At most three of them are made of their rows and then deleted by their own
identifiers, and all of them are reported. The results of the deletions are ignored, and the data
objects that were made before an error are reported without a deletion.
-/

namespace Haggle
namespace AgedObjects

open Matching Relational
open ObjectStore (Ended read maxAgedAtOnce)
open StoredObject (columnInt hasId deleteRows)
open StoreQueries (Database View Faults setView)

section Model

/-- The clock up to the end of a statement. `cutoff` is `strftime('%s', 'now', '-n seconds')`, which
is evaluated anew for each row and each time the statement is executed. -/
structure Clock where
  now : ℤ
  cutoff : ℕ → Sql.Row → ℤ → Option ℤ
  cutoff_le : ∀ i r n t, cutoff i r n = some t → t + n ≤ now

/-- What a call meets. A step with a code that is neither a row nor an error is made again, and then
the statement starts anew: `interrupted` tells how many rows came before each such code. -/
structure Call where
  clock : Clock
  files : FileSystem
  faults : Faults
  interrupted : List ℕ
  deletes : ℕ → Ended

/-- Identifiers are unique in the table of data objects. -/
structure State where
  db : Database
  view : View
  unique : ∀ id, db.dataobjects.rows.countP (hasId id) ≤ 1

def State.rows (s : State) : List Sql.Row := s.db.dataobjects.rows

def timestamp (r : Sql.Row) : Option ℤ :=
  match Sql.Row.value r (lit "timestamp") with
  | .int i => some i
  | _ => none

variable (env : ObjectStore.Environment) (plan : FilterPlan)

/-- The column `dataobject_rowid` of the view of matching filters. -/
def matchedRows (db : Database) (limit : ℤ) : List ℤ :=
  (matchFiltersAndDataobjectsAsRatio plan (limitedDataobjects limit db.dataobjectAttributes)
    db.attributes db.filterAttributes db.filters).map FilterMatch.dataobject_rowid

/-- `SQL_AGE_DATAOBJECT_CMD`. -/
def agedRows (x : Call) (minimumAge : ℤ) (db : Database) (limit : ℤ) (i : ℕ) : List Sql.Row :=
  db.dataobjects.rows.filter fun r =>
    decide (columnInt r (lit "rowid") ∉ matchedRows plan db limit) &&
      match timestamp r, x.clock.cutoff i r minimumAge with
      | some t, some c => decide (t < c)
      | _, _ => false

/-- The rows that the steps return. -/
def returnedRows (x : Call) (rows : ℕ → List Sql.Row) : List Sql.Row :=
  let last := rows x.interrupted.length
  (x.interrupted.zipIdx.flatMap fun (n, i) => (rows i).take n) ++
    x.faults.error.elim last last.take

/-- The data objects that the loop makes, and whether it ends without an error; nothing if the
statement does not compile. -/
def fetch (x : Call) (minimumAge : ℤ) (db : Database) (view : View) :
    Option (List DataObject × Bool) :=
  view.bind fun limit =>
    if x.faults.compile then
      let os := ((returnedRows x (agedRows plan x minimumAge db limit)).filterMap
        (read env x.files)).take maxAgedAtOnce
      some (os, x.faults.error.isNone || os.length = maxAgedAtOnce)
    else none

/-- The statement of `_deleteDataObject`, with the trigger that removes the links of the row. -/
def deleteDataObject (d : Ended) (id : Digest) (db : Database) : Database :=
  if d = .done then
    { db with
      dataobjects := deleteRows db.dataobjects id
      dataobjectAttributes := db.dataobjectAttributes.filter fun l =>
        !(db.dataobjects.rows.any fun r =>
          hasId id r && columnInt r (lit "rowid") = l.dataobject_rowid)
      dataobjects_pos := fun r hr => db.dataobjects_pos r (List.mem_of_mem_filter hr) }
  else db

def deleteAll (ds : ℕ → Ended) : List DataObject → Database → Database
  | [], db => db
  | o :: os, db => deleteAll (fun i => ds (i + 1)) os (deleteDataObject (ds 0) o.id db)

theorem rows_deleteDataObject (d : Ended) (id : Digest) (db : Database) :
    (deleteDataObject d id db).dataobjects.rows =
      if d = .done then db.dataobjects.rows.filter fun r => !hasId id r
      else db.dataobjects.rows := by
  unfold deleteDataObject
  split_ifs <;> rfl

theorem rows_deleteAll_sublist (ds : ℕ → Ended) (os : List DataObject) (db : Database) :
    (deleteAll ds os db).dataobjects.rows.Sublist db.dataobjects.rows := by
  induction os generalizing ds db with
  | nil => exact List.Sublist.refl _
  | cons o os ih =>
    refine (ih _ _).trans ?_
    rw [rows_deleteDataObject]
    split_ifs
    · exact List.filter_sublist
    · exact List.Sublist.refl _

def State.deleteAll (ds : ℕ → Ended) (os : List DataObject) (s : State) : State where
  db := AgedObjects.deleteAll ds os s.db
  view := s.view
  unique id := ((rows_deleteAll_sublist ds os s.db).countP_le).trans (s.unique id)

/-- What a call returns, the event that data objects were deleted, with its flag, and the list in
the event for the callback. -/
structure Outcome where
  returned : ℤ
  deleted : Option (List DataObject × Bool)
  aged : List DataObject

/-- `_ageDataObjects`, which the data manager calls with a callback. -/
def ageDataObjects (x : Call) (minimumAge : ℤ) (keepInBloomfilter : Bool) (s : State) :
    State × Outcome :=
  let s := { s with view := setView x.faults 0 s.view }
  match fetch env plan x minimumAge s.db s.view with
  | none => (s, ⟨-1, none, []⟩)
  | some (os, completed) =>
    let dObjs := os.map fun o => { o with stored := false }
    if completed then
      (s.deleteAll x.deletes os, ⟨if os.length = maxAgedAtOnce then 100 else 101,
        some (dObjs, keepInBloomfilter), dObjs⟩)
    else (s, ⟨-1, none, dObjs⟩)

end Model

section Selection

variable {plan : FilterPlan} {db : Database} {x : Call} {minimumAge : ℤ}

/-- A stored filter has an attribute that is similar to one of the data object. -/
def Matches (db : Database) (rowid : ℤ) : Prop :=
  ∃ f ∈ db.filters, ∃ l ∈ db.filterAttributes, l.filter_rowid = f.rowid ∧
    ∃ a ∈ db.attributes, a.rowid = l.attr_rowid ∧ ∃ b ∈ db.attributes,
      (a.name = b.name ∧ (a.value = b.value ∨ a.value = wildcard)) ∧
        ⟨rowid, b.rowid⟩ ∈ db.dataobjectAttributes

/-- Content that may be given up: older than the age, and matched by no filter. -/
def Discardable (db : Database) (x : Call) (minimumAge : ℤ) (r : Sql.Row) : Prop :=
  (∃ t, timestamp r = some t ∧ t + minimumAge < x.clock.now) ∧
    ¬ Matches db (columnInt r (lit "rowid"))

theorem mem_similarAttributes {fa : List FilterAttribute} {attrs : List AttributeRow}
    {l : FilterAttribute} {a b : AttributeRow} (hl : l ∈ fa) (ha : a ∈ attrs)
    (hal : a.rowid = l.attr_rowid) (hb : b ∈ attrs)
    (hsim : a.name = b.name ∧ (a.value = b.value ∨ a.value = wildcard)) :
    (a.rowid, b.rowid) ∈ similarAttributes fa attrs := by
  have hrel : some a ∈ filterRelevantAttributes fa attrs := by
    refine List.mem_map.mpr ⟨(l, some a), mem_leftJoin hl ha ?_, rfl⟩
    rw [decide_eq_true_eq]
    exact hal.symm
  have hfilter : a ∈ (filterRelevantAttributes fa attrs).filterMap id :=
    List.mem_filterMap.mpr ⟨some a, hrel, rfl⟩
  refine List.mem_map.mpr ⟨(a, b), mem_innerJoin.mpr ⟨hfilter, hb, ?_⟩, rfl⟩
  simpa using hsim

theorem mem_matchedRows {rowid : ℤ} (h : Matches db rowid) : rowid ∈ matchedRows plan db 0 := by
  obtain ⟨f, hf, l, hl, hlf, a, ha, hal, b, hb, hsim, hd⟩ := h
  have hall : limitedDataobjects 0 db.dataobjectAttributes = db.dataobjectAttributes := if_pos rfl
  have hsimilar := mem_similarAttributes hl ha hal hb hsim
  have hjoin : ((⟨rowid, b.rowid⟩ : DataobjectAttribute), (a.rowid, b.rowid)) ∈
      innerJoin (fun d y => d.attr_rowid = y.2) db.dataobjectAttributes
        (similarAttributes db.filterAttributes db.attributes) :=
    mem_innerJoin.mpr ⟨hd, hsimilar, decide_eq_true rfl⟩
  have hlinked : (((⟨rowid, b.rowid⟩ : DataobjectAttribute), (a.rowid, b.rowid)), some l) ∈
      leftJoin (fun y (l : FilterAttribute) => l.attr_rowid = y.2.1) _ db.filterAttributes :=
    mem_leftJoin hjoin hl (decide_eq_true hal.symm)
  have hrow : ((((⟨rowid, b.rowid⟩ : DataobjectAttribute), (a.rowid, b.rowid)), some l), some f) ∈
      leftJoin (fun y (f : FilterRow) => y.2.any fun l => l.filter_rowid = f.rowid) _ db.filters :=
    mem_leftJoin hlinked hf (decide_eq_true hlf)
  rw [matchedRows, hall]
  refine List.mem_map.mpr ⟨_, (orderByDesc_perm _ _).mem_iff.mpr (List.mem_map.mpr
    ⟨(some f.rowid, rowid), ?_, rfl⟩), rfl⟩
  refine List.mem_dedup.mpr (List.mem_map.mpr ⟨⟨some f, rowid⟩, ?_, rfl⟩)
  exact (plan.perm _).mem_iff.mpr (List.mem_map.mpr ⟨_, hrow, rfl⟩)

theorem discardable_of_mem_agedRows {i : ℕ} {r : Sql.Row}
    (hr : r ∈ agedRows plan x minimumAge db 0 i) : Discardable db x minimumAge r := by
  obtain ⟨-, hsel⟩ := List.mem_filter.mp hr
  rw [Bool.and_eq_true, decide_eq_true_eq] at hsel
  obtain ⟨hnot, hold⟩ := hsel
  refine ⟨?_, fun h => hnot (mem_matchedRows h)⟩
  split at hold
  · next t c ht hc =>
    have hlt := x.clock.cutoff_le i r minimumAge c hc
    exact ⟨t, ht, lt_of_lt_of_le (add_lt_add_left (decide_eq_true_eq.mp hold) minimumAge) hlt⟩
  · cases hold

end Selection

end AgedObjects
end Haggle
