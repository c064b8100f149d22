import Haggle.DataManager
import Haggle.NodeDescriptions

/-!
# Events of deleted data objects

The rows that an operation removes from the data store are compared with the data objects in the
events it posts. Events and removals agree unless a data object is deleted that is not stored, or a
deletion that was reported is not carried out.
-/

namespace Haggle
namespace ObjectStore

open StoredObject

section Steps

/-- The operations that write the table of data objects. Deletions from outside are always to be
reported. -/
inductive Operation
  | insert (x : Insert)
  | deleteById (files : FileSystem) (d : Ended) (id : Digest) (keepInBloomfilter : Bool)
  | delete (d : Ended) (dObj : DataObject) (keepInBloomfilter : Bool)
  | age (x : Age)

variable (env : Environment)

def perform (s : Store) : Operation → Store
  | .insert x => (insertDataObject env x s).1
  | .deleteById fs d id keep => deleteDataObjectById env fs d id true keep s
  | .delete d o keep => deleteDataObject d o true keep s
  | .age x => ageDataObjects env x s

/-- The identifiers of the rows. -/
def ids (t : Sql.Table) : List Sql.Value := t.rows.map (Sql.Row.value · (lit "id"))

/-- The data store with the identifiers of all rows that were written and removed. -/
structure Ledger where
  store : Store
  stored : List Sql.Value
  removed : List Sql.Value

def ledgerStep (l : Ledger) (op : Operation) : Ledger where
  store := perform env l.store op
  stored := (ids (perform env l.store op).table).filter (· ∉ ids l.store.table) ++ l.stored
  removed := (ids l.store.table).filter (· ∉ ids (perform env l.store op).table) ++ l.removed

def emptyLedger : Ledger := ⟨⟨emptyTable, []⟩, [], []⟩

/-- The identifiers of the data objects in all events. -/
def reported (posted : List (List DataObject × Bool)) : List Sql.Value :=
  posted.flatMap fun e => e.1.map fun o => .blob o.id.1

/-- What the data manager takes out of its filter for the events. -/
def filterRemovals (posted : List (List DataObject × Bool)) : List Digest :=
  posted.flatMap fun e => DataManager.removedObjects e.1 e.2

/-- Each row that was removed is reported once and nothing else is, so that no identifier is taken out
of the filter more often than it was stored. -/
def Truthful (l : Ledger) : Prop :=
  (reported l.store.posted).Perm l.removed ∧
    ∀ id, (filterRemovals l.store.posted).count id ≤ l.stored.count (.blob id.1)

/-- The node identifier that goes into the row. -/
def nodeIdOf (o : DataObject) : Option Bytes :=
  if o.isNodeDesc then env.describe o else some (lit "-")

/-- An insertion of a data object that does not stay has no row to replace; its strings can be pasted;
and the node descriptions of its node are read back under their identifiers and deleted with a result
that the code knows. -/
structure TruthfulInsert (s : Store) (x : Insert) : Prop where
  kept : x.dObj.persistent = true ∨ ∀ r ∈ s.table.rows, hasId x.dObj.id r = false
  pastable : x.inserts = .done → ∀ node_id, nodeIdOf env x.dObj = some node_id →
    ∀ m, x.dObj.toMetadata.metadata = some m →
      Pastable (m.getRawAlloc env.platform.lib) x.dObj { x.origin with nodeId := node_id }
  replaced : x.dObj.isNodeDesc = true → ∀ node_id, env.describe x.dObj = some node_id →
    ∀ r ∈ descriptionRows s.table node_id, ∀ o, read env x.files r = some o →
      hasId o.id r = true ∧ x.deletes o.id ≠ .other ∧
        (o.id = x.dObj.id → x.dObj.createTime ≤ o.createTime)

/-- An operation whose events are true. -/
def Reliable (l : Ledger) : Operation → Prop
  | .insert x => TruthfulInsert env l.store x
  | .deleteById fs d id _ => ∀ o, lookup env fs l.store.table id = some o → o.id = id ∧ d = .done
  | .delete d o _ => d = .error ∨ d = .done ∧ ∃ r ∈ l.store.table.rows, hasId o.id r = true
  | .age x => ∀ r ∈ l.store.table.rows, x.old r = true → ∀ o, read env x.files r = some o →
      hasId o.id r = true ∧ x.deletes o.id = .done

end Steps

section Identifiers

variable {t : Sql.Table} {id : Digest}

theorem hasId_iff {r : Sql.Row} : hasId id r = true ↔ Sql.Row.value r (lit "id") = .blob id.1 := by
  rw [hasId, decide_eq_true_eq]

theorem mem_ids_of_hasId {r : Sql.Row} (hr : r ∈ t.rows) (hid : hasId id r = true) :
    .blob id.1 ∈ ids t := by
  rw [← hasId_iff.mp hid]
  exact List.mem_map_of_mem hr

theorem exists_of_mem_ids (h : .blob id.1 ∈ ids t) : ∃ r ∈ t.rows, hasId id r = true := by
  obtain ⟨r, hr, hv⟩ := List.mem_map.mp h
  exact ⟨r, hr, hasId_iff.mpr hv⟩

theorem ids_deleteRows (t : Sql.Table) (id : Digest) :
    ids (deleteRows t id) = (ids t).filter (· ≠ .blob id.1) := by
  rw [ids, ids, List.filter_map, deleteRows]
  congr 1
  refine List.filter_congr fun r _ => ?_
  simp [hasId]

theorem perm_exchange {α : Type} [DecidableEq α] {l l' : List α} (h : l.Nodup) (h' : l'.Nodup) :
    (l' ++ l.filter (· ∉ l')).Perm (l ++ l'.filter (· ∉ l)) := by
  rw [List.perm_ext_iff_of_nodup]
  · intro a
    simp only [List.mem_append, List.mem_filter, decide_eq_true_eq]
    tauto
  · exact List.Nodup.append h' (h.filter _) fun a ha hb => by simp_all
  · exact List.Nodup.append h (h'.filter _) fun a ha hb => by simp_all

/-- What is missing behind a change that takes `gone` away. -/
theorem removed_perm {α : Type} [DecidableEq α] {l l' gone : List α} (h : l.Nodup)
    (hgone : gone.Nodup) (hsub : gone ⊆ l) (hl' : ∀ a ∈ l, a ∈ l' ↔ a ∉ gone) :
    (l.filter (· ∉ l')).Perm gone := by
  rw [List.perm_ext_iff_of_nodup (h.filter _) hgone]
  intro a
  simp only [List.mem_filter, decide_eq_true_eq]
  constructor
  · rintro ⟨ha, hnot⟩
    by_contra hgone
    exact hnot ((hl' a ha).mpr hgone)
  · exact fun ha => ⟨hsub ha, fun hmem => (hl' a (hsub ha)).mp hmem ha⟩

end Identifiers

section Deletions

variable {s : Store}

/-- The data objects that are really deleted. -/
def carriedOut (ds : Digest → Ended) (os : List DataObject) : List DataObject :=
  os.filter fun o => ds o.id = .done

theorem ids_deleteAll (ds : Digest → Ended) (report : Bool) (os : List DataObject) (s : Store) :
    ids (deleteAll ds report os s).table =
      (ids s.table).filter (· ∉ (carriedOut ds os).map fun o => .blob o.id.1) := by
  induction os generalizing s with
  | nil => simp [deleteAll, carriedOut]
  | cons o os ih =>
    have hstep : deleteAll ds report (o :: os) s =
        deleteAll ds report os (deleteDataObject (ds o.id) o report false s) := rfl
    have htable : ids (deleteDataObject (ds o.id) o report false s).table =
        if ds o.id = .done then (ids s.table).filter (· ≠ .blob o.id.1) else ids s.table := by
      cases hd : ds o.id <;> cases report <;>
        simp [deleteDataObject, deleteRow, Store.post, ids_deleteRows]
    rw [hstep, ih, htable, carriedOut, carriedOut]
    by_cases hd : ds o.id = .done
    · rw [if_pos hd, List.filter_cons_of_pos (by simp [hd]), List.filter_filter, List.map_cons]
      refine List.filter_congr fun v _ => ?_
      rw [Bool.eq_iff_iff]
      simp only [Bool.and_eq_true, decide_eq_true_eq, List.mem_cons, not_or, ne_eq]
      exact and_comm
    · rw [if_neg hd, List.filter_cons_of_neg (by simp [hd])]

/-- The events of deletions with a result that the code knows. -/
theorem reported_deleteAll {ds : Digest → Ended} {os : List DataObject}
    (h : ∀ o ∈ os, ds o.id ≠ .other) (s : Store) :
    (reported (deleteAll ds true os s).posted).Perm
      (((carriedOut ds os).map fun o => .blob o.id.1) ++ reported s.posted) := by
  induction os generalizing s with
  | nil => exact List.Perm.refl _
  | cons o os ih =>
    rw [List.forall_mem_cons] at h
    have hstep : deleteAll ds true (o :: os) s =
        deleteAll ds true os (deleteDataObject (ds o.id) o true false s) := rfl
    rw [hstep]
    refine (ih h.2 _).trans ?_
    cases hd : ds o.id with
    | done =>
      have hout : carriedOut ds (o :: os) = o :: carriedOut ds os :=
        List.filter_cons_of_pos (by simp [hd])
      rw [hout, List.map_cons, List.cons_append]
      exact List.perm_middle
    | error =>
      have hout : carriedOut ds (o :: os) = carriedOut ds os :=
        List.filter_cons_of_neg (by simp [hd])
      rw [hout]
      exact List.Perm.refl _
    | other => exact absurd hd h.1

theorem posted_deleteAll_false (ds : Digest → Ended) (os : List DataObject) (s : Store) :
    (deleteAll ds false os s).posted = s.posted := by
  induction os generalizing s with
  | nil => rfl
  | cons o os ih =>
    have hstep : deleteAll ds false (o :: os) s =
        deleteAll ds false os (deleteDataObject (ds o.id) o false false s) := rfl
    rw [hstep, ih]
    cases hd : ds o.id <;> rfl

end Deletions

section Newest

variable {dObj : DataObject}

/-- A stored description is put on the list of those to delete once at most. -/
theorem older_subperm (os : List DataObject) {n : Newest} {seen : List DataObject}
    (hold : n.older.Subperm seen)
    (hnew : n.newest.id ≠ dObj.id → (n.newest :: n.older).Subperm seen) :
    (os.foldl (newestStep dObj) n).older.Subperm (seen ++ os) := by
  induction os generalizing n seen with
  | nil => rwa [List.append_nil]
  | cons o os ih =>
    have hsnoc : ∀ l : List DataObject, l.Subperm seen → (l ++ [o]).Subperm (seen ++ [o]) :=
      fun l hl => (List.subperm_append_right [o]).mpr hl
    have hweak : ∀ l : List DataObject, l.Subperm seen → l.Subperm (seen ++ [o]) :=
      fun l hl => hl.trans (List.sublist_append_left seen [o]).subperm
    have hcons : ∀ l : List DataObject, l.Subperm seen → (o :: l).Subperm (seen ++ [o]) :=
      fun l hl => (List.perm_append_singleton o l).symm.subperm.trans (hsnoc l hl)
    rw [List.foldl_cons, List.append_cons]
    by_cases hlt : o.createTime < n.newest.createTime
    · rw [newestStep, if_pos hlt]
      exact ih (hsnoc _ hold) fun hid => hsnoc _ (hnew hid)
    · by_cases hid : n.newest.id ≠ dObj.id
      · rw [newestStep, if_neg hlt, if_pos hid]
        have hlast : (n.older ++ [n.newest]).Subperm seen :=
          (List.perm_append_singleton n.newest n.older).subperm.trans (hnew hid)
        exact ih (hweak _ hlast) fun _ => hcons _ hlast
      · rw [newestStep, if_neg hlt, if_neg hid]
        exact ih (hweak _ hold) fun _ => hcons _ hold

/-- As long as the new description is the newest, all others are older. -/
theorem older_of_isNew (os : List DataObject) {n : Newest}
    (h : n.isNew = true → n.newest = dObj ∧ ∀ o ∈ n.older, o.createTime < dObj.createTime) :
    (os.foldl (newestStep dObj) n).isNew = true →
      ∀ o ∈ (os.foldl (newestStep dObj) n).older, o.createTime < dObj.createTime := by
  induction os generalizing n with
  | nil => exact fun hnew => (h hnew).2
  | cons o os ih =>
    rw [List.foldl_cons]
    refine ih fun hnew => ?_
    by_cases hlt : o.createTime < n.newest.createTime
    · rw [newestStep, if_pos hlt] at hnew ⊢
      obtain ⟨hn, hold⟩ := h hnew
      refine ⟨hn, fun o' ho' => ?_⟩
      rcases List.mem_append.mp ho' with ho' | ho'
      · exact hold o' ho'
      · rw [List.mem_singleton.mp ho', ← hn]
        exact hlt
    · by_cases hid : n.newest.id ≠ dObj.id
      · rw [newestStep, if_neg hlt, if_pos hid] at hnew
        exact absurd (congrArg DataObject.id (h hnew).1) hid
      · rw [newestStep, if_neg hlt, if_neg hid] at hnew
        cases hnew

end Newest

section Step

variable {env : Environment} {s : Store}

/-- What holds of the table, and is enough for the statements of an insertion. -/
structure WellFormed (t : Sql.Table) : Prop where
  name : t.name = emptyTable.name
  columns : t.columns = emptyTable.columns
  nodup : (ids t).Nodup

/-- A step of the store whose events name exactly the rows that are gone. -/
structure TruthfulStep (s s' : Store) : Prop where
  wellFormed : WellFormed s'.table
  reported : (reported s'.posted).Perm
    ((ids s.table).filter (· ∉ ids s'.table) ++ reported s.posted)

theorem truthfulStep_refl (h : WellFormed s.table) : TruthfulStep s s where
  wellFormed := h
  reported := by
    have hnil : (ids s.table).filter (· ∉ ids s.table) = [] :=
      List.filter_eq_nil_iff.mpr fun v hv => by simpa using hv
    rw [hnil, List.nil_append]

theorem wellFormed_deleteRows {t : Sql.Table} (h : WellFormed t) (id : Digest) :
    WellFormed (deleteRows t id) := by
  refine ⟨h.name, h.columns, ?_⟩
  rw [ids_deleteRows]
  exact h.nodup.filter _

theorem wellFormed_deleteDataObject (h : WellFormed s.table) (d : Ended) (o : DataObject)
    (report keep : Bool) : WellFormed (deleteDataObject d o report keep s).table := by
  cases d with
  | done =>
    cases report with
    | true => exact wellFormed_deleteRows h o.id
    | false => exact wellFormed_deleteRows h o.id
  | error => exact h
  | other =>
    cases report with
    | true => exact h
    | false => exact h

theorem wellFormed_deleteAll (h : WellFormed s.table) (ds : Digest → Ended) (report : Bool)
    (os : List DataObject) : WellFormed (deleteAll ds report os s).table := by
  induction os generalizing s with
  | nil => exact h
  | cons o os ih => exact ih (wellFormed_deleteDataObject h (ds o.id) o report false)

/-- One row is removed, and its data object is in the event. -/
theorem truthfulStep_one (h : WellFormed s.table) {id : Digest} {r : Sql.Row}
    (hr : r ∈ s.table.rows) (hid : hasId id r = true) {o : DataObject} (ho : o.id = id)
    (keep : Bool) :
    TruthfulStep s ({ s with table := deleteRows s.table id }.post [o] keep) where
  wellFormed := wellFormed_deleteRows h id
  reported := by
    have hgone : ((ids s.table).filter (· ∉ ids (deleteRows s.table id))).Perm [.blob id.1] := by
      refine removed_perm h.nodup (List.nodup_singleton _) ?_ ?_
      · intro v hv
        rw [List.mem_singleton.mp hv]
        exact mem_ids_of_hasId hr hid
      · intro v hv
        rw [ids_deleteRows, List.mem_filter, List.mem_singleton, decide_eq_true_eq]
        exact and_iff_right hv
    have hposted : reported (Store.post { s with table := deleteRows s.table id } [o] keep).posted =
        [Sql.Value.blob id.1] ++ reported s.posted := by
      rw [← ho]
      rfl
    rw [hposted]
    exact hgone.symm.append_right _

theorem truthfulStep_deleteById (h : WellFormed s.table) {fs : FileSystem} {d : Ended}
    {id : Digest} (hop : ∀ o, lookup env fs s.table id = some o → o.id = id ∧ d = .done)
    (keep : Bool) : TruthfulStep s (deleteDataObjectById env fs d id true keep s) := by
  cases hl : lookup env fs s.table id with
  | none =>
    have hsame : deleteDataObjectById env fs d id true keep s = s := by
      simp [deleteDataObjectById, hl]
    rw [hsame]
    exact truthfulStep_refl h
  | some o =>
    obtain ⟨hid, rfl⟩ := hop o hl
    obtain ⟨r, hfind, -⟩ := Option.bind_eq_some_iff.mp hl
    have hdone : deleteDataObjectById env fs .done id true keep s =
        Store.post { s with table := deleteRows s.table id } [{ o with stored := false }] keep := by
      simp [deleteDataObjectById, hl, deleteRow, Store.post]
    rw [hdone]
    exact truthfulStep_one h (List.mem_of_find?_eq_some hfind) (List.find?_some hfind)
      (o := { o with stored := false }) hid keep

theorem truthfulStep_delete (h : WellFormed s.table) {d : Ended} {o : DataObject}
    (hop : d = .error ∨ d = .done ∧ ∃ r ∈ s.table.rows, hasId o.id r = true) (keep : Bool) :
    TruthfulStep s (deleteDataObject d o true keep s) := by
  rcases hop with rfl | ⟨rfl, r, hr, hid⟩
  · exact truthfulStep_refl h
  · exact truthfulStep_one h hr hid rfl keep

/-- Data objects that are read from rows under the identifiers of the rows. -/
theorem ids_read_sublist (env : Environment) (fs : FileSystem) (rows : List Sql.Row)
    (h : ∀ r ∈ rows, ∀ o, read env fs r = some o → hasId o.id r = true) :
    ((rows.filterMap (read env fs)).map fun o => Sql.Value.blob o.id.1).Sublist
      (rows.map (Sql.Row.value · (lit "id"))) := by
  induction rows with
  | nil => exact List.Sublist.refl _
  | cons r rows ih =>
    rw [List.forall_mem_cons] at h
    cases hr : read env fs r with
    | none =>
      rw [List.filterMap_cons_none hr]
      exact (ih h.2).cons _
    | some o =>
      rw [List.filterMap_cons_some hr, List.map_cons, List.map_cons, hasId_iff.mp (h.1 o hr)]
      exact (ih h.2).cons_cons _

/-- The identifiers of aged data objects are those of rows. -/
theorem ids_aged_sublist {x : Age} {os : List DataObject}
    (hop : ∀ r ∈ s.table.rows, x.old r = true → ∀ o, read env x.files r = some o →
      hasId o.id r = true ∧ x.deletes o.id = .done)
    (haged : agedObjects env x s.table = some os) :
    (os.map fun o => Sql.Value.blob o.id.1).Sublist (ids s.table) ∧
      ∀ o ∈ os, x.deletes o.id = .done := by
  have hrows : ∀ rows : List Sql.Row, rows.Sublist (s.table.rows.filter x.old) →
      (((rows.filterMap (read env x.files)).take maxAgedAtOnce).map
        fun o => Sql.Value.blob o.id.1).Sublist (ids s.table) ∧
      ∀ o ∈ (rows.filterMap (read env x.files)).take maxAgedAtOnce, x.deletes o.id = .done := by
    intro rows hsub
    have hmem : ∀ r ∈ rows, r ∈ s.table.rows ∧ x.old r = true :=
      fun r hr => List.mem_filter.mp (hsub.subset hr)
    refine ⟨?_, fun o ho => ?_⟩
    · have hids := ids_read_sublist env x.files rows fun r hr o ho =>
        (hop r (hmem r hr).1 (hmem r hr).2 o ho).1
      refine ((List.take_sublist _ _).map _).trans (hids.trans ?_)
      exact (hsub.trans List.filter_sublist).map _
    · obtain ⟨r, hr, hread⟩ := List.mem_filterMap.mp (List.mem_of_mem_take ho)
      exact (hop r (hmem r hr).1 (hmem r hr).2 o hread).2
  simp only [agedObjects] at haged
  split at haged
  · rw [← Option.some.inj haged]
    exact hrows _ (List.Sublist.refl _)
  · split_ifs at haged
    rw [← Option.some.inj haged]
    exact hrows _ (List.take_sublist _ _)

theorem truthfulStep_age (h : WellFormed s.table) {x : Age}
    (hop : ∀ r ∈ s.table.rows, x.old r = true → ∀ o, read env x.files r = some o →
      hasId o.id r = true ∧ x.deletes o.id = .done) :
    TruthfulStep s (ageDataObjects env x s) := by
  cases haged : agedObjects env x s.table with
  | none =>
    simp only [ageDataObjects, haged]
    exact truthfulStep_refl h
  | some os =>
    obtain ⟨hsub, hdone⟩ := ids_aged_sublist hop haged
    have hout : carriedOut x.deletes os = os :=
      List.filter_eq_self.mpr fun o ho => decide_eq_true (hdone o ho)
    have hids := ids_deleteAll x.deletes false os s
    rw [hout] at hids
    simp only [ageDataObjects, haged]
    refine ⟨wellFormed_deleteAll h x.deletes false os, ?_⟩
    have hgone : ((ids s.table).filter (· ∉ ids (deleteAll x.deletes false os s).table)).Perm
        (os.map fun o => .blob o.id.1) := by
      refine removed_perm h.nodup (hsub.nodup h.nodup) hsub.subset fun v hv => ?_
      rw [hids, List.mem_filter, decide_eq_true_eq]
      exact and_iff_right hv
    have hposted : reported ((deleteAll x.deletes false os s).post
        (os.map fun o => { o with stored := false }) x.keepInBloomfilter).posted =
        (os.map fun o => .blob o.id.1) ++ reported s.posted := by
      simp only [Store.post, reported, List.flatMap_cons, List.map_map,
        posted_deleteAll_false x.deletes os s]
      rfl
    rw [hposted]
    exact hgone.symm.append_right _

theorem nodup_snoc {α : Type} {l : List α} {a : α} (h : l.Nodup) (ha : a ∉ l) :
    (l ++ [a]).Nodup :=
  h.append (List.nodup_singleton a) fun _ hb hb' => ha (List.mem_singleton.mp hb' ▸ hb)

/-- Without events, an operation keeps the rows or adds one. -/
structure Grows (s s' : Store) (id : Digest) : Prop where
  posted : s'.posted = s.posted
  wellFormed : WellFormed s'.table
  ids : ids s'.table = ids s.table ∨ ids s'.table = ids s.table ++ [.blob id.1]

theorem grows_refl (h : WellFormed s.table) (id : Digest) : Grows s s id := ⟨rfl, h, .inl rfl⟩

theorem blob_notMem_ids {t : Sql.Table} {id : Digest} (h : ∀ r ∈ t.rows, hasId id r = false) :
    .blob id.1 ∉ ids t := by
  intro hmem
  obtain ⟨r, hr, hid⟩ := exists_of_mem_ids hmem
  rw [h r hr] at hid
  exact absurd hid Bool.false_ne_true

theorem ids_deleteRows_of_none {t : Sql.Table} {id : Digest}
    (h : ∀ r ∈ t.rows, hasId id r = false) : ids (deleteRows t id) = ids t := by
  rw [ids_deleteRows, List.filter_eq_self]
  intro v hv
  rw [decide_eq_true_eq]
  rintro rfl
  exact blob_notMem_ids h hv

/-- A new row, which is removed again unless the data object stays. -/
theorem grows_linkRow (h : WellFormed s.table) {o : DataObject} {i : Origin} {raw : Bytes}
    (hnone : ∀ r ∈ s.table.rows, hasId o.id r = false) (linked : Bool) :
    Grows s { s with table := (linkRow o linked { s.table with
      rows := s.table.rows ++ [objectRow s.table.rowid raw o i]
      rowid := s.table.rowid + 1 }).2 } o.id := by
  have hids : ids { s.table with
      rows := s.table.rows ++ [objectRow s.table.rowid raw o i]
      rowid := s.table.rowid + 1 } = ids s.table ++ [Sql.Value.blob o.id.1] := by
    rw [ids, List.map_append]
    rfl
  have hnew : WellFormed { s.table with
      rows := s.table.rows ++ [objectRow s.table.rowid raw o i]
      rowid := s.table.rowid + 1 } := by
    refine ⟨h.name, h.columns, ?_⟩
    rw [hids]
    exact nodup_snoc h.nodup (blob_notMem_ids hnone)
  unfold linkRow
  split_ifs with hlinked hpersist
  · exact ⟨rfl, hnew, .inr hids⟩
  · refine ⟨rfl, wellFormed_deleteRows hnew o.id, .inl ?_⟩
    change ids (deleteRows _ o.id) = _
    rw [ids_deleteRows, hids, List.filter_append, List.filter_cons_of_neg (by simp),
      List.filter_nil, List.append_nil, ← ids_deleteRows, ids_deleteRows_of_none hnone]
  · exact ⟨rfl, hnew, .inr hids⟩

theorem grows_insertRow (h : WellFormed s.table) {x : Insert} {node_id : Bytes}
    (hkept : x.dObj.persistent = true ∨ ∀ r ∈ s.table.rows, hasId x.dObj.id r = false)
    (hp : x.inserts = .done → ∀ m, x.dObj.toMetadata.metadata = some m →
      Pastable (m.getRawAlloc env.platform.lib) x.dObj { x.origin with nodeId := node_id }) :
    Grows s (insertRow env x node_id s).1 x.dObj.id := by
  cases hi : x.inserts with
  | error =>
    simp only [insertRow, hi]
    exact grows_refl h _
  | other =>
    simp only [insertRow, hi, linkRow]
    split_ifs with hlinked hpersist
    · exact grows_refl h _
    · have hnone := hkept.resolve_left hpersist
      exact ⟨rfl, wellFormed_deleteRows h _, .inl (ids_deleteRows_of_none hnone)⟩
    · exact grows_refl h _
  | done =>
    cases hm : x.dObj.toMetadata.metadata with
    | none =>
      simp only [insertRow, hi, StoredObject.insertDataObject, storeRow, hm]
      exact grows_refl h _
    | some m =>
      have hstore := storeRow_eq env.beyond hm (hp hi m hm) h.name h.columns
      by_cases hany : s.table.rows.any (hasId x.dObj.id) = true
      · -- The object is there already, so it is one that stays.
        have hpersist : x.dObj.persistent = true := by
          refine hkept.resolve_right fun hnone => ?_
          obtain ⟨r, hr, hid⟩ := List.any_eq_true.mp hany
          rw [hnone r hr] at hid
          exact absurd hid Bool.false_ne_true
        simp only [insertRow, hi, StoredObject.insertDataObject, hstore, hany, if_true, hpersist]
        exact grows_refl h _
      · have hnone : ∀ r ∈ s.table.rows, hasId x.dObj.id r = false := by simpa using hany
        simp only [insertRow, hi, StoredObject.insertDataObject, hstore, hany, if_false,
          Bool.false_eq_true]
        exact grows_linkRow h hnone x.linked

/-- Node descriptions are replaced: those that are deleted are reported, and what is then written is
none of them. -/
theorem truthfulStep_replace {s' : Store} (h : WellFormed s.table) (ds : Digest → Ended)
    (os : List DataObject) (hother : ∀ o ∈ os, ds o.id ≠ .other)
    (hsub : (os.map fun o => Sql.Value.blob o.id.1).Subperm (ids s.table)) {id : Digest}
    (hnew : (∀ o ∈ os, o.id ≠ id) ∨ ids s'.table = ids (deleteAll ds true os s).table)
    (hgrows : Grows (deleteAll ds true os s) s' id) :
    TruthfulStep s s' := by
  have hout : ((carriedOut ds os).map fun o => Sql.Value.blob o.id.1).Subperm (ids s.table) :=
    (List.filter_sublist.map _).subperm.trans hsub
  have hids := ids_deleteAll ds true os s
  refine ⟨hgrows.wellFormed, ?_⟩
  have hgone : ((ids s.table).filter (· ∉ ids s'.table)).Perm
      ((carriedOut ds os).map fun o => .blob o.id.1) := by
    refine removed_perm h.nodup ?_ hout.subset fun v hv => ?_
    · obtain ⟨l, hperm, hl⟩ := hout
      exact hperm.nodup_iff.mp (hl.nodup h.nodup)
    · have hmem : v ∈ ids (deleteAll ds true os s).table ↔
          v ∉ (carriedOut ds os).map fun o => .blob o.id.1 := by
        rw [hids, List.mem_filter, decide_eq_true_eq]
        exact and_iff_right hv
      rcases hnew with hnew | hids'
      swap
      · rw [hids', hmem]
      rcases hgrows.ids with hids' | hids'
      · rw [hids', hmem]
      · rw [hids', List.mem_append, hmem, List.mem_singleton, or_iff_left_iff_imp]
        rintro rfl hmap
        obtain ⟨o, ho, hblob⟩ := List.mem_map.mp hmap
        rw [Sql.Value.blob.injEq] at hblob
        exact hnew o (List.mem_of_mem_filter ho) (Subtype.ext hblob)
  rw [hgrows.posted]
  exact (reported_deleteAll hother s).trans (hgone.symm.append_right _)

theorem grows_truthful {s' : Store} (h : WellFormed s.table) {id : Digest}
    (hgrows : Grows s s' id) : TruthfulStep s s' :=
  truthfulStep_replace h (fun _ => .done) [] (fun _ ho => absurd ho List.not_mem_nil)
    List.nil_subperm (.inl fun _ ho => absurd ho List.not_mem_nil) hgrows

/-- The descriptions of a node that are to be deleted for a new one. -/
def replacedDescriptions (env : Environment) (x : Insert) (t : Sql.Table) (node_id : Bytes) :
    Newest :=
  ((Relational.orderByDesc (fun r => [some (columnInt r (lit "createtime"))])
    (descriptionRows t node_id)).filterMap (read env x.files)).foldl (newestStep x.dObj)
      ⟨x.dObj, [], true⟩

theorem replaced_subperm (env : Environment) (x : Insert) (t : Sql.Table) (node_id : Bytes) :
    (replacedDescriptions env x t node_id).older.Subperm
      ((Relational.orderByDesc (fun r => [some (columnInt r (lit "createtime"))])
        (descriptionRows t node_id)).filterMap (read env x.files)) :=
  @older_subperm x.dObj _ ⟨x.dObj, [], true⟩ [] List.nil_subperm fun hid => absurd rfl hid

theorem read_of_replaced {x : Insert} {t : Sql.Table} {node_id : Bytes} {o : DataObject}
    (ho : o ∈ (replacedDescriptions env x t node_id).older) :
    ∃ r ∈ descriptionRows t node_id, read env x.files r = some o := by
  have hmem := (replaced_subperm env x t node_id).subset ho
  obtain ⟨r, hr, hread⟩ := List.mem_filterMap.mp hmem
  exact ⟨r, (Relational.orderByDesc_perm _ _).mem_iff.mp hr, hread⟩

/-- Their identifiers are those of rows, each of another one. -/
theorem ids_replaced {x : Insert} {t : Sql.Table} {node_id : Bytes}
    (h : ∀ r ∈ descriptionRows t node_id, ∀ o, read env x.files r = some o →
      hasId o.id r = true) :
    ((replacedDescriptions env x t node_id).older.map fun o => Sql.Value.blob o.id.1).Subperm
      (ids t) := by
  have hperm := Relational.orderByDesc_perm
    (fun r => [some (columnInt r (lit "createtime"))]) (descriptionRows t node_id)
  have hread := ids_read_sublist env x.files _ fun r hr => h r (hperm.mem_iff.mp hr)
  obtain ⟨l, hl, hsub⟩ := replaced_subperm env x t node_id
  have hmap : ((replacedDescriptions env x t node_id).older.map
      fun o => Sql.Value.blob o.id.1).Subperm _ := ⟨_, hl.map _, hsub.map _⟩
  refine hmap.trans (hread.subperm.trans ?_)
  exact (hperm.map _).subperm.trans (List.filter_sublist.map _).subperm

theorem lt_of_replaced {x : Insert} {t : Sql.Table} {node_id : Bytes}
    (hnew : (replacedDescriptions env x t node_id).isNew = true) {o : DataObject}
    (ho : o ∈ (replacedDescriptions env x t node_id).older) :
    o.createTime < x.dObj.createTime := by
  refine older_of_isNew _ (n := ⟨x.dObj, [], true⟩) (fun _ => ⟨rfl, ?_⟩) hnew o ho
  exact fun _ h => absurd h List.not_mem_nil

theorem truthfulStep_insert (h : WellFormed s.table) {x : Insert} (hop : TruthfulInsert env s x) :
    TruthfulStep s (insertDataObject env x s).1 := by
  by_cases hdesc : x.dObj.isNodeDesc = true
  swap
  · have hnode : nodeIdOf env x.dObj = some (lit "-") := by rw [nodeIdOf, if_neg hdesc]
    rw [insertDataObject, if_neg hdesc]
    exact grows_truthful h (grows_insertRow h hop.kept fun hi => hop.pastable hi _ hnode)
  rw [insertDataObject, if_pos hdesc]
  cases hd : env.describe x.dObj with
  | none =>
    simp only [deleteDataObjectNodeDescriptions, hd]
    exact truthfulStep_refl h
  | some node_id =>
    by_cases hsel : x.selects = true
    swap
    · simp only [deleteDataObjectNodeDescriptions, hd, if_neg hsel]
      exact truthfulStep_refl h
    have hcheck : deleteDataObjectNodeDescriptions env x s =
        (deleteAll x.deletes true (replacedDescriptions env x s.table node_id).older s,
          if (replacedDescriptions env x s.table node_id).isNew then some node_id else none) := by
      simp only [deleteDataObjectNodeDescriptions, hd, if_pos hsel]
      rfl
    have hreplaced := hop.replaced hdesc node_id hd
    have hother : ∀ o ∈ (replacedDescriptions env x s.table node_id).older,
        x.deletes o.id ≠ .other := by
      intro o ho
      obtain ⟨r, hr, hread⟩ := read_of_replaced ho
      exact (hreplaced r hr o hread).2.1
    have hids := ids_replaced fun r hr o ho => (hreplaced r hr o ho).1
    have hdeleted := wellFormed_deleteAll h x.deletes true
      (replacedDescriptions env x s.table node_id).older
    rw [hcheck]
    cases hnew : (replacedDescriptions env x s.table node_id).isNew with
    | false => exact truthfulStep_replace h _ _ hother hids (.inr rfl) (grows_refl hdeleted x.dObj.id)
    | true =>
      have hnode : nodeIdOf env x.dObj = some node_id := by rw [nodeIdOf, if_pos hdesc, hd]
      have hkept : x.dObj.persistent = true ∨
          ∀ r ∈ (deleteAll x.deletes true (replacedDescriptions env x s.table node_id).older
            s).table.rows, hasId x.dObj.id r = false := by
        refine hop.kept.imp_right fun hnone r hr => ?_
        by_contra hid
        have hmem := mem_ids_of_hasId hr (by simpa using hid)
        rw [ids_deleteAll] at hmem
        exact blob_notMem_ids hnone (List.mem_of_mem_filter hmem)
      refine truthfulStep_replace h _ _ hother hids (.inl fun o ho hid => ?_)
        (grows_insertRow hdeleted hkept fun hi => hop.pastable hi _ hnode)
      -- What is replaced is older, so it is not the object itself.
      obtain ⟨r, hr, hread⟩ := read_of_replaced ho
      exact absurd ((hreplaced r hr o hread).2.2 hid) (not_le_of_gt (lt_of_replaced hnew ho))

end Step

section Runs

variable {env : Environment} {l : Ledger}

/-- What holds in a run of reliable operations: the rows that are there and those that were removed
are all that was stored. -/
structure Balanced (l : Ledger) : Prop where
  wellFormed : WellFormed l.store.table
  reported : (reported l.store.posted).Perm l.removed
  stored : (ids l.store.table ++ l.removed).Perm l.stored

theorem balanced_emptyLedger : Balanced emptyLedger where
  wellFormed := ⟨rfl, rfl, List.nodup_nil⟩
  reported := List.Perm.refl _
  stored := List.Perm.refl _

theorem truthfulStep_of_reliable (h : WellFormed l.store.table) {op : Operation}
    (hop : Reliable env l op) : TruthfulStep l.store (perform env l.store op) := by
  cases op with
  | insert x => exact truthfulStep_insert h hop
  | deleteById fs d id keep => exact truthfulStep_deleteById h hop keep
  | delete d o keep => exact truthfulStep_delete h hop keep
  | age x => exact truthfulStep_age h hop

theorem balanced_step (h : Balanced l) {op : Operation} (hop : Reliable env l op) :
    Balanced (ledgerStep env l op) := by
  have hstep := truthfulStep_of_reliable h.wellFormed hop
  refine ⟨hstep.wellFormed, hstep.reported.trans (h.reported.append_left _), ?_⟩
  have hexchange := perm_exchange h.wellFormed.nodup hstep.wellFormed.nodup
  change (ids (perform env l.store op).table ++
    ((ids l.store.table).filter (· ∉ ids (perform env l.store op).table) ++ l.removed)).Perm
      ((ids (perform env l.store op).table).filter (· ∉ ids l.store.table) ++ l.stored)
  rw [← List.append_assoc]
  refine (hexchange.append_right _).trans ((List.perm_append_comm.append_right _).trans ?_)
  rw [List.append_assoc]
  exact h.stored.append_left _

theorem filterRemovals_sublist (posted : List (List DataObject × Bool)) :
    ((filterRemovals posted).map fun id => Sql.Value.blob id.1).Sublist (reported posted) := by
  induction posted with
  | nil => exact List.Sublist.refl _
  | cons e posted ih =>
    rw [filterRemovals, reported, List.flatMap_cons, List.flatMap_cons, List.map_append]
    refine List.Sublist.append ?_ ih
    rw [DataManager.removedObjects, List.map_map]
    exact List.filter_sublist.map _

theorem count_filterRemovals_le (posted : List (List DataObject × Bool)) (id : Digest) :
    (filterRemovals posted).count id ≤ (reported posted).count (.blob id.1) := by
  have hinj : Function.Injective fun id : Digest => Sql.Value.blob id.1 :=
    fun a b hab => Subtype.ext (Sql.Value.blob.inj hab)
  rw [← List.count_map_of_injective _ _ hinj]
  exact (filterRemovals_sublist posted).count_le _

theorem truthful_run {ops : List Operation}
    (h : Trace.Guarded (ledgerStep env) (Reliable env) emptyLedger ops) :
    Truthful (Trace.run (ledgerStep env) emptyLedger ops) := by
  have hbalanced : Balanced (Trace.run (ledgerStep env) emptyLedger ops) :=
    @Trace.invariant_of_guarded _ _ _ _ Balanced (fun l op hl hop => balanced_step hl hop) _ _
      balanced_emptyLedger h
  refine ⟨hbalanced.reported, fun id => ?_⟩
  calc (filterRemovals (Trace.run (ledgerStep env) emptyLedger ops).store.posted).count id
      ≤ (reported (Trace.run (ledgerStep env) emptyLedger ops).store.posted).count (.blob id.1) :=
        count_filterRemovals_le _ id
    _ = (Trace.run (ledgerStep env) emptyLedger ops).removed.count (.blob id.1) :=
        hbalanced.reported.count_eq _
    _ ≤ (ids (Trace.run (ledgerStep env) emptyLedger ops).store.table ++
          (Trace.run (ledgerStep env) emptyLedger ops).removed).count (.blob id.1) := by
        rw [List.count_append]
        omega
    _ = (Trace.run (ledgerStep env) emptyLedger ops).stored.count (.blob id.1) :=
        hbalanced.stored.count_eq _

end Runs

end ObjectStore

namespace Sample

open ObjectStore

/-- A node description is stored and deleted. -/
def storedAndDeleted : List Operation :=
  [.insert firstDescription.toInsert, .delete .done firstDescription.dObj true]

/-- It is deleted once more. -/
def deletedTwice : List Operation :=
  storedAndDeleted ++ [.delete .done firstDescription.dObj true]

theorem perform_firstDescription :
    perform describedStore emptyLedger.store (.insert firstDescription.toInsert) =
      firstDescribed.store := by
  have hstore : (describeStep describedStore noDescriptions firstDescription).store =
      firstDescribed.store := by rw [describeStep_firstDescription]
  have hempty : emptyLedger.store = noDescriptions.store := rfl
  rw [perform, hempty]
  exact hstore

theorem hasId_firstRow : StoredObject.hasId firstDescription.dObj.id firstRow = true :=
  StoredObject.hasId_objectRow _ _ _ _

theorem reliable_firstDescription :
    Reliable describedStore emptyLedger (.insert firstDescription.toInsert) where
  kept := .inl rfl
  pastable _ node_id hnode m _ := by
    obtain rfl : lit "ab" = node_id := Option.some.inj hnode
    exact pastable_firstDescription
  replaced _ _ _ _ hr := absurd hr List.not_mem_nil

theorem truthful_storedAndDeleted :
    Truthful (Trace.run (ledgerStep describedStore) emptyLedger storedAndDeleted) := by
  refine truthful_run ⟨reliable_firstDescription, .inr ⟨rfl, firstRow, ?_, hasId_firstRow⟩, trivial⟩
  change firstRow ∈ (perform describedStore emptyLedger.store
    (.insert firstDescription.toInsert)).table.rows
  rw [perform_firstDescription]
  exact List.mem_singleton_self _

/-- The second deletion is reported too, though there is no row. -/
theorem not_truthful_deletedTwice :
    ¬ Truthful (Trace.run (ledgerStep describedStore) emptyLedger deletedTwice) := by
  rintro ⟨hperm, -⟩
  have hdelete : ∀ s : Store, perform describedStore s (.delete .done firstDescription.dObj true) =
      Store.post { s with table := StoredObject.deleteRows s.table signedId }
        [firstDescription.dObj] true := fun _ => rfl
  have hids : ids firstDescribed.store.table = [.blob signedId.1] := rfl
  have hgone : ids (StoredObject.deleteRows firstDescribed.store.table signedId) = [] := by
    rw [ids_deleteRows, hids, List.filter_cons_of_neg (by simp), List.filter_nil]
  have hempty : ids emptyLedger.store.table = [] := rfl
  have hlength := hperm.length_eq
  simp only [deletedTwice, storedAndDeleted, List.cons_append, List.nil_append, Trace.run_cons,
    Trace.run_nil, ledgerStep, perform_firstDescription, hdelete, Store.post, hids, hgone, hempty,
    List.filter_nil] at hlength
  exact absurd hlength (by decide)

end Sample
end Haggle
