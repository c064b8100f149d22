import Haggle.ObjectStore

/-!
# Node descriptions in the data store

The data store is to hold one description of each node, the newest that was inserted. The older one
is removed before the new one is written, so it is lost if the new one cannot be written.
-/

namespace Haggle
namespace ObjectStore

open StoredObject

/-- The insertion of a node description. -/
structure Description extends Insert where
  isNodeDesc : dObj.isNodeDesc = true

/-- The data store with the descriptions that were inserted, each with its node. -/
structure Descriptions where
  store : Store
  inserted : List (Bytes × DataObject)

section Steps

variable (env : Environment)

def describeStep (l : Descriptions) (x : Description) : Descriptions where
  store := (insertDataObject env x.toInsert l.store).1
  inserted :=
    match env.describe x.dObj, (insertDataObject env x.toInsert l.store).2 with
    | some node_id, .new => (cStr node_id, x.dObj) :: l.inserted
    | _, _ => l.inserted

/-- An empty data store. -/
def noDescriptions : Descriptions := ⟨⟨emptyTable, []⟩, []⟩

/-- A node has at most one description, the newest that was inserted. -/
structure HoldsNewest (l : Descriptions) : Prop where
  atMostOne : ∀ node_id, (descriptionRows l.store.table node_id).length ≤ 1
  newest : ∀ node_id, ∀ r ∈ descriptionRows l.store.table node_id, ∃ o,
    (cStr node_id, o) ∈ l.inserted ∧ hasId o.id r = true ∧
      ∀ o', (cStr node_id, o') ∈ l.inserted → o'.createTime ≤ o.createTime
  present : ∀ node_id o, (cStr node_id, o) ∈ l.inserted →
    descriptionRows l.store.table node_id ≠ []

/-- All statements of an insertion that replaces a description are executed: the strings can be
pasted, the identifier is not that of another row, and the object stays in the data store. -/
structure Written (x : Insert) (node_id : Bytes) (t : Sql.Table) : Prop where
  inserts : x.inserts = .done
  linked : x.linked = true
  persistent : x.dObj.persistent = true
  pastable : ∃ m, x.dObj.toMetadata.metadata = some m ∧
    Pastable (m.getRawAlloc env.platform.lib) x.dObj { x.origin with nodeId := node_id }
  unique : ∀ r ∈ t.rows, hasId x.dObj.id r = true → r ∈ descriptionRows t node_id
  deletes : ∀ r ∈ descriptionRows t node_id, ∀ id, hasId id r = true → x.deletes id = .done

/-- The stored description of the node can be read as it was inserted; and if the new one is newer, it
can be written, or it is the first of its node and the statement has an error. -/
structure Replaceable (l : Descriptions) (x : Description) : Prop where
  reads : ∀ node_id, env.describe x.dObj = some node_id →
    ∀ r ∈ descriptionRows l.store.table node_id, ∃ o, read env x.files r = some o ∧
      ∀ o', (cStr node_id, o') ∈ l.inserted → hasId o'.id r = true →
        o.id = o'.id ∧ o.createTime = o'.createTime
  writes : ∀ node_id, env.describe x.dObj = some node_id → x.selects = true →
    (∀ o, (cStr node_id, o) ∈ l.inserted → o.createTime < x.dObj.createTime) →
      Written env x.toInsert node_id l.store.table ∨
        descriptionRows l.store.table node_id = [] ∧ x.inserts = .error

end Steps

section Rows

variable {t : Sql.Table} {id : Digest}

theorem hasId_inj {a b : Digest} {r : Sql.Row} (ha : hasId a r = true) (hb : hasId b r = true) :
    a = b := by
  rw [hasId, decide_eq_true_eq] at ha hb
  have hab := ha.symm.trans hb
  rw [Sql.Value.blob.injEq] at hab
  exact Subtype.ext hab

/-- No identifier is in two rows. -/
def UniqueIds (t : Sql.Table) : Prop := ∀ id, (t.rows.filter (hasId id)).length ≤ 1

theorem eq_of_length_le_one {α : Type} {l : List α} (h : l.length ≤ 1) {a b : α} (ha : a ∈ l)
    (hb : b ∈ l) : a = b := by
  match l, h with
  | [c], _ => rw [List.mem_singleton.mp ha, List.mem_singleton.mp hb]

theorem UniqueIds.eq_of_hasId (h : UniqueIds t) {r r' : Sql.Row} (hr : r ∈ t.rows)
    (hr' : r' ∈ t.rows) (hid : hasId id r = true) (hid' : hasId id r' = true) : r = r' :=
  eq_of_length_le_one (h id) (List.mem_filter.mpr ⟨hr, hid⟩) (List.mem_filter.mpr ⟨hr', hid'⟩)

theorem uniqueIds_deleteRows (h : UniqueIds t) (id : Digest) : UniqueIds (deleteRows t id) := by
  intro id'
  refine le_trans (List.Sublist.length_le ?_) (h id')
  exact (List.filter_sublist.filter (hasId id'))

theorem uniqueIds_append (h : UniqueIds t) {r : Sql.Row} {rowid : ℕ} (hr : hasId id r = true)
    (hnew : ∀ r' ∈ t.rows, hasId id r' = false) :
    UniqueIds { t with rows := t.rows ++ [r], rowid := rowid } := by
  intro id'
  change ((t.rows ++ [r]).filter (hasId id')).length ≤ 1
  rw [List.filter_append]
  by_cases hid : hasId id' r = true
  · have hnil : t.rows.filter (hasId id') = [] := by
      rw [List.filter_eq_nil_iff]
      intro r' hr'
      rw [hasId_inj hid hr, hnew r' hr']
      exact Bool.false_ne_true
    rw [hnil, List.nil_append]
    exact List.length_filter_le _ [r]
  · rw [List.filter_cons_of_neg hid, List.filter_nil, List.append_nil]
    exact h id'

/-- The descriptions of a node behind a deletion. -/
theorem descriptionRows_deleteRows (t : Sql.Table) (id : Digest) (node_id : Bytes) :
    descriptionRows (deleteRows t id) node_id =
      (descriptionRows t node_id).filter fun r => !hasId id r := by
  rw [descriptionRows, descriptionRows, deleteRows, List.filter_filter, List.filter_filter]
  exact List.filter_congr fun r _ => Bool.and_comm _ _

theorem mem_rows_of_description {node_id : Bytes} {r : Sql.Row}
    (hr : r ∈ descriptionRows t node_id) : r ∈ t.rows := (List.mem_filter.mp hr).1

theorem cStr_eq_of_description {a b : Bytes} {r : Sql.Row} (ha : r ∈ descriptionRows t a)
    (hb : r ∈ descriptionRows t b) : cStr a = cStr b := by
  have hva := (List.mem_filter.mp ha).2
  have hvb := (List.mem_filter.mp hb).2
  rw [decide_eq_true_eq] at hva hvb
  have hab := hva.symm.trans hvb
  rwa [Sql.Value.text.injEq] at hab

theorem descriptionRows_append (t : Sql.Table) (n rowid : ℕ) (raw : Bytes) (o : DataObject)
    (i : Origin) (node_id : Bytes) :
    descriptionRows { t with rows := t.rows ++ [objectRow n raw o i], rowid := rowid } node_id =
      descriptionRows t node_id ++
        if cStr i.nodeId = cStr node_id then [objectRow n raw o i] else [] := by
  have hvalue : Sql.Row.value (objectRow n raw o i) (lit "node_id") = .text (cStr i.nodeId) := rfl
  rw [descriptionRows, descriptionRows, List.filter_append]
  congr 1
  by_cases hid : cStr i.nodeId = cStr node_id
  · simp [hvalue, hid]
  · simp [hvalue, hid]

end Rows

section Replace

variable {env : Environment} {x : Insert} {s : Store} {node_id : Bytes} {r : Sql.Row}
  {o : DataObject}

theorem newestDescription_first (hd : env.describe x.dObj = some node_id)
    (hsel : x.selects = true) (hrows : descriptionRows s.table node_id = []) :
    deleteDataObjectNodeDescriptions env x s = (s, some node_id) := by
  simp only [deleteDataObjectNodeDescriptions, hd, hsel, if_true, hrows]
  rfl

/-- The only description of the node is older. -/
theorem newestDescription_older (hd : env.describe x.dObj = some node_id)
    (hsel : x.selects = true) (hrows : descriptionRows s.table node_id = [r])
    (hread : read env x.files r = some o) (hlt : o.createTime < x.dObj.createTime)
    (hdel : x.deletes o.id = .done) :
    deleteDataObjectNodeDescriptions env x s =
      (Store.post { s with table := deleteRows s.table o.id } [o] false, some node_id) := by
  have hsort : Relational.orderByDesc (fun r => [some (columnInt r (lit "createtime"))]) [r] =
      [r] := rfl
  simp only [deleteDataObjectNodeDescriptions, hd, hsel, if_true, hrows, hsort,
    List.filterMap_cons, hread, List.filterMap_nil, List.foldl_cons, List.foldl_nil, newestStep,
    hlt, List.nil_append, deleteAll, deleteDataObject, deleteRow, hdel, Bool.and_self]

/-- The only description of the node is not older. -/
theorem newestDescription_newer (hd : env.describe x.dObj = some node_id)
    (hsel : x.selects = true) (hrows : descriptionRows s.table node_id = [r])
    (hread : read env x.files r = some o) (hlt : ¬o.createTime < x.dObj.createTime) :
    deleteDataObjectNodeDescriptions env x s = (s, none) := by
  have hsort : Relational.orderByDesc (fun r => [some (columnInt r (lit "createtime"))]) [r] =
      [r] := rfl
  simp only [deleteDataObjectNodeDescriptions, hd, hsel, if_true, hrows, hsort,
    List.filterMap_cons, hread, List.filterMap_nil, List.foldl_cons, List.foldl_nil, newestStep,
    hlt, if_false, ne_eq, not_true_eq_false, deleteAll, Bool.false_eq_true]

variable {t : Sql.Table}

theorem insertRow_eq {m : Metadata} (hinserts : x.inserts = .done) (hlinked : x.linked = true)
    (hpersist : x.dObj.persistent = true) (hm : x.dObj.toMetadata.metadata = some m)
    (hp : Pastable (m.getRawAlloc env.platform.lib) x.dObj { x.origin with nodeId := node_id })
    (hname : s.table.name = emptyTable.name) (hcols : s.table.columns = emptyTable.columns)
    (hnew : ∀ r ∈ s.table.rows, hasId x.dObj.id r = false) :
    insertRow env x node_id s = ({ s with table := { s.table with
      rows := s.table.rows ++ [objectRow s.table.rowid (m.getRawAlloc env.platform.lib) x.dObj
        { x.origin with nodeId := node_id }]
      rowid := s.table.rowid + 1 } }, .new) := by
  have hstore := storeRow_eq env.beyond hm hp hname hcols
  have hany : s.table.rows.any (hasId x.dObj.id) = false := by simpa using hnew
  simp only [insertRow, hinserts, StoredObject.insertDataObject, hstore, hany, Bool.false_eq_true,
    if_false, linkRow, hlinked, if_true, hpersist]

theorem insertRow_written (hname : s.table.name = emptyTable.name)
    (hcols : s.table.columns = emptyTable.columns) (h : Written env x node_id t)
    (hnew : ∀ r ∈ s.table.rows, hasId x.dObj.id r = false) :
    ∃ raw, insertRow env x node_id s = ({ s with table := { s.table with
      rows := s.table.rows ++
        [objectRow s.table.rowid raw x.dObj { x.origin with nodeId := node_id }]
      rowid := s.table.rowid + 1 } }, .new) := by
  obtain ⟨m, hm, hp⟩ := h.pastable
  exact ⟨_, insertRow_eq h.inserts h.linked h.persistent hm hp hname hcols hnew⟩

end Replace

section Runs

variable {env : Environment} {l : Descriptions} {x : Description}

/-- What holds of the data store in a run of insertions that can be written. -/
structure Orderly (l : Descriptions) : Prop where
  name : l.store.table.name = emptyTable.name
  columns : l.store.table.columns = emptyTable.columns
  unique : UniqueIds l.store.table
  newest : HoldsNewest l

theorem orderly_noDescriptions : Orderly noDescriptions where
  name := rfl
  columns := rfl
  unique _ := Nat.zero_le _
  newest := ⟨fun _ => Nat.zero_le _, fun _ _ hr => absurd hr List.not_mem_nil,
    fun _ _ ho => absurd ho List.not_mem_nil⟩

/-- A description is appended to rows that have none of its node. -/
theorem Orderly.append {t : Sql.Table} {posted : List (List DataObject × Bool)} {node_id : Bytes}
    {raw : Bytes} {o : DataObject} {i : Origin} (hname : t.name = emptyTable.name)
    (hcols : t.columns = emptyTable.columns) (hunique : UniqueIds t)
    (hnew : ∀ r ∈ t.rows, hasId o.id r = false) (hnone : descriptionRows t node_id = [])
    (hothers : ∀ b, cStr b ≠ cStr node_id →
      descriptionRows t b = descriptionRows l.store.table b) (h : Orderly l)
    (hmax : ∀ o', (cStr node_id, o') ∈ l.inserted → o'.createTime ≤ o.createTime)
    (hi : i.nodeId = node_id) :
    Orderly ⟨⟨{ t with rows := t.rows ++ [objectRow t.rowid raw o i], rowid := t.rowid + 1 },
      posted⟩, (cStr node_id, o) :: l.inserted⟩ := by
  have hid : hasId o.id (objectRow t.rowid raw o i) = true := hasId_objectRow _ _ _ _
  have hrows : ∀ b, descriptionRows { t with
      rows := t.rows ++ [objectRow t.rowid raw o i], rowid := t.rowid + 1 } b =
        if cStr b = cStr node_id then [objectRow t.rowid raw o i]
        else descriptionRows l.store.table b := by
    intro b
    rw [descriptionRows_append, hi]
    by_cases hb : cStr b = cStr node_id
    · have hsame : descriptionRows t b = descriptionRows t node_id := by
        rw [descriptionRows, descriptionRows, hb]
      rw [if_pos hb.symm, if_pos hb, hsame, hnone, List.nil_append]
    · rw [if_neg (Ne.symm hb), if_neg hb, List.append_nil, hothers b hb]
  refine ⟨hname, hcols, uniqueIds_append hunique hid hnew, ?_, ?_, ?_⟩
  · intro b
    rw [hrows]
    split_ifs
    · exact le_refl 1
    · exact h.newest.atMostOne b
  · intro b r hr
    rw [hrows] at hr
    split_ifs at hr with hb
    · rw [List.mem_singleton.mp hr, hb]
      refine ⟨o, List.mem_cons_self, hid, fun o' ho' => ?_⟩
      rcases List.mem_cons.mp ho' with ho' | ho'
      · rw [(Prod.mk.inj ho').2]
      · exact hmax o' ho'
    · obtain ⟨o₀, ho₀, hid₀, hmax₀⟩ := h.newest.newest b r hr
      refine ⟨o₀, List.mem_cons_of_mem _ ho₀, hid₀, fun o' ho' => ?_⟩
      rcases List.mem_cons.mp ho' with ho' | ho'
      · exact absurd (Prod.mk.inj ho').1 hb
      · exact hmax₀ o' ho'
  · intro b o' ho'
    rw [hrows]
    split_ifs with hb
    · exact List.cons_ne_nil _ _
    · rcases List.mem_cons.mp ho' with ho' | ho'
      · exact absurd (Prod.mk.inj ho').1 hb
      · exact h.newest.present b o' ho'

theorem insertDescription_rejected {s s' : Store} (hx : x.dObj.isNodeDesc = true)
    (h : deleteDataObjectNodeDescriptions env x.toInsert s = (s', none)) :
    insertDataObject env x.toInsert s = (s', .failed) := by
  simp only [insertDataObject, hx, if_true, h]

theorem insertDescription_accepted {s s' : Store} {node_id : Bytes}
    (hx : x.dObj.isNodeDesc = true)
    (h : deleteDataObjectNodeDescriptions env x.toInsert s = (s', some node_id)) :
    insertDataObject env x.toInsert s = insertRow env x.toInsert node_id s' := by
  simp only [insertDataObject, hx, if_true, h]

/-- What becomes of an insertion: it fails and leaves the table as it is, or the description is
there, and it is the newest. -/
def Settled (env : Environment) (l : Descriptions) (x : Description) : Prop :=
  ((insertDataObject env x.toInsert l.store).2 = .failed ∧
    (insertDataObject env x.toInsert l.store).1.table = l.store.table) ∨
  ((insertDataObject env x.toInsert l.store).2 = .new ∧ Orderly (describeStep env l x))

theorem settled_of_rejected
    (h : deleteDataObjectNodeDescriptions env x.toInsert l.store = (l.store, none)) :
    Settled env l x := by
  rw [Settled, insertDescription_rejected x.isNodeDesc h]
  exact .inl ⟨rfl, rfl⟩

/-- The description is the first of its node. -/
theorem settled_first (h : Orderly l) (hx : Replaceable env l x) {node_id : Bytes}
    (hd : env.describe x.dObj = some node_id) (hsel : x.selects = true)
    (hrows : descriptionRows l.store.table node_id = []) : Settled env l x := by
  have hinsert := insertDescription_accepted x.isNodeDesc (newestDescription_first hd hsel hrows)
  have hnone : ∀ o, (cStr node_id, o) ∉ l.inserted :=
    fun o ho => h.newest.present node_id o ho hrows
  rcases hx.writes node_id hd hsel fun o ho => absurd ho (hnone o) with hw | ⟨-, herr⟩
  · have hnew : ∀ r ∈ l.store.table.rows, hasId x.dObj.id r = false := by
      intro r hr
      by_contra hid
      have hmem := hw.unique r hr (by simpa using hid)
      rw [hrows] at hmem
      exact absurd hmem List.not_mem_nil
    obtain ⟨raw, hrow⟩ := insertRow_written h.name h.columns hw hnew
    rw [hrow] at hinsert
    refine .inr ⟨by rw [hinsert], ?_⟩
    simp only [describeStep, hinsert, hd]
    exact Orderly.append h.name h.columns h.unique hnew hrows (fun _ _ => rfl) h
      (fun o' ho' => absurd ho' (hnone o')) rfl
  · have hrow : insertRow env x.toInsert node_id l.store = (l.store, .failed) := by
      simp only [insertRow, herr]
    rw [Settled, hinsert, hrow]
    exact .inl ⟨rfl, rfl⟩

/-- The description takes the place of an older one: behind the deletion there is no row of the node,
and none with the identifier of the new one. -/
theorem settled_older (h : Orderly l) {node_id : Bytes}
    (hd : env.describe x.dObj = some node_id) (hsel : x.selects = true) {r : Sql.Row}
    (hone : descriptionRows l.store.table node_id = [r]) {o : DataObject}
    (hread : read env x.files r = some o) (hlt : o.createTime < x.dObj.createTime)
    (hrid : hasId o.id r = true)
    (hnewer : ∀ o', (cStr node_id, o') ∈ l.inserted → o'.createTime < x.dObj.createTime)
    (hw : Written env x.toInsert node_id l.store.table) : Settled env l x := by
  have hr : r ∈ descriptionRows l.store.table node_id := by
    rw [hone]
    exact List.mem_singleton_self r
  have hinsert := insertDescription_accepted x.isNodeDesc
    (newestDescription_older hd hsel hone hread hlt (hw.deletes r hr o.id hrid))
  have hgone : descriptionRows (deleteRows l.store.table o.id) node_id = [] := by
    rw [descriptionRows_deleteRows, hone, List.filter_cons_of_neg (by simp [hrid]),
      List.filter_nil]
  have hnew : ∀ r' ∈ (deleteRows l.store.table o.id).rows, hasId x.dObj.id r' = false := by
    intro r' hr'
    obtain ⟨hr'mem, hr'id⟩ := List.mem_filter.mp hr'
    by_contra hid
    have hmem := hw.unique r' hr'mem (by simpa using hid)
    rw [hone] at hmem
    rw [List.mem_singleton.mp hmem, hrid] at hr'id
    exact absurd hr'id Bool.false_ne_true
  have hothers : ∀ b, cStr b ≠ cStr node_id → descriptionRows (deleteRows l.store.table o.id) b =
      descriptionRows l.store.table b := by
    intro b hb
    rw [descriptionRows_deleteRows, List.filter_eq_self]
    intro r' hr'
    by_contra hid
    have heq := h.unique.eq_of_hasId (mem_rows_of_description hr) (mem_rows_of_description hr')
      hrid (by simpa using hid)
    exact hb (cStr_eq_of_description hr' (heq ▸ hr))
  obtain ⟨raw, hrow⟩ := insertRow_written
    (s := Store.post { l.store with table := deleteRows l.store.table o.id } [o] false)
    h.name h.columns hw hnew
  have hdone := hinsert.trans hrow
  refine .inr ⟨by rw [hdone], ?_⟩
  simp only [describeStep, hdone, hd]
  exact Orderly.append h.name h.columns (uniqueIds_deleteRows h.unique o.id) hnew hgone hothers h
    (fun o' ho' => le_of_lt (hnewer o' ho')) rfl

theorem settled_of_replaceable (h : Orderly l) (hx : Replaceable env l x) : Settled env l x := by
  cases hd : env.describe x.dObj with
  | none =>
    exact settled_of_rejected (by simp only [deleteDataObjectNodeDescriptions, hd])
  | some node_id =>
    by_cases hsel : x.selects = true
    swap
    · exact settled_of_rejected (by
        simp only [deleteDataObjectNodeDescriptions, hd, if_neg hsel])
    cases hrows : descriptionRows l.store.table node_id with
    | nil => exact settled_first h hx hd hsel hrows
    | cons r rows =>
      have hone : descriptionRows l.store.table node_id = [r] := by
        have hlen := h.newest.atMostOne node_id
        rw [hrows, List.length_cons] at hlen
        rw [hrows, List.length_eq_zero_iff.mp (by omega : rows.length = 0)]
      have hr : r ∈ descriptionRows l.store.table node_id := by
        rw [hone]
        exact List.mem_singleton_self r
      obtain ⟨p, hp, hpid, hpmax⟩ := h.newest.newest node_id r hr
      obtain ⟨o, hread, hsame⟩ := hx.reads node_id hd r hr
      obtain ⟨hoid, hotime⟩ := hsame p hp hpid
      by_cases hlt : o.createTime < x.dObj.createTime
      · have hnewer : ∀ o', (cStr node_id, o') ∈ l.inserted →
            o'.createTime < x.dObj.createTime :=
          fun o' ho' => lt_of_le_of_lt (hotime ▸ hpmax o' ho') hlt
        rcases hx.writes node_id hd hsel hnewer with hw | ⟨hnil, -⟩
        · exact settled_older h hd hsel hone hread hlt (by rwa [hoid]) hnewer hw
        · rw [hrows] at hnil
          exact absurd hnil (List.cons_ne_nil r rows)
      · exact settled_of_rejected (newestDescription_newer hd hsel hone hread hlt)

theorem Orderly.congr {l' : Descriptions} (h : Orderly l) (htable : l'.store.table = l.store.table)
    (hinserted : l'.inserted = l.inserted) : Orderly l' := by
  obtain ⟨⟨t, posted⟩, inserted⟩ := l'
  obtain rfl : t = l.store.table := htable
  obtain rfl : inserted = l.inserted := hinserted
  exact ⟨h.name, h.columns, h.unique, h.newest.atMostOne, h.newest.newest, h.newest.present⟩

theorem orderly_step (h : Orderly l) (hx : Replaceable env l x) :
    Orderly (describeStep env l x) := by
  rcases settled_of_replaceable h hx with ⟨hfailed, htable⟩ | ⟨-, hnew⟩
  · refine h.congr htable ?_
    simp only [describeStep, hfailed]
    split
    · contradiction
    · rfl
  · exact hnew

/-- What the data store is to do with a sequence of descriptions: it holds the newest of each node
behind every insertion, and one that fails takes nothing away. -/
def KeepsNewest (env : Environment) (xs : List Description) : Prop :=
  ∀ pre, pre <+: xs → HoldsNewest (Trace.run (describeStep env) noDescriptions pre) ∧
    ∀ x, pre ++ [x] <+: xs →
      (insertDataObject env x.toInsert
        (Trace.run (describeStep env) noDescriptions pre).store).2 ≠ .new →
      ∀ r ∈ (Trace.run (describeStep env) noDescriptions pre).store.table.rows,
        r ∈ (insertDataObject env x.toInsert
          (Trace.run (describeStep env) noDescriptions pre).store).1.table.rows

theorem keepsNewest_run {xs : List Description}
    (h : Trace.Guarded (describeStep env) (Replaceable env) noDescriptions xs) :
    KeepsNewest env xs := by
  intro pre hpre
  have horderly : ∀ pre, pre <+: xs →
      Orderly (Trace.run (describeStep env) noDescriptions pre) := by
    rintro pre ⟨post, rfl⟩
    exact Trace.invariant_of_guarded (fun l x hl hx => orderly_step hl hx)
      orderly_noDescriptions (Trace.guarded_append.mp h).1
  refine ⟨(horderly pre hpre).newest, fun x hx hfailed r hr => ?_⟩
  obtain ⟨post, rfl⟩ := hx
  rw [List.append_assoc, Trace.guarded_append] at h
  rcases settled_of_replaceable (horderly pre hpre) h.2.1 with ⟨-, htable⟩ | ⟨hnew, -⟩
  · rwa [htable]
  · exact absurd hnew hfailed

end Runs

end ObjectStore

namespace Sample

open StoredObject ObjectStore

def describedStore : ObjectStore.Environment where
  beyond _ _ _ := none
  platform := storePlatform
  storagepath := lit "/s"
  hash := digest.1
  describe _ := some (lit "ab")

/-- A description of the node, with the signer that it names. -/
def description (signee : Bytes) (id : Digest) (t : Timeval) : Description where
  dObj := { DataObject.new (lit "/s") digest.1 with
    signatureStatus := .unverified
    signee := signee
    signature := some [1]
    metadata := some (.new (lit "Haggle") [])
    createTime := t
    isNodeDesc := true
    id := id }
  origin := origin
  files := emptyDisk
  selects := true
  deletes _ := .done
  inserts := .done
  linked := true
  isNodeDesc := rfl

/-- The identifier of the document that is read back. -/
def signedId : Digest := ⟨[97, 118, 0, 0, 0, 1, 55, 46, 48, 48, 48, 48, 48, 48, 0, 0, 0, 0, 0, 0], rfl⟩

def firstDescription : Description := description (lit "n") signedId ⟨7, 0⟩

def secondDescription : Description := description (lit "n") digest ⟨8, 0⟩

def firstRow : Sql.Row :=
  objectRow 1 signedRaw firstDescription.dObj { origin with nodeId := lit "ab" }

def firstDescribed : Descriptions :=
  ⟨⟨{ emptyTable with rows := [firstRow], rowid := 2 }, []⟩,
    [(cStr (lit "ab"), firstDescription.dObj)]⟩

theorem pastable_firstDescription :
    Pastable signedRaw firstDescription.dObj { origin with nodeId := lit "ab" } :=
  pastable_signedRaw ⟨by decide, by decide, by decide, by
    rw [List.length_append, length_insertHead]
    decide⟩

theorem pastable_secondDescription :
    Pastable signedRaw secondDescription.dObj { origin with nodeId := lit "ab" } :=
  pastable_signedRaw ⟨by decide, by decide, by decide, by
    rw [List.length_append, length_insertHead]
    decide⟩

theorem metadata_description (signee : Bytes) (id : Digest) (t : Timeval) :
    ∃ m, (description signee id t).dObj.toMetadata.metadata = some m := ⟨_, rfl⟩

theorem written_description {id : Digest} {t : Timeval} {table : Sql.Table}
    (hp : Pastable signedRaw (description (lit "n") id t).dObj { origin with nodeId := lit "ab" })
    (hunique : ∀ r ∈ table.rows, hasId id r = true → r ∈ descriptionRows table (lit "ab")) :
    Written describedStore (description (lit "n") id t).toInsert (lit "ab") table := by
  obtain ⟨m, hm⟩ := metadata_description (lit "n") id t
  exact ⟨rfl, rfl, rfl, ⟨m, hm, hp⟩, hunique, fun _ _ _ _ => rfl⟩

theorem describeStep_firstDescription :
    describeStep describedStore noDescriptions firstDescription = firstDescribed := by
  obtain ⟨m, hm⟩ := metadata_description (lit "n") signedId ⟨7, 0⟩
  have hd : describedStore.describe firstDescription.dObj = some (lit "ab") := rfl
  have hinsert := insertDescription_accepted firstDescription.isNodeDesc
    (newestDescription_first (s := noDescriptions.store) hd rfl rfl)
  have hrow : insertRow describedStore firstDescription.toInsert (lit "ab")
      noDescriptions.store = _ := insertRow_eq rfl rfl rfl hm pastable_firstDescription rfl rfl
    (fun _ hr => absurd hr List.not_mem_nil)
  simp only [describeStep, hinsert.trans hrow, hd]
  rfl

theorem replaceable_firstDescription :
    Replaceable describedStore noDescriptions firstDescription where
  reads _ _ _ hr := absurd hr List.not_mem_nil
  writes node_id hd _ _ := by
    obtain rfl : lit "ab" = node_id := Option.some.inj hd
    exact .inl (written_description pastable_firstDescription fun _ hr =>
      absurd hr List.not_mem_nil)

theorem read_firstRow : (read describedStore emptyDisk firstRow).map
    (fun o => (o.id, o.createTime)) = some (signedId, ⟨7, 0⟩) := by decide +kernel

theorem replaceable_secondDescription :
    Replaceable describedStore firstDescribed secondDescription where
  reads node_id hd r hr := by
    rw [List.mem_singleton.mp (mem_rows_of_description hr)]
    obtain ⟨o, hread, ho⟩ := Option.map_eq_some_iff.mp read_firstRow
    refine ⟨o, hread, fun o' ho' _ => ?_⟩
    rw [(Prod.mk.inj (List.mem_singleton.mp ho')).2]
    exact Prod.mk.inj ho
  writes node_id hd _ _ := by
    obtain rfl : lit "ab" = node_id := Option.some.inj hd
    have hid : hasId digest firstRow = false := rfl
    refine .inl (written_description pastable_secondDescription fun r hr hr' => ?_)
    rw [List.mem_singleton.mp hr, hid] at hr'
    exact absurd hr' Bool.false_ne_true

/-- The newer of two descriptions takes the place of the older one. -/
theorem keepsNewest_two :
    KeepsNewest describedStore [firstDescription, secondDescription] := by
  refine keepsNewest_run ⟨replaceable_firstDescription, ?_, trivial⟩
  rw [describeStep_firstDescription]
  exact replaceable_secondDescription

/-- The name of a signer with an apostrophe: the description cannot be written, and the older one is
gone. -/
theorem not_keepsNewest : ¬ KeepsNewest describedStore
    [firstDescription, description (lit "O'B") digest ⟨8, 0⟩] := by
  intro h
  have hkeeps := (h [firstDescription] ⟨_, rfl⟩).2 (description (lit "O'B") digest ⟨8, 0⟩) ⟨[], rfl⟩
  rw [Trace.run_cons, Trace.run_nil, describeStep_firstDescription] at hkeeps
  have hafter : (insertDataObject describedStore (description (lit "O'B") digest ⟨8, 0⟩).toInsert
      firstDescribed.store).2 = .failed ∧
      (insertDataObject describedStore (description (lit "O'B") digest ⟨8, 0⟩).toInsert
        firstDescribed.store).1.table.rows = [] := by decide +kernel
  have hmem := hkeeps (by rw [hafter.1]; decide) firstRow (List.mem_singleton_self _)
  rw [hafter.2] at hmem
  exact absurd hmem List.not_mem_nil

end Sample
end Haggle
