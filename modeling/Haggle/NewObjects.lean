import Haggle.DeletionEvents
import Haggle.EventLog
import Haggle.Verification

/-!
# Events of new data objects

A data object that has passed its verification is inserted by a task of the data store, and the
callback of the task posts `EVENT_TYPE_DATAOBJECT_NEW` unless the object turned out to be a
duplicate. The copies of an object come in any order, their tasks are carried out in any order, and
rows are deleted meanwhile. Two events of one object have a deletion of its row between them, unless
a statement fails with a code that is not taken to be an error, or a row is deleted before its
callback.
-/

namespace Haggle
namespace NewObjects

open ObjectStore

/-- What is recorded: an event that was posted, and a row that was deleted. -/
inductive Entry
  | new (id : Digest)
  | deleted (id : Sql.Value)
deriving DecidableEq

/-- The objects on their way into the data store, those whose tasks were carried out, and the
callbacks that are pending with the mark that their object is a duplicate. The last entry of the log
comes first. -/
structure State where
  verification : Verification
  store : Store
  taken : List ℕ
  callbacks : List (DataObject × Bool)
  log : List Entry

section Handlers

variable (sha1 : Bytes → Digest) (env : Environment)

/-- The callback of a task of `handleVerifiedDataObject`. There is none for an object that is not
persistent. -/
def callbackOf (o : DataObject) : StoredObject.Insertion → List (DataObject × Bool)
  | .failed => []
  | .duplicate => if o.persistent then [(o, true)] else []
  | .new => if o.persistent then [(o, false)] else []

def deletions (s s' : Store) : List Entry :=
  ((ids s.table).filter (· ∉ ids s'.table)).map .deleted

/-- The data store without the older descriptions of the same node. -/
def replaced (x : Insert) (s : Store) : Store :=
  if x.dObj.isNodeDesc then (deleteDataObjectNodeDescriptions env x s).1 else s

/-- A change of the data store, with its deletions. -/
def State.change (s : State) (store : Store) : State :=
  { s with store := store, log := deletions s.store store ++ s.log }

/-- A task of the data store for an object. -/
def insertTask (s : State) (i : ℕ) (x : Insert) (o : DataObject) : State :=
  let x := { x with dObj := o }
  let r := insertDataObject env x s.store
  let s := (s.change (replaced env x s.store)).change r.1
  { s with taken := i :: s.taken, callbacks := s.callbacks ++ callbackOf o r.2 }

def onInsertedDataObject (s : State) (o : DataObject) (duplicate : Bool) : State :=
  if duplicate then s else { s with log := .new o.id :: s.log }

/-- A change of the data manager and its filter. -/
def State.manage (s : State) (f : DataManager → DataManager) : State :=
  { s with verification := { s.verification with dm := f s.verification.dm } }

/-- What happens: to the objects before the data store, with those of the startup file, which have
no INCOMING event; to the filter; to the table without a callback; and the tasks and callbacks. -/
inductive Act
  | verification (act : Verification.Action)
  | startup (o : DataObject)
  | deletedEvent (os : List DataObject) (keep : Bool)
  | config (shape : Option FilterShape)
  | repository (bf : CountingBloomfilter)
  | store (op : Operation)
  | insert (i : ℕ) (x : Insert)
  | inserted (position : ℕ)

def step (s : State) : Act → State
  | .verification act => { s with verification := s.verification.step sha1 act }
  | .startup o => { s with verification := { s.verification with
      arrivals := s.verification.arrivals ++ [⟨o, .received false⟩] } }
  | .deletedEvent os keep => s.manage fun dm => dm.onDeletedDataObject sha1 os keep
  | .config shape => s.manage fun dm => dm.onConfig shape
  | .repository bf => s.manage fun dm => dm.onGetLocalBF bf
  | .store op => s.change (perform env s.store op)
  | .insert i x =>
    match s.verification.arrivals[i]? with
    | none => s
    | some a => if a.stage = .inserted ∧ i ∉ s.taken then insertTask env s i x a.obj else s
  | .inserted position =>
    match s.callbacks[position]? with
    | none => s
    | some c => onInsertedDataObject { s with callbacks := s.callbacks.eraseIdx position } c.1 c.2

def start (level : SecurityLevel) (dm : DataManager) : State :=
  ⟨Verification.start level dm, emptyLedger.store, [], [], []⟩

/-- The event that an object is new is posted at most once between two deletions of its row. -/
def Unique (s : State) : Prop :=
  ∀ id : Digest, EventLog.Separated (.new id) (.deleted (.blob id.1)) s.log

/-- The objects whose callbacks will post an event. -/
def State.pending (s : State) : List Digest :=
  (s.callbacks.filter fun c => !c.2).map fun c => c.1.id

/-- The strings of an object, with the identifier of its node, can be pasted into the statement. -/
def PastedAt (x : Insert) (node_id : Bytes) : Prop :=
  x.inserts = .done → ∀ m, x.dObj.toMetadata.metadata = some m →
    StoredObject.Pastable (m.getRawAlloc env.platform.lib) x.dObj
      { x.origin with nodeId := node_id }

def Pasted (x : Insert) : Prop :=
  ∀ node_id, nodeIdOf env x.dObj = some node_id → PastedAt env x node_id

/-- An insertion that deletes no row whose callback is pending. -/
structure Spares (s : State) (x : Insert) : Prop where
  replaced : x.dObj.isNodeDesc = true → ∀ node_id, env.describe x.dObj = some node_id →
    ∀ r ∈ descriptionRows s.store.table node_id, ∀ o, read env x.files r = some o →
      o.id ∉ s.pending
  kept : x.dObj.persistent = true ∨ x.dObj.id ∉ s.pending

/-- The statement of an insertion that has a callback ends with a code that is known, and no row is
deleted while its callback is pending. -/
def Prompt (s : State) : Act → Prop
  | .insert i x => ∀ a, s.verification.arrivals[i]? = some a →
      Pasted env { x with dObj := a.obj } ∧ Spares env s { x with dObj := a.obj } ∧
        (a.obj.persistent = true → x.inserts ≠ .other)
  | .store (.insert x) => Pasted env x ∧ Spares env s x
  | .store (.deleteById _ _ id _) => id ∉ s.pending
  | .store (.delete _ o _) => o.id ∉ s.pending
  | .store (.age x) => ∀ r ∈ s.store.table.rows, x.old r = true → ∀ o,
      read env x.files r = some o → o.id ∉ s.pending
  | _ => True

end Handlers

section Insertions

variable {env : Environment} {s : Store} {x : Insert} {node_id : Bytes}

/-- An insertion adds a row at most, behind the deletion of the same object if that does not stay.
-/
theorem grows_of_insertRow (h : WellFormed s.table) (hp : PastedAt env x node_id) :
    Grows s (insertRow env x node_id s).1 x.dObj.id ∨ x.dObj.persistent = false ∧
      Grows { s with table := StoredObject.deleteRows s.table x.dObj.id }
        (insertRow env x node_id s).1 x.dObj.id := by
  by_cases hkept : x.dObj.persistent = true ∨
      ∀ r ∈ s.table.rows, StoredObject.hasId x.dObj.id r = false
  · exact .inl (grows_insertRow h hkept hp)
  rw [not_or, Bool.not_eq_true] at hkept
  obtain ⟨hpersist, hthere⟩ := hkept
  have hany : s.table.rows.any (StoredObject.hasId x.dObj.id) = true := by
    by_contra hnone
    exact hthere (by simpa using hnone)
  have hdeleted := wellFormed_deleteRows h x.dObj.id
  cases hi : x.inserts with
  | error =>
    simp only [insertRow, hi]
    exact .inl (grows_refl h _)
  | other =>
    simp only [insertRow, hi, StoredObject.linkRow]
    split_ifs with hlinked
    · exact .inl (grows_refl h _)
    · exact .inr ⟨hpersist, rfl, hdeleted, .inl rfl⟩
    · exact .inl (grows_refl h _)
  | done =>
    cases hm : x.dObj.toMetadata.metadata with
    | none =>
      simp only [insertRow, hi, StoredObject.insertDataObject, StoredObject.storeRow, hm]
      exact .inl (grows_refl h _)
    | some m =>
      -- The row that is there is deleted, and the statement is carried out once more.
      have hstore := StoredObject.storeRow_eq env.beyond hm (hp hi m hm) h.name h.columns
      have hagain := StoredObject.storeRow_eq env.beyond hm (hp hi m hm) hdeleted.name
        hdeleted.columns
      simp only [insertRow, hi, StoredObject.insertDataObject, hstore, hany, if_true, hpersist,
        Bool.false_eq_true, if_false, hagain]
      exact .inr ⟨trivial, grows_linkRow
        (s := { s with table := StoredObject.deleteRows s.table x.dObj.id }) hdeleted
        (StoredObject.not_hasId_deleteRows s.table x.dObj.id) x.linked⟩

theorem grows_mem {s' : Store} {id : Digest} (h : Grows s s' id) {v : Sql.Value}
    (hv : v ∈ ids s.table) : v ∈ ids s'.table := by
  rcases h.ids with heq | heq
  · rwa [heq]
  · rw [heq]
    exact List.mem_append_left _ hv

theorem mem_ids_insertRow (h : WellFormed s.table) (hp : PastedAt env x node_id)
    {v : Sql.Value} (hv : v ∈ ids s.table)
    (hne : x.dObj.persistent = true ∨ v ≠ .blob x.dObj.id.1) :
    v ∈ ids (insertRow env x node_id s).1.table := by
  rcases grows_of_insertRow h hp with hgrows | ⟨hpersist, hgrows⟩
  · exact grows_mem hgrows hv
  · have hdiffers := hne.resolve_left (by rw [hpersist]; exact Bool.false_ne_true)
    refine grows_mem hgrows ?_
    change v ∈ ids (StoredObject.deleteRows s.table x.dObj.id)
    rw [ids_deleteRows, List.mem_filter, decide_eq_true_eq]
    exact ⟨hv, hdiffers⟩

/-- A row is written for each new object that stays, and there was none. -/
theorem ids_of_new (h : WellFormed s.table) (hpersist : x.dObj.persistent = true)
    (hother : x.inserts ≠ .other) (hp : PastedAt env x node_id)
    (hnew : (insertRow env x node_id s).2 = .new) :
    .blob x.dObj.id.1 ∉ ids s.table ∧
      .blob x.dObj.id.1 ∈ ids (insertRow env x node_id s).1.table := by
  cases hi : x.inserts with
  | error =>
    simp only [insertRow, hi] at hnew
    exact absurd hnew (by decide)
  | other => exact absurd hi hother
  | done =>
    cases hm : x.dObj.toMetadata.metadata with
    | none =>
      simp only [insertRow, hi, StoredObject.insertDataObject, StoredObject.storeRow, hm] at hnew
      exact absurd hnew (by decide)
    | some m =>
      simp only [insertRow, hi] at hnew ⊢
      obtain ⟨hnone, hrows⟩ := StoredObject.insertDataObject_persistent hm (hp hi m hm) h.name
        h.columns hpersist hnew
      refine ⟨blob_notMem_ids hnone, ?_⟩
      rw [ids, hrows, List.map_append]
      exact List.mem_append_right _ (List.mem_singleton_self _)

/-- An insertion is that of a row behind the replacement of older descriptions, or it fails there.
-/
theorem insertDataObject_eq (env : Environment) (x : Insert) (s : Store) :
    insertDataObject env x s = (replaced env x s, .failed) ∨
      ∃ node_id, nodeIdOf env x.dObj = some node_id ∧
        insertDataObject env x s = insertRow env x node_id (replaced env x s) := by
  unfold insertDataObject replaced
  by_cases hdesc : x.dObj.isNodeDesc = true
  · simp only [if_pos hdesc]
    have hnode : ∀ node_id, (deleteDataObjectNodeDescriptions env x s).2 = some node_id →
        nodeIdOf env x.dObj = some node_id := by
      intro node_id h
      rw [nodeIdOf, if_pos hdesc]
      unfold deleteDataObjectNodeDescriptions at h
      split at h
      · cases h
      · rename_i id hid
        rw [hid]
        split_ifs at h with hsel
        simp only at h
        split_ifs at h
        exact h
    obtain ⟨store, id, heq⟩ : ∃ store id, deleteDataObjectNodeDescriptions env x s = (store, id) :=
      ⟨_, _, rfl⟩
    rw [heq] at hnode ⊢
    cases id with
    | none => exact .inl rfl
    | some node_id => exact .inr ⟨node_id, hnode node_id rfl, rfl⟩
  · simp only [if_neg hdesc]
    exact .inr ⟨lit "-", by rw [nodeIdOf, if_neg hdesc], rfl⟩

theorem ids_deleteDataObject (d : Ended) (o : DataObject) (report keep : Bool) {v : Sql.Value}
    (hv : v ∈ ids s.table) (hne : v ≠ .blob o.id.1) :
    v ∈ ids (deleteDataObject d o report keep s).table := by
  have hkeep : v ∈ ids (StoredObject.deleteRows s.table o.id) := by
    rw [ids_deleteRows, List.mem_filter, decide_eq_true_eq]
    exact ⟨hv, hne⟩
  cases d <;> cases report <;> first | exact hv | exact hkeep

theorem mem_ids_deleteAll (ds : Digest → Ended) (report : Bool) {os : List DataObject}
    {v : Sql.Value} (hv : v ∈ ids s.table) (hne : ∀ o ∈ os, v ≠ .blob o.id.1) :
    v ∈ ids (deleteAll ds report os s).table := by
  induction os generalizing s with
  | nil => exact hv
  | cons o os ih =>
    rw [List.forall_mem_cons] at hne
    exact ih (ids_deleteDataObject (ds o.id) o report false hv hne.1) hne.2

theorem replaced_eq (env : Environment) (x : Insert) (s : Store) :
    replaced env x s = s ∨ x.dObj.isNodeDesc = true ∧ ∃ node_id,
      env.describe x.dObj = some node_id ∧ replaced env x s =
        deleteAll x.deletes true (replacedDescriptions env x s.table node_id).older s := by
  unfold replaced
  split_ifs with hdesc
  · unfold deleteDataObjectNodeDescriptions
    cases hd : env.describe x.dObj with
    | none => exact .inl rfl
    | some node_id =>
      by_cases hsel : x.selects = true
      · simp only [if_pos hsel]
        exact .inr ⟨hdesc, node_id, rfl, rfl⟩
      · simp only [if_neg hsel]
        exact .inl trivial
  · exact .inl rfl

theorem wellFormed_replaced (h : WellFormed s.table) : WellFormed (replaced env x s).table := by
  rcases replaced_eq env x s with heq | ⟨-, node_id, -, heq⟩
  · rwa [heq]
  · rw [heq]
    exact wellFormed_deleteAll h _ _ _

theorem mem_ids_replaced {v : Sql.Value} (hv : v ∈ ids s.table)
    (hne : x.dObj.isNodeDesc = true → ∀ node_id, env.describe x.dObj = some node_id →
      ∀ r ∈ descriptionRows s.table node_id, ∀ o, read env x.files r = some o → v ≠ .blob o.id.1) :
    v ∈ ids (replaced env x s).table := by
  rcases replaced_eq env x s with heq | ⟨hdesc, node_id, hd, heq⟩
  · rwa [heq]
  · rw [heq]
    refine mem_ids_deleteAll _ _ hv fun o ho => ?_
    obtain ⟨r, hr, hread⟩ := read_of_replaced ho
    exact hne hdesc node_id hd r hr o hread

theorem read_of_aged {x : Age} {os : List DataObject} (h : agedObjects env x s.table = some os)
    {o : DataObject} (ho : o ∈ os) :
    ∃ r ∈ s.table.rows, x.old r = true ∧ read env x.files r = some o := by
  have hrows : ∀ rows : List Sql.Row, rows.Sublist (s.table.rows.filter x.old) →
      o ∈ (rows.filterMap (read env x.files)).take maxAgedAtOnce →
      ∃ r ∈ s.table.rows, x.old r = true ∧ read env x.files r = some o := by
    intro rows hsub hmem
    obtain ⟨r, hr, hread⟩ := List.mem_filterMap.mp (List.mem_of_mem_take hmem)
    obtain ⟨hthere, hold⟩ := List.mem_filter.mp (hsub.subset hr)
    exact ⟨r, hthere, hold, hread⟩
  simp only [agedObjects] at h
  split at h
  · obtain rfl := Option.some.inj h
    exact hrows _ (List.Sublist.refl _) ho
  · split_ifs at h
    obtain rfl := Option.some.inj h
    exact hrows _ (List.take_sublist _ _) ho

end Insertions

section Invariant

variable {sha1 : Bytes → Digest} {env : Environment} {s : State}

/-- A pending callback that will post an event, or an event that was posted and is open, has the row
of its object; there is one of them for an object. -/
structure Counted (s : State) : Prop where
  wellFormed : WellFormed s.store.table
  unique : Unique s
  nodup : s.pending.Nodup
  closed : ∀ id ∈ s.pending, ¬ EventLog.Open (.new id) (.deleted (.blob id.1)) s.log
  pending : ∀ id ∈ s.pending, .blob id.1 ∈ ids s.store.table
  posted : ∀ id : Digest, EventLog.Open (.new id) (.deleted (.blob id.1)) s.log →
    .blob id.1 ∈ ids s.store.table

theorem new_notMem_deletions (id : Digest) (st st' : Store) : .new id ∉ deletions st st' := by
  intro h
  obtain ⟨v, -, hv⟩ := List.mem_map.mp h
  cases hv

/-- A change of the data store that keeps the rows whose callbacks are pending. -/
theorem Counted.change (h : Counted s) {store : Store} (hwf : WellFormed store.table)
    (hkeeps : ∀ id ∈ s.pending, .blob id.1 ∈ ids store.table) : Counted (s.change store) where
  wellFormed := hwf
  unique id := (h.unique id).append (new_notMem_deletions id _ _)
  nodup := h.nodup
  closed id hid hopen :=
    h.closed id hid (EventLog.open_of_append (new_notMem_deletions id _ _) hopen)
  pending := hkeeps
  posted id hopen := by
    have hthere := h.posted id (EventLog.open_of_append (new_notMem_deletions id _ _) hopen)
    by_contra hgone
    refine EventLog.not_open_append (new_notMem_deletions id _ _) ?_ hopen
    exact List.mem_map_of_mem (List.mem_filter.mpr ⟨hthere, decide_eq_true hgone⟩)

/-- The callback of an object of which there was no row. -/
theorem Counted.callback (h : Counted s) {taken : List ℕ} {o : DataObject}
    (hmem : .blob o.id.1 ∈ ids s.store.table) (hnew : o.id ∉ s.pending)
    (hclosed : ¬ EventLog.Open (.new o.id) (.deleted (.blob o.id.1)) s.log) :
    Counted { s with taken := taken, callbacks := s.callbacks ++ [(o, false)] } := by
  have hpending : State.pending
      { s with taken := taken, callbacks := s.callbacks ++ [(o, false)] } =
      s.pending ++ [o.id] := by
    simp [State.pending]
  refine ⟨h.wellFormed, h.unique, ?_, ?_, ?_, h.posted⟩
  · rw [hpending]
    exact nodup_snoc h.nodup hnew
  · intro id hid
    rw [hpending, List.mem_append, List.mem_singleton] at hid
    rcases hid with hid | rfl
    · exact h.closed id hid
    · exact hclosed
  · intro id hid
    rw [hpending, List.mem_append, List.mem_singleton] at hid
    rcases hid with hid | rfl
    · exact h.pending id hid
    · exact hmem

/-- Callbacks of duplicates do not count. -/
theorem Counted.duplicate (h : Counted s) (taken : List ℕ) {cs : List (DataObject × Bool)}
    (hcs : ∀ c ∈ cs, c.2 = true) :
    Counted { s with taken := taken, callbacks := s.callbacks ++ cs } := by
  have hpending : State.pending { s with taken := taken, callbacks := s.callbacks ++ cs } =
      s.pending := by
    have hnil : cs.filter (fun c => !c.2) = [] :=
      List.filter_eq_nil_iff.mpr fun c hc => by simp [hcs c hc]
    simp only [State.pending, List.filter_append, hnil, List.append_nil]
  refine ⟨h.wellFormed, h.unique, ?_, ?_, ?_, h.posted⟩
  · rw [hpending]
    exact h.nodup
  · rw [hpending]
    exact h.closed
  · rw [hpending]
    exact h.pending

theorem blob_ne {id id' : Digest} (h : id ≠ id') : Sql.Value.blob id.1 ≠ .blob id'.1 :=
  fun heq => h (Subtype.ext (Sql.Value.blob.inj heq))

theorem Counted.replaced (h : Counted s) {x : Insert} (hs : Spares env s x) :
    Counted (s.change (replaced env x s.store)) := by
  refine h.change (wellFormed_replaced h.wellFormed) fun id hid => ?_
  refine mem_ids_replaced (h.pending id hid) fun hdesc node_id hd r hr o hread => ?_
  exact blob_ne fun heq => hs.replaced hdesc node_id hd r hr o hread (heq ▸ hid)

theorem Counted.insertRow (h : Counted s) {x : Insert} {node_id : Bytes}
    (hp : PastedAt env x node_id) (hkept : x.dObj.persistent = true ∨ x.dObj.id ∉ s.pending) :
    Counted (s.change (insertRow env x node_id s.store).1) := by
  refine h.change ?_ fun id hid => ?_
  · rcases grows_of_insertRow h.wellFormed hp with hgrows | ⟨-, hgrows⟩
    · exact hgrows.wellFormed
    · exact hgrows.wellFormed
  · refine mem_ids_insertRow h.wellFormed hp (h.pending id hid) (hkept.imp_right fun hnot => ?_)
    exact blob_ne fun heq => hnot (heq ▸ hid)

/-- An insertion in its two parts. -/
theorem Counted.insertDataObject (h : Counted s) {x : Insert} (hp : Pasted env x)
    (hs : Spares env s x) :
    Counted ((s.change (NewObjects.replaced env x s.store)).change
      (ObjectStore.insertDataObject env x s.store).1) := by
  have hreplaced := h.replaced hs
  rcases insertDataObject_eq env x s.store with heq | ⟨node_id, hnode, heq⟩
  · rw [heq]
    exact hreplaced.change hreplaced.wellFormed hreplaced.pending
  · rw [heq]
    exact hreplaced.insertRow (hp node_id hnode) hs.kept

theorem counted_insertTask (h : Counted s) (i : ℕ) {x : Insert} {o : DataObject}
    (hp : Pasted env { x with dObj := o }) (hs : Spares env s { x with dObj := o })
    (hother : o.persistent = true → x.inserts ≠ .other) : Counted (insertTask env s i x o) := by
  have hinserted := h.insertDataObject hp hs
  rw [insertTask]
  cases hresult : (ObjectStore.insertDataObject env { x with dObj := o } s.store).2 with
  | failed => exact hinserted.duplicate _ fun c hc => absurd hc List.not_mem_nil
  | duplicate =>
    refine hinserted.duplicate _ fun c hc => ?_
    simp only [callbackOf] at hc
    split_ifs at hc
    · rw [List.mem_singleton.mp hc]
    · exact absurd hc List.not_mem_nil
  | new =>
    by_cases hpersist : o.persistent = true
    swap
    · simp only [callbackOf, if_neg hpersist]
      exact hinserted.duplicate _ fun c hc => absurd hc List.not_mem_nil
    simp only [callbackOf, if_pos hpersist]
    have hreplaced := h.replaced hs
    rcases insertDataObject_eq env { x with dObj := o } s.store with heq | ⟨node_id, hnode, heq⟩
    · rw [heq] at hresult
      cases hresult
    -- There was no row, so there is no callback and no event of the object.
    rw [heq] at hresult
    obtain ⟨hnone, hthere⟩ := ids_of_new (x := { x with dObj := o }) hreplaced.wellFormed hpersist
      (hother hpersist) (hp node_id hnode) hresult
    refine hinserted.callback ?_ (fun hid => hnone (hreplaced.pending o.id hid)) fun hopen => ?_
    · change _ ∈ ids (ObjectStore.insertDataObject env { x with dObj := o } s.store).1.table
      rw [heq]
      exact hthere
    · have hbefore := EventLog.open_of_append (new_notMem_deletions o.id _ _) hopen
      exact hnone (hreplaced.posted o.id hbefore)

theorem counted_store (h : Counted s) {op : Operation} (hop : Prompt env s (.store op)) :
    Counted (s.change (perform env s.store op)) := by
  have hkeeps : ∀ {o : Digest}, o ∉ s.pending → ∀ id ∈ s.pending, Sql.Value.blob id.1 ≠ .blob o.1 :=
    fun hnot _ hid => blob_ne fun heq => hnot (heq ▸ hid)
  cases op with
  | insert x =>
    obtain ⟨hp, hs⟩ := hop
    have hinserted := h.insertDataObject hp hs
    exact h.change hinserted.wellFormed hinserted.pending
  | deleteById fs d id keep =>
    simp only [perform, deleteDataObjectById, if_true]
    cases lookup env fs s.store.table id with
    | none => exact h.change h.wellFormed h.pending
    | some o =>
      cases d with
      | done =>
        refine h.change (wellFormed_deleteRows h.wellFormed id) fun id' hid' => ?_
        change _ ∈ ids (StoredObject.deleteRows s.store.table id)
        rw [ids_deleteRows, List.mem_filter, decide_eq_true_eq]
        exact ⟨h.pending id' hid', hkeeps hop id' hid'⟩
      | error => exact h.change h.wellFormed h.pending
      | other => exact h.change h.wellFormed h.pending
  | delete d o keep =>
    refine h.change (wellFormed_deleteDataObject h.wellFormed d o true keep) fun id hid => ?_
    exact ids_deleteDataObject d o true keep (h.pending id hid) (hkeeps hop id hid)
  | age x =>
    simp only [perform, ObjectStore.ageDataObjects]
    cases haged : agedObjects env x s.store.table with
    | none => exact h.change h.wellFormed h.pending
    | some os =>
      refine h.change (wellFormed_deleteAll h.wellFormed _ _ os) fun id hid => ?_
      refine mem_ids_deleteAll x.deletes false (h.pending id hid) fun o ho => ?_
      obtain ⟨r, hr, hold, hread⟩ := read_of_aged haged ho
      exact hkeeps (hop r hr hold o hread) id hid

/-- The callback of an object posts its event. -/
theorem counted_inserted (h : Counted s) {position : ℕ} {c : DataObject × Bool}
    (hget : s.callbacks[position]? = some c) :
    Counted
      (onInsertedDataObject { s with callbacks := s.callbacks.eraseIdx position } c.1 c.2) := by
  obtain ⟨hlt, hc⟩ := List.getElem?_eq_some_iff.mp hget
  have hperm : (c :: s.callbacks.eraseIdx position).Perm s.callbacks :=
    hc ▸ List.getElem_cons_eraseIdx_perm hlt
  have hpending := (hperm.filter fun c => !c.2).map fun c => c.1.id
  obtain ⟨o, duplicate⟩ := c
  cases duplicate with
  | true =>
    rw [List.filter_cons_of_neg (by simp)] at hpending
    refine ⟨h.wellFormed, h.unique, hpending.nodup_iff.mpr h.nodup, fun id hid => ?_,
      fun id hid => ?_, h.posted⟩
    · exact h.closed id (hpending.subset hid)
    · exact h.pending id (hpending.subset hid)
  | false =>
    rw [List.filter_cons_of_pos (by simp), List.map_cons] at hpending
    have hmem : o.id ∈ s.pending := hpending.subset List.mem_cons_self
    obtain ⟨hother, hnodup⟩ := List.nodup_cons.mp (hpending.nodup_iff.mpr h.nodup)
    refine ⟨h.wellFormed, fun id => ?_, hnodup, fun id hid hopen => ?_, fun id hid => ?_,
      fun id hopen => ?_⟩
    · refine (h.unique id).cons fun heq => ?_
      obtain rfl := Entry.new.inj heq
      exact h.closed _ hmem
    · have hne : Entry.new o.id ≠ .new id := fun heq => hother (Entry.new.inj heq ▸ hid)
      exact h.closed id (hpending.subset (List.mem_cons_of_mem _ hid))
        (EventLog.open_of_cons hne hopen)
    · exact h.pending id (hpending.subset (List.mem_cons_of_mem _ hid))
    · by_cases heq : Entry.new o.id = .new id
      · rw [← Entry.new.inj heq]
        exact h.pending o.id hmem
      · exact h.posted id (EventLog.open_of_cons heq hopen)

theorem counted_step (h : Counted s) {act : Act} (hop : Prompt env s act) :
    Counted (step sha1 env s act) := by
  obtain ⟨hwf, hunique, hnodup, hclosed, hpending, hposted⟩ := h
  cases act with
  | verification act => exact ⟨hwf, hunique, hnodup, hclosed, hpending, hposted⟩
  | startup o => exact ⟨hwf, hunique, hnodup, hclosed, hpending, hposted⟩
  | deletedEvent os keep => exact ⟨hwf, hunique, hnodup, hclosed, hpending, hposted⟩
  | config shape => exact ⟨hwf, hunique, hnodup, hclosed, hpending, hposted⟩
  | repository bf => exact ⟨hwf, hunique, hnodup, hclosed, hpending, hposted⟩
  | store op => exact counted_store ⟨hwf, hunique, hnodup, hclosed, hpending, hposted⟩ hop
  | insert i x =>
    have h : Counted s := ⟨hwf, hunique, hnodup, hclosed, hpending, hposted⟩
    rw [step]
    cases hget : s.verification.arrivals[i]? with
    | none => exact h
    | some a =>
      obtain ⟨hp, hs, hother⟩ := hop a hget
      simp only
      split_ifs
      · exact counted_insertTask h i hp hs hother
      · exact h
  | inserted position =>
    have h : Counted s := ⟨hwf, hunique, hnodup, hclosed, hpending, hposted⟩
    rw [step]
    cases hget : s.callbacks[position]? with
    | none => exact h
    | some c => exact counted_inserted h hget

theorem counted_start (level : SecurityLevel) (dm : DataManager) : Counted (start level dm) where
  wellFormed := ⟨rfl, rfl, List.nodup_nil⟩
  unique _ := EventLog.separated_nil
  nodup := List.nodup_nil
  closed _ h := absurd h List.not_mem_nil
  pending _ h := absurd h List.not_mem_nil
  posted _ h := absurd h EventLog.not_open_nil

/-- In every run of steps that meet the condition, the event is posted at most once between two
deletions of an object. -/
theorem unique_run (level : SecurityLevel) (dm : DataManager) {acts : List Act}
    (h : Trace.Guarded (step sha1 env) (Prompt env) (start level dm) acts) :
    Unique (Trace.run (step sha1 env) (start level dm) acts) := by
  have hcounted : Counted (Trace.run (step sha1 env) (start level dm) acts) :=
    @Trace.invariant_of_guarded _ _ _ _ Counted (fun _ _ hs hop => counted_step hs hop) _ _
      (counted_start level dm) h
  exact hcounted.unique

end Invariant

end NewObjects

namespace Sample

open StoredObject ObjectStore NewObjects

def copied : NetworkObject := ⟨signedAs .unverified, Or.inr rfl⟩

def copiedInsert (inserts : Ended) : Insert :=
  ⟨copied.obj, origin, emptyDisk, true, fun _ => .done, inserts, true⟩

def handled (i : ℕ) : NewObjects.Act := .verification (.handle i .unverified .unknown)

/-- An object of the startup file comes from the network once more. -/
def twoCopies (inserts : Ended) : List NewObjects.Act :=
  [.startup copied.obj, handled 0, handled 0, .insert 0 (copiedInsert inserts), .inserted 0,
    .verification (.arrive copied), handled 1, handled 1, handled 1,
    .insert 1 (copiedInsert inserts), .inserted 0]

def copiedStart : NewObjects.State := NewObjects.start .low (DataManager.start shape)

theorem pasted_copied : Pasted describedStore (copiedInsert .done) := by
  intro node_id hnode _ m hm
  obtain rfl : lit "-" = node_id := Option.some.inj hnode
  obtain rfl : signedMetadata = m := Option.some.inj hm
  constructor <;> decide +kernel

/-- An object that is twice in the startup file. -/
def startupCopies : List NewObjects.Act :=
  [.startup copied.obj, .startup copied.obj, handled 0, handled 1, handled 0, handled 1,
    .insert 1 (copiedInsert .done), .insert 0 (copiedInsert .done), .inserted 0, .inserted 0]

theorem unique_startupCopies :
    Unique (Trace.run (NewObjects.step firstBytes describedStore) copiedStart startupCopies) := by
  have hprompt : ∀ (s : NewObjects.State) (i : ℕ),
      (∀ a, s.verification.arrivals[i]? = some a → a.obj = copied.obj) →
      Prompt describedStore s (.insert i (copiedInsert .done)) := by
    intro s i hobj a hget
    rw [hobj a hget]
    refine ⟨pasted_copied, ⟨fun h => ?_, .inl rfl⟩, fun _ h => ?_⟩
    · exact absurd h Bool.false_ne_true
    · cases h
  refine unique_run .low (DataManager.start shape) ⟨trivial, trivial, trivial, trivial, trivial,
    trivial, hprompt _ _ ?_, hprompt _ _ ?_, trivial, trivial, trivial⟩
  · intro a h
    cases h
    rfl
  · intro a h
    cases h
    rfl

/-- The statements do not end as they should, and the event is posted for both copies. -/
theorem not_unique_twoCopies :
    ¬ Unique (Trace.run (NewObjects.step firstBytes describedStore) copiedStart
      (twoCopies .other)) := by
  intro h
  have hlog : (Trace.run (NewObjects.step firstBytes describedStore) copiedStart
      (twoCopies .other)).log = [.new copied.obj.id, .new copied.obj.id] := by
    decide +kernel
  exact absurd (h copied.obj.id [] [] [] hlog) List.not_mem_nil

end Sample
end Haggle
