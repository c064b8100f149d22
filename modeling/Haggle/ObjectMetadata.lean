import Haggle.PutData

/-!
# The metadata of a data object

`RootElement` says what the metadata of a data object looks like at any time between two calls of
`toMetadata`, and the operations on metadata that `toMetadata` is made of keep it so.
-/

namespace Haggle

namespace Metadata

/-- Changes the first element of a name, which is added if there is none. -/
def upsert (k : Bytes) (f : Metadata → Metadata) (m : Metadata) : Metadata :=
  match m.getMetadata k with
  | some _ => m.updateMetadata k f
  | none => m.addMetadata (f (.new k [] m.plainChar))

/-- A change of an element that keeps it one of its name. -/
def Keeps (f : Metadata → Metadata) : Prop := ∀ c, c.Valid → (f c).Valid ∧ (f c).name = c.name

theorem keeps_setContent (s : Bytes) : Keeps (·.setContent s) :=
  fun _ hc => ⟨valid_setContent hc s, rfl⟩

theorem keeps_setParameter (k v : Bytes) : Keeps (·.setParameter k v) :=
  fun _ hc => ⟨valid_setParameter hc k v, rfl⟩

variable {m : Metadata} {f : Metadata → Metadata}

theorem valid_upsert (hm : m.Valid) (k : Bytes) (hf : Keeps f) : (m.upsert k f).Valid := by
  unfold upsert
  split
  · exact valid_updateMetadata hm k hf
  · exact valid_addMetadata hm (hf _ (valid_new k [])).1

theorem upsert_fields (k : Bytes) (f : Metadata → Metadata) (m : Metadata) :
    (m.upsert k f).name = m.name ∧ (m.upsert k f).content = m.content ∧
      (m.upsert k f).params = m.params := by
  unfold upsert
  split <;> exact ⟨rfl, rfl, rfl⟩

theorem getParameter_upsert (k k' : Bytes) (f : Metadata → Metadata) (m : Metadata) :
    (m.upsert k f).getParameter k' = m.getParameter k' := by
  rw [getParameter, (upsert_fields k f m).2.2, getParameter]

theorem getAll_upsert_self (hm : m.Valid) (k : Bytes) (hf : Keeps f) :
    (m.upsert k f).getAll k =
      f ((m.getAll k).headD (.new k [] m.plainChar)) :: (m.getAll k).tail := by
  unfold upsert getMetadata
  cases hall : m.getAll k with
  | nil =>
    have hname : (f (.new k [] m.plainChar)).name = k := (hf _ (valid_new k [])).2
    simp only [List.head?_nil]
    rw [getAll_addMetadata hm, hall, if_pos hname]
    rfl
  | cons c cs =>
    simp only [List.head?_cons]
    rw [getAll_updateMetadata hm, if_pos rfl, hall]
    rfl

theorem getAll_upsert_of_ne (hm : m.Valid) {k k' : Bytes} (hk : k ≠ k') (hf : Keeps f) :
    (m.upsert k f).getAll k' = m.getAll k' := by
  unfold upsert
  split
  · rw [getAll_updateMetadata hm, if_neg hk]
  · have hname : (f (.new k [] m.plainChar)).name ≠ k' := by rwa [(hf _ (valid_new k [])).2]
    rw [getAll_addMetadata hm, if_neg hname, List.append_nil]

theorem getMetadata_upsert_self (hm : m.Valid) (k : Bytes) (hf : Keeps f) :
    (m.upsert k f).getMetadata k =
      some (f ((m.getMetadata k).getD (.new k [] m.plainChar))) := by
  rw [getMetadata, getAll_upsert_self hm k hf, List.head?_cons, getMetadata]
  cases m.getAll k <;> rfl

theorem getMetadata_upsert_of_ne (hm : m.Valid) {k k' : Bytes} (hk : k ≠ k') (hf : Keeps f) :
    (m.upsert k f).getMetadata k' = m.getMetadata k' := by
  rw [getMetadata, getAll_upsert_of_ne hm hk hf, getMetadata]

/-- The element that `upsert` changes is one of the name, or new. -/
theorem mem_getAll_upsert (hm : m.Valid) (k : Bytes) (hf : Keeps f) {c : Metadata}
    (hc : c ∈ (m.upsert k f).getAll k) :
    c ∈ m.getAll k ∨ (∃ c' ∈ m.getAll k, c = f c') ∨ c = f (.new k [] m.plainChar) := by
  rw [getAll_upsert_self hm k hf] at hc
  cases hall : m.getAll k with
  | nil =>
    rw [hall] at hc
    simp only [List.headD_nil, List.tail_nil, List.mem_singleton] at hc
    exact Or.inr (Or.inr hc)
  | cons x xs =>
    rw [hall] at hc
    rcases List.mem_cons.mp hc with rfl | hc
    · exact Or.inr (Or.inl ⟨x, List.mem_cons_self, rfl⟩)
    · exact Or.inl (List.mem_cons_of_mem x hc)

theorem mem_getAll (hm : m.Valid) {k : Bytes} {c : Metadata} (hc : c ∈ m.getAll k) :
    c.name = k ∧ c.Valid := by
  rw [getAll_eq_values hm.wf] at hc
  exact hm.of_mem_values hc

/-- Only elements of the name `k` are changed. -/
structure Frame (k : Bytes) (m m' : Metadata) : Prop where
  valid : m'.Valid
  name : m'.name = m.name
  plainChar : m'.plainChar = m.plainChar
  params : m'.params = m.params
  elements : ∀ k', k ≠ k' → m'.getAll k' = m.getAll k'

theorem Frame.refl (hm : m.Valid) (k : Bytes) : Frame k m m := ⟨hm, rfl, rfl, rfl, fun _ _ => rfl⟩

theorem Frame.trans {k : Bytes} {m' m'' : Metadata} (h : Frame k m m') (h' : Frame k m' m'') :
    Frame k m m'' :=
  ⟨h'.valid, h'.name.trans h.name, h'.plainChar.trans h.plainChar, h'.params.trans h.params,
    fun k' hk => (h'.elements k' hk).trans (h.elements k' hk)⟩

theorem Frame.getMetadata {k k' : Bytes} {m' : Metadata} (h : Frame k m m') (hk : k ≠ k') :
    m'.getMetadata k' = m.getMetadata k' := by
  rw [Metadata.getMetadata, h.elements k' hk, Metadata.getMetadata]

theorem Frame.getParameter {k : Bytes} {m' : Metadata} (h : Frame k m m') (p : Bytes) :
    m'.getParameter p = m.getParameter p := by
  rw [Metadata.getParameter, h.params, Metadata.getParameter]

theorem frame_addMetadata (hm : m.Valid) {c : Metadata} (hc : c.Valid) :
    Frame c.name m (m.addMetadata c) where
  valid := valid_addMetadata hm hc
  name := rfl
  plainChar := plainChar_addMetadata m c
  params := rfl
  elements k' hk := by rw [getAll_addMetadata hm, if_neg hk, List.append_nil]

theorem frame_removeMetadata (hm : m.Valid) (k : Bytes) : Frame k m (m.removeMetadata k) :=
  ⟨valid_removeMetadata hm k, rfl, rfl, rfl,
    fun k' hk => by rw [getAll_removeMetadata hm, if_neg hk]⟩

theorem frame_updateMetadata (hm : m.Valid) (k : Bytes) (hf : Keeps f) :
    Frame k m (m.updateMetadata k f) :=
  ⟨valid_updateMetadata hm k hf, rfl, rfl, rfl,
    fun k' hk => by rw [getAll_updateMetadata hm, if_neg hk]⟩

theorem frame_upsert (hm : m.Valid) (k : Bytes) (hf : Keeps f) : Frame k m (m.upsert k f) := by
  unfold upsert
  split
  · exact frame_updateMetadata hm k hf
  · obtain ⟨hvalid, hname⟩ := hf (.new k [] m.plainChar) (valid_new k [])
    have hframe := frame_addMetadata hm hvalid
    rwa [hname] at hframe

theorem valid_getD (hm : m.Valid) (k : Bytes) {c : Metadata} (hc : c.Valid) :
    ((m.getMetadata k).getD c).Valid := by
  cases hk : m.getMetadata k with
  | none => exact hc
  | some x => exact (mem_getAll hm (List.mem_of_mem_head? hk)).2

/-- An element without elements inside. -/
def Leaf (m : Metadata) : Prop := m.registry.toList = []

theorem leaf_new (name content : Bytes) {c : PlainChar} : (new name content c).Leaf :=
  HashMap.toList_ofTableSize 7

theorem getAll_new (name content k : Bytes) {c : PlainChar} :
    (new name content c).getAll k = [] := by
  rw [getAll_eq_values (valid_new name content).wf, HashMap.values]
  simp [new, HashMap.empty, HashMap.toList_ofTableSize]

end Metadata

open Metadata

namespace DataObject

theorem putContent_eq (k c : Bytes) : putContent k c = Metadata.upsert k (·.setContent c) := rfl

theorem updateData_eq (f : Metadata → Metadata) :
    updateData f = Metadata.upsert (lit "Data") f := rfl

theorem keeps_putContent (k c : Bytes) : Keeps (putContent k c) :=
  fun m hm => ⟨valid_upsert hm k (keeps_setContent c), (upsert_fields k _ m).1⟩

/-- A file of some length under some name, which the metadata has to describe. -/
def hasFile (o : DataObject) : Bool := o.dataLen ≠ 0 && o.filename ≠ []

end DataObject

open DataObject

/-- What a `Data` element can hold: no hash if the data cannot be verified, and no length if there
is no file. -/
structure DataElement (verifiable hasFile : Bool) (dm : Metadata) : Prop where
  content : dm.content = []
  leaves : ∀ k, ∀ c ∈ dm.getAll k, c.Leaf
  hash : verifiable = false → dm.getAll (lit "FileHash") = []
  length : hasFile = false → dm.getParameter (lit "data_len") = none

namespace DataElement

variable {v f : Bool} {dm : Metadata}

theorem new {c : PlainChar} : DataElement v f (.new (lit "Data") [] c) where
  content := rfl
  leaves k c hc := by
    rw [getAll_new] at hc
    exact absurd hc List.not_mem_nil
  hash _ := getAll_new _ _ _
  length _ := rfl

theorem putContent (h : DataElement v f dm) (hdm : dm.Valid) {k : Bytes} (c : Bytes)
    (hk : k = lit "FileHash" → v = true) : DataElement v f (putContent k c dm) where
  content := (upsert_fields k _ dm).2.1.trans h.content
  leaves k' x hx := by
    rw [putContent_eq] at hx
    by_cases hkk : k = k'
    · subst hkk
      rcases mem_getAll_upsert hdm k (keeps_setContent c) hx with hx | ⟨y, hy, rfl⟩ | rfl
      · exact h.leaves k x hx
      · exact h.leaves k y hy
      · exact leaf_new k c
    · rw [getAll_upsert_of_ne hdm hkk (keeps_setContent c)] at hx
      exact h.leaves k' x hx
  hash hv := by
    have hne : k ≠ lit "FileHash" := fun hkk => by simp [hk hkk] at hv
    rw [putContent_eq, getAll_upsert_of_ne hdm hne (keeps_setContent c)]
    exact h.hash hv
  length hf := by
    rw [putContent_eq, getParameter_upsert]
    exact h.length hf

theorem setLength (h : DataElement v true dm) (s : Bytes) :
    DataElement v true (dm.setParameter (lit "data_len") s) where
  content := h.content
  leaves := h.leaves
  hash := h.hash
  length hf := by simp at hf

end DataElement

/-- The content of a `Signature` element is base64. -/
structure SignatureElement (sm : Metadata) : Prop where
  content : ∃ s, sm.content = Base64.encode s
  leaf : sm.Leaf

/-- The metadata of an object that was created at `t`. -/
structure RootElement (t : Timeval) (verifiable hasFile : Bool) (m : Metadata) : Prop where
  valid : m.Valid
  name : m.name = lit "Haggle"
  time : m.getParameter (lit "create_time") = some t.getAsString
  data : ∀ dm ∈ m.getAll (lit "Data"), DataElement verifiable hasFile dm
  signature : ∀ sm ∈ m.getAll (lit "Signature"), SignatureElement sm

namespace RootElement

theorem new (t : Timeval) (v f : Bool) {c : PlainChar} : RootElement t v f
    ((Metadata.new (lit "Haggle") [] c).setParameter (lit "create_time") t.getAsString) := by
  have hnone : ∀ k, ((Metadata.new (lit "Haggle") [] c).setParameter (lit "create_time")
      t.getAsString).getAll k = [] := fun k => getAll_new (lit "Haggle") [] k
  refine ⟨valid_setParameter (valid_new _ _) _ _, rfl, getParameter_setParameter_self _ _ _, ?_, ?_⟩
  · rw [hnone]
    simp
  · rw [hnone]
    simp

variable {t : Timeval} {v f : Bool} {m : Metadata}

theorem setParameter (h : RootElement t v f m) {k : Bytes} (s : Bytes)
    (hk : k ≠ lit "create_time") : RootElement t v f (m.setParameter k s) :=
  { h with
    valid := valid_setParameter h.valid k s
    time := by rw [getParameter_setParameter_of_ne m hk, h.time] }

theorem setCreateTime (h : RootElement t v f m) (t' : Timeval) :
    RootElement t' v f (m.setParameter (lit "create_time") t'.getAsString) where
  valid := valid_setParameter h.valid _ _
  name := h.name
  time := getParameter_setParameter_self m _ _
  data := h.data
  signature := h.signature

theorem addMetadata (h : RootElement t v f m) {c : Metadata} (hc : c.Valid)
    (hd : c.name ≠ lit "Data") (hs : c.name ≠ lit "Signature") :
    RootElement t v f (m.addMetadata c) where
  valid := valid_addMetadata h.valid hc
  name := h.name
  time := h.time
  data := by
    rw [getAll_addMetadata h.valid, if_neg hd, List.append_nil]
    exact h.data
  signature := by
    rw [getAll_addMetadata h.valid, if_neg hs, List.append_nil]
    exact h.signature

theorem removeAttributes (h : RootElement t v f m) :
    RootElement t v f (m.removeMetadata (lit "Attr")) where
  valid := valid_removeMetadata h.valid _
  name := h.name
  time := h.time
  data := by
    rw [getAll_removeMetadata h.valid, if_neg (by decide)]
    exact h.data
  signature := by
    rw [getAll_removeMetadata h.valid, if_neg (by decide)]
    exact h.signature

theorem updateData (h : RootElement t v f m) {g : Metadata → Metadata} (hg : Keeps g)
    (hdata : ∀ dm, dm.Valid → DataElement v f dm → DataElement v f (g dm)) :
    RootElement t v f (updateData g m) where
  valid := valid_upsert h.valid _ hg
  name := (upsert_fields _ _ m).1.trans h.name
  time := by rw [updateData_eq, getParameter_upsert, h.time]
  data dm hdm := by
    rw [updateData_eq] at hdm
    rcases mem_getAll_upsert h.valid _ hg hdm with hdm | ⟨x, hx, rfl⟩ | rfl
    · exact h.data dm hdm
    · exact hdata x (mem_getAll h.valid hx).2 (h.data x hx)
    · exact hdata _ (valid_new _ _) DataElement.new
  signature := by
    rw [updateData_eq, getAll_upsert_of_ne h.valid (by decide) hg]
    exact h.signature

theorem putSignature (h : RootElement t v f m) (s signee : Bytes) :
    RootElement t v f ((putContent (lit "Signature") (Base64.encode s) m).updateMetadata
      (lit "Signature") (·.setParameter (lit "signee") signee)) := by
  have hkeep := keeps_setContent (Base64.encode s)
  have hv : (DataObject.putContent (lit "Signature") (Base64.encode s) m).Valid :=
    (keeps_putContent _ _ m h.valid).1
  refine ⟨valid_updateMetadata hv _ (keeps_setParameter _ _), ?_, ?_, ?_, ?_⟩
  · exact (upsert_fields _ _ m).1.trans h.name
  · exact (getParameter_upsert _ _ _ m).trans h.time
  · rw [getAll_updateMetadata hv, if_neg (by decide), putContent_eq,
      getAll_upsert_of_ne h.valid (by decide) hkeep]
    exact h.data
  · intro sm hsm
    rw [getAll_updateMetadata hv, if_pos rfl, putContent_eq,
      getAll_upsert_self h.valid _ hkeep, List.modifyHead_cons] at hsm
    rcases List.mem_cons.mp hsm with rfl | hsm
    · refine ⟨⟨s, rfl⟩, ?_⟩
      cases hall : m.getAll (lit "Signature") with
      | nil => exact leaf_new (lit "Signature") []
      | cons x xs => exact (h.signature x (by rw [hall]; exact List.mem_cons_self)).leaf
    · exact h.signature sm (List.mem_of_mem_tail hsm)

end RootElement

end Haggle
