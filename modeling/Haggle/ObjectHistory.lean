import Haggle.ParsedObject

/-!
# The history of a data object

A data object is created with or without a file, or parsed of metadata. Then attributes come and go,
it is stamped, signed, annotated by others and turned into metadata any number of times. Its
identifier stays in step with it, and so do the metadata of an object that was created.
-/

namespace Haggle

open Metadata

/-- What `create` is given, with or without a file. -/
structure Draft where
  storagepath : Bytes
  filepath : Bytes
  filename : Bytes
  dataLen : ℕ
  dataState : DataState
  dataHash : Digest
  createTime : Timeval
  created : createTime.isValid = true

/-- Metadata that others add to an object. -/
structure Annotation where
  element : Metadata
  valid : element.Valid
  foreign : element.name ∉ [lit "Attr", lit "Data", lit "Signature"]

inductive Change where
  | addAttribute (a : Attribute) (h : a.weight < 2 ^ 32)
  | removeAttribute (name value : Bytes)
  | eraseAttribute (a : Attribute)
  | setCreateTime (t : Timeval) (h : t.isValid = true)
  | setSignature (signee sig : Bytes)
  | setIsForLocalApp (val : Bool)
  | setPersistent (val : Bool)
  | setThumbnail (data : Bytes)
  | addMetadata (a : Annotation)
  | toMetadata

namespace DataObject

/-- `create` without raw metadata: the object is filled, then stamped. -/
def create (pf : Platform) (d : Draft) : DataObject :=
  setCreateTime pf
    { new d.storagepath d.dataHash.1 pf.plainChar with
      filepath := d.filepath
      filename := d.filename
      dataLen := d.dataLen
      dataState := d.dataState
      metadata := some (.new (lit "Haggle") [] pf.plainChar) } d.createTime

/-- Unlike the hash, a thumbnail is added to those that are there; of an empty one there is only the
`Data` element. -/
def setThumbnail (o : DataObject) (data : Bytes) : DataObject :=
  { o with metadata := o.metadata.map (updateData (fun dm =>
      if data = [] then dm
      else dm.addMetadata (.new (lit "Thumbnail") (Base64.encode data) dm.plainChar))) }

def change (pf : Platform) (o : DataObject) : Change → DataObject
  | .addAttribute a _ => o.addAttribute pf a
  | .removeAttribute name value => o.removeAttribute pf name value
  | .eraseAttribute a => o.eraseAttribute pf a
  | .setCreateTime t _ => o.setCreateTime pf t
  | .setSignature signee sig => o.setSignature signee sig
  | .setIsForLocalApp val => { o with isForLocalApp := val }
  | .setPersistent val => { o with persistent := val }
  | .setThumbnail data => o.setThumbnail data
  | .addMetadata a => { o with metadata := o.metadata.map (·.addMetadata a.element) }
  | .toMetadata => o.toMetadata

def history (pf : Platform) (d : Draft) (cs : List Change) : DataObject :=
  cs.foldl (change pf) (create pf d)

end DataObject

namespace DataObject

/-- `verifyData`: the file is hashed once, if it is there. -/
def verifyData (pf : Platform) (fs : FileSystem) (o : DataObject) : DataObject :=
  if o.dataLen = 0 ∨ o.dataIsVerifiable = false ∨ o.dataState ∈ [.verifiedOk, .verifiedBad] then o
  else
    match fs.read o.filepath with
    | none => { o with dataState := .verifiedBad }
    | some c =>
      { o with dataState := if o.dataHash = (pf.sha1 c).1 then .verifiedOk else .verifiedBad }

/-- All that is hashed of `o` is the same in `o'`, and there still are metadata. -/
structure SameHashed (o o' : DataObject) : Prop where
  metadata : ∃ m, o'.metadata = some m ∧ m.Valid ∧ m.name = lit "Haggle"
  attrs : o'.attrs = o.attrs
  createTime : o'.createTime = o.createTime
  filename : o'.filename = o.filename
  dataLen : o'.dataLen = o.dataLen
  verifiable : o'.dataIsVerifiable = o.dataIsVerifiable
  dataHash : o'.dataHash = o.dataHash
  id : o'.id = o.id

/-- The objects of a node: those that are created, those that are parsed of metadata from an
application, another node or the data store, and what becomes of them. -/
inductive Made (pf : Platform) : DataObject → Prop
  | create (d : Draft) : Made pf (create pf d)
  | parsed {fs : FileSystem} {fromNetwork : Bool} {raw : Bytes} {m : Metadata} {o : DataObject}
      (hraw : initFromRaw pf.lib raw pf.plainChar = some m) (hname : m.name = lit "Haggle")
      (hmeta : o.metadata = some m) (hattrs : o.attrs = HashMap.empty pf.plainChar)
      (hhash : o.dataHash.length = 20) (hpath : PathAccepted fs fromNetwork m o)
      (hok : (parseMetadata pf fs o fromNetwork).2 = true) :
      Made pf (parseMetadata pf fs o fromNetwork).1
  | change {o : DataObject} (h : Made pf o) (c : Change) : Made pf (o.change pf c)
  | other {o o' : DataObject} (h : Made pf o) (hs : SameHashed o o') : Made pf o'

/-- What holds of an object that was created at any time of its history. -/
structure Coherent (pf : Platform) (o : DataObject) : Prop extends Identified pf o where
  root : ∃ m, o.metadata = some m ∧ RootElement o.createTime o.dataIsVerifiable o.hasFile m
  created : o.createTime.isValid = true
  weight : ∀ e ∈ o.attrs.toList, e.2.weight < 2 ^ 32

theorem Coherent.sound {pf : Platform} {o : DataObject} (h : Coherent pf o) : o.attrs.Sound :=
  ⟨h.attrs, h.weight⟩

section Identified

variable {pf : Platform} {o o' : DataObject}

theorem Identified.of_sameHashed (h : Identified pf o) (hs : SameHashed o o') :
    Identified pf o' where
  metadata := hs.metadata
  attrs := hs.attrs ▸ h.attrs
  hash := hs.dataHash ▸ h.hash
  id := by
    have hpayload : o'.payloadBytes pf = o.payloadBytes pf := by
      rw [payloadBytes, payloadBytes, hs.verifiable, hs.dataHash, hs.filename, hs.dataLen]
    have htime : o'.timeBytes = o.timeBytes := by rw [timeBytes, timeBytes, hs.createTime]
    rw [hs.id, h.id, calcId, calcId, hs.attrs, hpayload, htime]

theorem Identified.sameHashed_self (h : Identified pf o) : SameHashed o o :=
  ⟨h.metadata, rfl, rfl, rfl, rfl, rfl, rfl, rfl⟩

theorem Identified.createFilePath (h : Identified pf o) (fs : FileSystem) :
    SameHashed o (o.createFilePath fs) :=
  ⟨h.metadata, rfl, rfl, rfl, rfl, rfl, rfl, rfl⟩

theorem Identified.verifyData (h : Identified pf o) (fs : FileSystem) :
    SameHashed o (o.verifyData pf fs) := by
  unfold DataObject.verifyData
  by_cases hskip : o.dataLen = 0 ∨ o.dataIsVerifiable = false ∨
      o.dataState ∈ [.verifiedOk, .verifiedBad]
  · rw [if_pos hskip]
    exact h.sameHashed_self
  · rw [if_neg hskip]
    have hv : o.dataIsVerifiable = true := by
      rw [not_or, not_or] at hskip
      simpa using hskip.2.1
    split
    · exact ⟨h.metadata, rfl, rfl, rfl, rfl, hv.symm, rfl, rfl⟩
    · refine ⟨h.metadata, rfl, rfl, rfl, rfl, ?_, rfl, rfl⟩
      rw [hv, dataIsVerifiable]
      split_ifs <;> rfl

theorem apart_empty {c : PlainChar} : Attributes.Apart (HashMap.empty c) := by
  have hnil : (HashMap.empty c : Attributes).toList = [] := HashMap.toList_ofTableSize 7
  exact ⟨HashMap.wf_empty, ⟨by simp [hnil], by simp [hnil]⟩⟩

theorem apart_add {m : Attributes} (h : m.Apart) {a : Attribute} (ha : m.find a = none) :
    (m.add a).Apart :=
  ⟨HashMap.wf_insert h.wf _, Attributes.distinct_add h.wf h.distinct ha⟩

theorem erase_sublist {m : Attributes} (h : m.WF) (a : Attribute) :
    (Attributes.erase m a).1.toList.Sublist m.toList := by
  unfold Attributes.erase
  split
  · exact List.Sublist.refl _
  · exact HashMap.toList_eraseFirst_sublist h a.name (a.eq ·)

theorem apart_erase {m : Attributes} (h : m.Apart) (a : Attribute) :
    (Attributes.erase m a).1.Apart := by
  refine ⟨?_, h.distinct.sublist (erase_sublist h.wf a)⟩
  unfold Attributes.erase
  split
  · exact h.wf
  · exact HashMap.wf_eraseFirst h.wf _ _

theorem metadata_create (pf : Platform) (d : Draft) : (create pf d).metadata =
    some ((Metadata.new (lit "Haggle") [] pf.plainChar).setParameter (lit "create_time")
      d.createTime.getAsString) := by
  simp [create, setCreateTime, d.created, calcId]

theorem identified_create (pf : Platform) (d : Draft) : Identified pf (create pf d) := by
  have hroot := RootElement.new d.createTime false false (c := pf.plainChar)
  exact ⟨⟨_, metadata_create pf d, hroot.valid, hroot.name⟩, apart_empty, d.dataHash.2, rfl⟩

theorem identified_eraseAttribute (h : Identified pf o) (a : Attribute) :
    Identified pf (o.eraseAttribute pf a) := by
  have ha := apart_erase h.attrs a
  unfold eraseAttribute
  by_cases hn : 0 < (Attributes.erase o.attrs a).2
  · rw [if_pos hn]
    exact ⟨h.metadata, ha, h.hash, rfl⟩
  · rw [if_neg hn]
    have hsame : (Attributes.erase o.attrs a).1 = o.attrs := by
      unfold Attributes.erase at hn ⊢
      split <;> simp_all
    rw [hsame]
    exact h

theorem identified_addAttribute (h : Identified pf o) (a : Attribute) :
    Identified pf (o.addAttribute pf a) := by
  unfold addAttribute hasAttribute
  cases hfind : Attributes.find o.attrs a with
  | none => exact ⟨h.metadata, apart_add h.attrs hfind, h.hash, rfl⟩
  | some b => exact h

theorem identified_setCreateTime (h : Identified pf o) (t : Timeval) :
    Identified pf (o.setCreateTime pf t) := by
  obtain ⟨m, hm, hvalid, hname⟩ := h.metadata
  unfold setCreateTime
  rw [hm]
  refine ⟨⟨_, rfl, ?_, ?_⟩, h.attrs, h.hash, rfl⟩
  · split_ifs
    · exact valid_setParameter hvalid _ _
    · exact hvalid
  · split_ifs
    · exact hname
    · exact hname

theorem keeps_thumbnail (data : Bytes) : Keeps (fun dm => if data = [] then dm
    else dm.addMetadata (.new (lit "Thumbnail") (Base64.encode data) dm.plainChar)) := by
  intro c hc
  split_ifs
  · exact ⟨hc, rfl⟩
  · exact ⟨valid_addMetadata hc (valid_new _ _), rfl⟩

theorem identified_change (h : Identified pf o) (c : Change) : Identified pf (o.change pf c) := by
  obtain ⟨m, hm, hvalid, hname⟩ := h.metadata
  cases c with
  | addAttribute a _ => exact identified_addAttribute h a
  | removeAttribute name value => exact identified_eraseAttribute h _
  | eraseAttribute a => exact identified_eraseAttribute h a
  | setCreateTime t _ => exact identified_setCreateTime h t
  | setSignature signee sig => exact ⟨h.metadata, h.attrs, h.hash, h.id⟩
  | setIsForLocalApp val => exact ⟨h.metadata, h.attrs, h.hash, h.id⟩
  | setPersistent val => exact ⟨h.metadata, h.attrs, h.hash, h.id⟩
  | setThumbnail data =>
    refine ⟨⟨_, ?_, valid_upsert hvalid (lit "Data") (keeps_thumbnail data),
      (upsert_fields (lit "Data") _ m).1.trans hname⟩, h.attrs, h.hash, h.id⟩
    rw [change, setThumbnail, hm]
    rfl
  | addMetadata a =>
    refine ⟨⟨_, ?_, valid_addMetadata hvalid a.valid, hname⟩, h.attrs, h.hash, h.id⟩
    rw [change, hm]
    rfl
  | toMetadata =>
    obtain ⟨m', heq, hw⟩ := toMetadata_written hm hvalid
    rw [change, heq]
    exact ⟨⟨m', rfl, hw.valid, hw.name.trans hname⟩, h.attrs, h.hash, h.id⟩

theorem Made.identified (h : Made pf o) : Identified pf o := by
  induction h with
  | create d => exact identified_create pf d
  | parsed hraw hname hmeta hattrs hhash hpath hok =>
    exact identified_parseMetadata (valid_initFromRaw hraw) hname ⟨hmeta, hattrs, rfl, hhash⟩ hpath
      hok
  | change _ c ih => exact identified_change ih c
  | other _ hs ih => exact ih.of_sameHashed hs

end Identified

section History

variable {pf : Platform} {o : DataObject}

theorem coherent_create (pf : Platform) (d : Draft) : Coherent pf (create pf d) := by
  have hroot := RootElement.new d.createTime (create pf d).dataIsVerifiable (create pf d).hasFile
    (c := pf.plainChar)
  have hnil : (create pf d).attrs.toList = [] := HashMap.toList_ofTableSize 7
  exact ⟨identified_create pf d, ⟨_, metadata_create pf d, hroot⟩, d.created, by simp [hnil]⟩

theorem coherent_eraseAttribute (h : Coherent pf o) (a : Attribute) :
    Coherent pf (o.eraseAttribute pf a) := by
  have hid := identified_eraseAttribute h.toIdentified a
  have hsub := erase_sublist h.attrs.wf a
  have hweight : ∀ e ∈ (Attributes.erase o.attrs a).1.toList, e.2.weight < 2 ^ 32 :=
    fun e he => h.weight e (hsub.subset he)
  unfold eraseAttribute at hid ⊢
  by_cases hn : 0 < (Attributes.erase o.attrs a).2
  · rw [if_pos hn] at hid ⊢
    exact ⟨hid, h.root, h.created, hweight⟩
  · rw [if_neg hn] at hid ⊢
    exact ⟨hid, h.root, h.created, hweight⟩

theorem coherent_addAttribute (h : Coherent pf o) {a : Attribute} (hw : a.weight < 2 ^ 32) :
    Coherent pf (o.addAttribute pf a) := by
  have hid := identified_addAttribute h.toIdentified a
  unfold addAttribute at hid ⊢
  by_cases hhas : o.hasAttribute a = true
  · rw [if_pos hhas]
    exact h
  · rw [if_neg hhas] at hid ⊢
    refine ⟨hid, h.root, h.created, fun e he => ?_⟩
    rcases List.mem_cons.mp ((HashMap.toList_insert_perm h.attrs.wf _).subset he) with rfl | he
    · exact hw
    · exact h.weight e he

theorem coherent_setCreateTime (h : Coherent pf o) {t : Timeval} (ht : t.isValid = true) :
    Coherent pf (o.setCreateTime pf t) := by
  have hid := identified_setCreateTime h.toIdentified t
  obtain ⟨m, hm, hroot⟩ := h.root
  unfold setCreateTime at hid ⊢
  rw [hm] at hid ⊢
  refine ⟨hid, ⟨_, ?_, hroot.setCreateTime t⟩, ht, h.weight⟩
  simp [ht, calcId]

theorem dataElement_addThumbnail {v f : Bool} {dm : Metadata} (hdm : dm.Valid)
    (hd : DataElement v f dm) (s : Bytes) (c : PlainChar) :
    DataElement v f (dm.addMetadata (.new (lit "Thumbnail") s c)) := by
  refine ⟨hd.content, ?_, ?_, hd.length⟩
  · intro k c hc
    rw [getAll_addMetadata hdm] at hc
    rcases List.mem_append.mp hc with hc | hc
    · exact hd.leaves k c hc
    · split_ifs at hc
      · rw [List.mem_singleton.mp hc]
        exact leaf_new _ _
      · exact absurd hc List.not_mem_nil
  · intro hv
    have hname : (Metadata.new (lit "Thumbnail") s c).name ≠ lit "FileHash" :=
      show lit "Thumbnail" ≠ lit "FileHash" by decide
    rw [getAll_addMetadata hdm, hd.hash hv, if_neg hname]
    rfl

theorem coherent_change (h : Coherent pf o) (c : Change) : Coherent pf (o.change pf c) := by
  have hid := identified_change h.toIdentified c
  obtain ⟨m, hm, hroot⟩ := h.root
  cases c with
  | addAttribute a hw => exact coherent_addAttribute h hw
  | removeAttribute name value => exact coherent_eraseAttribute h _
  | eraseAttribute a => exact coherent_eraseAttribute h a
  | setCreateTime t ht => exact coherent_setCreateTime h ht
  | setSignature signee sig => exact ⟨hid, h.root, h.created, h.weight⟩
  | setIsForLocalApp val => exact ⟨hid, h.root, h.created, h.weight⟩
  | setPersistent val => exact ⟨hid, h.root, h.created, h.weight⟩
  | setThumbnail data =>
    refine ⟨hid, ⟨_, ?_, hroot.updateData (keeps_thumbnail data) fun dm hdm hd => ?_⟩, h.created,
      h.weight⟩
    · rw [change, setThumbnail, hm]
      rfl
    · split_ifs
      · exact hd
      · exact dataElement_addThumbnail hdm hd _ _
  | addMetadata a =>
    have hforeign := a.foreign
    simp only [List.mem_cons, not_or] at hforeign
    refine ⟨hid, ⟨m.addMetadata a.element, ?_, ?_⟩, h.created, h.weight⟩
    · rw [change, hm]
      rfl
    · exact hroot.addMetadata a.valid hforeign.2.1 hforeign.2.2.1
  | toMetadata =>
    obtain ⟨m', heq, hs⟩ := toMetadata_spec hm hroot
    rw [change, heq] at hid ⊢
    exact ⟨hid, ⟨m', rfl, hs.root⟩, h.created, h.weight⟩

theorem coherent_history (pf : Platform) (d : Draft) (cs : List Change) :
    Coherent pf (history pf d cs) := by
  have hrun : ∀ o, Coherent pf o → Coherent pf (cs.foldl (change pf) o) := by
    induction cs with
    | nil => exact fun o h => h
    | cons c cs ih => exact fun o h => ih _ (coherent_change h c)
  exact hrun _ (coherent_create pf d)

theorem made_history (pf : Platform) (d : Draft) (cs : List Change) :
    Made pf (history pf d cs) := by
  have hrun : ∀ o, Made pf o → Made pf (cs.foldl (change pf) o) := by
    induction cs with
    | nil => exact fun o h => h
    | cons c cs ih => exact fun o h => ih _ (h.change c)
  exact hrun _ (.create d)

end History

end DataObject
end Haggle
