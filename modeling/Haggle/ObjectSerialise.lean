import Haggle.ObjectWire

/-!
# Turning a data object into metadata

`toMetadata` goes through the file, the hash, the signature and the attributes of an object. What it
leaves behind is `Serialised`: all that the identifier is made of can be read off the metadata.
-/

namespace Haggle

open Metadata

/-- No attribute matches another one. -/
structure Attributes.Apart (m : Attributes) : Prop where
  wf : m.WF
  distinct : Attributes.Distinct m.toList

/-- No attribute matches another one, and the weights are those of 32 bits. -/
structure Attributes.Sound (m : Attributes) : Prop extends Apart m where
  weight : ∀ e ∈ m.toList, e.2.weight < 2 ^ 32

namespace DataObject

/-- The `Data` element of an object with a file. -/
def DescribesFile (o : DataObject) (dm : Metadata) : Prop :=
  dm.getParameter (lit "data_len") = some ((decimal o.dataLen).take 19) ∧
    (dm.getMetadata (lit "FileName")).map Metadata.content = some o.filename

/-- The `Data` element of an object whose data can be verified. -/
def DescribesHash (o : DataObject) (dm : Metadata) : Prop :=
  (dm.getMetadata (lit "FileHash")).map Metadata.content = some (Base64.encode o.dataHash)

/-- The `Data` element that `toMetadata` makes of one. -/
def dataMetadata (o : DataObject) (dm : Metadata) : Metadata :=
  let dm := if o.hasFile then o.fileMetadata dm else dm
  if o.dataIsVerifiable then putContent (lit "FileHash") (Base64.encode o.dataHash) dm else dm

/-- The `Signature` element that `toMetadata` makes of one for the signature `s`. -/
def signatureMetadata (o : DataObject) (s : Bytes) (sm : Metadata) : Metadata :=
  (sm.setContent (Base64.encode s)).setParameter (lit "signee") o.signee

/-- What `toMetadata` makes of the metadata `m`. It works on the first element of a name, or on a new
one. -/
structure Written (o : DataObject) (m m' : Metadata) : Prop where
  valid : m'.Valid
  name : m'.name = m.name
  plainChar : m'.plainChar = m.plainChar
  time : m'.getParameter (lit "create_time") = m.getParameter (lit "create_time")
  data : m'.getMetadata (lit "Data") =
    if o.hasFile || o.dataIsVerifiable then
      some (o.dataMetadata ((m.getMetadata (lit "Data")).getD (.new (lit "Data") [] m.plainChar)))
    else m.getMetadata (lit "Data")
  signature : m'.getMetadata (lit "Signature") =
    if o.signature.getD [] = [] then m.getMetadata (lit "Signature")
    else some (o.signatureMetadata (o.signature.getD [])
      ((m.getMetadata (lit "Signature")).getD (.new (lit "Signature") [] m.plainChar)))
  attrs : m'.getAll (lit "Attr") = o.attrs.toList.map (fun e => attributeMetadata e.2 m.plainChar)

/-- What `toMetadata` leaves behind. -/
structure Serialised (o : DataObject) (m : Metadata) : Prop where
  root : RootElement o.createTime o.dataIsVerifiable o.hasFile m
  file : o.hasFile = true → ∃ dm, m.getMetadata (lit "Data") = some dm ∧ o.DescribesFile dm
  hash : o.dataIsVerifiable = true → ∃ dm, m.getMetadata (lit "Data") = some dm ∧ o.DescribesHash dm
  attrs : m.getAll (lit "Attr") = o.attrs.toList.map (fun e => attributeMetadata e.2 m.plainChar)

section Serialise

variable {o : DataObject} {t : Timeval} {v f : Bool} {m dm : Metadata}

theorem getMetadata_putContent_self (hm : m.Valid) (k c : Bytes) :
    ((putContent k c m).getMetadata k).map Metadata.content = some c := by
  rw [putContent_eq, getMetadata_upsert_self hm k (keeps_setContent c)]
  rfl

theorem getMetadata_putContent_of_ne (hm : m.Valid) {k k' : Bytes} (hk : k ≠ k') (c : Bytes) :
    (putContent k c m).getMetadata k' = m.getMetadata k' := by
  rw [putContent_eq, getMetadata_upsert_of_ne hm hk (keeps_setContent c)]

theorem keeps_fileMetadata (o : DataObject) : Keeps o.fileMetadata := by
  intro dm hdm
  have h1 := keeps_setParameter (lit "data_len") ((decimal o.dataLen).take 19) dm hdm
  unfold fileMetadata
  split_ifs
  · have h2 := keeps_putContent (lit "FilePath") o.filepath _ h1.1
    have h3 := keeps_putContent (lit "FileName") o.filename _ h2.1
    exact ⟨h3.1, h3.2.trans (h2.2.trans h1.2)⟩
  · have h3 := keeps_putContent (lit "FileName") o.filename _ h1.1
    exact ⟨h3.1, h3.2.trans h1.2⟩

theorem dataElement_fileMetadata (hdm : dm.Valid) (h : DataElement v true dm) :
    DataElement v true (o.fileMetadata dm) := by
  have hv1 := valid_setParameter hdm (lit "data_len") ((decimal o.dataLen).take 19)
  have h1 := h.setLength ((decimal o.dataLen).take 19)
  unfold fileMetadata
  split_ifs
  · have hv2 := (keeps_putContent (lit "FilePath") o.filepath _ hv1).1
    have h2 := h1.putContent hv1 o.filepath (k := lit "FilePath") (fun h => absurd h (by decide))
    exact h2.putContent hv2 o.filename (fun h => absurd h (by decide))
  · exact h1.putContent hv1 o.filename (fun h => absurd h (by decide))

theorem describesFile_fileMetadata (hdm : dm.Valid) : o.DescribesFile (o.fileMetadata dm) := by
  have hv1 := valid_setParameter hdm (lit "data_len") ((decimal o.dataLen).take 19)
  have hlen : ∀ k c (x : Metadata), (putContent k c x).getParameter (lit "data_len") =
      x.getParameter (lit "data_len") := fun k c x => getParameter_upsert k _ _ x
  unfold fileMetadata DescribesFile
  split_ifs
  · have hv2 := (keeps_putContent (lit "FilePath") o.filepath _ hv1).1
    refine ⟨?_, getMetadata_putContent_self hv2 _ _⟩
    rw [hlen, hlen, getParameter_setParameter_self]
  · refine ⟨?_, getMetadata_putContent_self hv1 _ _⟩
    rw [hlen, getParameter_setParameter_self]

theorem describesFile_putHash (hdm : dm.Valid) (h : o.DescribesFile dm) (c : Bytes) :
    o.DescribesFile (putContent (lit "FileHash") c dm) := by
  refine ⟨(getParameter_upsert _ _ _ dm).trans h.1, ?_⟩
  rw [getMetadata_putContent_of_ne hdm (by decide)]
  exact h.2

theorem keeps_dataMetadata (o : DataObject) : Keeps o.dataMetadata := by
  intro dm hdm
  have hfile : (if o.hasFile then o.fileMetadata dm else dm).Valid ∧
      (if o.hasFile then o.fileMetadata dm else dm).name = dm.name := by
    split_ifs
    · exact keeps_fileMetadata o dm hdm
    · exact ⟨hdm, rfl⟩
  unfold dataMetadata
  generalize (if o.hasFile then o.fileMetadata dm else dm) = dm1 at hfile ⊢
  dsimp only
  split_ifs
  · obtain ⟨hvalid, hname⟩ := keeps_putContent (lit "FileHash") (Base64.encode o.dataHash) _ hfile.1
    exact ⟨hvalid, hname.trans hfile.2⟩
  · exact hfile

theorem describesFile_dataMetadata (hdm : dm.Valid) (hf : o.hasFile = true) :
    o.DescribesFile (o.dataMetadata dm) := by
  have hdesc := describesFile_fileMetadata (o := o) hdm
  simp only [dataMetadata, if_pos hf]
  split_ifs
  · exact describesFile_putHash (keeps_fileMetadata o dm hdm).1 hdesc _
  · exact hdesc

theorem describesHash_dataMetadata (hdm : dm.Valid) (hv : o.dataIsVerifiable = true) :
    o.DescribesHash (o.dataMetadata dm) := by
  have hfile : (if o.hasFile then o.fileMetadata dm else dm).Valid := by
    split_ifs
    · exact (keeps_fileMetadata o dm hdm).1
    · exact hdm
  simp only [dataMetadata, if_pos hv]
  exact getMetadata_putContent_self hfile _ _

/-- `putContent` sets the text of the first element of the name, and leaves the elements inside. -/
theorem silent_putContent {lib : LibXml} (hdm : dm.Valid) {k : Bytes} (s : Bytes)
    (h : ∀ c, dm.getMetadata k = some c → Silent lib c) :
    ∃ c, (putContent k s dm).getMetadata k = some c ∧ Silent lib c ∧ c.content = s := by
  rw [putContent_eq, getMetadata_upsert_self hdm k (keeps_setContent s)]
  refine ⟨_, rfl, ?_, rfl⟩
  cases hk : dm.getMetadata k with
  | none => exact silent_of_leaf (leaf_new k [])
  | some c => exact h c hk

theorem fileHash_fileMetadata (hdm : dm.Valid) : (o.fileMetadata dm).getMetadata (lit "FileHash") =
    dm.getMetadata (lit "FileHash") := by
  have hv1 := valid_setParameter hdm (lit "data_len") ((decimal o.dataLen).take 19)
  unfold fileMetadata
  split_ifs
  · have hv2 := (keeps_putContent (lit "FilePath") o.filepath _ hv1).1
    rw [getMetadata_putContent_of_ne hv2 (by decide), getMetadata_putContent_of_ne hv1 (by decide)]
    rfl
  · rw [getMetadata_putContent_of_ne hv1 (by decide)]
    rfl

theorem fileName_fileMetadata {lib : LibXml} (hdm : dm.Valid)
    (h : ∀ c, dm.getMetadata (lit "FileName") = some c → Silent lib c) :
    ∃ c, (o.fileMetadata dm).getMetadata (lit "FileName") = some c ∧ Silent lib c ∧
      c.content = o.filename := by
  have hv1 := valid_setParameter hdm (lit "data_len") ((decimal o.dataLen).take 19)
  unfold fileMetadata
  split_ifs
  · have hv2 := (keeps_putContent (lit "FilePath") o.filepath _ hv1).1
    apply silent_putContent hv2
    rw [getMetadata_putContent_of_ne hv1 (by decide)]
    exact h
  · exact silent_putContent hv1 o.filename h

theorem fileHash_file (hdm : dm.Valid) :
    (if o.hasFile then o.fileMetadata dm else dm).getMetadata (lit "FileHash") =
      dm.getMetadata (lit "FileHash") := by
  split_ifs
  · exact fileHash_fileMetadata hdm
  · rfl

theorem fileHash_dataMetadata {lib : LibXml} (hdm : dm.Valid) (hv : o.dataIsVerifiable = true)
    (h : ∀ c, dm.getMetadata (lit "FileHash") = some c → Silent lib c) :
    ∃ c, (o.dataMetadata dm).getMetadata (lit "FileHash") = some c ∧ Silent lib c ∧
      c.content = Base64.encode o.dataHash := by
  have hvalid : (if o.hasFile then o.fileMetadata dm else dm).Valid := by
    split_ifs
    · exact (keeps_fileMetadata o dm hdm).1
    · exact hdm
  simp only [dataMetadata, if_pos hv]
  apply silent_putContent hvalid
  rw [fileHash_file hdm]
  exact h

theorem fileHash_dataMetadata_of_not (hdm : dm.Valid) (hv : o.dataIsVerifiable = false) :
    (o.dataMetadata dm).getMetadata (lit "FileHash") = dm.getMetadata (lit "FileHash") := by
  rw [dataMetadata, hv]
  exact fileHash_file hdm

theorem dataMetadata_of_not (hv : o.dataIsVerifiable = false) :
    o.dataMetadata dm = if o.hasFile then o.fileMetadata dm else dm := by
  rw [dataMetadata, hv]
  rfl

theorem toMetadataFile_eq (o : DataObject) (m : Metadata) : o.toMetadataFile m =
    if o.hasFile then Metadata.upsert (lit "Data") o.fileMetadata m else m := by
  unfold toMetadataFile
  rw [updateData_eq]
  by_cases hf : o.hasFile = true
  · rw [if_pos hf, if_pos (by simpa [hasFile] using hf)]
  · rw [if_neg hf, if_neg (by simpa [hasFile] using hf)]

theorem toMetadataHash_eq (o : DataObject) (m : Metadata) : o.toMetadataHash m =
    if o.dataIsVerifiable then
      Metadata.upsert (lit "Data") (putContent (lit "FileHash") (Base64.encode o.dataHash)) m
    else m := rfl

theorem frame_toMetadataFile (hm : m.Valid) : Frame (lit "Data") m (o.toMetadataFile m) := by
  rw [toMetadataFile_eq]
  split_ifs
  · exact frame_upsert hm _ (keeps_fileMetadata o)
  · exact .refl hm _

theorem frame_toMetadataHash (hm : m.Valid) : Frame (lit "Data") m (o.toMetadataHash m) := by
  rw [toMetadataHash_eq]
  split_ifs
  · exact frame_upsert hm _ (keeps_putContent _ _)
  · exact .refl hm _

/-- The file and the hash are written into the same element. -/
theorem getMetadata_data (hm : m.Valid) :
    (o.toMetadataHash (o.toMetadataFile m)).getMetadata (lit "Data") =
      if o.hasFile || o.dataIsVerifiable then
        some (o.dataMetadata ((m.getMetadata (lit "Data")).getD (.new (lit "Data") [] m.plainChar)))
      else m.getMetadata (lit "Data") := by
  have hfile := frame_toMetadataFile (o := o) hm
  have hkeep := keeps_putContent (lit "FileHash") (Base64.encode o.dataHash)
  have hself : o.hasFile = true → (o.toMetadataFile m).getMetadata (lit "Data") = some
      (o.fileMetadata ((m.getMetadata (lit "Data")).getD (.new (lit "Data") [] m.plainChar))) := by
    intro hf
    rw [toMetadataFile_eq, if_pos hf, getMetadata_upsert_self hm _ (keeps_fileMetadata o)]
  rw [toMetadataHash_eq, dataMetadata]
  by_cases hv : o.dataIsVerifiable = true
  · rw [if_pos hv, getMetadata_upsert_self hfile.valid _ hkeep, hfile.plainChar]
    by_cases hf : o.hasFile = true
    · simp [hv, hf, hself hf]
    · simp [hv, hf, toMetadataFile_eq]
  · rw [if_neg hv]
    by_cases hf : o.hasFile = true
    · simp [hv, hf, hself hf]
    · simp [hv, hf, toMetadataFile_eq]

theorem toMetadataSignature_eq (o : DataObject) (m : Metadata) : o.toMetadataSignature m =
    if o.signature.getD [] = [] then m
    else (putContent (lit "Signature") (Base64.encode (o.signature.getD [])) m).updateMetadata
      (lit "Signature") (·.setParameter (lit "signee") o.signee) := by
  unfold toMetadataSignature
  cases o.signature <;> rfl

theorem frame_toMetadataSignature (hm : m.Valid) :
    Frame (lit "Signature") m (o.toMetadataSignature m) := by
  rw [toMetadataSignature_eq]
  split_ifs
  · exact .refl hm _
  · have hput := frame_upsert hm (lit "Signature")
      (keeps_setContent (Base64.encode (o.signature.getD [])))
    exact hput.trans (frame_updateMetadata hput.valid _ (keeps_setParameter _ _))

theorem getMetadata_signature (hm : m.Valid) :
    (o.toMetadataSignature m).getMetadata (lit "Signature") =
      if o.signature.getD [] = [] then m.getMetadata (lit "Signature")
      else some (o.signatureMetadata (o.signature.getD []) ((m.getMetadata (lit "Signature")).getD
        (.new (lit "Signature") [] m.plainChar))) := by
  rw [toMetadataSignature_eq]
  split_ifs
  · rfl
  · have hkeep := keeps_setContent (Base64.encode (o.signature.getD []))
    have hput := frame_upsert hm (lit "Signature") hkeep
    have hhead := getMetadata_upsert_self hm (lit "Signature") hkeep
    rw [getMetadata] at hhead
    rw [putContent_eq, getMetadata, getAll_updateMetadata hput.valid, if_pos rfl,
      List.head?_modifyHead, hhead]
    rfl

theorem attributeMetadata_fields (a : Attribute) {c : PlainChar} :
    (attributeMetadata a c).name = lit "Attr" ∧ (attributeMetadata a c).content = a.value ∧
      (attributeMetadata a c).Leaf ∧ (attributeMetadata a c).Valid := by
  have hv := valid_setParameter (valid_new (lit "Attr") a.value (c := c)) (lit "name") a.name
  unfold attributeMetadata
  split_ifs
  · exact ⟨rfl, rfl, leaf_new (lit "Attr") a.value, valid_setParameter hv _ _⟩
  · exact ⟨rfl, rfl, leaf_new (lit "Attr") a.value, hv⟩

theorem toMetadataAttributes_spec (hm : m.Valid) :
    Frame (lit "Attr") m (o.toMetadataAttributes m) ∧
      (o.toMetadataAttributes m).getAll (lit "Attr") =
        o.attrs.toList.map (fun e => attributeMetadata e.2 m.plainChar) := by
  have hadd : ∀ (l : List (Bytes × Attribute)) {x : Metadata}, x.Valid →
      let y := l.foldl (fun m e => m.addMetadata (attributeMetadata e.2 m.plainChar)) x
      Frame (lit "Attr") x y ∧ y.getAll (lit "Attr") = x.getAll (lit "Attr") ++
        l.map (fun e => attributeMetadata e.2 x.plainChar) := by
    intro l
    induction l with
    | nil => intro x hx; exact ⟨.refl hx _, (List.append_nil _).symm⟩
    | cons e l ih =>
      intro x hx
      obtain ⟨hname, -, -, hvalid⟩ := attributeMetadata_fields e.2 (c := x.plainChar)
      have hframe := frame_addMetadata hx hvalid
      rw [hname] at hframe
      obtain ⟨hf, ha⟩ := ih hframe.valid
      refine ⟨hframe.trans hf, ha.trans ?_⟩
      rw [getAll_addMetadata hx, if_pos hname, List.append_assoc, plainChar_addMetadata]
      rfl
  have hremove := frame_removeMetadata hm (lit "Attr")
  obtain ⟨hf, ha⟩ := hadd o.attrs.toList hremove.valid
  refine ⟨hremove.trans hf, ?_⟩
  rw [toMetadataAttributes, ha, getAll_removeMetadata hm, if_pos rfl, List.nil_append]
  rfl

theorem toMetadata_written (hm : o.metadata = some m) (hv : m.Valid) :
    ∃ m', o.toMetadata = { o with metadata := some m' } ∧ o.Written m m' := by
  have hv1 := valid_setParameter hv (lit "persistent") (lit (if o.persistent then "yes" else "no"))
  have hd := (frame_toMetadataFile (o := o) hv1).trans
    (frame_toMetadataHash (o := o) (frame_toMetadataFile (o := o) hv1).valid)
  have hs := frame_toMetadataSignature (o := o) hd.valid
  obtain ⟨ha, hattrs⟩ := toMetadataAttributes_spec (o := o) hs.valid
  refine ⟨_, by rw [toMetadata, hm], ha.valid, ha.name.trans (hs.name.trans hd.name),
    ha.plainChar.trans (hs.plainChar.trans hd.plainChar), ?_, ?_, ?_, ?_⟩
  · rw [ha.getParameter, hs.getParameter, hd.getParameter,
      getParameter_setParameter_of_ne m (by decide)]
  · rw [ha.getMetadata (by decide), hs.getMetadata (by decide), getMetadata_data hv1]
    rfl
  · rw [ha.getMetadata (by decide), getMetadata_signature hd.valid, hd.getMetadata (by decide),
      hd.plainChar]
    rfl
  · rw [hattrs, hs.plainChar, hd.plainChar]
    rfl

theorem Written.file {m' : Metadata} (h : o.Written m m') (hm : m.Valid) (hf : o.hasFile = true) :
    ∃ dm, m'.getMetadata (lit "Data") = some dm ∧ o.DescribesFile dm := by
  rw [h.data, hf, Bool.true_or, if_pos rfl]
  exact ⟨_, rfl, describesFile_dataMetadata (valid_getD hm _ (valid_new _ _)) hf⟩

theorem Written.hash {m' : Metadata} (h : o.Written m m') (hm : m.Valid)
    (hv : o.dataIsVerifiable = true) :
    ∃ dm, m'.getMetadata (lit "Data") = some dm ∧ o.DescribesHash dm := by
  rw [h.data, hv, Bool.or_true, if_pos rfl]
  exact ⟨_, rfl, describesHash_dataMetadata (valid_getD hm _ (valid_new _ _)) hv⟩

theorem rootElement_attributes (h : RootElement t v f m) :
    RootElement t v f (o.toMetadataAttributes m) := by
  have hadd : ∀ (l : List (Bytes × Attribute)) {x : Metadata}, RootElement t v f x →
      RootElement t v f
        (l.foldl (fun m e => m.addMetadata (attributeMetadata e.2 m.plainChar)) x) := by
    intro l
    induction l with
    | nil => exact fun hx => hx
    | cons e l ih =>
      intro x hx
      obtain ⟨hname, -, -, hvalid⟩ := attributeMetadata_fields e.2 (c := x.plainChar)
      refine ih (hx.addMetadata hvalid ?_ ?_)
      · rw [hname]
        decide
      · rw [hname]
        decide
  exact hadd o.attrs.toList h.removeAttributes

/-- The metadata of an object that was created stay as they are to be. -/
theorem toMetadata_spec (hm : o.metadata = some m)
    (h : RootElement o.createTime o.dataIsVerifiable o.hasFile m) :
    ∃ m', o.toMetadata = { o with metadata := some m' } ∧ o.Serialised m' := by
  obtain ⟨m', heq, hw⟩ := toMetadata_written hm h.valid
  refine ⟨m', heq, ?_, hw.file h.valid, hw.hash h.valid, hw.plainChar ▸ hw.attrs⟩
  have hm' : o.toMetadata.metadata = some m' := congrArg DataObject.metadata heq
  rw [toMetadata, hm] at hm'
  obtain rfl := Option.some.inj hm'
  have h1 := h.setParameter (k := lit "persistent") (lit (if o.persistent then "yes" else "no"))
    (by decide)
  generalize m.setParameter (lit "persistent") (lit (if o.persistent then "yes" else "no")) = m1 at *
  have hfile : RootElement o.createTime o.dataIsVerifiable o.hasFile (o.toMetadataFile m1) := by
    rw [toMetadataFile_eq]
    cases hf : o.hasFile with
    | true =>
      rw [hf] at h1
      exact h1.updateData (keeps_fileMetadata o) fun dm hv => dataElement_fileMetadata hv
    | false => rwa [hf] at h1
  have hhash : RootElement o.createTime o.dataIsVerifiable o.hasFile
      (o.toMetadataHash (o.toMetadataFile m1)) := by
    rw [toMetadataHash_eq]
    split_ifs with hv
    · exact hfile.updateData (keeps_putContent (lit "FileHash") (Base64.encode o.dataHash))
        fun dm hdm hd => hd.putContent hdm _ fun _ => hv
    · exact hfile
  have hsign : RootElement o.createTime o.dataIsVerifiable o.hasFile
      (o.toMetadataSignature (o.toMetadataHash (o.toMetadataFile m1))) := by
    rw [toMetadataSignature_eq]
    split_ifs
    · exact hhash
    · exact hhash.putSignature _ o.signee
  exact rootElement_attributes hsign

end Serialise

end DataObject
end Haggle
