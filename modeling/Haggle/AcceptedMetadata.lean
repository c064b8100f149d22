import Haggle.LocalPaths
import Haggle.Node
import Haggle.StoredObject

/-!
# Metadata that are accepted

Those who call `parseMetadata` look at the sign of the result only. A file path that cannot be used
ends the parsing with `false`, which is not negative, before the attributes are read and the
identifier is computed.
-/

namespace Haggle

open Metadata

namespace DataObject

section Model

/-- `calcIdStr`. -/
def calcIdStr (id : Digest) : Bytes := id.1.flatMap Interface.hexByte

/-- A data object with its `idStr`, which the constructor does not set. -/
structure Labelled where
  obj : DataObject
  idStr : Bytes

/-- `parseMetadata` with the string that `calcId` writes. -/
def Labelled.parseMetadata (pf : Platform) (fs : FileSystem) (x : Labelled) (fromNetwork : Bool) :
    Labelled × Bool :=
  match x.obj.metadata with
  | none => (x, false)
  | some m =>
    match parseSignature m (parseKind m (parseCreateTime pf m (parsePersistent m x.obj))) with
    | (o, false) => ({ x with obj := o }, false)
    | (o, true) =>
      match parseData fs fromNetwork m o with
      | (o, false) => ({ x with obj := o }, true)
      | (o, true) =>
        let o := calcId pf (parseAttributes (o.metadata.getD m) o)
        (⟨o, calcIdStr o.id⟩, true)

theorem Labelled.parseMetadata_obj (pf : Platform) (fs : FileSystem) (x : Labelled)
    (fromNetwork : Bool) :
    ((x.parseMetadata pf fs fromNetwork).1.obj, (x.parseMetadata pf fs fromNetwork).2) =
      x.obj.parseMetadata pf fs fromNetwork := by
  unfold Labelled.parseMetadata DataObject.parseMetadata
  cases x.obj.metadata with
  | none => rfl
  | some m =>
    dsimp only
    generalize parseSignature m _ = r
    obtain ⟨o, ok⟩ := r
    cases ok with
    | false => rfl
    | true =>
      dsimp only
      generalize parseData fs fromNetwork m o = q
      obtain ⟨o, ok⟩ := q
      cases ok <;> rfl

/-- The signature in the metadata is looked at, and is not base64. -/
def BadSignature (o : DataObject) (m : Metadata) : Prop :=
  o.signatureStatus = .missing ∧
    ∃ sm, m.getMetadata (lit "Signature") = some sm ∧ Base64.decodeAlloc sm.content = none

/-- The metadata name a file that is not there, or has not the length that they say. -/
def BadPath (fs : FileSystem) (o : DataObject) (m : Metadata) (fromNetwork : Bool) : Prop :=
  ∃ dm p, m.getMetadata (lit "Data") = some dm ∧ dm.getMetadata (lit "FilePath") = some p ∧
    ¬FileThere fs o dm p fromNetwork

/-- The object has the attributes in the metadata, and the identifier that comes of its fields. -/
structure FullyParsed (pf : Platform) (m : Metadata) (x : Labelled) : Prop where
  attributes : (x.obj.attrs.toList.map Prod.snd).Perm
    (Attributes.distinct ((m.getAll (lit "Attr")).map attributeOf))
  id : x.obj.id = (x.obj.calcId pf).id
  idStr : x.idStr = calcIdStr x.obj.id

/-- Metadata that are accepted are parsed, and no part of them is unusable. -/
structure SignTells (pf : Platform) (fs : FileSystem) (x : Labelled) (m : Metadata)
    (fromNetwork : Bool) : Prop where
  accepted : (x.parseMetadata pf fs fromNetwork).2 = true →
    FullyParsed pf m (x.parseMetadata pf fs fromNetwork).1
  unusable : BadSignature x.obj m ∨ BadPath fs x.obj m fromNetwork →
    (x.parseMetadata pf fs fromNetwork).2 = false

end Model

section Parts

variable {fs : FileSystem} {fromNetwork : Bool} {m : Metadata} {o : DataObject}

theorem parseSignature_iff : (parseSignature m o).2 = true ↔ ¬BadSignature o m := by
  unfold parseSignature BadSignature
  by_cases hstatus : o.signatureStatus = .missing
  · rw [if_neg (not_not.mpr hstatus)]
    cases hs : m.getMetadata (lit "Signature") with
    | none => simp
    | some sm =>
      dsimp only
      cases hdec : Base64.decodeAlloc sm.content with
      | none => simp [hstatus, hdec]
      | some s => simp [hstatus, hdec]
  · simp [hstatus]

theorem attrs_parseSignature : (parseSignature m o).1.attrs = o.attrs := by
  unfold parseSignature
  split_ifs
  · rfl
  · split
    · rfl
    · dsimp only
      split <;> rfl

theorem attrs_parseHead (pf : Platform) :
    (parseKind m (parseCreateTime pf m (parsePersistent m o))).attrs = o.attrs := by
  have hp : (parsePersistent m o).attrs = o.attrs := by
    unfold parsePersistent
    split
    · rfl
    · split_ifs <;> rfl
  unfold parseKind parseCreateTime
  split <;> exact hp

theorem parseFilePath_spec (fs : FileSystem) (fromNetwork : Bool) (dm : Metadata)
    (o : DataObject) :
    ((parseFilePath fs fromNetwork dm o).2.2 = true ↔
      ∀ p, dm.getMetadata (lit "FilePath") = some p →
        (setFilePath fs o p.content o.dataLen fromNetwork).2 = true) ∧
      (parseFilePath fs fromNetwork dm o).1.attrs = o.attrs := by
  have hattrs : ∀ path len, (setFilePath fs o path len fromNetwork).1.attrs = o.attrs := by
    intro path len
    unfold setFilePath
    cases fromNetwork with
    | true => rfl
    | false => cases fs.read path <;> (dsimp only; split_ifs <;> rfl)
  unfold parseFilePath
  cases hp : dm.getMetadata (lit "FilePath") with
  | none => exact ⟨iff_of_true rfl nofun, rfl⟩
  | some p =>
    have hset := hattrs p.content o.dataLen
    dsimp only
    simp only [Option.some.injEq, forall_eq']
    generalize setFilePath fs o p.content o.dataLen fromNetwork = r at hset ⊢
    obtain ⟨o', ok⟩ := r
    cases ok with
    | false => exact ⟨Iff.rfl, hset⟩
    | true =>
      dsimp only
      split_ifs
      · exact ⟨Iff.rfl, hset⟩
      · exact ⟨Iff.rfl, hset⟩

theorem parseData_spec (hm : m.Valid) (hmeta : o.metadata = some m) :
    ((parseData fs fromNetwork m o).2 = true ↔ ¬BadPath fs o m fromNetwork) ∧
      (parseData fs fromNetwork m o).1.attrs = o.attrs ∧
        ∃ m', (parseData fs fromNetwork m o).1.metadata = some m' ∧
          m'.getAll (lit "Attr") = m.getAll (lit "Attr") := by
  unfold parseData
  cases hd : m.getMetadata (lit "Data") with
  | none =>
    refine ⟨iff_of_true rfl ?_, rfl, m, hmeta, rfl⟩
    rintro ⟨dm, p, hdm, -⟩
    rw [hd] at hdm
    cases hdm
  | some dm =>
    dsimp only
    set o1 := parseDataLen dm o with ho1
    have hlen : (parseFileName dm o1).dataLen =
        (dm.getParameter (lit "data_len")).elim o.dataLen strtoul := by
      rw [ho1, parseDataLen]
      cases dm.getParameter (lit "data_len") <;> (unfold parseFileName; split <;> rfl)
    have hattrs : (parseFileName dm o1).attrs = o.attrs := by
      rw [ho1, parseDataLen]
      cases dm.getParameter (lit "data_len") <;> (unfold parseFileName; split <;> rfl)
    obtain ⟨hok, hkept⟩ := parseFilePath_spec fs fromNetwork dm (parseFileName dm o1)
    have hbad : (parseFilePath fs fromNetwork dm (parseFileName dm o1)).2.2 = true ↔
        ¬BadPath fs o m fromNetwork := by
      have hthere : ∀ p, (setFilePath fs (parseFileName dm o1) p.content
          (parseFileName dm o1).dataLen fromNetwork).2 = true ↔
            FileThere fs o dm p fromNetwork := by
        intro p
        rw [setFilePath_ok, hlen, FileThere]
      rw [hok]
      constructor
      · rintro h ⟨dm2, p, hdm, hp, hnot⟩
        obtain rfl := Option.some.inj (hd.symm.trans hdm)
        exact hnot ((hthere p).mp (h p hp))
      · intro h p hp
        by_contra hnot
        exact h ⟨dm, p, hd, hp, fun hyes => hnot ((hthere p).mpr hyes)⟩
    rw [hattrs] at hkept
    rw [← hbad]
    generalize parseFilePath fs fromNetwork dm (parseFileName dm o1) = r at hkept ⊢
    obtain ⟨o2, dm', ok⟩ := r
    have hget : (m.updateMetadata (lit "Data") fun _ => dm').getAll (lit "Attr") =
        m.getAll (lit "Attr") := by
      rw [getAll_updateMetadata hm, if_neg (by decide)]
    cases ok with
    | false => exact ⟨Iff.rfl, hkept, _, rfl, hget⟩
    | true =>
      refine ⟨Iff.rfl, (parseFileHash_fields dm' _).1.trans hkept, _,
        (parseFileHash_fields dm' _).2.2.1, hget⟩

end Parts

section Accepted

variable {pf : Platform} {fs : FileSystem} {x : Labelled} {m : Metadata} {fromNetwork : Bool}

/-- The exits: a signature that cannot be decoded, a path that cannot be used, and the end. -/
theorem Labelled.parseMetadata_spec (hm : m.Valid) (hmeta : x.obj.metadata = some m)
    (hattrs : x.obj.attrs = HashMap.empty pf.plainChar) :
    ((x.parseMetadata pf fs fromNetwork).2 = true ↔ ¬BadSignature x.obj m) ∧
      (¬BadSignature x.obj m → ¬BadPath fs x.obj m fromNetwork →
        FullyParsed pf m (x.parseMetadata pf fs fromNetwork).1) := by
  obtain ⟨hhmeta, hhlen, hhsig⟩ := parseHead_fields pf m x.obj
  have hhattrs := @attrs_parseHead m x.obj pf
  have hok := parseSignature_ok m hhsig
  obtain ⟨hsmeta, hslen⟩ := parseSignature_fields m
    (parseKind m (parseCreateTime pf m (parsePersistent m x.obj)))
  have hsattrs := @attrs_parseSignature m
    (parseKind m (parseCreateTime pf m (parsePersistent m x.obj)))
  unfold Labelled.parseMetadata
  simp only [hmeta]
  rw [← parseSignature_iff, ← hok]
  generalize parseSignature m
    (parseKind m (parseCreateTime pf m (parsePersistent m x.obj))) = r at *
  obtain ⟨o1, ok⟩ := r
  dsimp only at hsmeta hslen hsattrs ⊢
  cases ok with
  | false => exact ⟨Iff.rfl, fun h => absurd h Bool.false_ne_true⟩
  | true =>
    obtain ⟨hbad, hdattrs, m', hm', hget⟩ := @parseData_spec fs fromNetwork m o1 hm
      (hsmeta.trans (hhmeta.trans hmeta))
    have hbad' : BadPath fs o1 m fromNetwork ↔ BadPath fs x.obj m fromNetwork := by
      simp only [BadPath, FileThere, hslen, hhlen]
    rw [hbad'] at hbad
    dsimp only
    generalize parseData fs fromNetwork m o1 = q at hbad hdattrs hm' ⊢
    obtain ⟨o2, ok⟩ := q
    cases ok with
    | false => exact ⟨Iff.rfl, fun _ hgood => absurd (hbad.mpr hgood) Bool.false_ne_true⟩
    | true =>
      refine ⟨Iff.rfl, fun _ _ => ⟨?_, rfl, rfl⟩⟩
      have hempty : o2.attrs = HashMap.empty pf.plainChar :=
        hdattrs.trans (hsattrs.trans (hhattrs.trans hattrs))
      dsimp only at hm'
      change ((parseAttributes (o2.metadata.getD m) o2).attrs.toList.map Prod.snd).Perm _
      rw [hm', Option.getD_some, parseAttributes, hget]
      exact (foldl_addParsed_distinct _ hempty).2.2

/-- Metadata from the network that are accepted are parsed. -/
theorem completeHeader_fullyParsed {o o' : DataObject} {header : Bytes}
    (ho : o.attrs = HashMap.empty pf.plainChar) (h : completeHeader pf fs o header = (o', true))
    (idStr : Bytes) :
    ∃ m x, Metadata.initFromRaw pf.lib header pf.plainChar = some m ∧
      Labelled.parseMetadata pf fs ⟨{ o with metadata := some m }, idStr⟩ true = (x, true) ∧
        x.obj = o' ∧ FullyParsed pf m x := by
  unfold completeHeader at h
  cases hm : Metadata.initFromRaw pf.lib header pf.plainChar with
  | none =>
    rw [hm] at h
    cases h
  | some m =>
    simp only [hm] at h
    by_cases hname : m.name = lit "Haggle"
    · rw [if_neg (not_not.mpr hname)] at h
      have hobj := Labelled.parseMetadata_obj pf fs ⟨{ o with metadata := some m }, idStr⟩ true
      obtain ⟨hok, hparsed⟩ := @Labelled.parseMetadata_spec pf fs
        ⟨{ o with metadata := some m }, idStr⟩ m true (valid_initFromRaw hm) rfl ho
      have hgood : ¬BadPath fs { o with metadata := some m } m true := by
        rintro ⟨dm, p, -, -, hnot⟩
        exact hnot (Or.inl rfl)
      refine ⟨m, ?_⟩
      generalize Labelled.parseMetadata pf fs ⟨{ o with metadata := some m }, idStr⟩ true = r
        at hobj hok hparsed ⊢
      obtain ⟨x, ok⟩ := r
      dsimp only at hobj
      rw [← hobj] at h
      cases ok with
      | false => cases h
      | true => exact ⟨x, rfl, rfl, congrArg Prod.fst h, hparsed (hok.mp rfl) hgood⟩
    · rw [if_pos hname] at h
      cases h

/-- The metadata of a stored object are parsed if the file that they name, if any, can be used. -/
theorem createDataObject_fullyParsed {o o₁ o' : DataObject} {r : Sql.Row} {m : Metadata}
    (ho : o₁.attrs = HashMap.empty pf.plainChar) (hr : StoredObject.restored fs o r = some o₁)
    (hm : Metadata.initFromRaw pf.lib (StoredObject.columnText r (lit "xmlhdr")) pf.plainChar =
      some m)
    (h : StoredObject.createDataObject pf fs o r = some o') (hpath : ¬BadPath fs o₁ m false)
    (idStr : Bytes) :
    ∃ x, Labelled.parseMetadata pf fs ⟨{ o₁ with metadata := some m }, idStr⟩ false = (x, true) ∧
      x.obj = o' ∧ FullyParsed pf m x := by
  unfold StoredObject.createDataObject at h
  simp only [hr, hm] at h
  by_cases hname : m.name = lit "Haggle"
  · rw [if_neg (not_not.mpr hname)] at h
    have hobj := Labelled.parseMetadata_obj pf fs ⟨{ o₁ with metadata := some m }, idStr⟩ false
    obtain ⟨hok, hparsed⟩ := @Labelled.parseMetadata_spec pf fs
      ⟨{ o₁ with metadata := some m }, idStr⟩ m false (valid_initFromRaw hm) rfl ho
    generalize Labelled.parseMetadata pf fs ⟨{ o₁ with metadata := some m }, idStr⟩ false = r
      at hobj hok hparsed ⊢
    obtain ⟨x, ok⟩ := r
    dsimp only at hobj
    rw [← hobj] at h
    cases ok with
    | false => cases h
    | true => exact ⟨x, rfl, Option.some.inj h, hparsed (hok.mp rfl) hpath⟩
  · rw [if_pos hname] at h
    cases h

/-- The sign of the result tells what became of the metadata unless the file that they name cannot
be used, and is looked for. -/
theorem signTells_iff (hm : m.Valid) (hmeta : x.obj.metadata = some m)
    (hattrs : x.obj.attrs = HashMap.empty pf.plainChar) :
    SignTells pf fs x m fromNetwork ↔
      (BadPath fs x.obj m fromNetwork → BadSignature x.obj m) := by
  obtain ⟨hok, hparsed⟩ := @Labelled.parseMetadata_spec pf fs x m fromNetwork hm hmeta hattrs
  constructor
  · intro h hpath
    by_contra hsig
    exact Bool.false_ne_true ((h.unusable (Or.inr hpath)).symm.trans (hok.mpr hsig))
  · intro h
    refine ⟨fun haccepted => ?_, fun hunusable => ?_⟩
    · have hsig := hok.mp haccepted
      exact hparsed hsig fun hpath => hsig (h hpath)
    · have hsig : BadSignature x.obj m := hunusable.elim (fun hsig => hsig) h
      exact Bool.eq_false_iff.mpr fun htrue => hok.mp htrue hsig

end Accepted

end DataObject

namespace Sample

open DataObject Metadata

/-- Metadata with a path and an attribute. -/
def pathMetadata : Metadata :=
  ((Metadata.new (lit "Haggle") []).addMetadata
    ((Metadata.new (lit "Data") []).addMetadata (.new (lit "FilePath") (lit "/f")))).addMetadata
      (attributeMetadata ⟨lit "news", lit "sports", 3⟩)

theorem valid_pathMetadata : pathMetadata.Valid :=
  valid_addMetadata (valid_addMetadata (valid_new _ _) (valid_addMetadata (valid_new _ _)
    (valid_new _ _))) (valid_setParameter (valid_setParameter (valid_new _ _) _ _) _ _)

def pathObject : Labelled :=
  ⟨{ DataObject.new (lit "/s") digest.1 with metadata := some pathMetadata }, []⟩

/-- A storage with the file. -/
def storedFile : FileSystem := { storage with files := [(lit "/f", lit "ab")] }

theorem signTells_storedFile : SignTells onePlatform storedFile pathObject pathMetadata false := by
  refine (signTells_iff valid_pathMetadata rfl rfl).mpr ?_
  rintro ⟨dm, p, hdm, hp, hnot⟩
  have hdm' : pathMetadata.getMetadata (lit "Data") =
      some ((Metadata.new (lit "Data") []).addMetadata (.new (lit "FilePath") (lit "/f"))) := by
    rfl
  obtain rfl := Option.some.inj (hdm'.symm.trans hdm)
  have hp' : ((Metadata.new (lit "Data") []).addMetadata
      (.new (lit "FilePath") (lit "/f"))).getMetadata (lit "FilePath") =
        some (.new (lit "FilePath") (lit "/f")) := by rfl
  obtain rfl := Option.some.inj (hp'.symm.trans hp)
  exact absurd (Or.inr ⟨lit "ab", rfl, Or.inl rfl⟩) hnot

/-- Without the file the metadata are accepted, and the object has not its attribute. -/
theorem not_signTells_missingFile :
    ¬SignTells onePlatform storage pathObject pathMetadata false := by
  intro h
  have hperm := (h.accepted (by decide)).attributes.length_eq
  revert hperm
  decide

end Sample
end Haggle
