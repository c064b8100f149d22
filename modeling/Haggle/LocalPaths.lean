import Haggle.MetadataPaths
import Haggle.ObjectHistory
import Haggle.ObjectReceive
import Haggle.HeaderDetection
import Haggle.Trace

/-!
# Local paths

Metadata for a local application names the file of the object. The path stays in the metadata when
the object is not for a local application any more, and a path in metadata that are read is removed
only from where it should be, and only if its file is there.
-/

namespace Haggle

open Metadata

/-- There is a path in the metadata, apart from the attributes, which are written anew each time. -/
def Metadata.Carries (m : Metadata) : Prop := ∃ k, k ≠ lit "Attr" ∧ m.HoldsAt k

namespace DataObject

/-- The copy constructor. -/
def copy (o : DataObject) : DataObject :=
  { o with metadata := o.metadata.map Metadata.copy, controlMessage := false }

/-- When `toMetadata` writes the path of the file. -/
def writesPath (o : DataObject) : Bool :=
  o.isForLocalApp && o.hasFile

/-- A new object whose other fields are set is given the metadata that are read. -/
def parseRaw (pf : Platform) (fs : FileSystem) (o : DataObject) (raw : Bytes)
    (fromNetwork : Bool) : Option DataObject :=
  match Metadata.initFromRaw pf.lib raw pf.plainChar with
  | none => none
  | some m =>
    if m.name ≠ lit "Haggle" then none
    else
      let o := { o with isForLocalApp := false, metadata := some m }
      match parseMetadata pf fs o fromNetwork with
      | (_, false) => none
      | (o, true) => some o

/-- The file of a path in metadata is there and has the length that the metadata say, if any. What
comes from the network is not looked for. -/
def FileThere (fs : FileSystem) (o : DataObject) (dm p : Metadata) (fromNetwork : Bool) : Prop :=
  fromNetwork = true ∨ ∃ c, fs.read p.content = some c ∧
    (((dm.getParameter (lit "data_len")).elim o.dataLen strtoul) = 0 ∨
      c.length = (dm.getParameter (lit "data_len")).elim o.dataLen strtoul)

/-- There is no path in metadata, or only in the first `Data` element, and its file is there. -/
def PathInPlace (fs : FileSystem) (o : DataObject) (m : Metadata) (fromNetwork : Bool) : Prop :=
  match m.getMetadata (lit "Data") with
  | none => ¬m.Carries
  | some dm =>
    ¬(m.updateMetadata (lit "Data") (·.removeMetadata (lit "FilePath"))).Carries ∧
      ∀ p, dm.getMetadata (lit "FilePath") = some p → FileThere fs o dm p fromNetwork

section Serialise

variable {o : DataObject} {m : Metadata}

theorem keepsPaths_fileMetadata (h : o.isForLocalApp = false) : KeepsPaths o.fileMetadata := by
  have hlen := keepsPaths_setParameter (lit "data_len") ((decimal o.dataLen).take 19)
  have hname := keepsPaths_putContent (k := lit "FileName") (by decide) o.filename
  have heq : o.fileMetadata = fun dm =>
      putContent (lit "FileName") o.filename
        (dm.setParameter (lit "data_len") ((decimal o.dataLen).take 19)) := by
    funext dm
    rw [fileMetadata, if_neg (by rw [h]; exact Bool.false_ne_true)]
  rw [heq]
  exact KeepsPaths.comp hname hlen

theorem holdsPath_fileMetadata (h : o.isForLocalApp = true) {dm : Metadata} (hdm : dm.Valid) :
    (o.fileMetadata dm).HoldsPath := by
  have hlen := valid_setParameter hdm (lit "data_len") ((decimal o.dataLen).take 19)
  have hpath := keeps_putContent (lit "FilePath") o.filepath _ hlen
  rw [fileMetadata, if_pos h,
    (keepsPaths_putContent (k := lit "FileName") (by decide) o.filename).2 _ hpath.1,
    holdsPath_iff hpath.1]
  have hall := getAll_upsert_self hlen (lit "FilePath") (keeps_setContent o.filepath)
  exact ⟨lit "FilePath", holdsAt_of_getAll hall (.inl rfl)⟩

/-- The parts of `toMetadata` behind the one about the file. -/
theorem holdsAt_rest (o : DataObject) (hm : m.Valid) :
    (o.toMetadataAttributes (o.toMetadataSignature (o.toMetadataHash m))).Valid ∧ ∀ k,
      (o.toMetadataAttributes (o.toMetadataSignature (o.toMetadataHash m))).HoldsAt k ↔
        k ≠ lit "Attr" ∧ m.HoldsAt k := by
  have hhash : (o.toMetadataHash m).Valid ∧ ∀ k, (o.toMetadataHash m).HoldsAt k ↔ m.HoldsAt k := by
    unfold toMetadataHash
    split_ifs
    · have hput :=
        keepsPaths_putContent (k := lit "FileHash") (by decide) (Base64.encode o.dataHash)
      exact ⟨valid_upsert hm _ hput.1, holdsAt_upsert hm (by decide) hput⟩
    · exact ⟨hm, fun _ => Iff.rfl⟩
  generalize o.toMetadataHash m = m1 at hhash ⊢
  have hsig : (o.toMetadataSignature m1).Valid ∧
      ∀ k, (o.toMetadataSignature m1).HoldsAt k ↔ m.HoldsAt k := by
    unfold toMetadataSignature
    split
    · exact hhash
    · split_ifs
      · exact hhash
      · rename_i s _ _
        have hput := keeps_putContent (lit "Signature") (Base64.encode s) m1 hhash.1
        have hparam := keepsPaths_setParameter (lit "signee") o.signee
        refine ⟨valid_updateMetadata hput.1 _ hparam.1, fun k => ?_⟩
        rw [holdsAt_updateMetadata hput.1 _ _ hparam, putContent_eq,
          holdsAt_upsert hhash.1 (by decide) (keepsPaths_setContent _), hhash.2]
  generalize o.toMetadataSignature m1 = m2 at hsig ⊢
  have hadd : ∀ (l : List (Bytes × Attribute)) {x : Metadata}, x.Valid →
      (l.foldl (fun m e => m.addMetadata (attributeMetadata e.2 m.plainChar)) x).Valid ∧ ∀ k,
        (l.foldl (fun m e => m.addMetadata (attributeMetadata e.2 m.plainChar)) x).HoldsAt k ↔
          x.HoldsAt k := by
    intro l
    induction l with
    | nil => exact fun hx => ⟨hx, fun _ => Iff.rfl⟩
    | cons e l ih =>
      intro x hx
      obtain ⟨hname, -, hleaf, hvalid⟩ := attributeMetadata_fields e.2 (c := x.plainChar)
      obtain ⟨hv, hk⟩ := ih (valid_addMetadata hx hvalid)
      refine ⟨hv, fun k => (hk k).trans ?_⟩
      rw [holdsAt_addMetadata hx, hname]
      constructor
      · rintro (h | ⟨rfl, h | h⟩)
        · exact h
        · exact absurd h (by decide)
        · cases h with
          | here he => rw [show _ = [] from hleaf] at he; cases he
          | deeper he => rw [show _ = [] from hleaf] at he; cases he
      · exact .inl
  obtain ⟨hv, hk⟩ := hadd o.attrs.toList (valid_removeMetadata hsig.1 (lit "Attr"))
  refine ⟨hv, fun k => ?_⟩
  rw [toMetadataAttributes, hk, holdsAt_removeMetadata hsig.1, hsig.2]

theorem toMetadata_keepsPaths (hmeta : o.metadata = some m) (hm : m.Valid)
    (h : o.writesPath = false) : ∃ m', o.toMetadata = { o with metadata := some m' } ∧ m'.Valid ∧
      ∀ k, m'.HoldsAt k ↔ k ≠ lit "Attr" ∧ m.HoldsAt k := by
  have hpersistent := valid_setParameter hm (lit "persistent")
    (lit (if o.persistent then "yes" else "no"))
  have hfile : ∀ {x : Metadata}, x.Valid →
      (o.toMetadataFile x).Valid ∧ ∀ k, (o.toMetadataFile x).HoldsAt k ↔ x.HoldsAt k := by
    intro x hx
    unfold toMetadataFile
    split_ifs with hf
    · have hlocal : o.isForLocalApp = false := by
        simpa [writesPath, hasFile, hf] using h
      have hkeeps := keepsPaths_fileMetadata hlocal
      exact ⟨valid_upsert hx _ hkeeps.1, holdsAt_upsert hx (by decide) hkeeps⟩
    · exact ⟨hx, fun _ => Iff.rfl⟩
  obtain ⟨hv1, hk1⟩ := hfile hpersistent
  obtain ⟨hv2, hk2⟩ := holdsAt_rest o hv1
  refine ⟨_, by rw [toMetadata, hmeta], hv2, fun k => ?_⟩
  rw [hk2, hk1]
  exact and_congr_right fun _ => holdsAt_of_registry rfl k

theorem toMetadata_writesPath (hmeta : o.metadata = some m) (hm : m.Valid)
    (h : o.writesPath = true) : ∃ m', o.toMetadata = { o with metadata := some m' } ∧ m'.Valid ∧
      m'.HoldsAt (lit "Data") := by
  have hpersistent := valid_setParameter hm (lit "persistent")
    (lit (if o.persistent then "yes" else "no"))
  obtain ⟨hlocal, hfile⟩ := Bool.and_eq_true_iff.mp h
  have hf : o.dataLen ≠ 0 ∧ o.filename ≠ [] := by simpa [hasFile] using hfile
  have hput : ∀ {x : Metadata}, x.Valid →
      (o.toMetadataFile x).Valid ∧ (o.toMetadataFile x).HoldsAt (lit "Data") := by
    intro x hx
    have hkeeps := keeps_fileMetadata o
    rw [toMetadataFile, if_pos hf, updateData_eq]
    have hfirst : ((x.getAll (lit "Data")).headD (.new (lit "Data") [] x.plainChar)).Valid := by
      cases hall : x.getAll (lit "Data") with
      | nil => exact valid_new _ _
      | cons c cs => exact (mem_getAll hx (hall ▸ List.mem_cons_self)).2
    exact ⟨valid_upsert hx _ hkeeps, holdsAt_of_getAll (getAll_upsert_self hx _ hkeeps)
      (.inr (holdsPath_fileMetadata hlocal hfirst))⟩
  obtain ⟨hv1, hk1⟩ := hput hpersistent
  obtain ⟨hv2, hk2⟩ := holdsAt_rest o hv1
  exact ⟨_, by rw [toMetadata, hmeta], hv2, (hk2 _).mpr ⟨by decide, hk1⟩⟩

end Serialise

section Parse

variable {pf : Platform} {fs : FileSystem} {o o' : DataObject} {m dm : Metadata}
  {fromNetwork : Bool} {raw : Bytes}

theorem parseHead_fields (pf : Platform) (m : Metadata) (o : DataObject) :
    (parseKind m (parseCreateTime pf m (parsePersistent m o))).metadata = o.metadata ∧
      (parseKind m (parseCreateTime pf m (parsePersistent m o))).dataLen = o.dataLen ∧
      (parseKind m (parseCreateTime pf m (parsePersistent m o))).signatureStatus =
        o.signatureStatus := by
  have hp : (parsePersistent m o).metadata = o.metadata ∧
      (parsePersistent m o).dataLen = o.dataLen ∧
        (parsePersistent m o).signatureStatus = o.signatureStatus := by
    unfold parsePersistent
    split
    · exact ⟨rfl, rfl, rfl⟩
    · split_ifs <;> exact ⟨rfl, rfl, rfl⟩
  unfold parseKind parseCreateTime
  split <;> exact hp

theorem parseSignature_fields (m : Metadata) (o : DataObject) :
    (parseSignature m o).1.metadata = o.metadata ∧ (parseSignature m o).1.dataLen = o.dataLen := by
  unfold parseSignature
  split_ifs
  · exact ⟨rfl, rfl⟩
  · split
    · exact ⟨rfl, rfl⟩
    · dsimp only
      split <;> exact ⟨rfl, rfl⟩

theorem parseSignature_ok (m : Metadata) (h : o'.signatureStatus = o.signatureStatus) :
    (parseSignature m o').2 = (parseSignature m o).2 := by
  unfold parseSignature
  rw [h]
  split_ifs
  · rfl
  · split
    · rfl
    · dsimp only
      split <;> rfl

theorem metadata_parseAttributes (m : Metadata) (o : DataObject) :
    (parseAttributes m o).metadata = o.metadata := by
  unfold parseAttributes
  generalize (m.getAll (lit "Attr")).map attributeOf = as
  induction as generalizing o with
  | nil => rfl
  | cons a as ih =>
    rw [List.foldl_cons, ih, addParsed]
    dsimp only
    split_ifs <;> rfl

theorem setFilePath_ok (fs : FileSystem) (o : DataObject) (path : Bytes) (len : ℕ)
    (fromNetwork : Bool) : (setFilePath fs o path len fromNetwork).2 = true ↔
      fromNetwork = true ∨ ∃ c, fs.read path = some c ∧ (len = 0 ∨ c.length = len) := by
  unfold setFilePath
  cases fromNetwork with
  | true => simp
  | false =>
    cases fs.read path with
    | none => simp
    | some c =>
      by_cases hlen : len = 0
      · simp [hlen]
      · simp [hlen]

/-- The `Data` element after its path was parsed: the path is gone if it was accepted. -/
theorem parseFilePath_paths (fs : FileSystem) (fromNetwork : Bool) (hdm : dm.Valid)
    (o : DataObject) :
    (parseFilePath fs fromNetwork dm o).2.1.Valid ∧
      (parseFilePath fs fromNetwork dm o).2.1.name = dm.name ∧
      ((parseFilePath fs fromNetwork dm o).2.1.HoldsPath ↔
        (dm.removeMetadata (lit "FilePath")).HoldsPath ∨
          ∃ p, dm.getMetadata (lit "FilePath") = some p ∧
            (setFilePath fs o p.content o.dataLen fromNetwork).2 = false) := by
  have hremove := valid_removeMetadata hdm (lit "FilePath")
  unfold parseFilePath
  cases hp : dm.getMetadata (lit "FilePath") with
  | none =>
    refine ⟨hdm, rfl, ?_⟩
    have hnone : ¬dm.HoldsAt (lit "FilePath") := by
      rintro ⟨c, hc, -⟩
      rw [getMetadata, List.head?_eq_none_iff] at hp
      rw [hp] at hc
      cases hc
    simp only [holdsPath_iff hdm, holdsPath_iff hremove, holdsAt_removeMetadata hdm, reduceCtorEq,
      false_and, exists_false, or_false]
    refine exists_congr fun k => ⟨fun h => ⟨fun hk => hnone (hk ▸ h), h⟩, fun h => h.2⟩
  | some p =>
    simp only [Option.some.injEq, exists_eq_left']
    cases hset : setFilePath fs o p.content o.dataLen fromNetwork with
    | mk o1 ok =>
      cases ok with
      | false =>
        obtain ⟨cs, hcs⟩ := List.head?_eq_some_iff.mp hp
        refine ⟨hdm, rfl, ?_⟩
        simp only [or_true, iff_true]
        exact (holdsPath_iff hdm).mpr ⟨_, holdsAt_of_getAll hcs (.inl rfl)⟩
      | true =>
        simp only [Bool.true_eq_false, or_false]
        split_ifs
        · have hnew := valid_new (lit "FileName") (baseName o1.filepath) (c := dm.plainChar)
          have hadd := valid_addMetadata hdm hnew
          refine ⟨valid_removeMetadata hadd _, rfl, ?_⟩
          rw [holdsPath_iff hremove, holdsPath_iff (valid_removeMetadata hadd _)]
          refine exists_congr fun k => ?_
          rw [holdsAt_removeMetadata hadd, holdsAt_removeMetadata hdm, holdsAt_addMetadata hdm]
          have hno := not_holdsPath_new (lit "FileName") (baseName o1.filepath) (c := dm.plainChar)
          tauto
        · exact ⟨hremove, rfl, Iff.rfl⟩

theorem valid_replace {d : Metadata} (hm : m.Valid) (hd : d.Valid) :
    (m.updateMetadata d.name fun _ => d).Valid :=
  valid_updateMetadata_of_name hm fun _ _ _ => ⟨hd, rfl⟩

/-- Two ways to change the first element of a name, compared. -/
theorem carries_updateMetadata (hm : m.Valid) {f g : Metadata → Metadata} {p : Prop}
    (hd : m.getMetadata (lit "Data") = some dm)
    (hfg : (f dm).HoldsPath ↔ (g dm).HoldsPath ∨ p) :
    (m.updateMetadata (lit "Data") f).Carries ↔ (m.updateMetadata (lit "Data") g).Carries ∨ p := by
  obtain ⟨cs, hcs⟩ := List.head?_eq_some_iff.mp hd
  have hdata : ∀ f : Metadata → Metadata, (m.updateMetadata (lit "Data") f).HoldsAt (lit "Data") ↔
      (f dm).HoldsPath ∨ ∃ c ∈ cs, c.HoldsPath := by
    intro f
    have hne : lit "Data" ≠ lit "FilePath" := by decide
    rw [HoldsAt, getAll_updateMetadata hm, if_pos rfl, hcs]
    simp only [List.modifyHead_cons, List.exists_mem_cons_iff, hne, false_or]
  have hother : ∀ (f : Metadata → Metadata) {k : Bytes}, lit "Data" ≠ k →
      ((m.updateMetadata (lit "Data") f).HoldsAt k ↔ m.HoldsAt k) := by
    intro f k hk
    rw [HoldsAt, getAll_updateMetadata hm, if_neg hk]
    rfl
  have hsplit : ∀ f : Metadata → Metadata, (m.updateMetadata (lit "Data") f).Carries ↔
      ((f dm).HoldsPath ∨ ∃ c ∈ cs, c.HoldsPath) ∨
        ∃ k, k ≠ lit "Attr" ∧ lit "Data" ≠ k ∧ m.HoldsAt k := by
    intro f
    constructor
    · rintro ⟨k, hk, h⟩
      by_cases hkd : lit "Data" = k
      · subst hkd
        exact .inl ((hdata f).mp h)
      · exact .inr ⟨k, hk, hkd, (hother f hkd).mp h⟩
    · rintro (h | ⟨k, hk, hkd, h⟩)
      · exact ⟨_, by decide, (hdata f).mpr h⟩
      · exact ⟨k, hk, (hother f hkd).mpr h⟩
  rw [hsplit f, hsplit g, hfg, @or_right_comm _ p, @or_right_comm _ p]

/-- What is parsed carries a path unless there is none or it is in its place. -/
theorem parseData_paths (fs : FileSystem) (fromNetwork : Bool) (hmeta : o.metadata = some m)
    (hm : m.Valid) :
    ∃ m', (parseData fs fromNetwork m o).1.metadata = some m' ∧ m'.Valid ∧
      (m'.Carries ↔ ¬PathInPlace fs o m fromNetwork) := by
  unfold parseData PathInPlace
  cases hd : m.getMetadata (lit "Data") with
  | none => exact ⟨m, hmeta, hm, not_not.symm⟩
  | some dm =>
    obtain ⟨hname, hdm⟩ := mem_getAll hm (List.mem_of_mem_head? hd)
    dsimp only
    set o1 := parseDataLen dm o with ho1
    have hlen : (parseFileName dm o1).dataLen =
        (dm.getParameter (lit "data_len")).elim o.dataLen strtoul := by
      rw [ho1, parseDataLen]
      cases dm.getParameter (lit "data_len") <;> (unfold parseFileName; split <;> rfl)
    obtain ⟨hvalid, hname', hholds⟩ :=
      parseFilePath_paths fs fromNetwork hdm (parseFileName dm o1)
    have hthere : (∃ p, dm.getMetadata (lit "FilePath") = some p ∧ (setFilePath fs
        (parseFileName dm o1) p.content (parseFileName dm o1).dataLen fromNetwork).2 = false) ↔
          ¬∀ p, dm.getMetadata (lit "FilePath") = some p → FileThere fs o dm p fromNetwork := by
      simp only [not_forall, ← Bool.not_eq_true, setFilePath_ok, hlen, FileThere, exists_prop]
    rw [hthere] at hholds
    generalize parseFilePath fs fromNetwork dm (parseFileName dm o1) = r at hvalid hname' hholds ⊢
    obtain ⟨o2, dm', ok⟩ := r
    have hreplaced := valid_replace hm hvalid
    rw [hname', hname] at hreplaced
    refine ⟨m.updateMetadata (lit "Data") fun _ => dm', ?_, hreplaced, ?_⟩
    · cases ok with
      | true => exact (parseFileHash_fields _ _).2.2.1
      | false => rfl
    · rw [carries_updateMetadata hm (g := (·.removeMetadata (lit "FilePath"))) hd hholds]
      tauto

theorem parseMetadata_paths (pf : Platform) (fs : FileSystem) (fromNetwork : Bool)
    (hmeta : o.metadata = some m) (hm : m.Valid) :
    (parseMetadata pf fs o fromNetwork).2 = (parseSignature m o).2 ∧
      ((parseSignature m o).2 = true → ∃ m',
        (parseMetadata pf fs o fromNetwork).1.metadata = some m' ∧ m'.Valid ∧
          (m'.Carries ↔ ¬PathInPlace fs o m fromNetwork)) := by
  obtain ⟨hhmeta, hhlen, hhsig⟩ := parseHead_fields pf m o
  have hok := parseSignature_ok m hhsig
  obtain ⟨hsmeta, hslen⟩ := parseSignature_fields m
    (parseKind m (parseCreateTime pf m (parsePersistent m o)))
  unfold parseMetadata
  simp only [hmeta]
  generalize parseSignature m (parseKind m (parseCreateTime pf m (parsePersistent m o))) = r at *
  obtain ⟨o1, ok⟩ := r
  dsimp only at hok hsmeta hslen ⊢
  rw [← hok]
  cases ok with
  | false => exact ⟨rfl, nofun⟩
  | true =>
    obtain ⟨m', hm', hv, hcarries⟩ :=
      parseData_paths fs fromNetwork (hsmeta.trans (hhmeta.trans hmeta)) hm
    have hplace : PathInPlace fs o1 m fromNetwork ↔ PathInPlace fs o m fromNetwork := by
      simp only [PathInPlace, FileThere, hslen, hhlen]
    rw [hplace] at hcarries
    dsimp only
    generalize parseData fs fromNetwork m o1 = q at hm' ⊢
    obtain ⟨o2, ok⟩ := q
    cases ok with
    | false => exact ⟨rfl, fun _ => ⟨m', hm', hv, hcarries⟩⟩
    | true =>
      exact ⟨rfl, fun _ => ⟨m', (metadata_parseAttributes _ o2).trans hm', hv, hcarries⟩⟩

/-- Metadata that are read and accepted. -/
def Accepted (pf : Platform) (o : DataObject) (raw : Bytes) (m : Metadata) : Prop :=
  Metadata.initFromRaw pf.lib raw pf.plainChar = some m ∧ m.name = lit "Haggle" ∧
    (parseSignature m o).2 = true

/-- Metadata that are not accepted make no object. Of those that are, an object is made whose
metadata carry a path unless there is none or it is in its place. -/
theorem parseRaw_spec (pf : Platform) (fs : FileSystem) (o : DataObject) (raw : Bytes)
    (fromNetwork : Bool) : (parseRaw pf fs o raw fromNetwork = none ∧ ∀ m, ¬Accepted pf o raw m) ∨
      ∃ m o' m', Accepted pf o raw m ∧ parseRaw pf fs o raw fromNetwork = some o' ∧
        o'.isForLocalApp = false ∧ o'.metadata = some m' ∧ m'.Valid ∧
          (m'.Carries ↔ ¬PathInPlace fs o m fromNetwork) := by
  unfold parseRaw Accepted
  cases hinit : Metadata.initFromRaw pf.lib raw pf.plainChar with
  | none => exact .inl ⟨rfl, fun m h => absurd h.1.symm (Option.some_ne_none m)⟩
  | some m =>
    have honly : ∀ m', some m = some m' → m = m' := fun _ h => Option.some.inj h
    dsimp only
    by_cases hname : m.name = lit "Haggle"
    · obtain ⟨hret, hspec⟩ := @parseMetadata_paths
        { o with isForLocalApp := false, metadata := some m } m pf fs fromNetwork rfl
          (valid_initFromRaw hinit)
      have hlocal : (parseMetadata pf fs { o with isForLocalApp := false, metadata := some m }
          fromNetwork).1.isForLocalApp = false := by
        have hstable : Stable fun o => o.isForLocalApp = false := by
          constructor <;> intros <;> assumption
        exact hstable.parseMetadata pf fs fromNetwork rfl
      have hsig : (parseSignature m { o with isForLocalApp := false, metadata := some m }).2 =
          (parseSignature m o).2 := parseSignature_ok m rfl
      rw [hsig] at hret hspec
      rw [if_neg (not_not.mpr hname)]
      generalize parseMetadata pf fs { o with isForLocalApp := false, metadata := some m }
        fromNetwork = r at hret hspec hlocal ⊢
      obtain ⟨o', ok⟩ := r
      cases ok with
      | false =>
        refine .inl ⟨rfl, fun m' h => ?_⟩
        rw [honly m' h.1] at hret
        exact absurd (hret.trans h.2.2) Bool.false_ne_true
      | true =>
        obtain ⟨m', hm', hv, hcarries⟩ := hspec hret.symm
        exact .inr ⟨m, o', m', ⟨rfl, hname, hret.symm⟩, rfl, hlocal, hm', hv, hcarries⟩
    · rw [if_pos hname]
      refine .inl ⟨rfl, fun m' h => hname ?_⟩
      rw [honly m' h.1]
      exact h.2.1

theorem completeHeader_eq_parseRaw (h : o.isForLocalApp = false) :
    completeHeader pf fs o raw = (o', true) ↔ parseRaw pf fs o raw true = some o' := by
  have hfields : ∀ m, { o with metadata := some m } =
      { o with isForLocalApp := false, metadata := some m } := fun m => by rw [← h]
  unfold completeHeader parseRaw
  cases Metadata.initFromRaw pf.lib raw pf.plainChar with
  | none => simp
  | some m =>
    dsimp only
    by_cases hname : m.name = lit "Haggle"
    · rw [if_neg (not_not.mpr hname), if_neg (not_not.mpr hname), hfields m]
      cases parseMetadata pf fs { o with isForLocalApp := false, metadata := some m } true with
      | mk r ok => cases ok <;> simp
    · rw [if_pos hname, if_pos hname]
      simp

end Parse

end DataObject

/-- An object, and whether it or one it is a copy of was turned into metadata with its path. -/
structure Held where
  obj : DataObject
  exposed : Bool

/-- What happens to the objects of a node. In `assign`, fields of an object are set that are not
its metadata; every way to serialise an object begins with `toMetadata`. -/
inductive PathOp where
  | create (d : Draft)
  | parse (o : DataObject) (raw : Bytes) (fs : FileSystem) (fromNetwork : Bool)
  | assign (i : ℕ) (o : DataObject)
  | setIsForLocalApp (i : ℕ) (val : Bool)
  | toMetadata (i : ℕ)
  | copy (i : ℕ)

namespace PathOp

def step (pf : Platform) (objs : List Held) : PathOp → List Held
  | create d => objs ++ [⟨DataObject.create pf d, false⟩]
  | parse o raw fs fromNetwork =>
    match DataObject.parseRaw pf fs o raw fromNetwork with
    | none => objs
    | some o => objs ++ [⟨o, false⟩]
  | assign i o =>
    objs.modify i fun x => { x with
      obj := { o with metadata := x.obj.metadata, isForLocalApp := x.obj.isForLocalApp } }
  | setIsForLocalApp i val =>
    objs.modify i fun x => { x with obj := { x.obj with isForLocalApp := val } }
  | toMetadata i => objs.modify i fun x => ⟨x.obj.toMetadata, x.exposed || x.obj.writesPath⟩
  | copy i =>
    match objs[i]? with
    | none => objs
    | some x => objs ++ [{ x with obj := x.obj.copy }]

/-- An object is not unmarked after its path was written, and a path that is read is in its place.
-/
def Safe (pf : Platform) (objs : List Held) : PathOp → Prop
  | setIsForLocalApp i val => val = false → ∀ x, objs[i]? = some x → x.exposed = false
  | parse o raw fs fromNetwork =>
    ∀ m, DataObject.Accepted pf o raw m → DataObject.PathInPlace fs o m fromNetwork
  | _ => True

/-- The metadata of an object that is not for a local application have no path. -/
def PathFree (objs : List Held) : Prop :=
  ∀ x ∈ objs, x.obj.isForLocalApp = false → ∀ m, x.obj.toMetadata.metadata = some m → ¬m.HoldsPath

section Invariant

variable {pf : Platform} {objs : List Held} {x : Held}

/-- What holds of an object while the steps are safe. -/
structure Tidy (x : Held) (m : Metadata) : Prop where
  metadata : x.obj.metadata = some m
  valid : m.Valid
  exposed : x.exposed = true → m.HoldsAt (lit "Data")
  clean : x.exposed = false → ¬m.Carries
  marked : x.obj.isForLocalApp = false → x.exposed = false

def Inv (objs : List Held) : Prop := ∀ x ∈ objs, ∃ m, Tidy x m

/-- What an unmarked object is turned into holds the paths that its metadata carry. -/
theorem holdsPath_toMetadata {o : DataObject} {m m' : Metadata} (hmeta : o.metadata = some m)
    (hm : m.Valid) (hlocal : o.isForLocalApp = false) (h : o.toMetadata.metadata = some m') :
    m'.HoldsPath ↔ m.Carries := by
  obtain ⟨m1, hto, hv, hk⟩ := DataObject.toMetadata_keepsPaths hmeta hm
    (by rw [DataObject.writesPath, hlocal, Bool.false_and])
  rw [hto] at h
  obtain rfl := Option.some.inj h
  rw [holdsPath_iff hv]
  exact exists_congr hk

theorem pathFree_of_inv (h : Inv objs) : PathFree objs := by
  intro x hx hlocal m' hm'
  obtain ⟨m, ht⟩ := h x hx
  rw [holdsPath_toMetadata ht.metadata ht.valid hlocal hm']
  exact ht.clean (ht.marked hlocal)

/-- An unmarked object whose metadata carry a path. -/
theorem not_pathFree_of_carries {m : Metadata} (hx : x ∈ objs)
    (hlocal : x.obj.isForLocalApp = false) (hmeta : x.obj.metadata = some m) (hm : m.Valid)
    (hc : m.Carries) : ¬PathFree objs := by
  obtain ⟨m', hto, -, -⟩ := DataObject.toMetadata_keepsPaths hmeta hm
    (by rw [DataObject.writesPath, hlocal, Bool.false_and])
  have hm' : x.obj.toMetadata.metadata = some m' := by rw [hto]
  intro h
  exact h x hx hlocal m' hm' ((holdsPath_toMetadata hmeta hm hlocal hm').mpr hc)

theorem inv_append (h : Inv objs) {m : Metadata} (ht : Tidy x m) : Inv (objs ++ [x]) := by
  intro y hy
  rcases List.mem_append.mp hy with hy | hy
  · exact h y hy
  · exact ⟨m, List.mem_singleton.mp hy ▸ ht⟩

theorem inv_modify (h : Inv objs) {i : ℕ} {f : Held → Held}
    (hf : ∀ x m, objs[i]? = some x → Tidy x m → ∃ m', Tidy (f x) m') : Inv (objs.modify i f) := by
  intro y hy
  obtain ⟨j, hj⟩ := List.mem_iff_getElem?.mp hy
  rw [List.getElem?_modify] at hj
  cases hx : objs[j]? with
  | none =>
    rw [hx] at hj
    cases hj
  | some x =>
    obtain ⟨m, ht⟩ := h x (List.mem_of_getElem? hx)
    rw [hx] at hj
    by_cases hij : i = j
    · subst hij
      simp only [if_true, Option.map_eq_map, Option.map_some, Option.some.injEq] at hj
      exact hj ▸ hf x m hx ht
    · simp only [if_neg hij, Option.map_eq_map, Option.map_some, Option.some.injEq] at hj
      exact hj ▸ ⟨m, ht⟩

theorem tidy_create (pf : Platform) (d : Draft) :
    ∃ m, Tidy ⟨DataObject.create pf d, false⟩ m := by
  refine ⟨_, DataObject.metadata_create pf d, valid_setParameter (valid_new _ _) _ _, by simp,
    fun _ => ?_, fun _ => rfl⟩
  rintro ⟨k, -, h⟩
  exact not_holdsAt_new (lit "Haggle") [] k ((holdsAt_of_registry rfl k).mp h)

theorem tidy_toMetadata {m : Metadata} (ht : Tidy x m) :
    ∃ m', Tidy ⟨x.obj.toMetadata, x.exposed || x.obj.writesPath⟩ m' := by
  cases hw : x.obj.writesPath with
  | true =>
    obtain ⟨m', hto, hv, hdata⟩ := DataObject.toMetadata_writesPath ht.metadata ht.valid hw
    have hlocal : x.obj.isForLocalApp = true := (Bool.and_eq_true_iff.mp hw).1
    refine ⟨m', by rw [hto], hv, fun _ => hdata, ?_, ?_⟩
    · intro h
      rw [Bool.or_true] at h
      cases h
    · intro h
      rw [hto, hlocal] at h
      cases h
  | false =>
    obtain ⟨m', hto, hv, hk⟩ := DataObject.toMetadata_keepsPaths ht.metadata ht.valid hw
    rw [Bool.or_false]
    refine ⟨m', by rw [hto], hv, fun h => (hk _).mpr ⟨by decide, ht.exposed h⟩, ?_, ?_⟩
    · rintro h ⟨k, hne, hat⟩
      exact ht.clean h ⟨k, hne, ((hk k).mp hat).2⟩
    · intro h
      rw [hto] at h
      exact ht.marked h

theorem tidy_copy {m : Metadata} (ht : Tidy x m) : ∃ m', Tidy { x with obj := x.obj.copy } m' := by
  refine ⟨m.copy, by rw [DataObject.copy, ht.metadata]; rfl, valid_copy ht.valid,
    fun h => (holdsAt_copy ht.valid _).mpr (ht.exposed h), ?_, ht.marked⟩
  rintro h ⟨k, hne, hat⟩
  exact ht.clean h ⟨k, hne, (holdsAt_copy ht.valid k).mp hat⟩

/-- A safe step keeps the objects tidy. -/
theorem inv_step (h : Inv objs) {op : PathOp} (hsafe : op.Safe pf objs) :
    Inv (op.step pf objs) := by
  cases op with
  | create d =>
    obtain ⟨m, ht⟩ := tidy_create pf d
    exact inv_append h ht
  | parse o raw fs fromNetwork =>
    rcases DataObject.parseRaw_spec pf fs o raw fromNetwork with
      ⟨hnone, -⟩ | ⟨m, o', m', haccepted, hsome, hlocal, hmeta, hv, hcarries⟩
    · simp only [step, hnone]
      exact h
    · simp only [step, hsome]
      have hclean : ¬m'.Carries := hcarries.not.mpr (not_not.mpr (hsafe m haccepted))
      exact inv_append h ⟨hmeta, hv, nofun, fun _ => hclean, fun _ => rfl⟩
  | assign i o =>
    exact inv_modify h fun x m _ ht =>
      ⟨m, ht.metadata, ht.valid, ht.exposed, ht.clean, ht.marked⟩
  | setIsForLocalApp i val =>
    refine inv_modify h fun x m hx ht => ⟨m, ht.metadata, ht.valid, ht.exposed, ht.clean, ?_⟩
    intro hval
    exact hsafe hval x hx
  | toMetadata i => exact inv_modify h fun x m _ ht => tidy_toMetadata ht
  | copy i =>
    cases hx : objs[i]? with
    | none =>
      simp only [step, hx]
      exact h
    | some x =>
      obtain ⟨m, ht⟩ := h x (List.mem_of_getElem? hx)
      obtain ⟨m', ht'⟩ := tidy_copy ht
      simp only [step, hx]
      exact inv_append h ht'

theorem not_pathFree_step (h : Inv objs) {op : PathOp} (hsafe : ¬op.Safe pf objs) :
    ¬PathFree (op.step pf objs) := by
  cases op with
  | parse o raw fs fromNetwork =>
    rcases DataObject.parseRaw_spec pf fs o raw fromNetwork with
      ⟨-, hnone⟩ | ⟨m, o', m', haccepted, hsome, hlocal, hmeta, hv, hcarries⟩
    · exact absurd (fun m hm => absurd hm (hnone m)) hsafe
    · simp only [Safe, not_forall] at hsafe
      obtain ⟨m1, haccepted1, hplace⟩ := hsafe
      obtain rfl : m = m1 := Option.some.inj (haccepted.1.symm.trans haccepted1.1)
      simp only [step, hsome]
      exact not_pathFree_of_carries (List.mem_append_right _ List.mem_cons_self) hlocal hmeta hv
        (hcarries.mpr hplace)
  | setIsForLocalApp i val =>
    simp only [Safe, not_forall] at hsafe
    obtain ⟨rfl, x, hx, hexposed⟩ := hsafe
    obtain ⟨m, ht⟩ := h x (List.mem_of_getElem? hx)
    have hmem : { x with obj := { x.obj with isForLocalApp := false } } ∈
        step pf objs (.setIsForLocalApp i false) := by
      refine List.mem_of_getElem? (i := i) ?_
      simp only [step, List.getElem?_modify, if_true, hx]
      rfl
    exact not_pathFree_of_carries hmem rfl ht.metadata ht.valid
      ⟨_, by decide, ht.exposed (by simpa using hexposed)⟩
  | create d => exact absurd trivial hsafe
  | assign i o => exact absurd trivial hsafe
  | toMetadata i => exact absurd trivial hsafe
  | copy i => exact absurd trivial hsafe

theorem inv_nil : Inv [] := fun _ hx => absurd hx List.not_mem_nil

/-- In every run, the metadata of objects that are not for a local application never have a path
exactly if every step is safe. -/
theorem pathFree_iff_guarded (pf : Platform) (ops : List PathOp) :
    (∀ pre, pre <+: ops → PathFree (Trace.run (step pf) [] pre)) ↔
      Trace.Guarded (step pf) (Safe pf) [] ops :=
  @Trace.forall_prefix_iff_of_invariant _ _ (step pf) (Safe pf) PathFree Inv
    (fun _ h => pathFree_of_inv h) (fun _ _ h hsafe => inv_step h hsafe)
    (fun _ _ h hsafe => not_pathFree_step h hsafe) [] inv_nil ops

end Invariant

end PathOp

namespace Sample

/-- An object with a file. -/
def filedDraft : Draft :=
  { draft with filepath := lit "/s/f", filename := lit "f", dataLen := 2 }

/-- It is turned into metadata for a local application, and then it is not for one any more. -/
def unmarking : List PathOp :=
  [.create filedDraft, .setIsForLocalApp 0 true, .toMetadata 0, .setIsForLocalApp 0 false]

theorem not_pathFree_unmarking :
    ¬PathOp.PathFree (Trace.run (PathOp.step writerPlatform) [] unmarking) ∧
      (Trace.run (PathOp.step writerPlatform) [] unmarking).map (fun x =>
          (x.obj.isForLocalApp, x.obj.header writerPlatform)) =
        [(false, lit "<?xml version=\"1.0\"?>\n" ++
          lit "<Haggle create_time=\"7.000000\" persistent=\"yes\">\n" ++
          lit "  <Data data_len=\"2\">\n    <FileName>f</FileName>\n" ++
          lit "    <FilePath>/s/f</FilePath>\n  </Data>\n</Haggle>")] := by
  refine ⟨fun h => ?_, by decide +kernel⟩
  have h1 : PathOp.Inv (PathOp.step writerPlatform [] (.create filedDraft)) :=
    PathOp.inv_step PathOp.inv_nil trivial
  have h2 := @PathOp.inv_step writerPlatform _ h1 (.setIsForLocalApp 0 true) nofun
  have h3 := @PathOp.inv_step writerPlatform _ h2 (.toMetadata 0) trivial
  refine @PathOp.not_pathFree_step writerPlatform _ h3 (.setIsForLocalApp 0 false) ?_ h
  intro hsafe
  exact absurd (hsafe rfl _ rfl) (by decide)

end Sample
end Haggle
