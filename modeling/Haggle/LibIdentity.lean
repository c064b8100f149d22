import Haggle.LibPayload
import Haggle.ObjectContent

/-!
# The identifier that an application computes

An application computes the identifier of a data object from the object itself, the kernel from the
metadata that the library wrote for it. The library goes through its list of attributes and the
kernel through its table; a weight of zero is not written, and a missing weight is read as one.
-/

namespace Haggle

open LibMetadata (read IsRead)

namespace DataObject

/-- `create` of an object from the raw metadata that an application has sent. -/
def createFromRaw (pf : Platform) (fs : FileSystem) (storagepath : Bytes) (hash : Digest)
    (raw : Bytes) : Option DataObject :=
  match Metadata.initFromRaw pf.lib raw pf.plainChar with
  | none => none
  | some m =>
    if m.name ≠ lit "Haggle" then none
    else
      match parseMetadata pf fs
          { new storagepath hash.1 pf.plainChar with metadata := some m } false with
      | (_, false) => none
      | (o, true) => some o

end DataObject

namespace LibDataObject

/-- The two identifiers agree on these objects. The kernel drops an attribute that it has already,
goes through the rest in the order of its table, takes a weight that is not written for one, and
knows a create time that was set once; blank texts are lost on the way. -/
structure Agrees (c : PlainChar) (fs : FileSystem) (d : LibDataObject) : Prop where
  order : (HashMap.ofList (d.al.map fun a => (a.name, a)) c).toList = d.al.map fun a => (a.name, a)
  distinct : d.al.Pairwise fun a b => a.eq b = false
  values : ∀ a ∈ d.al, Readable a.value
  weights : ∀ a ∈ d.al, 0 < a.weight ∧ a.weight < 10 ^ 7
  time : d.createtime.sec = 0 ∧ d.m.getParameter (lit "create_time") = none ∨
    0 < d.createtime.sec ∧ d.createtime.sec < 2 ^ 63 ∧ d.createtime.isValid = true
  file : d.FileAgrees fs

variable {pf : Platform} {fs : FileSystem} {lib : LibXml} {d : LibDataObject} {m : LibMetadata}
  {m' : Metadata}

theorem createtimeText_of_valid {t : Timeval} (hv : t.isValid = true) :
    createtimeText t = decimal t.sec.toNat ++ 46 :: Timeval.padded t.usec.toNat := by
  simp only [Timeval.isValid, Bool.and_eq_true, decide_eq_true_eq] at hv
  obtain ⟨⟨hs, hu⟩, -⟩ := hv
  have hlit : lit "." = [46] := by decide
  have hsec : t.sec.natAbs = t.sec.toNat := by omega
  have husec : t.usec.natAbs = t.usec.toNat := by omega
  rw [createtimeText, longText, if_neg (by omega), longText06, if_neg (by omega), hlit, hsec, husec,
    List.append_assoc, List.singleton_append]

theorem take_createtimeText {t : Timeval} (hv : t.isValid = true) :
    (createtimeText t).take 19 = t.getAsString := by
  have hlit : lit "." = [46] := by decide
  have hnonneg : ¬t.sec < 0 := by
    simp only [Timeval.isValid, Bool.and_eq_true, decide_eq_true_eq] at hv
    omega
  rw [createtimeText_of_valid hv, Timeval.getAsString, if_neg hnonneg, hlit, List.append_assoc,
    List.singleton_append]

theorem length_createtimeText {t : Timeval} (hv : t.isValid = true) (hsec : t.sec < 2 ^ 63) :
    (createtimeText t).length < 32 := by
  rw [createtimeText_of_valid hv]
  simp only [Timeval.isValid, Bool.and_eq_true, decide_eq_true_eq] at hv
  have hdigits : (decimal t.sec.toNat).length ≤ 19 := length_decimal_le (by norm_num) (by omega)
  have hpad : (Timeval.padded t.usec.toNat).length = 6 := Timeval.length_padded (by omega)
  simp only [List.length_append, List.length_cons, hpad]
  omega

theorem Agrees.fits {c : PlainChar} (ha : d.Agrees c fs) : d.Fits := by
  constructor
  · intro hne
    rcases ha.time with ⟨hz, -⟩ | ⟨-, hsec, hv⟩
    · exact absurd hz hne
    · exact length_createtimeText hv hsec
  · intro a hmem _
    have hle : (decimal a.weight).length ≤ 7 :=
      length_decimal_le (by norm_num) (ha.weights a hmem).2
    omega

/-- The create time is hashed by both or by none. -/
theorem timeBytes_read {c : PlainChar} (ha : d.Agrees c fs) (hw : d.Written m)
    (hparam : ∀ k, m'.getParameter k = m.getParameter k) {r : DataObject}
    (hr : r.createTime = DataObject.readTime pf m') : r.timeBytes =
      if d.createtime.sec ≠ 0 then (createtimeText d.createtime).take 19 else [] := by
  rw [DataObject.readTime, hparam, hw.time] at hr
  rcases ha.time with ⟨hz, hnone⟩ | ⟨hpos, hsec, hv⟩
  · rw [if_neg (by simp [hz]), hnone, Option.map_none, Option.getD_none] at hr
    rw [DataObject.timeBytes, hr, if_neg (by decide), if_neg (by simp [hz])]
  · have hne : d.createtime.sec ≠ 0 := by omega
    rw [if_pos hne, Option.map_some, Option.getD_some, createtimeText_of_valid hv,
      Timeval.ofString_text _ hv hsec] at hr
    rw [DataObject.timeBytes, hr, if_pos hv, if_pos hne, take_createtimeText hv]

theorem attributeOf_read (hlib : ∀ s, s ≠ [] → 38 ∉ s → lib.contentNodes s = [.text s])
    {a : Attribute} (hv : Readable a.value) (hpos : 0 < a.weight) (hlt : a.weight < 10 ^ 7)
    {c : PlainChar} : DataObject.attributeOf (read lib (attributeMetadata a) c) = a := by
  have hmeta : attributeMetadata a = ((LibMetadata.new (lit "Attr") (some a.value)).setParameter
      (lit "name") a.name).setParameter (lit "weight") (decimal a.weight) := by
    simp only [attributeMetadata]
    rw [if_pos (by omega)]
  have hplain : (attributeMetadata a).Plain := by
    rw [hmeta]
    exact AssocList.nodup_set _ _ (AssocList.nodup_set _ _ List.nodup_nil)
  have hname : (attributeMetadata a).getParameter (lit "name") = some a.name := by
    rw [hmeta, LibMetadata.getParameter, LibMetadata.setParameter,
      AssocList.get_set_of_ne (by decide)]
    exact AssocList.get_set_self _ _ _
  have hweight : (attributeMetadata a).getParameter (lit "weight") = some (decimal a.weight) := by
    rw [hmeta]
    exact AssocList.get_set_self _ _ _
  have hcontent : (read lib (attributeMetadata a) c).content = a.value := by
    rw [LibMetadata.content_read hlib]
    · rw [hmeta]
      rfl
    · rw [hmeta]
      rfl
    · rw [hmeta]
      exact hv
  have hnumber : strtoul (decimal a.weight) = a.weight := by
    apply strtoul_decimal
    rw [ulongMax]
    omega
  rw [DataObject.attributeOf, LibMetadata.getParameter_read hplain,
    LibMetadata.getParameter_read hplain, hname, hweight, hcontent, Option.map_some,
    Option.getD_some, Option.getD_some, hnumber]

/-- The kernel fills its table in the order of the list. -/
theorem parseAttributes_read (hlib : ∀ s, s ≠ [] → 38 ∉ s → lib.contentNodes s = [.text s])
    {c c' : PlainChar} (ha : d.Agrees c fs)
    (hm : m'.getAll (lit "Attr") = (d.al.map attributeMetadata).map (read lib · c'))
    {r : DataObject} (hr : r.attrs = HashMap.empty c) :
    ∃ b, DataObject.parseAttributes m' r = { r with
      isNodeDesc := b, attrs := HashMap.ofList (d.al.map fun a => (a.name, a)) c } := by
  have hlist : (m'.getAll (lit "Attr")).map DataObject.attributeOf = d.al := by
    rw [hm, List.map_map, List.map_map]
    nth_rewrite 2 [← List.map_id d.al]
    apply List.map_congr_left
    intro a hmem
    obtain ⟨hpos, hlt⟩ := ha.weights a hmem
    exact attributeOf_read hlib (ha.values a hmem) hpos hlt
  have hnil : r.attrs.toList = [] := by
    rw [hr]
    exact HashMap.toList_ofTableSize 7
  have hdistinct : Attributes.Distinct (d.al.map fun a => (a.name, a)) := by
    refine ⟨?_, List.pairwise_map.mpr ha.distinct⟩
    intro e he
    obtain ⟨a, -, rfl⟩ := List.mem_map.mp he
    rfl
  obtain ⟨b, hb⟩ := DataObject.foldl_addParsed (r := r) d.al (by rw [hr]; exact HashMap.wf_empty)
    (by rw [hnil]; exact hdistinct)
  rw [hr] at hb
  exact ⟨b, by rw [DataObject.parseAttributes, hlist, hb, HashMap.ofList]⟩

theorem parseMetadata_written (hlib : ∀ s, s ≠ [] → 38 ∉ s → pf.lib.contentNodes s = [.text s])
    (ha : d.Agrees pf.plainChar fs) (htidy : d.Tidy) (hw : d.Written m) (hr : IsRead pf.lib m m')
    (storagepath : Bytes) (hash : Digest) :
    ∃ o, DataObject.parseMetadata pf fs
        { DataObject.new storagepath hash.1 pf.plainChar with metadata := some m' } false =
          (o, true) ∧
      o.id = d.calculateId pf := by
  have hu := DataObject.unfilled_parseKind pf m' storagepath hash
  set o := DataObject.parseKind m' (DataObject.parseCreateTime pf m'
    (DataObject.parsePersistent m'
      { DataObject.new storagepath hash.1 pf.plainChar with metadata := some m' })) with ho
  have hsig : DataObject.parseSignature m' o = (o, true) := by
    unfold DataObject.parseSignature
    rw [hr.getMetadata, LibMetadata.get, hw.signature, List.head?_nil, Option.map_none]
    split_ifs <;> rfl
  obtain ⟨r, hdata, hattrs, htime, hpayload, m'', hm'', hall⟩ :=
    @parseData_written pf fs pf.lib d m m' o _ hlib hw hr htidy.hash ha.file hu
  rw [hr.elements, hw.attrs] at hall
  obtain ⟨b, hb⟩ := parseAttributes_read hlib ha hall hattrs
  refine ⟨DataObject.calcId pf (DataObject.parseAttributes m'' r), ?_, ?_⟩
  · simp only [DataObject.parseMetadata, ← ho, hsig, hdata, hm'', Option.getD_some]
  · have hbytes : (d.al.map fun a => (a.name, a)).flatMap DataObject.attrBytes =
        d.al.flatMap attrBytes := List.flatMap_map _ _ _
    rw [hb]
    simp only [DataObject.calcId, ha.order, hbytes]
    rw [calculateId, hashInput_eq, ← timeBytes_read ha hw hr.param htime, ← hpayload]
    rfl

/-- An object that an application built has the same identifier for the library, which computes it
from the object, and for the kernel, which computes it from what the library wrote. -/
theorem calculateId_eq_id (hd : Built d)
    (hlib : ∀ s, s ≠ [] → 38 ∉ s → pf.lib.contentNodes s = [.text s])
    (hparse : pf.lib.parse (d.metadata.getRaw pf.lib) =
      some ((d.metadata.createDoc pf.lib).format 0)) (ha : d.Agrees pf.plainChar fs)
    (storagepath : Bytes) (hash : Digest) :
    ∃ d', d.toMetadata = some d' ∧
      ∃ o, DataObject.createFromRaw pf fs storagepath hash (d'.m.getRaw pf.lib) = some o ∧
        o.id = d.calculateId pf := by
  have hw := hd.tidy.written
  obtain ⟨m', hinit, hr, -⟩ := LibMetadata.initFromRaw_getRaw hw.plain hparse pf.plainChar
  obtain ⟨o, ho, hid⟩ := parseMetadata_written hlib ha hd.tidy hw hr storagepath hash
  refine ⟨{ d with m := d.metadata }, by rw [toMetadata, if_pos ha.fits], o, ?_, hid⟩
  have hname : m'.name = lit "Haggle" := hr.name.trans hw.name
  simp only [DataObject.createFromRaw, hinit, hname, ne_eq, not_true_eq_false, if_false, ho]

end LibDataObject

namespace Sample

/-- A library that knows one document. -/
def docLib (raw : Bytes) (t : XmlNode) : LibXml where
  parse r := if r = raw then some (t.format 0) else none
  dump _ := raw
  contentNodes c := [.text c]

def docPlatform (raw : Bytes) (t : XmlNode) : Platform := { host with lib := docLib raw t }

def noFiles : FileSystem := ⟨[], fun _ => true, fun _ => true, fun _ _ => true, []⟩

/-- An object with a create time and one attribute. -/
def tagged (weight : ℕ) : LibDataObject :=
  { LibDataObject.new with createtime := ⟨7, 0⟩, al := [⟨lit "a", lit "v", weight⟩] }

theorem built_tagged (weight : ℕ) : LibDataObject.Built (tagged weight) :=
  .call (.addAttributeWeighted ⟨lit "a", lit "v", weight⟩)
    (.call (.setCreatetime ⟨7, 0⟩) .new rfl) rfl

def taggedTree (ps : List (Bytes × Bytes)) : XmlNode :=
  .elem (lit "Haggle") [(lit "persistent", lit "yes"), (lit "create_time", lit "7.000000")]
    [.elem (lit "Attr") ((lit "name", lit "a") :: ps) [.text (lit "v")]]

def taggedRaw (weight : Bytes) : Bytes :=
  lit "<?xml version=\"1.0\"?>\n<Haggle persistent=\"yes\" create_time=\"7.000000\">\n" ++
    lit "  <Attr name=\"a\"" ++ weight ++ lit ">v</Attr>\n</Haggle>\n"

def weightPlatform : Platform :=
  docPlatform (taggedRaw (lit " weight=\"1\"")) (taggedTree [(lit "weight", lit "1")])

/-- The weight zero is not written. -/
def zeroPlatform : Platform := docPlatform (taggedRaw []) (taggedTree [])

theorem createDoc_one : (tagged 1).metadata.createDoc weightPlatform.lib =
    taggedTree [(lit "weight", lit "1")] := by
  rfl

theorem createDoc_zero : (tagged 0).metadata.createDoc zeroPlatform.lib = taggedTree [] := by
  rfl

theorem agrees_one : LibDataObject.Agrees .signed noFiles (tagged 1) where
  order := by decide
  distinct := List.pairwise_singleton _ _
  values := by decide
  weights := by decide
  time := .inr (by decide)
  file := by
    refine ⟨by decide, fun _ h => ?_, fun _ _ _ h => ?_, fun _ h => ?_⟩
    · cases h
    · cases h
    · cases h

end Sample

namespace LibDataObject

theorem calculateId_eq_id_one : ∃ d', (Sample.tagged 1).toMetadata = some d' ∧
    ∃ o, DataObject.createFromRaw Sample.weightPlatform Sample.noFiles (lit "/s")
        (Sample.firstBytes []) (d'.m.getRaw Sample.weightPlatform.lib) = some o ∧
      o.id = (Sample.tagged 1).calculateId Sample.weightPlatform := by
  apply calculateId_eq_id (Sample.built_tagged 1) (fun _ _ _ => rfl) _ Sample.agrees_one
  rw [Sample.createDoc_one]
  rfl

/-- For the kernel an attribute of weight zero has the weight one. -/
theorem calculateId_ne_id_zero :
    Built (Sample.tagged 0) ∧
      (∀ s, s ≠ [] → 38 ∉ s → Sample.zeroPlatform.lib.contentNodes s = [.text s]) ∧
      Sample.zeroPlatform.lib.parse ((Sample.tagged 0).metadata.getRaw Sample.zeroPlatform.lib) =
        some (((Sample.tagged 0).metadata.createDoc Sample.zeroPlatform.lib).format 0) ∧
      ∃ d', (Sample.tagged 0).toMetadata = some d' ∧
        ∃ o, DataObject.createFromRaw Sample.zeroPlatform Sample.noFiles (lit "/s")
            (Sample.firstBytes []) (d'.m.getRaw Sample.zeroPlatform.lib) = some o ∧
          o.id ≠ (Sample.tagged 0).calculateId Sample.zeroPlatform := by
  refine ⟨Sample.built_tagged 0, fun _ _ _ => rfl, ?_, ?_⟩
  · rw [Sample.createDoc_zero]
    rfl
  · have hfits : (Sample.tagged 0).Fits := by decide
    refine ⟨_, by rw [toMetadata, if_pos hfits], ?_⟩
    have hsome : (DataObject.createFromRaw Sample.zeroPlatform Sample.noFiles (lit "/s")
        (Sample.firstBytes []) (Sample.taggedRaw [])).isSome = true := by decide
    obtain ⟨o, ho⟩ := Option.isSome_iff_exists.mp hsome
    have hid : (DataObject.createFromRaw Sample.zeroPlatform Sample.noFiles (lit "/s")
        (Sample.firstBytes []) (Sample.taggedRaw [])).map DataObject.id ≠
          some ((Sample.tagged 0).calculateId Sample.zeroPlatform) := by decide
    refine ⟨o, ho, fun h => hid ?_⟩
    rw [ho, Option.map_some, h]

end LibDataObject
end Haggle
