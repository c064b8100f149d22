import Haggle.Bloomfilter
import Haggle.ObjectHistory
import Haggle.ObjectReceive
import Haggle.PutDataChunks

/-!
# The identifier of an object across a hop

An object is turned into metadata, written, sent, and put together again at another node, which
computes the identifier anew. The two identifiers agree if what is hashed arrives unchanged, and the
attributes arrive in an order that the table of the receiver keeps.
-/

namespace Haggle

open Metadata

namespace Feed

variable {pf : Platform} {fs : FileSystem} {o parsed : DataObject} {header : Bytes} {cut : ℕ → ℕ}

/-- Nothing more happens to the object: all bytes are taken, or the reception has failed. -/
def settled (f : Feed) : Prop := f.rest = [] ∨ f.failed = true

theorem run_settled {f : Feed} (hf : f.settled) (cut : ℕ → ℕ) (k : ℕ) :
    (run pf cut k f).inc = f.inc ∧ (run pf cut k f).settled := by
  induction k with
  | zero => exact ⟨rfl, hf⟩
  | succ k ih =>
    obtain ⟨hinc, hs⟩ := ih
    rw [run]
    by_cases hfin : (run pf cut k f).finished = true
    · rw [step_of_finished hfin]
      exact ⟨hinc, hs⟩
    · have hrest : (run pf cut k f).rest = [] := by
        rcases hs with h | h
        · exact h
        · exact absurd (by simp [finished, h]) hfin
      rw [step, if_neg hfin, hrest, List.take_nil]
      simp only [Incoming.putData, if_true]
      exact ⟨hinc, Or.inl rfl⟩

/-- However a header is cut, the object it describes is the one that is put together. -/
theorem outcome_header (hh : o.IsHeader pf fs header parsed) (ho : o.metadata = none)
    (hcut : ∀ i, 0 < cut i) :
    (outcome pf fs o header cut).inc.obj = parsed ∨
      (outcome pf fs o header cut).inc.obj = parsed.createFilePath fs := by
  obtain ⟨j, hj, hj'⟩ := exists_crossing hcut (List.length_pos_of_ne_nil hh.ne_nil)
  have hcollect : run pf cut j (start fs ⟨o, some ⟨[], none, 0⟩⟩ (header ++ [])) = _ :=
    run_collecting hh ho hcut hj
  rw [List.append_nil] at hcollect
  obtain ⟨k, hk⟩ : ∃ k, header.length = j + 1 + k :=
    ⟨header.length - (j + 1), by have := crossing_lt hcut hj; omega⟩
  have hdata : (header.drop (offset cut j)).take (cut j) = header.drop (offset cut j) := by
    apply List.take_of_length_le
    rw [List.length_drop]
    rw [offset] at hj'
    omega
  have hne : header.drop (offset cut j) ≠ [] := by
    rw [Ne, List.drop_eq_nil_iff]
    omega
  have hput := Incoming.putData_completing hh ho metadataPending
    (List.take_append_drop (offset cut j) header) hne
  set f := run pf cut (j + 1) (start fs ⟨o, some ⟨[], none, 0⟩⟩ header) with hf
  have hstep : f = (collecting fs o header header (offset cut j)).step pf (cut j) := by
    rw [hf, run, hcollect]
  have hsettled : (f.inc.obj = parsed ∨ f.inc.obj = parsed.createFilePath fs) ∧ f.settled := by
    rw [step, if_neg (by simp [finished, collecting, metadataPending])] at hstep
    simp only [collecting, hdata, hput, Incoming.putPayload] at hstep
    by_cases hD : parsed.dataLen = 0
    · rw [if_pos hD] at hstep
      rw [hstep]
      exact ⟨Or.inl rfl, Or.inl List.drop_length⟩
    · rw [if_neg hD] at hstep
      cases hopen : fs.openWrite (parsed.createFilePath fs).filepath with
      | none =>
        rw [hopen] at hstep
        rw [hstep]
        exact ⟨Or.inr rfl, Or.inr rfl⟩
      | some fs' =>
        rw [hopen] at hstep
        simp only [Incoming.putFile, if_true] at hstep
        rw [hstep]
        exact ⟨Or.inr rfl, Or.inl List.drop_length⟩
  rw [outcome, hk, run_add, ← hf, (run_settled hsettled.2 _ k).1]
  exact hsettled.1

end Feed

namespace DataObject

/-- The document that the retriever makes of an object. -/
def document (pf : Platform) (o : DataObject) : XmlNode :=
  match o.toMetadata.metadata with
  | some m => m.createXMLDoc pf.lib
  | none => .other

/-- The header that the retriever sends. -/
def header (pf : Platform) (o : DataObject) : Bytes :=
  match o.toMetadata.metadata with
  | some m => trimHeader (m.getRawAlloc pf.lib)
  | none => []

/-- When what is hashed of an object arrives at another node. A document without any element inside
has no end tag, the header buffer is bounded, a blank text is lost, and the text of a length or a
weight can be cut off; the attributes are hashed in the order of the table, so a table that the
other node fills in that order has to have it too. -/
structure Survives (pf pf' : Platform) (o : DataObject) : Prop where
  inside : (o.document pf).children ≠ []
  unmistakable : XmlNode.Unmistakable (o.document pf).children
  size : (o.header pf).length < maxMetadataSize
  order : (HashMap.ofList o.attrs.toList pf'.plainChar).toList = o.attrs.toList
  values : ∀ e ∈ o.attrs.toList, Readable e.2.value ∧ e.2.weight < 10 ^ 19
  tells : ∀ m, o.metadata = some m → Tells pf pf' o m
  file : FileSurvives pf pf' o

variable {pf pf' : Platform} {o : DataObject}

/-- The metadata of an object that arrives is parsed into an object with the same identifier, and
with data of the length that is told. -/
theorem parseMetadata_readBack (hsha : pf'.sha1 = pf.sha1) (hi : Identified pf o)
    {m0 m m' : Metadata} (hm0 : o.metadata = some m0) (hv : m0.Valid) (hw : o.Written m0 m)
    (hr : ReadBack pf.lib m m') (hchar : m'.plainChar = pf'.plainChar)
    (hlib : ∀ s, s ≠ [] → 38 ∉ s → pf.lib.contentNodes s = [.text s])
    (htexts : ∀ s, ∀ x ∈ pf.lib.contentNodes s, x.isText = true)
    (hsurvive : Survives pf pf' o) (fs : FileSystem) (storagepath : Bytes) (hash : Digest) :
    ∃ r, parseMetadata pf' fs
        { new storagepath hash.1 pf'.plainChar with metadata := some m' } true = (r, true) ∧
      r.id = o.id ∧ r.dataLen = m'.toldLength := by
  have htells := hsurvive.tells m0 hm0
  have htime : readTime pf' m' = readTime pf' m0 := by rw [readTime, hr.param, hw.time, readTime]
  have hu := unfilled_parseKind pf' m' storagepath hash
  rw [htime] at hu
  obtain ⟨r1, hsig, hu1⟩ := parseSignature_readBack hlib hr
    (fun sm => hw.signature_arrives htells.signed htells.unsigned) hu
  rw [← hchar] at hu1
  obtain ⟨r2, hdata, hattrs, hcreate, hpayload, hlen, m2, hm2, hall⟩ :=
    parseData_payload hlib htexts hw hv htells.data hr hi.hash hsurvive.file fs hu1
  rw [hr.elements, hw.attrs] at hall
  obtain ⟨b, hb⟩ := parseAttributes_readBack hlib hi.attrs hsurvive.values hall hattrs
  refine ⟨calcId pf' (parseAttributes m2 r2), ?_, ?_, by rw [hb]; exact hlen⟩
  · simp only [parseMetadata, hsig, hdata, hm2, Option.getD_some]
  · have htimes : r2.timeBytes = o.timeBytes := by
      rw [timeBytes, hcreate]
      exact htells.time
    rw [hi.id, hb]
    simp only [calcId, hsha, hchar, hsurvive.order]
    rw [← hpayload, ← htimes]
    rfl

theorem isHeader_header (hsha : pf'.sha1 = pf.sha1) (hi : Identified pf o)
    (hlib : LibXml.Faithful pf.lib pf'.lib (o.document pf)) (hsurvive : Survives pf pf' o)
    (fs : FileSystem) (storagepath : Bytes) (hash : Digest) :
    ∃ parsed, IsHeader pf' fs (new storagepath hash.1 pf'.plainChar) (o.header pf) parsed ∧
      parsed.id = o.id ∧ ((∀ m, o.metadata = some m → o.TellsLength m) →
        parsed.dataLen = o.dataLen) := by
  obtain ⟨m0, hm0, hvalid, hname⟩ := hi.metadata
  obtain ⟨m, hto, hw⟩ := toMetadata_written hm0 hvalid
  have hmname : m.name = lit "Haggle" := hw.name.trans hname
  have hdoc : o.document pf = m.createXMLDoc pf.lib := by rw [document, hto]
  have hheader : o.header pf = trimHeader (pf.lib.dump (o.document pf)) := by
    rw [header, hto, hdoc]
    rfl
  have hparse : pf'.lib.parse (o.header pf) = some ((m.createXMLDoc pf.lib).format 0) := by
    rw [hheader, hlib.parse, hdoc]
  obtain ⟨m', hinit, hr, hchar⟩ := initFromRaw_readBack hw.valid hparse pf'.plainChar
  obtain ⟨r, hmeta, hid, hlen⟩ := parseMetadata_readBack hsha hi hm0 hvalid hw hr hchar hlib.text
    hlib.texts hsurvive fs storagepath hash
  have htree : o.document pf =
      .elem (lit "Haggle") m.params (createRegistry pf.lib m.registry) := by
    rw [hdoc, createXMLDoc, hmname]
  have hinside := hsurvive.inside
  have hinner := hsurvive.unmistakable
  rw [htree] at hinside hinner
  obtain ⟨hlast, hfirst⟩ := hlib.endTag _ _ htree hinside hinner
  rw [← hheader] at hlast hfirst
  refine ⟨r, ⟨hsurvive.size, hfirst, hlast, ?_⟩, hid, fun htells => ?_⟩
  swap
  · rw [hlen, toldLength_readBack hr hw.valid, hw.toldLength_eq hvalid (htells m0 hm0)]
  rw [completeHeader, hinit]
  simp only [hr.name, hmname, ne_eq, not_true_eq_false, if_false, hmeta]

/-- What is put together of a header is an object of the node. -/
theorem made_completeHeader {fs : FileSystem} {o parsed : DataObject} {header : Bytes}
    (hattrs : o.attrs = HashMap.empty pf.plainChar) (hhash : o.dataHash.length = 20)
    (h : completeHeader pf fs o header = (parsed, true)) : Made pf parsed := by
  unfold completeHeader at h
  cases hraw : initFromRaw pf.lib header pf.plainChar with
  | none =>
    rw [hraw] at h
    cases h
  | some m =>
    simp only [hraw] at h
    by_cases hname : m.name = lit "Haggle"
    · rw [if_neg (not_not.mpr hname)] at h
      have hmade := @Made.parsed pf fs true header m { o with metadata := some m } hraw hname rfl
        hattrs hhash (fun _ _ _ _ => rfl)
      generalize parseMetadata pf fs { o with metadata := some m } true = r at h hmade
      obtain ⟨o', ok⟩ := r
      cases ok with
      | false => cases h
      | true =>
        obtain rfl : o' = parsed := congrArg Prod.fst h
        exact hmade rfl
    · rw [if_pos hname] at h
      cases h

/-- The object that another node puts together from the header of an object has its identifier,
however the header is cut on the way, and it can be passed on in turn. -/
theorem made_hop {cut : ℕ → ℕ} (hmade : Made pf o) (hsha : pf'.sha1 = pf.sha1)
    (hlib : LibXml.Faithful pf.lib pf'.lib (o.document pf)) (hsurvive : Survives pf pf' o)
    (fs : FileSystem) (storagepath : Bytes) (hash : Digest) (hcut : ∀ i, 0 < cut i) :
    (Feed.outcome pf' fs (new storagepath hash.1 pf'.plainChar) (o.header pf)
        cut).inc.obj.metadata.isSome ∧
      (Feed.outcome pf' fs (new storagepath hash.1 pf'.plainChar) (o.header pf)
        cut).inc.obj.id = o.id ∧
      Made pf' (Feed.outcome pf' fs (new storagepath hash.1 pf'.plainChar) (o.header pf)
        cut).inc.obj := by
  obtain ⟨parsed, hh, hid, -⟩ :=
    isHeader_header hsha hmade.identified hlib hsurvive fs storagepath hash
  have hsome : parsed.metadata.isSome := isSome_metadata_completeHeader hh.parses
  have hparsed : Made pf' parsed := made_completeHeader rfl hash.2 hh.parses
  rcases Feed.outcome_header hh rfl hcut with hobj | hobj
  · rw [hobj]
    exact ⟨hsome, hid, hparsed⟩
  · rw [hobj]
    exact ⟨hsome, hid, hparsed.other (hparsed.identified.createFilePath fs)⟩

theorem Coherent.tells (h : Coherent pf o) (htime : o.createTime.sec < 10 ^ 12) {m : Metadata}
    (hm : o.metadata = some m) : Tells pf pf' o m := by
  obtain ⟨m1, hm1, hroot⟩ := h.root
  obtain rfl : m = m1 := Option.some.inj (hm.symm.trans hm1)
  refine ⟨?_, ?_, ?_, ?_⟩
  · have hread : readTime pf' m = o.createTime := by
      rw [readTime, hroot.time, Option.map_some, Option.getD_some]
      exact Timeval.ofString_getAsString pf'.uninit h.created htime
    rw [hread]
  · intro dm hdm
    have hde := hroot.data dm (List.mem_of_mem_head? hdm)
    have hleaf : ∀ k c, dm.getMetadata k = some c → c.Leaf :=
      fun k c hc => hde.leaves k c (List.mem_of_mem_head? hc)
    refine ⟨fun _ c hc => silent_of_leaf (hleaf _ c hc), fun hv c hc => ?_,
      fun _ _ c hc => silent_of_leaf (hleaf _ c hc), fun _ hf => .inl ?_⟩
    · rw [getMetadata, hde.hash hv] at hc
      cases hc
    · rw [hde.length hf]
      rfl
  · exact fun _ sm hsm => silent_of_leaf (hroot.signature sm (List.mem_of_mem_head? hsm)).leaf
  · intro _ sm hsm
    obtain ⟨⟨s, hs⟩, hleaf⟩ := hroot.signature sm (List.mem_of_mem_head? hsm)
    refine ⟨textArrives_of_leaf hleaf (hs ▸ readable_encode s), ?_⟩
    rw [hs, Base64.decodeAlloc_encode]
    rfl

end DataObject

namespace Sample

/-- A library that knows one document. -/
def wireLib (raw : Bytes) (t : XmlNode) : LibXml where
  parse r := if r = trimHeader raw then some (t.format 0) else none
  dump _ := raw
  contentNodes c := [.text c]

theorem faithful_wireLib {raw : Bytes} (t : XmlNode) (h : endsHeader (trimHeader raw) = true ∧
    ∀ i < (trimHeader raw).length, endsHeader ((trimHeader raw).take i) = false) :
    LibXml.Faithful (wireLib raw t) (wireLib raw t) t where
  text _ _ _ := rfl
  texts _ x hx := by
    rw [List.mem_singleton.mp hx]
    rfl
  parse := by
    simp only [wireLib]
    exact if_pos trivial
  endTag _ _ _ _ _ := h

def wirePlatform (raw : Bytes) (t : XmlNode) : Platform where
  lib := wireLib raw t
  sha1 := firstBytes
  sizeBytes n := [n.toUInt8]
  uninit := ⟨0, 0⟩

def digest : Digest := firstBytes []

def draft : Draft where
  storagepath := lit "/s"
  filepath := []
  filename := []
  dataLen := 0
  dataState := .unknown
  dataHash := digest
  createTime := ⟨7, 0⟩
  created := rfl

def attr (name : String) : Attribute := ⟨lit name, lit "v", 1⟩

theorem weight_attr (name : String) : (attr name).weight < 2 ^ 32 := by
  simp [attr]

def oneRaw : Bytes :=
  lit "<?xml version=\"1.0\"?>\n<Haggle create_time=\"7.000000\" persistent=\"yes\">\n" ++
    lit "  <Attr name=\"a\">v</Attr>\n</Haggle>\n"

def attrTree (name : String) : XmlNode :=
  .elem (lit "Attr") [(lit "name", lit name)] [.text (lit "v")]

def oneTree : XmlNode :=
  .elem (lit "Haggle") [(lit "create_time", lit "7.000000"), (lit "persistent", lit "yes")]
    [attrTree "a"]

def onePlatform : Platform := wirePlatform oneRaw oneTree

def oneChange : List Change := [.addAttribute (attr "a") (by decide)]

def one : DataObject := DataObject.history onePlatform draft oneChange

theorem document_one : one.document onePlatform = oneTree := by
  rfl

theorem faithful_one : LibXml.Faithful onePlatform.lib onePlatform.lib oneTree :=
  faithful_wireLib oneTree (by simp only [oneRaw, lit_ofList]; decide +kernel)

theorem survives_one : DataObject.Survives onePlatform onePlatform one where
  inside := by
    rw [document_one]
    exact List.cons_ne_nil _ _
  unmistakable := by
    rw [document_one]
    decide
  size := by decide +kernel
  order := by decide
  values := by decide
  tells _ hm := (DataObject.coherent_history onePlatform draft oneChange).tells (by decide) hm
  file _ h := absurd h (by decide)

/-- The other node goes through these attributes in the other order. -/
def twoRaw : Bytes :=
  lit "<?xml version=\"1.0\"?>\n<Haggle create_time=\"7.000000\" persistent=\"yes\">\n" ++
    lit "  <Attr name=\"a\">v</Attr>\n  <Attr name=\"b\">v</Attr>\n</Haggle>\n"

def twoTree : XmlNode :=
  .elem (lit "Haggle") [(lit "create_time", lit "7.000000"), (lit "persistent", lit "yes")]
    [attrTree "a", attrTree "b"]

def twoPlatform : Platform := wirePlatform twoRaw twoTree

/-- Eight attributes make the table grow, and it stays large when six of them are removed. -/
def twoChange : List Change :=
  ["a", "b", "c", "d", "e", "f", "g", "h"].map
      (fun n => .addAttribute (attr n) (Nat.one_lt_two_pow (by norm_num))) ++
    ["c", "d", "e", "f", "g", "h"].map (fun n => .removeAttribute (lit n) (lit "v"))

def two : DataObject := DataObject.history twoPlatform draft twoChange

set_option maxRecDepth 4000 in
theorem document_two : two.document twoPlatform = twoTree := by
  rfl

theorem faithful_two : LibXml.Faithful twoPlatform.lib twoPlatform.lib twoTree :=
  faithful_wireLib twoTree (by simp only [twoRaw, lit_ofList]; decide +kernel)

end Sample

namespace DataObject

theorem made_hop_sample :
    (Feed.outcome Sample.onePlatform Sample.storage
        (new (lit "/s") Sample.digest.1 Sample.onePlatform.plainChar)
        (Sample.one.header Sample.onePlatform) (fun _ => 10)).inc.obj.metadata.isSome ∧
      (Feed.outcome Sample.onePlatform Sample.storage
        (new (lit "/s") Sample.digest.1 Sample.onePlatform.plainChar)
        (Sample.one.header Sample.onePlatform) (fun _ => 10)).inc.obj.id = Sample.one.id ∧
      Made Sample.onePlatform (Feed.outcome Sample.onePlatform Sample.storage
        (new (lit "/s") Sample.digest.1 Sample.onePlatform.plainChar)
        (Sample.one.header Sample.onePlatform) (fun _ => 10)).inc.obj := by
  have hmade : Made Sample.onePlatform Sample.one :=
    made_history Sample.onePlatform Sample.draft Sample.oneChange
  have hlib : LibXml.Faithful Sample.onePlatform.lib Sample.onePlatform.lib
      (Sample.one.document Sample.onePlatform) := by
    rw [Sample.document_one]
    exact Sample.faithful_one
  exact @made_hop Sample.onePlatform Sample.onePlatform Sample.one (fun _ => 10) hmade rfl hlib
    Sample.survives_one Sample.storage (lit "/s") Sample.digest (fun _ => by norm_num)

/-- The identifier of an object whose table of attributes was once larger changes on the way. -/
theorem made_hop_ne_sample :
    Made Sample.twoPlatform Sample.two ∧
      LibXml.Faithful Sample.twoPlatform.lib Sample.twoPlatform.lib
        (Sample.two.document Sample.twoPlatform) ∧
      ¬(Feed.outcome Sample.twoPlatform Sample.storage (new (lit "/s") Sample.digest.1)
        (Sample.two.header Sample.twoPlatform) (fun _ => 1000)).inc.obj.id = Sample.two.id := by
  refine ⟨made_history _ _ _, Sample.document_two.symm ▸ Sample.faithful_two, ?_⟩
  decide +kernel

end DataObject

end Haggle
