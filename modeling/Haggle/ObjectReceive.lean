import Haggle.ObjectSerialise

/-!
# Receiving a data object that was written

The receiver of an object that was turned into metadata and written reads off it the signature, what
stands for the payload, and the attributes. Each part arrives if the texts it is made of do.
-/

namespace Haggle

open Metadata

/-- The length that the metadata of an object tell, if their `Data` element has one. -/
def Metadata.toldLength (m : Metadata) : ℕ :=
  (((m.getMetadata (lit "Data")).bind (·.getParameter (lit "data_len"))).map strtoul).getD 0

/-- Of attributes that are equal only the first is taken. -/
def Attributes.distinct (l : List Attribute) : List Attribute :=
  l.reverse.pwFilter fun a b => a.eq b = false

namespace DataObject

section Receive

variable {lib : LibXml} {o : DataObject} {m m' dm : Metadata}

/-- An object that has got the metadata `m` and the time `t`, but no payload and no attributes. -/
structure Unfilled (c : PlainChar) (m : Metadata) (t : Timeval) (o : DataObject) : Prop where
  metadata : o.metadata = some m
  createTime : o.createTime = t
  attrs : o.attrs = HashMap.empty c
  dataState : o.dataState = .unknown
  filename : o.filename = []
  dataLen : o.dataLen = 0
  dataHash : o.dataHash.length = 20

/-- The time of an object that is filled with the metadata `m`. -/
def readTime (pf : Platform) (m : Metadata) : Timeval :=
  ((m.getParameter (lit "create_time")).map (Timeval.ofString pf.uninit)).getD ⟨-1, 0⟩

theorem unfilled_parseKind (pf : Platform) (m : Metadata) (storagepath : Bytes) (hash : Digest) :
    Unfilled pf.plainChar m (readTime pf m) (parseKind m (parseCreateTime pf m (parsePersistent m
      { new storagepath hash.1 pf.plainChar with metadata := some m }))) := by
  have hpersist : ∀ o : DataObject, ∃ p, parsePersistent m o = { o with persistent := p } := by
    intro o
    unfold parsePersistent
    split
    · exact ⟨o.persistent, rfl⟩
    · split_ifs
      · exact ⟨false, rfl⟩
      · exact ⟨true, rfl⟩
      · exact ⟨o.persistent, rfl⟩
  obtain ⟨p, hp⟩ := hpersist { new storagepath hash.1 pf.plainChar with metadata := some m }
  rw [hp, parseCreateTime, readTime]
  cases m.getParameter (lit "create_time") with
  | none => exact ⟨rfl, rfl, rfl, rfl, rfl, rfl, hash.2⟩
  | some v => exact ⟨rfl, rfl, rfl, rfl, rfl, rfl, hash.2⟩

theorem parseSignature_readBack (hlib : ∀ s, s ≠ [] → 38 ∉ s → lib.contentNodes s = [.text s])
    (hr : ReadBack lib m m')
    (hsig : ∀ sm, m.getMetadata (lit "Signature") = some sm →
      TextArrives lib sm ∧ (Base64.decodeAlloc sm.content).isSome)
    {c : PlainChar} {t : Timeval} (ho : Unfilled c m' t o) :
    ∃ r, parseSignature m' o = (r, true) ∧ Unfilled c m' t r := by
  unfold parseSignature
  split_ifs
  · exact ⟨o, rfl, ho⟩
  · rw [hr.getMetadata]
    cases hs : m.getMetadata (lit "Signature") with
    | none => exact ⟨o, rfl, ho⟩
    | some sm =>
      obtain ⟨harrives, hdecodes⟩ := hsig sm hs
      obtain ⟨s, hdecode⟩ := Option.isSome_iff_exists.mp hdecodes
      simp only [Option.map_some, content_reread hlib harrives, hdecode]
      exact ⟨_, rfl, ho.metadata, ho.createTime, ho.attrs, ho.dataState, ho.filename, ho.dataLen,
        ho.dataHash⟩

/-- The path that a `Data` element gives. -/
def readPath (dm : Metadata) (o : DataObject) : Bytes :=
  ((dm.getMetadata (lit "FilePath")).map Metadata.content).getD o.filepath

/-- A file path that `setFilePath` accepts is noted, and gives the file its name if it has none. -/
theorem parseFilePath_accepted {fs : FileSystem} {fromNetwork : Bool} {len : ℕ} (hdm : dm.Valid)
    (o : DataObject) (hset : ∀ c, dm.getMetadata (lit "FilePath") = some c → ∀ o' : DataObject,
      setFilePath fs o' c.content o.dataLen fromNetwork =
        ({ o' with filepath := c.content, dataLen := len }, true))
    (hlen : dm.getMetadata (lit "FilePath") = none → len = o.dataLen) :
    ∃ name dm', parseFilePath fs fromNetwork dm o =
        ({ o with filepath := readPath dm o, filename := name, dataLen := len }, dm', true) ∧
      (o.filename ≠ [] ∨ dm.getMetadata (lit "FilePath") = none → name = o.filename) ∧
      dm'.getMetadata (lit "FileHash") = dm.getMetadata (lit "FileHash") := by
  unfold parseFilePath readPath
  cases hp : dm.getMetadata (lit "FilePath") with
  | none => exact ⟨o.filename, dm, by rw [hlen hp]; rfl, fun _ => rfl, rfl⟩
  | some c =>
    simp only [hset c hp o]
    by_cases hname : o.filename = []
    · have hv : (dm.addMetadata
          (.new (lit "FileName") (baseName c.content) dm.plainChar)).Valid :=
        valid_addMetadata hdm (valid_new _ _)
      have hne : (Metadata.new (lit "FileName") (baseName c.content) dm.plainChar).name ≠
          lit "FileHash" := show lit "FileName" ≠ lit "FileHash" by decide
      rw [if_pos hname]
      refine ⟨_, _, rfl, fun h => ?_, ?_⟩
      · rcases h with h | h
        · exact absurd hname h
        · cases h
      · rw [getMetadata, getAll_removeMetadata hv, if_neg (by decide), getAll_addMetadata hdm,
          if_neg hne, List.append_nil, getMetadata]
    · rw [if_neg hname]
      refine ⟨o.filename, _, rfl, fun _ => rfl, ?_⟩
      rw [getMetadata, getAll_removeMetadata hdm, if_neg (by decide), getMetadata]

/-- The name that a `Data` element gives. -/
def readName (dm : Metadata) (o : DataObject) : Bytes :=
  ((dm.getMetadata (lit "FileName")).map Metadata.content).getD o.filename

theorem parseFileName_eq (dm : Metadata) (o : DataObject) :
    parseFileName dm o = { o with filename := readName dm o } := by
  unfold parseFileName readName
  cases dm.getMetadata (lit "FileName") <;> rfl

/-- The length that a `Data` element gives. -/
def readLength (dm : Metadata) (o : DataObject) : ℕ :=
  ((dm.getParameter (lit "data_len")).map strtoul).getD o.dataLen

theorem parseData_accepted {fs : FileSystem} {fromNetwork : Bool} {len : ℕ} (hdm : dm.Valid)
    (o : DataObject) (hd : m.getMetadata (lit "Data") = some dm)
    (hset : ∀ c, dm.getMetadata (lit "FilePath") = some c → ∀ o' : DataObject,
      setFilePath fs o' c.content (readLength dm o) fromNetwork =
        ({ o' with filepath := c.content, dataLen := len }, true))
    (hlen : dm.getMetadata (lit "FilePath") = none → len = readLength dm o) :
    ∃ name dm', parseData fs fromNetwork m o = (parseFileHash dm' { o with
        filepath := readPath dm o
        filename := name
        dataLen := len
        metadata := some (m.updateMetadata (lit "Data") (fun _ => dm')) }, true) ∧
      (readName dm o ≠ [] ∨ dm.getMetadata (lit "FilePath") = none → name = readName dm o) ∧
      dm'.getMetadata (lit "FileHash") = dm.getMetadata (lit "FileHash") := by
  obtain ⟨name, dm', heq, hname, hhash⟩ := parseFilePath_accepted
    (o := { o with dataLen := readLength dm o, filename := readName dm o }) hdm hset hlen
  refine ⟨name, dm', ?_, hname, hhash⟩
  cases hp : dm.getParameter (lit "data_len") with
  | none =>
    simp only [readLength, hp, Option.map_none, Option.getD_none] at heq
    simp only [parseData, parseDataLen, hd, hp, parseFileName_eq, heq, if_true]
    rfl
  | some v =>
    simp only [readLength, hp, Option.map_some, Option.getD_some] at heq
    have hsame : readName dm { o with dataLen := strtoul v } = readName dm o := rfl
    simp only [parseData, parseDataLen, hd, hp, parseFileName_eq, hsame, heq, if_true]
    rfl

/-- How the object `o` is after all of the `Data` element `dm` but the hash was read into it; `dm'`
is what is left of the element. -/
structure ReadNames (m dm dm' : Metadata) (o r : DataObject) : Prop where
  attrs : r.attrs = o.attrs
  createTime : r.createTime = o.createTime
  dataState : r.dataState = o.dataState
  dataHash : r.dataHash = o.dataHash
  metadata : r.metadata = some (m.updateMetadata (lit "Data") (fun _ => dm'))
  dataLen : r.dataLen = ((dm.getParameter (lit "data_len")).map strtoul).getD o.dataLen
  filename : readName dm o ≠ [] ∨ dm.getMetadata (lit "FilePath") = none →
    r.filename = readName dm o
  fileHash : dm'.getMetadata (lit "FileHash") = dm.getMetadata (lit "FileHash")

theorem parseData_network (fs : FileSystem) (hdm : dm.Valid) (o : DataObject)
    (hd : m.getMetadata (lit "Data") = some dm) :
    ∃ r dm', parseData fs true m o = (parseFileHash dm' r, true) ∧ ReadNames m dm dm' o r := by
  obtain ⟨name, dm', heq, hname, hhash⟩ :=
    @parseData_accepted m dm fs true _ hdm o hd (fun _ _ _ => rfl) (fun _ => rfl)
  exact ⟨_, dm', heq, rfl, rfl, rfl, rfl, rfl, rfl, hname, hhash⟩

theorem parseFileHash_of_none (o : DataObject) (h : dm.getMetadata (lit "FileHash") = none) :
    parseFileHash dm o = o := by
  rw [parseFileHash, h]
  split_ifs <;> rfl

theorem parseFileHash_of_encode (hs : o.dataState = .unknown) (ho : o.dataHash.length = 20)
    {h : Bytes} (hh : h.length = 20) (hc : (dm.getMetadata (lit "FileHash")).map Metadata.content =
      some (Base64.encode h)) :
    parseFileHash dm o = { o with dataHash := h, dataState := .notVerified } := by
  obtain ⟨c, hget, hcontent⟩ := Option.map_eq_some_iff.mp hc
  have hdecode : Base64.decode (Base64.encode h) 20 = (true, h) := Base64.decode_encode h hh.le
  rw [parseFileHash, if_neg (by simp [hs]), hget]
  simp only [hcontent, hdecode, if_true]
  rw [List.drop_of_length_le (by omega), List.append_nil]

end Receive

/-- A file without a hash is known by its name and its length; both have to arrive, and the two
nodes have to agree on how a length lies in memory. -/
def FileSurvives (pf pf' : Platform) (o : DataObject) : Prop :=
  o.dataIsVerifiable = false → o.hasFile = true →
    Readable o.filename ∧ o.dataLen < 10 ^ 19 ∧ pf'.sizeBytes o.dataLen = pf.sizeBytes o.dataLen

/-- A `Data` element of an object that tells another node what stands for the payload. What
`toMetadata` does not write has to be there already: no hash if the data cannot be verified, and no
file if there is none. -/
structure TellsData (lib : LibXml) (o : DataObject) (dm : Metadata) : Prop where
  hash : o.dataIsVerifiable = true → ∀ c, dm.getMetadata (lit "FileHash") = some c → Silent lib c
  noHash : o.dataIsVerifiable = false → ∀ c, dm.getMetadata (lit "FileHash") = some c →
    TextArrives lib c ∧ (Base64.decode c.content 20).1 = false
  name : o.dataIsVerifiable = false → o.hasFile = true →
    ∀ c, dm.getMetadata (lit "FileName") = some c → Silent lib c
  noFile : o.dataIsVerifiable = false → o.hasFile = false →
    ((dm.getParameter (lit "data_len")).map strtoul).getD 0 = 0 ∨
      (∀ c, dm.getMetadata (lit "FileName") = some c → c.content = []) ∧
        dm.getMetadata (lit "FilePath") = none

/-- The metadata of an object tell another node what is hashed, also where `toMetadata` leaves them
as they are. The text of the time has to be read as the time that is hashed. -/
structure Tells (pf pf' : Platform) (o : DataObject) (m : Metadata) : Prop where
  time : timeBytes { o with createTime := readTime pf' m } = o.timeBytes
  data : ∀ dm, m.getMetadata (lit "Data") = some dm → TellsData pf.lib o dm
  signed : o.signature.getD [] ≠ [] →
    ∀ sm, m.getMetadata (lit "Signature") = some sm → Silent pf.lib sm
  unsigned : o.signature.getD [] = [] → ∀ sm, m.getMetadata (lit "Signature") = some sm →
    TextArrives pf.lib sm ∧ (Base64.decodeAlloc sm.content).isSome

section Payload

variable {lib : LibXml} {o r : DataObject} {m m' dm : Metadata} {pf pf' : Platform}

theorem payloadBytes_of_not_verifiable (hv : o.dataIsVerifiable = false) : o.payloadBytes pf =
    if o.hasFile = true then o.filename ++ pf.sizeBytes o.dataLen else [] := by
  have hfile : (o.filename ≠ [] ∧ 0 < o.dataLen) ↔ o.hasFile = true := by
    simp only [hasFile, Bool.and_eq_true, decide_eq_true_eq, Nat.pos_iff_ne_zero]
    exact and_comm
  rw [payloadBytes, hv, if_neg Bool.false_ne_true]
  simp only [hfile]

theorem strtoul_take_decimal {n : ℕ} (hn : n < 10 ^ 19) : strtoul ((decimal n).take 19) = n := by
  rw [List.take_of_length_le (length_decimal_le (by norm_num) hn)]
  apply strtoul_decimal
  rw [ulongMax]
  omega

/-- The first element of a name inside a `Data` element, as the receiver reads its text. -/
theorem content_getMetadata_reread
    (hlib : ∀ s, s ≠ [] → 38 ∉ s → lib.contentNodes s = [.text s]) (hdm : dm.Valid)
    (ht : ∀ x ∈ contentNodes lib dm.content, x.isText = true) {c : PlainChar}
    {k : Bytes} {x : Metadata} (hx : dm.getMetadata k = some x) (hs : TextArrives lib x) :
    ((reread lib dm c).getMetadata k).map Metadata.content = some x.content := by
  rw [getMetadata_reread hdm ht, hx, Option.map_some, Option.map_some, content_reread hlib hs]

theorem textArrives_of_silent {x : Metadata} (h : Silent lib x) (hread : Readable x.content) :
    TextArrives lib x := hread.imp_right fun hr => ⟨hr, h⟩

theorem parseFileHash_fields (dm : Metadata) (o : DataObject) :
    (parseFileHash dm o).attrs = o.attrs ∧ (parseFileHash dm o).createTime = o.createTime ∧
      (parseFileHash dm o).metadata = o.metadata ∧ (parseFileHash dm o).dataLen = o.dataLen := by
  unfold parseFileHash
  split_ifs
  · exact ⟨rfl, rfl, rfl, rfl⟩
  · split
    · exact ⟨rfl, rfl, rfl, rfl⟩
    · dsimp only
      split_ifs <;> exact ⟨rfl, rfl, rfl, rfl⟩

theorem TellsData.new {c : PlainChar} : TellsData lib o (.new (lit "Data") [] c) := by
  have hnone : ∀ k, (Metadata.new (lit "Data") [] c).getMetadata k = none := by
    intro k
    rw [getMetadata, getAll_new, List.head?_nil]
  refine ⟨?_, ?_, ?_, fun _ _ => .inl rfl⟩
  · intro _ x hx
    rw [hnone] at hx
    cases hx
  · intro _ x hx
    rw [hnone] at hx
    cases hx
  · intro _ _ x hx
    rw [hnone] at hx
    cases hx

/-- The `Data` element that is written is made of one that tells, if there is anything to tell. -/
theorem Written.data_cases (hw : o.Written m m') (hm : m.Valid)
    (ht : ∀ dm, m.getMetadata (lit "Data") = some dm → TellsData lib o dm) :
    m'.getMetadata (lit "Data") = none ∧ o.dataIsVerifiable = false ∧ o.hasFile = false ∨
      ∃ dm, dm.Valid ∧ TellsData lib o dm ∧
        m'.getMetadata (lit "Data") = some (o.dataMetadata dm) := by
  rw [hw.data]
  by_cases h : (o.hasFile || o.dataIsVerifiable) = true
  · rw [if_pos h]
    refine .inr ⟨_, valid_getD hm _ (valid_new _ _), ?_, rfl⟩
    cases hd : m.getMetadata (lit "Data") with
    | none => exact .new
    | some dm => exact ht dm hd
  · rw [if_neg h]
    simp only [Bool.not_eq_true, Bool.or_eq_false_iff] at h
    cases hd : m.getMetadata (lit "Data") with
    | none => exact .inl ⟨rfl, h.2, h.1⟩
    | some dm =>
      refine .inr ⟨dm, (mem_getAll hm (List.mem_of_mem_head? hd)).2, ht dm hd, ?_⟩
      rw [dataMetadata_of_not h.2, h.1]
      rfl

theorem Written.signature_arrives (hw : o.Written m m') (hsigned : o.signature.getD [] ≠ [] →
      ∀ sm, m.getMetadata (lit "Signature") = some sm → Silent lib sm)
    (hunsigned : o.signature.getD [] = [] → ∀ sm, m.getMetadata (lit "Signature") = some sm →
      TextArrives lib sm ∧ (Base64.decodeAlloc sm.content).isSome)
    {sm : Metadata} (hs : m'.getMetadata (lit "Signature") = some sm) :
    TextArrives lib sm ∧ (Base64.decodeAlloc sm.content).isSome := by
  rw [hw.signature] at hs
  by_cases hnil : o.signature.getD [] = []
  · rw [if_pos hnil] at hs
    exact hunsigned hnil sm hs
  · rw [if_neg hnil] at hs
    obtain rfl := Option.some.inj hs
    have hencode : (o.signatureMetadata (o.signature.getD []) ((m.getMetadata
        (lit "Signature")).getD (.new (lit "Signature") [] m.plainChar))).content =
        Base64.encode (o.signature.getD []) := rfl
    refine ⟨textArrives_of_silent ?_ (hencode ▸ readable_encode _), ?_⟩
    · cases hd : m.getMetadata (lit "Signature") with
      | none => exact silent_of_leaf (leaf_new (lit "Signature") [])
      | some sm => exact hsigned hnil sm hd
    · rw [hencode, Base64.decodeAlloc_encode]
      rfl

section Element

variable {dm' : Metadata} {r1 : DataObject} {t : Timeval} {c : PlainChar}

/-- The hash of the file arrives. -/
theorem payloadBytes_of_hash (hlib : ∀ s, s ≠ [] → 38 ∉ s → lib.contentNodes s = [.text s])
    (htexts : ∀ s, ∀ x ∈ lib.contentNodes s, x.isText = true) (hdm : dm.Valid)
    (ht : TellsData lib o dm) (hhash : o.dataHash.length = 20)
    (hu : Unfilled c m' t r) (hn : ReadNames m' (reread lib (o.dataMetadata dm) c) dm' r r1)
    (hv : o.dataIsVerifiable = true) :
    (parseFileHash dm' r1).payloadBytes pf' = o.payloadBytes pf := by
  obtain ⟨x, hx, hsilent, hcontent⟩ := fileHash_dataMetadata hdm hv (ht.hash hv)
  have hread := content_getMetadata_reread (c := c) hlib (keeps_dataMetadata o dm hdm).1
    (isText_contentNodes htexts _) hx (textArrives_of_silent hsilent (hcontent ▸ readable_encode _))
  rw [← hn.fileHash, hcontent] at hread
  have hstate := hn.dataState.trans hu.dataState
  have hlength : r1.dataHash.length = 20 := by rw [hn.dataHash, hu.dataHash]
  rw [parseFileHash_of_encode hstate hlength hhash hread, payloadBytes, payloadBytes, hv]
  rfl

/-- A hash that is not base64 is not taken. -/
theorem parseFileHash_of_undecodable (h : ∀ x, dm.getMetadata (lit "FileHash") = some x →
    (Base64.decode x.content 20).1 = false) (o : DataObject) :
    ∃ d, parseFileHash dm o = { o with dataHash := d } := by
  unfold parseFileHash
  split_ifs
  · exact ⟨o.dataHash, rfl⟩
  · cases hx : dm.getMetadata (lit "FileHash") with
    | none => exact ⟨o.dataHash, rfl⟩
    | some x =>
      refine ⟨(Base64.decode x.content 20).2 ++
        o.dataHash.drop (Base64.decode x.content 20).2.length, ?_⟩
      simp only [h x hx, Bool.false_eq_true, if_false]

/-- The name and the length of the file arrive, if there is a file. -/
theorem payloadBytes_of_file (hlib : ∀ s, s ≠ [] → 38 ∉ s → lib.contentNodes s = [.text s])
    (htexts : ∀ s, ∀ x ∈ lib.contentNodes s, x.isText = true) (hdm : dm.Valid)
    (ht : TellsData lib o dm) (hfile : FileSurvives pf pf' o)
    (hu : Unfilled c m' t r) (hn : ReadNames m' (reread lib (o.dataMetadata dm) c) dm' r r1)
    (hv : o.dataIsVerifiable = false) :
    (parseFileHash dm' r1).payloadBytes pf' = o.payloadBytes pf := by
  have hvalid := (keeps_dataMetadata o dm hdm).1
  obtain ⟨d, hd⟩ := @parseFileHash_of_undecodable dm' (by
    intro x hx
    rw [hn.fileHash, getMetadata_reread hvalid (isText_contentNodes htexts _),
      fileHash_dataMetadata_of_not hdm hv,
      Option.map_eq_some_iff] at hx
    obtain ⟨y, hy, rfl⟩ := hx
    obtain ⟨harrives, hnot⟩ := ht.noHash hv y hy
    rw [content_reread hlib harrives]
    exact hnot) r1
  have hrv : ({ r1 with dataHash := d } : DataObject).dataIsVerifiable = false := by
    rw [dataIsVerifiable, hn.dataState, hu.dataState]
  have hlen := hn.dataLen
  have hname := hn.filename
  rw [getParameter_reread hvalid, hu.dataLen] at hlen
  rw [readName, hu.filename] at hname
  rw [hd, payloadBytes_of_not_verifiable hv, payloadBytes_of_not_verifiable hrv]
  by_cases hf : o.hasFile = true
  · obtain ⟨hreadable, hbound, hsize⟩ := hfile hv hf
    have hne : o.dataLen ≠ 0 ∧ o.filename ≠ [] := by simpa [hasFile] using hf
    obtain ⟨x, hx, hsilent, hxname⟩ := fileName_fileMetadata (o := o) hdm (ht.name hv hf)
    have hdm' : o.dataMetadata dm = o.fileMetadata dm := by rw [dataMetadata_of_not hv, if_pos hf]
    have hparam := (describesFile_fileMetadata (o := o) hdm).1
    rw [← hdm'] at hx hparam
    rw [content_getMetadata_reread hlib hvalid (isText_contentNodes htexts _) hx
      (textArrives_of_silent hsilent (hxname ▸ hreadable)), Option.getD_some, hxname] at hname
    rw [hparam, Option.map_some, Option.getD_some, strtoul_take_decimal hbound] at hlen
    have hname' : r1.filename = o.filename := hname (.inl hne.2)
    have hrf : ({ r1 with dataHash := d } : DataObject).hasFile = true := by
      rw [hasFile, hname', hlen, ← hasFile, hf]
    rw [if_pos hf, if_pos hrf, hname', hlen, hsize]
  · have hf' : o.hasFile = false := by simpa using hf
    have hdm' : o.dataMetadata dm = dm := by rw [dataMetadata_of_not hv, if_neg hf]
    rw [hdm'] at hlen hname
    have hrf : ({ r1 with dataHash := d } : DataObject).hasFile = false := by
      rcases ht.noFile hv hf' with h0 | ⟨hfn, hfp⟩
      · simp [hasFile, hlen, h0]
      · have hnil : r1.filename = [] := by
          refine (hname (.inr ?_)).trans ?_
          · rw [getMetadata_reread hdm (isText_contentNodes htexts _), hfp, Option.map_none]
          · cases hx : dm.getMetadata (lit "FileName") with
            | none =>
              rw [getMetadata_reread hdm (isText_contentNodes htexts _), hx]
              rfl
            | some x =>
              have hempty := hfn x hx
              rw [content_getMetadata_reread hlib hdm (isText_contentNodes htexts _) hx
                (.inl hempty), hempty]
              rfl
        simp [hasFile, hnil]
    rw [if_neg hf, hrf]
    rfl

end Element

/-- Without a `Data` element there is nothing that stands for the payload. -/
theorem payloadBytes_of_no_data (hv : o.dataIsVerifiable = false) (hf : o.hasFile = false)
    {c : PlainChar} {t : Timeval} (hu : Unfilled c m' t r) :
    r.payloadBytes pf' = o.payloadBytes pf := by
  have hrv : r.dataIsVerifiable = false := by rw [dataIsVerifiable, hu.dataState]
  have hrf : r.hasFile = false := by simp [hasFile, hu.dataLen]
  rw [payloadBytes_of_not_verifiable hrv, payloadBytes_of_not_verifiable hv, hrf, hf]
  rfl

/-- What stands for the payload in the identifier arrives, and so does the length that is told. -/
theorem parseData_payload (hlib : ∀ s, s ≠ [] → 38 ∉ s → lib.contentNodes s = [.text s])
    (htexts : ∀ s, ∀ x ∈ lib.contentNodes s, x.isText = true) {m0 : Metadata}
    (hw : o.Written m0 m) (hm : m0.Valid)
    (ht : ∀ dm, m0.getMetadata (lit "Data") = some dm → TellsData lib o dm)
    (hr : ReadBack lib m m') (hhash : o.dataHash.length = 20) (hfile : FileSurvives pf pf' o)
    (fs : FileSystem) {t : Timeval} (hu : Unfilled m'.plainChar m' t r) :
    ∃ r', parseData fs true m' r = (r', true) ∧ r'.attrs = HashMap.empty m'.plainChar ∧
      r'.createTime = t ∧ r'.payloadBytes pf' = o.payloadBytes pf ∧ r'.dataLen = m'.toldLength ∧
      ∃ m'', r'.metadata = some m'' ∧ m''.getAll (lit "Attr") = m'.getAll (lit "Attr") := by
  have hget := hr.getMetadata (lit "Data")
  rcases hw.data_cases hm ht with ⟨hd, hv, hf⟩ | ⟨dm, hdm, htells, hd⟩
  · rw [hd, Option.map_none] at hget
    refine ⟨r, by rw [parseData, hget], hu.attrs, hu.createTime, payloadBytes_of_no_data hv hf hu,
      ?_, m', hu.metadata, rfl⟩
    rw [hu.dataLen, toldLength, hget]
    rfl
  · rw [hd, Option.map_some] at hget
    obtain ⟨r1, dm', heq, hn⟩ := parseData_network fs (valid_reread lib _) r hget
    obtain ⟨hattrs, htime, hmeta, hlen⟩ := parseFileHash_fields dm' r1
    refine ⟨_, heq, hattrs.trans (hn.attrs.trans hu.attrs),
      htime.trans (hn.createTime.trans hu.createTime), ?_, ?_, _, hmeta.trans hn.metadata, ?_⟩
    · cases hv : o.dataIsVerifiable with
      | true => exact payloadBytes_of_hash hlib htexts hdm htells hhash hu hn hv
      | false => exact payloadBytes_of_file hlib htexts hdm htells hfile hu hn hv
    · rw [hlen, hn.dataLen, hu.dataLen, toldLength, hget]
      rfl
    · rw [getAll_updateMetadata hr.valid, if_neg (by decide)]

theorem toldLength_readBack (h : ReadBack lib m m') (hm : m.Valid) :
    m'.toldLength = m.toldLength := by
  rw [toldLength, toldLength, h.getMetadata]
  cases hd : m.getMetadata (lit "Data") with
  | none => rfl
  | some dm =>
    rw [Option.map_some, Option.bind_some, Option.bind_some,
      getParameter_reread (mem_getAll hm (List.mem_of_mem_head? hd)).2]

/-- The metadata `m` of an object tell the length of its data once they are written. -/
def TellsLength (o : DataObject) (m : Metadata) : Prop :=
  if o.hasFile = true then o.dataLen < 10 ^ 19 else m.toldLength = o.dataLen

theorem Written.toldLength_eq (hw : o.Written m m') (hm : m.Valid) (ht : o.TellsLength m) :
    m'.toldLength = o.dataLen := by
  unfold TellsLength at ht
  by_cases hf : o.hasFile = true
  · rw [if_pos hf] at ht
    obtain ⟨dm, hd, hlen, -⟩ := hw.file hm hf
    rw [toldLength, hd, Option.bind_some, hlen, Option.map_some, Option.getD_some,
      strtoul_take_decimal ht]
  · rw [if_neg hf] at ht
    rw [← ht, toldLength, toldLength, hw.data, eq_false_of_ne_true hf, Bool.false_or]
    by_cases hv : o.dataIsVerifiable = true
    · have hkeep : ∀ dm, (o.dataMetadata dm).getParameter (lit "data_len") =
          dm.getParameter (lit "data_len") := by
        intro dm
        rw [dataMetadata, if_neg hf, if_pos hv]
        exact getParameter_upsert _ _ _ dm
      rw [if_pos hv, Option.bind_some, hkeep]
      cases m.getMetadata (lit "Data") <;> rfl
    · rw [if_neg hv]

end Payload

section Attributes

variable {lib : LibXml} {r : DataObject}

/-- Attributes that do not match each other are all taken, one after the other. -/
theorem foldl_addParsed (l : List Attribute) (hr : r.attrs.WF)
    (hd : Attributes.Distinct (r.attrs.toList ++ l.map (fun a => (a.name, a)))) :
    ∃ b, l.foldl addParsed r = { r with
      isNodeDesc := b, attrs := (l.map (fun a => (a.name, a))).foldl HashMap.insert r.attrs } := by
  induction l generalizing r with
  | nil => exact ⟨r.isNodeDesc, rfl⟩
  | cons a l ih =>
    have hold : Attributes.Distinct r.attrs.toList := hd.sublist (List.sublist_append_left _ _)
    have hnone : Attributes.find r.attrs a = none := by
      rw [Attributes.find_eq_none_iff hr hold]
      intro e he
      rw [Attribute.eq_symm]
      exact (List.pairwise_append.mp hd.2).2.2 e he (a.name, a) List.mem_cons_self
    have hstep : addParsed r a = { r with
        isNodeDesc := r.isNodeDesc || decide (a.name = lit "NodeDescription")
        attrs := r.attrs.insert (a.name, a) } := by
      simp only [addParsed, hasAttribute, hnone]
      rfl
    have hperm : (r.attrs.toList ++ (a :: l).map (fun a => (a.name, a))).Perm
        ((r.attrs.insert (a.name, a)).toList ++ l.map (fun a => (a.name, a))) := by
      rw [List.map_cons]
      exact List.perm_middle.trans
        ((HashMap.toList_insert_perm hr (a.name, a)).symm.append_right _)
    rw [List.foldl_cons, hstep]
    exact ih (r := { r with
      isNodeDesc := r.isNodeDesc || decide (a.name = lit "NodeDescription")
      attrs := r.attrs.insert (a.name, a) }) (HashMap.wf_insert hr _) (hd.perm hperm)

theorem foldl_addParsed_distinct {o : DataObject} (l : List Attribute) {c : PlainChar}
    (ho : o.attrs = HashMap.empty c) :
    (l.foldl addParsed o).attrs.WF ∧ Attributes.Distinct (l.foldl addParsed o).attrs.toList ∧
      ((l.foldl addParsed o).attrs.toList.map Prod.snd).Perm (Attributes.distinct l) := by
  induction l using List.reverseRecOn with
  | nil =>
    have hnil : o.attrs.toList = [] := by
      rw [ho]
      exact HashMap.toList_ofTableSize 7
    rw [List.foldl_nil, hnil]
    exact ⟨ho ▸ HashMap.wf_empty, ⟨(fun e he => by cases he), List.Pairwise.nil⟩, List.Perm.refl _⟩
  | append_singleton l a ih =>
    obtain ⟨hwf, hdistinct, hperm⟩ := ih
    rw [List.foldl_append, List.foldl_cons, List.foldl_nil]
    set r := l.foldl addParsed o with hr
    have hfind : Attributes.find r.attrs a = none ↔
        ∀ b ∈ Attributes.distinct l, a.eq b = false := by
      rw [Attributes.find_eq_none_iff hwf hdistinct, ← List.forall_mem_map (f := Prod.snd)
        (P := fun b => a.eq b = false)]
      exact ⟨fun h b hb => h b (hperm.symm.subset hb), fun h b hb => h b (hperm.subset hb)⟩
    by_cases hnone : Attributes.find r.attrs a = none
    · have hstep : (addParsed r a).attrs = Attributes.add r.attrs a := by
        simp only [addParsed, hasAttribute, hnone]
        rfl
      have hcons : Attributes.distinct (l ++ [a]) = a :: Attributes.distinct l := by
        rw [Attributes.distinct, List.reverse_append]
        exact List.pwFilter_cons_of_pos (hfind.mp hnone)
      rw [hstep, hcons]
      refine ⟨HashMap.wf_insert hwf _, Attributes.distinct_add hwf hdistinct hnone, ?_⟩
      exact ((HashMap.toList_insert_perm hwf (a.name, a)).map Prod.snd).trans (hperm.cons a)
    · have hstep : (addParsed r a).attrs = r.attrs := by
        obtain ⟨b, hb⟩ := Option.ne_none_iff_exists'.mp hnone
        simp only [addParsed, hasAttribute, hb]
        rfl
      have hcons : Attributes.distinct (l ++ [a]) = Attributes.distinct l := by
        rw [Attributes.distinct, List.reverse_append]
        exact List.pwFilter_cons_of_neg fun h => hnone (hfind.mpr h)
      rw [hstep, hcons]
      exact ⟨hwf, hdistinct, hperm⟩

theorem attributeOf_reread (hlib : ∀ s, s ≠ [] → 38 ∉ s → lib.contentNodes s = [.text s])
    {c c' : PlainChar} {a : Attribute} (hv : Readable a.value) (hw : a.weight < 10 ^ 19) :
    attributeOf (reread lib (attributeMetadata a c) c') = a := by
  obtain ⟨-, hcontent, hleaf, hvalid⟩ := attributeMetadata_fields a (c := c)
  have hname : (attributeMetadata a c).getParameter (lit "name") = some a.name := by
    unfold attributeMetadata
    split_ifs
    · rw [getParameter_setParameter_of_ne _ (by decide), getParameter_setParameter_self]
    · exact getParameter_setParameter_self _ _ _
  have hweight : (((attributeMetadata a c).getParameter (lit "weight")).map strtoul).getD 1 =
      a.weight := by
    unfold attributeMetadata
    split_ifs with h1
    · rw [getParameter_setParameter_self, Option.map_some, Option.getD_some,
        strtoul_take_decimal hw]
    · rw [not_not] at h1
      rw [getParameter_setParameter_of_ne _ (by decide), h1]
      rfl
  have hread := content_reread (c := c') hlib (textArrives_of_leaf hleaf (by rwa [hcontent]))
  rw [attributeOf, getParameter_reread hvalid, getParameter_reread hvalid, hname, hweight, hread,
    hcontent]
  rfl

/-- The receiver builds the table of the attributes in the order in which the sender goes through
its own. -/
theorem parseAttributes_readBack
    (hlib : ∀ s, s ≠ [] → 38 ∉ s → lib.contentNodes s = [.text s]) {attrs : Attributes}
    (hs : attrs.Apart) (hv : ∀ e ∈ attrs.toList, Readable e.2.value ∧ e.2.weight < 10 ^ 19)
    {c c' : PlainChar} {m : Metadata} (hm : m.getAll (lit "Attr") =
      (attrs.toList.map (fun e => attributeMetadata e.2 c)).map (reread lib · c'))
    (hr : r.attrs = HashMap.empty c') :
    ∃ b, parseAttributes m r = { r with
      isNodeDesc := b, attrs := HashMap.ofList attrs.toList c' } := by
  have hlist : (m.getAll (lit "Attr")).map attributeOf = attrs.toList.map Prod.snd := by
    rw [hm, List.map_map, List.map_map]
    apply List.map_congr_left
    intro e he
    exact attributeOf_reread hlib (hv e he).1 (hv e he).2
  have hkeys : (attrs.toList.map Prod.snd).map (fun a => (a.name, a)) = attrs.toList := by
    rw [List.map_map]
    nth_rewrite 2 [← List.map_id attrs.toList]
    apply List.map_congr_left
    intro e he
    exact Prod.ext (hs.distinct.1 e he).symm rfl
  have hnil : r.attrs.toList = [] := by
    rw [hr]
    exact HashMap.toList_ofTableSize 7
  obtain ⟨b, hb⟩ := foldl_addParsed (r := r) (attrs.toList.map Prod.snd)
    (by rw [hr]; exact HashMap.wf_empty) (by rw [hnil, hkeys]; exact hs.distinct)
  rw [hkeys, hr] at hb
  exact ⟨b, by rw [parseAttributes, hlist, hb, HashMap.ofList]⟩

end Attributes

end DataObject
end Haggle
