import Haggle.ParserStability

/-!
# Putting received bytes into a data object

`putData` collects the metadata header byte by byte until the end tag, parses it, and writes the
payload behind it to a file of the storage directory. `remaining` tells the caller how much payload
is still to come, or that the header is not complete.
-/

namespace Haggle

/-- `DATAOBJECT_METADATA_PENDING`. -/
def metadataPending : ℕ := 32767

/-- `DATAOBJECT_MAX_METADATA_SIZE`. -/
def maxMetadataSize : ℕ := 65536

/-- `</haggle>`, with the letters in either case. -/
def isEndTag : Bytes → Bool
  | [a, b, c, d, e, f, g, h, i] =>
    a = 60 && b = 47 && (c = 72 || c = 104) && (d = 65 || d = 97) && (e = 71 || e = 103) &&
      (f = 71 || f = 103) && (g = 76 || g = 108) && (h = 69 || h = 101) && i = 62
  | _ => false

/-- Whether the last nine bytes of the header are the end tag. -/
def endsHeader (header : Bytes) : Bool := isEndTag (header.drop (header.length - 9))

namespace DataObject

/-- The size of the buffer `path`. -/
def pathLength : ℕ := 256

/-- The first path that `createFilePath` tries, cut off by `snprintf`. -/
def firstPath (o : DataObject) : Bytes :=
  (o.storagepath ++ lit "/" ++ o.filename).take (pathLength - 1)

/-- The paths it tries next, composed by `sprintf` without a bound. -/
def numberedPath (o : DataObject) (i : ℕ) : Bytes :=
  o.storagepath ++ lit "/" ++ decimal i ++ lit "-" ++ o.filename

/-- The number of the path that is taken, from `i` on. -/
def searchPath (fs : FileSystem) (o : DataObject) : ℕ → ℕ → ℕ
  | 0, i => i
  | fuel + 1, i => if fs.canRead (o.numberedPath i) then searchPath fs o fuel (i + 1) else i

/-- `createFilePath`: numbers are tried until there is no such file. There are not more files than
the search has rounds. -/
def createFilePath (fs : FileSystem) (o : DataObject) : DataObject :=
  { o with filepath :=
      if fs.canRead o.firstPath then o.numberedPath (searchPath fs o fs.files.length 1)
      else o.firstPath }

inductive HeaderResult where
  | more (header : Bytes)
  | failed (obj : DataObject)
  | done (obj : DataObject) (rest : Bytes)

/-- The end of the header was found: it is parsed into the metadata. -/
def completeHeader (pf : Platform) (fs : FileSystem) (o : DataObject) (header : Bytes) :
    DataObject × Bool :=
  match Metadata.initFromRaw pf.lib header pf.plainChar with
  | none => (o, false)
  | some m =>
    if m.name ≠ lit "Haggle" then (o, false)
    else
      match parseMetadata pf fs { o with metadata := some m } true with
      | (o, false) => ({ o with metadata := none }, false)
      | (o, true) => (o, true)

/-- The loop over the bytes of the header. -/
def putHeader (pf : Platform) (fs : FileSystem) (o : DataObject) (header : Bytes) :
    Bytes → HeaderResult
  | [] => .more header
  | b :: data =>
    if endsHeader (header ++ [b]) then
      match completeHeader pf fs o (header ++ [b]) with
      | (o, false) => .failed o
      | (o, true) => .done o data
    else putHeader pf fs o (header ++ [b]) data

end DataObject

/-- `pDd`: the header received so far, the file being written and the payload still to come. -/
structure PutInfo where
  header : Bytes
  fp : Option Bytes
  bytesLeft : ℕ
deriving DecidableEq

/-- A data object that is being put together, with its `putData_data`. -/
structure Incoming where
  obj : DataObject
  info : Option PutInfo

/-- The results of a call of `putData`; `ret` is `none` for `-1`. -/
structure PutResult where
  ret : Option ℕ
  remaining : ℕ
  inc : Incoming
  fs : FileSystem

namespace Incoming

/-- `create_for_putting`. The data hash of the new object is not initialised. -/
def createForPutting (storagepath hash : Bytes) (c : PlainChar := .signed) : Incoming :=
  ⟨DataObject.new storagepath hash c, some ⟨[], none, 0⟩⟩

/-- The last part of `putData` writes to the open file. It returns the number of payload bytes. -/
def putFile (fs : FileSystem) (o : DataObject) (info : PutInfo) (path : Bytes)
    (remaining putLen : ℕ) (data : Bytes) : PutResult :=
  if data = [] then ⟨some putLen, remaining, ⟨o, some info⟩, fs⟩
  else if data.length < info.bytesLeft then
    match fs.write path data with
    | none => ⟨none, remaining, ⟨o, none⟩, fs⟩
    | some fs =>
      ⟨some data.length, info.bytesLeft - data.length,
        ⟨o, some { info with bytesLeft := info.bytesLeft - data.length }⟩, fs⟩
  else if 0 < info.bytesLeft then
    match fs.write path (data.take info.bytesLeft) with
    | none => ⟨none, remaining, ⟨o, none⟩, fs⟩
    | some fs => ⟨some info.bytesLeft, 0, ⟨o, none⟩, fs⟩
  else ⟨some putLen, remaining, ⟨o, some info⟩, fs⟩

/-- The part of `putData` behind the header; the file is opened first. -/
def putPayload (fs : FileSystem) (o : DataObject) (info : PutInfo) (putLen : ℕ) (data : Bytes) :
    PutResult :=
  match info.fp with
  | some path => putFile fs o info path metadataPending putLen data
  | none =>
    if o.dataLen = 0 then ⟨some putLen, 0, ⟨o, none⟩, fs⟩
    else
      let o := o.createFilePath fs
      match fs.openWrite o.filepath with
      | none => ⟨none, o.dataLen, ⟨o, none⟩, fs⟩
      | some fs =>
        putFile fs o { info with fp := some o.filepath, bytesLeft := o.dataLen } o.filepath
          o.dataLen putLen data

def putData (pf : Platform) (fs : FileSystem) (x : Incoming) (remaining : ℕ) (data : Bytes) :
    PutResult :=
  if data = [] then ⟨some 0, remaining, x, fs⟩
  else
    match x.info with
    | none => ⟨some 0, 0, x, fs⟩
    | some info =>
      match x.obj.metadata with
      | some _ => putPayload fs x.obj info 0 data
      | none =>
        if maxMetadataSize ≤ info.header.length + data.length then
          ⟨none, metadataPending, x, fs⟩
        else
          match x.obj.putHeader pf fs info.header data with
          | .more header =>
            ⟨some data.length, metadataPending, ⟨x.obj, some { info with header := header }⟩, fs⟩
          | .failed o => ⟨none, metadataPending, ⟨o, some { info with header := [] }⟩, fs⟩
          | .done o rest =>
            putPayload fs o { info with header := [] } (data.length - rest.length) rest

end Incoming

namespace DataObject

/-- `deleteData`. -/
def deleteData (fs : FileSystem) (o : DataObject) : FileSystem × DataObject :=
  (if o.filepath ≠ [] then fs.remove o.filepath else fs,
    { o with filepath := [], dataLen := 0, dataState := .noData })

/-- The destructor. -/
def destroy (fs : FileSystem) (o : DataObject) : FileSystem :=
  if o.stored then fs else (deleteData fs o).1

/-! ### The header -/

theorem isSome_metadata_parseMetadata (pf : Platform) (fs : FileSystem) {o : DataObject}
    (fromNetwork : Bool) (ho : o.metadata.isSome) :
    (parseMetadata pf fs o fromNetwork).1.metadata.isSome := by
  have hstable : Stable (fun o => o.metadata.isSome) := by
    constructor <;> intros <;> first | assumption | rfl
  exact hstable.parseMetadata pf fs fromNetwork ho

theorem isSome_metadata_completeHeader {pf : Platform} {fs : FileSystem} {o parsed : DataObject}
    {header : Bytes} (h : completeHeader pf fs o header = (parsed, true)) :
    parsed.metadata.isSome := by
  unfold completeHeader at h
  split at h
  · simp at h
  · rename_i m hm
    split_ifs at h
    · simp at h
    · have hs := isSome_metadata_parseMetadata pf fs (o := { o with metadata := some m }) true rfl
      split at h
      · simp at h
      · rename_i o' heq
        rw [heq] at hs
        simp only [Prod.mk.injEq, and_true] at h
        exact h ▸ hs

/-- The header of the object `o`: `putData` finds its end where it ends, and can parse it. -/
structure IsHeader (pf : Platform) (fs : FileSystem) (o : DataObject) (header : Bytes)
    (parsed : DataObject) : Prop where
  size : header.length < maxMetadataSize
  first : ∀ i < header.length, endsHeader (header.take i) = false
  last : endsHeader header = true
  parses : completeHeader pf fs o header = (parsed, true)

theorem IsHeader.ne_nil {pf : Platform} {fs : FileSystem} {o parsed : DataObject} {header : Bytes}
    (h : IsHeader pf fs o header parsed) : header ≠ [] := by
  rintro rfl
  exact absurd h.last (by decide)

variable {pf : Platform} {fs : FileSystem} {o parsed : DataObject} {header : Bytes}

theorem IsHeader.isSome_metadata (h : IsHeader pf fs o header parsed) :
    (parsed.createFilePath fs).metadata.isSome :=
  show parsed.metadata.isSome from isSome_metadata_completeHeader h.parses

/-- Bytes inside the header are collected. -/
theorem putHeader_more (h : IsHeader pf fs o header parsed) (pre data : Bytes)
    (hpre : pre ++ data <+: header) (hlt : (pre ++ data).length < header.length) :
    putHeader pf fs o pre data = .more (pre ++ data) := by
  induction data generalizing pre with
  | nil => rw [putHeader, List.append_nil]
  | cons b data ih =>
    have hcat : pre ++ b :: data = (pre ++ [b]) ++ data := by simp
    have hend : endsHeader (pre ++ [b]) = false := by
      have hp : pre ++ [b] <+: header := (hcat ▸ List.prefix_append _ data).trans hpre
      rw [List.prefix_iff_eq_take.mp hp]
      apply h.first
      simp only [List.length_append, List.length_cons, List.length_nil] at hlt ⊢
      omega
    rw [putHeader, hend, if_neg Bool.false_ne_true, ih _ (hcat ▸ hpre) (hcat ▸ hlt), hcat]

/-- The byte that ends the header completes the metadata; what follows is left over. -/
theorem putHeader_done (h : IsHeader pf fs o header parsed) (pre data rest : Bytes)
    (hcat : pre ++ data = header) (hne : data ≠ []) :
    putHeader pf fs o pre (data ++ rest) = .done parsed rest := by
  induction data generalizing pre with
  | nil => exact absurd rfl hne
  | cons b data ih =>
    have hcat' : (pre ++ [b]) ++ data = header := by simpa using hcat
    rw [List.cons_append, putHeader]
    by_cases hd : data = []
    · subst hd
      rw [List.append_nil] at hcat'
      rw [hcat', h.last, if_pos rfl, h.parses]
      rfl
    · have hend : endsHeader (pre ++ [b]) = false := by
        rw [show pre ++ [b] = header.take (pre ++ [b]).length by rw [← hcat', List.take_left]]
        apply h.first
        have hlen : header.length = (pre ++ [b]).length + data.length := by
          rw [← hcat', List.length_append]
        have hpos := List.length_pos_of_ne_nil hd
        omega
      rw [hend, if_neg Bool.false_ne_true, ih _ hcat' hd]

end DataObject

namespace Incoming

variable {pf : Platform} {fs : FileSystem} {o parsed : DataObject} {header : Bytes}

/-- A call inside the header takes all that it is offered. -/
theorem putData_collecting (hh : o.IsHeader pf fs header parsed) (ho : o.metadata = none)
    (remaining : ℕ) {pre data : Bytes} (hpre : pre ++ data <+: header)
    (hlt : (pre ++ data).length < header.length) (hne : data ≠ []) :
    putData pf fs ⟨o, some ⟨pre, none, 0⟩⟩ remaining data =
      ⟨some data.length, metadataPending, ⟨o, some ⟨pre ++ data, none, 0⟩⟩, fs⟩ := by
  have hsmall : ¬maxMetadataSize ≤ pre.length + data.length := by
    have := hh.size
    rw [List.length_append] at hlt
    omega
  simp only [putData, if_neg hne, ho, if_neg hsmall, DataObject.putHeader_more hh pre data hpre hlt]

/-- A call that ends with the header opens the file, if there is a payload. -/
theorem putData_completing (hh : o.IsHeader pf fs header parsed) (ho : o.metadata = none)
    (remaining : ℕ) {pre data : Bytes} (hcat : pre ++ data = header) (hne : data ≠ []) :
    putData pf fs ⟨o, some ⟨pre, none, 0⟩⟩ remaining data =
      putPayload fs parsed ⟨[], none, 0⟩ data.length [] := by
  have hsmall : ¬maxMetadataSize ≤ pre.length + data.length := by
    have := hh.size
    rw [← hcat, List.length_append] at this
    omega
  have hdone := DataObject.putHeader_done hh pre data [] hcat hne
  rw [List.append_nil] at hdone
  simp only [putData, if_neg hne, ho, if_neg hsmall, hdone, List.length_nil, Nat.sub_zero]

/-- A call inside the payload takes all that it is offered, unless the storage refuses it. -/
theorem putData_writing (ho : o.metadata.isSome) (remaining : ℕ) {path w data : Bytes} {left : ℕ}
    (hw : fs.contents path = some w) (hne : data ≠ []) (hle : data.length ≤ left) :
    (putData pf fs ⟨o, some ⟨[], some path, left⟩⟩ remaining data).ret = none ∨
      ∃ fs', fs'.contents path = some (w ++ data) ∧
        putData pf fs ⟨o, some ⟨[], some path, left⟩⟩ remaining data =
          ⟨some data.length, left - data.length,
            ⟨o, if data.length < left then some ⟨[], some path, left - data.length⟩ else none⟩,
            fs'⟩ := by
  obtain ⟨m, hm⟩ := Option.isSome_iff_exists.mp ho
  have hpos : 0 < data.length := List.length_pos_of_ne_nil hne
  simp only [putData, if_neg hne, hm, putPayload, putFile]
  by_cases hlt : data.length < left
  · rw [if_pos hlt]
    cases hwr : fs.write path data with
    | none => exact Or.inl rfl
    | some fs' =>
      refine Or.inr ⟨fs', ?_, by rw [if_pos hlt]⟩
      rw [FileSystem.write_eq_some hwr]
      simp [FileSystem.contents] at hw ⊢
      simp [hw]
  · have heq : data.length = left := by omega
    rw [if_neg hlt, if_pos (by omega), ← heq, List.take_length]
    cases hwr : fs.write path data with
    | none => exact Or.inl rfl
    | some fs' =>
      refine Or.inr ⟨fs', ?_, by rw [if_neg (lt_irrefl _), Nat.sub_self]⟩
      rw [FileSystem.write_eq_some hwr]
      simp [FileSystem.contents] at hw ⊢
      simp [hw]

end Incoming

namespace Sample

/-- The header of an object with one file of the given length. -/
def header (len : ℕ) : Bytes :=
  lit "<Haggle><Data data_len=\"" ++ decimal len ++ lit "\"><FileName>f</FileName></Data></Haggle>"

def tree (len : ℕ) : XmlNode :=
  .elem (lit "Haggle") []
    [.elem (lit "Data") [(lit "data_len", decimal len)]
      [.elem (lit "FileName") [] [.text (lit "f")]]]

/-- A library that knows this document. -/
def lib (len : ℕ) : LibXml where
  parse raw := if raw = header len then some (tree len) else none
  dump _ := header len
  contentNodes c := [.text c]

def platform (len : ℕ) : Platform where
  lib := lib len
  sha1 _ := .fill 0
  sizeBytes n := [n.toUInt8]
  uninit := ⟨0, 0⟩

def storage : FileSystem := ⟨[], fun _ => true, fun _ => true, fun _ _ => true, []⟩

def object : DataObject := DataObject.new (lit "/s") (List.replicate 20 0)

/-- The object that the header is parsed into. -/
def parsed (len : ℕ) : DataObject := (object.completeHeader (platform len) storage (header len)).1

theorem isHeader_two : object.IsHeader (platform 2) storage (header 2) (parsed 2) where
  size := by decide
  first := by decide
  last := by decide
  parses := Prod.ext rfl (by decide)

theorem dataLen_two : (parsed 2).dataLen = 2 := by decide

theorem isHeader_pending :
    object.IsHeader (platform 32767) storage (header 32767) (parsed 32767) where
  size := by decide
  first := by decide
  last := by decide
  parses := Prod.ext rfl (by decide)

theorem dataLen_pending : (parsed 32767).dataLen = 32767 := by decide

end Sample
end Haggle
