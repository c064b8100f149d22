import Haggle.LibObjectTree
import Haggle.ObjectReceive

/-!
# The payload of an object of an application

The kernel reads off the metadata of a local object where its file lies, and takes the file as it
finds it. What stands for the payload is the hash if there is one, else the name and the length.
-/

namespace Haggle

open LibMetadata (read IsRead)

namespace DataObject

/-- A local file that is there is accepted, and has the length that it has. -/
theorem setFilePath_local {fs : FileSystem} {path c : Bytes} {len : ℕ}
    (hc : fs.read path = some c) (hlen : len = 0 ∨ c.length = len) (o : DataObject) :
    setFilePath fs o path len false = ({ o with filepath := path, dataLen := c.length }, true) := by
  simp only [setFilePath, hc]
  rcases hlen with rfl | rfl
  · rfl
  · by_cases hz : c.length = 0 <;> simp [hz]

end DataObject

namespace LibDataObject

/-- When the library and the kernel see the same payload. The kernel needs the file; without a hash
it goes by the length of the file, and by its name, which it makes up if there is none. -/
structure FileAgrees (fs : FileSystem) (d : LibDataObject) : Prop where
  length : d.datalen < 10 ^ 19
  path : ∀ p, d.filepath = some p → Readable p ∧
    ∃ c, fs.read p = some c ∧ (d.datalen = 0 ∨ c.length = d.datalen)
  empty : d.hash = none → d.datalen = 0 → ∀ p, d.filepath = some p → fs.read p = some []
  name : d.hash = none → 0 < d.datalen → ∃ n, d.filename = some n ∧ n ≠ [] ∧ Readable n

/-- The bytes that stand for the payload in the identifier. -/
def payloadBytes (pf : Platform) (d : LibDataObject) : Bytes :=
  match d.hash with
  | some h => h.1
  | none =>
    match d.filename with
    | some name => if 0 < d.datalen then name ++ pf.sizeBytes d.datalen else []
    | none => []

theorem hashInput_eq (pf : Platform) (d : LibDataObject) : d.hashInput pf =
    d.al.flatMap attrBytes ++
      (if d.createtime.sec ≠ 0 then (createtimeText d.createtime).take 19 else []) ++
      d.payloadBytes pf := rfl

variable {pf : Platform} {fs : FileSystem} {lib : LibXml} {d : LibDataObject} {m dm : LibMetadata}
  {m' rm : Metadata} {o : DataObject} {t : Timeval} {c : PlainChar}

theorem content_getMetadata_read
    (hlib : ∀ s, s ≠ [] → 38 ∉ s → lib.contentNodes s = [.text s]) (hdm : d.DataTidy dm) {k : Bytes}
    (hread : ∀ s, textOf dm k = some s → Readable s) :
    ((read lib dm c).getMetadata k).map Metadata.content = textOf dm k := by
  rw [LibMetadata.getMetadata_read (by rw [hdm.content]; rfl), textOf]
  cases hc : dm.get k with
  | none => rfl
  | some c =>
    have hleaf : c.children = [] := hdm.leaves k c (List.mem_of_mem_head? hc)
    have htext : textOf dm k = some (c.content.getD []) := by rw [textOf, hc, Option.map_some]
    rw [Option.map_some, Option.map_some, Option.map_some,
      LibMetadata.content_read hlib hleaf (hread _ htext)]

/-- The kernel finds the file, and its length matters only without a hash. -/
theorem FileAgrees.accepted (hf : d.FileAgrees fs)
    (hp : (rm.getMetadata (lit "FilePath")).map Metadata.content = d.filepath) :
    ∃ len, (∀ c, rm.getMetadata (lit "FilePath") = some c → ∀ o : DataObject,
        DataObject.setFilePath fs o c.content d.datalen false =
          ({ o with filepath := c.content, dataLen := len }, true)) ∧
      (rm.getMetadata (lit "FilePath") = none → len = d.datalen) ∧
      (d.hash = none → len = d.datalen) := by
  cases hc : rm.getMetadata (lit "FilePath") with
  | none => exact ⟨d.datalen, fun _ h => (nomatch h), fun _ => rfl, fun _ => rfl⟩
  | some c =>
    rw [hc, Option.map_some] at hp
    obtain ⟨-, f, hfile, hlen⟩ := hf.path _ hp.symm
    refine ⟨f.length, ?_, fun h => (nomatch h), ?_⟩
    · intro c' hc'
      obtain rfl := Option.some.inj hc'
      exact DataObject.setFilePath_local hfile hlen
    · intro hhash
      rcases hlen with hzero | hlen
      · have hnil := hf.empty hhash hzero _ hp.symm
        rw [hfile] at hnil
        rw [Option.some.inj hnil, hzero, List.length_nil]
      · exact hlen

/-- An object that was read with the right name and the right length has the payload of the object
that was written. -/
theorem payloadBytes_of_file (hf : d.FileAgrees fs) (hhash : d.hash = none) {r : DataObject}
    (hstate : r.dataState = .unknown) (hlen : r.dataLen = d.datalen)
    (hname : ∀ s, d.filename = some s → Readable s → s ≠ [] → r.filename = s) :
    r.payloadBytes pf = d.payloadBytes pf := by
  have hv : r.dataIsVerifiable = false := by rw [DataObject.dataIsVerifiable, hstate]
  rw [DataObject.payloadBytes, payloadBytes, hv, if_neg Bool.false_ne_true, hhash, hlen]
  rcases Nat.eq_zero_or_pos d.datalen with hz | hpos
  · rw [hz]
    cases d.filename <;> simp
  · obtain ⟨n, hn, hne, hread⟩ := hf.name hhash hpos
    simp only [hname n hn hread hne, hn]
    rw [if_pos ⟨hne, hpos⟩, if_pos hpos]

/-- The hash is read if there is one, and stands for the payload; else name and length do. -/
theorem payloadBytes_parseFileHash
    (hlib : ∀ s, s ≠ [] → 38 ∉ s → lib.contentNodes s = [.text s]) (hdesc : d.Described dm)
    (hf : d.FileAgrees fs) {r : DataObject}
    (hhash : rm.getMetadata (lit "FileHash") = (read lib dm c).getMetadata (lit "FileHash"))
    (hstate : r.dataState = .unknown) (hr : r.dataHash.length = 20)
    (hlen : d.hash = none → r.dataLen = d.datalen)
    (hname : ∀ s, d.filename = some s → Readable s → s ≠ [] → r.filename = s) :
    (DataObject.parseFileHash rm r).payloadBytes pf = d.payloadBytes pf := by
  have hcontent : (rm.getMetadata (lit "FileHash")).map Metadata.content =
      d.hash.map fun h => Base64.encode h.1 := by
    rw [hhash, content_getMetadata_read hlib hdesc.tidy, hdesc.hash]
    intro s hs
    rw [hdesc.hash] at hs
    obtain ⟨h, -, rfl⟩ := Option.map_eq_some_iff.mp hs
    exact readable_encode h.1
  cases hh : d.hash with
  | some h =>
    rw [hh, Option.map_some] at hcontent
    rw [DataObject.parseFileHash_of_encode hstate hr h.2 hcontent, payloadBytes, hh]
    rfl
  | none =>
    rw [hh, Option.map_none, Option.map_eq_none_iff] at hcontent
    rw [DataObject.parseFileHash_of_none _ hcontent]
    exact payloadBytes_of_file hf hh hstate (hlen hh) hname

theorem parseData_described (hlib : ∀ s, s ≠ [] → 38 ∉ s → lib.contentNodes s = [.text s])
    (hdesc : d.Described dm) (hm' : m'.Valid)
    (hget : m'.getMetadata (lit "Data") = some (read lib dm c)) (hf : d.FileAgrees fs)
    (hu : DataObject.Unfilled pf.plainChar m' t o) :
    ∃ r, DataObject.parseData fs false m' o = (r, true) ∧ r.attrs = HashMap.empty pf.plainChar ∧
      r.createTime = t ∧ r.payloadBytes pf = d.payloadBytes pf ∧
      ∃ m'', r.metadata = some m'' ∧ m''.getAll (lit "Attr") = m'.getAll (lit "Attr") := by
  have hlength : DataObject.readLength (read lib dm c) o = d.datalen := by
    rw [DataObject.readLength, LibMetadata.getParameter_read hdesc.tidy.plain, hdesc.length,
      Option.map_some, Option.getD_some, DataObject.strtoul_take_decimal hf.length]
  have hpath : ((read lib dm c).getMetadata (lit "FilePath")).map Metadata.content = d.filepath := by
    rw [← hdesc.path]
    apply content_getMetadata_read hlib hdesc.tidy
    intro s hs
    rw [hdesc.path] at hs
    exact (hf.path s hs).1
  obtain ⟨len, hset, hnone, hlen⟩ := hf.accepted hpath
  rw [← hlength] at hset hnone
  obtain ⟨name, dm', heq, hname, hhash⟩ :=
    DataObject.parseData_accepted (LibMetadata.valid_read lib dm) o hget hset hnone
  obtain ⟨hattrs, htime, hmeta, -⟩ := DataObject.parseFileHash_fields dm' { o with
    filepath := DataObject.readPath (read lib dm c) o
    filename := name
    dataLen := len
    metadata := some (m'.updateMetadata (lit "Data") (fun _ => dm')) }
  refine ⟨_, heq, hattrs.trans hu.attrs, htime.trans hu.createTime, ?_, _, hmeta, ?_⟩
  · refine payloadBytes_parseFileHash hlib hdesc hf hhash ?_ ?_ hlen ?_
    · exact hu.dataState
    · exact hu.dataHash
    intro s hs hread hne
    have hgiven : DataObject.readName (read lib dm c) o = s := by
      rw [← hdesc.name] at hs
      rw [DataObject.readName, content_getMetadata_read hlib hdesc.tidy, hs, Option.getD_some]
      intro s' hs'
      rw [hs] at hs'
      exact Option.some.inj hs' ▸ hread
    rw [hgiven] at hname
    exact hname (.inl hne)
  · rw [Metadata.getAll_updateMetadata hm', if_neg (by decide)]

/-- What stands for the payload in the identifier arrives. -/
theorem parseData_written (hlib : ∀ s, s ≠ [] → 38 ∉ s → lib.contentNodes s = [.text s])
    (hw : d.Written m) (hr : IsRead lib m m')
    (hfile : d.hash.isSome = true → d.filepath.isSome = true) (hf : d.FileAgrees fs)
    (hu : DataObject.Unfilled pf.plainChar m' t o) :
    ∃ r, DataObject.parseData fs false m' o = (r, true) ∧ r.attrs = HashMap.empty pf.plainChar ∧
      r.createTime = t ∧ r.payloadBytes pf = d.payloadBytes pf ∧
      ∃ m'', r.metadata = some m'' ∧ m''.getAll (lit "Attr") = m'.getAll (lit "Attr") := by
  by_cases hd : d.hasData = true
  · obtain ⟨dm, hdm, hdesc⟩ := hw.data hd
    have hget : m'.getMetadata (lit "Data") = some (read lib dm m'.plainChar) := by
      rw [hr.getMetadata, hdm, Option.map_some]
    exact parseData_described hlib hdesc hr.valid hget hf hu
  · have hnone : m'.getMetadata (lit "Data") = none := by
      have hnil : m.getAll (lit "Data") = [] := by
        rw [List.eq_nil_iff_forall_not_mem]
        exact fun dm hdm => hd (hw.tidy dm hdm).1
      rw [hr.getMetadata, LibMetadata.get, hnil, List.head?_nil, Option.map_none]
    simp only [hasData, Bool.or_eq_true, decide_eq_true_eq, not_or, Nat.not_lt,
      Nat.le_zero] at hd
    have hh : d.hash = none := by
      by_contra hne
      exact hd.1 (hfile (Option.isSome_iff_ne_none.mpr hne))
    refine ⟨o, by rw [DataObject.parseData, hnone], hu.attrs, hu.createTime, ?_, m', hu.metadata,
      rfl⟩
    have hlen : o.dataLen = d.datalen := hu.dataLen.trans hd.2.symm
    rw [DataObject.payloadBytes, payloadBytes, DataObject.dataIsVerifiable, hu.dataState, hh, hlen,
      hd.2]
    cases d.filename <;> simp

end LibDataObject
end Haggle
