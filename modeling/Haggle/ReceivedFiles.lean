import Haggle.FilePathSearch

/-!
# Files of received objects

An object is created, fed with bytes from the network in any pieces, and destroyed. Until a header
is parsed nothing happens to the file system; afterwards the object has no payload, or a file it
could not open, or one that it has opened.
-/

namespace Haggle

namespace Incoming

variable (pf : Platform)

/-- Calls of `putData`, whatever they return. -/
def feed (fs : FileSystem) (x : Incoming) (chunks : List Bytes) : Incoming × FileSystem :=
  chunks.foldl (fun s c => ((s.1.putData pf s.2 metadataPending c).inc,
    (s.1.putData pf s.2 metadataPending c).fs)) (x, fs)

/-- An object is created, fed and destroyed. -/
def life (fs : FileSystem) (storage hash : Bytes) (chunks : List Bytes) : FileSystem :=
  (feed pf fs (createForPutting storage hash pf.plainChar) chunks).1.obj.destroy
    (feed pf fs (createForPutting storage hash pf.plainChar) chunks).2

end Incoming

namespace DataObject

/-- The object that the first header of the chunks that can be parsed is parsed into. -/
def firstParsed (pf : Platform) (fs : FileSystem) : DataObject → Bytes → List Bytes →
    Option DataObject
  | _, _, [] => none
  | o, header, c :: chunks =>
    if c = [] ∨ maxMetadataSize ≤ header.length + c.length then firstParsed pf fs o header chunks
    else
      match putHeader pf fs o header c with
      | .more header => firstParsed pf fs o header chunks
      | .failed o => firstParsed pf fs o [] chunks
      | .done parsed _ => some parsed

variable {pf : Platform} {fs : FileSystem} {o : DataObject}

/-- An object that has not got its metadata yet. -/
structure Blank (storage : Bytes) (o : DataObject) : Prop where
  metadata : o.metadata = none
  filepath : o.filepath = []
  storagepath : o.storagepath = storage
  stored : o.stored = false

theorem stable_storage (storage : Bytes) :
    Stable (fun o => o.storagepath = storage ∧ o.stored = false) := by
  constructor <;> intros <;> assumption

theorem filepath_parseSignature (m : Metadata) (o : DataObject) :
    (parseSignature m o).1.filepath = o.filepath := by
  unfold parseSignature
  split_ifs
  · rfl
  · split
    · rfl
    · dsimp only
      split <;> rfl

theorem filepath_parseHead (pf : Platform) (m : Metadata) (o : DataObject) :
    (parseKind m (parseCreateTime pf m (parsePersistent m o))).filepath = o.filepath := by
  have hpers : (parsePersistent m o).filepath = o.filepath := by
    unfold parsePersistent
    split
    · rfl
    · split_ifs <;> rfl
  rw [parseKind, ← hpers]
  unfold parseCreateTime
  split <;> rfl

theorem filepath_parseMetadata_failed {fromNetwork : Bool} {o' : DataObject}
    (h : parseMetadata pf fs o fromNetwork = (o', false)) : o'.filepath = o.filepath := by
  unfold parseMetadata at h
  split at h
  · simp only [Prod.mk.injEq, and_true] at h
    rw [h]
  · rename_i m _
    have hsig := (filepath_parseSignature m _).trans (filepath_parseHead pf m o)
    split at h
    · rename_i heq
      rw [heq] at hsig
      simp only [Prod.mk.injEq, and_true] at h
      rw [← h]
      exact hsig
    · split at h <;> simp at h

theorem Blank.completeHeader_failed {storage header : Bytes} {o' : DataObject}
    (ho : o.Blank storage) (h : completeHeader pf fs o header = (o', false)) :
    o'.Blank storage := by
  unfold completeHeader at h
  split at h
  · simp only [Prod.mk.injEq, and_true] at h
    exact h ▸ ho
  · rename_i m _
    split_ifs at h
    · simp only [Prod.mk.injEq, and_true] at h
      exact h ▸ ho
    · have hst := (stable_storage storage).parseMetadata pf fs true
        (o := { o with metadata := some m }) ⟨ho.storagepath, ho.stored⟩
      split at h
      · rename_i heq
        rw [heq] at hst
        simp only [Prod.mk.injEq, and_true] at h
        rw [← h]
        exact ⟨rfl, (filepath_parseMetadata_failed heq).trans ho.filepath, hst.1, hst.2⟩
      · simp at h

theorem Blank.completeHeader_done {storage header : Bytes} {parsed : DataObject}
    (ho : o.Blank storage) (h : completeHeader pf fs o header = (parsed, true)) :
    parsed.storagepath = storage ∧ parsed.stored = false := by
  unfold completeHeader at h
  split at h
  · simp at h
  · rename_i m _
    split_ifs at h
    · simp at h
    · have hst := (stable_storage storage).parseMetadata pf fs true
        (o := { o with metadata := some m }) ⟨ho.storagepath, ho.stored⟩
      split at h
      · simp at h
      · rename_i heq
        rw [heq] at hst
        simp only [Prod.mk.injEq, and_true] at h
        exact h ▸ hst

theorem Blank.putHeader {storage : Bytes} (ho : o.Blank storage) (header data : Bytes) :
    (∃ header', putHeader pf fs o header data = .more header') ∨
      (∃ o', o'.Blank storage ∧ putHeader pf fs o header data = .failed o') ∨
      ∃ parsed rest, parsed.metadata.isSome ∧ parsed.storagepath = storage ∧
        parsed.stored = false ∧ putHeader pf fs o header data = .done parsed rest := by
  induction data generalizing header with
  | nil => exact Or.inl ⟨header, rfl⟩
  | cons b data ih =>
    rw [DataObject.putHeader]
    split_ifs
    · cases hc : completeHeader pf fs o (header ++ [b]) with
      | mk o' ok =>
        cases ok with
        | false => exact Or.inr (Or.inl ⟨o', ho.completeHeader_failed hc, rfl⟩)
        | true =>
          obtain ⟨hst, hstored⟩ := ho.completeHeader_done hc
          exact Or.inr (Or.inr ⟨o', data, isSome_metadata_completeHeader hc, hst, hstored, rfl⟩)
    · exact ih _

end DataObject

namespace Incoming

variable {pf : Platform} {fs : FileSystem}

/-- An object after its header was parsed: there is no payload, its file could not be opened, or it
is open or was closed again. -/
inductive Fed (fs : FileSystem) (parsed : DataObject) : Incoming → FileSystem → Prop
  | empty (h0 : parsed.dataLen = 0) : Fed fs parsed ⟨parsed, none⟩ fs
  | refused (h0 : parsed.dataLen ≠ 0)
      (hacc : fs.accepts (parsed.createFilePath fs).filepath 0 = false) :
      Fed fs parsed ⟨parsed.createFilePath fs, none⟩ fs
  | opened {info : Option PutInfo} {fs' : FileSystem} (h0 : parsed.dataLen ≠ 0)
      (hacc : fs.accepts (parsed.createFilePath fs).filepath 0 = true)
      (hinfo : ∀ i ∈ info, i.fp = some (parsed.createFilePath fs).filepath)
      (hlog : fs'.log = fs.log ++ [.openWrite (parsed.createFilePath fs).filepath]) :
      Fed fs parsed ⟨parsed.createFilePath fs, info⟩ fs'

theorem write_log {fs fs' : FileSystem} {path data : Bytes} (h : fs.write path data = some fs') :
    fs'.log = fs.log := by
  rw [FileSystem.write_eq_some h]

/-- Writing to the open file. -/
theorem putFile_fed {parsed : DataObject} {fs' : FileSystem} {info : PutInfo} {path : Bytes}
    (h0 : parsed.dataLen ≠ 0) (hpath : path = (parsed.createFilePath fs).filepath)
    (hacc : fs.accepts path 0 = true) (hfp : info.fp = some path)
    (hlog : fs'.log = fs.log ++ [FileOp.openWrite path])
    (remaining putLen : ℕ) (data : Bytes) :
    Fed fs parsed
      (putFile fs' (parsed.createFilePath fs) info path remaining putLen data).inc
      (putFile fs' (parsed.createFilePath fs) info path remaining putLen data).fs := by
  subst hpath
  have hsome : ∀ i ∈ some info, i.fp = some (parsed.createFilePath fs).filepath := by
    rintro i ⟨⟩
    exact hfp
  unfold putFile
  split_ifs
  · exact .opened h0 hacc hsome hlog
  · split
    · exact .opened h0 hacc (by simp) hlog
    · rename_i hw
      refine .opened h0 hacc ?_ ((write_log hw).trans hlog)
      rintro i ⟨⟩
      exact hfp
  · split
    · exact .opened h0 hacc (by simp) hlog
    · rename_i hw
      exact .opened h0 hacc (by simp) ((write_log hw).trans hlog)
  · exact .opened h0 hacc hsome hlog

/-- The call that completes the header. -/
theorem putPayload_fed (parsed : DataObject) (header : Bytes) (left putLen : ℕ) (data : Bytes) :
    Fed fs parsed (putPayload fs parsed ⟨header, none, left⟩ putLen data).inc
      (putPayload fs parsed ⟨header, none, left⟩ putLen data).fs := by
  rw [putPayload]
  dsimp only
  split_ifs with h0
  · exact .empty h0
  · cases hopen : fs.openWrite (parsed.createFilePath fs).filepath with
    | none =>
      refine .refused h0 ?_
      unfold FileSystem.openWrite at hopen
      split_ifs at hopen with hacc
      simpa using hacc
    | some fs' =>
      have hacc : fs.accepts (parsed.createFilePath fs).filepath 0 = true := by
        unfold FileSystem.openWrite at hopen
        split_ifs at hopen with hacc
        exact hacc
      have hfs' := FileSystem.openWrite_eq_some hopen
      exact putFile_fed h0 rfl hacc rfl (by rw [hfs']) _ _ _

/-- Any later call. -/
theorem Fed.putData {parsed : DataObject} (hmeta : parsed.metadata.isSome) {x : Incoming}
    {fs' : FileSystem} (h : Fed fs parsed x fs') (remaining : ℕ) (data : Bytes) :
    Fed fs parsed (x.putData pf fs' remaining data).inc (x.putData pf fs' remaining data).fs := by
  unfold Incoming.putData
  split_ifs
  · exact h
  · cases h with
    | empty h0 => exact .empty h0
    | refused h0 hacc => exact .refused h0 hacc
    | @opened info _ h0 hacc hinfo hlog =>
      cases info with
      | none => exact .opened h0 hacc hinfo hlog
      | some i =>
        obtain ⟨m, hm⟩ := Option.isSome_iff_exists.mp hmeta
        have hm' : (parsed.createFilePath fs).metadata = some m := hm
        have hfp := hinfo i rfl
        dsimp only
        rw [hm']
        dsimp only [putPayload]
        rw [hfp]
        exact putFile_fed h0 rfl hacc hfp hlog _ _ _

theorem feed_cons (x : Incoming) (c : Bytes) (chunks : List Bytes) :
    feed pf fs x (c :: chunks) = feed pf (x.putData pf fs metadataPending c).fs
      (x.putData pf fs metadataPending c).inc chunks := rfl

theorem Fed.feed {parsed : DataObject} (hmeta : parsed.metadata.isSome) {x : Incoming}
    {fs' : FileSystem} (h : Fed fs parsed x fs') (chunks : List Bytes) :
    Fed fs parsed (feed pf fs' x chunks).1 (feed pf fs' x chunks).2 := by
  induction chunks generalizing x fs' with
  | nil => exact h
  | cons c chunks ih => exact ih (h.putData hmeta _ c)

/-- What a sequence of calls leads to: a header was parsed, or nothing has happened yet. -/
theorem feed_spec {storage : Bytes} {o : DataObject} (ho : o.Blank storage) (header : Bytes)
    (chunks : List Bytes) :
    (o.firstParsed pf fs header chunks = none ∧
        (feed pf fs ⟨o, some ⟨header, none, 0⟩⟩ chunks).1.obj.Blank storage ∧
        (feed pf fs ⟨o, some ⟨header, none, 0⟩⟩ chunks).2 = fs) ∨
      ∃ parsed, o.firstParsed pf fs header chunks = some parsed ∧ parsed.metadata.isSome ∧
        parsed.storagepath = storage ∧ parsed.stored = false ∧
        Fed fs parsed (feed pf fs ⟨o, some ⟨header, none, 0⟩⟩ chunks).1
          (feed pf fs ⟨o, some ⟨header, none, 0⟩⟩ chunks).2 := by
  induction chunks generalizing o header with
  | nil => exact Or.inl ⟨rfl, ho, rfl⟩
  | cons c chunks ih =>
    rw [feed_cons, DataObject.firstParsed, putData]
    by_cases hc : c = []
    · rw [if_pos (Or.inl hc), if_pos hc]
      exact ih ho header
    · rw [if_neg hc]
      simp only [ho.metadata]
      by_cases hsize : maxMetadataSize ≤ header.length + c.length
      · rw [if_pos (Or.inr hsize), if_pos hsize]
        exact ih ho header
      · rw [if_neg (not_or.mpr ⟨hc, hsize⟩), if_neg hsize]
        rcases ho.putHeader header c with ⟨header', h⟩ | ⟨o', ho', h⟩ |
          ⟨parsed, rest, hmeta, hst, hstored, h⟩
        · rw [h]
          exact ih ho header'
        · rw [h]
          exact ih ho' []
        · rw [h]
          exact Or.inr ⟨parsed, rfl, hmeta, hst, hstored,
            (putPayload_fed parsed _ _ _ _).feed hmeta _⟩

end Incoming

end Haggle
