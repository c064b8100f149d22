import Haggle.ReceivedFiles
import Haggle.StoragePaths

/-!
# Confinement to the storage directory

Which files an object opens for writing or removes when it is put together from the network and
destroyed. They lie in the storage directory unless the header names other files: a `FilePath`
without a payload is removed in the end, and a `FileName` may lead elsewhere.
-/

namespace Haggle

/-- Every file that is opened or removed is new and directly inside the storage directory, and the
paths fit into their buffer. -/
structure Confined (pf : Platform) (fs : FileSystem) (storage hash : Bytes) (chunks : List Bytes) :
    Prop where
  ops : ∀ op ∈ (Incoming.life pf fs storage hash chunks).log.drop fs.log.length,
    Inside storage op.path ∧ ¬fs.Taken op.path
  paths : ∀ x, x = (Incoming.feed pf fs
      (Incoming.createForPutting storage hash pf.plainChar) chunks).1 →
    x.obj.metadata.isSome → x.obj.dataLen ≠ 0 →
    ∀ path, x.obj.Composed fs path → path.length < DataObject.pathLength

section Confined

variable {pf : Platform} {fs fs' : FileSystem} {storage hash : Bytes} {chunks : List Bytes}
variable {x : Incoming} {parsed : DataObject}

/-- The destructor removes the file of the object. -/
theorem log_life
    (hfeed : Incoming.feed pf fs (Incoming.createForPutting storage hash pf.plainChar) chunks =
      (x, fs'))
    (hstored : x.obj.stored = false) :
    (Incoming.life pf fs storage hash chunks).log =
      if x.obj.filepath ≠ [] then (fs'.remove x.obj.filepath).log else fs'.log := by
  rw [Incoming.life, hfeed, DataObject.destroy, hstored, if_neg Bool.false_ne_true,
    DataObject.deleteData]
  dsimp only
  split_ifs <;> rfl

/-- Nothing is opened or removed. -/
theorem ops_of_log_eq (h : (Incoming.life pf fs storage hash chunks).log = fs.log) :
    ∀ op ∈ (Incoming.life pf fs storage hash chunks).log.drop fs.log.length,
      Inside storage op.path ∧ ¬fs.Taken op.path := by
  rw [h, List.drop_length]
  exact fun _ h => absurd h List.not_mem_nil

/-- The object has no payload: what its `FilePath` names is removed. -/
theorem confined_iff_of_empty
    (hfeed : Incoming.feed pf fs (Incoming.createForPutting storage hash pf.plainChar) chunks =
      (⟨parsed, none⟩, fs)) (hstored : parsed.stored = false) (h0 : parsed.dataLen = 0) :
    Confined pf fs storage hash chunks ↔ parsed.Harmless fs := by
  have hlog := log_life hfeed hstored
  rw [DataObject.Harmless, if_pos h0]
  constructor
  · intro hc
    by_contra hneg
    rw [not_or] at hneg
    obtain ⟨htaken, hremovable⟩ := DataObject.not_spared_iff.mp hneg.2
    rw [if_pos hneg.1, FileSystem.log_remove, if_pos ⟨htaken, hremovable⟩] at hlog
    have hop := hc.ops (.remove parsed.filepath) (by rw [hlog, List.drop_left]; simp)
    exact hop.2 htaken
  · intro h
    refine ⟨ops_of_log_eq ?_, ?_⟩
    · rw [hlog]
      dsimp only
      split_ifs with hne
      · exact (h.resolve_left hne).log_remove
      · rfl
    · rintro _ rfl _ hne
      rw [hfeed] at hne
      exact absurd h0 hne

/-- The file of the object could not be opened. -/
theorem confined_iff_of_refused
    (hfeed : Incoming.feed pf fs (Incoming.createForPutting storage hash pf.plainChar) chunks =
      (⟨parsed.createFilePath fs, none⟩, fs)) (hmeta : parsed.metadata.isSome)
    (hstored : parsed.stored = false) (h0 : parsed.dataLen ≠ 0)
    (hacc : fs.accepts (parsed.createFilePath fs).filepath 0 = false) :
    Confined pf fs storage hash chunks ↔ parsed.Harmless fs := by
  have hlog := log_life hfeed hstored
  rw [if_pos (parsed.filepath_ne_nil fs)] at hlog
  rw [parsed.harmless_iff fs h0, DataObject.Choosable, hacc, if_neg Bool.false_ne_true]
  constructor
  · refine fun hc => ⟨hc.paths _ (by rw [hfeed]) hmeta h0, ?_⟩
    by_contra hneg
    obtain ⟨htaken, hremovable⟩ := DataObject.not_spared_iff.mp hneg
    rw [FileSystem.log_remove, if_pos ⟨htaken, hremovable⟩] at hlog
    have hop := hc.ops (.remove (parsed.createFilePath fs).filepath)
      (by rw [hlog, List.drop_left]; simp)
    exact hop.2 htaken
  · rintro ⟨hpaths, hspared⟩
    refine ⟨ops_of_log_eq (hlog.trans hspared.log_remove), ?_⟩
    rintro _ rfl _ _
    rw [hfeed]
    exact hpaths

/-- The file of the object was opened; in the end it is removed. -/
theorem confined_iff_of_opened {info : Option PutInfo}
    (hfeed : Incoming.feed pf fs (Incoming.createForPutting storage hash pf.plainChar) chunks =
      (⟨parsed.createFilePath fs, info⟩, fs')) (hmeta : parsed.metadata.isSome)
    (hst : parsed.storagepath = storage) (hstored : parsed.stored = false)
    (h0 : parsed.dataLen ≠ 0) (hacc : fs.accepts (parsed.createFilePath fs).filepath 0 = true)
    (hopen : fs'.log = fs.log ++ [FileOp.openWrite (parsed.createFilePath fs).filepath]) :
    Confined pf fs storage hash chunks ↔ parsed.Harmless fs := by
  obtain ⟨rest, hlog, hrest⟩ : ∃ rest, (Incoming.life pf fs storage hash chunks).log =
      fs.log ++ FileOp.openWrite (parsed.createFilePath fs).filepath :: rest ∧
        ∀ op ∈ rest, op = FileOp.remove (parsed.createFilePath fs).filepath := by
    rw [log_life hfeed hstored, if_pos (parsed.filepath_ne_nil fs), FileSystem.log_remove, hopen]
    split_ifs
    · exact ⟨[.remove _], by rw [List.append_assoc]; rfl, fun _ h => List.mem_singleton.mp h⟩
    · exact ⟨[], rfl, fun _ h => absurd h List.not_mem_nil⟩
  rw [parsed.harmless_iff fs h0, hst, DataObject.Choosable, if_pos hacc]
  constructor
  · intro hc
    have hop := hc.ops (.openWrite (parsed.createFilePath fs).filepath)
      (by rw [hlog, List.drop_left]; exact List.mem_cons_self)
    exact ⟨hc.paths _ (by rw [hfeed]) hmeta h0, hop⟩
  · rintro ⟨hpaths, hnew⟩
    refine ⟨?_, ?_⟩
    · rw [hlog, List.drop_left]
      intro op hop
      rcases List.mem_cons.mp hop with rfl | hop
      · exact hnew
      · rw [hrest op hop]
        exact hnew
    · rintro _ rfl _ _
      rw [hfeed]
      exact hpaths

end Confined

/-- An object is confined to its storage directory exactly when the header that it was parsed from
is harmless. -/
theorem confined_iff (pf : Platform) (fs : FileSystem) (storage hash : Bytes)
    (chunks : List Bytes) :
    Confined pf fs storage hash chunks ↔
      ∀ parsed, (DataObject.new storage hash pf.plainChar).firstParsed pf fs [] chunks =
        some parsed → parsed.Harmless fs := by
  have hblank : (DataObject.new storage hash pf.plainChar).Blank storage := ⟨rfl, rfl, rfl, rfl⟩
  rcases hfeed : Incoming.feed pf fs (Incoming.createForPutting storage hash pf.plainChar)
    chunks with ⟨x, fs'⟩
  have hspec : (_ ∧ (Incoming.feed pf fs (Incoming.createForPutting storage hash pf.plainChar)
      chunks).1.obj.Blank storage ∧ _) ∨ _ := Incoming.feed_spec hblank [] chunks
  rw [show Incoming.feed pf fs ⟨DataObject.new storage hash pf.plainChar, some ⟨[], none, 0⟩⟩
    chunks = (x, fs') from hfeed, hfeed] at hspec
  rcases hspec with ⟨hnone, hx, rfl⟩ | ⟨parsed, hsome, hmeta, hst, hstored, hfed⟩
  · -- no header was parsed
    refine iff_of_true ⟨ops_of_log_eq ?_, ?_⟩ (fun parsed h => ?_)
    · rw [log_life hfeed hx.stored, if_neg (not_not.mpr hx.filepath)]
    · rintro _ rfl hsome
      rw [hfeed, hx.metadata] at hsome
      cases hsome
    · rw [hnone] at h
      cases h
  · have hiff : (∀ p, (DataObject.new storage hash pf.plainChar).firstParsed pf fs [] chunks =
        some p → p.Harmless fs) ↔ parsed.Harmless fs := by
      rw [hsome]
      exact ⟨fun h => h parsed rfl, fun h p hp => Option.some.inj hp ▸ h⟩
    rw [hiff]
    replace hfed : Incoming.Fed fs parsed x fs' := hfed
    cases hfed with
    | empty h0 => exact confined_iff_of_empty hfeed hstored h0
    | refused h0 hacc => exact confined_iff_of_refused hfeed hmeta hstored h0 hacc
    | opened h0 hacc _ hlog => exact confined_iff_of_opened hfeed hmeta hst hstored h0 hacc hlog

namespace Sample

/-- A header that names a file and announces no payload. -/
def pathHeader : Bytes :=
  lit "<Haggle><Data><FilePath>/etc/passwd</FilePath></Data></Haggle>"

def pathPlatform : Platform :=
  { platform 0 with
    lib := { lib 0 with
      parse := fun raw => if raw = pathHeader then
        some (.elem (lit "Haggle") [] [.elem (lit "Data") []
          [.elem (lit "FilePath") [] [.text (lit "/etc/passwd")]]]) else none } }

def passwd : FileSystem where
  files := [(lit "/etc/passwd", lit "root")]
  readable _ := true
  removable _ := true
  accepts _ _ := true
  log := []

end Sample

/-- The file that the header names is removed with the object. -/
theorem not_confined_sample :
    ¬Confined Sample.pathPlatform Sample.passwd (lit "/s") [] [Sample.pathHeader] := by
  intro h
  have hlog : (Incoming.life Sample.pathPlatform Sample.passwd (lit "/s") []
      [Sample.pathHeader]).log = [.remove (lit "/etc/passwd")] := by decide
  have hop := h.ops (.remove (lit "/etc/passwd")) (by rw [hlog]; exact List.mem_singleton_self _)
  exact hop.2 (by decide)

end Haggle
