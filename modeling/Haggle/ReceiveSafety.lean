import Haggle.Transfer

/-!
# What a receiver has put

An invariant of the receiver in a transfer of one object: how much of the header and the payload it
has put, in each of its phases, when the stream brings it the header and then the payload.
-/

namespace Haggle

namespace DataObject

variable {pf : Platform} {fs : FileSystem} {o : DataObject}

/-- Whatever is put into the header: more is needed, parsing fails, or a prefix was parsed. -/
theorem putHeader_cases (pf : Platform) (fs : FileSystem) (o : DataObject) (pre data : Bytes) :
    putHeader pf fs o pre data = .more (pre ++ data) ∨
      (∃ o', putHeader pf fs o pre data = .failed o') ∨
      ∃ d rest parsed, data = d ++ rest ∧ endsHeader (pre ++ d) = true ∧
        completeHeader pf fs o (pre ++ d) = (parsed, true) ∧
          putHeader pf fs o pre data = .done parsed rest := by
  induction data generalizing pre with
  | nil => exact Or.inl (by rw [putHeader, List.append_nil])
  | cons b data ih =>
    rw [putHeader]
    by_cases hend : endsHeader (pre ++ [b]) = true
    · rw [if_pos hend]
      cases hc : completeHeader pf fs o (pre ++ [b]) with
      | mk parsed ok =>
        cases ok with
        | false => exact Or.inr (Or.inl ⟨parsed, rfl⟩)
        | true => exact Or.inr (Or.inr ⟨[b], data, parsed, rfl, hend, hc, rfl⟩)
    · rw [if_neg hend]
      rcases ih (pre ++ [b]) with h | ⟨o', h⟩ | ⟨d, rest, parsed, rfl, hd, hc, h⟩
      · exact Or.inl (by rw [h, List.append_assoc, List.singleton_append])
      · exact Or.inr (Or.inl ⟨o', h⟩)
      · rw [List.append_assoc, List.singleton_append] at hd hc
        exact Or.inr (Or.inr ⟨b :: d, rest, parsed, rfl, hd, hc, h⟩)

theorem filepath_toMetadata (o : DataObject) : o.toMetadata.filepath = o.filepath := by
  unfold toMetadata
  split <;> rfl

theorem isSome_metadata_toMetadata {o : DataObject} (ho : o.metadata.isSome) :
    o.toMetadata.metadata.isSome := by
  obtain ⟨m, hm⟩ := Option.isSome_iff_exists.mp ho
  rw [toMetadata, hm]
  rfl

/-- Of all beginnings that end like a header, the receiver can at most parse the header itself, and
this tells the length of the payload. -/
structure Announces (pf : Platform) (fs : FileSystem) (o : DataObject) (header payload : Bytes) :
    Prop where
  whole : ∀ p, p <+: header → endsHeader p = true → (completeHeader pf fs o p).2 = true → p = header
  length_eq : (completeHeader pf fs o header).2 = true →
    (completeHeader pf fs o header).1.dataLen = payload.length

theorem IsHeader.announces {header payload : Bytes} {parsed : DataObject}
    (h : o.IsHeader pf fs header parsed) (hlen : parsed.dataLen = payload.length) :
    o.Announces pf fs header payload where
  whole p hp hend _ := by
    by_contra hne
    have hlt : p.length < header.length :=
      lt_of_le_of_ne hp.length_le fun heq => hne (hp.eq_of_length heq)
    have hearly := h.first p.length hlt
    rw [← List.prefix_iff_eq_take.mp hp, hend] at hearly
    cases hearly
  length_eq _ := by rw [h.parses, hlen]

end DataObject

namespace Incoming

variable {pf : Platform} {fs : FileSystem} {o : DataObject} {header payload : Bytes}

/-- A call that is offered a piece of the header fails, collects it, or completes the header. -/
theorem putData_header (ha : o.Announces pf fs header payload) (ho : o.metadata = none)
    (remaining : ℕ) {pre data : Bytes} (hpre : pre ++ data <+: header) (hne : data ≠ []) :
    (putData pf fs ⟨o, some ⟨pre, none, 0⟩⟩ remaining data).ret = none ∨
      putData pf fs ⟨o, some ⟨pre, none, 0⟩⟩ remaining data =
        ⟨some data.length, metadataPending, ⟨o, some ⟨pre ++ data, none, 0⟩⟩, fs⟩ ∨
      (pre ++ data = header ∧ (o.completeHeader pf fs header).2 = true ∧
        putData pf fs ⟨o, some ⟨pre, none, 0⟩⟩ remaining data =
          putPayload fs (o.completeHeader pf fs header).1 ⟨[], none, 0⟩ data.length []) := by
  simp only [putData, if_neg hne, ho]
  by_cases hsize : maxMetadataSize ≤ pre.length + data.length
  · rw [if_pos hsize]
    exact Or.inl rfl
  rw [if_neg hsize]
  rcases o.putHeader_cases pf fs pre data with h | ⟨o', h⟩ | ⟨d, rest, parsed, rfl, hend, hc, h⟩
  · rw [h]
    exact Or.inr (Or.inl rfl)
  · rw [h]
    exact Or.inl rfl
  · have hd : pre ++ d = header := by
      refine ha.whole _ (List.IsPrefix.trans ?_ hpre) hend (by rw [hc])
      rw [← List.append_assoc]
      exact List.prefix_append _ _
    have hrest : rest = [] := by
      rw [← List.append_assoc, hd] at hpre
      have hlen := hpre.length_le
      rw [List.length_append] at hlen
      exact List.length_eq_zero_iff.mp (by omega)
    subst hrest
    rw [hd] at hc
    rw [h, hc, List.append_nil]
    exact Or.inr (Or.inr ⟨hd, rfl, rfl⟩)

/-- Behind the header nothing is there yet: the file is opened, if there is a payload. -/
theorem putPayload_nil (fs : FileSystem) (o : DataObject) (putLen : ℕ) :
    (putPayload fs o ⟨[], none, 0⟩ putLen []).ret = none ∨
      (o.dataLen = 0 ∧ putPayload fs o ⟨[], none, 0⟩ putLen [] =
        ⟨some putLen, 0, ⟨o, none⟩, fs⟩) ∨
      ∃ fs', o.dataLen ≠ 0 ∧ fs'.contents (o.createFilePath fs).filepath = some [] ∧
        putPayload fs o ⟨[], none, 0⟩ putLen [] =
          ⟨some putLen, o.dataLen, ⟨o.createFilePath fs,
            some ⟨[], some (o.createFilePath fs).filepath, o.dataLen⟩⟩, fs'⟩ := by
  rw [putPayload]
  dsimp only
  by_cases h0 : o.dataLen = 0
  · rw [if_pos h0]
    exact Or.inr (Or.inl ⟨h0, rfl⟩)
  · rw [if_neg h0]
    cases hopen : fs.openWrite (o.createFilePath fs).filepath with
    | none => exact Or.inl rfl
    | some fs' =>
      refine Or.inr (Or.inr ⟨fs', h0, ?_, rfl⟩)
      rw [FileSystem.openWrite_eq_some hopen, FileSystem.contents, AssocList.get_set_self]

end Incoming

namespace Receiver

/-- The header and the part `w` of the payload were put, and nothing is left in the buffer. -/
structure Put (id : Digest) (header payload w : Bytes) (r : Receiver) : Prop where
  dataLen_eq : r.buf.dataLen = 0
  isSome_metadata : r.inc.obj.metadata.isSome
  id_eq : r.inc.obj.id = id
  totBytesPut_eq : r.totBytesPut = header.length + w.length
  remaining_eq : r.remaining = payload.length - w.length
  contents_eq : payload ≠ [] → r.fs.contents r.inc.obj.filepath = some w
  info_eq : w.length < payload.length →
    r.inc.info = some ⟨[], some r.inc.obj.filepath, payload.length - w.length⟩

/-- The receiver rejects the object: its filter had the identifier. -/
def Rejects (pf : Platform) (id : Digest) (decision : Option (CtrlMsg × Bloomfilter)) : Prop :=
  ∃ bf, decision = some (⟨.reject, id⟩, bf) ∧ bf.has pf.sha1 id = true

/-- How far a reception is, after the bytes `got` were read and the messages `issued` were sent. -/
inductive Progress (pf : Platform) (fs : FileSystem) (o : DataObject) (id : Digest)
    (header payload : Bytes) :
    Receiver → Bytes → List CtrlMsg → Option (CtrlMsg × Bloomfilter) → Prop
  | collecting {r : Receiver} {n : ℕ} {got : Bytes} {d : Option (CtrlMsg × Bloomfilter)}
      (hp : r.phase = .reading n) (hans : r.answered = false) (hbuf : r.buf.dataLen = 0)
      (hinc : r.inc = ⟨o, some ⟨got, none, 0⟩⟩) (hfs : r.fs = fs)
      (htot : r.totBytesPut = got.length) :
      Progress pf fs o id header payload r got [] d
  | pending {r : Receiver} {n : ℕ} {d : Option (CtrlMsg × Bloomfilter)}
      (hp : r.phase = .reading n) (hbuf : r.buf.dataLen = 0) :
      Progress pf fs o id header payload r header [] d
  | answering {r : Receiver} {c : CtrlMsg} {d : Option (CtrlMsg × Bloomfilter)}
      (hp : r.phase = .answering c) (hans : r.answered = true) (hput : Put id header payload [] r)
      (hc : c = ⟨.accept, id⟩ ∨ c = ⟨.reject, id⟩ ∧ Rejects pf id d) :
      Progress pf fs o id header payload r header [] d
  | accepted {r : Receiver} {n : ℕ} {w : Bytes} {d : Option (CtrlMsg × Bloomfilter)}
      (hp : r.phase = .reading n) (hans : r.answered = true) (hput : Put id header payload w r)
      (hlt : w.length < payload.length) :
      Progress pf fs o id header payload r (header ++ w) [⟨.accept, id⟩] d
  | acking {r : Receiver} {d : Option (CtrlMsg × Bloomfilter)}
      (hp : r.phase = .acking ⟨.ack, id⟩) (hput : Put id header payload payload r) :
      Progress pf fs o id header payload r (header ++ payload) [⟨.accept, id⟩] d
  | done {r : Receiver} {e : ProtocolEvent} {got : Bytes} {issued : List CtrlMsg}
      {d : Option (CtrlMsg × Bloomfilter)} (hp : r.phase = .done e) :
      Progress pf fs o id header payload r got issued d

variable {pf : Platform} {fs : FileSystem} {o : DataObject} {header payload : Bytes}

theorem putBuffered_failed {e : ProtocolEvent} {r : Receiver}
    (h : (r.inc.putData pf r.fs r.remaining (r.buf.buffer.take r.buf.dataLen)).ret = none) :
    (putBuffered pf e r).phase = .done .error := by
  rw [putBuffered]
  dsimp only
  rw [h]

/-- All buffered bytes were put. -/
theorem putBuffered_eq {e : ProtocolEvent} {r : Receiver} {rem : ℕ} {inc : Incoming}
    {fs : FileSystem}
    (h : r.inc.putData pf r.fs r.remaining (r.buf.buffer.take r.buf.dataLen) =
      ⟨some r.buf.dataLen, rem, inc, fs⟩) :
    putBuffered pf e r =
      if needsAnswer r.answered rem && inc.obj.metadata.isSome then
        answer pf { r with
          inc := { inc with obj := inc.obj.toMetadata }
          fs := fs
          remaining := rem
          buf := r.buf.removeData r.buf.dataLen
          totBytesPut := r.totBytesPut + r.buf.dataLen }
      else loopEnd e { r with
          inc := inc
          fs := fs
          remaining := rem
          buf := r.buf.removeData r.buf.dataLen
          totBytesPut := r.totBytesPut + r.buf.dataLen } := by
  rw [putBuffered]
  dsimp only
  rw [h]

theorem dataLen_removeData_all (b : ReceiveBuffer) : (b.removeData b.dataLen).dataLen = 0 := by
  rw [ReceiveBuffer.dataLen_removeData, Nat.sub_self]

variable {id : Digest}

/-- An unanswered header: the answer is decided with the filter as it is. -/
theorem Put.progress_answer {r s : Receiver} {n : ℕ} {d : Option (CtrlMsg × Bloomfilter)}
    (hput : Put id header payload [] r) (hs : s.phase = .reading n) (hbloom : s.bloom = r.bloom) :
    Progress pf fs o id header payload (answer pf r) header []
      (Transfer.decisionAfter s (answer pf r) d) := by
  obtain ⟨hbuf, hmeta, hid, htot, hrem, hfile, hinfo⟩ := hput
  unfold answer
  dsimp only
  rw [hid]
  split_ifs with hhas
  · refine .answering rfl rfl ⟨hbuf, hmeta, hid, htot, hrem, hfile, hinfo⟩ (Or.inr ⟨rfl, ?_⟩)
    exact ⟨s.bloom, by rw [Transfer.decisionAfter, hs], by rw [hbloom, hhas]⟩
  · exact .answering rfl rfl ⟨hbuf, hmeta, hid, htot, hrem, hfile, hinfo⟩ (Or.inl rfl)

/-- The end of the loop in the payload. -/
theorem Put.progress_loopEnd {r : Receiver} {w : Bytes} {d : Option (CtrlMsg × Bloomfilter)}
    (hput : Put id header payload w r) (hans : r.answered = true) (hw : w <+: payload)
    (e : ProtocolEvent) :
    Progress pf fs o id header payload (loopEnd e r) (header ++ w) [⟨.accept, id⟩] d := by
  obtain ⟨hbuf, hmeta, hid, htot, hrem, hfile, hinfo⟩ := hput
  unfold loopEnd
  split_ifs with he hr
  · exact .done rfl
  · refine .accepted rfl hans ⟨hbuf, hmeta, hid, htot, hrem, hfile, hinfo⟩ ?_
    omega
  · have heq : w = payload := by
      have := hw.length_le
      exact hw.eq_of_length (by omega)
    subst heq
    exact .acking (by rw [hid]) ⟨hbuf, hmeta, hid, htot, hrem, hfile, hinfo⟩

/-- A completed header is answered, unless its length looks as if it were still pending. -/
theorem progress_completed {r s : Receiver} {n : ℕ} {inc : Incoming} {fs' : FileSystem}
    {d : Option (CtrlMsg × Bloomfilter)} (hs : s.phase = .reading n) (hbloom : s.bloom = r.bloom)
    (hans : r.answered = false) (htot : r.totBytesPut + r.buf.dataLen = header.length)
    (hdata : r.inc.putData pf r.fs r.remaining (r.buf.buffer.take r.buf.dataLen) =
      ⟨some r.buf.dataLen, payload.length, inc, fs'⟩)
    (hmeta : inc.obj.metadata.isSome) (hid : inc.obj.id = id)
    (hfile : payload ≠ [] → fs'.contents inc.obj.filepath = some [])
    (hinfo : payload ≠ [] → inc.info = some ⟨[], some inc.obj.filepath, payload.length⟩) :
    Progress pf fs o id header payload (putBuffered pf .success r) header []
      (Transfer.decisionAfter s (putBuffered pf .success r) d) := by
  have hpath : inc.obj.toMetadata.filepath = inc.obj.filepath := DataObject.filepath_toMetadata _
  rw [putBuffered_eq hdata]
  by_cases hcond : (needsAnswer r.answered payload.length && inc.obj.metadata.isSome) = true
  · rw [if_pos hcond]
    refine Put.progress_answer ⟨dataLen_removeData_all _, ?_, ?_, htot, rfl, ?_, ?_⟩ hs hbloom
    · exact DataObject.isSome_metadata_toMetadata hmeta
    · exact (DataObject.id_toMetadata _).trans hid
    · intro hne
      dsimp only
      rw [hpath, hfile hne]
    · intro hlt
      dsimp only
      rw [hpath, hinfo (List.ne_nil_of_length_pos hlt)]
      rfl
  · -- the length of the payload is the marker, so the loop goes on
    rw [if_neg hcond]
    rw [hans, hmeta, needsAnswer] at hcond
    have hlen : payload.length = metadataPending := by simpa using hcond
    rw [loopEnd, if_neg (by simp), if_pos (by simp [hlen, metadataPending])]
    exact .pending rfl (dataLen_removeData_all _)

/-- Bytes of the header are read. -/
theorem progress_read_header (ha : o.Announces pf fs header payload) (ho : o.metadata = none)
    (hid : (o.completeHeader pf fs header).1.id = id) {r : Receiver} {n : ℕ} {got bytes : Bytes}
    {d : Option (CtrlMsg × Bloomfilter)} (hp : r.phase = .reading n) (hans : r.answered = false)
    (hbuf : r.buf.dataLen = 0) (hinc : r.inc = ⟨o, some ⟨got, none, 0⟩⟩) (hfs : r.fs = fs)
    (htot : r.totBytesPut = got.length) (hpre : got ++ bytes <+: header) (hne : bytes ≠ [])
    (hle : bytes.length ≤ r.buf.readLen) :
    Progress pf fs o id header payload (step pf r (.read (.data bytes))) (got ++ bytes) []
      (Transfer.decisionAfter r (step pf r (.read (.data bytes))) d) := by
  obtain ⟨hstep, htake, hlen⟩ : step pf r (.read (.data bytes)) = _ ∧ _ ∧ _ :=
    step_data hp hbuf hne hle
  rw [hstep]
  have hput := Incoming.putData_header (o := o) ha ho r.remaining hpre hne
  rcases hput with hnone | hmore | ⟨hdone, hok, hdata⟩
  · refine .done (putBuffered_failed ?_)
    dsimp only
    rw [htake, hinc, hfs, hnone]
  · rw [putBuffered_eq (by dsimp only; rw [htake, hlen, hinc, hfs]; exact hmore),
      if_neg (by simp [needsAnswer]), loopEnd, if_neg (by simp),
      if_pos (show metadataPending ≠ 0 by decide)]
    refine .collecting rfl hans (dataLen_removeData_all _) rfl rfl ?_
    dsimp only
    rw [htot, hlen, List.length_append]
  · have hparsed : (o.completeHeader pf fs header).1.metadata.isSome :=
      DataObject.isSome_metadata_completeHeader (Prod.ext rfl hok)
    have hdl := ha.length_eq hok
    rw [hdone]
    have htot' : r.totBytesPut + (r.buf.store bytes).dataLen = header.length := by
      rw [htot, hlen, ← hdone, List.length_append]
    rcases Incoming.putPayload_nil fs (o.completeHeader pf fs header).1 bytes.length with
      hnone | ⟨h0, hput⟩ | ⟨fs', h0, hfile, hput⟩
    · refine .done (putBuffered_failed ?_)
      dsimp only
      rw [htake, hinc, hfs, hdata, hnone]
    · have hnil : payload.length = 0 := hdl.symm.trans h0
      rw [← hnil] at hput
      refine progress_completed hp rfl hans htot'
        (by dsimp only; rw [htake, hlen, hinc, hfs, hdata]; exact hput) hparsed hid ?_ ?_
      · exact fun h => absurd (List.length_eq_zero_iff.mp hnil) h
      · exact fun h => absurd (List.length_eq_zero_iff.mp hnil) h
    · rw [hdl] at hput
      exact progress_completed hp rfl hans htot'
        (by dsimp only; rw [htake, hlen, hinc, hfs, hdata, hput]) hparsed hid
        (fun _ => hfile) (fun _ => rfl)

/-- Bytes of the payload are read. -/
theorem progress_read_payload {r : Receiver} {n : ℕ} {w bytes : Bytes}
    {d : Option (CtrlMsg × Bloomfilter)} (hp : r.phase = .reading n) (hans : r.answered = true)
    (hput : Put id header payload w r) (hlt : w.length < payload.length)
    (hpre : w ++ bytes <+: payload) (hne : bytes ≠ []) (hle : bytes.length ≤ r.buf.readLen) :
    Progress pf fs o id header payload (step pf r (.read (.data bytes))) (header ++ (w ++ bytes))
      [⟨.accept, id⟩] (Transfer.decisionAfter r (step pf r (.read (.data bytes))) d) := by
  obtain ⟨hbuf, hmeta, hid, htot, hrem, hfile, hinfo⟩ := hput
  obtain ⟨hstep, htake, hlen⟩ : step pf r (.read (.data bytes)) = _ ∧ _ ∧ _ :=
    step_data hp hbuf hne hle
  have hpay : payload ≠ [] := List.ne_nil_of_length_pos (by omega)
  have hroom : bytes.length ≤ payload.length - w.length := by
    have := hpre.length_le
    rw [List.length_append] at this
    omega
  have hinc : r.inc =
      ⟨r.inc.obj, some ⟨[], some r.inc.obj.filepath, payload.length - w.length⟩⟩ := by
    rw [← hinfo hlt]
  rw [hstep]
  have hwrite : (Incoming.putData pf r.fs _ _ _).ret = none ∨ _ :=
    Incoming.putData_writing hmeta r.remaining (hfile hpay) hne hroom
  rcases hwrite with hnone | ⟨fs', hfile', hdata⟩
  · refine .done (putBuffered_failed ?_)
    dsimp only
    rw [htake, hinc, hnone]
  · rw [putBuffered_eq (by dsimp only; rw [htake, hlen, hinc]; exact hdata)]
    rw [if_neg (by simp [needsAnswer, hans])]
    refine Put.progress_loopEnd ?_ (by exact hans) hpre _
    refine ⟨dataLen_removeData_all _, hmeta, hid, ?_, ?_, ?_, ?_⟩
    · dsimp only
      rw [htot, hlen, List.length_append, Nat.add_assoc]
    · dsimp only
      rw [List.length_append, Nat.sub_add_eq]
    · exact fun _ => hfile'
    · intro hlt'
      dsimp only
      rw [List.length_append] at hlt' ⊢
      rw [if_pos (by omega), Nat.sub_add_eq]

/-- Bytes are read: before the answer they belong to the header. -/
theorem Progress.read (ha : o.Announces pf fs header payload) (ho : o.metadata = none)
    (hid : (o.completeHeader pf fs header).1.id = id) {r : Receiver} {n : ℕ} {got bytes : Bytes}
    {issued : List CtrlMsg} {d : Option (CtrlMsg × Bloomfilter)}
    (h : Progress pf fs o id header payload r got issued d) (hp : r.phase = .reading n)
    (hne : bytes ≠ []) (hle : bytes.length ≤ r.buf.readLen)
    (hheader : issued = [] → got ++ bytes <+: header)
    (hall : got ++ bytes <+: header ++ payload) :
    Progress pf fs o id header payload (step pf r (.read (.data bytes))) (got ++ bytes) issued
      (Transfer.decisionAfter r (step pf r (.read (.data bytes))) d) := by
  cases h with
  | collecting hp hans hbuf hinc hfs htot =>
    exact progress_read_header ha ho hid hp hans hbuf hinc hfs htot (hheader rfl) hne hle
  | pending =>
    have hlen := (hheader rfl).length_le
    rw [List.length_append] at hlen
    exact absurd (List.length_eq_zero_iff.mp (by omega)) hne
  | answering hp' => simp [hp'] at hp
  | accepted hp hans hput hlt =>
    rw [List.append_assoc] at hall ⊢
    exact progress_read_payload hp hans hput hlt ((List.prefix_append_right_inj _).mp hall) hne hle
  | acking hp' => simp [hp'] at hp
  | done hp' => simp [hp'] at hp

theorem Progress.dataLen_eq {r : Receiver} {n : ℕ} {got : Bytes} {issued : List CtrlMsg}
    {d : Option (CtrlMsg × Bloomfilter)} (h : Progress pf fs o id header payload r got issued d)
    (hp : r.phase = .reading n) : r.buf.dataLen = 0 := by
  cases h with
  | collecting _ _ hbuf => exact hbuf
  | pending _ hbuf => exact hbuf
  | answering hp' => simp [hp'] at hp
  | accepted _ _ hput => exact hput.dataLen_eq
  | acking hp' => simp [hp'] at hp
  | done hp' => simp [hp'] at hp

theorem Put.of_eq {r s : Receiver} {w : Bytes} (h : Put id header payload w r)
    (hbuf : s.buf = r.buf) (hinc : s.inc = r.inc) (hfs : s.fs = r.fs)
    (hrem : s.remaining = r.remaining) (htot : s.totBytesPut = r.totBytesPut) :
    Put id header payload w s := by
  obtain ⟨h1, h2, h3, h4, h5, h6, h7⟩ := h
  rw [← hbuf] at h1
  rw [← hinc] at h2 h3 h6 h7
  rw [← htot] at h4
  rw [← hrem] at h5
  rw [← hfs] at h6
  exact ⟨h1, h2, h3, h4, h5, h6, h7⟩

/-- Waiting on changes nothing but the number of attempts. -/
theorem Progress.wait {r : Receiver} {n : ℕ} {got : Bytes} {issued : List CtrlMsg}
    {d : Option (CtrlMsg × Bloomfilter)} (h : Progress pf fs o id header payload r got issued d)
    (hp : r.phase = .reading n) (k : ℕ) :
    Progress pf fs o id header payload { r with phase := .reading k } got issued d := by
  cases h with
  | collecting _ hans hbuf hinc hfs htot => exact .collecting rfl hans hbuf hinc hfs htot
  | pending _ hbuf => exact .pending rfl hbuf
  | answering hp' => simp [hp'] at hp
  | accepted _ hans hput hlt =>
    exact .accepted rfl hans (hput.of_eq rfl rfl rfl rfl rfl) hlt
  | acking hp' => simp [hp'] at hp
  | done hp' => simp [hp'] at hp

/-- Other threads may change the filter at any time. -/
theorem Progress.of_filter {r : Receiver} {got : Bytes} {issued : List CtrlMsg}
    {d : Option (CtrlMsg × Bloomfilter)} (h : Progress pf fs o id header payload r got issued d)
    (bf : Bloomfilter) :
    Progress pf fs o id header payload { r with bloom := bf } got issued d := by
  cases h with
  | collecting hp hans hbuf hinc hfs htot => exact .collecting hp hans hbuf hinc hfs htot
  | pending hp hbuf => exact .pending hp hbuf
  | answering hp hans hput hc => exact .answering hp hans (hput.of_eq rfl rfl rfl rfl rfl) hc
  | accepted hp hans hput hlt => exact .accepted hp hans (hput.of_eq rfl rfl rfl rfl rfl) hlt
  | acking hp hput => exact .acking hp (hput.of_eq rfl rfl rfl rfl rfl)
  | done hp => exact .done hp

/-- A round that reads nothing. -/
theorem Progress.idle {r : Receiver} {n : ℕ} {got : Bytes} {issued : List CtrlMsg}
    {d : Option (CtrlMsg × Bloomfilter)} (h : Progress pf fs o id header payload r got issued d)
    (hp : r.phase = .reading n) {x : ReadResponse} (hx : ∀ bytes, x ≠ .data bytes) :
    Progress pf fs o id header payload (step pf r (.read x)) got issued
      (Transfer.decisionAfter r (step pf r (.read x)) d) := by
  have hcases : (∃ k, step pf r (.read x) = _) ∨ ∃ e, _ ∧ step pf r (.read x) = _ :=
    step_idle hp (h.dataLen_eq hp) hx
  rcases hcases with ⟨k, hstep⟩ | ⟨e, -, hstep⟩
  · rw [hstep, Transfer.decisionAfter, hp]
    exact h.wait hp k
  · rw [hstep]
    exact .done rfl

theorem Progress.of_answering {r : Receiver} {c : CtrlMsg} {got : Bytes} {issued : List CtrlMsg}
    {d : Option (CtrlMsg × Bloomfilter)} (h : Progress pf fs o id header payload r got issued d)
    (hp : r.phase = .answering c) :
    got = header ∧ issued = [] ∧ r.answered = true ∧ Put id header payload [] r ∧
      (c = ⟨.accept, id⟩ ∨ c = ⟨.reject, id⟩ ∧ Rejects pf id d) := by
  cases h with
  | answering hp' hans hput hc =>
    rw [hp] at hp'
    cases hp'
    exact ⟨rfl, rfl, hans, hput, hc⟩
  | collecting hp' => simp [hp'] at hp
  | pending hp' => simp [hp'] at hp
  | accepted hp' => simp [hp'] at hp
  | acking hp' => simp [hp'] at hp
  | done hp' => simp [hp'] at hp

theorem Progress.of_acking {r : Receiver} {c : CtrlMsg} {got : Bytes} {issued : List CtrlMsg}
    {d : Option (CtrlMsg × Bloomfilter)} (h : Progress pf fs o id header payload r got issued d)
    (hp : r.phase = .acking c) :
    c = ⟨.ack, id⟩ ∧ got = header ++ payload ∧ issued = [⟨.accept, id⟩] ∧
      Put id header payload payload r := by
  cases h with
  | acking hp' hput =>
    rw [hp] at hp'
    cases hp'
    exact ⟨rfl, rfl, rfl, hput⟩
  | collecting hp' => simp [hp'] at hp
  | pending hp' => simp [hp'] at hp
  | answering hp' => simp [hp'] at hp
  | accepted hp' => simp [hp'] at hp
  | done hp' => simp [hp'] at hp

/-- The answer is sent, or it fails to be. After an ACCEPT the payload is to come. -/
theorem Progress.answered {r : Receiver} {c : CtrlMsg} {got : Bytes} {issued : List CtrlMsg}
    {d : Option (CtrlMsg × Bloomfilter)} (h : Progress pf fs o id header payload r got issued d)
    (hp : r.phase = .answering c) {w : WriteResponse} :
    sendControlMessage w = .success →
      Progress pf fs o id header payload (step pf r (.write w)) got [c] d := by
  obtain ⟨rfl, -, hans, hput, hc⟩ := h.of_answering hp
  intro hsent
  unfold step
  rw [hp]
  dsimp only
  rw [hsent]
  rcases hc with rfl | ⟨rfl, -⟩
  · have hposted : Put id got payload []
        { r with posted := r.posted ++ [KernelEvent.dataObjectIncoming id] } :=
      hput.of_eq rfl rfl rfl rfl rfl
    have hend : Progress pf fs o id got payload
        (loopEnd .success { r with posted := r.posted ++ [KernelEvent.dataObjectIncoming id] })
        (got ++ [])
        [⟨.accept, id⟩] d := hposted.progress_loopEnd hans List.nil_prefix _
    rwa [List.append_nil] at hend
  · exact .done rfl

/-- An answer that could not be sent ends the reception. -/
theorem Progress.unanswered {r : Receiver} {c : CtrlMsg} (hp : r.phase = .answering c)
    {got : Bytes} {issued : List CtrlMsg} {d : Option (CtrlMsg × Bloomfilter)} {w : WriteResponse}
    (hfail : sendControlMessage w ≠ .success) :
    Progress pf fs o id header payload (step pf r (.write w)) got issued d := by
  unfold step
  rw [hp]
  dsimp only [afterAnswer]
  split
  · exact .done rfl
  · rw [loopEnd, if_pos hfail]
    exact .done rfl

end Receiver
end Haggle
