import Haggle.Retriever
import Haggle.TransferSafety

/-!
# Sending an object from one node to another

The sender of a transfer reads from the retriever of a data object: its header, and then its file.
If the identifier of the object survives the hop, both sides mean the same object by the answers.
-/

namespace Haggle

namespace Retriever

variable {r : Retriever}

/-- A call for the header only gives out the next bytes of it. -/
theorem retrieve_header (hr : r.Sound) {n : ℕ} (hn : 0 < n) :
    (r.retrieve ⟨n, true⟩).1 = some (r.headerLeft.take n) ∧ (r.retrieve ⟨n, true⟩).2.Sound ∧
      (r.retrieve ⟨n, true⟩).2.headerLeft = r.headerLeft.drop n ∧
      (r.retrieve ⟨n, true⟩).2.fileLeft = r.fileLeft := by
  have hlength := length_headerLeft hr
  simp only [retrieve, if_neg hn.ne', if_true]
  by_cases hin : r.headerBytesLeft ≠ 0 ∧ n ≤ r.headerBytesLeft
  · rw [if_pos hin]
    exact ⟨rfl, ⟨(Nat.sub_le _ _).trans hr.header, hr.file⟩, headerLeft_drop hr hin.2, rfl⟩
  · rw [if_neg hin]
    have hle : r.headerLeft.length ≤ n := by omega
    refine ⟨by rw [List.take_of_length_le hle], ⟨Nat.zero_le _, hr.file⟩, ?_, rfl⟩
    rw [List.drop_eq_nil_of_le hle]
    exact headerLeft_eq_nil rfl

/-- Once the header is out, a call gives out the next bytes of the file. -/
theorem retrieve_file (hr : r.Sound) (h0 : r.headerBytesLeft = 0) {n : ℕ} (hn : 0 < n) :
    (r.retrieve ⟨n, false⟩).1 = some (r.fileLeft.take n) ∧ (r.retrieve ⟨n, false⟩).2.Sound ∧
      (r.retrieve ⟨n, false⟩).2.headerBytesLeft = 0 ∧
      (r.retrieve ⟨n, false⟩).2.fileLeft = r.fileLeft.drop n := by
  have hsame : { r with headerBytesLeft := 0 } = r := by rw [← h0]
  have hread : r.retrieve ⟨n, false⟩ = r.readFile [] n := by
    simp [retrieve, hn.ne', h0, hsame, headerLeft_eq_nil h0]
  rw [hread]
  exact readFile_spec hr h0 [] hn

end Retriever

namespace Sender

variable {s : Sender} {r : Retriever}

/-- The next call of `retrieve`. -/
def call (s : Sender) : RetrieveCall := ⟨s.bufferSize, !s.hasSentHeader⟩

/-- The retriever holds what the sender has still to read. -/
structure Follows (s : Sender) (r : Retriever) : Prop where
  sound : r.Sound
  headerLeft : s.headerLeft = r.headerLeft
  payloadLeft : s.payloadLeft = r.fileLeft
  sent : s.hasSentHeader = true → r.headerBytesLeft = 0

/-- The sender writes what the retriever returns, and waits for an answer where this is nothing. -/
theorem Follows.retrieve (h : Follows s r) (hsize : 0 < s.bufferSize) :
    ∃ data, (r.retrieve s.call).1 = some data ∧ Follows s.retrieve (r.retrieve s.call).2 ∧
      s.retrieve.phase = if data ≠ [] then .writing data
        else if s.hasSentHeader = true then .awaitAck 0 else .awaitAnswer 0 := by
  have htake : ∀ {l : Bytes}, l ≠ [] → l.take s.bufferSize ≠ [] := fun hl hnil =>
    hl ((List.take_eq_nil_iff.mp hnil).resolve_left hsize.ne')
  unfold call Sender.retrieve
  cases hsent : s.hasSentHeader with
  | true =>
    obtain ⟨hret, hsound, h0, hleft⟩ := Retriever.retrieve_file h.sound (h.sent hsent) hsize
    rw [← h.payloadLeft] at hret hleft
    have hheader : s.headerLeft = (r.retrieve ⟨s.bufferSize, false⟩).2.headerLeft := by
      rw [h.headerLeft, Retriever.headerLeft_eq_nil (h.sent hsent), Retriever.headerLeft_eq_nil h0]
    refine ⟨_, hret, ?_⟩
    rw [if_pos rfl]
    by_cases hnil : s.payloadLeft = []
    · rw [hnil, List.drop_nil] at hleft
      rw [if_pos hnil, if_neg (by rw [hnil, List.take_nil]; simp), if_pos rfl]
      exact ⟨⟨hsound, hheader, hnil.trans hleft.symm, fun _ => h0⟩, rfl⟩
    · rw [if_neg hnil, if_pos (htake hnil)]
      exact ⟨⟨hsound, hheader, hleft.symm, fun _ => h0⟩, rfl⟩
  | false =>
    obtain ⟨hret, hsound, hleft, hfile⟩ := Retriever.retrieve_header h.sound hsize
    rw [← h.headerLeft] at hret hleft
    have hpayload := h.payloadLeft.trans hfile.symm
    refine ⟨_, hret, ?_⟩
    rw [if_neg Bool.false_ne_true]
    by_cases hnil : s.headerLeft = []
    · rw [hnil, List.drop_nil] at hleft
      have h0 := Retriever.length_headerLeft hsound
      rw [hleft, List.length_nil] at h0
      rw [if_pos hnil, if_neg (by rw [hnil, List.take_nil]; simp), if_neg Bool.false_ne_true]
      exact ⟨⟨hsound, hnil.trans hleft.symm, hpayload, fun _ => h0.symm⟩, rfl⟩
    · rw [if_neg hnil, if_pos (htake hnil)]
      exact ⟨⟨hsound, hleft.symm, hpayload, fun ht => absurd ht Bool.false_ne_true⟩, rfl⟩

theorem step_cases (s : Sender) (i : Response) :
    ∃ p n, s.step i = { s with phase := p, blockCount := n } ∨
      s.step i = retrieve { s with phase := p, blockCount := n } := by
  unfold step
  split
  · rename_i chunk w _
    unfold afterWrite
    split
    · split_ifs
      · exact ⟨_, _, .inr rfl⟩
      · exact ⟨_, _, .inl rfl⟩
    · split_ifs
      · exact ⟨_, _, .inr rfl⟩
      · exact ⟨_, _, .inl rfl⟩
    all_goals first | exact ⟨_, _, .inl rfl⟩ | (split_ifs <;> exact ⟨_, _, .inl rfl⟩)
  · split
    · exact ⟨_, _, .inl rfl⟩
    · exact ⟨_, _, .inl rfl⟩
    · unfold afterAnswer
      split_ifs
      · exact ⟨_, _, .inr rfl⟩
      all_goals exact ⟨_, _, .inl rfl⟩
  · split
    · exact ⟨_, _, .inl rfl⟩
    · exact ⟨_, _, .inl rfl⟩
    · unfold afterAck
      split_ifs <;> exact ⟨_, _, .inl rfl⟩
  · exact ⟨_, _, .inl rfl⟩

theorem bufferSize_retrieve (s : Sender) : s.retrieve.bufferSize = s.bufferSize := by
  unfold retrieve
  split_ifs <;> rfl

/-- In every run there are calls after which the retriever holds what the sender has still to
read. -/
theorem run_follows (hr : r.Sound) {n : ℕ} (hn : 0 < n) (is : List Response) :
    ∃ cs : List RetrieveCall, (∀ c ∈ cs, 0 < c.len) ∧
      Follows (Trace.run step (start r.headerLeft r.fileLeft n) is) (r.after cs) := by
  let Inv : Sender → Prop := fun t => 0 < t.bufferSize ∧
    ∃ cs : List RetrieveCall, (∀ c ∈ cs, 0 < c.len) ∧ Follows t (r.after cs)
  have hretrieve : ∀ t, Inv t → Inv t.retrieve := by
    rintro t ⟨hpos, cs, hcs, ht⟩
    obtain ⟨data, -, hnext, -⟩ := ht.retrieve hpos
    refine ⟨by rwa [bufferSize_retrieve], cs ++ [call t], ?_, ?_⟩
    · intro c hc
      rcases List.mem_append.mp hc with hc | hc
      · exact hcs c hc
      · rw [List.mem_singleton.mp hc]
        exact hpos
    · rw [Retriever.after_append]
      exact hnext
  have hstep : ∀ t i, Inv t → Inv (step t i) := by
    rintro t i ⟨hpos, cs, hcs, ht⟩
    obtain ⟨p, k, heq⟩ := t.step_cases i
    have hkept : Inv { t with phase := p, blockCount := k } :=
      ⟨hpos, cs, hcs, ht.sound, ht.headerLeft, ht.payloadLeft, ht.sent⟩
    rcases heq with heq | heq
    · exact heq ▸ hkept
    · exact heq ▸ hretrieve _ hkept
  have hstart : Inv (start r.headerLeft r.fileLeft n) :=
    hretrieve _ ⟨hn, [], List.forall_mem_nil _, hr, rfl, rfl, fun h => absurd h Bool.false_ne_true⟩
  exact (Trace.invariant hstep hstart is).2

end Sender

namespace Transfer

open DataObject

variable {pf pf' : Platform} {o : DataObject} {r : Retriever}

theorem length_payload {files : FileSystem}
    (hfile : o.dataLen ≤ ((files.contents o.filepath).getD []).length) :
    (Retriever.payload files o).length = o.dataLen := by
  rw [Retriever.payload, List.length_take, min_eq_left hfile]

/-- If an object survives the hop, both sides agree on it in every run: a sender that returns with
success has had all of it put by the receiver, payload is written only after this very object was
accepted, and a rejection means that the filter had the identifier that it has at the sender. -/
theorem run_agreed (hmade : Made pf o) (hsha : pf'.sha1 = pf.sha1)
    (hlib : LibXml.Faithful pf.lib pf'.lib (o.document pf)) (hsurvive : Survives pf pf' o)
    (hlength : ∀ m, o.metadata = some m → o.TellsLength m) {files : FileSystem}
    (hlocal : o.isForLocalApp = false)
    (hfile : o.dataLen ≤ ((files.contents o.filepath).getD []).length)
    (hr : Retriever.create pf files o = some r) (bufferSize : ℕ) (fs : FileSystem)
    (bloom : Bloomfilter) (storage : Bytes) (hash : Digest) {buf : ReceiveBuffer}
    (hbuf : buf.dataLen = 0) (actions : List Action) :
    (Retriever.payload files o).length = o.dataLen ∧
      Agreed pf' o.id (o.header pf) (Retriever.payload files o) (Trace.run (step pf')
        (start (Sender.start r.headerLeft r.fileLeft bufferSize)
          (Receiver.start pf' buf fs bloom storage hash.1)) actions) := by
  obtain ⟨-, hheader, hleft⟩ := Retriever.create_spec hlocal hfile hr
  obtain ⟨parsed, hh, hid, hlen⟩ :=
    isHeader_header hsha hmade.identified hlib hsurvive fs storage hash
  have hpayload := length_payload hfile
  have hann := hh.announces ((hlen hlength).trans hpayload.symm)
  have hsafe := run_safe (o.header pf) (Retriever.payload files o) storage hash.1 fs bloom buf hbuf
    bufferSize hann actions
  rw [hh.parses, hid] at hsafe
  rw [hheader, hleft]
  exact ⟨hpayload, hsafe⟩

end Transfer

namespace Sample

open DataObject

def fileRaw : Bytes :=
  lit "<?xml version=\"1.0\"?>\n<Haggle create_time=\"7.000000\" persistent=\"yes\">\n" ++
    lit "  <Data data_len=\"2\">\n    <FileName>f</FileName>\n  </Data>\n</Haggle>\n"

def fileTree : XmlNode :=
  .elem (lit "Haggle") [(lit "create_time", lit "7.000000"), (lit "persistent", lit "yes")]
    [.elem (lit "Data") [(lit "data_len", lit "2")] [.elem (lit "FileName") [] [.text (lit "f")]]]

def filePlatform : Platform := wirePlatform fileRaw fileTree

/-- A new object with a file of two bytes. -/
def fileDraft : Draft := { draft with filepath := lit "/s/f", filename := lit "f", dataLen := 2 }

def withFile : DataObject := create filePlatform fileDraft

theorem document_withFile : withFile.document filePlatform = fileTree := by
  rfl

theorem faithful_file : LibXml.Faithful filePlatform.lib filePlatform.lib fileTree :=
  faithful_wireLib fileTree (by simp only [fileRaw, lit_ofList]; decide +kernel)

theorem survives_withFile : Survives filePlatform filePlatform withFile where
  inside := by
    rw [document_withFile]
    exact List.cons_ne_nil _ _
  unmistakable := by
    rw [document_withFile]
    decide
  size := by decide +kernel
  order := by decide +kernel
  values := by decide +kernel
  tells _ hm := (coherent_history filePlatform fileDraft []).tells (by decide) hm
  file _ _ := by decide +kernel

theorem tellsLength_withFile {m : Metadata} : withFile.TellsLength m := by
  rw [TellsLength, if_pos (by decide)]
  decide

def fileRetriever : Retriever :=
  ⟨withFile.header filePlatform, some (lit "ab"), (withFile.header filePlatform).length, 2⟩

theorem create_withFile : Retriever.create filePlatform disk withFile = some fileRetriever := by
  decide +kernel

/-- Both sides at the start; the receiver has room for a thousand bytes and the filter `bloom`. -/
def sending (pf : Platform) (header payload : Bytes) (bloom : Bloomfilter) : Transfer :=
  .start (Sender.start header payload 1000)
    (Receiver.start pf ⟨List.replicate 1000 0, 0⟩ storage bloom (lit "/s") digest.1)

/-- The sender writes and reads all it can, and so does the receiver. -/
def exchange : List Action :=
  [.sender (.moved 999), .receiver (.moved 999), .receiver (.moved 23), .sender (.moved 23),
    .sender (.moved 0), .receiver (.moved 0), .sender (.moved 0), .receiver (.moved 5),
    .receiver (.moved 23), .sender (.moved 23)]

/-- A receiver that has got the object `two` once, with the identifier it has there. -/
def acquainted : Bloomfilter :=
  (Bloomfilter.new shape).add twoPlatform.sha1
    (completeHeader twoPlatform storage (new (lit "/s") digest.1) (two.header twoPlatform)).1.id

end Sample

namespace Transfer

/-- The file goes over the connection byte by byte, and then the sender is told that it arrived. -/
theorem run_agreed_sample : ∃ t, t = Trace.run (step Sample.filePlatform)
      (Sample.sending Sample.filePlatform (Sample.withFile.header Sample.filePlatform) (lit "ab")
        (Bloomfilter.new Sample.shape)) Sample.exchange ∧
    t.sender.phase = .done .success ∧ t.receiver.fs.contents (lit "/s/f") = some (lit "ab") ∧
    Agreed Sample.filePlatform Sample.withFile.id (Sample.withFile.header Sample.filePlatform)
      (lit "ab") t := by
  have hlib : LibXml.Faithful Sample.filePlatform.lib Sample.filePlatform.lib
      (Sample.withFile.document Sample.filePlatform) := by
    rw [Sample.document_withFile]
    exact Sample.faithful_file
  have hfile : Sample.withFile.dataLen ≤
      ((Sample.disk.contents Sample.withFile.filepath).getD []).length := by decide
  have hpayload : Retriever.payload Sample.disk Sample.withFile = lit "ab" := by decide
  obtain ⟨-, hheader, hleft⟩ := Retriever.create_spec rfl hfile Sample.create_withFile
  have hagreed := (@run_agreed Sample.filePlatform Sample.filePlatform Sample.withFile _
    (.create Sample.fileDraft) rfl hlib Sample.survives_withFile
    (fun _ _ => Sample.tellsLength_withFile) Sample.disk rfl hfile Sample.create_withFile 1000
    Sample.storage (Bloomfilter.new Sample.shape) (lit "/s") Sample.digest
    ⟨List.replicate 1000 0, 0⟩ rfl Sample.exchange).2
  rw [hheader, hleft, hpayload] at hagreed
  refine ⟨_, rfl, ?_⟩
  rw [← and_assoc]
  exact ⟨by decide +kernel, hagreed⟩

/-- The sender is told that the object is known, although the filter lacks the identifier that it
has at the sender. -/
theorem run_agreed_ne_sample : DataObject.Made Sample.twoPlatform Sample.two ∧
    LibXml.Faithful Sample.twoPlatform.lib Sample.twoPlatform.lib
      (Sample.two.document Sample.twoPlatform) ∧
    ∃ t, t = Trace.run (step Sample.twoPlatform) (Sample.sending Sample.twoPlatform
        (Sample.two.header Sample.twoPlatform) [] Sample.acquainted) Sample.exchange ∧
      t.sender.phase = .done .reject ∧
      t.decision.map (fun d => d.2.has Sample.twoPlatform.sha1 Sample.two.id) = some false ∧
      t.receiver.bloom.has Sample.twoPlatform.sha1 Sample.two.id = false := by
  refine ⟨DataObject.made_history _ _ _, Sample.document_two.symm ▸ Sample.faithful_two, _, rfl, ?_⟩
  decide +kernel

end Transfer
end Haggle
