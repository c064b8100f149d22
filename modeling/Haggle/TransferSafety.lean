import Haggle.ReceiveSafety
import Haggle.SendSafety

/-!
# Safety of a transfer

Whatever is read and written in whatever portions and order: an acknowledged object was received
completely, no payload is sent without an ACCEPT, and a REJECT means that the receiver's filter had
the object.
-/

namespace Haggle.Transfer

variable {pf : Platform} {fs : FileSystem} {o : DataObject} {id : Digest} {header payload : Bytes}

/-- The messages of a receiver, the bytes of them that were sent, and what it knew by then. A
message that the connection takes only a part of is not repeated. -/
inductive Answers (pf : Platform) (id : Digest) (header payload : Bytes) (r : Receiver)
    (got : Bytes) (d : Option (CtrlMsg × Bloomfilter)) : List CtrlMsg → Bytes → Prop
  | none : Answers pf id header payload r got d [] []
  | accept {k : ℕ} (hk : 0 < k) : Answers pf id header payload r got d [⟨.accept, id⟩]
      ((CtrlMsg.mk .accept id).bytes.take k)
  | reject {k : ℕ} (hk : 0 < k) (hrej : Receiver.Rejects pf id d) :
      Answers pf id header payload r got d [⟨.reject, id⟩] ((CtrlMsg.mk .reject id).bytes.take k)
  | ack {k l : ℕ} (hk : 0 < k) (hgot : got = header ++ payload)
      (hput : r.Put id header payload payload) :
      Answers pf id header payload r got d [⟨.accept, id⟩, ⟨.ack, id⟩]
        ((CtrlMsg.mk .accept id).bytes.take k ++ (CtrlMsg.mk .ack id).bytes.take l)

structure Safe (pf : Platform) (fs : FileSystem) (o : DataObject) (id : Digest)
    (header payload : Bytes) (t : Transfer) : Prop where
  sender : t.sender.Progress header payload t.wrote t.ctrl
  receiver : t.receiver.Progress pf fs o id header payload t.got t.issued t.decision
  stream : t.got ++ t.down = t.wrote
  answers : Answers pf id header payload t.receiver t.got t.decision t.issued (t.ctrl ++ t.up)

theorem Safe.prefix_header {t : Transfer} (h : Safe pf fs o id header payload t)
    (hissued : t.issued = []) : t.wrote <+: header := by
  have hctrl : t.ctrl = [] := by
    have hans := h.answers
    rw [hissued] at hans
    generalize hup : t.ctrl ++ t.up = up at hans
    cases hans
    exact (List.append_eq_nil_iff.mp hup).1
  rcases h.sender.wrote with hw | ⟨hacc, -⟩
  · exact hw
  · rw [hctrl] at hacc
    exact absurd (show 0 = CtrlType.accept.code from hacc) (by decide)

theorem Safe.prefix_all {t : Transfer} (h : Safe pf fs o id header payload t) :
    t.wrote <+: header ++ payload := by
  rcases h.sender.wrote with hw | ⟨-, hw⟩
  · exact hw.trans (List.prefix_append _ _)
  · exact hw

theorem waitForEvent_eq_some {e e' : ProtocolEvent} (h : waitForEvent e = some e') :
    e' ≠ .success ∧ e' ≠ .reject := by
  unfold waitForEvent at h
  split_ifs at h with hne
  cases h
  exact not_or.mp hne

theorem readResponse_eq_some {bytes : Bytes} {m : Move} {x : ReadResponse} {limit : ℕ}
    (h : readResponse (bytes.take (amount limit m)) m = some x) :
    x ≠ .event .success ∧ x ≠ .event .reject ∧ bytes.take (amount limit m) = Sender.taken x ∧
      (∀ b, x = .data b → b ≠ [] ∧ b.length ≤ limit) := by
  cases m with
  | moved n =>
    rw [readResponse] at h
    split_ifs at h with hne
    cases h
    refine ⟨by simp, by simp, rfl, ?_⟩
    rintro b ⟨⟩
    refine ⟨hne, ?_⟩
    rw [List.length_take, amount]
    omega
  | event e =>
    obtain ⟨e', he, rfl⟩ := Option.map_eq_some_iff.mp h
    obtain ⟨hs, hr⟩ := waitForEvent_eq_some he
    exact ⟨by simpa using hs, by simpa using hr, rfl, by simp⟩
  | closed =>
    cases h
    exact ⟨by simp, by simp, rfl, by simp⟩
  | error e =>
    cases h
    exact ⟨by simp, by simp, rfl, by simp⟩

theorem writeResponse_eq_some {limit : ℕ} {m : Move} {w : WriteResponse}
    (h : writeResponse (amount limit m) m = some w) :
    (w = .sent (amount limit m) ∧ (0 < limit → 0 < amount limit m)) ∨
      (amount limit m = 0 ∧ (∀ k, w ≠ .sent k) ∧ w ≠ .event .success ∧ w ≠ .event .reject) := by
  cases m with
  | moved n =>
    cases h
    refine Or.inl ⟨rfl, fun hpos => ?_⟩
    rw [amount]
    omega
  | event e =>
    obtain ⟨e', he, rfl⟩ := Option.map_eq_some_iff.mp h
    obtain ⟨hs, hr⟩ := waitForEvent_eq_some he
    exact Or.inr ⟨rfl, by simp, by simpa using hs, by simpa using hr⟩
  | closed =>
    cases h
    exact Or.inr ⟨rfl, by simp, by simp, by simp⟩
  | error e =>
    cases h
    exact Or.inr ⟨rfl, by simp, by simp, by simp⟩

/-- The sender writes some of its piece, or cannot. -/
theorem Safe.senderWrite {t : Transfer} (h : Safe pf fs o id header payload t) {m : Move}
    {chunk : Bytes} (hp : t.sender.phase = .writing chunk) {w : WriteResponse}
    (hw : writeResponse (amount chunk.length m) m = some w) :
    Safe pf fs o id header payload { t with
      sender := t.sender.step (.write w)
      down := t.down ++ chunk.take (amount chunk.length m)
      wrote := t.wrote ++ chunk.take (amount chunk.length m) } := by
  refine ⟨?_, h.receiver, by rw [← List.append_assoc, h.stream], h.answers⟩
  dsimp only
  have hstep : t.sender.step (.write w) = t.sender.afterWrite chunk w := by
    unfold Sender.step
    rw [hp]
  rw [hstep]
  rcases writeResponse_eq_some hw with ⟨rfl, -⟩ | ⟨hzero, hsent, hs, hr⟩
  · exact h.sender.afterWrite_sent hp _
  · rw [hzero, List.take_zero, List.append_nil]
    rcases Sender.afterWrite_idle hsent hs hr with ⟨n, hidle⟩ | ⟨e, hes, her, hidle⟩
    · rw [hidle]
      exact h.sender.wait_write hp n
    · rw [hidle]
      exact h.sender.fail hes her

/-- The sender reads of the answer or of the acknowledgement. -/
theorem Safe.senderRead {t : Transfer} (h : Safe pf fs o id header payload t) {m : Move} {n : ℕ}
    (hp : t.sender.phase = .awaitAnswer n ∨ t.sender.phase = .awaitAck n) {r : ReadResponse}
    (hr : readResponse (t.up.take (amount ctrlMsgSize m)) m = some r) :
    Safe pf fs o id header payload { t with
      sender := t.sender.step (.read r)
      up := t.up.drop (amount ctrlMsgSize m)
      ctrl := t.ctrl ++ t.up.take (amount ctrlMsgSize m) } := by
  obtain ⟨hs, hreject, htaken, -⟩ := readResponse_eq_some hr
  refine ⟨?_, h.receiver, h.stream, ?_⟩
  · dsimp only
    rw [htaken]
    rcases hp with hp | hp
    · exact h.sender.read_answer hp hs hreject
    · exact h.sender.read_ack hp hs hreject
  · dsimp only
    rw [List.append_assoc, List.take_append_drop]
    exact h.answers

theorem Safe.senderStep {t : Transfer} (h : Safe pf fs o id header payload t) (m : Move) :
    Safe pf fs o id header payload (t.senderStep m) := by
  unfold Transfer.senderStep
  cases hp : t.sender.phase with
  | writing chunk =>
    dsimp only
    cases hw : writeResponse (amount chunk.length m) m with
    | none => exact h
    | some w => exact h.senderWrite hp hw
  | awaitAnswer n =>
    dsimp only
    cases hr : readResponse (t.up.take (amount ctrlMsgSize m)) m with
    | none => exact h
    | some r => exact h.senderRead (Or.inl hp) hr
  | awaitAck n =>
    dsimp only
    cases hr : readResponse (t.up.take (amount ctrlMsgSize m)) m with
    | none => exact h
    | some r => exact h.senderRead (Or.inr hp) hr
  | done e => exact h

theorem Answers.of_reading {r r' : Receiver} {n : ℕ} {got got' up : Bytes}
    {issued : List CtrlMsg} {d d' : Option (CtrlMsg × Bloomfilter)}
    (hr : r.Progress pf fs o id header payload got issued d) (hp : r.phase = .reading n)
    (h : Answers pf id header payload r got d issued up) :
    Answers pf id header payload r' got' d' issued up := by
  cases h with
  | none => exact .none
  | accept hk => exact .accept hk
  | reject =>
    cases hr with
    | done hp' => simp [hp'] at hp
  | ack =>
    cases hr with
    | done hp' => simp [hp'] at hp

/-- A round in which the receiver reads. -/
theorem Safe.receiverRead (ha : o.Announces pf fs header payload) (ho : o.metadata = none)
    (hid : (o.completeHeader pf fs header).1.id = id) {t : Transfer}
    (h : Safe pf fs o id header payload t) {n : ℕ} (hp : t.receiver.phase = .reading n) {m : Move}
    {x : ReadResponse}
    (hx : readResponse (t.down.take (amount t.receiver.buf.readLen m)) m = some x) :
    Safe pf fs o id header payload { t with
      receiver := t.receiver.step pf (.read x)
      down := t.down.drop (amount t.receiver.buf.readLen m)
      got := t.got ++ t.down.take (amount t.receiver.buf.readLen m)
      decision := decisionAfter t.receiver (t.receiver.step pf (.read x)) t.decision } := by
  obtain ⟨-, -, htaken, hdata⟩ := readResponse_eq_some hx
  refine ⟨h.sender, ?_, ?_, h.answers.of_reading h.receiver hp⟩
  · dsimp only
    rw [htaken]
    by_cases hb : ∃ bytes, x = .data bytes
    · obtain ⟨bytes, rfl⟩ := hb
      obtain ⟨hne, hle⟩ := hdata bytes rfl
      -- what is read is a piece of what was written
      have hpre : t.got ++ bytes <+: t.wrote := by
        have htake : t.down.take (amount t.receiver.buf.readLen m) = bytes := htaken
        rw [← h.stream, ← htake]
        exact (List.prefix_append_right_inj _).mpr (List.take_prefix _ _)
      exact h.receiver.read ha ho hid hp hne hle (fun hi => hpre.trans (h.prefix_header hi))
        (hpre.trans h.prefix_all)
    · have hnil : Sender.taken x = [] := by
        cases x <;> first | rfl | exact absurd ⟨_, rfl⟩ hb
      rw [hnil, List.append_nil]
      exact h.receiver.idle hp (fun bytes hx => hb ⟨bytes, hx⟩)
  · dsimp only
    rw [List.append_assoc, List.take_append_drop, h.stream]

/-- A round in which the receiver sends its answer. -/
theorem Safe.receiverAnswer {t : Transfer} (h : Safe pf fs o id header payload t) {c : CtrlMsg}
    (hp : t.receiver.phase = .answering c) (m : Move) :
    Safe pf fs o id header payload (writeCtrl pf t c m) := by
  unfold writeCtrl
  dsimp only
  cases hw : writeResponse (amount ctrlMsgSize m) m with
  | none => exact h
  | some w =>
    obtain ⟨hgot, hissued, -, -, hc⟩ := h.receiver.of_answering hp
    have hup : t.ctrl ++ t.up = [] := by
      have hans := h.answers
      rw [hissued] at hans
      generalize t.ctrl ++ t.up = up at hans ⊢
      cases hans
      rfl
    rcases writeResponse_eq_some hw with ⟨rfl, hpos⟩ | ⟨hzero, hsent, hs, -⟩
    · have hk : 0 < amount ctrlMsgSize m := hpos (by decide)
      refine ⟨h.sender, ?_, h.stream, ?_⟩
      · dsimp only
        rw [if_neg (by omega), hissued, List.nil_append]
        exact h.receiver.answered hp rfl
      · dsimp only
        rw [if_neg (by omega), hissued, ← List.append_assoc, hup, List.nil_append, List.nil_append]
        rcases hc with rfl | ⟨rfl, hrej⟩
        · exact .accept hk
        · exact .reject hk hrej
    · have hfail : sendControlMessage w ≠ .success := by
        cases w with
        | event e => exact fun h => hs (congrArg _ h)
        | sent k => exact absurd rfl (hsent k)
        | closed => simp [sendControlMessage]
        | error e => cases e <;> simp [sendControlMessage]
      refine ⟨h.sender, Receiver.Progress.unanswered hp hfail, h.stream, ?_⟩
      dsimp only
      rw [if_pos hzero, hzero, hissued, ← List.append_assoc, hup, List.take_zero]
      exact .none

/-- A round in which the receiver sends its acknowledgement. -/
theorem Safe.receiverAck {t : Transfer} (h : Safe pf fs o id header payload t) {c : CtrlMsg}
    (hp : t.receiver.phase = .acking c) (m : Move) :
    Safe pf fs o id header payload (writeCtrl pf t c m) := by
  unfold writeCtrl
  dsimp only
  cases hw : writeResponse (amount ctrlMsgSize m) m with
  | none => exact h
  | some w =>
    obtain ⟨rfl, hgot, hissued, hput⟩ := h.receiver.of_acking hp
    have hstep : t.receiver.step pf (.write w) = { t.receiver with
        phase := .done .success
        posted := t.receiver.posted ++ [KernelEvent.dataObjectReceived id] } := by
      unfold Receiver.step
      rw [hp]
    refine ⟨h.sender, .done (by dsimp only; rw [hstep]), h.stream, ?_⟩
    dsimp only
    have hans := h.answers
    rw [hissued] at hans
    rw [hissued, ← List.append_assoc]
    generalize t.ctrl ++ t.up = up at hans ⊢
    cases hans with
    | accept hk =>
      by_cases hzero : amount ctrlMsgSize m = 0
      · rw [if_pos hzero, hzero, List.take_zero, List.append_nil]
        exact .accept hk
      · rw [if_neg hzero]
        exact .ack hk hgot (by rw [hstep]; exact hput.of_eq rfl rfl rfl rfl rfl)

theorem Answers.of_put {r r' : Receiver} {got up : Bytes} {issued : List CtrlMsg}
    {d : Option (CtrlMsg × Bloomfilter)} (h : Answers pf id header payload r got d issued up)
    (hput : r.Put id header payload payload → r'.Put id header payload payload) :
    Answers pf id header payload r' got d issued up := by
  cases h with
  | none => exact .none
  | accept hk => exact .accept hk
  | reject hk hrej => exact .reject hk hrej
  | ack hk hgot h => exact .ack hk hgot (hput h)

/-- Every action keeps a transfer safe. -/
theorem Safe.step (ha : o.Announces pf fs header payload) (ho : o.metadata = none)
    (hid : (o.completeHeader pf fs header).1.id = id) {t : Transfer}
    (h : Safe pf fs o id header payload t) (a : Action) :
    Safe pf fs o id header payload (t.step pf a) := by
  cases a with
  | sender m => exact h.senderStep m
  | receiver m =>
    rw [Transfer.step, receiverStep]
    cases hp : t.receiver.phase with
    | reading n =>
      dsimp only
      cases hx : readResponse (t.down.take (amount t.receiver.buf.readLen m)) m with
      | none => exact h
      | some x => exact h.receiverRead ha ho hid hp hx
    | answering c => exact h.receiverAnswer hp m
    | acking c => exact h.receiverAck hp m
    | done e => exact h
  | senderFails e =>
    rw [Transfer.step]
    split
    · exact h
    · split_ifs with he
      · exact h
      · rw [not_or] at he
        exact ⟨h.sender.fail he.1 he.2, h.receiver, h.stream, h.answers⟩
  | receiverFails e =>
    rw [Transfer.step]
    split
    · exact h
    · split_ifs with he
      · exact h
      · exact ⟨h.sender, .done rfl, h.stream,
          h.answers.of_put fun hput => hput.of_eq rfl rfl rfl rfl rfl⟩
  | filter bf =>
    exact ⟨h.sender, h.receiver.of_filter bf, h.stream,
      h.answers.of_put fun hput => hput.of_eq rfl rfl rfl rfl rfl⟩

theorem Safe.start {storage hash : Bytes} {buf : ReceiveBuffer} (hbuf : buf.dataLen = 0)
    (bloom : Bloomfilter) (n : ℕ) :
    Safe pf fs (DataObject.new storage hash pf.plainChar) id header payload
      (start (Sender.start header payload n) (Receiver.start pf buf fs bloom storage hash)) where
  sender := Sender.progress_retrieve_header (s := ⟨.awaitAck 0, header, payload, false, 0, n⟩)
    rfl rfl rfl
  receiver := .collecting rfl rfl hbuf rfl rfl rfl
  stream := rfl
  answers := .none

theorem Answers.length_le {r : Receiver} {got up : Bytes} {issued : List CtrlMsg}
    {d : Option (CtrlMsg × Bloomfilter)} (h : Answers pf id header payload r got d issued up)
    (hup : 2 * ctrlMsgSize ≤ up.length) :
    got = header ++ payload ∧ r.Put id header payload payload := by
  have htake : ∀ (c : CtrlMsg) k, (c.bytes.take k).length ≤ ctrlMsgSize := fun c k =>
    (List.length_take_le' k c.bytes).trans_eq c.length_bytes
  have hpos : 0 < ctrlMsgSize := by decide
  cases h with
  | none => exact absurd hup (by decide)
  | @accept k =>
    have := htake ⟨.accept, id⟩ k
    omega
  | @reject k =>
    have := htake ⟨.reject, id⟩ k
    omega
  | ack _ hgot hput => exact ⟨hgot, hput⟩

/-- The first byte of the answer tells which answer it is. -/
theorem Answers.head?_eq {r : Receiver} {got up : Bytes} {issued : List CtrlMsg}
    {d : Option (CtrlMsg × Bloomfilter)} (h : Answers pf id header payload r got d issued up)
    {t : CtrlType} (ht : up.head? = some t.code.toUInt8) :
    (t = .accept ∧ ⟨.accept, id⟩ ∈ issued) ∨
      (t = .reject ∧ ⟨.reject, id⟩ ∈ issued ∧ Receiver.Rejects pf id d) := by
  have hhead : ∀ (c : CtrlMsg) {k : ℕ} (l : Bytes), 0 < k →
      (c.bytes.take k ++ l).head? = some c.type.code.toUInt8 := by
    intro c k l hk
    obtain ⟨k, rfl⟩ := Nat.exists_eq_succ_of_ne_zero hk.ne'
    rfl
  cases h with
  | none => simp at ht
  | accept hk =>
    rw [← List.append_nil (List.take _ _), hhead _ _ hk] at ht
    exact Or.inl ⟨(CtrlType.code_toUInt8_injective (Option.some.inj ht)).symm, by simp⟩
  | reject hk hrej =>
    rw [← List.append_nil (List.take _ _), hhead _ _ hk] at ht
    exact Or.inr ⟨(CtrlType.code_toUInt8_injective (Option.some.inj ht)).symm, by simp, hrej⟩
  | ack hk =>
    rw [hhead _ _ hk] at ht
    exact Or.inl ⟨(CtrlType.code_toUInt8_injective (Option.some.inj ht)).symm, by simp⟩

/-- The answer that the sender has read is one that the receiver has sent. -/
theorem Safe.answer_read {t : Transfer} (h : Safe pf fs o id header payload t) {c : CtrlType}
    (hc : ctrlMsgType t.ctrl = c.code) :
    (c = .accept ∧ ⟨.accept, id⟩ ∈ t.issued) ∨
      (c = .reject ∧ ⟨.reject, id⟩ ∈ t.issued ∧ Receiver.Rejects pf id t.decision) := by
  apply h.answers.head?_eq
  have hhead := head?_of_ctrlMsgType hc
  cases hctrl : t.ctrl with
  | nil => simp [hctrl] at hhead
  | cons a l => simpa [hctrl] using hhead

/-- The sender and the receiver agree on the object with the identifier `id`: a sender that returns
with success has had all of it put by the receiver, whose buffer is empty; payload is written only
if an ACCEPT for the object was sent; and the sender returns with a rejection only if a REJECT for
the object was sent because the filter had its identifier. -/
structure Agreed (pf : Platform) (id : Digest) (header payload : Bytes) (t : Transfer) : Prop where
  wrote : t.wrote <+: header ++ payload
  success : t.sender.phase = .done .success →
    t.got = header ++ payload ∧ t.receiver.Put id header payload payload
  accepted : header.length < t.wrote.length → ⟨.accept, id⟩ ∈ t.issued
  rejected : t.sender.phase = .done .reject →
    ⟨.reject, id⟩ ∈ t.issued ∧ Receiver.Rejects pf id t.decision

theorem Safe.agreed {t : Transfer} (h : Safe pf fs o id header payload t) :
    Agreed pf id header payload t := by
  refine ⟨h.prefix_all, fun hs => ?_, fun hlen => ?_, fun hr => ?_⟩
  · have hctrl := h.sender.of_success hs
    exact h.answers.length_le (by rw [List.length_append]; omega)
  · rcases h.sender.wrote with hw | ⟨hacc, -⟩
    · exact absurd hw.length_le (by omega)
    · rcases h.answer_read hacc with ⟨-, hmem⟩ | ⟨h, -⟩
      · exact hmem
      · cases h
  · rcases h.answer_read (h.sender.of_reject hr) with ⟨h, -⟩ | ⟨-, hmem, hrej⟩
    · cases h
    · exact ⟨hmem, hrej⟩

/-- In every run both sides agree on the object that the receiver parses the header into. -/
theorem run_safe (header payload storage hash : Bytes) (fs : FileSystem) (bloom : Bloomfilter)
    (buf : ReceiveBuffer) (hbuf : buf.dataLen = 0) (bufferSize : ℕ)
    (ha : (DataObject.new storage hash pf.plainChar).Announces pf fs header payload)
    (actions : List Action) :
    Agreed pf ((DataObject.new storage hash pf.plainChar).completeHeader pf fs header).1.id header
      payload (Trace.run (step pf) (start (Sender.start header payload bufferSize)
        (Receiver.start pf buf fs bloom storage hash)) actions) := by
  have hstep : ∀ t a, Safe pf fs (DataObject.new storage hash pf.plainChar) _ header payload t →
      Safe pf fs (DataObject.new storage hash pf.plainChar) _ header payload (step pf t a) :=
    fun _ a h => Safe.step ha rfl rfl h a
  exact (Trace.invariant hstep (Safe.start hbuf bloom bufferSize) actions).agreed

end Haggle.Transfer
