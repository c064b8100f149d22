import Haggle.Bloomfilter
import Haggle.PutDataSentinel
import Haggle.ReceiveBuffer

/-!
# Receiving a data object

`receiveDataObject` as a machine: it reads into the buffer, puts the bytes into a new data object,
answers with ACCEPT or REJECT once the header is there, and acknowledges the payload. Each step
takes what one round of waiting and reading or writing meets.
-/

namespace Haggle

/-- The type of a control message. -/
inductive CtrlType where
  | ack
  | accept
  | reject
deriving DecidableEq

def CtrlType.code : CtrlType → ℕ
  | ack => 5
  | accept => 6
  | reject => 7

/-- `CTRLMSG_TYPE_TERMINATE`, which no receiver sends. -/
def terminateCode : ℕ := 8

structure CtrlMsg where
  type : CtrlType
  id : Digest
deriving DecidableEq

/-- `struct ctrlmsg` as it goes over the wire. -/
def CtrlMsg.bytes (m : CtrlMsg) : Bytes := [m.type.code.toUInt8, 0, 0, 0] ++ m.id.1

/-- What one round of waiting and writing meets: an event other than a writeable connection, the
number of bytes that were taken, the end of the connection, or an error. -/
inductive WriteResponse where
  | event (e : ProtocolEvent)
  | sent (n : ℕ)
  | closed
  | error (e : ProtocolError)
deriving DecidableEq

/-- The result of `sendControlMessage`: one write, however many bytes it takes. -/
def sendControlMessage : WriteResponse → ProtocolEvent
  | .event e => e
  | .sent _ => .success
  | .closed => .peerClosed
  | .error .badHandle | .error .notConnected | .error .notASocket | .error .connectionReset =>
    .errorFatal
  | .error _ => .error

inductive KernelEvent where
  | dataObjectIncoming (id : Digest)
  | dataObjectReceived (id : Digest)
deriving DecidableEq

inductive ReceivePhase where
  | reading (blockCount : ℕ)
  | answering (m : CtrlMsg)
  | acking (m : CtrlMsg)
  | done (e : ProtocolEvent)
deriving DecidableEq

structure Receiver where
  phase : ReceivePhase
  buf : ReceiveBuffer
  inc : Incoming
  fs : FileSystem
  remaining : ℕ
  answered : Bool
  bloom : Bloomfilter
  totBytesPut : ℕ
  posted : List KernelEvent

inductive Response where
  | read (r : ReadResponse)
  | write (w : WriteResponse)
deriving DecidableEq

namespace Receiver

variable (pf : Platform)

/-- The start of `receiveDataObject` on a connection whose buffer may hold bytes. -/
def start (buf : ReceiveBuffer) (fs : FileSystem) (bloom : Bloomfilter) (storage hash : Bytes) :
    Receiver where
  phase := .reading 0
  buf := buf
  inc := Incoming.createForPutting storage hash pf.plainChar
  fs := fs
  remaining := metadataPending
  answered := false
  bloom := bloom
  totBytesPut := 0
  posted := []

/-- The condition at the end of the loop, and what follows it. -/
def loopEnd (e : ProtocolEvent) (s : Receiver) : Receiver :=
  if e ≠ .success then { s with phase := .done e }
  else if s.remaining ≠ 0 then { s with phase := .reading 0 }
  else { s with phase := .acking ⟨.ack, s.inc.obj.id⟩ }

/-- The answer to a complete header. The identifier goes into the filter before the ACCEPT. -/
def answer (s : Receiver) : Receiver :=
  let id := s.inc.obj.id
  if s.bloom.has pf.sha1 id then
    { s with answered := true, phase := .answering ⟨.reject, id⟩ }
  else
    { s with answered := true, bloom := s.bloom.add pf.sha1 id, phase := .answering ⟨.accept, id⟩ }

/-- The buffered bytes are put into the object. -/
def putBuffered (e : ProtocolEvent) (s : Receiver) : Receiver :=
  let r := s.inc.putData pf s.fs s.remaining (s.buf.buffer.take s.buf.dataLen)
  let s := { s with inc := r.inc, fs := r.fs, remaining := r.remaining }
  match r.ret with
  | none => { s with phase := .done .error }
  | some k =>
    let s := { s with buf := s.buf.removeData k, totBytesPut := s.totBytesPut + k }
    if needsAnswer s.answered s.remaining && s.inc.obj.metadata.isSome then
      answer pf { s with inc := { s.inc with obj := s.inc.obj.toMetadata } }
    else loopEnd e s

/-- What follows a call of `getData` that returned `e`. -/
def afterRead (e : ProtocolEvent) (s : Receiver) : Receiver :=
  if e = .peerClosed ∨ e = .errorFatal then { s with phase := .done e }
  else if s.buf.dataLen = 0 then loopEnd e s
  else putBuffered pf e s

/-- What follows the sending of the answer. -/
def afterAnswer (m : CtrlMsg) (e : ProtocolEvent) (s : Receiver) : Receiver :=
  match m.type with
  | .reject => { s with phase := .done e }
  | _ => loopEnd e { s with posted := s.posted ++ [.dataObjectIncoming m.id] }

/-- An input that does not belong to the phase is no step of the machine. -/
def step (s : Receiver) (i : Response) : Receiver :=
  match s.phase, i with
  | .reading n, .read r =>
    match s.buf.getDataStep n r with
    | (.again n, b) => { s with buf := b, phase := .reading n }
    | (.done e, b) => afterRead pf e { s with buf := b }
  | .answering m, .write w => afterAnswer m (sendControlMessage w) s
  | .acking m, .write _ =>
    { s with phase := .done .success, posted := s.posted ++ [.dataObjectReceived m.id] }
  | _, _ => s

variable {pf}

theorem step_reading {s : Receiver} {n : ℕ} (hp : s.phase = .reading n) (r : ReadResponse) :
    step pf s (.read r) =
      match s.buf.getDataStep n r with
      | (.again n, b) => { s with buf := b, phase := .reading n }
      | (.done e, b) => afterRead pf e { s with buf := b } := by
  unfold step
  rw [hp]

/-- A round that delivers nothing to an empty buffer: the loop goes on, or the function returns. -/
theorem step_idle {s : Receiver} {n : ℕ} (hp : s.phase = .reading n) (hb : s.buf.dataLen = 0)
    {r : ReadResponse} (hr : ∀ bytes, r ≠ .data bytes) :
    (∃ k, step pf s (.read r) = { s with phase := .reading k }) ∨
      ∃ e, e ≠ .success ∧ step pf s (.read r) = { s with phase := .done e } := by
  rw [step_reading hp]
  rcases s.buf.getDataStep_cases n r with ⟨hbuf, hne⟩ | ⟨bytes, rfl, -⟩
  · cases hg : s.buf.getDataStep n r with
    | mk res b =>
      rw [hg] at hbuf hne
      dsimp only at hbuf hne
      subst hbuf
      cases res with
      | again k => exact Or.inl ⟨k, rfl⟩
      | done e =>
        have hsucc : e ≠ .success := fun h => hne (by rw [h])
        refine Or.inr ⟨e, hsucc, ?_⟩
        dsimp only [afterRead]
        split_ifs
        · rfl
        · rw [loopEnd, if_pos hsucc]
  · exact absurd rfl (hr bytes)

/-- A round that delivers bytes to an empty buffer: these are put into the object. -/
theorem step_data {s : Receiver} {n : ℕ} (hp : s.phase = .reading n) (hb : s.buf.dataLen = 0)
    {bytes : Bytes} (hne : bytes ≠ []) (hle : bytes.length ≤ s.buf.readLen) :
    step pf s (.read (.data bytes)) =
        putBuffered pf .success { s with buf := s.buf.store bytes } ∧
      (s.buf.store bytes).buffer.take (s.buf.store bytes).dataLen = bytes ∧
      (s.buf.store bytes).dataLen = bytes.length := by
  have hpos : 0 < bytes.length := List.length_pos_of_ne_nil hne
  have hlen : (s.buf.store bytes).dataLen = bytes.length := by
    rw [ReceiveBuffer.store, hb, Nat.zero_add]
  have hg : s.buf.getDataStep n (.data bytes) = (.done .success, s.buf.store bytes) := by
    rw [ReceiveBuffer.getDataStep, if_neg (by omega), if_neg hne, List.take_of_length_le hle]
  refine ⟨?_, by rw [hlen, ReceiveBuffer.store, List.take_left], hlen⟩
  rw [step_reading hp, hg]
  dsimp only [afterRead]
  rw [if_neg (by simp), if_neg (by omega)]

@[simp] theorem loopEnd_bloom (e : ProtocolEvent) (s : Receiver) :
    (loopEnd e s).bloom = s.bloom := by
  unfold loopEnd
  split_ifs <;> rfl

@[simp] theorem loopEnd_answered (e : ProtocolEvent) (s : Receiver) :
    (loopEnd e s).answered = s.answered := by
  unfold loopEnd
  split_ifs <;> rfl

theorem putBuffered_of_answered {s : Receiver} (hs : s.answered = true) (e : ProtocolEvent) :
    (putBuffered pf e s).answered = true ∧ (putBuffered pf e s).bloom = s.bloom := by
  unfold putBuffered
  dsimp only
  split
  · exact ⟨hs, rfl⟩
  · simp [needsAnswer, hs]

theorem step_of_answered {s : Receiver} (hs : s.answered = true) (i : Response) :
    (step pf s i).answered = true ∧ (step pf s i).bloom = s.bloom := by
  unfold step
  split
  · split
    · exact ⟨hs, rfl⟩
    · rename_i e b _
      unfold afterRead
      split_ifs
      · exact ⟨hs, rfl⟩
      · simp [hs]
      · exact putBuffered_of_answered (s := { s with buf := b }) hs _
  · unfold afterAnswer
    split
    · exact ⟨hs, rfl⟩
    · simp [hs]
  · exact ⟨hs, rfl⟩
  · exact ⟨hs, rfl⟩

theorem run_of_answered {s : Receiver} (hs : s.answered = true) (is : List Response) :
    (Trace.run (step pf) s is).bloom = s.bloom := by
  have hstep : ∀ t i, t.answered = true ∧ t.bloom = s.bloom →
      (step pf t i).answered = true ∧ (step pf t i).bloom = s.bloom := fun t i ht =>
    ⟨(step_of_answered ht.1 i).1, (step_of_answered ht.1 i).2.trans ht.2⟩
  exact (Trace.invariant hstep ⟨hs, rfl⟩ is).2

/-- A machine that has left the loop. -/
def Left (s : Receiver) : Prop := (∃ e, s.phase = .done e) ∨ ∃ m, s.phase = .acking m

theorem step_of_left {s : Receiver} (hs : Left s) (i : Response) :
    Left (step pf s i) ∧ (step pf s i).bloom = s.bloom := by
  rcases hs with ⟨e, he⟩ | ⟨m, hm⟩
  · have hstep : step pf s i = s := by
      unfold step
      rw [he]
    rw [hstep]
    exact ⟨Or.inl ⟨e, he⟩, rfl⟩
  · cases i with
    | read r =>
      have hstep : step pf s (.read r) = s := by
        unfold step
        rw [hm]
      rw [hstep]
      exact ⟨Or.inr ⟨m, hm⟩, rfl⟩
    | write w =>
      unfold step
      rw [hm]
      exact ⟨Or.inl ⟨.success, rfl⟩, rfl⟩

theorem run_of_left {s : Receiver} (hs : Left s) (is : List Response) :
    (Trace.run (step pf) s is).bloom = s.bloom := by
  have hstep : ∀ t i, Left t ∧ t.bloom = s.bloom →
      Left (step pf t i) ∧ (step pf t i).bloom = s.bloom := fun t i ht =>
    ⟨(step_of_left ht.1 i).1, (step_of_left ht.1 i).2.trans ht.2⟩
  exact (Trace.invariant hstep ⟨hs, rfl⟩ is).2

/-- The identifier that the bytes of a run announce: reads are put into the object until a header is
complete and reported as such. Neither the filter nor the answers play a part in it. -/
def announced (pf : Platform) : ReceiveBuffer → ℕ → Incoming → FileSystem → ℕ →
    List Response → Option Digest
  | _, _, _, _, _, [] => none
  | b, n, x, fs, rem, .write _ :: is => announced pf b n x fs rem is
  | b, n, x, fs, rem, .read r :: is =>
    match b.getDataStep n r with
    | (.again n, b) => announced pf b n x fs rem is
    | (.done e, b) =>
      if e = .peerClosed ∨ e = .errorFatal then none
      else if b.dataLen = 0 then
        if e = .success ∧ rem ≠ 0 then announced pf b 0 x fs rem is else none
      else
        let p := x.putData pf fs rem (b.buffer.take b.dataLen)
        match p.ret with
        | none => none
        | some k =>
          if p.remaining ≠ metadataPending ∧ p.inc.obj.metadata.isSome then some p.inc.obj.id
          else if e = .success ∧ p.remaining ≠ 0 then
            announced pf (b.removeData k) 0 p.inc p.fs p.remaining is
          else none

/-- The filter after an identifier was announced. -/
def afterAnnounced (pf : Platform) (bloom : Bloomfilter) : Option Digest → Bloomfilter
  | none => bloom
  | some id => if bloom.has pf.sha1 id then bloom else bloom.add pf.sha1 id

theorem loopEnd_cases (e : ProtocolEvent) (s : Receiver) :
    (e = .success ∧ s.remaining ≠ 0 ∧ loopEnd e s = { s with phase := .reading 0 }) ∨
      (¬(e = .success ∧ s.remaining ≠ 0) ∧ Left (loopEnd e s)) := by
  unfold loopEnd
  split_ifs with he hr
  · exact Or.inr ⟨fun h => he h.1, Or.inl ⟨e, rfl⟩⟩
  · exact Or.inl ⟨not_not.mp he, hr, rfl⟩
  · exact Or.inr ⟨fun h => hr h.2, Or.inr ⟨_, rfl⟩⟩

theorem answer_spec (s : Receiver) : (answer pf s).answered = true ∧
    (answer pf s).bloom = afterAnnounced pf s.bloom (some s.inc.obj.id) := by
  unfold answer afterAnnounced
  dsimp only
  split_ifs <;> exact ⟨rfl, rfl⟩

/-- The filter at the end of a run: the announced identifier is in it, and nothing else is new. -/
theorem run_bloom (is : List Response) {s : Receiver} {n : ℕ} (hp : s.phase = .reading n)
    (hs : s.answered = false) :
    (Trace.run (step pf) s is).bloom =
      afterAnnounced pf s.bloom (announced pf s.buf n s.inc s.fs s.remaining is) := by
  induction is generalizing s n with
  | nil => rfl
  | cons i is ih =>
    rw [Trace.run_cons]
    cases i with
    | write w =>
      have hstep : step pf s (.write w) = s := by
        unfold step
        rw [hp]
      rw [hstep, ih hp hs, announced]
    | read r =>
      have hloop : ∀ (t : Receiver) (e : ProtocolEvent), t.answered = false →
          (Trace.run (step pf) (loopEnd e t) is).bloom = afterAnnounced pf t.bloom
            (if e = .success ∧ t.remaining ≠ 0 then
              announced pf t.buf 0 t.inc t.fs t.remaining is else none) := by
        intro t e ht
        rcases loopEnd_cases e t with ⟨he, hr, heq⟩ | ⟨hne, hleft⟩
        · rw [heq, if_pos ⟨he, hr⟩]
          exact ih (s := { t with phase := .reading 0 }) rfl ht
        · rw [if_neg hne, run_of_left hleft, loopEnd_bloom]
          rfl
      rw [step_reading hp, announced]
      cases hg : s.buf.getDataStep n r with
      | mk res b =>
        cases res with
        | again k => exact ih (s := { s with buf := b, phase := .reading k }) rfl hs
        | done e =>
          dsimp only [afterRead]
          by_cases hend : e = .peerClosed ∨ e = .errorFatal
          · rw [if_pos hend, if_pos hend, run_of_left (Or.inl ⟨e, rfl⟩)]
            rfl
          rw [if_neg hend, if_neg hend]
          by_cases hz : b.dataLen = 0
          · rw [if_pos hz, if_pos hz]
            exact hloop { s with buf := b } e hs
          rw [if_neg hz, if_neg hz, putBuffered]
          dsimp only
          generalize s.inc.putData pf s.fs s.remaining (b.buffer.take b.dataLen) = p
          cases hret : p.ret with
          | none =>
            dsimp only
            rw [run_of_left (Or.inl ⟨_, rfl⟩)]
            rfl
          | some k =>
            dsimp only
            have hcond : (needsAnswer s.answered p.remaining && p.inc.obj.metadata.isSome) = true ↔
                p.remaining ≠ metadataPending ∧ p.inc.obj.metadata.isSome := by
              simp [needsAnswer, hs]
            by_cases hann : p.remaining ≠ metadataPending ∧ p.inc.obj.metadata.isSome
            · rw [if_pos (hcond.mpr hann), if_pos hann, run_of_answered (answer_spec _).1,
                (answer_spec _).2]
              dsimp only
              rw [DataObject.id_toMetadata]
            · rw [if_neg (fun h => hann (hcond.mp h)), if_neg hann]
              exact hloop _ _ hs

/-- The identifiers that the filter reports are the same at the end of a run exactly when the bytes
of the run do not announce an object that the filter did not report. -/
theorem run_bloom_unchanged_iff (is : List Response) (buf : ReceiveBuffer) (fs : FileSystem)
    {bloom : Bloomfilter} (hbloom : bloom.WF) (storage hash : Bytes) :
    (∀ id, (Trace.run (step pf) (start pf buf fs bloom storage hash) is).bloom.has pf.sha1 id =
        bloom.has pf.sha1 id) ↔
      ∀ id, announced pf buf 0 (Incoming.createForPutting storage hash pf.plainChar) fs
          metadataPending is =
        some id → bloom.has pf.sha1 id = true := by
  rw [run_bloom is (s := start pf buf fs bloom storage hash) rfl rfl]
  change (∀ id, (afterAnnounced pf bloom (announced pf buf 0
    (Incoming.createForPutting storage hash pf.plainChar) fs metadataPending is)).has pf.sha1 id =
      bloom.has pf.sha1 id) ↔ _
  cases announced pf buf 0 (Incoming.createForPutting storage hash pf.plainChar) fs
      metadataPending is with
  | none => simp [afterAnnounced]
  | some id =>
    simp only [afterAnnounced, Option.some.injEq, forall_eq']
    constructor
    · intro h
      by_contra hnew
      have hid := h id
      rw [if_neg hnew, Bloomfilter.has_add_self hbloom] at hid
      exact hnew hid.symm
    · intro h
      simp [h]

end Receiver

namespace Sample

/-- A receiver with an empty filter and room for a thousand bytes. -/
def receiver : Receiver :=
  Receiver.start (platform 2) ⟨List.replicate 1000 0, 0⟩ storage (Bloomfilter.new shape)
    (lit "/s") (List.replicate 20 0)

end Sample

namespace Receiver

/-- The peer closes the connection in the middle of the header. -/
theorem run_bloom_unchanged_sample :
    (Trace.run (step (Sample.platform 2)) Sample.receiver
        [.read (.data ((Sample.header 2).take 20)), .read .closed]).phase = .done .peerClosed ∧
    ∀ id, (Trace.run (step (Sample.platform 2)) Sample.receiver
        [.read (.data ((Sample.header 2).take 20)), .read .closed]).bloom.has
          (Sample.platform 2).sha1 id =
      (Bloomfilter.new Sample.shape).has (Sample.platform 2).sha1 id := by
  refine ⟨by decide +kernel, ?_⟩
  refine (run_bloom_unchanged_iff _ _ _ (Bloomfilter.wf_new Sample.shape) _ _).mpr ?_
  intro id hid
  have hnone : announced (Sample.platform 2) ⟨List.replicate 1000 0, 0⟩ 0
      (Incoming.createForPutting (lit "/s") (List.replicate 20 0) (Sample.platform 2).plainChar)
      Sample.storage metadataPending [.read (.data ((Sample.header 2).take 20)), .read .closed] =
      none := by decide +kernel
  rw [hnone] at hid
  cases hid

/-- The peer closes the connection after the ACCEPT: the object stays in the filter. -/
theorem run_bloom_changed_sample :
    (Trace.run (step (Sample.platform 2)) Sample.receiver
        [.read (.data (Sample.header 2)), .write (.sent 24), .read .closed]).phase =
      .done .peerClosed ∧
    ¬∀ id, (Trace.run (step (Sample.platform 2)) Sample.receiver
        [.read (.data (Sample.header 2)), .write (.sent 24), .read .closed]).bloom.has
          (Sample.platform 2).sha1 id =
      (Bloomfilter.new Sample.shape).has (Sample.platform 2).sha1 id := by
  refine ⟨by decide +kernel, fun h => ?_⟩
  have hid := h ⟨List.replicate 20 0, rfl⟩
  revert hid
  decide +kernel

end Receiver
end Haggle
