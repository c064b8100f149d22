import Haggle.Bytes
import Haggle.Trace

/-!
# The receive buffer of a protocol

`getData` reads from the peer into the buffer of the protocol and `removeData` drops bytes from its
front. A read stores what it gets at the start of the buffer, whatever is there already.
-/

namespace Haggle

inductive ProtocolEvent where
  | errorFatal
  | error
  | success
  | reject
  | terminate
  | sendFailed
  | recvFailed
  | timeout
  | peerClosed
  | shouldExit
  | notConnected
  | txqEmpty
  | txqNewDataObject
  | incomingData
  | writeable
deriving DecidableEq

inductive ProtocolError where
  | wouldBlock
  | badHandle
  | connectionRefused
  | interrupted
  | invalidArgument
  | noMemory
  | notConnected
  | connectionReset
  | notASocket
  | noStorageSpace
  | unknown
deriving DecidableEq

/-- `PROT_BLOCK_TRY_MAX`. -/
def blockTryMax : ℕ := 5

/-- What one round of waiting and reading meets: an event other than incoming data, bytes of the
peer, the end of the connection, or an error. -/
inductive ReadResponse where
  | event (e : ProtocolEvent)
  | data (bytes : Bytes)
  | closed
  | error (e : ProtocolError)
deriving DecidableEq

structure ReceiveBuffer where
  buffer : Bytes
  dataLen : ℕ
deriving DecidableEq

/-- How a round of `getData` ends: the loop goes on, or the function returns. -/
inductive ReadResult where
  | again (blockCount : ℕ)
  | done (e : ProtocolEvent)
deriving DecidableEq

namespace ReceiveBuffer

def size (b : ReceiveBuffer) : ℕ := b.buffer.length

def readLen (b : ReceiveBuffer) : ℕ := b.size - b.dataLen

/-- `receiveData(buffer, readLen, 0, bytesRead)` puts the bytes at the start of the buffer. -/
def store (b : ReceiveBuffer) (bytes : Bytes) : ReceiveBuffer where
  buffer := bytes ++ b.buffer.drop bytes.length
  dataLen := b.dataLen + bytes.length

/-- One round of the loop in `getData`. At most `readLen` of the peer's bytes are delivered. -/
def getDataStep (b : ReceiveBuffer) (blockCount : ℕ) : ReadResponse → ReadResult × ReceiveBuffer
  | .event .success => (.again blockCount, b)
  | .event e => (.done e, b)
  | .data bytes =>
    if b.readLen = 0 then (.done .error, b)
    else if bytes = [] then (.again blockCount, b)
    else (.done .success, b.store (bytes.take b.readLen))
  | .closed => if b.readLen = 0 then (.done .error, b) else (.done .peerClosed, b)
  | .error e =>
    if b.readLen = 0 then (.done .error, b)
    else
      match e with
      | .badHandle | .notConnected | .notASocket => (.done .errorFatal, b)
      | .connectionReset => (.done .peerClosed, b)
      | .wouldBlock =>
        if blockCount < blockTryMax then (.again (blockCount + 1), b) else (.done .errorFatal, b)
      | _ => (.done .error, b)

/-- The rounds of `getData`, as long as there are responses and the loop goes on. -/
def getData (b : ReceiveBuffer) (blockCount : ℕ) : List ReadResponse → ReadResult × ReceiveBuffer
  | [] => (.again blockCount, b)
  | r :: rs =>
    match b.getDataStep blockCount r with
    | (.again n, b) => getData b n rs
    | (.done e, b) => (.done e, b)

/-- The first `n` rounds of the loop that moves the bytes to the front. -/
def move (buffer : Bytes) (len : ℕ) : ℕ → Bytes
  | 0 => buffer
  | i + 1 => (move buffer len i).set i ((move buffer len i).getD (i + len) 0)

def removeData (b : ReceiveBuffer) (len : ℕ) : ReceiveBuffer :=
  if len = 0 then b
  else if b.dataLen ≤ len then { b with dataLen := 0 }
  else ⟨move b.buffer len (b.dataLen - len), b.dataLen - len⟩

/-- A round leaves the buffer alone, or it stores bytes and `getData` returns success. -/
theorem getDataStep_cases (b : ReceiveBuffer) (n : ℕ) (r : ReadResponse) :
    ((b.getDataStep n r).2 = b ∧ (b.getDataStep n r).1 ≠ .done .success) ∨
      ∃ bytes, r = .data bytes ∧ bytes ≠ [] ∧ 0 < b.readLen ∧
        b.getDataStep n r = (.done .success, b.store (bytes.take b.readLen)) := by
  cases r with
  | event e => cases e <;> exact Or.inl ⟨rfl, by simp [getDataStep]⟩
  | data bytes =>
    by_cases h0 : b.readLen = 0
    · exact Or.inl (by simp [getDataStep, h0])
    · by_cases hne : bytes = []
      · exact Or.inl (by simp [getDataStep, h0, hne])
      · exact Or.inr ⟨bytes, rfl, hne, Nat.pos_of_ne_zero h0, by simp [getDataStep, h0, hne]⟩
  | closed =>
    left
    rw [getDataStep]
    split_ifs <;> exact ⟨rfl, by simp⟩
  | error e =>
    left
    cases e <;> simp only [getDataStep] <;> split_ifs <;> exact ⟨rfl, by simp⟩

theorem length_move (buffer : Bytes) (len n : ℕ) : (move buffer len n).length = buffer.length := by
  induction n with
  | zero => rfl
  | succ n ih => rw [move, List.length_set, ih]

/-- The loop has moved the first bytes and has not touched those behind. -/
theorem getElem?_move (buffer : Bytes) {len : ℕ} (hlen : 0 < len) {n : ℕ}
    (hn : n + len ≤ buffer.length) (i : ℕ) :
    (move buffer len n)[i]? = if i < n then buffer[i + len]? else buffer[i]? := by
  induction n generalizing i with
  | zero => simp [move]
  | succ n ih =>
    have hget : (move buffer len n).getD (n + len) 0 = buffer.getD (n + len) 0 := by
      rw [List.getD_eq_getElem?_getD, ih (by omega), if_neg (by omega), List.getD_eq_getElem?_getD]
    rw [move, List.getElem?_set, hget, length_move]
    by_cases hi : n = i
    · subst hi
      rw [if_pos rfl, if_pos (by omega), if_pos (by omega), List.getD_eq_getElem?_getD,
        List.getElem?_eq_getElem (by omega), Option.getD_some]
    · rw [if_neg hi, ih (by omega)]
      by_cases hlt : i < n
      · rw [if_pos hlt, if_pos (by omega)]
      · rw [if_neg hlt, if_neg (by omega)]

theorem take_removeData (b : ReceiveBuffer) (len : ℕ) (hb : b.dataLen ≤ b.size) :
    (b.removeData len).buffer.take (b.removeData len).dataLen =
      (b.buffer.take b.dataLen).drop len := by
  unfold size at hb
  unfold removeData
  split_ifs with h0 hle
  · rw [h0, List.drop_zero]
  · rw [List.take_zero, List.drop_eq_nil_of_le]
    rw [List.length_take]
    omega
  · apply List.ext_getElem?
    intro i
    rw [List.getElem?_drop, List.getElem?_take, List.getElem?_take,
      getElem?_move b.buffer (by omega) (by omega)]
    by_cases hi : i < b.dataLen - len
    · rw [if_pos hi, if_pos hi, if_pos (by omega), Nat.add_comm]
    · rw [if_neg hi, if_neg (by omega)]

theorem dataLen_removeData (b : ReceiveBuffer) (len : ℕ) :
    (b.removeData len).dataLen = b.dataLen - len := by
  unfold removeData
  split_ifs
  · omega
  · dsimp only
    omega
  · rfl

theorem size_removeData (b : ReceiveBuffer) (len : ℕ) : (b.removeData len).size = b.size := by
  unfold removeData size
  split_ifs
  · rfl
  · rfl
  · exact length_move _ _ _

/-- Calls of the two functions; `getData` comes with what its rounds meet. -/
inductive Op where
  | getData (responses : List ReadResponse)
  | removeData (len : ℕ)

/-- A buffer together with all bytes that were received and the number of those removed. -/
structure History where
  buf : ReceiveBuffer
  received : Bytes
  removed : ℕ

/-- The bytes that a call of `getData` delivers. -/
def delivered (b : ReceiveBuffer) (n : ℕ) : List ReadResponse → Bytes
  | [] => []
  | r :: rs =>
    match b.getDataStep n r with
    | (.again n, b) => delivered b n rs
    | (.done .success, _) =>
      match r with
      | .data bytes => bytes.take b.readLen
      | _ => []
    | (.done _, _) => []

def History.step (h : History) : Op → History
  | .getData rs => { h with
      buf := (h.buf.getData 0 rs).2
      received := h.received ++ h.buf.delivered 0 rs }
  | .removeData len =>
    { h with buf := h.buf.removeData len, removed := h.removed + min len h.buf.dataLen }

/-- The buffer holds what was received and not removed. -/
def Refines (h : History) : Prop :=
  h.buf.buffer.take h.buf.dataLen = h.received.drop h.removed

/-- A call that delivers bytes finds an empty buffer. -/
def ReadsEmpty (h : History) : Op → Prop
  | .getData rs => h.buf.delivered 0 rs ≠ [] → h.buf.dataLen = 0
  | .removeData _ => True

theorem getData_eq (b : ReceiveBuffer) (n : ℕ) (rs : List ReadResponse) :
    (b.getData n rs).2 = b.store (b.delivered n rs) ∧ (b.delivered n rs).length ≤ b.readLen := by
  have hstore : b.store [] = b := by simp [store]
  induction rs generalizing n with
  | nil => exact ⟨hstore.symm, Nat.zero_le _⟩
  | cons r rs ih =>
    rcases b.getDataStep_cases n r with ⟨hb, hne⟩ | ⟨bytes, rfl, -, -, h⟩
    · cases hr : b.getDataStep n r with
      | mk res b' =>
        rw [hr] at hb hne
        subst hb
        cases res with
        | again k => simpa only [getData, delivered, hr] using ih k
        | done e =>
          have hnil : b'.delivered n (r :: rs) = [] := by
            simp only [delivered, hr]
            split <;> simp_all
          simp only [getData, hr, hnil, hstore, List.length_nil, Nat.zero_le, and_self]
    · simp only [getData, delivered, h]
      exact ⟨trivial, List.length_take_le _ _⟩

/-- What holds in every run, whatever is in the buffer. -/
structure Sound (n : ℕ) (h : History) : Prop where
  size_eq : h.buf.size = n
  dataLen_le : h.buf.dataLen ≤ n
  length_eq : h.removed + h.buf.dataLen = h.received.length

theorem sound_step {n : ℕ} {h : History} (hs : Sound n h) (op : Op) : Sound n (h.step op) := by
  obtain ⟨hsize, hle, hlen⟩ := hs
  cases op with
  | getData rs =>
    obtain ⟨heq, hroom⟩ := h.buf.getData_eq 0 rs
    rw [readLen, hsize] at hroom
    unfold size at hsize
    refine ⟨?_, ?_, ?_⟩ <;>
    · simp only [History.step, heq, store, size, List.length_append, List.length_drop]
      omega
  | removeData len =>
    refine ⟨(size_removeData _ _).trans hsize, ?_, ?_⟩ <;>
    · simp only [History.step, dataLen_removeData]
      omega

theorem refines_step {n : ℕ} {h : History} (hs : Sound n h) (hr : Refines h) {op : Op}
    (hop : ReadsEmpty h op) : Refines (h.step op) := by
  obtain ⟨hsize, hle, hlen⟩ := hs
  unfold Refines at hr ⊢
  cases op with
  | getData rs =>
    simp only [History.step, (h.buf.getData_eq 0 rs).1, store]
    by_cases hnil : h.buf.delivered 0 rs = []
    · simpa [hnil] using hr
    · -- the buffer was empty, so nothing is overwritten
      have hzero : h.buf.dataLen = 0 := hop hnil
      rw [hzero, Nat.zero_add, List.take_left, List.drop_append_of_le_length (by omega),
        List.drop_eq_nil_of_le (by omega), List.nil_append]
  | removeData len =>
    simp only [History.step]
    rw [take_removeData h.buf len (hle.trans_eq hsize.symm), hr, List.drop_drop]
    rcases le_total len h.buf.dataLen with hl | hl
    · rw [min_eq_left hl]
    · rw [min_eq_right hl, List.drop_eq_nil_of_le (by omega), List.drop_eq_nil_of_le (by omega)]

/-- The state of a protocol that was just created. -/
def initial (buffer : Bytes) : History := ⟨⟨buffer, 0⟩, [], 0⟩

theorem sound_initial (buffer : Bytes) : Sound buffer.length (initial buffer) :=
  ⟨rfl, Nat.zero_le _, rfl⟩

/-- The buffer never holds more than its size. In every run in which bytes are read into an empty
buffer only, it holds the received bytes without the removed ones. -/
theorem run_refines (buffer : Bytes) (ops : List Op) :
    (Trace.run History.step (initial buffer) ops).buf.dataLen ≤ buffer.length ∧
      (Trace.Guarded History.step ReadsEmpty (initial buffer) ops →
        Refines (Trace.run History.step (initial buffer) ops)) := by
  refine ⟨?_, fun hg => ?_⟩
  · have hstep : ∀ h op, Sound buffer.length h → Sound buffer.length (h.step op) :=
      fun h op hs => sound_step hs op
    exact (Trace.invariant hstep (sound_initial buffer) ops).dataLen_le
  · have hboth : ∀ h op, Sound buffer.length h ∧ Refines h → ReadsEmpty h op →
        Sound buffer.length (h.step op) ∧ Refines (h.step op) :=
      fun h op hs hop => ⟨sound_step hs.1 op, refines_step hs.1 hs.2 hop⟩
    exact (Trace.invariant_of_guarded hboth ⟨sound_initial buffer, rfl⟩ hg).2

/-- Two reads, each of which finds the buffer empty. -/
theorem run_refines_sample :
    Refines (Trace.run History.step (initial [0, 0, 0, 0])
      [.getData [.data [1, 2]], .removeData 2, .getData [.error .wouldBlock, .data [3]]]) := by
  refine (run_refines _ _).2 ⟨fun _ => rfl, trivial, fun _ => ?_, trivial⟩
  decide

/-- A byte that is left over from the first read is overwritten by the second. -/
theorem run_not_refines_sample :
    ¬Refines (Trace.run History.step (initial [0, 0, 0, 0])
      [.getData [.data [1, 2]], .removeData 1, .getData [.data [3]]]) := by
  unfold Refines
  decide

end ReceiveBuffer
end Haggle
