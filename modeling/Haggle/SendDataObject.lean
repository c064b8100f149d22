import Haggle.ReceiveDataObject

/-!
# Sending a data object

`sendDataObjectNow` to a peer as a machine: it writes the header in pieces of the buffer size, waits
for the answer, writes the payload if it was accepted, and waits for the acknowledgement.
-/

namespace Haggle

/-- `sizeof(struct ctrlmsg)`. -/
def ctrlMsgSize : ℕ := 24

/-- The type field of a received control message. -/
def ctrlMsgType : Bytes → ℕ
  | a :: b :: c :: d :: _ => a.toNat + 2 ^ 8 * b.toNat + 2 ^ 16 * c.toNat + 2 ^ 24 * d.toNat
  | _ => 0

inductive SendPhase where
  | writing (chunk : Bytes)
  | awaitAnswer (blockCount : ℕ)
  | awaitAck (blockCount : ℕ)
  | done (e : ProtocolEvent)
deriving DecidableEq

/-- The retriever holds what is left of the header and of the payload. -/
structure Sender where
  phase : SendPhase
  headerLeft : Bytes
  payloadLeft : Bytes
  hasSentHeader : Bool
  blockCount : ℕ
  bufferSize : ℕ
deriving DecidableEq

/-- How a round of `receiveControlMessage` ends. -/
inductive CtrlResult where
  | again (blockCount : ℕ)
  | failed (e : ProtocolEvent)
  | message (bytes : Bytes)
deriving DecidableEq

/-- One round of `receiveControlMessage`; a read that is not a whole message is an error. -/
def receiveControlMessageStep (blockCount : ℕ) : ReadResponse → CtrlResult
  | .event .success => .again blockCount
  | .event e => .failed e
  | .data bytes => if bytes.length = ctrlMsgSize then .message bytes else .failed .error
  | .closed => .failed .peerClosed
  | .error .badHandle | .error .notConnected | .error .notASocket | .error .connectionReset =>
    .failed .errorFatal
  | .error .wouldBlock =>
    if blockTryMax < blockCount then .failed .error else .again (blockCount + 1)
  | .error _ => .failed .error

namespace Sender

/-- `retrieve` and what the loop does with an empty result: after the header it waits for the
answer, after the payload for the acknowledgement. -/
def retrieve (s : Sender) : Sender :=
  if s.hasSentHeader then
    if s.payloadLeft = [] then { s with phase := .awaitAck 0 }
    else
      { s with
        phase := .writing (s.payloadLeft.take s.bufferSize)
        payloadLeft := s.payloadLeft.drop s.bufferSize }
  else if s.headerLeft = [] then { s with hasSentHeader := true, phase := .awaitAnswer 0 }
  else
    { s with
      phase := .writing (s.headerLeft.take s.bufferSize)
      headerLeft := s.headerLeft.drop s.bufferSize }

def start (header payload : Bytes) (bufferSize : ℕ) : Sender :=
  retrieve ⟨.awaitAck 0, header, payload, false, 0, bufferSize⟩

/-- One round of the loop that writes the buffer. -/
def afterWrite (s : Sender) (chunk : Bytes) : WriteResponse → Sender
  | .event e => if e = .success then retrieve s else { s with phase := .done e }
  | .sent n =>
    if chunk.drop n = [] then retrieve { s with blockCount := 0 }
    else { s with blockCount := 0, phase := .writing (chunk.drop n) }
  | .closed => { s with phase := .done .peerClosed }
  | .error .badHandle | .error .notConnected | .error .notASocket | .error .connectionReset =>
    { s with phase := .done .errorFatal }
  | .error .wouldBlock =>
    if blockTryMax < s.blockCount then { s with phase := .done .error }
    else { s with blockCount := s.blockCount + 1 }
  | .error _ => { s with phase := .done .error }

/-- What an answer leads to. A message of another type is taken for the end of the payload. -/
def afterAnswer (s : Sender) (m : Bytes) : Sender :=
  if ctrlMsgType m = CtrlType.accept.code then retrieve s
  else if ctrlMsgType m = CtrlType.reject.code then { s with phase := .done .reject }
  else if ctrlMsgType m = terminateCode then { s with phase := .done .terminate }
  else { s with phase := .awaitAck 0 }

def afterAck (s : Sender) (m : Bytes) : Sender :=
  if ctrlMsgType m = CtrlType.ack.code then { s with phase := .done .success }
  else { s with phase := .done .error }

def step (s : Sender) (i : Response) : Sender :=
  match s.phase, i with
  | .writing chunk, .write w => afterWrite s chunk w
  | .awaitAnswer n, .read r =>
    match receiveControlMessageStep n r with
    | .again n => { s with phase := .awaitAnswer n }
    | .failed e => { s with phase := .done e }
    | .message m => afterAnswer s m
  | .awaitAck n, .read r =>
    match receiveControlMessageStep n r with
    | .again n => { s with phase := .awaitAck n }
    | .failed e => { s with phase := .done e }
    | .message m => afterAck s m
  | _, _ => s

end Sender
end Haggle
