import Haggle.SendDataObject

/-!
# A transfer between two nodes

A sender and a receiver joined by a byte stream in each direction. Each action lets one of them do
one round of input or output: some bytes are moved, or it meets an event, the end of the connection
or an error. A side can also give up at any time, and other threads can change the filter.
-/

namespace Haggle

inductive Move where
  | moved (n : ℕ)
  | event (e : ProtocolEvent)
  | closed
  | error (e : ProtocolError)

inductive Action where
  | sender (m : Move)
  | receiver (m : Move)
  | senderFails (e : ProtocolEvent)
  | receiverFails (e : ProtocolEvent)
  | filter (bf : Bloomfilter)

/-- Both sides, the bytes in flight, and a record of what was written and read: the bytes that the
sender wrote and the receiver read, the control bytes that the sender read, the control messages
that the receiver wrote, and its answer with the filter it was based on. -/
structure Transfer where
  sender : Sender
  receiver : Receiver
  down : Bytes
  up : Bytes
  wrote : Bytes
  got : Bytes
  ctrl : Bytes
  issued : List CtrlMsg
  decision : Option (CtrlMsg × Bloomfilter)

namespace Transfer

variable (pf : Platform)

def start (s : Sender) (r : Receiver) : Transfer := ⟨s, r, [], [], [], [], [], [], none⟩

/-- `waitForEvent` returns neither `PROT_EVENT_SUCCESS` nor `PROT_EVENT_REJECT`. -/
def waitForEvent (e : ProtocolEvent) : Option ProtocolEvent :=
  if e = .success ∨ e = .reject then none else some e

def readResponse (bytes : Bytes) : Move → Option ReadResponse
  | .moved _ => if bytes = [] then none else some (.data bytes)
  | .event e => (waitForEvent e).map .event
  | .closed => some .closed
  | .error e => some (.error e)

def writeResponse (n : ℕ) : Move → Option WriteResponse
  | .moved _ => some (.sent n)
  | .event e => (waitForEvent e).map .event
  | .closed => some .closed
  | .error e => some (.error e)

/-- The number of bytes that a move takes from at most `limit`. -/
def amount (limit : ℕ) : Move → ℕ
  | .moved n => min (n + 1) limit
  | _ => 0

def senderStep (t : Transfer) (m : Move) : Transfer :=
  match t.sender.phase with
  | .writing chunk =>
    let k := amount chunk.length m
    match writeResponse k m with
    | none => t
    | some w => { t with
        sender := t.sender.step (.write w)
        down := t.down ++ chunk.take k
        wrote := t.wrote ++ chunk.take k }
  | .done _ => t
  | _ =>
    let k := amount ctrlMsgSize m
    match readResponse (t.up.take k) m with
    | none => t
    | some r => { t with
        sender := t.sender.step (.read r)
        up := t.up.drop k
        ctrl := t.ctrl ++ t.up.take k }

/-- The answer that a step of the receiver decided on. -/
def decisionAfter (before after : Receiver) (d : Option (CtrlMsg × Bloomfilter)) :
    Option (CtrlMsg × Bloomfilter) :=
  match before.phase, after.phase with
  | .reading _, .answering m => some (m, before.bloom)
  | _, _ => d

def writeCtrl (t : Transfer) (c : CtrlMsg) (m : Move) : Transfer :=
  let k := amount ctrlMsgSize m
  match writeResponse k m with
  | none => t
  | some w => { t with
      receiver := t.receiver.step pf (.write w)
      up := t.up ++ c.bytes.take k
      issued := if k = 0 then t.issued else t.issued ++ [c] }

def receiverStep (t : Transfer) (m : Move) : Transfer :=
  match t.receiver.phase with
  | .reading _ =>
    let k := amount t.receiver.buf.readLen m
    match readResponse (t.down.take k) m with
    | none => t
    | some r => { t with
        receiver := t.receiver.step pf (.read r)
        down := t.down.drop k
        got := t.got ++ t.down.take k
        decision := decisionAfter t.receiver (t.receiver.step pf (.read r)) t.decision }
  | .answering c => writeCtrl pf t c m
  | .acking c => writeCtrl pf t c m
  | .done _ => t

def step (t : Transfer) : Action → Transfer
  | .sender m => t.senderStep m
  | .receiver m => t.receiverStep pf m
  | .senderFails e =>
    match t.sender.phase with
    | .done _ => t
    | _ =>
      if e = .success ∨ e = .reject then t
      else { t with sender := { t.sender with phase := .done e } }
  | .receiverFails e =>
    match t.receiver.phase with
    | .done _ => t
    | _ =>
      if e = .success then t
      else { t with receiver := { t.receiver with phase := .done e } }
  | .filter bf => { t with receiver := { t.receiver with bloom := bf } }

end Transfer
end Haggle
