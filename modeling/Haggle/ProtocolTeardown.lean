import Haggle.ProtocolRun

/-!
# The kernel thread and the end of a protocol

The kernel thread gives data objects to a protocol and ends it: an event that the protocol has
posted makes the manager wait for the thread and delete the protocol. In shutdown the manager
cancels the threads and waits 15 seconds; what is still registered then is either detached or
deleted, depending on the state of the thread. A thread that was cancelled does not count as
running, even if it has not yet noticed.
-/

namespace Haggle

/-- What the kernel thread does when it takes an event that concerns the protocol. -/
inductive ManagerEvent (D : Type)
  | sendDataObject (dObj : D) (peer : Option PeerNode)
  /-- `handleInterfaceDown`. -/
  | interfaceDown
  | onShutdown
  | onDeleteProtocolEvent
  | onProtocolShutdownTimeout
  /-- `~ProtocolManager`. -/
  | destroyManager

/-- A step of one of the two threads. -/
inductive ProtocolStep (D : Type)
  | thread (i : ThreadInput)
  | kernel
  | event (e : ManagerEvent D)

def RunPc.executing {D : Type} : RunPc D → Bool
  | .off | .finished => false
  | _ => true

def KernelPc.busy {D : Type} : KernelPc D → Bool
  | .idle => false
  | _ => true

namespace Protocol

variable {D : Type}

/-- A protocol that was just registered. -/
def init (peerNode : Option PeerNode) : Protocol D where
  queue := .new
  mode := .idle
  connected := false
  peerNode := peerNode
  isRegistered := true
  thr := none
  exitSignal := false
  detached := false
  numConnectTry := 0
  numerr := 0
  run := .off
  kernel := .idle
  inRegistry := true
  deleteEvents := 0
  killer := false
  deleted := false
  broken := false
  next := 0
  accepted := []
  results := []

def kernelGoto (s : Protocol D) (pc : KernelPc D) : Protocol D := { s with kernel := pc }

/-- The peer of a protocol that has none, or only one of unknown type, is set by the first data
object that is sent; `none` if the data object is for another node. -/
def matchPeer (s : Protocol D) (peer : PeerNode) : Option PeerNode :=
  match s.peerNode with
  | none => some peer
  | some p =>
    if p.isUndefined && !peer.isUndefined then some peer
    else if p = peer then some p
    else none

/-- The tests of `sendDataObject` after the first one, and the new queue element. -/
def makeElement (s : Protocol D) (dObj : D) (peer : Option PeerNode) : Protocol D :=
  if s.mode = .garbage then s.kernelGoto .idle
  else
    match peer.bind s.matchPeer with
    | none => s.kernelGoto .idle
    | some p => { s with peerNode := some p, next := s.next + 1, kernel := .insert ⟨s.next, dObj⟩ }

/-- A thread that was started once is not started again. -/
def startTxRx (s : Protocol D) : Protocol D :=
  if s.thr = none then { s with thr := some .running, run := .run, kernel := .idle }
  else s.kernelGoto .idle

def cancel (s : Protocol D) : Protocol D :=
  if s.isRunning then { s with thr := some .cancelled, exitSignal := true } else s

/-- `p->join()` returns when the thread has ended, and at once if there is none. -/
def join (s : Protocol D) : Protocol D :=
  if s.thr = none then s.kernelGoto (.close true)
  else
    match s.run with
    | .finished => { s with thr := some .joined, kernel := .close true }
    | _ => s

/-- A step of the kernel thread in a call on the protocol. -/
def kernelStep [DecidableEq D] (s : Protocol D) : Protocol D :=
  match s.kernel with
  | .idle => s
  | .makeElement dObj peer => s.makeElement dObj peer
  | .insert e =>
    match s.queue.insert e with
    | none => s.kernelGoto .idle
    | some q => { s with queue := q, accepted := s.accepted ++ [e], kernel := .startTxRx }
  | .startTxRx => s.startTxRx
  | .setDone => (s.kernelGoto .hookShutdown).act (.setMode .done)
  | .hookShutdown => (s.kernelGoto .stopThread).act .closeConnection
  | .stopThread =>
    s.kernelGoto (if s.isRunning then .cancel else if s.isRegistered then .unregister else .idle)
  | .cancel => s.cancel.kernelGoto .idle
  | .unregister =>
    if s.isRegistered then (s.kernelGoto .idle).act .postDelete else s.kernelGoto .idle
  | .join => s.join
  | .timeout =>
    s.kernelGoto (if s.isRunning then .detach else .close true)
  | .detach => { s with detached := s.detached || s.isRunning, kernel := .detachCancel }
  | .detachCancel => s.cancel.kernelGoto (.close false)
  | .close deleting => (s.kernelGoto (.clearing .test deleting)).act .close
  | .clearing pc deleting =>
    match s.clearStep pc with
    | (s, some pc) => s.kernelGoto (.clearing pc deleting)
    | (s, none) => { s with deleted := s.deleted || deleting, kernel := .idle }

/-- `shutdown()`. -/
def shutdown (s : Protocol D) : Protocol D := s.kernelGoto .setDone

/-- The kernel thread takes an event when it is through with the one before. It finds the protocol
in the registry. The killer thread is started at the end of `onShutdown`, and its event comes later.
-/
def onEvent (s : Protocol D) : ManagerEvent D → Protocol D
  | .sendDataObject dObj peer =>
    if s.inRegistry = true ∧ s.mode = .idle then s.kernelGoto (.makeElement dObj peer) else s
  | .interfaceDown => if s.inRegistry then s.shutdown else s
  | .onShutdown =>
    if s.inRegistry then { s with killer := true }.shutdown else s
  | .onDeleteProtocolEvent =>
    if s.deleteEvents = 0 then s
    else if s.inRegistry then
      { s with
        deleteEvents := s.deleteEvents - 1
        inRegistry := false
        kernel := if s.detached then .idle else .join }
    else { s with deleteEvents := s.deleteEvents - 1 }
  | .onProtocolShutdownTimeout =>
    if s.killer = true ∧ s.inRegistry = true then { s with inRegistry := false, kernel := .timeout }
    else s
  | .destroyManager =>
    if s.inRegistry then
      { s with inRegistry := false, kernel := .close true }
    else s

/-- Nothing more is said about a broken protocol, and a freed one is broken by using it. -/
def step [DecidableEq D] (s : Protocol D) (a : ProtocolStep D) : Protocol D :=
  if s.broken then s
  else
    match a with
    | .thread i =>
      if s.deleted && s.run.executing then { s with broken := true } else s.runStep i
    | .kernel => if s.deleted && s.kernel.busy then { s with broken := true } else s.kernelStep
    | .event e => if s.kernel.busy then s else s.onEvent e

/-- The manager deletes the protocol without waiting for the thread only when the thread is not
executing. -/
def Orderly (s : Protocol D) : ProtocolStep D → Prop
  | .event .onProtocolShutdownTimeout =>
    s.killer = true → s.inRegistry = true → s.run.executing = false
  | .event .destroyManager => s.inRegistry = true → s.run.executing = false
  | _ => True

instance (s : Protocol D) : ∀ a, Decidable (Orderly s a)
  | .event .onProtocolShutdownTimeout => inferInstanceAs (Decidable (_ → _ → _))
  | .event .destroyManager => inferInstanceAs (Decidable (_ → _))
  | .event (.sendDataObject _ _) | .event .interfaceDown | .event .onShutdown
  | .event .onDeleteProtocolEvent | .thread _ | .kernel => .isTrue trivial

end Protocol
end Haggle
