import Haggle.ReceiveBuffer
import Haggle.SendQueue

/-!
# The thread of a protocol

A protocol that sends has a queue and a thread. The kernel thread puts data objects into the queue;
the protocol's own thread takes them out, sends them, and posts one event for each that says whether
it was sent. Both threads work on the same object, one step at a time in any order; where a thread
stands is part of the state.
-/

namespace Haggle

/-- `PROT_MODE_*` of a client. -/
inductive ProtocolMode
  | idle
  | done
  | garbage
deriving DecidableEq

/-- `THREAD_STATE_*`. -/
inductive ThreadState
  | running
  | cancelled
  | cleanup
  | stopped
  | joined
deriving DecidableEq

/-- A queue element is known by its address, which is new whenever one is made. -/
structure QueueElement (D : Type) where
  id : ℕ
  dObj : D
deriving DecidableEq

structure PeerNode where
  id : ℕ
  isUndefined : Bool
deriving DecidableEq

/-- `EVENT_TYPE_DATAOBJECT_SEND_SUCCESSFUL`, with its flag, and
`EVENT_TYPE_DATAOBJECT_SEND_FAILURE`. -/
inductive Verdict
  | successful (rejected : Bool)
  | failure
deriving DecidableEq

structure SendResult (D : Type) where
  element : QueueElement D
  verdict : Verdict
  node : Option PeerNode
deriving DecidableEq

/-- `QueueEvent_t`. -/
inductive QueueEvent
  | watchError
  | error
  | timeout
  | empty
  | watchRead
  | watchWrite
  | watchAbandoned
  | element
deriving DecidableEq

/-- What a branch does one after the other. -/
inductive ProtocolAction (D : Type)
  | close
  | setMode (mode : ProtocolMode)
  | closeConnection
  | addEvent (e : QueueElement D) (v : Verdict)
  | resetErrors
  | lowerExitSignal
  /-- The beginning and the end of `Thread::cleanup`. -/
  | beginCleanup
  | endCleanup
  /-- The second half of `unregisterWithManager`. -/
  | postDelete

/-- Where a thread is in `closeAndClearQueue`. -/
inductive ClearPc (D : Type)
  | test
  | retrieve
  | take
  | report (e : QueueElement D)

/-- Where a thread goes on after a branch. -/
inductive RunLabel
  | outerLoop
  | afterConnect
  | cleanup
  | dispose
  | clear
  | finished

/-- Where the thread of the protocol is. -/
inductive RunPc (D : Type)
  | off
  | run
  | outerLoop
  | connectLoop
  | connecting
  | afterConnect
  | retrieve
  | watch
  | take
  | sending (e : QueueElement D)
  | receiving
  | countError
  | acting (todo : List (ProtocolAction D)) (next : RunLabel)
  | leave
  | cleanup
  | dispose
  | clearing (pc : ClearPc D)
  | finished

/-- Where the kernel thread is in a call on the protocol. -/
inductive KernelPc (D : Type)
  | idle
  | makeElement (dObj : D) (peer : Option PeerNode)
  | insert (e : QueueElement D)
  | startTxRx
  | setDone
  | hookShutdown
  | stopThread
  | cancel
  | unregister
  | join
  | timeout
  | detach
  | detachCancel
  /-- `closeAndClearQueue`, alone or as the beginning of a deletion. -/
  | close (deleting : Bool)
  | clearing (pc : ClearPc D) (deleting : Bool)

/-- A protocol with its thread and the kernel thread. `broken` is set when a thread takes from an
empty list or uses the protocol after it was freed; there is no telling what happens then.
`accepted` has the elements for which `sendDataObject` succeeds, and `results` the events posted for
them. -/
structure Protocol (D : Type) where
  queue : GenericQueue (QueueElement D)
  mode : ProtocolMode
  connected : Bool
  peerNode : Option PeerNode
  isRegistered : Bool
  thr : Option ThreadState
  exitSignal : Bool
  detached : Bool
  numConnectTry : ℕ
  numerr : ℕ
  run : RunPc D
  kernel : KernelPc D
  inRegistry : Bool
  deleteEvents : ℕ
  killer : Bool
  deleted : Bool
  broken : Bool
  next : ℕ
  accepted : List (QueueElement D)
  results : List (SendResult D)

/-- What the surroundings answer to the thread of the protocol. -/
inductive ThreadInput
  | go
  | connectToPeer (e : ProtocolEvent)
  | wait (e : QueueEvent)
  | sendDataObjectNow (e : ProtocolEvent)
  | receiveDataObject (e : ProtocolEvent)

def RunLabel.pc {D : Type} : RunLabel → RunPc D
  | outerLoop => .outerLoop
  | afterConnect => .afterConnect
  | cleanup => .cleanup
  | dispose => .dispose
  | clear => .clearing .test
  | finished => .finished

namespace Protocol

variable {D : Type}

def isDone (s : Protocol D) : Bool := s.mode = .done

def shouldExit (s : Protocol D) : Bool := if s.thr.isSome then s.exitSignal else true

def isRunning (s : Protocol D) : Bool := s.thr = some .running

def goto (s : Protocol D) (pc : RunPc D) : Protocol D := { s with run := pc }

def addEvent (s : Protocol D) (e : QueueElement D) (v : Verdict) : Protocol D :=
  { s with results := s.results ++ [⟨e, v, s.peerNode⟩] }

def act (s : Protocol D) : ProtocolAction D → Protocol D
  | .close => { s with queue := s.queue.close }
  | .setMode mode => { s with mode := mode }
  | .closeConnection => { s with connected := false }
  | .addEvent e v => s.addEvent e v
  | .resetErrors => { s with numerr := 0 }
  | .lowerExitSignal => { s with exitSignal := false }
  | .beginCleanup => { s with thr := some .cleanup }
  | .endCleanup => { s with thr := some .stopped }
  | .postDelete => { s with isRegistered := false, deleteEvents := s.deleteEvents + 1 }

/-- One step of `closeAndClearQueue`; `none` when it is through. -/
def clearStep (s : Protocol D) : ClearPc D → Protocol D × Option (ClearPc D)
  | .test => (s, if s.queue.lst.isEmpty then none else some .retrieve)
  | .retrieve => (s, some (if s.queue.signal then .take else .test))
  | .take =>
    match s.queue.take with
    | none => ({ s with broken := true }, some .test)
    | some (e, q) => ({ s with queue := q }, some (.report e))
  | .report e => (s.addEvent e .failure, some .test)

/-! ## The branches of `run` -/

/-- `PROT_CONNECTION_ATTEMPTS`. -/
def connectionAttempts : ℕ := 4

def connectResult (s : Protocol D) : ProtocolEvent → Protocol D
  | .success => { s with connected := true, run := .afterConnect }
  | .errorFatal => s.goto (.acting [.setMode .done] .afterConnect)
  | _ =>
    { s with
      numConnectTry := s.numConnectTry + 1
      run := if s.numConnectTry + 1 = connectionAttempts then
          .acting [.close, .setMode .done] .afterConnect
        else .afterConnect }

/-- `waitForEvent` of a protocol with a socket. -/
def waitForEvent : QueueEvent → ProtocolEvent
  | .timeout => .timeout
  | .watchAbandoned => .shouldExit
  | .watchRead => .incomingData
  | .watchWrite => .writeable
  | .element => .txqNewDataObject
  | .empty => .txqEmpty
  | .watchError | .error => .error

def handleEvent : ProtocolEvent → RunPc D
  | .timeout | .shouldExit => .acting [.setMode .done, .resetErrors] .outerLoop
  | .incomingData => .receiving
  | .error => .countError
  | _ => .acting [.resetErrors] .outerLoop

/-- The end of the wait in `retrieve`. An element is only taken if the signal is up. -/
def watchResult (s : Protocol D) : QueueEvent → Protocol D
  | .element => if s.queue.signal then s.goto .take else s
  | e => s.goto (handleEvent (waitForEvent e))

def afterSend (e : QueueElement D) : ProtocolEvent → List (ProtocolAction D)
  | .success => [.addEvent e (.successful false)]
  | .reject => [.addEvent e (.successful true)]
  | .terminate | .peerClosed =>
    [.close, .setMode .done, .closeConnection, .addEvent e .failure]
  | .error => [.addEvent e .failure]
  | _ => [.close, .setMode .done, .addEvent e .failure]

def afterReceive : ProtocolEvent → RunPc D
  | .success => .acting [.resetErrors] .outerLoop
  | .peerClosed => .acting [.close, .setMode .done, .closeConnection, .resetErrors] .outerLoop
  | .error => .countError
  | _ => .acting [.close, .setMode .done, .resetErrors] .outerLoop

def closeIfConnected (s : Protocol D) : List (ProtocolAction D) :=
  if s.connected then [.closeConnection] else []

/-- A step of the thread: the run loop of the thread around `Protocol::run` and `cleanup`. -/
def runStep (s : Protocol D) (i : ThreadInput) : Protocol D :=
  match s.run with
  | .off | .finished => s
  | .run => { s with mode := .idle, numConnectTry := 0, numerr := 0, run := .outerLoop }
  | .outerLoop => s.goto (if !s.isDone && !s.shouldExit then .connectLoop else .leave)
  | .connectLoop =>
    s.goto (if !s.connected && !s.shouldExit && !s.isDone then .connecting else .retrieve)
  | .connecting =>
    match i with
    | .connectToPeer e => s.connectResult e
    | _ => s
  | .afterConnect => s.goto (if s.isDone || s.shouldExit then .leave else .connectLoop)
  | .retrieve => s.goto (if s.queue.signal then .take else .watch)
  | .watch =>
    match i with
    | .wait e => s.watchResult e
    | _ => s
  | .take =>
    match s.queue.take with
    | none => { s with broken := true }
    | some (e, q) => { s with queue := q, run := .sending e }
  | .sending e =>
    match i with
    | .sendDataObjectNow r => s.goto (.acting (afterSend e r ++ [.resetErrors]) .outerLoop)
    | _ => s
  | .receiving =>
    match i with
    | .receiveDataObject r => s.goto (afterReceive r)
    | _ => s
  | .countError =>
    { s with
      numerr := s.numerr + 1
      run := if 3 < s.numerr ∨ s.shouldExit = true then
          .acting [.close, .closeConnection, .setMode .done] .outerLoop
        else .outerLoop }
  | .acting [] next => s.goto next.pc
  | .acting (a :: todo) next => (s.goto (.acting todo next)).act a
  | .leave =>
    s.goto (.acting (s.closeIfConnected ++
      [.setMode .done, .lowerExitSignal, .beginCleanup]) .cleanup)
  | .cleanup => s.goto (.acting (s.closeIfConnected ++ [.setMode .garbage]) .dispose)
  | .dispose =>
    s.goto (if s.detached then .acting [.close] .clear
      else if s.isRegistered then .acting [.postDelete, .endCleanup] .finished
      else .acting [.endCleanup] .finished)
  | .clearing pc =>
    match s.clearStep pc with
    | (s, some pc) => s.goto (.clearing pc)
    | (s, none) => { s with deleted := true, run := .acting [.endCleanup] .finished }

end Protocol
end Haggle
