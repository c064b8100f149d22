import Haggle.Bloomfilter
import Haggle.Trace

/-!
# The data manager and its filter

The data manager keeps a counting filter of the data objects it knows. Its event handlers add,
remove and replace, and most of them publish the result as the plain filter of this node.
-/

namespace Haggle

structure DataManager where
  localBF : CountingBloomfilter
  thisNode : Bloomfilter

/-- What becomes of an object after its VERIFIED event. -/
inductive VerifiedResult where
  | discard
  | verifyData
  | insert
deriving DecidableEq

/-- What becomes of an object after the helper has looked at its data. -/
def DataManager.doTask (state : DataState) : VerifiedResult :=
  if state = .verifiedBad then .discard else .insert

namespace DataManager

variable (sha1 : Bytes → Digest)

/-- `Node::setBloomfilter` with the local filter. -/
def setBloomfilter (s : DataManager) : DataManager :=
  { s with thisNode := s.localBF.toNoncounting }

/-- An object that is not known yet goes into the filter; the result says if it is a duplicate. -/
def onIncomingDataObject (s : DataManager) (o : DataObject) : DataManager × Bool :=
  if o.controlMessage then (s, false)
  else if s.localBF.has sha1 o.id then (s, true)
  else (setBloomfilter { s with localBF := s.localBF.add sha1 o.id }, false)

def onVerifiedDataObject (s : DataManager) (o : DataObject) : DataManager × VerifiedResult :=
  if o.signatureStatus = .invalid then
    (setBloomfilter { s with localBF := s.localBF.remove sha1 o.id }, .discard)
  else if o.dataState = .verifiedBad then
    if s.localBF.has sha1 o.id then
      (setBloomfilter { s with localBF := s.localBF.remove sha1 o.id }, .discard)
    else (s, .discard)
  else if o.dataState = .notVerified ∧ o.dataIsVerifiable then (s, .verifyData)
  else (s, .insert)

/-- The deleted objects that leave the filter: node descriptions stay, and all stay if the flag of
the event is set. -/
def removedObjects (os : List DataObject) (keep : Bool) : List Digest :=
  (os.filter (fun o => !o.isNodeDesc && !keep)).map (·.id)

def onDeletedDataObject (s : DataManager) (os : List DataObject) (keep : Bool) : DataManager :=
  let ids := removedObjects os keep
  let s := { s with localBF := ids.foldl (fun bf id => bf.remove sha1 id) s.localBF }
  if ids = [] then s else setBloomfilter s

/-- The filter of an earlier run takes the place of the local one. -/
def onGetLocalBF (s : DataManager) (bf : CountingBloomfilter) : DataManager :=
  setBloomfilter { s with localBF := bf }

/-- A configuration with a default error rate or capacity makes a new filter of that shape. The
filter of this node is not touched. -/
def onConfig (s : DataManager) (shape : Option FilterShape) : DataManager :=
  match shape with
  | none => s
  | some shape => { s with localBF := CountingBloomfilter.new shape }

def start (shape : FilterShape) : DataManager :=
  ⟨CountingBloomfilter.new shape, Bloomfilter.new shape⟩

end DataManager
end Haggle
