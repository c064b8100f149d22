import Haggle.PutData
import Haggle.Trace

/-!
# The security manager

What the manager does with incoming and received data objects, the tasks of its helper thread and
their results. OpenSSL decides whether certificates and signatures are valid.
-/

namespace Haggle

inductive SecurityLevel where
  | low
  | medium
  | high
deriving DecidableEq

structure Certificate where
  subject : Bytes
  pubKey : Bytes
  signature : Bytes
deriving DecidableEq

/-- The parts of OpenSSL that the manager uses: reading a certificate, checking it with the public
key of the CA, and checking the signature of an identifier. -/
structure OpenSSL where
  fromPEM : Bytes → Option Certificate
  verifyCertificate : Certificate → Bool
  verifySignature : Bytes → Digest → Bytes → Bool

/-- A data object as it comes from the network: its signature was not checked by anyone. -/
structure NetworkObject where
  obj : DataObject
  status : obj.signatureStatus = .missing ∨ obj.signatureStatus = .unverified

inductive SecurityTask where
  | generateCertificate (cert : Option Certificate)
  | verifyCertificate (o : DataObject)
  | verifyDataObject (o : DataObject) (remote : Bool)

/-- A posted `EVENT_TYPE_DATAOBJECT_VERIFIED`, with the level at that time. -/
structure VerifiedEvent where
  obj : DataObject
  remote : Bool
  level : SecurityLevel

/-- The manager with the queue of its helper, the tasks that were returned and the events that were
posted. `stored` records every certificate that was put into the store. -/
structure SecurityManager where
  securityLevel : SecurityLevel
  certStore : List (Bytes × Certificate)
  tasks : List SecurityTask
  completed : List SecurityTask
  verified : List VerifiedEvent
  stored : List Certificate

def SecurityLevel.rank : SecurityLevel → ℕ
  | low => 0
  | medium => 1
  | high => 2

/-- The objects whose signature is checked at a level. -/
def SecurityLevel.requires (level : SecurityLevel) (o : DataObject) : Bool :=
  (o.isNodeDesc && decide (low.rank < level.rank)) || decide (medium.rank < level.rank)

/-- The objects that wait for the helper when they are received. -/
def SecurityLevel.verifies (level : SecurityLevel) (o : DataObject) : Bool :=
  decide (o.signatureStatus = .unverified) && level.requires o

/-- The names that `onConfig` compares with, after the conversion to upper case. -/
def SecurityLevel.ofName (name : Bytes) : Option SecurityLevel :=
  let upper := name.map (fun c => if 97 ≤ c ∧ c ≤ 122 then c - 32 else c)
  if upper = lit "HIGH" then some high
  else if upper = lit "MEDIUM" then some medium
  else if upper = lit "LOW" then some low
  else none

namespace SecurityManager

variable (ssl : OpenSSL)

def storeCertificate (s : SecurityManager) (cert : Certificate) (replace : Bool) :
    SecurityManager :=
  if (AssocList.get s.certStore cert.subject).isSome ∧ replace = false then s
  else
    { s with
      certStore := AssocList.set cert.subject cert s.certStore
      stored := s.stored ++ [cert] }

def retrieveCertificate (s : SecurityManager) (subject : Bytes) : Option Certificate :=
  AssocList.get s.certStore subject

/-- The certificate embedded in the metadata of an object. -/
def embeddedCertificate (o : DataObject) : Option Metadata :=
  (o.metadata.bind (·.getMetadata (lit "Security"))).bind (·.getMetadata (lit "Certificate"))

def onIncomingDataObject (s : SecurityManager) (o : DataObject) (duplicate : Bool) :
    SecurityManager :=
  if duplicate = false ∧ (embeddedCertificate o).isSome then
    { s with tasks := s.tasks ++ [.verifyCertificate o] }
  else s

def onReceivedDataObject (s : SecurityManager) (o : DataObject) (remote duplicate : Bool) :
    SecurityManager :=
  if duplicate then s
  else if s.securityLevel.verifies o then
    { s with tasks := s.tasks ++ [.verifyDataObject o remote] }
  else { s with verified := s.verified ++ [⟨o, remote, s.securityLevel⟩] }

/-- `verifyDataObject` of the helper. Without a signature the status stays as it is. -/
def verifyDataObject (o : DataObject) (cert : Certificate) : DataObject :=
  match o.signature with
  | none => o
  | some sig =>
    { o with signatureStatus :=
        if ssl.verifySignature cert.pubKey o.id sig then .valid else .invalid }

/-- `doTask` of the helper, and the task that it returns to the manager. -/
def doTask (s : SecurityManager) : SecurityTask → SecurityManager × SecurityTask
  | .generateCertificate cert =>
    (match cert with
      | none => s
      | some c => s.storeCertificate c false, .generateCertificate cert)
  | .verifyCertificate o =>
    (match (embeddedCertificate o).bind (fun m => ssl.fromPEM m.content) with
      | none => s
      | some c => if ssl.verifyCertificate c then s.storeCertificate c true else s,
      .verifyCertificate o)
  | .verifyDataObject o remote =>
    match s.retrieveCertificate o.signee with
    | none => (s, .verifyDataObject o remote)
    | some cert => (s, .verifyDataObject (verifyDataObject ssl o cert) remote)

/-- An object with a bad signature is dropped without an event. -/
def onSecurityTaskComplete (s : SecurityManager) : SecurityTask → SecurityManager
  | .verifyDataObject o remote =>
    if o.signatureStatus = .valid then
      { s with verified := s.verified ++ [⟨o, remote, s.securityLevel⟩] }
    else s
  | _ => s

/-- What happens to the manager: events, work of the helper on any of its tasks, and tasks that are
returned in any order. -/
inductive Action where
  | incoming (o : DataObject) (duplicate : Bool)
  | received (o : NetworkObject) (duplicate : Bool)
  | receivedLocal (o : DataObject) (duplicate : Bool)
  | runTask (i : ℕ)
  | taskComplete (i : ℕ)
  | repository (certs : List Certificate)
  | generate (cert : Option Certificate)
  | config (level : Bytes)

def step (s : SecurityManager) : Action → SecurityManager
  | .incoming o dup => s.onIncomingDataObject o dup
  | .received o dup => s.onReceivedDataObject o.obj true dup
  | .receivedLocal o dup => s.onReceivedDataObject o false dup
  | .runTask i =>
    match s.tasks[i]? with
    | none => s
    | some t =>
      let r := doTask ssl { s with tasks := s.tasks.eraseIdx i } t
      { r.1 with completed := r.1.completed ++ [r.2] }
  | .taskComplete i =>
    match s.completed[i]? with
    | none => s
    | some t => { s with completed := s.completed.eraseIdx i }.onSecurityTaskComplete t
  | .repository certs => certs.foldl (fun s c => s.storeCertificate c false) s
  | .generate cert => { s with tasks := s.tasks ++ [.generateCertificate cert] }
  | .config level =>
    { s with securityLevel := (SecurityLevel.ofName level).getD s.securityLevel }

def start (level : SecurityLevel) : SecurityManager := ⟨level, [], [], [], [], []⟩

end SecurityManager

/-! ### Objects of the network -/

namespace DataObject

theorem signatureStatus_parseMetadata (pf : Platform) (fs : FileSystem) {o : DataObject}
    (fromNetwork : Bool) (ho : o.signatureStatus = .missing) :
    (parseMetadata pf fs o fromNetwork).1.signatureStatus = .missing ∨
      (parseMetadata pf fs o fromNetwork).1.signatureStatus = .unverified := by
  have hstable : Stable
      (fun o => o.signatureStatus = .missing ∨ o.signatureStatus = .unverified) := by
    constructor <;> intros <;> first | assumption | exact Or.inr rfl
  exact hstable.parseMetadata pf fs fromNetwork (Or.inl ho)

/-- What the parser makes of a received header. -/
theorem signatureStatus_completeHeader {pf : Platform} {fs : FileSystem} {o parsed : DataObject}
    {header : Bytes} (h : completeHeader pf fs o header = (parsed, true))
    (ho : o.signatureStatus = .missing) :
    parsed.signatureStatus = .missing ∨ parsed.signatureStatus = .unverified := by
  unfold completeHeader at h
  split at h
  · simp at h
  · rename_i m hm
    split_ifs at h
    · simp at h
    · have hs := signatureStatus_parseMetadata pf fs (o := { o with metadata := some m }) true ho
      split at h
      · simp at h
      · rename_i heq
        rw [heq] at hs
        simp only [Prod.mk.injEq, and_true] at h
        exact h ▸ hs

end DataObject

/-- The object that a received header is parsed into. -/
def NetworkObject.ofHeader {pf : Platform} {fs : FileSystem} {storage hash header : Bytes}
    {parsed : DataObject}
    (h : (DataObject.new storage hash pf.plainChar).completeHeader pf fs header = (parsed, true)) :
    NetworkObject where
  obj := parsed
  status := DataObject.signatureStatus_completeHeader h rfl

namespace Sample

def unsigned : NetworkObject := ⟨DataObject.new (lit "/s") [], Or.inl rfl⟩

def signed : NetworkObject :=
  ⟨(DataObject.new (lit "/s") []).setSignature (lit "n") (lit "k"), Or.inr rfl⟩

end Sample
end Haggle
