import Haggle.Address
import Haggle.SendUniqueness

/-!
# Dispatching a data object to its targets

For each target the protocol manager chooses an interface of the node, and then a protocol for the
first address of the interface that there is one for: one that is registered, or a new one on the
first interface of the interface store. Then the data object is queued with the protocol, or, with
the protocol for applications, sent at once.
-/

namespace Haggle
namespace SendDispatch

open SendUniqueness

section Interfaces

/-- What the manager is compiled with. -/
structure Options extends Config where
  media : Bool
  unixApplicationSocket : Bool

/-- An interface of a target. -/
structure TargetInterface where
  ref : InterfaceRef
  addresses : List Address

namespace TargetInterface

def type (i : TargetInterface) : InterfaceType := i.ref.iface.type

def isUp (i : TargetInterface) : Bool := i.ref.iface.isUp

def isApplication (i : TargetInterface) : Bool :=
  i.type = .applicationPort || i.type = .applicationLocal

/-- `getAddress<T>`. -/
def hasAddress (i : TargetInterface) (type : AddressType) : Bool :=
  i.addresses.any fun a => a.type = type

variable (opt : Options)

/-- `getAddress<IPv4Address>() || getAddress<IPv6Address>()`. -/
def hasInternet (i : TargetInterface) : Bool :=
  i.hasAddress .ipv4 || opt.ipv6 && i.hasAddress .ipv6

end TargetInterface

/-- A node that a data object is sent to, with its interfaces. -/
structure Target where
  ref : NodeRef
  interfaces : List TargetInterface

variable (opt : Options)

/-- A round of the loop over the interfaces of a target: the interface so far, and whether the loop
is done. -/
def chooseStep (application : Bool) (peerIface : Option TargetInterface) (iface : TargetInterface) :
    Option TargetInterface × Bool :=
  if !iface.isUp || iface.addresses.isEmpty then (peerIface, false)
  else
    match iface.type with
    | .bluetooth =>
      if opt.bluetooth && iface.hasAddress .bluetooth &&
          peerIface.all (fun p => p.type ≠ .ethernet && p.type ≠ .wifi) then
        (some iface, false)
      else (peerIface, false)
    | .ethernet =>
      if opt.ethernet && iface.hasInternet opt &&
          peerIface.all (fun p => p.type = .bluetooth || p.type = .wifi) then
        (some iface, false)
      else (peerIface, false)
    | .wifi =>
      if opt.ethernet && iface.hasInternet opt &&
          peerIface.all (fun p => p.type = .bluetooth && p.type ≠ .ethernet) then
        (some iface, false)
      else (peerIface, false)
    | .applicationPort | .applicationLocal =>
      if iface.hasInternet opt && application then (some iface, true) else (peerIface, false)
    | .media | .undefined => (peerIface, false)

/-- The loop over the interfaces. -/
def chooseFrom (application : Bool) :
    Option TargetInterface → List TargetInterface → Option TargetInterface
  | peerIface, [] => peerIface
  | peerIface, iface :: l =>
    let (peerIface, done) := chooseStep opt application peerIface iface
    if done then peerIface else chooseFrom application peerIface l

def Target.choose (t : Target) : Option TargetInterface :=
  chooseFrom opt (t.ref.node.type = .application) none t.interfaces

end Interfaces

section Protocols

inductive ProtocolType
  | «local»
  | udp
  | tcp
  | rfcomm
  | media
deriving DecidableEq

/-- A protocol in the registry. -/
structure Registered where
  type : ProtocolType
  isSender : Bool
  localIface : Option InterfaceRef
  peerIface : Option InterfaceRef
  sender : SendUniqueness.Sender

/-- `isForInterface`, and that of the protocol for applications. -/
def Registered.isForInterface (p : Registered) (iface : InterfaceRef) : Bool :=
  if p.type = .udp then
    iface.iface.type = .applicationPort && p.localIface.any (·.iface.type = .applicationPort) ||
      p.peerIface.any iface.same
  else p.localIface.any iface.same || p.peerIface.any iface.same

inductive Posted
  | sendFailure (target : NodeRef)
  | sendSuccessful (target : NodeRef)

/-- The registry in the order of the identifiers, so that a new protocol comes last, the interface
store, and the events. -/
structure State where
  registry : List Registered
  interfaces : List InterfaceRef
  events : List Posted

/-- What comes of a target: the node that each new protocol finds for its peer (nothing if it cannot
be initialized or registered), and whether a data object that is sent at once arrives. -/
structure Answers where
  created : ℕ → Option NodeRef
  arrives : Bool

variable (opt : Options)

/-- The protocol that `getSenderProtocol` makes. The interface store is asked with a criterion that
it does not use, and gives all its interfaces. -/
def newProtocol (type : ProtocolType) (localIface peerIface : InterfaceRef) (peerNode : NodeRef) :
    Option Registered :=
  let sender : SendUniqueness.Sender := ⟨.idle, some peerNode, SignalQueue.new, 0⟩
  match type with
  | .rfcomm => if opt.bluetooth then some ⟨type, true, localIface, peerIface, sender⟩ else none
  | .tcp => some ⟨type, true, localIface, peerIface, sender⟩
  | .media => if opt.media then some ⟨type, true, none, peerIface, sender⟩ else none
  | .local | .udp => none

/-- `getSenderProtocol`: the position of the protocol in the registry. -/
def getSenderProtocol (type : ProtocolType) (peerIface : InterfaceRef) (created : Option NodeRef)
    (s : State) : State × Option ℕ :=
  match s.registry.findIdx? fun p => p.isSender && p.type = type && p.isForInterface peerIface &&
      p.sender.mode = .idle with
  | some i => (s, some i)
  | none =>
    match s.interfaces.head?.bind fun localIface =>
        created.bind (newProtocol opt type localIface peerIface) with
    | none => (s, none)
    | some p => ({ s with registry := s.registry ++ [p] }, some s.registry.length)

/-- The type of protocol for an address. -/
def protocolFor (iface : TargetInterface) (a : Address) : Option ProtocolType :=
  match a.type with
  | .bluetooth => if opt.bluetooth then some .rfcomm else none
  | .ipv4 =>
    if iface.isApplication then some (if opt.unixApplicationSocket then .local else .udp)
    else some .tcp
  | .ipv6 =>
    if !opt.ipv6 then none
    else if iface.isApplication then some (if opt.unixApplicationSocket then .local else .udp)
    else some .tcp
  | .filepath => if opt.media then some .media else none
  | _ => none

/-- The loop over the addresses of the chosen interface. -/
def findProtocol (iface : TargetInterface) :
    List Address → (ℕ → Option NodeRef) → State → State × Option ℕ
  | [], _, s => (s, none)
  | a :: l, created, s =>
    match protocolFor opt iface a with
    | none => findProtocol iface l (fun n => created (n + 1)) s
    | some type =>
      match getSenderProtocol opt type iface.ref (created 0) s with
      | (s, some i) => (s, some i)
      | (s, none) => findProtocol iface l (fun n => created (n + 1)) s

/-- `sendDataObject` of a protocol: the protocol behind it, whether it has succeeded, and the events
that it posts itself. -/
def Registered.send (dObj : DataObjectRef) (target : NodeRef) (iface : InterfaceRef)
    (arrives : Bool) (p : Registered) : Registered × Bool × List Posted :=
  if p.type = .udp then
    let sent := p.peerIface.isNone && arrives
    ({ p with peerIface := none }, sent, if sent then [.sendSuccessful target] else [])
  else
    let (sender, sent) := sendDataObject dObj target iface p.sender
    ({ p with sender := sender }, sent, [])

def State.post (s : State) (l : List Posted) : State := { s with events := s.events ++ l }

/-- A target is served. -/
def sendTo (dObj : DataObjectRef) (target : Target) (ans : Answers) (s : State) : State :=
  match target.choose opt with
  | none => s.post [.sendFailure target.ref]
  | some iface =>
    match findProtocol opt iface iface.addresses ans.created s with
    | (s, none) => s.post [.sendFailure target.ref]
    | (s, some i) =>
      match s.registry[i]? with
      | none => s
      | some p =>
        let (p, sent, posted) := p.send dObj target.ref iface.ref ans.arrives
        State.post { s with registry := s.registry.set i p }
          (if sent then posted else posted ++ [.sendFailure target.ref])

/-- `onSendDataObjectActual`. -/
def onSendDataObjectActual (dObj : DataObjectRef) :
    List (Option Target × Answers) → State → State
  | [], s => s
  | (none, _) :: l, s => onSendDataObjectActual dObj l s
  | (some target, ans) :: l, s =>
    onSendDataObjectActual dObj l (sendTo opt dObj target ans s)

end Protocols

section Choice

variable {opt : Options}

/-- An interface that a node other than an application can be reached by. -/
def Usable (opt : Options) (i : TargetInterface) : Bool :=
  i.isUp &&
    match i.type with
    | .bluetooth => opt.bluetooth && i.hasAddress .bluetooth
    | .ethernet | .wifi => opt.ethernet && i.hasInternet opt
    | _ => false

/-- Ethernet before WiFi before Bluetooth. -/
def rank : InterfaceType → ℕ
  | .ethernet => 0
  | .wifi => 1
  | .bluetooth => 2
  | _ => 3

/-- The best of the interfaces that a loop has seen. -/
structure Best (opt : Options) (seen : List TargetInterface) (i : TargetInterface) : Prop where
  mem : i ∈ seen
  usable : Usable opt i = true
  best : ∀ j ∈ seen, Usable opt j = true → rank i.type ≤ rank j.type

def BestOf (opt : Options) (seen : List TargetInterface) : Option TargetInterface → Prop
  | none => ∀ j ∈ seen, Usable opt j = false
  | some i => Best opt seen i

theorem isEmpty_of_usable {i : TargetInterface} (h : Usable opt i = true) :
    i.addresses.isEmpty = false := by
  cases ha : i.addresses with
  | nil =>
    have hnone : ∀ t, i.hasAddress t = false := fun t => by simp [TargetInterface.hasAddress, ha]
    unfold Usable TargetInterface.hasInternet at h
    cases ht : i.type <;> simp [ht, hnone] at h
  | cons a l => rfl

theorem type_of_usable {i : TargetInterface} (h : Usable opt i = true) :
    i.type = .ethernet ∨ i.type = .wifi ∨ i.type = .bluetooth := by
  unfold Usable at h
  cases ht : i.type <;> simp [ht] at h ⊢

/-- The form of the three branches: the interface is usable, and a test of the one so far says that
it is no worse, or that the other is no worse. -/
theorem take_or_keep {p : Option TargetInterface} {i : TargetInterface} {usable : Bool}
    {test : TargetInterface → Bool} {k : ℕ} (htake : ∀ q ∈ p, test q = true → k ≤ rank q.type)
    (hkeep : ∀ q ∈ p, test q = false → rank q.type ≤ k) :
    (if usable && p.all test then (some i, false) else (p, false)) = (some i, false) ∧
        usable = true ∧ (∀ q ∈ p, k ≤ rank q.type) ∨
      (if usable && p.all test then (some i, false) else (p, false)) = (p, false) ∧
        (usable = true → ∃ q ∈ p, rank q.type ≤ k) := by
  by_cases hc : (usable && p.all test) = true
  · rw [Bool.and_eq_true] at hc
    refine .inl ⟨if_pos (Bool.and_eq_true _ _ ▸ hc), hc.1, fun q hq => htake q hq ?_⟩
    obtain ⟨-, hall⟩ := hc
    rw [Option.mem_def.mp hq] at hall
    exact hall
  · refine .inr ⟨if_neg hc, fun hu => ?_⟩
    rw [hu, Bool.true_and] at hc
    cases p with
    | none => exact absurd rfl hc
    | some q => exact ⟨q, rfl, hkeep q rfl (Bool.not_eq_true _ ▸ hc)⟩

/-- A round keeps the interface so far or takes the next one, and takes it only if it is usable and
no worse, and keeps the other only if that is no worse. -/
theorem chooseStep_cases {p : Option TargetInterface} (hp : ∀ q ∈ p, Usable opt q = true)
    (i : TargetInterface) :
    chooseStep opt false p i = (some i, false) ∧ Usable opt i = true ∧
        (∀ q ∈ p, rank i.type ≤ rank q.type) ∨
      chooseStep opt false p i = (p, false) ∧
        (Usable opt i = true → ∃ q ∈ p, rank q.type ≤ rank i.type) := by
  by_cases hup : (!i.isUp || i.addresses.isEmpty) = true
  · refine .inr ⟨if_pos hup, fun hu => ?_⟩
    have hempty := isEmpty_of_usable hu
    rw [Usable, Bool.and_eq_true] at hu
    rw [hu.1, hempty] at hup
    cases hup
  · have hisUp : i.isUp = true := by
      rw [Bool.or_eq_true, not_or, Bool.not_eq_true', Bool.not_eq_false] at hup
      exact hup.1
    have htype : ∀ q ∈ p, q.type = .ethernet ∨ q.type = .wifi ∨ q.type = .bluetooth :=
      fun q hq => type_of_usable (hp q hq)
    rw [chooseStep, if_neg hup]
    unfold Usable
    rw [hisUp, Bool.true_and]
    cases ht : i.type with
    | bluetooth | ethernet | wifi =>
      refine take_or_keep (fun q hq htest => ?_) fun q hq htest => ?_
      all_goals
        rcases htype q hq with hq | hq | hq <;> rw [hq] at htest ⊢ <;>
          first | decide | exact absurd htest (by decide)
    | applicationPort | applicationLocal =>
      rw [Bool.and_false]
      exact .inr ⟨rfl, nofun⟩
    | media | undefined => exact .inr ⟨rfl, nofun⟩

theorem bestOf_chooseFrom {p : Option TargetInterface} {seen : List TargetInterface}
    (l : List TargetInterface) (h : BestOf opt seen p) :
    BestOf opt (seen ++ l) (chooseFrom opt false p l) := by
  induction l generalizing p seen with
  | nil => rwa [List.append_nil]
  | cons i l ih =>
    have hp : ∀ q ∈ p, Usable opt q = true := by
      rintro q hq
      rw [Option.mem_def.mp hq] at h
      exact h.usable
    rw [List.append_cons, chooseFrom]
    rcases chooseStep_cases hp i with ⟨heq, hu, hle⟩ | ⟨heq, hkeep⟩
    · rw [heq]
      refine ih ⟨List.mem_append_right _ (List.mem_singleton_self i), hu, fun j hj huj => ?_⟩
      rcases List.mem_append.mp hj with hj | hj
      · cases p with
        | none => exact absurd huj (Bool.eq_false_iff.mp (h j hj))
        | some q => exact (hle q rfl).trans (h.best j hj huj)
      · rw [List.mem_singleton.mp hj]
    · rw [heq]
      refine ih ?_
      cases p with
      | none =>
        intro j hj
        rcases List.mem_append.mp hj with hj | hj
        · exact h j hj
        · rw [List.mem_singleton.mp hj]
          refine Bool.eq_false_iff.mpr fun hu => ?_
          obtain ⟨q, hq, -⟩ := hkeep hu
          cases hq
      | some q =>
        refine ⟨List.mem_append_left _ h.mem, h.usable, fun j hj huj => ?_⟩
        rcases List.mem_append.mp hj with hj | hj
        · exact h.best j hj huj
        · rw [List.mem_singleton.mp hj] at huj ⊢
          obtain ⟨q', hq', hle⟩ := hkeep huj
          obtain rfl := Option.some.inj hq'
          exact hle

theorem bestOf_choose (opt : Options) {t : Target} (ht : t.ref.node.type ≠ .application) :
    BestOf opt t.interfaces (t.choose opt) := by
  have h := @bestOf_chooseFrom opt none [] t.interfaces nofun
  rwa [List.nil_append, ← decide_eq_false ht] at h

end Choice

section Outcomes

/-- What comes of a target: the data object is in the queue of a protocol, it has been sent at once,
or a failure is reported. -/
inductive Outcome
  | queued (target : NodeRef) (iface : InterfaceRef) (protocol : ℕ)
  | sent (target : NodeRef)
  | failed (target : NodeRef)

namespace Outcome

/-- The event that is posted. -/
def posted : Outcome → Option Posted
  | queued .. => none
  | sent target => some (.sendSuccessful target)
  | failed target => some (.sendFailure target)

/-- The element that the queue of a protocol gets. -/
def element (dObj : DataObjectRef) (i : ℕ) : Outcome → Option Element
  | queued target iface j => if i = j then some ⟨dObj, target, iface⟩ else none
  | _ => none

def protocol : Outcome → Option ℕ
  | queued _ _ i => some i
  | _ => none

def IsSent : Outcome → Prop
  | sent _ => True
  | _ => False

/-- An outcome for a target is about this target and the interface that was chosen for it, and only
for an application it may be that the data object has been sent. -/
def For (opt : Options) (t : Target) : Outcome → Prop
  | queued target iface _ => target = t.ref ∧ ∃ j ∈ t.choose opt, iface = j.ref
  | sent target => target = t.ref ∧ ∃ j ∈ t.choose opt, j.isApplication = true
  | failed target => target = t.ref

end Outcome

/-- The elements in the queue of a protocol. -/
def queueOf (s : State) (i : ℕ) : List Element :=
  (s.registry[i]?.map fun p => p.sender.queue.lst.map Pointer.element).getD []

def SenderAt (s : State) (i : ℕ) : Prop := ∃ p ∈ s.registry[i]?, p.isSender = true

/-- The second state is the first one after these outcomes and nothing else. -/
structure Accounts (dObj : DataObjectRef) (s s' : State) (l : List Outcome) : Prop where
  events : s'.events = s.events ++ l.filterMap Outcome.posted
  queues : ∀ i, queueOf s' i = queueOf s i ++ l.filterMap (Outcome.element dObj i)
  kept : ∀ i, SenderAt s i → SenderAt s' i
  senders : ∀ o ∈ l, ∀ i ∈ o.protocol, SenderAt s' i

variable {dObj : DataObjectRef} {s s₁ s₂ : State}

theorem Accounts.refl (dObj : DataObjectRef) (s : State) : Accounts dObj s s [] where
  events := (List.append_nil _).symm
  queues _ := (List.append_nil _).symm
  kept _ := id
  senders _ ho := absurd ho List.not_mem_nil

theorem Accounts.trans {l₁ l₂ : List Outcome} (h₁ : Accounts dObj s s₁ l₁)
    (h₂ : Accounts dObj s₁ s₂ l₂) : Accounts dObj s s₂ (l₁ ++ l₂) where
  events := by rw [h₂.events, h₁.events, List.filterMap_append, List.append_assoc]
  queues i := by rw [h₂.queues i, h₁.queues i, List.filterMap_append, List.append_assoc]
  kept i hi := h₂.kept i (h₁.kept i hi)
  senders o ho i hi := by
    rcases List.mem_append.mp ho with ho | ho
    · exact h₂.kept i (h₁.senders o ho i hi)
    · exact h₂.senders o ho i hi

theorem Accounts.fail (dObj : DataObjectRef) (s : State) (target : NodeRef) :
    Accounts dObj s (s.post [.sendFailure target]) [.failed target] where
  events := rfl
  queues _ := (List.append_nil _).symm
  kept _ := id
  senders o ho i hi := by
    rw [List.mem_singleton.mp ho] at hi
    cases hi

theorem accounts_register {p : Registered} (hp : p.sender.queue.lst = []) :
    Accounts dObj s { s with registry := s.registry ++ [p] } [] where
  events := (List.append_nil _).symm
  queues i := by
    rw [List.filterMap_nil, List.append_nil, queueOf, queueOf]
    rcases lt_trichotomy i s.registry.length with hi | rfl | hi
    · rw [List.getElem?_append_left hi]
    · rw [List.getElem?_concat_length, List.getElem?_eq_none le_rfl, Option.map_some, hp]
      rfl
    · rw [List.getElem?_eq_none hi.le, List.getElem?_eq_none]
      rw [List.length_append, List.length_singleton]
      exact hi
  kept i := by
    rintro ⟨p', hp', his⟩
    obtain ⟨hi, -⟩ := List.getElem?_eq_some_iff.mp (Option.mem_def.mp hp')
    refine ⟨p', ?_, his⟩
    rwa [Option.mem_def, List.getElem?_append_left hi]
  senders _ ho := absurd ho List.not_mem_nil

theorem filterMap_singleton {α β : Type} (f : α → Option β) (a : α) :
    [a].filterMap f = (f a).toList := by
  rw [List.filterMap_cons]
  cases f a <;> rfl

theorem element_of_ne {o : Outcome} {i j : ℕ} (h : ∀ k ∈ o.protocol, k = i) (hij : i ≠ j) :
    o.element dObj j = none := by
  cases o with
  | queued target iface k => exact if_neg fun hjk => hij ((h k rfl).symm.trans hjk.symm)
  | sent target => rfl
  | failed target => rfl

/-- A protocol is replaced, which has the element of an outcome in its queue. -/
theorem accounts_set {p₀ p : Registered} {i : ℕ} {o : Outcome} {posted : List Posted}
    (hp₀ : s.registry[i]? = some p₀) (hsender : p.isSender = true)
    (hqueue : p.sender.queue.lst.map Pointer.element =
      p₀.sender.queue.lst.map Pointer.element ++ (o.element dObj i).toList)
    (hprotocol : ∀ j ∈ o.protocol, j = i) (hposted : posted = o.posted.toList) :
    Accounts dObj s (State.post { s with registry := s.registry.set i p } posted) [o] := by
  obtain ⟨hi, -⟩ := List.getElem?_eq_some_iff.mp hp₀
  refine ⟨?_, fun j => ?_, fun j => ?_, fun o' ho' j hj => ?_⟩
  · rw [filterMap_singleton, ← hposted]
    rfl
  · rw [filterMap_singleton, queueOf, queueOf, State.post]
    by_cases hij : i = j
    · obtain rfl := hij
      rw [List.getElem?_set_self hi, hp₀]
      exact hqueue
    · rw [element_of_ne hprotocol hij, List.getElem?_set_ne hij]
      exact (List.append_nil _).symm
  · rintro ⟨p', hp', his⟩
    by_cases hij : i = j
    · obtain rfl := hij
      exact ⟨p, List.getElem?_set_self hi, hsender⟩
    · exact ⟨p', (List.getElem?_set_ne hij).trans hp', his⟩
  · rw [List.mem_singleton.mp ho'] at hj
    obtain rfl := hprotocol j hj
    exact ⟨p, List.getElem?_set_self hi, hsender⟩

/-- The protocol that is found is a sender protocol of the type. -/
theorem getSenderProtocol_spec (opt : Options) (type : ProtocolType) (peerIface : InterfaceRef)
    (created : Option NodeRef) (s : State) :
    Accounts dObj s (getSenderProtocol opt type peerIface created s).1 [] ∧
      ∀ i ∈ (getSenderProtocol opt type peerIface created s).2,
        ∃ p, (getSenderProtocol opt type peerIface created s).1.registry[i]? = some p ∧
          p.isSender = true ∧ p.type = type := by
  unfold getSenderProtocol
  split
  · rename_i i hi
    refine ⟨.refl dObj s, ?_⟩
    rintro _ ⟨⟩
    obtain ⟨hlt, htest, -⟩ := List.findIdx?_eq_some_iff_getElem.mp hi
    rw [Bool.and_eq_true, Bool.and_eq_true, Bool.and_eq_true, decide_eq_true_eq] at htest
    exact ⟨_, List.getElem?_eq_getElem hlt, htest.1.1.1, htest.1.1.2⟩
  · split
    · exact ⟨.refl dObj s, nofun⟩
    · rename_i p hp
      obtain ⟨localIface, -, hp⟩ := Option.bind_eq_some_iff.mp hp
      obtain ⟨peerNode, -, hp⟩ := Option.bind_eq_some_iff.mp hp
      have hnew : p.isSender = true ∧ p.type = type ∧ p.sender.queue.lst = [] := by
        unfold newProtocol at hp
        split at hp
        all_goals
          first
          | cases hp
          | split_ifs at hp
        all_goals
          first
          | exact ⟨rfl, rfl, rfl⟩
          | (obtain rfl := Option.some.inj hp; exact ⟨rfl, rfl, rfl⟩)
      refine ⟨accounts_register hnew.2.2, ?_⟩
      rintro _ ⟨⟩
      exact ⟨p, List.getElem?_concat_length, hnew.1, hnew.2.1⟩

theorem isApplication_of_protocolFor {opt : Options} {iface : TargetInterface} {a : Address}
    (h : protocolFor opt iface a = some .udp) : iface.isApplication = true := by
  by_contra happ
  unfold protocolFor at h
  simp only [if_neg happ] at h
  split at h
  all_goals
    first
    | cases h
    | (split_ifs at h; cases h)

theorem findProtocol_spec (opt : Options) (iface : TargetInterface) (l : List Address)
    (created : ℕ → Option NodeRef) (s : State) :
    Accounts dObj s (findProtocol opt iface l created s).1 [] ∧
      ∀ i ∈ (findProtocol opt iface l created s).2,
        ∃ p, (findProtocol opt iface l created s).1.registry[i]? = some p ∧
          p.isSender = true ∧ (p.type = .udp → iface.isApplication = true) := by
  induction l generalizing created s with
  | nil => exact ⟨.refl dObj s, nofun⟩
  | cons a l ih =>
    rw [findProtocol]
    cases ha : protocolFor opt iface a with
    | none => exact ih _ s
    | some type =>
      obtain ⟨hacc, hfound⟩ := @getSenderProtocol_spec dObj opt type iface.ref (created 0) s
      dsimp only
      generalize getSenderProtocol opt type iface.ref (created 0) s = r at hacc hfound ⊢
      obtain ⟨s', i⟩ := r
      cases i with
      | none =>
        obtain ⟨hacc', hfound'⟩ := ih (fun n => created (n + 1)) s'
        exact ⟨hacc.trans hacc', hfound'⟩
      | some i =>
        refine ⟨hacc, ?_⟩
        rintro _ ⟨⟩
        obtain ⟨p, hp, his, ht⟩ := hfound i rfl
        refine ⟨p, hp, his, fun hudp => @isApplication_of_protocolFor opt iface a ?_⟩
        rw [ha, ← hudp, ht]

/-- What the chosen protocol makes of the data object. -/
theorem send_spec {opt : Options} {target : Target} {iface : TargetInterface} {i : ℕ}
    {p : Registered} (hchoose : target.choose opt = some iface) (hp : s.registry[i]? = some p)
    (hsender : p.isSender = true) (happ : p.type = .udp → iface.isApplication = true)
    (arrives : Bool) :
    ∃ o, Outcome.For opt target o ∧
      Accounts dObj s
        (State.post
          { s with registry := s.registry.set i (p.send dObj target.ref iface.ref arrives).1 }
          (if (p.send dObj target.ref iface.ref arrives).2.1 then
            (p.send dObj target.ref iface.ref arrives).2.2
          else (p.send dObj target.ref iface.ref arrives).2.2 ++ [Posted.sendFailure target.ref]))
        [o] := by
  by_cases hudp : p.type = .udp
  · rw [Registered.send, if_pos hudp]
    dsimp only
    cases p.peerIface.isNone && arrives with
    | true =>
      refine ⟨.sent target.ref, ⟨rfl, iface, hchoose, happ hudp⟩, ?_⟩
      exact accounts_set hp hsender (List.append_nil _).symm nofun rfl
    | false =>
      refine ⟨.failed target.ref, rfl, ?_⟩
      exact accounts_set hp hsender (List.append_nil _).symm nofun rfl
  · rw [Registered.send, if_neg hudp]
    have hcases := sendDataObject_cases p.sender dObj target.ref iface.ref
    generalize sendDataObject dObj target.ref iface.ref p.sender = r at hcases
    obtain ⟨sender, sent⟩ := r
    rcases hcases with ⟨hsent, hq⟩ | ⟨hsent, hq⟩
    · obtain rfl := hsent
      refine ⟨.queued target.ref iface.ref i, ⟨rfl, iface, hchoose, rfl⟩, ?_⟩
      refine accounts_set hp hsender ?_ (fun j hj => (Option.some.inj hj).symm) rfl
      rw [hq, List.map_append, Outcome.element, if_pos rfl]
      rfl
    · obtain rfl := hsent
      refine ⟨.failed target.ref, rfl, accounts_set hp hsender ?_ nofun rfl⟩
      rw [hq]
      exact (List.append_nil _).symm

/-- Serving a target has one outcome. -/
theorem sendTo_spec (opt : Options) (dObj : DataObjectRef) (target : Target) (ans : Answers)
    (s : State) :
    ∃ o, Outcome.For opt target o ∧ Accounts dObj s (sendTo opt dObj target ans s) [o] := by
  unfold sendTo
  cases hchoose : target.choose opt with
  | none => exact ⟨.failed target.ref, rfl, .fail dObj s target.ref⟩
  | some iface =>
    obtain ⟨hacc, hfound⟩ :=
      @findProtocol_spec dObj opt iface iface.addresses ans.created s
    dsimp only
    generalize findProtocol opt iface iface.addresses ans.created s = r at hacc hfound ⊢
    obtain ⟨s', i⟩ := r
    cases i with
    | none => exact ⟨.failed target.ref, rfl, hacc.trans (.fail dObj s' target.ref)⟩
    | some i =>
      obtain ⟨p, hp, hsender, happ⟩ := hfound i rfl
      obtain ⟨o, ho, hsent⟩ := @send_spec dObj s' opt target iface i p hchoose hp hsender happ
        ans.arrives
      refine ⟨o, ho, ?_⟩
      dsimp only at hp ⊢
      rw [hp]
      exact hacc.trans hsent

/-- Every target but a null reference has one outcome. -/
theorem onSendDataObjectActual_spec (opt : Options) (dObj : DataObjectRef)
    (l : List (Option Target × Answers)) (s : State) :
    ∃ outcomes, List.Forall₂ (Outcome.For opt) (l.filterMap Prod.fst) outcomes ∧
      Accounts dObj s (onSendDataObjectActual opt dObj l s) outcomes := by
  induction l generalizing s with
  | nil => exact ⟨[], .nil, .refl dObj s⟩
  | cons x l ih =>
    obtain ⟨target, ans⟩ := x
    cases target with
    | none => exact ih s
    | some target =>
      obtain ⟨o, ho, hacc⟩ := sendTo_spec opt dObj target ans s
      obtain ⟨outcomes, hl, haccs⟩ := ih (sendTo opt dObj target ans s)
      exact ⟨o :: outcomes, .cons ho hl, hacc.trans haccs⟩

/-- Each target but a null reference has one outcome: a place in the queue of a sender protocol, a
failure, or, for an application, that the data object has been sent; nothing else happens. And a
target that is no application is reached by its best usable interface. -/
theorem onSendDataObjectActual_outcomes (opt : Options) (dObj : DataObjectRef)
    (l : List (Option Target × Answers)) (s : State) :
    (∃ outcomes, List.Forall₂ (Outcome.For opt) (l.filterMap Prod.fst) outcomes ∧
      Accounts dObj s (onSendDataObjectActual opt dObj l s) outcomes) ∧
      ∀ t : Target, t.ref.node.type ≠ .application → BestOf opt t.interfaces (t.choose opt) :=
  ⟨onSendDataObjectActual_spec opt dObj l s, fun _ => bestOf_choose opt⟩

end Outcomes

end SendDispatch

namespace Sample

open SendDispatch SendUniqueness

/-- An application on a port, the protocol for applications, and what the manager starts with. -/
def portIface : InterfaceRef := ⟨1, .applicationPort, lit "8787", [], true⟩

def portAddress : Address := .ipv4 ⟨[127, 0, 0, 1], rfl⟩ (.udp 50888)

def portApplication : Target :=
  ⟨⟨0, .application, queueId, lit "a", HashMap.empty, [], ⟨-1, 0⟩, 10, 10, ⟨false, []⟩⟩,
    [⟨portIface, [portAddress]⟩]⟩

def portProtocol : Registered :=
  ⟨.udp, true, some ⟨2, .applicationPort, lit "8786", [], true⟩, none,
    ⟨.idle, none, SignalQueue.new, 0⟩⟩

def ethernetOnly : Options := ⟨⟨true, false, false, false⟩, false, false⟩

/-- A data object for an application is sent at once: it is neither queued nor is a failure
reported. -/
theorem not_queued_or_failed_application :
    ¬ ∀ (opt : Options) (dObj : DataObjectRef) (l : List (Option Target × Answers)) (s : State),
      ∃ outcomes, List.Forall₂ (Outcome.For opt) (l.filterMap Prod.fst) outcomes ∧
        Accounts dObj s (onSendDataObjectActual opt dObj l s) outcomes ∧
        ∀ o ∈ outcomes, ¬ o.IsSent := by
  intro h
  obtain ⟨outcomes, -, hacc, hnot⟩ := h ethernetOnly ⟨1, queueId⟩
    [(some portApplication, ⟨fun _ => none, true⟩)] ⟨[portProtocol], [], []⟩
  have hevents : outcomes.filterMap Outcome.posted = [.sendSuccessful portApplication.ref] :=
    hacc.events.symm
  obtain ⟨o, ho, hposted⟩ := List.mem_filterMap.mp (hevents ▸ List.mem_singleton_self _ :
    Posted.sendSuccessful portApplication.ref ∈ outcomes.filterMap Outcome.posted)
  cases o with
  | queued target iface i => cases hposted
  | failed target => cases hposted
  | sent target => exact hnot _ ho trivial

end Sample
end Haggle
