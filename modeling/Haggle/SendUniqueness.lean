import Haggle.ProtocolRun
import Haggle.QueueRetrieve
import Haggle.SendList

/-!
# Equal elements in a send queue

`sendDataObject` inserts an element only if an equal one is not in the queue yet. The queue holds
pointers, and what its `insert` compares is the pointers: the element is new, so there never is one
that is the same, and the comparison of elements by their contents is not used.
-/

namespace Haggle
namespace SendUniqueness

section Elements

/-- References to data objects and to interfaces. A null reference is `none`. -/
structure DataObjectRef where
  object : ℕ
  id : Digest
deriving DecidableEq

structure InterfaceRef where
  object : ℕ
  iface : Interface
deriving DecidableEq

def DataObjectRef.same (a b : DataObjectRef) : Bool := a.object = b.object || a.id = b.id

def InterfaceRef.same (a b : InterfaceRef) : Bool := a.object = b.object || a.iface.same b.iface

/-- `operator==` of references that may be null. -/
def sameRef {R : Type} (same : R → R → Bool) : Option R → Option R → Bool
  | none, none => true
  | some a, some b => same a b
  | _, _ => false

/-- `QueueElement` of the type `QE_DataObject`. -/
structure Element where
  dObj : Option DataObjectRef
  node : Option NodeRef
  iface : Option InterfaceRef

/-- `operator==` of queue elements. -/
def Element.equal (a b : Element) : Bool :=
  sameRef DataObjectRef.same a.dObj b.dObj && sameRef NodeRef.same a.node b.node &&
    sameRef InterfaceRef.same a.iface b.iface

/-- What the queue holds. -/
structure Pointer where
  address : ℕ
  element : Element

/-- `operator==` of pointers. -/
instance : BEq Pointer := ⟨fun p q => p.address == q.address⟩

theorem sameRef_symm {R : Type} {same : R → R → Bool} (h : ∀ a b, same a b = same b a)
    (a b : Option R) : sameRef same a b = sameRef same b a := by
  cases a with
  | none => cases b <;> rfl
  | some a =>
    cases b with
    | none => rfl
    | some b => exact h a b

theorem Element.equal_symm (a b : Element) : a.equal b = b.equal a := by
  have hobject : ∀ a b : DataObjectRef, a.same b = b.same a := fun a b => by
    rw [DataObjectRef.same, DataObjectRef.same, decide_eq_decide.mpr eq_comm,
      decide_eq_decide.mpr (@eq_comm _ a.id b.id)]
  have hiface : ∀ a b : InterfaceRef, a.same b = b.same a := fun a b => by
    rw [InterfaceRef.same, InterfaceRef.same, decide_eq_decide.mpr eq_comm, Interface.same_symm]
  rw [equal, equal, sameRef_symm hobject, sameRef_symm NodeRef.same_symm, sameRef_symm hiface]

end Elements

section Protocol

/-- What `sendDataObject` reads of a protocol. `next` is an address that no element has yet. -/
structure Sender where
  mode : ProtocolMode
  peerNode : Option NodeRef
  queue : SignalQueue Pointer
  next : ℕ

/-- The node of the protocol when a data object is sent to `peer`; nothing if that is another
node. -/
def matchPeer (s : Sender) (peer : NodeRef) : Option NodeRef :=
  match s.peerNode with
  | none => some peer
  | some p =>
    if p.node.type = .undefined ∧ peer.node.type ≠ .undefined then some peer
    else if p.same peer then some p
    else none

/-- `Protocol::sendDataObject`. -/
def sendDataObject (dObj : Option DataObjectRef) (peer : Option NodeRef)
    (iface : Option InterfaceRef) (s : Sender) : Sender × Bool :=
  if s.mode = .done ∨ s.mode = .garbage then (s, false)
  else
    match peer.bind (matchPeer s) with
    | none => (s, false)
    | some p =>
      let qe : Pointer := ⟨s.next, ⟨dObj, peer, iface⟩⟩
      let (q, inserted) := s.queue.insert qe true
      ({ s with peerNode := some p, queue := q, next := s.next + 1 }, inserted)

/-- A call by the manager or by another thread. -/
inductive Act
  | sendDataObject (dObj : Option DataObjectRef) (peer : Option NodeRef)
      (iface : Option InterfaceRef)
  | retrieve
  | close
  | setMode (mode : ProtocolMode)
  | setPeerNode (peer : NodeRef)

/-- The protocol is in use, the peer is that of the protocol, and the queue is open. -/
def Admits (s : Sender) (peer : Option NodeRef) : Bool :=
  s.mode = .idle && (peer.bind (matchPeer s)).isSome && !s.queue.isClosed

/-- An equal element is in the queue. -/
def Queued (s : Sender) (e : Element) : Bool := s.queue.lst.any fun p => e.equal p.element

/-- A protocol, and whether all calls so far returned what they should: that the element was queued,
just if the protocol admits it and has no equal one. -/
structure History where
  sender : Sender
  exact : Bool

def step (h : History) : Act → History
  | .sendDataObject dObj peer iface =>
    let (s, sent) := sendDataObject dObj peer iface h.sender
    ⟨s, h.exact && (sent == (Admits h.sender peer && !Queued h.sender ⟨dObj, peer, iface⟩))⟩
  | .retrieve => { h with sender.queue := (h.sender.queue.take).elim h.sender.queue Prod.snd }
  | .close => { h with sender.queue := h.sender.queue.close }
  | .setMode mode => { h with sender.mode := mode }
  | .setPeerNode peer => { h with sender.peerNode := some peer }

end Protocol

section Uniqueness

variable {s : Sender} {h : History}

/-- No two elements of the queue are equal, and all calls returned what they should. -/
def Unique (h : History) : Prop :=
  h.sender.queue.lst.Pairwise (fun p q => p.element.equal q.element = false) ∧ h.exact = true

/-- A call does not repeat an element that is in the queue. -/
def Fresh (h : History) : Act → Prop
  | .sendDataObject dObj peer iface =>
    Admits h.sender peer = true → Queued h.sender ⟨dObj, peer, iface⟩ = false
  | _ => True

/-- The address of a new element is that of no other. -/
structure Inv (h : History) : Prop where
  unique : Unique h
  fresh : ∀ p ∈ h.sender.queue.lst, p.address < h.sender.next

/-- No pointer in the queue is the one to a new element. -/
theorem insert_next (hfresh : ∀ p ∈ s.queue.lst, p.address < s.next) (e : Element) :
    s.queue.insert ⟨s.next, e⟩ true =
      if s.queue.isClosed then (s.queue, false) else (s.queue.pushBack ⟨s.next, e⟩, true) := by
  have hnone : (s.queue.lst.any fun p => (⟨s.next, e⟩ : Pointer) == p) = false := by
    rw [List.any_eq_false]
    intro p hp heq
    have haddress : s.next = p.address := of_decide_eq_true heq
    exact absurd haddress (hfresh p hp).ne'
  simp only [SignalQueue.insert, hnone, Bool.and_false, Bool.false_eq_true, if_false]

/-- The element of a call is the last of the queue, or the queue is as before. -/
theorem sendDataObject_cases (s : Sender) (dObj : Option DataObjectRef) (peer : Option NodeRef)
    (iface : Option InterfaceRef) :
    (sendDataObject dObj peer iface s).2 = true ∧
        (sendDataObject dObj peer iface s).1.queue.lst =
          s.queue.lst ++ [⟨s.next, ⟨dObj, peer, iface⟩⟩] ∨
      (sendDataObject dObj peer iface s).2 = false ∧
        (sendDataObject dObj peer iface s).1.queue.lst = s.queue.lst := by
  unfold sendDataObject
  split_ifs
  · exact .inr ⟨rfl, rfl⟩
  · cases peer.bind (matchPeer s) with
    | none => exact .inr ⟨rfl, rfl⟩
    | some p =>
      rcases SignalQueue.insert_cases s.queue ⟨s.next, ⟨dObj, peer, iface⟩⟩ true with hi | ⟨-, hi⟩
      · dsimp only
        rw [hi]
        exact .inr ⟨rfl, rfl⟩
      · dsimp only
        rw [hi]
        exact .inl ⟨rfl, rfl⟩

/-- A call queues its element exactly if the protocol admits it, whether or not there is an equal
one. -/
theorem sendDataObject_eq (hfresh : ∀ p ∈ s.queue.lst, p.address < s.next)
    (dObj : Option DataObjectRef) (peer : Option NodeRef) (iface : Option InterfaceRef) :
    (sendDataObject dObj peer iface s).2 = Admits s peer ∧
      (sendDataObject dObj peer iface s).1.queue.lst =
        s.queue.lst ++ (if Admits s peer then [⟨s.next, ⟨dObj, peer, iface⟩⟩] else []) ∧
      s.next ≤ (sendDataObject dObj peer iface s).1.next ∧
      (Admits s peer = true → s.next < (sendDataObject dObj peer iface s).1.next) := by
  unfold sendDataObject Admits
  by_cases hmode : s.mode = .done ∨ s.mode = .garbage
  · have hidle : s.mode ≠ .idle := by rcases hmode with hm | hm <;> rw [hm] <;> nofun
    simp [hmode, hidle]
  · have hidle : s.mode = .idle := by
      cases hm : s.mode with
      | idle => rfl
      | done => exact absurd (.inl hm) hmode
      | garbage => exact absurd (.inr hm) hmode
    rw [if_neg hmode]
    cases hpeer : peer.bind (matchPeer s) with
    | none => simp
    | some p =>
      simp only [insert_next hfresh]
      cases hclosed : s.queue.isClosed with
      | true => simp [hidle]
      | false => simp [hidle, SignalQueue.pushBack]

theorem lst_retrieve (q : SignalQueue Pointer) : ((q.take).elim q Prod.snd).lst = q.lst.tail := by
  unfold SignalQueue.take
  cases hq : q.lst with
  | nil => exact hq
  | cons p l => rfl

theorem inv_step (hinv : Inv h) (act : Act) (hok : Fresh h act) : Inv (step h act) := by
  obtain ⟨⟨hpair, hexact⟩, hfresh⟩ := hinv
  cases act with
  | sendDataObject dObj peer iface =>
    obtain ⟨hsent, hlst, hle, hlt⟩ := sendDataObject_eq hfresh dObj peer iface
    cases hadmits : Admits h.sender peer with
    | false =>
      rw [hadmits, if_neg Bool.false_ne_true, List.append_nil] at hlst
      refine ⟨⟨?_, ?_⟩, fun p hp => ?_⟩
      · simpa only [step, hlst] using hpair
      · simp [step, hsent, hadmits, hexact]
      · simp only [step, hlst] at hp ⊢
        exact lt_of_lt_of_le (hfresh p hp) hle
    | true =>
      have hnew := hok hadmits
      rw [hadmits, if_pos rfl] at hlst
      refine ⟨⟨?_, ?_⟩, fun p hp => ?_⟩
      · simp only [step, hlst]
        rw [List.pairwise_append]
        refine ⟨hpair, List.pairwise_singleton _ _, fun p hp q hq => ?_⟩
        rw [List.mem_singleton.mp hq, Element.equal_symm]
        exact Bool.eq_false_iff.mpr (List.any_eq_false.mp hnew p hp)
      · simp [step, hsent, hadmits, hexact, hnew]
      · simp only [step, hlst, List.mem_append, List.mem_singleton] at hp ⊢
        rcases hp with hp | rfl
        · exact lt_of_lt_of_le (hfresh p hp) hle
        · exact hlt hadmits
  | retrieve =>
    have hlst := lst_retrieve h.sender.queue
    refine ⟨⟨?_, hexact⟩, fun p hp => hfresh p ?_⟩
    · simp only [step, hlst]
      exact hpair.tail
    · simp only [step, hlst] at hp
      exact List.mem_of_mem_tail hp
  | close => exact ⟨⟨hpair, hexact⟩, hfresh⟩
  | setMode mode => exact ⟨⟨hpair, hexact⟩, hfresh⟩
  | setPeerNode peer => exact ⟨⟨hpair, hexact⟩, hfresh⟩

theorem not_unique_step (hinv : Inv h) (act : Act) (hbad : ¬ Fresh h act) :
    ¬ Unique (step h act) := by
  cases act with
  | sendDataObject dObj peer iface =>
    rw [Fresh, Classical.not_imp, Bool.not_eq_false] at hbad
    obtain ⟨hadmits, hqueued⟩ := hbad
    obtain ⟨hsent, -⟩ := sendDataObject_eq hinv.fresh dObj peer iface
    rintro ⟨-, hexact⟩
    simp [step, hsent, hadmits, hqueued] at hexact
  | _ => exact absurd trivial hbad

/-- The elements in the queue are different throughout a run, and all its calls return what they
should, exactly if no call repeats an element that is in the queue. -/
theorem unique_run_iff (mode : ProtocolMode) (peerNode : Option NodeRef) (acts : List Act) :
    (∀ pre, pre <+: acts →
        Unique (Trace.run step ⟨⟨mode, peerNode, SignalQueue.new, 0⟩, true⟩ pre)) ↔
      Trace.Guarded step Fresh ⟨⟨mode, peerNode, SignalQueue.new, 0⟩, true⟩ acts :=
  @Trace.forall_prefix_iff_of_invariant _ _ step Fresh Unique Inv (fun _ => Inv.unique)
    (fun _ act hinv => inv_step hinv act) (fun _ act hinv => not_unique_step hinv act) _
    ⟨⟨List.Pairwise.nil, rfl⟩, fun _ hp => absurd hp List.not_mem_nil⟩ acts

end Uniqueness

end SendUniqueness

namespace Sample

open SendUniqueness

def queueId : Digest := .fill 7

/-- A peer, and a data object that is sent to it. -/
def queuePeer : NodeRef :=
  ⟨0, ⟨.peer, queueId, lit "p", HashMap.empty, [], ⟨-1, 0⟩, 10, 10, ⟨false, []⟩⟩⟩

def sendOnce : Act := .sendDataObject (some ⟨1, queueId⟩) (some queuePeer) none

/-- The same data object is sent to the same peer twice: it is queued twice. -/
theorem not_unique_sendTwice :
    ¬ Unique (Trace.run SendUniqueness.step ⟨⟨.idle, none, SignalQueue.new, 0⟩, true⟩
      [sendOnce, sendOnce]) := by
  rintro ⟨-, hexact⟩
  have hrun : (Trace.run SendUniqueness.step ⟨⟨.idle, none, SignalQueue.new, 0⟩, true⟩
      [sendOnce, sendOnce]).exact = false := by decide
  rw [hrun] at hexact
  cases hexact

end Sample
end Haggle
