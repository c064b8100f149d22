import Haggle.Forwarding
import Haggle.StoreQueries

/-!
# The send list of the forwarding manager

A pair of a data object and a node is put on the send list before the event that sends it is added,
and it is taken off when a result for the pair arrives. Results do not say who asked for the
sending: other managers send data objects as well, and the handler looks the pair up in its list
whoever sent it.
-/

namespace Haggle

/-- A reference to a node is the object that it points to, and what that object holds. -/
structure NodeRef where
  object : ℕ
  node : Node

/-- `operator==` of references. -/
def NodeRef.same (n m : NodeRef) : Bool := n.object = m.object || n.node.same m.node

theorem Node.same_symm (n m : Node) : n.same m = m.same n := by
  unfold Node.same
  by_cases h : n.type = .undefined ∨ m.type = .undefined
  · rw [if_pos h, if_pos h.symm, Bool.eq_iff_iff, List.any_eq_true, List.any_eq_true]
    simp only [List.any_eq_true]
    constructor
    · rintro ⟨i, hi, j, hj, hij⟩
      exact ⟨j, hj, i, hi, by rw [Interface.same_symm, hij]⟩
    · rintro ⟨j, hj, i, hi, hij⟩
      exact ⟨i, hi, j, hj, by rw [Interface.same_symm, hij]⟩
  · rw [if_neg h, if_neg fun h' => h h'.symm]
    simp only [eq_comm]

theorem NodeRef.same_refl (n : NodeRef) : n.same n = true := by simp [NodeRef.same]

theorem NodeRef.same_symm (n m : NodeRef) : n.same m = m.same n := by
  unfold NodeRef.same
  rw [Node.same_symm, decide_eq_decide.mpr eq_comm]

namespace Forwarding

section Pairs

variable {N : Type} (same : N → N → Bool)

/-- A data object, by its identifier, and the node that it is sent to. -/
abbrev Pair (N : Type) := Digest × N

def samePair (p q : Pair N) : Bool := p.1 = q.1 && same p.2 q.2

/-- The pair of an entry of the send list. -/
def pairOf (f : CarriedObject × N × ℕ) : Pair N := (f.1.id, f.2.1)

/-- The pairs that an event is for. -/
def pairsOf (e : Copy × List N) : List (Pair N) := e.2.map fun n => (e.1.object.id, n)

def Distinct (ps : List (Pair N)) : Prop := ps.Pairwise fun p q => samePair same p q = false

/-- The pairs of the events that were added between two states. -/
def issued (s s' : State N) : List (Pair N) :=
  (s'.sends.drop s.sends.length).flatMap pairsOf ++
    (s'.resends.drop s.resends.length).map fun r => (r.1.id, r.2)

/-- The part of `onForwardingTaskComplete` that sends routing information, with the pair of the
event. -/
def onForwardingTaskComplete (env : Surroundings N) (s : State N) (object : Option CarriedObject)
    (node : N) : State N × List (Pair N) :=
  match object with
  | none => (s, [])
  | some o =>
    if env.isNeighbor node && env.shouldForward o node then
      let (added, s) := addToSendList same s o node 0
      (s, if added then [(o.id, node)] else [])
    else (s, [])

end Pairs

section Ledger

variable {N : Type} (same : N → N → Bool) (thisNode : Bytes)

/-- The handlers other than the one for results. -/
def Act.decides : Act N → Bool
  | .sendResult .. => false
  | _ => true

/-- The manager, with the events to send that have no result yet: its own and those of other
managers. For each entry of the send list `attempts` has the number of events that the manager added
for it. -/
structure Ledger (N : Type) where
  manager : State N
  outstanding : List (Pair N)
  foreign : List (Pair N)
  attempts : List ℕ

def Ledger.init : Ledger N := ⟨Forwarding.init, [], [], []⟩

inductive Move (N : Type)
  | decision (a : Act N) (h : a.decides = true)
  | routingInformation (env : Surroundings N) (object : Option CarriedObject) (node : N)
  | foreignSend (p : Pair N)
  /-- The result of the manager's event number `i`. -/
  | ownResult (env : Surroundings N) (successful : Bool) (i : ℕ) (object : CarriedObject) (node : N)
  | foreignResult (env : Surroundings N) (successful : Bool) (i : ℕ) (object : CarriedObject)
      (node : N)

/-- Each entry is charged with the events for its pair. -/
def charge (entries : List (CarriedObject × N × ℕ)) (attempts : List ℕ) (sent : List (Pair N)) :
    List ℕ :=
  List.zipWith (fun f n => n + sent.countP (samePair same (pairOf f))) entries attempts

/-- New entries are in front of those that were there. -/
def Ledger.decided (l : Ledger N) (s' : State N) (sent : List (Pair N)) : Ledger N :=
  let grown := s'.forwardedObjects.length - l.manager.forwardedObjects.length
  { l with
    manager := s'
    outstanding := l.outstanding ++ sent
    attempts := charge same s'.forwardedObjects (List.replicate grown 0 ++ l.attempts) sent }

/-- A result erases the first entry for its pair. If the object is sent once more, the new entry in
front is the one that was erased. -/
def Ledger.carried (l : Ledger N) (s' : State N) (p : Pair N) : List ℕ :=
  match l.manager.forwardedObjects.findIdx? fun f => samePair same (pairOf f) p with
  | none => l.attempts
  | some j =>
    if s'.forwardedObjects.length = l.manager.forwardedObjects.length then
      l.attempts.getD j 0 :: l.attempts.eraseIdx j
    else l.attempts.eraseIdx j

def Ledger.reported (l : Ledger N) (env : Surroundings N) (successful : Bool) (o : CarriedObject)
    (node : N) : Ledger N :=
  let s' := onSendDataObjectResult same env l.manager successful o node
  let sent := issued l.manager s'
  { l with
    manager := s'
    outstanding := l.outstanding ++ sent
    attempts := charge same s'.forwardedObjects (l.carried same s' (o.id, node)) sent }

/-- Whether a result for a pair can be that of an event in a list. -/
def Answers (events : List (Pair N)) (i : ℕ) (p : Pair N) : Bool :=
  events[i]?.any fun q => samePair same q p

/-- Each event to send has one result. After a fault there are no further steps. -/
def Ledger.step (l : Ledger N) (m : Move N) : Ledger N :=
  if l.manager.faulted then l
  else
    match m with
    | .decision a _ =>
      let s' := handle same thisNode l.manager a
      l.decided same s' (issued l.manager s')
    | .routingInformation env object node =>
      let (s', sent) := onForwardingTaskComplete same env l.manager object node
      l.decided same s' sent
    | .foreignSend p => { l with foreign := l.foreign ++ [p] }
    | .ownResult env successful i o node =>
      if Answers same l.outstanding i (o.id, node) then
        Ledger.reported same { l with outstanding := l.outstanding.eraseIdx i } env successful o
          node
      else l
    | .foreignResult env successful i o node =>
      if Answers same l.foreign i (o.id, node) then
        Ledger.reported same { l with foreign := l.foreign.eraseIdx i } env successful o node
      else l

/-- No pair is twice on the list, or twice outstanding; it is on the list exactly when it is
outstanding; and an entry has led to two events at the most. -/
structure Ledger.Disciplined (l : Ledger N) : Prop where
  listed_once : Distinct same (l.manager.forwardedObjects.map pairOf)
  outstanding_once : Distinct same l.outstanding
  listed_iff : ∀ p, p ∈ l.manager.forwardedObjects.map pairOf ↔ p ∈ l.outstanding
  attempts_length : l.attempts.length = l.manager.forwardedObjects.length
  attempts_le : ∀ n ∈ l.attempts, n ≤ 2

/-- The entry that the handler finds for a result is that of the event the result is for: for
another manager's event it finds none. -/
def Ledger.FindsOwn (l : Ledger N) (m : Move N) : Prop :=
  l.manager.faulted = false →
    match m with
    | .ownResult _ _ i o node => Answers same l.outstanding i (o.id, node) = true →
        ∀ f, (l.manager.forwardedObjects.find? fun f => samePair same (pairOf f) (o.id, node)) =
          some f → l.outstanding[i]? = some (pairOf f)
    | .foreignResult _ _ i o node => Answers same l.foreign i (o.id, node) = true →
        ∀ f ∈ l.manager.forwardedObjects, samePair same (pairOf f) (o.id, node) = false
    | _ => True

end Ledger

section Decisions

variable {N : Type} {same : N → N → Bool} {thisNode : Bytes} {s s' s'' : State N}

/-- From one state to another there are new entries at the front of the send list and further
events. -/
structure Extends (same : N → N → Bool) (s s' : State N) (new : List (CarriedObject × N × ℕ))
    (sent : List (Copy × List N)) : Prop where
  entries : s'.forwardedObjects = new ++ s.forwardedObjects
  sends : s'.sends = s.sends ++ sent
  resends : s'.resends = s.resends
  fresh : ∀ f ∈ new, f.2.2 = 0
  distinct : Distinct same (s.forwardedObjects.map pairOf) →
    Distinct same (s'.forwardedObjects.map pairOf)

/-- There is an event for every new entry, and no other. -/
def Covers (new : List (CarriedObject × N × ℕ)) (sent : List (Pair N)) : Prop :=
  (new.map pairOf).Perm sent

theorem Extends.of_eq (hentries : s'.forwardedObjects = s.forwardedObjects)
    (hsends : s'.sends = s.sends) (hresends : s'.resends = s.resends) :
    Extends same s s' [] [] := by
  refine ⟨hentries, by rw [hsends, List.append_nil], hresends, nofun, ?_⟩
  rw [hentries]
  exact id

theorem Extends.trans {new new' : List (CarriedObject × N × ℕ)} {sent sent' : List (Copy × List N)}
    (h : Extends same s s' new sent) (h' : Extends same s' s'' new' sent') :
    Extends same s s'' (new' ++ new) (sent ++ sent') := by
  refine ⟨?_, ?_, h'.resends.trans h.resends, ?_, h'.distinct ∘ h.distinct⟩
  · rw [h'.entries, h.entries, List.append_assoc]
  · rw [h'.sends, h.sends, List.append_assoc]
  · intro f hf
    rcases List.mem_append.mp hf with hf | hf
    · exact h'.fresh f hf
    · exact h.fresh f hf

theorem Covers.append {new new' : List (CarriedObject × N × ℕ)} {sent sent' : List (Pair N)}
    (h : Covers new sent) (h' : Covers new' sent') : Covers (new' ++ new) (sent ++ sent') := by
  unfold Covers at *
  rw [List.map_append]
  exact List.perm_append_comm.trans (h.append h')

theorem issued_eq {new : List (CarriedObject × N × ℕ)} {sent : List (Copy × List N)}
    (h : Extends same s s' new sent) : issued s s' = sent.flatMap pairsOf := by
  unfold issued
  rw [h.sends, h.resends, List.drop_left, List.drop_length]
  exact List.append_nil _

variable (hsymm : ∀ n m, same n m = same m n)

include hsymm in
theorem samePair_symm (p q : Pair N) : samePair same p q = samePair same q p := by
  unfold samePair
  rw [hsymm, decide_eq_decide.mpr eq_comm]

/-- `addToSendList` refuses a pair that is there, and otherwise puts it in front. -/
theorem addToSendList_cases (s : State N) (o : CarriedObject) (node : N) (n : ℕ) :
    addToSendList same s o node n = (false, s) ∧
        (∃ f ∈ s.forwardedObjects, samePair same (pairOf f) (o.id, node) = true) ∨
      addToSendList same s o node n =
          (true, { s with forwardedObjects := (o, node, n) :: s.forwardedObjects }) ∧
        ∀ f ∈ s.forwardedObjects, samePair same (pairOf f) (o.id, node) = false := by
  unfold addToSendList
  split_ifs with h
  · exact .inl ⟨rfl, List.any_eq_true.mp h⟩
  · refine .inr ⟨rfl, fun f hf => ?_⟩
    rw [Bool.not_eq_true, List.any_eq_false] at h
    exact Bool.eq_false_iff.mpr (h f hf)

include hsymm in
theorem addToSendList_extends (s : State N) (o : CarriedObject) (node : N) :
    Extends same s (addToSendList same s o node 0).2
      (if (addToSendList same s o node 0).1 then [(o, node, 0)] else []) [] := by
  rcases @addToSendList_cases N same s o node 0 with ⟨heq, -⟩ | ⟨heq, hnew⟩
  · rw [heq]
    exact .of_eq rfl rfl rfl
  · rw [heq]
    refine ⟨rfl, (List.append_nil _).symm, rfl, by simp, fun hd => ?_⟩
    refine List.pairwise_cons.mpr ⟨?_, hd⟩
    intro p hp
    obtain ⟨f, hf, rfl⟩ := List.mem_map.mp hp
    rw [samePair_symm hsymm]
    exact hnew f hf

theorem addSend_extends (s : State N) (c : Copy) (nodes : List N) :
    Extends same s (addSend s c nodes) [] [(c, nodes)] :=
  ⟨rfl, rfl, rfl, nofun, id⟩

include hsymm in
theorem forwardTo_extends (env : Surroundings N) (s : State N) (c : Copy) (target : N) :
    ∃ new sent, Extends same s (forwardTo same env s c target) new sent ∧
      Covers new (sent.flatMap pairsOf) := by
  unfold forwardTo
  split_ifs
  · have hadd := addToSendList_extends hsymm s c.object target
    cases hadded : (addToSendList same s c.object target 0).1 with
    | false =>
      rw [hadded] at hadd
      simp only [hadded]
      exact ⟨[], [], hadd, List.Perm.refl _⟩
    | true =>
      rw [hadded] at hadd
      simp only [hadded]
      exact ⟨_, _, hadd.trans (addSend_extends _ c [target]), List.Perm.refl _⟩
  · exact ⟨[], [], .of_eq rfl rfl rfl, List.Perm.refl _⟩
  · exact ⟨[], [], .of_eq rfl rfl rfl, List.Perm.refl _⟩

include hsymm in
theorem queryLoop_extends (env : Surroundings N) (target : N) (s : State N)
    (objects : List CarriedObject) :
    ∃ new sent, Extends same s (queryLoop same thisNode env target s objects) new sent ∧
      Covers new (sent.flatMap pairsOf) := by
  induction objects generalizing s with
  | nil => exact ⟨[], [], .of_eq rfl rfl rfl, List.Perm.refl _⟩
  | cons o objects ih =>
    unfold queryLoop
    cases o.recordHop thisNode env.now with
    | none => exact ⟨[], [], .of_eq rfl rfl rfl, List.Perm.refl _⟩
    | some o' =>
      obtain ⟨new, sent, hfirst, hcovers⟩ :=
        forwardTo_extends hsymm env s ⟨.byObjectQuery, o, o'⟩ target
      obtain ⟨new', sent', hrest, hcovers'⟩ :=
        ih (forwardTo same env s ⟨.byObjectQuery, o, o'⟩ target)
      refine ⟨_, _, hfirst.trans hrest, ?_⟩
      rw [List.flatMap_append]
      exact hcovers.append hcovers'

/-- The entries that a loop over the targets of one object makes, with the nodes it collects. -/
structure Collects (same : N → N → Bool) (o : CarriedObject) (s s' : State N)
    (found found' : List N) (new : List (CarriedObject × N × ℕ)) : Prop where
  extends_ : Extends same s s' new []
  found : found' = new.map (fun f => f.2.1) ++ found
  object : ∀ f ∈ new, f.1 = o

theorem Collects.trans {o : CarriedObject} {found found' found'' : List N}
    {new new' : List (CarriedObject × N × ℕ)} (h : Collects same o s s' found found' new)
    (h' : Collects same o s' s'' found' found'' new') :
    Collects same o s s'' found found'' (new' ++ new) := by
  refine ⟨h.extends_.trans h'.extends_, ?_, ?_⟩
  · rw [h'.found, h.found, List.map_append, List.append_assoc]
  · intro f hf
    rcases List.mem_append.mp hf with hf | hf
    · exact h'.object f hf
    · exact h.object f hf

theorem Collects.of_eq {o : CarriedObject} {found : List N}
    (hentries : s'.forwardedObjects = s.forwardedObjects) (hsends : s'.sends = s.sends)
    (hresends : s'.resends = s.resends) : Collects same o s s' found found [] :=
  ⟨.of_eq hentries hsends hresends, rfl, nofun⟩

include hsymm in
theorem addToSendList_collects (s : State N) (o : CarriedObject) (node : N) (found : List N) :
    ∃ new, Collects same o s (addToSendList same s o node 0).2 found
      (if (addToSendList same s o node 0).1 then node :: found else found) new := by
  refine ⟨_, addToSendList_extends hsymm s o node, ?_, ?_⟩
  · split_ifs <;> rfl
  · intro f hf
    split_ifs at hf
    · rw [List.mem_singleton.mp hf]
    · cases hf

include hsymm in
theorem nodeLoop_collects (env : Surroundings N) (c : Copy) (s : State N) (found targets : List N) :
    ∃ new, Collects same c.object s (nodeLoop same env c s found targets).1 found
      (nodeLoop same env c s found targets).2 new := by
  induction targets generalizing s found with
  | nil => exact ⟨[], .of_eq rfl rfl rfl⟩
  | cons target targets ih =>
    unfold nodeLoop
    split_ifs
    · obtain ⟨new, hfirst⟩ := addToSendList_collects hsymm s c.object target found
      obtain ⟨new', hrest⟩ := ih (addToSendList same s c.object target 0).2 _
      exact ⟨_, hfirst.trans hrest⟩
    · obtain ⟨new, hrest⟩ := ih (forwardByDelegate s c) found
      have hfirst : Collects same c.object s (forwardByDelegate s c) found found [] :=
        .of_eq rfl rfl rfl
      exact ⟨_, hfirst.trans hrest⟩
    · exact ih s found
    · exact ih s found

include hsymm in
theorem delegateLoop_collects (env : Surroundings N) (o : CarriedObject) (s : State N)
    (found delegates : List N) :
    ∃ new, Collects same o s (delegateLoop same env o s found delegates).1 found
      (delegateLoop same env o s found delegates).2 new := by
  induction delegates generalizing s found with
  | nil => exact ⟨[], .of_eq rfl rfl rfl⟩
  | cons delegate delegates ih =>
    unfold delegateLoop
    cases env.retrieve delegate with
    | none => exact ih s found
    | some actual =>
      simp only
      by_cases hnew : (env.isNeighbor actual && env.shouldForward o actual) = true
      · rw [if_pos hnew]
        obtain ⟨new, hfirst⟩ := addToSendList_collects hsymm s o actual found
        obtain ⟨new', hrest⟩ := ih (addToSendList same s o actual 0).2 _
        exact ⟨_, hfirst.trans hrest⟩
      · rw [if_neg hnew]
        exact ih s found

/-- One event for all the nodes that a loop has found. -/
theorem Collects.send {o : CarriedObject} {found : List N} {new : List (CarriedObject × N × ℕ)}
    (h : Collects same o s s' [] found new) {c : Copy} (hc : c.object.id = o.id) :
    ∃ new sent, Extends same s (if found = [] then s' else addSend s' c found) new sent ∧
      Covers new (sent.flatMap pairsOf) := by
  have hfound : found = new.map fun f => f.2.1 := by rw [h.found, List.append_nil]
  split_ifs with hempty
  · rw [hempty] at hfound
    have hnew : new = [] := List.map_eq_nil_iff.mp hfound.symm
    exact ⟨new, [], h.extends_, by rw [hnew]; exact List.Perm.refl _⟩
  · refine ⟨_, _, h.extends_.trans (addSend_extends _ c found), List.Perm.of_eq ?_⟩
    simp only [List.nil_append, List.flatMap_cons, List.flatMap_nil, List.append_nil, pairsOf,
      hfound, List.map_map]
    apply List.map_congr_left
    intro f hf
    simp only [pairOf, Function.comp_apply, hc, h.object f hf]

include hsymm in
/-- Whatever a handler decides, there is an event for every new entry of the send list. -/
theorem handle_extends (s : State N) {a : Act N} (ha : a.decides = true) :
    ∃ new sent, Extends same s (handle same thisNode s a) new sent ∧
      Covers new (sent.flatMap pairsOf) := by
  have hrefl : ∃ new sent, Extends same s s new sent ∧ Covers new (sent.flatMap pairsOf) :=
    ⟨[], [], .of_eq rfl rfl rfl, List.Perm.refl _⟩
  cases a with
  | objectQueryResult env target objects =>
    cases target with
    | none => exact hrefl
    | some target => exact queryLoop_extends hsymm env target s objects
  | nodeQueryResult env object targets =>
    cases object with
    | none => exact hrefl
    | some o =>
      obtain ⟨new, h⟩ := nodeLoop_collects hsymm env ⟨.byNodeQuery, o, o⟩ s [] targets
      exact h.send rfl
  | forward env object target =>
    cases object with
    | none => exact hrefl
    | some o =>
      cases target with
      | none => exact hrefl
      | some target => exact forwardTo_extends hsymm env s _ target
  | delegateNodes env i delegates =>
    simp only [handle]
    cases s.delegating[i]? with
    | none => exact hrefl
    | some c =>
      obtain ⟨new, h⟩ := delegateLoop_collects hsymm env c.object s [] delegates
      exact h.send rfl
  | sendResult env successful o node => cases ha

end Decisions

section Results

variable {N : Type} {same : N → N → Bool} {s : State N}

/-- The first entry for the pair of a result is erased, and perhaps put in front again for a second
event. -/
theorem onSendDataObjectResult_cases (env : Surroundings N) (s : State N) (successful : Bool)
    (o : CarriedObject) (node : N) :
    (∀ f ∈ s.forwardedObjects, samePair same (pairOf f) (o.id, node) = false) ∧
        onSendDataObjectResult same env s successful o node = s ∨
      ∃ l₁ f l₂, s.forwardedObjects = l₁ ++ f :: l₂ ∧
        (∀ g ∈ l₁, samePair same (pairOf g) (o.id, node) = false) ∧
        samePair same (pairOf f) (o.id, node) = true ∧
        (onSendDataObjectResult same env s successful o node =
            { s with forwardedObjects := l₁ ++ l₂ } ∨
          f.2.2 = 0 ∧ (∀ g ∈ l₁ ++ l₂, samePair same (pairOf g) (o.id, node) = false) ∧
          onSendDataObjectResult same env s successful o node =
            { s with
              forwardedObjects := (o, node, 1) :: (l₁ ++ l₂)
              resends := s.resends ++ [(o, node)] }) := by
  unfold onSendDataObjectResult
  cases hfind : s.forwardedObjects.find? fun f => f.1.id = o.id && same f.2.1 node with
  | none =>
    refine .inl ⟨fun f hf => ?_, rfl⟩
    exact Bool.eq_false_iff.mpr (List.find?_eq_none.mp hfind f hf)
  | some f =>
    obtain ⟨hf, l₁, l₂, hl, hbefore⟩ := List.find?_eq_some_iff_append.mp hfind
    have hbefore' : ∀ g ∈ l₁, samePair same (pairOf g) (o.id, node) = false := by
      intro g hg
      have hg' := hbefore g hg
      rw [Bool.not_eq_true'] at hg'
      exact hg'
    have herase : removeFromSendList same s o node = { s with forwardedObjects := l₁ ++ l₂ } := by
      have hlist : (l₁ ++ f :: l₂).eraseP (fun g => samePair same (pairOf g) (o.id, node)) =
          l₁ ++ l₂ := by
        rw [List.eraseP_append_right _ fun g hg => Bool.eq_false_iff.mp (hbefore' g hg)]
        congr 1
        exact List.eraseP_cons_of_pos hf
      rw [← hlist, ← hl]
      rfl
    refine .inr ⟨l₁, f, l₂, hl, hbefore', hf, ?_⟩
    simp only [herase]
    split_ifs with hretry hadded
    · rcases @addToSendList_cases N same { s with forwardedObjects := l₁ ++ l₂ } o node 1 with
        ⟨heq, -⟩ | ⟨heq, hnew⟩
      · rw [heq] at hadded
        cases hadded
      · right
        simp only [Bool.and_eq_true, decide_eq_true_eq] at hretry
        refine ⟨hretry.1.1.2, hnew, ?_⟩
        rw [heq]
    · rcases @addToSendList_cases N same { s with forwardedObjects := l₁ ++ l₂ } o node 1 with
        ⟨heq, -⟩ | ⟨heq, -⟩
      · left
        rw [heq]
      · rw [heq] at hadded
        exact absurd rfl hadded
    · exact .inl rfl

end Results

section Discipline

variable {N : Type} {same : N → N → Bool} {thisNode : Bytes} {l : Ledger N}

/-- What holds whoever the results are for: the list has no pair twice, and the repeat count of an
entry says how often its object was sent. -/
structure Ledger.Counted (same : N → N → Bool) (l : Ledger N) : Prop where
  distinct : Distinct same (l.manager.forwardedObjects.map pairOf)
  attempts : l.attempts = l.manager.forwardedObjects.map fun f => f.2.2 + 1
  repeats : ∀ f ∈ l.manager.forwardedObjects, f.2.2 ≤ 1

def Ledger.Tracked (l : Ledger N) : Prop :=
  (l.manager.forwardedObjects.map pairOf).Perm l.outstanding

variable (hrefl : ∀ n, same n n = true) (hsymm : ∀ n m, same n m = same m n)

include hrefl in
theorem samePair_self (p : Pair N) : samePair same p p = true := by simp [samePair, hrefl]

include hrefl in
theorem Distinct.nodup {ps : List (Pair N)} (h : Distinct same ps) : ps.Nodup := by
  refine h.imp ?_
  rintro p q hpq rfl
  rw [samePair_self hrefl] at hpq
  cases hpq

include hsymm in
theorem Distinct.perm {ps qs : List (Pair N)} (h : Distinct same ps) (hp : ps.Perm qs) :
    Distinct same qs := by
  refine hp.pairwise h ?_
  intro p q hpq
  rw [samePair_symm hsymm, hpq]

include hrefl hsymm in
/-- With the entries counted, a send list is as it should be when it has the pairs that are
outstanding. -/
theorem Ledger.Counted.disciplined_iff (h : l.Counted same) :
    l.Disciplined same ↔ l.Tracked := by
  constructor
  · intro hd
    exact (List.perm_ext_iff_of_nodup (Distinct.nodup hrefl h.distinct)
      (Distinct.nodup hrefl hd.outstanding_once)).mpr hd.listed_iff
  · intro ht
    refine ⟨h.distinct, Distinct.perm hsymm h.distinct ht, fun p => ht.mem_iff, ?_, ?_⟩
    · rw [h.attempts, List.length_map]
    · intro n hn
      rw [h.attempts] at hn
      obtain ⟨f, hf, rfl⟩ := List.mem_map.mp hn
      have hle := h.repeats f hf
      omega

theorem countP_eq_zero_of_distinct {p : Pair N} {ps : List (Pair N)}
    (h : ∀ q ∈ ps, samePair same p q = false) : ps.countP (samePair same p) = 0 := by
  rw [List.countP_eq_zero]
  intro q hq
  rw [h q hq]
  exact Bool.false_ne_true

include hrefl hsymm in
theorem countP_eq_one_of_distinct {p : Pair N} {ps : List (Pair N)} (h : Distinct same ps)
    (hp : p ∈ ps) : ps.countP (samePair same p) = 1 := by
  obtain ⟨l₁, l₂, rfl⟩ := List.append_of_mem hp
  obtain ⟨-, h₂, h₁₂⟩ := List.pairwise_append.mp h
  have hbefore : l₁.countP (samePair same p) = 0 := by
    apply countP_eq_zero_of_distinct
    intro q hq
    rw [samePair_symm hsymm]
    exact h₁₂ q hq p List.mem_cons_self
  have hafter : l₂.countP (samePair same p) = 0 :=
    countP_eq_zero_of_distinct (List.pairwise_cons.mp h₂).1
  rw [List.countP_append, List.countP_cons, hbefore, hafter, samePair_self hrefl]
  rfl

theorem charge_map (entries : List (CarriedObject × N × ℕ)) (g : CarriedObject × N × ℕ → ℕ)
    (sent : List (Pair N)) : charge same entries (entries.map g) sent =
      entries.map fun f => g f + sent.countP (samePair same (pairOf f)) := by
  unfold charge
  rw [List.zipWith_map_right, List.zipWith_self]

theorem charge_append (new old : List (CarriedObject × N × ℕ)) (g g' : CarriedObject × N × ℕ → ℕ)
    (sent : List (Pair N)) : charge same (new ++ old) (new.map g ++ old.map g') sent =
      charge same new (new.map g) sent ++ charge same old (old.map g') sent :=
  List.zipWith_append (List.length_map g).symm

include hrefl hsymm in
/-- A decision that adds an event for every entry. -/
theorem Ledger.Counted.decided (h : l.Counted same) {s' : State N}
    {new : List (CarriedObject × N × ℕ)} {sent : List (Pair N)}
    (hentries : s'.forwardedObjects = new ++ l.manager.forwardedObjects)
    (hfresh : ∀ f ∈ new, f.2.2 = 0) (hd : Distinct same (s'.forwardedObjects.map pairOf))
    (hcovers : Covers new sent) :
    (l.decided same s' sent).Counted same ∧
      ((l.decided same s' sent).Tracked ↔ l.Tracked) := by
  have hd' := hd
  rw [hentries, List.map_append] at hd'
  obtain ⟨hdnew, -, hacross⟩ := List.pairwise_append.mp hd'
  have hsent : Distinct same sent := Distinct.perm hsymm hdnew hcovers
  refine ⟨⟨hd, ?_, ?_⟩, ?_⟩
  · have hgrown : s'.forwardedObjects.length - l.manager.forwardedObjects.length = new.length := by
      rw [hentries, List.length_append, Nat.add_sub_cancel]
    have hbefore : List.replicate new.length 0 ++ l.attempts =
        new.map (fun _ => 0) ++ l.manager.forwardedObjects.map fun f => f.2.2 + 1 := by
      rw [h.attempts, List.map_const']
    change charge same s'.forwardedObjects (List.replicate
        (s'.forwardedObjects.length - l.manager.forwardedObjects.length) 0 ++ l.attempts) sent =
      s'.forwardedObjects.map fun f => f.2.2 + 1
    rw [hgrown, hbefore, hentries, charge_append, charge_map, charge_map, List.map_append]
    congr 1
    · apply List.map_congr_left
      intro f hf
      rw [hfresh f hf, countP_eq_one_of_distinct hrefl hsymm hsent
        (hcovers.mem_iff.mp (List.mem_map_of_mem hf))]
    · apply List.map_congr_left
      intro f hf
      rw [countP_eq_zero_of_distinct, Nat.add_zero]
      intro q hq
      rw [samePair_symm hsymm]
      exact hacross q (hcovers.mem_iff.mpr hq) _ (List.mem_map_of_mem hf)
  · intro f hf
    simp only [Ledger.decided, hentries] at hf
    rcases List.mem_append.mp hf with hf | hf
    · rw [hfresh f hf]
      exact Nat.zero_le 1
    · exact h.repeats f hf
  · unfold Ledger.Tracked
    simp only [Ledger.decided, hentries, List.map_append]
    have hmove : (new.map pairOf ++ l.manager.forwardedObjects.map pairOf).Perm
        (l.manager.forwardedObjects.map pairOf ++ sent) :=
      List.perm_append_comm.trans (hcovers.append_left _)
    constructor
    · exact fun ht => (List.perm_append_right_iff sent).mp (hmove.symm.trans ht)
    · exact fun ht => hmove.trans (ht.append_right sent)

/-- Which entry a result is for: none, or the first one for its pair. -/
theorem carried_of_none {s' : State N} {p : Pair N}
    (h : ∀ f ∈ l.manager.forwardedObjects, samePair same (pairOf f) p = false) :
    l.carried same s' p = l.attempts := by
  unfold Ledger.carried
  rw [List.findIdx?_eq_none_iff.mpr h]

theorem Ledger.Counted.carried_of_some (h : l.Counted same) {s' : State N} {p : Pair N}
    {l₁ l₂ : List (CarriedObject × N × ℕ)} {f : CarriedObject × N × ℕ}
    (hl : l.manager.forwardedObjects = l₁ ++ f :: l₂)
    (hbefore : ∀ g ∈ l₁, samePair same (pairOf g) p = false)
    (hf : samePair same (pairOf f) p = true) : l.carried same s' p =
      if s'.forwardedObjects.length = l.manager.forwardedObjects.length then
        (f.2.2 + 1) :: (l₁ ++ l₂).map fun f => f.2.2 + 1
      else (l₁ ++ l₂).map fun f => f.2.2 + 1 := by
  have hidx : l.manager.forwardedObjects.findIdx? (fun f => samePair same (pairOf f) p) =
      some l₁.length := by
    rw [hl, List.findIdx?_append, List.findIdx?_eq_none_iff.mpr hbefore, List.findIdx?_cons,
      if_pos hf]
    simp
  have hattempts : l.attempts = l₁.map (fun f => f.2.2 + 1) ++
      (f.2.2 + 1) :: l₂.map fun f => f.2.2 + 1 := by
    rw [h.attempts, hl, List.map_append, List.map_cons]
  have hlen : (l₁.map fun f => f.2.2 + 1).length = l₁.length := List.length_map _
  unfold Ledger.carried
  rw [hidx, hattempts]
  simp only [← hlen, List.eraseIdx_append_of_length_le (le_refl _), Nat.sub_self,
    List.eraseIdx_cons_zero, List.getD_eq_getElem?_getD, List.getElem?_append_right (le_refl _),
    List.getElem?_cons_zero, Option.getD_some, List.map_append]

theorem charge_nil (entries : List (CarriedObject × N × ℕ)) (g : CarriedObject × N × ℕ → ℕ) :
    charge same entries (entries.map g) [] = entries.map g := by
  rw [charge_map]
  rfl

theorem issued_of_eq {s s' : State N} (hsends : s'.sends = s.sends)
    (hresends : s'.resends = s.resends) : issued s s' = [] := by
  unfold issued
  rw [hsends, hresends, List.drop_length, List.drop_length]
  rfl

theorem Ledger.reported_eq {env : Surroundings N} {successful : Bool} {o : CarriedObject} {node : N}
    {s' : State N} {sent : List (Pair N)}
    (heq : onSendDataObjectResult same env l.manager successful o node = s')
    (hissued : issued l.manager s' = sent) : l.reported same env successful o node =
      ⟨s', l.outstanding ++ sent, l.foreign,
        charge same s'.forwardedObjects (l.carried same s' (o.id, node)) sent⟩ := by
  subst heq hissued
  rfl

section Erased

variable {l₁ l₂ : List (CarriedObject × N × ℕ)} {f : CarriedObject × N × ℕ} {env : Surroundings N}
  {successful : Bool} {o : CarriedObject} {node : N}

/-- The first entry for the pair of the result is `f`. -/
structure Ledger.Found (same : N → N → Bool) (l : Ledger N) (p : Pair N)
    (l₁ : List (CarriedObject × N × ℕ)) (f : CarriedObject × N × ℕ)
    (l₂ : List (CarriedObject × N × ℕ)) : Prop where
  eq : l.manager.forwardedObjects = l₁ ++ f :: l₂
  before : ∀ g ∈ l₁, samePair same (pairOf g) p = false
  is_for : samePair same (pairOf f) p = true

theorem Ledger.Found.sublist {p : Pair N} (hf : l.Found same p l₁ f l₂) :
    (l₁ ++ l₂).Sublist l.manager.forwardedObjects := by
  rw [hf.eq]
  exact (List.Sublist.refl l₁).append (List.sublist_cons_self f l₂)

theorem Ledger.Found.length {p : Pair N} (hf : l.Found same p l₁ f l₂) :
    l.manager.forwardedObjects.length = (l₁ ++ l₂).length + 1 := by
  rw [hf.eq, List.length_append, List.length_append, List.length_cons, Nat.add_assoc]

theorem Ledger.Counted.reported_erased (h : l.Counted same)
    (hf : l.Found same (o.id, node) l₁ f l₂)
    (heq : onSendDataObjectResult same env l.manager successful o node =
      { l.manager with forwardedObjects := l₁ ++ l₂ }) :
    (l.reported same env successful o node).Counted same ∧
      ((l.reported same env successful o node).Tracked ↔
        ((l₁ ++ l₂).map pairOf).Perm l.outstanding) := by
  have hlen : (l₁ ++ l₂).length ≠ l.manager.forwardedObjects.length := by
    have := hf.length
    omega
  rw [Ledger.reported_eq heq (issued_of_eq rfl rfl), h.carried_of_some hf.eq hf.before hf.is_for,
    if_neg hlen, charge_nil, List.append_nil]
  refine ⟨⟨?_, rfl, fun g hg => h.repeats g (hf.sublist.subset hg)⟩, Iff.rfl⟩
  exact h.distinct.sublist (hf.sublist.map pairOf)

include hrefl hsymm in
theorem Ledger.Counted.reported_resent (h : l.Counted same)
    (hf : l.Found same (o.id, node) l₁ f l₂) (hzero : f.2.2 = 0)
    (hothers : ∀ g ∈ l₁ ++ l₂, samePair same (pairOf g) (o.id, node) = false)
    (heq : onSendDataObjectResult same env l.manager successful o node =
      { l.manager with
        forwardedObjects := (o, node, 1) :: (l₁ ++ l₂)
        resends := l.manager.resends ++ [(o, node)] }) :
    (l.reported same env successful o node).Counted same ∧
      ((l.reported same env successful o node).Tracked ↔
        ((l₁ ++ l₂).map pairOf).Perm l.outstanding) := by
  have hissued : issued l.manager
      { l.manager with
        forwardedObjects := (o, node, 1) :: (l₁ ++ l₂)
        resends := l.manager.resends ++ [(o, node)] } = [(o.id, node)] := by
    unfold issued
    rw [List.drop_length, List.drop_left]
    rfl
  have hlen : ((o, node, 1) :: (l₁ ++ l₂)).length = l.manager.forwardedObjects.length :=
    hf.length.symm
  rw [Ledger.reported_eq heq hissued, h.carried_of_some hf.eq hf.before hf.is_for, if_pos hlen,
    hzero]
  refine ⟨⟨?_, ?_, ?_⟩, ?_⟩
  · refine List.pairwise_cons.mpr ⟨?_, h.distinct.sublist (hf.sublist.map pairOf)⟩
    intro p hp
    obtain ⟨g, hg, rfl⟩ := List.mem_map.mp hp
    rw [samePair_symm hsymm]
    exact hothers g hg
  · -- The entry in front is charged for the second event, the others are not.
    have hself : samePair same (pairOf (o, node, 1)) (o.id, node) = true :=
      samePair_self hrefl (o.id, node)
    have htail := @charge_map N same (l₁ ++ l₂) (fun f => f.2.2 + 1) [(o.id, node)]
    unfold charge at htail ⊢
    simp only [List.zipWith_cons_cons, htail]
    rw [List.countP_singleton, if_pos hself, List.map_cons]
    congr 1
    apply List.map_congr_left
    intro g hg
    rw [List.countP_singleton, hothers g hg]
    rfl
  · intro g hg
    rcases List.mem_cons.mp hg with rfl | hg
    · exact le_refl 1
    · exact h.repeats g (hf.sublist.subset hg)
  · have hmove : ((o.id, node) :: (l₁ ++ l₂).map pairOf).Perm
        ((l₁ ++ l₂).map pairOf ++ [(o.id, node)]) := (List.perm_append_singleton _ _).symm
    constructor
    · exact fun ht => (List.perm_append_right_iff _).mp (hmove.symm.trans ht)
    · exact fun ht => hmove.trans (ht.append_right _)

end Erased

include hrefl hsymm in
/-- A result takes the first entry for its pair off the list. If the object is sent once more there
is an entry and an event for it; the other entries and events stay as they are in either case. -/
theorem Ledger.Counted.reported_cases (h : l.Counted same) (env : Surroundings N)
    (successful : Bool) (o : CarriedObject) (node : N) :
    (l.reported same env successful o node).Counted same ∧
      ((∀ f ∈ l.manager.forwardedObjects, samePair same (pairOf f) (o.id, node) = false) ∧
          ((l.reported same env successful o node).Tracked ↔ l.Tracked) ∨
        ∃ l₁ f l₂, l.Found same (o.id, node) l₁ f l₂ ∧
          ((l.reported same env successful o node).Tracked ↔
            ((l₁ ++ l₂).map pairOf).Perm l.outstanding)) := by
  rcases @onSendDataObjectResult_cases N same env l.manager successful o node with
    ⟨hnone, heq⟩ | ⟨l₁, f, l₂, hl, hbefore, hf, hcases⟩
  · rw [Ledger.reported_eq heq (issued_of_eq rfl rfl), carried_of_none hnone, h.attempts,
      charge_nil, ← h.attempts, List.append_nil]
    exact ⟨h, .inl ⟨hnone, Iff.rfl⟩⟩
  · have hfound : l.Found same (o.id, node) l₁ f l₂ := ⟨hl, hbefore, hf⟩
    rcases hcases with heq | ⟨hzero, hothers, heq⟩
    · obtain ⟨hcounted, htracked⟩ := h.reported_erased hfound heq
      exact ⟨hcounted, .inr ⟨l₁, f, l₂, hfound, htracked⟩⟩
    · obtain ⟨hcounted, htracked⟩ := h.reported_resent hrefl hsymm hfound hzero hothers heq
      exact ⟨hcounted, .inr ⟨l₁, f, l₂, hfound, htracked⟩⟩

/-- With the pairs tracked, a result for an event of the manager keeps them so exactly if the first
entry for it is that of the event. -/
theorem perm_eraseIdx_iff {p : Pair N} {l₁ l₂ : List (CarriedObject × N × ℕ)}
    {f : CarriedObject × N × ℕ} {ps : List (Pair N)} {i : ℕ}
    (h : ((l₁ ++ f :: l₂).map pairOf).Perm ps) (hi : ps[i]? = some p) :
    ((l₁ ++ l₂).map pairOf).Perm (ps.eraseIdx i) ↔ pairOf f = p := by
  obtain ⟨hlt, hget⟩ := List.getElem?_eq_some_iff.mp hi
  have hps : (p :: ps.eraseIdx i).Perm ps := by
    rw [← hget]
    exact List.getElem_cons_eraseIdx_perm hlt
  have hl : (pairOf f :: (l₁ ++ l₂).map pairOf).Perm (p :: ps.eraseIdx i) := by
    refine List.Perm.trans ?_ (h.trans hps.symm)
    exact (List.perm_middle.map pairOf).symm
  constructor
  · intro hrest
    have hcancel := Multiset.coe_eq_coe.mpr (hl.trans (hrest.symm.cons p))
    rw [← Multiset.cons_coe, ← Multiset.cons_coe] at hcancel
    exact (Multiset.cons_inj_left _).mp hcancel
  · rintro rfl
    exact hl.cons_inv

include hsymm in
theorem onForwardingTaskComplete_covers (env : Surroundings N) (s : State N)
    (object : Option CarriedObject) (node : N) :
    ∃ new sent, Extends same s (onForwardingTaskComplete same env s object node).1 new sent ∧
      Covers new (onForwardingTaskComplete same env s object node).2 := by
  have hsame : Extends same s s [] [] := .of_eq rfl rfl rfl
  unfold onForwardingTaskComplete
  cases object with
  | none => exact ⟨[], [], hsame, List.Perm.refl _⟩
  | some o =>
    simp only
    split_ifs with hnew hadded
    · have hadd := addToSendList_extends hsymm s o node
      rw [hadded] at hadd
      exact ⟨_, [], hadd, List.Perm.refl _⟩
    · have hadd := addToSendList_extends hsymm s o node
      rw [Bool.not_eq_true] at hadded
      rw [hadded] at hadd
      exact ⟨_, [], hadd, List.Perm.refl _⟩
    · exact ⟨[], [], hsame, List.Perm.refl _⟩

include hrefl hsymm in
/-- The result of an event of the manager. -/
theorem Ledger.Counted.ownResult (h : l.Counted same) {i : ℕ} {o : CarriedObject} {node : N}
    (hanswers : Answers same l.outstanding i (o.id, node) = true) (ht : l.Tracked)
    (env : Surroundings N) (successful : Bool) :
    (Ledger.reported same { l with outstanding := l.outstanding.eraseIdx i } env successful o
        node).Tracked ↔
      ∀ f, (l.manager.forwardedObjects.find? fun f => samePair same (pairOf f) (o.id, node)) =
        some f → l.outstanding[i]? = some (pairOf f) := by
  obtain ⟨p, hp, hpair⟩ := (Option.any_eq_true _ _).mp hanswers
  have hl : Ledger.Counted same { l with outstanding := l.outstanding.eraseIdx i } :=
    ⟨h.distinct, h.attempts, h.repeats⟩
  obtain ⟨-, hcases⟩ := hl.reported_cases hrefl hsymm env successful o node
  rcases hcases with ⟨hnone, -⟩ | ⟨l₁, f, l₂, hfound, htracked⟩
  · -- There is an entry for every event of the manager.
    have hmem := ht.mem_iff.mpr (List.mem_of_getElem? hp)
    obtain ⟨f, hf, rfl⟩ := List.mem_map.mp hmem
    rw [hnone f hf] at hpair
    cases hpair
  · have hfind : (l.manager.forwardedObjects.find? fun f =>
        samePair same (pairOf f) (o.id, node)) = some f := by
      refine List.find?_eq_some_iff_append.mpr ⟨hfound.is_for, l₁, l₂, hfound.eq, ?_⟩
      intro g hg
      rw [hfound.before g hg]
      rfl
    unfold Ledger.Tracked at ht
    rw [show l.manager.forwardedObjects = l₁ ++ f :: l₂ from hfound.eq] at ht
    rw [htracked, perm_eraseIdx_iff ht hp, hfind, hp]
    simp [eq_comm]

include hrefl hsymm in
/-- The result of an event of another manager. -/
theorem Ledger.Counted.foreignResult (h : l.Counted same) (ht : l.Tracked) (i : ℕ)
    (o : CarriedObject) (node : N) (env : Surroundings N) (successful : Bool) :
    (Ledger.reported same { l with foreign := l.foreign.eraseIdx i } env successful o
        node).Tracked ↔
      ∀ f ∈ l.manager.forwardedObjects, samePair same (pairOf f) (o.id, node) = false := by
  have hl : Ledger.Counted same { l with foreign := l.foreign.eraseIdx i } :=
    ⟨h.distinct, h.attempts, h.repeats⟩
  obtain ⟨-, hcases⟩ := hl.reported_cases hrefl hsymm env successful o node
  rcases hcases with ⟨hnone, htracked⟩ | ⟨l₁, f, l₂, hfound, htracked⟩
  · exact ⟨fun _ => hnone, fun _ => htracked.mpr ht⟩
  · constructor
    · -- One entry less for as many events.
      intro h'
      have hlen := (htracked.mp h').length_eq
      have hlen' := ht.length_eq
      have hlen'' := hfound.length
      rw [List.length_map] at hlen hlen'
      simp only at hlen hlen''
      omega
    · intro hnone
      have hf := hnone f (by rw [show l.manager.forwardedObjects = _ from hfound.eq]; simp)
      rw [hfound.is_for] at hf
      cases hf

include hrefl hsymm in
/-- A step keeps the entries counted; it keeps the pairs tracked exactly if the handler finds the
entry of the event whose result it is told. -/
theorem Ledger.Counted.step (h : l.Counted same) (m : Move N) :
    (l.step same thisNode m).Counted same ∧
      (l.Tracked → ((l.step same thisNode m).Tracked ↔ l.FindsOwn same m)) := by
  unfold Ledger.step Ledger.FindsOwn
  cases hfaulted : l.manager.faulted with
  | true => exact ⟨h, fun ht => by simpa using ht⟩
  | false =>
    simp only [Bool.false_eq_true, if_false, forall_const]
    cases m with
    | decision a ha =>
      obtain ⟨new, sent, hext, hcovers⟩ := @handle_extends N same thisNode hsymm l.manager a ha
      rw [← issued_eq hext] at hcovers
      obtain ⟨hcounted, htracked⟩ :=
        h.decided hrefl hsymm hext.entries hext.fresh (hext.distinct h.distinct) hcovers
      exact ⟨hcounted, fun ht => iff_true_intro (htracked.mpr ht)⟩
    | routingInformation env object node =>
      obtain ⟨new, sent, hext, hcovers⟩ :=
        onForwardingTaskComplete_covers hsymm env l.manager object node
      obtain ⟨hcounted, htracked⟩ :=
        h.decided hrefl hsymm hext.entries hext.fresh (hext.distinct h.distinct) hcovers
      exact ⟨hcounted, fun ht => iff_true_intro (htracked.mpr ht)⟩
    | foreignSend p =>
      exact ⟨⟨h.distinct, h.attempts, h.repeats⟩, fun ht => iff_true_intro ht⟩
    | ownResult env successful i o node =>
      have hl : Ledger.Counted same { l with outstanding := l.outstanding.eraseIdx i } :=
        ⟨h.distinct, h.attempts, h.repeats⟩
      simp only
      split_ifs with hanswers
      · refine ⟨(hl.reported_cases hrefl hsymm env successful o node).1, fun ht => ?_⟩
        simp only [hanswers, forall_const]
        exact h.ownResult hrefl hsymm hanswers ht env successful
      · exact ⟨h, fun ht => iff_of_true ht fun h' => absurd h' hanswers⟩
    | foreignResult env successful i o node =>
      have hl : Ledger.Counted same { l with foreign := l.foreign.eraseIdx i } :=
        ⟨h.distinct, h.attempts, h.repeats⟩
      simp only
      split_ifs with hanswers
      · refine ⟨(hl.reported_cases hrefl hsymm env successful o node).1, fun ht => ?_⟩
        simp only [hanswers, forall_const]
        exact h.foreignResult hrefl hsymm ht i o node env successful
      · exact ⟨h, fun ht => iff_of_true ht fun h' => absurd h' hanswers⟩

theorem counted_init : (Ledger.init : Ledger N).Counted same :=
  ⟨List.Pairwise.nil, rfl, nofun⟩

include hrefl hsymm in
theorem disciplined_prefix_iff (moves : List (Move N)) :
    (∀ pre, pre <+: moves →
        (Trace.run (Ledger.step same thisNode) Ledger.init pre).Disciplined same) ↔
      Trace.Guarded (Ledger.step same thisNode) (Ledger.FindsOwn same) Ledger.init moves := by
  have hcounted : ∀ pre, (Trace.run (Ledger.step same thisNode) Ledger.init pre).Counted same :=
    Trace.invariant (fun _ m h => (h.step hrefl hsymm m).1) counted_init
  have htracked := @Trace.forall_prefix_iff_guarded _ _ (Ledger.step same thisNode)
    (Ledger.FindsOwn same) (fun l => l.Counted same ∧ l.Tracked)
    (fun l m h => by
      obtain ⟨hnext, hiff⟩ := @Ledger.Counted.step N same thisNode l hrefl hsymm h.1 m
      rw [← hiff h.2]
      exact and_iff_right hnext)
    Ledger.init ⟨counted_init, List.Perm.refl _⟩ moves
  rw [← htracked]
  refine forall_congr' fun pre => imp_congr_right fun _ => ?_
  rw [(hcounted pre).disciplined_iff hrefl hsymm]
  exact (and_iff_right (hcounted pre)).symm

end Discipline

/-- In every run the send list is as it should be throughout exactly if each result that arrives
finds the entry of the event it is for: results for events of other managers must find none. -/
theorem disciplined_run_iff (thisNode : Bytes) (moves : List (Move NodeRef)) :
    (∀ pre, pre <+: moves →
        (Trace.run (Ledger.step NodeRef.same thisNode) Ledger.init pre).Disciplined NodeRef.same) ↔
      Trace.Guarded (Ledger.step NodeRef.same thisNode) (Ledger.FindsOwn NodeRef.same) Ledger.init
        moves :=
  disciplined_prefix_iff NodeRef.same_refl NodeRef.same_symm moves

end Forwarding

namespace Sample

open Forwarding

/-- A neighbor, and surroundings in which it is the only one. -/
def peerRef : NodeRef :=
  ⟨1, ⟨.peer, .fill 7, lit "peer", HashMap.empty, [], ⟨0, 0⟩, 0, 0,
    ⟨false, []⟩⟩⟩

def onlyNeighbor : Surroundings NodeRef :=
  ⟨fun _ _ => true, fun n => n.same peerRef, fun _ => true, some, lit "5.000000"⟩

/-- The node manager has sent an object to the neighbor when a node query makes the forwarding
manager send it as well, and the result for the node manager arrives first. -/
def sentTwice : List (Move NodeRef) :=
  [.foreignSend (plainObject.id, peerRef),
    .decision (.nodeQueryResult onlyNeighbor (some plainObject) [peerRef]) rfl,
    .foreignResult onlyNeighbor true 0 plainObject peerRef]

/-- The forwarding manager's event is outstanding and its send list is empty. -/
theorem not_disciplined_sentTwice :
    (Trace.run (Forwarding.Ledger.step NodeRef.same (lit "me")) Forwarding.Ledger.init
        sentTwice).outstanding = [(plainObject.id, peerRef)] ∧
      (Trace.run (Forwarding.Ledger.step NodeRef.same (lit "me")) Forwarding.Ledger.init
        sentTwice).manager.forwardedObjects = [] ∧
      ¬ (Trace.run (Forwarding.Ledger.step NodeRef.same (lit "me")) Forwarding.Ledger.init
        sentTwice).Disciplined NodeRef.same := by
  have hout : (Trace.run (Forwarding.Ledger.step NodeRef.same (lit "me")) Forwarding.Ledger.init
      sentTwice).outstanding = [(plainObject.id, peerRef)] := rfl
  have hlist : (Trace.run (Forwarding.Ledger.step NodeRef.same (lit "me")) Forwarding.Ledger.init
      sentTwice).manager.forwardedObjects = [] := rfl
  refine ⟨hout, hlist, fun h => ?_⟩
  have hmem := (h.listed_iff (plainObject.id, peerRef)).mpr (by rw [hout]; simp)
  rw [hlist] at hmem
  cases hmem

end Sample
end Haggle
