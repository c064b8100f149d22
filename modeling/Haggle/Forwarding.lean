import Haggle.DataObject
import Haggle.Trace

/-!
# Forwarding decisions and the hops they record

`ForwardingManager` decides to send a data object when a query for the objects of a node or for the
nodes of an object returns, when it is asked to forward an object, and when the forwarding module
has found delegates. The object carries an element of the manager with a `hop_count` and a `Hop` for
each node that forwarded it; one of the handlers adds to it.
-/

namespace Haggle
namespace Metadata

/-- A change to all metadata of a name, reached through `getMetadata` and `getNextMetadata`. -/
def updateAllMetadata (m : Metadata) (k : Bytes) (f : Metadata → Metadata) : Metadata :=
  { m with registry := m.registry.updateAll k f }

theorem valid_updateAllMetadata {m : Metadata} (hm : m.Valid) (k : Bytes) {f : Metadata → Metadata}
    (hf : ∀ c, c.Valid → (f c).Valid ∧ (f c).name = c.name) : (m.updateAllMetadata k f).Valid := by
  refine Valid.of_children hm.params (HashMap.wf_updateAll hm.wf k f) ?_
  intro e he
  rcases HashMap.mem_toList_updateAll he with he | ⟨v, hv, rfl⟩
  · exact hm.children e he
  · obtain ⟨hname, hvv⟩ := hm.children _ hv
    exact ⟨hname.trans (hf v hvv).2.symm, (hf v hvv).1⟩

theorem getAll_updateAllMetadata {m : Metadata} (hm : m.Valid) (k k' : Bytes)
    (f : Metadata → Metadata) : (m.updateAllMetadata k f).getAll k' =
      if k = k' then (m.getAll k').map f else m.getAll k' := by
  rw [getAll_eq_values hm.wf, getAll_eq_values (HashMap.wf_updateAll hm.wf k f)]
  exact HashMap.values_updateAll hm.wf k k' f

/-- Elements that are added one after the other. -/
theorem foldl_addMetadata (l : List Metadata) {m : Metadata} (hm : m.Valid)
    (hl : ∀ c ∈ l, c.Valid) : (l.foldl addMetadata m).name = m.name ∧
      (l.foldl addMetadata m).params = m.params ∧
      ∀ k, (l.foldl addMetadata m).getAll k = m.getAll k ++ l.filter fun c => c.name = k := by
  induction l generalizing m with
  | nil => exact ⟨rfl, rfl, fun k => (List.append_nil _).symm⟩
  | cons c l ih =>
    rw [List.forall_mem_cons] at hl
    obtain ⟨hname, hparams, hall⟩ := ih (valid_addMetadata hm hl.1) hl.2
    refine ⟨hname, hparams, fun k => ?_⟩
    rw [List.foldl_cons, hall, getAll_addMetadata hm, List.append_assoc]
    by_cases hc : c.name = k
    · rw [if_pos hc, List.filter_cons_of_pos (by simpa using hc), List.singleton_append]
    · rw [if_neg hc, List.filter_cons_of_neg (by simpa using hc), List.nil_append]

theorem Valid.of_getMetadata {m c : Metadata} (hm : m.Valid) {k : Bytes}
    (h : m.getMetadata k = some c) : c.Valid := by
  have hmem : c ∈ m.getAll k := List.mem_of_head? h
  rw [getAll_eq_values hm.wf] at hmem
  exact (hm.of_mem_values hmem).2

end Metadata

namespace Forwarding

/-- What the manager reads and writes of a data object. -/
structure CarriedObject where
  id : Digest
  metadata : Metadata
  valid : metadata.Valid

/-- `getName()`. -/
def managerName : Bytes := lit "ForwardingManager"

section Hops

variable (thisNode now : Bytes)

/-- The new count, and the `Hop` of this node. -/
def addHop (count : ℕ) (m : Metadata) : Metadata :=
  let countstr := decimal ((count + 1) % 2 ^ 64)
  (m.setParameter (lit "hop_count") countstr).addMetadata
    (((Metadata.new (lit "Hop") thisNode).setParameter (lit "time") now).setParameter
      (lit "hop_num") countstr)

/-- What `onDataObjectQueryResult` does to the metadata of an object. An element without `hop_count`
makes it call `strtoul` on a null pointer. -/
def recordHop (m : Metadata) : Option Metadata :=
  match m.getMetadata managerName with
  | none => some (m.addMetadata (addHop thisNode now 0 (.new managerName [])))
  | some fm =>
    match fm.getParameter (lit "hop_count") with
    | none => none
    | some param => some (m.updateMetadata managerName (addHop thisNode now (strtoul param)))

/-- What `onDelegateNodes` does: the hops of this node are marked. -/
def markDelegated (m : Metadata) : Metadata :=
  m.updateMetadata managerName fun fm => fm.updateAllMetadata (lit "Hop") fun hop =>
    if hop.content = thisNode then hop.setParameter (lit "delegated") (lit "true") else hop

theorem valid_addHop {m : Metadata} (hm : m.Valid) (count : ℕ) :
    (addHop thisNode now count m).Valid := by
  apply Metadata.valid_addMetadata (Metadata.valid_setParameter hm _ _)
  exact Metadata.valid_setParameter (Metadata.valid_setParameter (Metadata.valid_new _ _) _ _) _ _

theorem valid_recordHop {m m' : Metadata} (hm : m.Valid) (h : recordHop thisNode now m = some m') :
    m'.Valid := by
  unfold recordHop at h
  split at h
  · obtain rfl := Option.some.inj h
    exact Metadata.valid_addMetadata hm (valid_addHop _ _ (Metadata.valid_new _ _) _)
  · split at h
    · cases h
    · obtain rfl := Option.some.inj h
      apply Metadata.valid_updateMetadata hm
      exact fun c hc => ⟨valid_addHop _ _ hc _, rfl⟩

theorem valid_markDelegated {m : Metadata} (hm : m.Valid) : (markDelegated thisNode m).Valid := by
  apply Metadata.valid_updateMetadata hm
  intro fm hfm
  refine ⟨Metadata.valid_updateAllMetadata hfm _ ?_, rfl⟩
  intro hop hhop
  split_ifs
  · exact ⟨Metadata.valid_setParameter hhop _ _, rfl⟩
  · exact ⟨hhop, rfl⟩

def CarriedObject.recordHop (o : CarriedObject) : Option CarriedObject :=
  match h : Forwarding.recordHop thisNode now o.metadata with
  | none => none
  | some m => some ⟨o.id, m, valid_recordHop _ _ o.valid h⟩

def CarriedObject.markDelegated (o : CarriedObject) : CarriedObject :=
  ⟨o.id, Forwarding.markDelegated thisNode o.metadata, valid_markDelegated _ o.valid⟩

end Hops

section Counts

/-- The number in the element of the manager, zero if there is none. -/
def hopCount (m : Metadata) : ℕ :=
  ((m.getMetadata managerName).bind fun fm => fm.getParameter (lit "hop_count")).elim 0 strtoul

def hops (m : Metadata) : List Metadata :=
  (m.getMetadata managerName).elim [] fun fm => fm.getAll (lit "Hop")

/-- The nodes that the hops name. -/
def hopNodes (m : Metadata) : List Bytes := (hops m).map Metadata.content

/-- An element of the manager without a count. -/
def Uncounted (m : Metadata) : Prop :=
  ∃ fm, m.getMetadata managerName = some fm ∧ fm.getParameter (lit "hop_count") = none

/-- The copy that is sent counts one hop more than the stored object, and has one more `Hop`, which
names this node. -/
structure Recorded (thisNode : Bytes) (stored sent : Metadata) : Prop where
  count : hopCount sent = hopCount stored + 1
  hop : hopNodes sent = hopNodes stored ++ [thisNode]

variable {thisNode now : Bytes} {m m' : Metadata}

theorem strtoul_lt (s : Bytes) : strtoul s < 2 ^ 64 := by
  unfold strtoul
  simp only [ulongMax]
  split_ifs <;> omega

theorem hopCount_lt (m : Metadata) : hopCount m < 2 ^ 64 := by
  unfold hopCount
  cases (m.getMetadata managerName).bind fun fm => fm.getParameter (lit "hop_count") with
  | none => norm_num
  | some param => exact strtoul_lt param

theorem getMetadata_addMetadata_self (hm : m.Valid) {c : Metadata} (hc : c.name = managerName)
    (hnone : m.getMetadata managerName = none) :
    (m.addMetadata c).getMetadata managerName = some c := by
  rw [Metadata.getMetadata, List.head?_eq_none_iff] at hnone
  rw [Metadata.getMetadata, Metadata.getAll_addMetadata hm, hnone, if_pos hc]
  rfl

theorem getMetadata_updateMetadata_self (hm : m.Valid) (f : Metadata → Metadata) :
    (m.updateMetadata managerName f).getMetadata managerName =
      (m.getMetadata managerName).map f := by
  rw [Metadata.getMetadata, Metadata.getAll_updateMetadata hm, if_pos rfl, Metadata.getMetadata]
  cases m.getAll managerName <;> rfl

theorem getAll_hop_addHop (hm : m.Valid) (count : ℕ) :
    ((addHop thisNode now count m).getAll (lit "Hop")).map Metadata.content =
      (m.getAll (lit "Hop")).map Metadata.content ++ [thisNode] := by
  unfold addHop
  simp only
  rw [Metadata.getAll_addMetadata (Metadata.valid_setParameter hm _ _), List.map_append]
  rfl

theorem getParameter_addHop (count : ℕ) :
    (addHop thisNode now count m).getParameter (lit "hop_count") =
      some (decimal ((count + 1) % 2 ^ 64)) :=
  AssocList.get_set_self _ _ _

theorem strtoul_decimal_mod (n : ℕ) : strtoul (decimal (n % 2 ^ 64)) = n % 2 ^ 64 := by
  apply strtoul_decimal
  have hlt := Nat.mod_lt n (show 0 < 2 ^ 64 by norm_num)
  unfold ulongMax
  omega

theorem recordHop_spec (hm : m.Valid) (h : recordHop thisNode now m = some m') :
    hopCount m' = (hopCount m + 1) % 2 ^ 64 ∧ hopNodes m' = hopNodes m ++ [thisNode] := by
  unfold recordHop at h
  cases hfm : m.getMetadata managerName with
  | none =>
    rw [hfm] at h
    obtain rfl := Option.some.inj h
    have hself := @getMetadata_addMetadata_self m hm (addHop thisNode now 0 (.new managerName []))
      rfl hfm
    constructor
    · rw [hopCount, hself, Option.bind_some, getParameter_addHop, Option.elim_some,
        strtoul_decimal_mod, hopCount, hfm]
      rfl
    · rw [hopNodes, hops, hself, Option.elim_some,
        getAll_hop_addHop (Metadata.valid_new managerName []), hopNodes, hops, hfm]
      rfl
  | some fm =>
    rw [hfm] at h
    cases hparam : fm.getParameter (lit "hop_count") with
    | none => simp [hparam] at h
    | some param =>
      simp only [hparam] at h
      obtain rfl := Option.some.inj h
      have hself := getMetadata_updateMetadata_self hm (addHop thisNode now (strtoul param))
      rw [hfm, Option.map_some] at hself
      have hvalid := hm.of_getMetadata hfm
      constructor
      · rw [hopCount, hself, Option.bind_some, getParameter_addHop, Option.elim_some,
          strtoul_decimal_mod, hopCount, hfm, Option.bind_some, hparam]
        rfl
      · rw [hopNodes, hops, hself, Option.elim_some, getAll_hop_addHop hvalid, hopNodes, hops, hfm]
        rfl

theorem recordHop_eq_none_iff : recordHop thisNode now m = none ↔ Uncounted m := by
  unfold recordHop Uncounted
  cases m.getMetadata managerName with
  | none => simp
  | some fm => cases hparam : fm.getParameter (lit "hop_count") <;> simp [hparam]

/-- Marking the hops neither counts nor names anything. -/
theorem markDelegated_spec (hm : m.Valid) :
    hopCount (markDelegated thisNode m) = hopCount m ∧
      hopNodes (markDelegated thisNode m) = hopNodes m := by
  unfold markDelegated hopCount hopNodes hops
  rw [getMetadata_updateMetadata_self hm]
  cases hfm : m.getMetadata managerName with
  | none => exact ⟨rfl, rfl⟩
  | some fm =>
    have hvalid := hm.of_getMetadata hfm
    refine ⟨rfl, ?_⟩
    simp only [Option.map_some, Option.elim_some]
    rw [Metadata.getAll_updateAllMetadata hvalid, if_pos rfl, List.map_map]
    apply List.map_congr_left
    intro hop _
    simp only [Function.comp_apply]
    split_ifs <;> rfl

theorem CarriedObject.recordHop_eq_some {o o' : CarriedObject}
    (h : o.recordHop thisNode now = some o') :
    Forwarding.recordHop thisNode now o.metadata = some o'.metadata := by
  unfold CarriedObject.recordHop at h
  split at h
  · cases h
  · obtain rfl := Option.some.inj h
    assumption

theorem CarriedObject.recordHop_eq_none_iff {o : CarriedObject} :
    o.recordHop thisNode now = none ↔ Uncounted o.metadata := by
  rw [← @Forwarding.recordHop_eq_none_iff thisNode now]
  unfold CarriedObject.recordHop
  split <;> simp [*]

end Counts

section Manager

variable {N : Type} (same : N → N → Bool) (thisNode : Bytes)

/-- What the handlers ask others for while they run: whether a node already has an object (or the
object describes it), whether a node is a neighbor, whether it is a peer or a gateway, the node of
the node store for a delegate, and the time. -/
structure Surroundings (N : Type) where
  shouldForward : CarriedObject → N → Bool
  isNeighbor : N → Bool
  isRelay : N → Bool
  retrieve : N → Option N
  now : Bytes

/-- The handler that made a decision. -/
inductive Decided
  | byObjectQuery
  | byNodeQuery
  | byForwardEvent
deriving DecidableEq

/-- A copy of a stored object on its way, with the handler that decided to forward it. -/
structure Copy where
  origin : Decided
  stored : CarriedObject
  object : CarriedObject

/-- The send list, the objects given to the forwarding module, and the events that were added for
decisions and for second attempts. After a fault there are no further steps. -/
structure State (N : Type) where
  forwardedObjects : List (CarriedObject × N × ℕ)
  delegating : List Copy
  sends : List (Copy × List N)
  resends : List (CarriedObject × N)
  faulted : Bool

def init : State N := ⟨[], [], [], [], false⟩

/-- `addToSendList`; data objects are compared by their identifiers. -/
def addToSendList (s : State N) (o : CarriedObject) (node : N) (repeatCount : ℕ) :
    Bool × State N :=
  if s.forwardedObjects.any fun f => f.1.id = o.id && same f.2.1 node then (false, s)
  else (true, { s with forwardedObjects := (o, node, repeatCount) :: s.forwardedObjects })

/-- `EVENT_TYPE_DATAOBJECT_SEND`. -/
def addSend (s : State N) (c : Copy) (nodes : List N) : State N :=
  { s with sends := s.sends ++ [(c, nodes)] }

/-- `forwardByDelegate`. -/
def forwardByDelegate (s : State N) (c : Copy) : State N :=
  { s with delegating := s.delegating ++ [c] }

/-- One object for one target, in `onDataObjectQueryResult` and in `onDataObjectForward`. -/
def forwardTo (env : Surroundings N) (s : State N) (c : Copy) (target : N) : State N :=
  if env.shouldForward c.object target then
    if env.isNeighbor target then
      let (added, s) := addToSendList same s c.object target 0
      if added then addSend s c [target] else s
    else forwardByDelegate s c
  else s

/-- The loop of `onDataObjectQueryResult`. -/
def queryLoop (env : Surroundings N) (target : N) : State N → List CarriedObject → State N
  | s, [] => s
  | s, o :: objects =>
    match o.recordHop thisNode env.now with
    | none => { s with faulted := true }
    | some o' => queryLoop env target (forwardTo same env s ⟨.byObjectQuery, o, o'⟩ target) objects

/-- `onDataObjectQueryResult`. -/
def onDataObjectQueryResult (env : Surroundings N) (s : State N) (target : Option N)
    (objects : List CarriedObject) : State N :=
  match target with
  | none => s
  | some target => queryLoop same thisNode env target s objects

/-- The loop of `onNodeQueryResult`, with the neighbors found so far. -/
def nodeLoop (env : Surroundings N) (c : Copy) : State N → List N → List N → State N × List N
  | s, neighbors, [] => (s, neighbors)
  | s, neighbors, target :: targets =>
    if env.shouldForward c.object target then
      if env.isNeighbor target then
        let (added, s) := addToSendList same s c.object target 0
        nodeLoop env c s (if added then target :: neighbors else neighbors) targets
      else if env.isRelay target then nodeLoop env c (forwardByDelegate s c) neighbors targets
      else nodeLoop env c s neighbors targets
    else nodeLoop env c s neighbors targets

/-- `onNodeQueryResult`. -/
def onNodeQueryResult (env : Surroundings N) (s : State N) (object : Option CarriedObject)
    (targets : List N) : State N :=
  match object with
  | none => s
  | some o =>
    let (s, neighbors) := nodeLoop same env ⟨.byNodeQuery, o, o⟩ s [] targets
    if neighbors = [] then s else addSend s ⟨.byNodeQuery, o, o⟩ neighbors

/-- `onDataObjectForward`. -/
def onDataObjectForward (env : Surroundings N) (s : State N) (object : Option CarriedObject)
    (target : Option N) : State N :=
  match object, target with
  | some o, some target => forwardTo same env s ⟨.byForwardEvent, o, o⟩ target
  | _, _ => s

/-- The loop of `onDelegateNodes`, with the nodes found so far. -/
def delegateLoop (env : Surroundings N) (o : CarriedObject) :
    State N → List N → List N → State N × List N
  | s, ns, [] => (s, ns)
  | s, ns, delegate :: delegates =>
    match env.retrieve delegate with
    | none => delegateLoop env o s ns delegates
    | some actual =>
      if env.isNeighbor actual && env.shouldForward o actual then
        let (added, s) := addToSendList same s o actual 0
        delegateLoop env o s (if added then actual :: ns else ns) delegates
      else delegateLoop env o s ns delegates

/-- `onDelegateNodes`, for an object that the forwarding module was given. -/
def onDelegateNodes (env : Surroundings N) (s : State N) (c : Copy) (delegates : List N) : State N :=
  let (s, ns) := delegateLoop same env c.object s [] delegates
  if ns = [] then s else addSend s { c with object := c.object.markDelegated thisNode } ns

/-- `forwardedObjects.erase(it)`. -/
def removeFromSendList (s : State N) (o : CarriedObject) (node : N) : State N :=
  let sent := fun f : CarriedObject × N × ℕ => f.1.id = o.id && same f.2.1 node
  { s with forwardedObjects := s.forwardedObjects.eraseP sent }

/-- `onSendDataObjectResult`: an object whose sending failed is sent once more. -/
def onSendDataObjectResult (env : Surroundings N) (s : State N) (successful : Bool)
    (o : CarriedObject) (node : N) : State N :=
  match s.forwardedObjects.find? fun f => f.1.id = o.id && same f.2.1 node with
  | none => s
  | some f =>
    let s := removeFromSendList same s o node
    if !successful && f.2.2 = 0 && env.isNeighbor node && env.shouldForward o node then
      let (added, s) := addToSendList same s o node 1
      if added then { s with resends := s.resends ++ [(o, node)] } else s
    else s

inductive Act (N : Type)
  | objectQueryResult (env : Surroundings N) (target : Option N) (objects : List CarriedObject)
  | nodeQueryResult (env : Surroundings N) (object : Option CarriedObject) (targets : List N)
  | forward (env : Surroundings N) (object : Option CarriedObject) (target : Option N)
  /-- The forwarding module answers one of the requests that it got. -/
  | delegateNodes (env : Surroundings N) (i : ℕ) (delegates : List N)
  | sendResult (env : Surroundings N) (successful : Bool) (object : CarriedObject) (node : N)

def handle (s : State N) : Act N → State N
  | .objectQueryResult env target objects =>
    onDataObjectQueryResult same thisNode env s target objects
  | .nodeQueryResult env object targets => onNodeQueryResult same env s object targets
  | .forward env object target => onDataObjectForward same env s object target
  | .delegateNodes env i delegates =>
    (s.delegating[i]?).elim s fun c => onDelegateNodes same thisNode env s c delegates
  | .sendResult env successful o node => onSendDataObjectResult same env s successful o node

def step (s : State N) (a : Act N) : State N :=
  if s.faulted then s else handle same thisNode s a

end Manager

section Runs

variable {N : Type} {same : N → N → Bool} {thisNode : Bytes}

/-- What a copy has in its element of the manager, by the handler it comes from. -/
def Copy.Sound (thisNode : Bytes) (c : Copy) : Prop :=
  if c.origin = .byObjectQuery then
    hopCount c.object.metadata = (hopCount c.stored.metadata + 1) % 2 ^ 64 ∧
      hopNodes c.object.metadata = hopNodes c.stored.metadata ++ [thisNode]
  else hopCount c.object.metadata = hopCount c.stored.metadata ∧
    hopNodes c.object.metadata = hopNodes c.stored.metadata

structure Inv (thisNode : Bytes) (s : State N) : Prop where
  delegating : ∀ c ∈ s.delegating, c.Sound thisNode
  sends : ∀ p ∈ s.sends, p.1.Sound thisNode

theorem Copy.Sound.markDelegated {c : Copy} (hc : c.Sound thisNode) :
    Sound thisNode { c with object := c.object.markDelegated thisNode } := by
  obtain ⟨hcount, hnodes⟩ := @markDelegated_spec thisNode _ c.object.valid
  unfold Sound at hc ⊢
  simp only [CarriedObject.markDelegated, hcount, hnodes]
  exact hc

/-- Exactly what the handlers do right. -/
theorem Copy.Sound.recorded_iff {c : Copy} (hc : c.Sound thisNode) :
    Recorded thisNode c.stored.metadata c.object.metadata ↔
      c.origin = .byObjectQuery ∧ hopCount c.stored.metadata ≠ 2 ^ 64 - 1 := by
  have hlt := hopCount_lt c.stored.metadata
  unfold Sound at hc
  split_ifs at hc with horigin
  · constructor
    · intro hrec
      refine ⟨horigin, fun hmax => ?_⟩
      have hcount := hrec.count
      rw [hc.1, hmax] at hcount
      norm_num at hcount
    · rintro ⟨-, hmax⟩
      refine ⟨?_, hc.2⟩
      rw [hc.1, Nat.mod_eq_of_lt]
      omega
  · constructor
    · intro hrec
      have hcount := hrec.count
      rw [hc.1] at hcount
      omega
    · rintro ⟨h, -⟩
      exact absurd h horigin

variable {s : State N}

theorem addToSendList_inv (h : Inv thisNode s) (o : CarriedObject) (node : N) (n : ℕ) :
    Inv thisNode (addToSendList same s o node n).2 := by
  unfold addToSendList
  split_ifs
  · exact h
  · exact ⟨h.delegating, h.sends⟩

theorem addSend_inv (h : Inv thisNode s) {c : Copy} (hc : c.Sound thisNode) (nodes : List N) :
    Inv thisNode (addSend s c nodes) := by
  refine ⟨h.delegating, ?_⟩
  intro p hp
  rcases List.mem_append.mp hp with hp | hp
  · exact h.sends p hp
  · rw [List.mem_singleton.mp hp]
    exact hc

theorem forwardByDelegate_inv (h : Inv thisNode s) {c : Copy} (hc : c.Sound thisNode) :
    Inv thisNode (forwardByDelegate s c) := by
  refine ⟨?_, h.sends⟩
  intro c' hc'
  rcases List.mem_append.mp hc' with hc' | hc'
  · exact h.delegating c' hc'
  · rw [List.mem_singleton.mp hc']
    exact hc

theorem forwardTo_inv (h : Inv thisNode s) {c : Copy} (hc : c.Sound thisNode)
    (env : Surroundings N) (target : N) : Inv thisNode (forwardTo same env s c target) := by
  unfold forwardTo
  have hadd := @addToSendList_inv N same thisNode s h c.object target 0
  split_ifs
  · simp only
    split_ifs
    · exact addSend_inv hadd hc _
    · exact hadd
  · exact forwardByDelegate_inv h hc
  · exact h

theorem queryLoop_inv (h : Inv thisNode s) (env : Surroundings N) (target : N)
    (objects : List CarriedObject) :
    Inv thisNode (queryLoop same thisNode env target s objects) := by
  induction objects generalizing s with
  | nil => exact h
  | cons o objects ih =>
    unfold queryLoop
    cases hrec : o.recordHop thisNode env.now with
    | none => exact ⟨h.delegating, h.sends⟩
    | some o' =>
      apply ih
      apply forwardTo_inv h
      unfold Copy.Sound
      rw [if_pos rfl]
      exact recordHop_spec o.valid (CarriedObject.recordHop_eq_some hrec)

theorem sound_of_same {origin : Decided} (h : origin ≠ .byObjectQuery) (o : CarriedObject) :
    Copy.Sound thisNode ⟨origin, o, o⟩ := by
  unfold Copy.Sound
  rw [if_neg h]
  exact ⟨rfl, rfl⟩

theorem nodeLoop_inv (h : Inv thisNode s) {c : Copy} (hc : c.Sound thisNode)
    (env : Surroundings N) (neighbors targets : List N) :
    Inv thisNode (nodeLoop same env c s neighbors targets).1 := by
  induction targets generalizing s neighbors with
  | nil => exact h
  | cons target targets ih =>
    unfold nodeLoop
    split_ifs
    · exact ih (addToSendList_inv h _ _ _) _
    · exact ih (forwardByDelegate_inv h hc) _
    · exact ih h _
    · exact ih h _

theorem delegateLoop_inv (h : Inv thisNode s) (env : Surroundings N) (o : CarriedObject)
    (ns delegates : List N) : Inv thisNode (delegateLoop same env o s ns delegates).1 := by
  induction delegates generalizing s ns with
  | nil => exact h
  | cons delegate delegates ih =>
    unfold delegateLoop
    cases env.retrieve delegate with
    | none => exact ih h _
    | some actual =>
      simp only
      by_cases hnew : (env.isNeighbor actual && env.shouldForward o actual) = true
      · rw [if_pos hnew]
        exact ih (addToSendList_inv h _ _ _) _
      · rw [if_neg hnew]
        exact ih h _

theorem handle_inv (h : Inv thisNode s) (a : Act N) : Inv thisNode (handle same thisNode s a) := by
  cases a with
  | objectQueryResult env target objects =>
    cases target with
    | none => exact h
    | some target => exact queryLoop_inv h env target objects
  | nodeQueryResult env object targets =>
    cases object with
    | none => exact h
    | some o =>
      have hsound := @sound_of_same thisNode .byNodeQuery nofun o
      have hloop := @nodeLoop_inv N same thisNode s h _ hsound env [] targets
      simp only [handle, onNodeQueryResult]
      split_ifs
      · exact hloop
      · exact addSend_inv hloop hsound _
  | forward env object target =>
    cases object with
    | none => exact h
    | some o =>
      cases target with
      | none => exact h
      | some target =>
        exact forwardTo_inv h (@sound_of_same thisNode .byForwardEvent nofun o) env target
  | delegateNodes env i delegates =>
    simp only [handle]
    cases hi : s.delegating[i]? with
    | none => exact h
    | some c =>
      have hsound := h.delegating c (List.mem_of_getElem? hi)
      have hloop := @delegateLoop_inv N same thisNode s h env c.object [] delegates
      simp only [Option.elim_some, onDelegateNodes]
      split_ifs
      · exact hloop
      · exact addSend_inv hloop hsound.markDelegated _
  | sendResult env successful o node =>
    simp only [handle, onSendDataObjectResult]
    cases s.forwardedObjects.find? fun f => f.1.id = o.id && same f.2.1 node with
    | none => exact h
    | some f =>
      simp only
      have herase : Inv thisNode (removeFromSendList same s o node) := ⟨h.delegating, h.sends⟩
      have hadd := @addToSendList_inv N same thisNode _ herase o node 1
      split_ifs
      · exact ⟨hadd.delegating, hadd.sends⟩
      · exact hadd
      · exact herase

theorem step_inv (h : Inv thisNode s) (a : Act N) : Inv thisNode (step same thisNode s a) := by
  unfold step
  split_ifs
  · exact h
  · exact handle_inv h a

/-- An object query that returns an element without a count. -/
def Act.HasUncounted : Act N → Prop
  | .objectQueryResult _ target objects =>
    target.isSome ∧ ∃ o ∈ objects, Uncounted o.metadata
  | _ => False

theorem faulted_addToSendList (s : State N) (o : CarriedObject) (node : N) (n : ℕ) :
    (addToSendList same s o node n).2.faulted = s.faulted := by
  unfold addToSendList
  split_ifs <;> rfl

theorem faulted_forwardTo (env : Surroundings N) (s : State N) (c : Copy) (target : N) :
    (forwardTo same env s c target).faulted = s.faulted := by
  unfold forwardTo
  split_ifs
  · simp only
    split_ifs
    · exact faulted_addToSendList s _ _ _
    · exact faulted_addToSendList s _ _ _
  · rfl
  · rfl

theorem faulted_queryLoop (env : Surroundings N) (target : N) (objects : List CarriedObject)
    (hs : s.faulted = false) : (queryLoop same thisNode env target s objects).faulted = true ↔
      ∃ o ∈ objects, Uncounted o.metadata := by
  induction objects generalizing s with
  | nil => simp [queryLoop, hs]
  | cons o objects ih =>
    unfold queryLoop
    rw [List.exists_mem_cons_iff, ← @CarriedObject.recordHop_eq_none_iff thisNode env.now o]
    cases hrec : o.recordHop thisNode env.now with
    | none => simp
    | some o' =>
      simp only [reduceCtorEq, false_or]
      exact ih (by rw [faulted_forwardTo, hs])

theorem faulted_nodeLoop (env : Surroundings N) (c : Copy) (neighbors targets : List N) :
    (nodeLoop same env c s neighbors targets).1.faulted = s.faulted := by
  induction targets generalizing s neighbors with
  | nil => rfl
  | cons target targets ih =>
    unfold nodeLoop
    split_ifs
    · exact (ih _).trans (faulted_addToSendList s _ _ _)
    · exact ih _
    · exact ih _
    · exact ih _

theorem faulted_delegateLoop (env : Surroundings N) (o : CarriedObject) (ns delegates : List N) :
    (delegateLoop same env o s ns delegates).1.faulted = s.faulted := by
  induction delegates generalizing s ns with
  | nil => rfl
  | cons delegate delegates ih =>
    unfold delegateLoop
    cases env.retrieve delegate with
    | none => exact ih _
    | some actual =>
      simp only
      by_cases hnew : (env.isNeighbor actual && env.shouldForward o actual) = true
      · rw [if_pos hnew]
        exact (ih _).trans (faulted_addToSendList s _ _ _)
      · rw [if_neg hnew]
        exact ih _

theorem faulted_handle (hs : s.faulted = false) (a : Act N) :
    (handle same thisNode s a).faulted = true ↔ a.HasUncounted := by
  cases a with
  | objectQueryResult env target objects =>
    cases target with
    | none => simp [handle, onDataObjectQueryResult, Act.HasUncounted, hs]
    | some target =>
      simp only [handle, onDataObjectQueryResult, Act.HasUncounted, Option.isSome_some, true_and]
      exact faulted_queryLoop env target objects hs
  | nodeQueryResult env object targets =>
    cases object with
    | none => simp [handle, onNodeQueryResult, Act.HasUncounted, hs]
    | some o =>
      have hloop := @faulted_nodeLoop N same s env ⟨.byNodeQuery, o, o⟩ [] targets
      simp only [handle, onNodeQueryResult, Act.HasUncounted, iff_false, Bool.not_eq_true]
      split_ifs
      · rw [hloop, hs]
      · exact hloop.trans hs
  | forward env object target =>
    simp only [handle, Act.HasUncounted, iff_false, Bool.not_eq_true]
    cases object with
    | none => exact hs
    | some o =>
      cases target with
      | none => exact hs
      | some target => exact (faulted_forwardTo env s _ target).trans hs
  | delegateNodes env i delegates =>
    simp only [handle, Act.HasUncounted, iff_false, Bool.not_eq_true]
    cases s.delegating[i]? with
    | none => exact hs
    | some c =>
      have hloop := @faulted_delegateLoop N same s env c.object [] delegates
      simp only [Option.elim_some, onDelegateNodes]
      split_ifs
      · rw [hloop, hs]
      · exact hloop.trans hs
  | sendResult env successful o node =>
    simp only [handle, onSendDataObjectResult, Act.HasUncounted, iff_false, Bool.not_eq_true]
    cases s.forwardedObjects.find? fun f => f.1.id = o.id && same f.2.1 node with
    | none => exact hs
    | some f =>
      simp only
      split_ifs
      · exact (faulted_addToSendList _ _ _ _).trans hs
      · exact (faulted_addToSendList _ _ _ _).trans hs
      · exact hs

/-- The handlers fault on an object of a query result whose element has no count, and on nothing
else. -/
theorem faulted_run (as : List (Act N)) (hs : s.faulted = false) :
    (Trace.run (step same thisNode) s as).faulted = true ↔ ∃ a ∈ as, a.HasUncounted := by
  induction as generalizing s with
  | nil => simp [hs]
  | cons a as ih =>
    have hstep : step same thisNode s a = handle same thisNode s a := by simp [step, hs]
    rw [Trace.run_cons, hstep, List.exists_mem_cons_iff, ← @faulted_handle N same thisNode s hs a]
    cases hf : (handle same thisNode s a).faulted with
    | false =>
      rw [ih hf]
      simp
    | true =>
      have hstay := @Trace.invariant _ _ (step same thisNode) (fun s => s.faulted = true)
        (fun s a h => by simp [step, h]) _ hf as
      simp [hstay]

/-- In every run, a copy that is sent for a decision records its hop exactly when the decision was
made on the result of an object query and the stored count does not run over; and the handlers fault
exactly when such a result has an element without a count. -/
theorem recorded_run (as : List (Act N)) :
    ((Trace.run (step same thisNode) init as).faulted = true ↔ ∃ a ∈ as, a.HasUncounted) ∧
      ∀ p ∈ (Trace.run (step same thisNode) (init : State N) as).sends,
        Recorded thisNode p.1.stored.metadata p.1.object.metadata ↔
          p.1.origin = .byObjectQuery ∧ hopCount p.1.stored.metadata ≠ 2 ^ 64 - 1 := by
  have hinv : Inv thisNode (Trace.run (step same thisNode) (init : State N) as) :=
    Trace.invariant (fun s a (h : Inv thisNode s) => step_inv h a) ⟨by simp [init], by simp [init]⟩
      as
  exact ⟨faulted_run as rfl, fun p hp => (hinv.sends p hp).recorded_iff⟩

end Runs

end Forwarding

namespace Sample

open Forwarding

/-- An object without an element of the manager. -/
def plainObject : CarriedObject :=
  ⟨.fill 1, .new (lit "Haggle") [], Metadata.valid_new _ _⟩

/-- Node 7 is a neighbor and nothing is known to be there already. -/
def oneNeighbor : Surroundings ℕ := ⟨fun _ _ => true, (· == 7), fun _ => true, some, lit "5.000000"⟩

/-- A new object is matched with its nodes and sent to the neighbor among them. -/
def nodeQueryRun : List (Act ℕ) := [.nodeQueryResult oneNeighbor (some plainObject) [7]]

/-- The copy is sent as it is stored: without a count and without a hop. -/
theorem not_recorded_nodeQueryRun :
    ∃ p ∈ (Trace.run (step (· == ·) (lit "me")) init nodeQueryRun).sends,
      p.1.stored.metadata = plainObject.metadata ∧ hops p.1.object.metadata = [] ∧
        ¬ Recorded (lit "me") p.1.stored.metadata p.1.object.metadata := by
  refine ⟨(⟨.byNodeQuery, plainObject, plainObject⟩, [7]), ?_, rfl, rfl, ?_⟩
  · exact List.mem_singleton_self _
  · intro hrec
    have hcount := hrec.count
    simp at hcount

end Sample
end Haggle
