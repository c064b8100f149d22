import Haggle.Cascade
import Haggle.Forwarding
import Haggle.StoreQueries

/-!
# Recursive routing updates

When a neighbor is lost, the forwarding manager sends its routing information to its other
neighbors, and a device that receives routing information sends its own to those of its neighbors
that have not been told yet. The nodes that were told are carried along as a list of identifiers in
the metadata of the data object.
-/

namespace Haggle

namespace Node

/-- A node that did not describe itself yet has no identifier to show. -/
def getIdStr (n : Node) : Bytes :=
  if n.type = .undefined then lit "[Unknown id]" else StoredNode.idStr n

/-- What a character stands for in `create_with_id`, where `char` is signed. -/
def hexValue (c : UInt8) : UInt8 :=
  if c ≤ 57 ∨ 128 ≤ c then c - 48 else if c ≤ 71 then c - 65 + 10 else c - 97 + 10

def fromHex : Bytes → Bytes
  | a :: b :: l => (hexValue a * 16 + hexValue b) :: fromHex l
  | _ => []

theorem length_fromHex (s : Bytes) : (fromHex s).length = s.length / 2 := by
  induction s using fromHex.induct with
  | case1 a b l ih =>
    rw [fromHex, List.length_cons, ih, List.length_cons, List.length_cons]
    omega
  | case2 s hs =>
    match s, hs with
    | [], _ => rfl
    | [a], _ => simp [fromHex]
    | a :: b :: l, hs => exact absurd rfl (hs a b l)

theorem length_fromHex_cStr {idStr : Bytes} (h : (cStr idStr).length = 40) :
    (fromHex (cStr idStr)).length = 20 := by
  rw [length_fromHex, h]

/-- A peer of which the identifier is known. The rest is what a new node has. -/
def known (blank : Node) (id : Digest) : Node :=
  { blank with type := .peer, id := id, interfaces := [] }

/-- `Node::create_with_id` for a peer, from the text of its identifier. -/
def createWithId (blank : Node) (idStr : Bytes) : Option Node :=
  if h : (cStr idStr).length = 40 then
    some (known blank ⟨fromHex (cStr idStr), length_fromHex_cStr h⟩)
  else none

theorem hexValue_hexDigit {n : ℕ} (h : n < 16) :
    (hexValue (Interface.hexDigit n)).toNat = n ∧ Interface.hexDigit n ≠ 0 := by
  have hall : ∀ n < 16, (hexValue (Interface.hexDigit n)).toNat = n ∧ Interface.hexDigit n ≠ 0 := by
    decide
  exact hall n h

theorem fromHex_hexByte (s : Bytes) : fromHex (s.flatMap Interface.hexByte) = s := by
  induction s with
  | nil => rfl
  | cons b s ih =>
    have hb := b.toNat_lt
    rw [List.flatMap_cons]
    change (_ :: fromHex (s.flatMap Interface.hexByte)) = _
    rw [ih]
    congr 1
    apply UInt8.toNat_inj.mp
    rw [UInt8.toNat_add, UInt8.toNat_mul, (hexValue_hexDigit (by omega)).1,
      (hexValue_hexDigit (by omega)).1]
    change (b.toNat / 16 * 16 % 256 + b.toNat % 16) % 256 = b.toNat
    omega

theorem cStr_idStr (n : Node) : cStr (StoredNode.idStr n) = StoredNode.idStr n := by
  apply List.takeWhile_eq_self_iff.mpr
  intro c hc
  obtain ⟨b, -, hb⟩ := List.mem_flatMap.mp hc
  have hlt := b.toNat_lt
  simp only [Interface.hexByte, List.mem_cons, List.not_mem_nil, or_false] at hb
  rcases hb with rfl | rfl
  · exact decide_eq_true (hexValue_hexDigit (by omega)).2
  · exact decide_eq_true (hexValue_hexDigit (by omega)).2

theorem length_idStr (n : Node) : (StoredNode.idStr n).length = 40 := by
  unfold StoredNode.idStr
  rw [List.length_flatMap]
  have hmap : n.id.1.map (fun b => (Interface.hexByte b).length) = List.replicate 20 2 := by
    rw [List.eq_replicate_iff, List.length_map]
    refine ⟨n.id.2, fun k hk => ?_⟩
    obtain ⟨b, -, rfl⟩ := List.mem_map.mp hk
    rfl
  rw [hmap]
  rfl

theorem createWithId_getIdStr (blank n : Node) : createWithId blank n.getIdStr =
    if n.type = .undefined then none else some (known blank n.id) := by
  unfold createWithId getIdStr
  by_cases h : n.type = .undefined
  · simp only [h, if_true]
    rfl
  · simp only [h, if_false, cStr_idStr, length_idStr, dite_true]
    congr 2
    exact Subtype.ext (fromHex_hexByte n.id.1)

end Node

namespace RoutingUpdates

open Forwarding (managerName)

section Codec

def nodeElement (n : Node) : Metadata :=
  (Metadata.new (lit "Node") []).setParameter (lit "node_id") n.getIdStr

def recurseElement (recurse_list : List Node) : Metadata :=
  recurse_list.foldl (fun tm n => tm.addMetadata (nodeElement n)) (.new (lit "RecurseList") [])

def recurseListToMetadata (m : Metadata) (recurse_list : List Node) : Metadata :=
  m.addMetadata (recurseElement recurse_list)

def metadataToRecurseList (blank : Node) (m : Option Metadata) : List Node :=
  match m with
  | none => []
  | some m =>
    if m.name = lit "RecurseList" then
      (m.getAll (lit "Node")).filterMap fun tm =>
        (tm.getParameter (lit "node_id")).bind (Node.createWithId blank)
    else []

theorem recurseElement_spec (l : List Node) : (recurseElement l).name = lit "RecurseList" ∧
    (recurseElement l).getAll (lit "Node") = l.map nodeElement := by
  have hvalid : ∀ c ∈ l.map nodeElement, c.Valid := by
    intro c hc
    obtain ⟨n, -, rfl⟩ := List.mem_map.mp hc
    exact Metadata.valid_setParameter (Metadata.valid_new _ _) _ _
  have hnode : (l.map nodeElement).filter (fun c => c.name = lit "Node") = l.map nodeElement := by
    apply List.filter_eq_self.mpr
    intro c hc
    obtain ⟨n, -, rfl⟩ := List.mem_map.mp hc
    exact decide_eq_true rfl
  obtain ⟨hname, -, hall⟩ := Metadata.foldl_addMetadata (l.map nodeElement)
    (Metadata.valid_new (lit "RecurseList") []) hvalid
  rw [List.foldl_map] at hname hall
  refine ⟨hname, ?_⟩
  rw [recurseElement, hall, Metadata.getAll_new, hnode, List.nil_append]

/-- Nodes with an identifier come back with it, and with nothing else; the others get lost. -/
theorem metadataToRecurseList_eq (blank : Node) {m : Metadata} (hm : m.Valid)
    (hnone : m.getMetadata (lit "RecurseList") = none) (l : List Node) :
    metadataToRecurseList blank ((recurseListToMetadata m l).getMetadata (lit "RecurseList")) =
      (l.filter fun n => n.type ≠ .undefined).map fun n => Node.known blank n.id := by
  have hget : (recurseListToMetadata m l).getMetadata (lit "RecurseList") =
      some (recurseElement l) := by
    rw [Metadata.getMetadata, List.head?_eq_none_iff] at hnone
    rw [recurseListToMetadata, Metadata.getMetadata, Metadata.getAll_addMetadata hm, hnone,
      if_pos (recurseElement_spec l).1]
    rfl
  have hread : ∀ n : Node, ((nodeElement n).getParameter (lit "node_id")).bind
      (Node.createWithId blank) =
        if n.type = .undefined then none else some (Node.known blank n.id) := by
    intro n
    rw [nodeElement, Metadata.getParameter_setParameter_self, Option.bind_some,
      Node.createWithId_getIdStr]
  rw [hget, metadataToRecurseList, if_pos (recurseElement_spec l).1, (recurseElement_spec l).2,
    List.filterMap_map]
  clear hget
  induction l with
  | nil => rfl
  | cons n l ih =>
    rw [List.filterMap_cons, Function.comp_apply, hread, ih]
    by_cases h : n.type = .undefined
    · rw [if_pos h, List.filter_cons_of_neg (by simp [h])]
    · rw [if_neg h, List.filter_cons_of_pos (by simp [h]), List.map_cons]

end Codec

section Update

variable {V : Type}

/-- The neighbors that are told, and the nodes that have been told then. -/
def notifyLoop : List (Node × V) → List Node → List (Node × V) × List Node
  | [], recurse_list => ([], recurse_list)
  | neighbor :: neighbors, recurse_list =>
    if recurse_list.any fun n => neighbor.1.same n then notifyLoop neighbors recurse_list
    else
      let (notify_list, recurse_list) := notifyLoop neighbors (recurse_list ++ [neighbor.1])
      (neighbor :: notify_list, recurse_list)

/-- `recursiveRoutingUpdate`: the tasks that it gives to the forwarding module, with the list that
all of them carry. -/
def recursiveRoutingUpdate (blank : Node) (neighbors : List (Node × V)) (peer : Node)
    (m : Option Metadata) : List (Node × V) × List Node :=
  let recurse_list := m.elim [] fun m =>
    metadataToRecurseList blank (m.getMetadata (lit "RecurseList"))
  notifyLoop neighbors (if recurse_list.length = 0 then [peer] else recurse_list)

/-- What the forwarding module of a device puts into its data object: an element that is named as
the module is. -/
structure Info where
  metadata : Metadata
  valid : metadata.Valid
  name_ne : metadata.name ≠ lit "RecurseList"

/-- A routing update on its way, for the neighbor that `notified` is the node of. -/
structure Message (V : Type) where
  sender : V
  dest : V
  notified : Node
  recurse_list : List Node
  info : Info

/-- The element of the manager in the data object. -/
def Message.element (msg : Message V) : Metadata :=
  recurseListToMetadata ((Metadata.new managerName []).addMetadata msg.info.metadata)
    msg.recurse_list

/-- The nodes that the receiver takes from the data object. -/
def Message.received (blank : Node) (msg : Message V) : List Node :=
  metadataToRecurseList blank (msg.element.getMetadata (lit "RecurseList"))

/-- Devices with the neighbors in their node stores, each with the device that it is; with the node
that they retrieve for an interface of another device; and with what they take for routing
information to answer, which depends on the forwarding module and the configuration. -/
structure Network (V : Type) where
  blank : Node
  thisNode : V → Node
  neighbors : V → List (Node × V)
  retrieve : V → V → Option Node
  hasRoutingInformation : V → Metadata → Bool

/-- What a device does besides when it is to send its routing information: which tasks end in an
event to send, and the information in them. -/
structure Tasks where
  sent : Node → Bool
  info : Node → Info

def notices (v : V) (ts : Tasks) (update : List (Node × V) × List Node) : List (Message V) :=
  (update.1.filter fun n => ts.sent n.1).map fun n => ⟨v, n.2, n.1, update.2, ts.info n.1⟩

def onRoutingInformation (net : Network V) (msg : Message V) (ts : Tasks) : List (Message V) :=
  match net.retrieve msg.dest msg.sender with
  | none => []
  | some peer =>
    if peer.same (net.thisNode msg.dest) then []
    else if net.hasRoutingInformation msg.dest msg.element then
      notices msg.dest ts
        (recursiveRoutingUpdate net.blank (net.neighbors msg.dest) peer (some msg.element))
    else []

/-- `onEndNeighbor`. -/
def onEndNeighbor (net : Network V) (v : V) (node : Node) (ts : Tasks) : List (Message V) :=
  if node.type = .undefined then []
  else notices v ts (recursiveRoutingUpdate net.blank (net.neighbors v) node none)

/-- The messages in flight after a list of deliveries. -/
def cascade (net : Network V) (s : List (Message V)) (ds : List (ℕ × Tasks)) : List (Message V) :=
  Trace.run (Cascade.deliver (onRoutingInformation net)) s ds

/-- The list of a message survives its encoding, and every answer to the message tells a node that
is not in the list, with a list that has all of its nodes and a further one. -/
structure Proper (net : Network V) (msg : Message V) : Prop where
  survives : (msg.received net.blank).map Node.id = msg.recurse_list.map Node.id
  answers : ∀ ts, ∀ ans ∈ onRoutingInformation net msg ts,
    (msg.received net.blank).all (fun n => !ans.notified.same n) = true ∧
      (∀ id ∈ (msg.received net.blank).map Node.id, id ∈ ans.recurse_list.map Node.id) ∧
      ∃ id ∈ ans.recurse_list.map Node.id, id ∉ (msg.received net.blank).map Node.id

/-- The updates that the messages lead to come to an end, whatever the order of deliveries. -/
def Finite (net : Network V) (s : List (Message V)) : Prop :=
  ∃ bound, ∀ ds, Trace.Guarded (Cascade.deliver (onRoutingInformation net)) Cascade.InFlight s ds →
    ds.length ≤ bound

/-- All neighbors have described themselves. -/
def Network.Known (net : Network V) : Prop := ∀ v, ∀ n ∈ net.neighbors v, n.1.type ≠ .undefined

end Update

section Spec

variable {V : Type} {net : Network V} {msg : Message V}

theorem Message.received_eq (blank : Node) (msg : Message V) : msg.received blank =
    (msg.recurse_list.filter fun n => n.type ≠ .undefined).map fun n => Node.known blank n.id := by
  have hnew := Metadata.valid_new managerName [] (c := .signed)
  apply metadataToRecurseList_eq blank (Metadata.valid_addMetadata hnew msg.info.valid)
  rw [Metadata.getMetadata, Metadata.getAll_addMetadata hnew, if_neg msg.info.name_ne]
  rfl

theorem notifyLoop_spec (neighbors : List (Node × V)) (recurse_list : List Node) :
    ∃ new, notifyLoop neighbors recurse_list = (new, recurse_list ++ new.map Prod.fst) ∧
      new.Sublist neighbors ∧ ∀ p ∈ new, ∀ n ∈ recurse_list, p.1.same n = false := by
  induction neighbors generalizing recurse_list with
  | nil => exact ⟨[], by simp [notifyLoop], List.Sublist.refl _, nofun⟩
  | cons neighbor neighbors ih =>
    unfold notifyLoop
    split_ifs with hmem
    · obtain ⟨new, heq, hsub, hnew⟩ := ih recurse_list
      exact ⟨new, heq, hsub.cons _, hnew⟩
    · obtain ⟨new, heq, hsub, hnew⟩ := ih (recurse_list ++ [neighbor.1])
      rw [Bool.not_eq_true, List.any_eq_false] at hmem
      refine ⟨neighbor :: new, ?_, hsub.cons_cons _, ?_⟩
      · simp only [heq, List.map_cons, List.append_assoc, List.singleton_append]
      · intro p hp n hn
        rcases List.mem_cons.mp hp with rfl | hp
        · exact Bool.eq_false_iff.mpr (hmem n hn)
        · exact hnew p hp n (List.mem_append_left _ hn)

theorem same_of_known {n m : Node} (hn : n.type ≠ .undefined) (hm : m.type ≠ .undefined) :
    n.same m = decide (n.id = m.id) := by
  unfold Node.same
  rw [if_neg (not_or.mpr ⟨hn, hm⟩)]

/-- All nodes of the list have an identifier, and there are some. -/
structure Message.Described (msg : Message V) : Prop where
  nonempty : msg.recurse_list ≠ []
  type_ne : ∀ n ∈ msg.recurse_list, n.type ≠ .undefined

theorem Message.Described.received_eq (h : msg.Described) (blank : Node) :
    msg.received blank = msg.recurse_list.map fun n => Node.known blank n.id := by
  rw [Message.received_eq, List.filter_eq_self.mpr]
  exact fun n hn => decide_eq_true (h.type_ne n hn)

theorem Message.Described.map_id_received (h : msg.Described) (blank : Node) :
    (msg.received blank).map Node.id = msg.recurse_list.map Node.id := by
  rw [h.received_eq, List.map_map]
  rfl

/-- Each notice tells a neighbor that is not in the list, and the list of the notice has all the
neighbors that are told. -/
theorem mem_notices {v : V} {ts : Tasks} {neighbors : List (Node × V)} {l : List Node}
    {ans : Message V} (h : ans ∈ notices v ts (notifyLoop neighbors l)) :
    ∃ new : List (Node × V), ans.recurse_list = l ++ new.map Prod.fst ∧
      (∀ p ∈ new, p ∈ neighbors ∧ ∀ n ∈ l, p.1.same n = false) ∧
      ans.notified ∈ new.map Prod.fst := by
  obtain ⟨new, heq, hsub, hnew⟩ := notifyLoop_spec neighbors l
  rw [heq] at h
  obtain ⟨p, hp, rfl⟩ := List.mem_map.mp h
  have hp' := (List.mem_filter.mp hp).1
  refine ⟨new, rfl, fun q hq => ⟨hsub.subset hq, hnew q hq⟩, ?_⟩
  exact List.mem_map_of_mem hp'

theorem length_notices (v : V) (ts : Tasks) (neighbors : List (Node × V)) (l : List Node) :
    (notices v ts (notifyLoop neighbors l)).length ≤ neighbors.length := by
  obtain ⟨new, heq, hsub, -⟩ := notifyLoop_spec neighbors l
  unfold notices
  rw [heq, List.length_map]
  exact (List.length_filter_le _ _).trans hsub.length_le

theorem onRoutingInformation_cases (net : Network V) (msg : Message V) (ts : Tasks) :
    onRoutingInformation net msg ts = [] ∨ ∃ peer, onRoutingInformation net msg ts =
      notices msg.dest ts (notifyLoop (net.neighbors msg.dest)
        (if (msg.received net.blank).length = 0 then [peer] else msg.received net.blank)) := by
  unfold onRoutingInformation
  cases net.retrieve msg.dest msg.sender with
  | none => exact .inl rfl
  | some peer =>
    by_cases hself : peer.same (net.thisNode msg.dest) = true
    · exact .inl (if_pos hself)
    · by_cases hinfo : net.hasRoutingInformation msg.dest msg.element = true
      · exact .inr ⟨peer, (if_neg hself).trans (if_pos hinfo)⟩
      · exact .inl ((if_neg hself).trans (if_neg hinfo))

theorem length_onRoutingInformation (net : Network V) (msg : Message V) (ts : Tasks) :
    (onRoutingInformation net msg ts).length ≤ (net.neighbors msg.dest).length := by
  rcases onRoutingInformation_cases net msg ts with heq | ⟨peer, heq⟩
  · rw [heq]
    exact Nat.zero_le _
  · rw [heq]
    exact length_notices _ _ _ _

/-- What is told of a message whose list has identifiers only, among neighbors that have them. -/
theorem Message.Described.answer (h : msg.Described) (hknown : net.Known) {ts : Tasks}
    {ans : Message V} (hans : ans ∈ onRoutingInformation net msg ts) :
    ans.Described ∧ (∀ n ∈ msg.received net.blank, ans.notified.same n = false) ∧
      (∃ p ∈ net.neighbors msg.dest, p.1 = ans.notified) ∧
      ans.notified.id ∉ msg.recurse_list.map Node.id ∧
      ans.notified.id ∈ ans.recurse_list.map Node.id ∧
      ∀ id ∈ msg.recurse_list.map Node.id, id ∈ ans.recurse_list.map Node.id := by
  have hreceived := h.received_eq net.blank
  have hne : (msg.received net.blank).length ≠ 0 := by
    rw [hreceived, List.length_map]
    exact fun hlen => h.nonempty (List.length_eq_zero_iff.mp hlen)
  rcases onRoutingInformation_cases net msg ts with heq | ⟨peer, heq⟩
  · rw [heq] at hans
    cases hans
  · rw [heq, if_neg hne] at hans
    obtain ⟨new, hlist, hnew, hnotified⟩ := mem_notices hans
    obtain ⟨p, hp, hpeq⟩ := List.mem_map.mp hnotified
    obtain ⟨hneighbor, hunequal⟩ := hnew p hp
    have hids := h.map_id_received net.blank
    refine ⟨⟨?_, ?_⟩, ?_, ⟨p, hneighbor, hpeq⟩, ?_, ?_, ?_⟩
    · rw [hlist]
      exact fun hnil => hne (by rw [(List.append_eq_nil_iff.mp hnil).1]; rfl)
    · intro n hn
      rw [hlist] at hn
      rcases List.mem_append.mp hn with hn | hn
      · rw [hreceived] at hn
        obtain ⟨m, -, rfl⟩ := List.mem_map.mp hn
        exact nofun
      · obtain ⟨q, hq, rfl⟩ := List.mem_map.mp hn
        exact hknown _ q (hnew q hq).1
    · intro n hn
      rw [← hpeq]
      exact hunequal n hn
    · intro hmem
      rw [← hids] at hmem
      obtain ⟨n, hn, hid⟩ := List.mem_map.mp hmem
      have htype : n.type ≠ .undefined := by
        rw [hreceived] at hn
        obtain ⟨m, -, rfl⟩ := List.mem_map.mp hn
        exact nofun
      have hsame := hunequal n hn
      rw [same_of_known (hknown _ p hneighbor) htype, decide_eq_false_iff_not, hpeq] at hsame
      exact hsame hid.symm
    · rw [hlist, List.map_append]
      exact List.mem_append_right _ (List.mem_map_of_mem hnotified)
    · intro id hid
      rw [hlist, List.map_append, hids]
      exact List.mem_append_left _ hid

theorem Message.Described.proper (h : msg.Described) (hknown : net.Known) : Proper net msg := by
  refine ⟨h.map_id_received net.blank, fun ts ans hans => ?_⟩
  obtain ⟨-, hfresh, -, hnew, hself, hmono⟩ := h.answer hknown hans
  rw [h.map_id_received]
  refine ⟨?_, hmono, ans.notified.id, hself, hnew⟩
  rw [List.all_eq_true]
  intro n hn
  rw [hfresh n hn]
  rfl

theorem described_onEndNeighbor (hknown : net.Known) {v : V} {node : Node} {ts : Tasks}
    (h : msg ∈ onEndNeighbor net v node ts) : msg.Described := by
  unfold onEndNeighbor at h
  split_ifs at h with hnode
  · cases h
  · obtain ⟨new, hlist, hnew, -⟩ := mem_notices h
    refine ⟨?_, ?_⟩
    · rw [hlist]
      exact List.cons_ne_nil _ _
    · intro n hn
      rw [hlist] at hn
      rcases List.mem_append.mp hn with hn | hn
      · rw [List.mem_singleton.mp hn]
        exact hnode
      · obtain ⟨q, hq, rfl⟩ := List.mem_map.mp hn
        exact hknown _ q (hnew q hq).1

end Spec

section Termination

variable {V : Type} [Fintype V] {net : Network V}

/-- The identifiers of all neighbors in the network. -/
def Network.ids (net : Network V) : Finset Digest :=
  Finset.univ.biUnion fun v => ((net.neighbors v).map fun n => n.1.id).toFinset

/-- The neighbors that a message can still reach. -/
def missing (net : Network V) (msg : Message V) : ℕ :=
  (net.ids \ (msg.recurse_list.map Node.id).toFinset).card

theorem Message.Described.missing_lt {msg : Message V} (h : msg.Described) (hknown : net.Known)
    {ts : Tasks} {ans : Message V} (hans : ans ∈ onRoutingInformation net msg ts) :
    missing net ans < missing net msg := by
  obtain ⟨-, -, ⟨p, hp, hpeq⟩, hnew, hself, hmono⟩ := h.answer hknown hans
  have hid : ans.notified.id ∈ net.ids := by
    rw [Network.ids, Finset.mem_biUnion]
    refine ⟨msg.dest, Finset.mem_univ _, List.mem_toFinset.mpr ?_⟩
    rw [← hpeq]
    exact List.mem_map_of_mem hp
  apply Finset.card_lt_card
  rw [Finset.ssubset_iff_of_subset]
  · refine ⟨ans.notified.id, ?_, ?_⟩
    · exact Finset.mem_sdiff.mpr ⟨hid, fun h' => hnew (List.mem_toFinset.mp h')⟩
    · exact fun h' => (Finset.mem_sdiff.mp h').2 (List.mem_toFinset.mpr hself)
  · apply Finset.sdiff_subset_sdiff (Finset.Subset.refl _)
    intro id hid
    exact List.mem_toFinset.mpr (hmono id (List.mem_toFinset.mp hid))

/-- Among neighbors that have described themselves, the updates that follow the loss of a neighbor
come to an end, and all of them are proper. -/
theorem finite_proper_of_known (net : Network V) (hknown : net.Known) (v : V) (node : Node)
    (ts : Tasks) : Finite net (onEndNeighbor net v node ts) ∧
      ∀ ds, ∀ msg ∈ cascade net (onEndNeighbor net v node ts) ds, Proper net msg := by
  have hstep : ∀ msg : Message V, msg.Described → ∀ ts, ∀ ans ∈ onRoutingInformation net msg ts,
      ans.Described ∧ missing net ans < missing net msg :=
    fun msg h ts ans hans => ⟨(h.answer hknown hans).1, h.missing_lt hknown hans⟩
  have hfirst : ∀ msg ∈ onEndNeighbor net v node ts, msg.Described :=
    fun msg h => described_onEndNeighbor hknown h
  constructor
  · have hwidth : ∀ msg : Message V, msg.Described → ∀ ts,
        (onRoutingInformation net msg ts).length ≤
          Finset.univ.sup fun v => (net.neighbors v).length := by
      intro msg _ ts
      have hle : (net.neighbors msg.dest).length ≤
          Finset.univ.sup fun v => (net.neighbors v).length :=
        Finset.le_sup (f := fun v => (net.neighbors v).length) (Finset.mem_univ msg.dest)
      exact (length_onRoutingInformation net msg ts).trans hle
    exact ⟨_, fun ds hds => Cascade.length_le_weight hstep hwidth hfirst hds⟩
  · intro ds msg hmsg
    have hall : ∀ msg ∈ cascade net (onEndNeighbor net v node ts) ds, msg.Described :=
      @Trace.invariant _ _ _ (fun s : List (Message V) => ∀ msg ∈ s, msg.Described)
        (fun s d h => Cascade.forall_deliver hstep h d) _ hfirst ds
    exact (hall msg hmsg).proper hknown

end Termination

end RoutingUpdates

namespace Sample

open RoutingUpdates

def wlan (b : Bool) : Interface := ⟨.wifi, [0, 0, 0, 0, 0, if b then 1 else 2], [], true⟩

/-- The node of one of two devices, as the other one has it in its node store. -/
def deviceNode (type : NodeType) (b : Bool) : Node :=
  ⟨type, .fill (if b then 1 else 2), lit "device", HashMap.empty, [wlan b],
    ⟨0, 0⟩, 0, 0, ⟨false, []⟩⟩

/-- A neighbor that both devices had. -/
def lostNode : Node :=
  ⟨.peer, .fill 3, lit "lost", HashMap.empty, [], ⟨0, 0⟩, 0, 0, ⟨false, []⟩⟩

/-- Two devices that are neighbors of each other. -/
def pair (type : NodeType) : Network Bool where
  blank := lostNode
  thisNode := deviceNode .localDevice
  neighbors b := [(deviceNode type !b, !b)]
  retrieve _ b' := some (deviceNode type b')
  hasRoutingInformation _ _ := true

def allSent : Tasks := ⟨fun _ => true, fun _ => ⟨.new (lit "Prophet") [], Metadata.valid_new _ _,
  by decide⟩⟩

theorem finite_proper_pair : (pair .peer).Known ∧
    onEndNeighbor (pair .peer) true lostNode allSent ≠ [] ∧
    Finite (pair .peer) (onEndNeighbor (pair .peer) true lostNode allSent) := by
  have hknown : (pair .peer).Known := by
    intro v n hn
    rw [List.mem_singleton.mp hn]
    exact nofun
  exact ⟨hknown, List.cons_ne_nil _ _,
    (finite_proper_of_known (pair .peer) hknown true lostNode allSent).1⟩

/-- An update that a device sends to a neighbor without an identifier. -/
def echo (n : Node) (b : Bool) : Message Bool :=
  ⟨b, !b, deviceNode .undefined !b, [n, deviceNode .undefined !b], allSent.info n⟩

/-- The neighbor does not find itself in the list, and the device that it answers neither. -/
theorem onRoutingInformation_echo {n : Node} (hn : n.type ≠ .undefined) (b : Bool) :
    onRoutingInformation (pair .undefined) (echo n b) allSent =
      [echo (Node.known lostNode n.id) !b] := by
  have hreceived : (echo n b).received lostNode = [Node.known lostNode n.id] := by
    rw [Message.received_eq, echo, List.filter_cons_of_pos (by simpa using hn)]
    rfl
  have hupdate : recursiveRoutingUpdate lostNode [(deviceNode .undefined !(!b), !(!b))]
      (deviceNode .undefined b) (some (echo n b).element) =
        ([(deviceNode .undefined !(!b), !(!b))],
          [Node.known lostNode n.id, deviceNode .undefined !(!b)]) := by
    change notifyLoop _ (if ((echo n b).received lostNode).length = 0 then _ else
      (echo n b).received lostNode) = _
    rw [hreceived]
    rfl
  have hother : (deviceNode .undefined b).same (deviceNode .localDevice !b) = false := by
    cases b <;> rfl
  have hanswer : onRoutingInformation (pair .undefined) (echo n b) allSent =
      notices (!b) allSent (recursiveRoutingUpdate lostNode [(deviceNode .undefined !(!b), !(!b))]
        (deviceNode .undefined b) (some (echo n b).element)) :=
    if_neg (Bool.eq_false_iff.mp hother)
  rw [hanswer, hupdate]
  rfl

theorem guarded_echo (k : ℕ) {n : Node} (hn : n.type ≠ .undefined) (b : Bool) :
    Trace.Guarded (Cascade.deliver (onRoutingInformation (pair .undefined))) Cascade.InFlight
      [echo n b] (List.replicate k (0, allSent)) := by
  induction k generalizing n b with
  | zero => exact trivial
  | succ k ih =>
    refine ⟨Nat.one_pos, ?_⟩
    have hstep : Cascade.deliver (onRoutingInformation (pair .undefined)) [echo n b] (0, allSent) =
        [echo (Node.known lostNode n.id) !b] := onRoutingInformation_echo hn b
    have hknown : (Node.known lostNode n.id).type ≠ .undefined := NodeType.noConfusion
    rw [hstep]
    exact ih hknown _

/-- Two devices that do not know each other's identifier: the update that one of them sends when it
loses a third goes back and forth without end. -/
theorem not_finite_pair :
    ¬ Finite (pair .undefined) (onEndNeighbor (pair .undefined) true lostNode allSent) := by
  rintro ⟨bound, hbound⟩
  have hfirst : onEndNeighbor (pair .undefined) true lostNode allSent = [echo lostNode true] := rfl
  rw [hfirst] at hbound
  have hknown : lostNode.type ≠ .undefined := NodeType.noConfusion
  have hle := hbound _ (guarded_echo (bound + 1) hknown true)
  rw [List.length_replicate] at hle
  omega

end Sample
end Haggle
