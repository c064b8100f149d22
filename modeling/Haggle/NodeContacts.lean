import Haggle.NodePeers

/-!
# Contacts with peers

A contact is announced when the data store calls back, or when a description of a node arrives that
is not in the store, and not when the record of a node is replaced. Whether the peer of the node is
a neighbor already is not looked at.
-/

namespace Haggle

/-- Beginning with `b`, the values of a list alternate. -/
def Alternating : Bool → List Bool → Prop
  | _, [] => True
  | b, x :: l => x = b ∧ Alternating (!b) l

theorem alternating_append_singleton {l : List Bool} {b x : Bool} (h : Alternating b l)
    (hx : x = (l.getLast?).elim b (!·)) : Alternating b (l ++ [x]) := by
  induction l generalizing b with
  | nil => exact ⟨hx, trivial⟩
  | cons y l ih =>
    obtain ⟨rfl, hl⟩ := h
    refine ⟨rfl, ih hl ?_⟩
    cases l with
    | nil => exact hx
    | cons z l =>
      rw [List.getLast?_cons_cons] at hx
      rw [hx]
      cases hlast : (z :: l).getLast? with
      | none => simp at hlast
      | some w => rfl

namespace NodeManager

variable {env : Surroundings}

section Consistent

variable (peers : Peers env)

/-- What is posted for a peer. -/
def Peers.contactsOf (p : Digest) (s : State) : List Bool :=
  (s.contacts.filter fun c => peers.peerOf c.node = some p).map (·.isNew)

/-- The peer is in the store as an available neighbor. -/
def Peers.InStore (p : Digest) (s : State) : Prop :=
  ∃ r ∈ s.store.records, ∃ n, s.node r = some n ∧ n.isNeighbor = true ∧ peers.peerOf n = some p

/-- Contacts with each peer begin and end in turn, and it is a neighbor during them. -/
structure Peers.Consistent (s : State) : Prop where
  alternating : ∀ p, Alternating true (peers.contactsOf p s)
  last : ∀ p, (peers.contactsOf p s).getLast? = some true ↔ peers.InStore p s

end Consistent

section Conditions

variable (peers : Peers env)

/-- A node that a description brings has no interface that is up and shares none with a record, or
it is of a peer that has no record, or one with which the node shares an interface and one of the
two has an interface of the node that is up. -/
def Peers.UpdateOk (now : Timeval) (stored : Interface → Bool) (s : State) (n : Node) : Prop :=
  ((syncInterfaces now stored n).isAvailable = false ∧ ∀ r ∈ s.store.records, ∀ m,
    s.node r = some m → m.interfaces.any n.hasInterface = false) ∨
  ∃ p, peers.IsOf p n.sig ∧ ∀ r ∈ s.store.records, ∀ m, s.node r = some m →
    peers.peerOf m = some p → m.interfaces.any n.hasInterface = true ∧
      (n.isAvailable = true ∨ ∃ i ∈ m.interfaces, i.isUp = true ∧ n.hasInterface i = true)

/-- A node that comes from the data store is available, and its peer no neighbor. -/
def Peers.RetrieveOk (s : State) (n : Node) : Prop :=
  ∃ p, peers.IsOf p n.sig ∧ n.isAvailable = true ∧ ¬ peers.InStore p s

def Peers.Disciplined (s : State) : Act → Prop
  | .interfaceUp _ _ => True
  | .interfaceDown _ i => env.thisNode.hasInterface i = false
  | .retrieved now position node isUp => ∀ i ∈ s.retrieving[position]?,
      peers.RetrieveOk s (node.getD (undefinedNode env now { i with isUp := isUp }))
  | .descriptions now stored running ds => running = true →
      Trace.Guarded (receiveNodeDescription env now stored)
        (fun s d => ∀ n ∈ updatesWith env now s d, peers.UpdateOk now stored s n) s ds
  | .inserted now stored position bloomfilter => ∀ n ∈ s.inserting[position]?,
      peers.UpdateOk now stored s { n with bloomfilter := bloomfilter }

end Conditions

section Invariant

variable (peers : Peers env)

/-- The store holds a peer just while the last contact that was posted for it is a new one. -/
structure Peers.Inv (s : State) : Prop where
  stored : peers.Stored s.store
  alternating : ∀ p, Alternating true (peers.contactsOf p s)
  last : ∀ p, (peers.contactsOf p s).getLast? = some true ↔ peers.Holds p s.store

variable {peers} {s s' : State} {p q : Digest}

theorem Peers.Stored.inStore_iff (h : peers.Stored s.store) (p : Digest) :
    peers.InStore p s ↔ peers.Holds p s.store := by
  constructor
  · rintro ⟨r, hr, n, hn, hneighbor, hpeer⟩
    have hsig : s.store.heap.sig r = some n.sig := congrArg (Option.map Node.sig) hn
    rcases h.each r hr with hdevice | ⟨q, a, ha, hof, -⟩
    · have htype : n.type = .localDevice :=
        (congrArg NodeSig.type (Option.some.inj (hsig.symm.trans hdevice))).trans env.isDevice
      simp [Node.isNeighbor, htype] at hneighbor
    · obtain rfl : n.sig = a := Option.some.inj (hsig.symm.trans ha)
      obtain rfl : q = p := Option.some.inj (hof.peerOf.symm.trans hpeer)
      exact ⟨r, hr, n.sig, ha, hof⟩
  · rintro ⟨r, hr, a, ha, hof⟩
    obtain ⟨n, hn, rfl⟩ := Option.map_eq_some_iff.mp ha
    refine ⟨r, hr, n, hn, ?_, hof.peerOf⟩
    have htype : n.type = .peer ∨ n.type = .undefined ∨ n.type = .gateway := hof.type
    rcases h.each r hr with hdevice | ⟨q, b, hb, hq, x, m, hm, hup⟩
    · have heq : n.type = .localDevice :=
        (congrArg NodeSig.type (Option.some.inj (ha.symm.trans hdevice))).trans env.isDevice
      simp [heq] at htype
    · obtain rfl : n = m := Option.some.inj (hn.symm.trans hm)
      have havailable : n.isAvailable = true := isAvailable_iff.mpr ⟨x, hup⟩
      unfold Node.isNeighbor
      rcases htype with htype | htype | htype
      all_goals simp [htype, havailable]

theorem Peers.inv_init : peers.Inv (init env) := by
  have hsig : (init env).store.heap.sig 0 = some env.thisNode.sig := rfl
  refine ⟨⟨fun r hr => ?_, List.pairwise_singleton _ _⟩, fun _ => trivial, fun p => ?_⟩
  · rw [List.mem_singleton.mp hr]
    exact .inl hsig
  · refine iff_of_false nofun ?_
    rintro ⟨r, hr, a, ha, hof⟩
    rw [List.mem_singleton.mp hr, hsig] at ha
    obtain rfl := Option.some.inj ha
    have htype := hof.type
    rw [show env.thisNode.sig.type = .localDevice from env.isDevice] at htype
    simp at htype

/-- Nothing is posted, and the store holds the same peers. -/
theorem Peers.Inv.quiet (h : peers.Inv s) (hcontacts : s'.contacts = s.contacts)
    (hstored : peers.Stored s'.store)
    (hholds : ∀ p, peers.Holds p s'.store ↔ peers.Holds p s.store) : peers.Inv s' := by
  have heq : ∀ p, peers.contactsOf p s' = peers.contactsOf p s := by
    intro p
    unfold Peers.contactsOf
    rw [hcontacts]
  refine ⟨hstored, fun p => ?_, fun p => ?_⟩
  · rw [heq]
    exact h.alternating p
  · rw [heq, hholds]
    exact h.last p

theorem Peers.Inv.kept (h : peers.Inv s) (hcontacts : s'.contacts = s.contacts)
    (hk : Kept s.store s'.store) : peers.Inv s' :=
  h.quiet hcontacts (hk.stored h.stored) hk.holds

/-- A contact is posted for a peer that begins, or ceases, to be in the store. -/
theorem Peers.Inv.posted (h : peers.Inv s) (b : Bool) {n : Node}
    (hcontacts : s'.contacts = s.contacts ++ [⟨b, n⟩]) (hpeer : peers.peerOf n = some q)
    (hstored : peers.Stored s'.store) (hbefore : peers.Holds q s.store ↔ b = false)
    (hafter : peers.Holds q s'.store ↔ b = true)
    (hothers : ∀ p, p ≠ q → (peers.Holds p s'.store ↔ peers.Holds p s.store)) :
    peers.Inv s' := by
  have hsame : peers.contactsOf q s' = peers.contactsOf q s ++ [b] := by
    unfold Peers.contactsOf
    rw [hcontacts, List.filter_append, List.map_append, List.filter_singleton]
    simp [hpeer]
  have hother : ∀ p, p ≠ q → peers.contactsOf p s' = peers.contactsOf p s := by
    intro p hp
    unfold Peers.contactsOf
    rw [hcontacts, List.filter_append, List.map_append, List.filter_singleton]
    simp [hpeer, Ne.symm hp]
  have hlast := (h.last q).trans hbefore
  refine ⟨hstored, fun p => ?_, fun p => ?_⟩
  · by_cases hp : p = q
    · rw [hp, hsame]
      apply alternating_append_singleton (h.alternating q)
      cases heq : (peers.contactsOf q s).getLast? with
      | none =>
        rw [heq] at hlast
        cases b <;> simp_all
      | some c =>
        rw [heq] at hlast
        cases b <;> cases c <;> simp_all
    · rw [hother p hp]
      exact h.alternating p
  · by_cases hp : p = q
    · rw [hp, hsame, List.getLast?_concat, hafter, Option.some.injEq]
    · rw [hother p hp, hothers p hp]
      exact h.last p

end Invariant

section Steps

variable {peers : Peers env} {s : State} {p : Digest}

theorem Peers.Inv.interfaceUp (h : peers.Inv s) (now : Timeval) (i : Interface) :
    peers.Inv (onNeighborInterfaceUp now s i) := by
  unfold onNeighborInterfaceUp
  cases s.store.retrieve (s.store.hasInterface i) true with
  | none => exact h.quiet rfl h.stored fun _ => Iff.rfl
  | some k =>
    change peers.Inv (s.modifyNode k (·.setInterfaceUp now i))
    refine h.kept rfl ?_
    apply kept_modifyNode s.store k fun n => Node.sig_setInterfaceUp now n i
    intro _ n _ havailable
    obtain ⟨x, hx⟩ := isAvailable_iff.mp havailable
    exact isAvailable_iff.mpr ⟨x, hx.setInterfaceUp now i⟩

theorem Peers.Inv.interfaceDown (h : peers.Inv s) (now : Timeval) {i : Interface}
    (hi : env.thisNode.hasInterface i = false) : peers.Inv (onNeighborInterfaceDown now s i) := by
  unfold onNeighborInterfaceDown
  cases hfind : s.store.retrieve (s.store.hasInterface i) false with
  | none => exact h
  | some r =>
    have hr : r ∈ s.store.records := List.mem_of_find?_eq_some hfind
    have hhas : s.store.hasInterface i r = true := by
      simpa using List.find?_some hfind
    obtain ⟨n, hn, hni⟩ := (Option.any_eq_true _ _).mp hhas
    have ha : s.store.heap.sig r = some n.sig := congrArg (Option.map Node.sig) hn
    obtain ⟨p, hof⟩ : ∃ p, peers.IsOf p n.sig := by
      rcases h.stored.each r hr with hdevice | ⟨p, b, hb, hof, -⟩
      · have heq : n.sig = env.thisNode.sig := Option.some.inj (ha.symm.trans hdevice)
        rw [Node.hasInterface_iff, heq, ← Node.hasInterface_iff, hi] at hni
        cases hni
      · obtain rfl : n.sig = b := Option.some.inj (ha.symm.trans hb)
        exact ⟨p, hof⟩
    have hself := node_modifyNode_self s r (·.setInterfaceDown now i)
    rw [show s.node r = some n from hn, Option.map_some] at hself
    have hsigDown := fun m => Node.sig_setInterfaceDown now m i
    have hsig := NodeHeap.sig_modifyNode (h := s.store.heap) r hsigDown
    simp only [hself, Option.any_some]
    split_ifs with havailable
    · refine h.kept rfl ?_
      apply kept_modifyNode s.store r hsigDown
      intro _ m hm _
      obtain rfl : n = m := Option.some.inj (hn.symm.trans hm)
      exact havailable
    · have hnode : ∀ x, x ≠ r → (s.store.heap.modifyNode r (·.setInterfaceDown now i)).node x =
          s.store.heap.node x := by
        intro x hx
        exact (NodeHeap.node_modifyNode r _ x).trans (if_neg hx)
      have hrecords : (s.modifyNode r (·.setInterfaceDown now i)).store.records =
          s.store.records := rfl
      obtain ⟨hstored, hnot, hothers, hleft⟩ := h.stored.remove hr ha hof hrecords hsig hnode
      have hpeer : peers.peerOf (n.setInterfaceDown now i) = some p := by
        apply Peers.IsOf.peerOf
        rw [hsigDown]
        exact hof
      refine h.posted false ?_ hpeer hstored ?_ ?_ hothers
      · unfold State.post State.node
        rw [hleft, show NodeHeap.node _ r = _ from hself]
        rfl
      · exact iff_of_true ⟨r, hr, n.sig, ha, hof⟩ rfl
      · exact iff_of_false hnot nofun

/-- A node of a peer that is not in the store is added, and the contact is posted. -/
theorem Peers.Inv.add (h : peers.Inv s) {k : ℕ} {n : Node} (hn : s.node k = some n)
    (hof : peers.IsOf p n.sig) (havailable : n.isAvailable = true)
    (hnot : ¬ peers.Holds p s.store) :
    peers.Inv (State.post { s with store := (s.store.add k).2 } true k) := by
  have ha : s.store.heap.sig k = some n.sig := congrArg (Option.map Node.sig) hn
  have hup : ∃ x, s.store.heap.UpAt k x := by
    rw [upAt_iff_any, show s.store.heap.node k = some n from hn]
    exact havailable
  obtain ⟨hstored, hnode, hholds⟩ := h.stored.add ha hof hup hnot
  refine h.posted true ?_ hof.peerOf hstored ?_ ?_ fun q hq => ?_
  · unfold State.post State.node
    rw [show NodeHeap.node _ k = _ from hnode.trans hn]
    rfl
  · exact iff_of_false hnot nofun
  · exact iff_of_true ((hholds p).mpr (.inr rfl)) rfl
  · exact (hholds q).trans (or_iff_left hq)

theorem Peers.Inv.create (h : peers.Inv s) (n : Node) : peers.Inv (s.create n) :=
  h.kept rfl (h.stored.kept_create n)

theorem Peers.Inv.retrieved (h : peers.Inv s) (now : Timeval) (node : Option Node) (i : Interface)
    (hok : peers.RetrieveOk s (node.getD (undefinedNode env now i))) :
    peers.Inv (onRetrieveNode env now s node i) := by
  obtain ⟨p, hof, havailable, hout⟩ := hok
  unfold onRetrieveNode
  generalize node.getD (undefinedNode env now i) = n at hof havailable hout ⊢
  have hcreate := h.create n
  have hn := node_create s n
  have hnot : ¬ peers.Holds p (s.create n).store := by
    rw [(h.stored.kept_create n).holds, ← h.stored.inStore_iff]
    exact hout
  have ha : (s.create n).store.heap.sig s.store.heap.length = some n.sig :=
    congrArg (Option.map Node.sig) hn
  have hupdate := NodeStore.update_of_not_shares now (hcreate.stored.not_shares ha hof hnot)
  simp only [hupdate]
  exact hcreate.add hn hof havailable hnot

/-- The record of the peer shares an interface with the node, which replaces it. -/
theorem Peers.Inv.nodeUpdate_of_shares (h : peers.Inv s) (now : Timeval)
    (stored : Interface → Bool) {n m : Node} {r : ℕ} (hof : peers.IsOf p n.sig)
    (hr : r ∈ s.store.records) (hm : s.node r = some m) (hofr : peers.IsOf p m.sig)
    (hover : m.interfaces.any n.hasInterface = true)
    (hup : n.isAvailable = true ∨ ∃ i ∈ m.interfaces, i.isUp = true ∧ n.hasInterface i = true) :
    peers.Inv (nodeUpdate now stored s n) := by
  have hcreate := h.create n
  have hn := node_create s n
  have hm' : (s.create n).node r = some m :=
    (NodeHeap.node_append (h.stored.isSome_node hr) _).trans hm
  have hup' : (∃ x, (s.create n).store.heap.UpAt s.store.heap.length x) ∨
      ∃ x, (s.create n).store.heap.UpAt r x ∧ x ∈ n.sig.keys := by
    rcases hup with havailable | ⟨i, hi, hisUp, hhas⟩
    · obtain ⟨x, hx⟩ := isAvailable_iff.mp havailable
      exact .inl ⟨x, n, hn, hx⟩
    · exact .inr ⟨_, ⟨m, hm', i, hi, rfl, hisUp⟩, Node.hasInterface_iff.mp hhas⟩
  obtain ⟨hupdated, hstored, hholds⟩ := hcreate.stored.update now h.stored.length_notMem
    (congrArg (Option.map Node.sig) hn) hof hr (congrArg (Option.map Node.sig) hm') hofr
    ((shares_create hm n).trans hover) hup'
  unfold nodeUpdate
  simp only [hupdated, if_true]
  exact hcreate.quiet rfl hstored hholds

theorem Peers.Inv.nodeUpdate (h : peers.Inv s) {now : Timeval} {stored : Interface → Bool}
    {n : Node} (hok : peers.UpdateOk now stored s n) :
    peers.Inv (nodeUpdate now stored s n) := by
  have hcreate := h.create n
  have hn := node_create s n
  have hkept := h.stored.kept_sync now stored n
  have hsync : peers.Inv ((s.create n).modifyNode s.store.heap.length
      (syncInterfaces now stored)) := hcreate.kept rfl hkept
  rcases hok with ⟨hdown, hnone⟩ | ⟨p, hof, hrecord⟩
  · have hnone' : ∀ r ∈ (s.create n).store.records,
        (s.create n).store.heap.shares s.store.heap.length r = false := by
      intro r hr
      obtain ⟨m, hm⟩ := Option.isSome_iff_exists.mp (h.stored.isSome_node hr)
      exact (shares_create hm n).trans (hnone r hr m hm)
    rw [nodeUpdate_of_not_shares now stored hnone', hdown]
    exact hsync
  by_cases hheld : peers.Holds p (s.create n).store
  · obtain ⟨r, hr, b, hb, hofr⟩ := hheld
    obtain ⟨m, hm', rfl⟩ := Option.map_eq_some_iff.mp hb
    have hm : s.node r = some m :=
      (NodeHeap.node_append (h.stored.isSome_node hr) _).symm.trans hm'
    obtain ⟨hover, hup⟩ := hrecord r hr m hm hofr.peerOf
    exact h.nodeUpdate_of_shares now stored hof hr hm hofr hover hup
  · have ha : (s.create n).store.heap.sig s.store.heap.length = some n.sig :=
      congrArg (Option.map Node.sig) hn
    rw [nodeUpdate_of_not_shares now stored (hcreate.stored.not_shares ha hof hheld)]
    split_ifs with havailable
    · apply hsync.add ?_ ?_ havailable ((hkept.holds p).not.mpr hheld)
      · rw [node_modifyNode_self, hn]
        rfl
      · rw [sig_syncInterfaces]
        exact hof
    · exact hsync

end Steps

section Runs

variable {peers : Peers env} {s : State}

theorem Peers.Inv.descriptions (h : peers.Inv s) {now : Timeval} {stored : Interface → Bool}
    {ds : List Description} (hok : Trace.Guarded (receiveNodeDescription env now stored)
      (fun s d => ∀ n ∈ updatesWith env now s d, peers.UpdateOk now stored s n) s ds) :
    peers.Inv (ds.foldl (receiveNodeDescription env now stored) s) := by
  refine Trace.invariant_of_guarded (fun s d hs hd => ?_) h hok
  rcases receiveNodeDescription_eq now stored s d with ⟨n, hn, heq⟩ | ⟨inserting, heq⟩
  · rw [heq]
    exact hs.nodeUpdate (hd n hn)
  · rw [heq]
    exact hs.quiet rfl hs.stored fun _ => Iff.rfl

theorem Peers.Inv.step (h : peers.Inv s) {act : Act} (hok : peers.Disciplined s act) :
    peers.Inv (step env s act) := by
  cases act with
  | interfaceUp now i => exact h.interfaceUp now i
  | interfaceDown now i => exact h.interfaceDown now hok
  | retrieved now position node isUp =>
    cases hget : s.retrieving[position]? with
    | none =>
      simp only [NodeManager.step, hget]
      exact h
    | some i =>
      simp only [NodeManager.step, hget]
      have hless : peers.Inv { s with retrieving := s.retrieving.eraseIdx position } :=
        h.quiet rfl h.stored fun _ => Iff.rfl
      exact hless.retrieved now node { i with isUp := isUp } (hok i hget)
  | descriptions now stored running ds =>
    cases running with
    | false => exact h
    | true => exact h.descriptions (hok rfl)
  | inserted now stored position bloomfilter =>
    cases hget : s.inserting[position]? with
    | none =>
      simp only [NodeManager.step, hget]
      exact h
    | some n =>
      simp only [NodeManager.step, hget]
      have hless : peers.Inv { s with inserting := s.inserting.eraseIdx position } :=
        h.quiet rfl h.stored fun _ => Iff.rfl
      exact hless.nodeUpdate (hok n hget)

end Runs

end NodeManager

namespace Sample

open NodeManager

/-- A device with one interface. -/
def device : Surroundings where
  thisNode := plainNode .localDevice 9 [wlanOf 9]
  isDevice := rfl
  blank := plainNode .undefined 0 []
  merge a _ := a

def firstPeer : Digest := .fill 1

def downWlanOf (b : UInt8) : Interface := { wlanOf b with isUp := false }

end Sample
end Haggle
