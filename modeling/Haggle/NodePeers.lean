import Haggle.NodeManager

/-!
# Peers in the node store

Which peer an interface belongs to is nothing that the code knows, so it is a parameter here. A store
in which every peer has at most one record, and is available there, stays such when a node of a peer
replaces the record of that peer, is added for a peer without one, or is removed.
-/

namespace Haggle
namespace NodeManager

variable {env : Surroundings}

/-- The peers that interfaces belong to; those of this device belong to none. -/
structure Peers (env : Surroundings) where
  owner : InterfaceType × Bytes → Option Digest
  device : ∀ x ∈ env.thisNode.sig.keys, owner x = none
  others : ∀ x p, owner x = some p → p ≠ env.thisNode.id

section Peers

variable (peers : Peers env)

/-- The node of a peer: it has the identifier of the peer, unless it is of no type, and interfaces
of the peer only. -/
structure Peers.IsOf (p : Digest) (a : NodeSig) : Prop where
  type : a.type = .peer ∨ a.type = .undefined ∨ a.type = .gateway
  id : a.type ≠ .undefined → a.id = p
  nonempty : a.keys ≠ []
  owned : ∀ x ∈ a.keys, peers.owner x = some p

/-- The peer of a node. -/
def Peers.peerOf (n : Node) : Option Digest :=
  if n.type = .undefined then n.sig.keys.head?.bind peers.owner else some n.id

end Peers

section Apart

variable {peers : Peers env} {p q : Digest} {a b : NodeSig}

theorem Peers.IsOf.eq_of_overlap (ha : peers.IsOf p a) (hb : peers.IsOf q b)
    {x : InterfaceType × Bytes} (hxa : x ∈ a.keys) (hxb : x ∈ b.keys) : p = q :=
  Option.some.inj ((ha.owned x hxa).symm.trans (hb.owned x hxb))

theorem Peers.IsOf.unique (ha : peers.IsOf p a) (hb : peers.IsOf q a) : p = q := by
  obtain ⟨x, hx⟩ := List.exists_mem_of_ne_nil _ ha.nonempty
  exact ha.eq_of_overlap hb hx hx

theorem Peers.IsOf.ne_device (ha : peers.IsOf p a) : p ≠ env.thisNode.id := by
  obtain ⟨x, hx⟩ := List.exists_mem_of_ne_nil _ ha.nonempty
  exact peers.others x p (ha.owned x hx)

theorem Peers.IsOf.peerOf {n : Node} (h : peers.IsOf p n.sig) : peers.peerOf n = some p := by
  unfold Peers.peerOf
  by_cases htype : n.type = .undefined
  · obtain ⟨x, l, hx⟩ := List.exists_cons_of_ne_nil h.nonempty
    rw [if_pos htype, hx]
    exact h.owned x (hx ▸ List.mem_cons_self)
  · rw [if_neg htype]
    exact congrArg some (h.id htype)

variable {h : NodeHeap} {r k : ℕ}

theorem Peers.IsOf.apart (hr : h.sig r = some a) (ha : peers.IsOf p a) (hk : h.sig k = some b)
    (hb : peers.IsOf q b) (hpq : p ≠ q) : h.sameNode r k = false ∧ h.shares k r = false := by
  constructor
  · rw [Bool.eq_false_iff, Ne, NodeHeap.sameNode_iff]
    rintro ⟨a', b', hr', hk', hsame⟩
    obtain rfl : a = a' := Option.some.inj (hr.symm.trans hr')
    obtain rfl : b = b' := Option.some.inj (hk.symm.trans hk')
    split_ifs at hsame with htype
    · obtain ⟨x, hxa, hxb⟩ := hsame
      exact hpq (ha.eq_of_overlap hb hxa hxb)
    · rw [not_or] at htype
      exact hpq ((ha.id htype.1).symm.trans (hsame.trans (hb.id htype.2)))
  · rw [Bool.eq_false_iff, Ne, NodeHeap.shares_iff]
    rintro ⟨b', a', hk', hr', x, hxa, hxb⟩
    obtain rfl : a = a' := Option.some.inj (hr.symm.trans hr')
    obtain rfl : b = b' := Option.some.inj (hk.symm.trans hk')
    exact hpq (ha.eq_of_overlap hb hxa hxb)

theorem Peers.IsOf.apart_device (hr : h.sig r = some env.thisNode.sig) (hk : h.sig k = some b)
    (hb : peers.IsOf q b) : h.sameNode r k = false ∧ h.shares k r = false := by
  have hover : ∀ x ∈ env.thisNode.sig.keys, x ∉ b.keys := by
    intro x hx hxb
    have hnone := peers.device x hx
    rw [hb.owned x hxb] at hnone
    cases hnone
  constructor
  · rw [Bool.eq_false_iff, Ne, NodeHeap.sameNode_iff]
    rintro ⟨a', b', hr', hk', hsame⟩
    obtain rfl : env.thisNode.sig = a' := Option.some.inj (hr.symm.trans hr')
    obtain rfl : b = b' := Option.some.inj (hk.symm.trans hk')
    split_ifs at hsame with htype
    · obtain ⟨x, hx, hxb⟩ := hsame
      exact hover x hx hxb
    · rw [not_or] at htype
      exact hb.ne_device ((hb.id htype.2).symm.trans hsame.symm)
  · rw [Bool.eq_false_iff, Ne, NodeHeap.shares_iff]
    rintro ⟨b', a', hk', hr', x, hx, hxb⟩
    obtain rfl : env.thisNode.sig = a' := Option.some.inj (hr.symm.trans hr')
    obtain rfl : b = b' := Option.some.inj (hk.symm.trans hk')
    exact hover x hx hxb

end Apart

section Stored

variable (peers : Peers env)

/-- The store has a record for the peer. -/
def Peers.Holds (p : Digest) (st : NodeStore) : Prop :=
  ∃ r ∈ st.records, ∃ a, st.heap.sig r = some a ∧ peers.IsOf p a

/-- Every record is that of the device, or of a peer that is available and has no other record. -/
structure Peers.Stored (st : NodeStore) : Prop where
  each : ∀ r ∈ st.records, st.heap.sig r = some env.thisNode.sig ∨
    ∃ p a, st.heap.sig r = some a ∧ peers.IsOf p a ∧ ∃ x, st.heap.UpAt r x
  distinct : st.records.Pairwise fun r r' => ∀ p a b, st.heap.sig r = some a → peers.IsOf p a →
    st.heap.sig r' = some b → ¬ peers.IsOf p b

variable {peers} {st st' : NodeStore}

theorem Peers.Stored.sublist (h : peers.Stored st) (hsub : st'.records.Sublist st.records)
    (hsig : ∀ r ∈ st'.records, st'.heap.sig r = st.heap.sig r)
    (hup : ∀ r ∈ st'.records, (∃ x, st.heap.UpAt r x) → ∃ x, st'.heap.UpAt r x) :
    peers.Stored st' := by
  refine ⟨fun r hr => ?_, ?_⟩
  · rcases h.each r (hsub.subset hr) with hdevice | ⟨p, a, ha, hof, hx⟩
    · exact .inl ((hsig r hr).trans hdevice)
    · exact .inr ⟨p, a, (hsig r hr).trans ha, hof, hup r hr hx⟩
  · apply (h.distinct.sublist hsub).imp_of_mem
    intro r r' hr hr' hne p a b ha hof hb
    exact hne p a b ((hsig r hr).symm.trans ha) hof ((hsig r' hr').symm.trans hb)

theorem Peers.Stored.append (h : peers.Stored st) {k : ℕ} {p : Digest} {a : NodeSig}
    (ha : st.heap.sig k = some a) (hof : peers.IsOf p a) (hup : ∃ x, st.heap.UpAt k x)
    (hnot : ¬ peers.Holds p st) : peers.Stored ⟨st.heap, st.records ++ [k]⟩ := by
  refine ⟨fun r hr => ?_, ?_⟩
  · rcases List.mem_append.mp hr with hr | hr
    · exact h.each r hr
    · rw [List.mem_singleton.mp hr]
      exact .inr ⟨p, a, ha, hof, hup⟩
  · rw [List.pairwise_append]
    refine ⟨h.distinct, List.pairwise_singleton _ _, fun r hr k' hk' => ?_⟩
    rw [List.mem_singleton.mp hk']
    intro q b a' hb hq ha' hq'
    obtain rfl : a = a' := Option.some.inj (ha.symm.trans ha')
    obtain rfl := hof.unique hq'
    exact hnot ⟨r, hr, b, hb, hq⟩

theorem Peers.holds_append {heap : NodeHeap} {k : ℕ} {p : Digest} {a : NodeSig}
    (ha : heap.sig k = some a) (hof : peers.IsOf p a) (records : List ℕ) (q : Digest) :
    peers.Holds q ⟨heap, records ++ [k]⟩ ↔ peers.Holds q ⟨heap, records⟩ ∨ q = p := by
  constructor
  · rintro ⟨r, hr, b, hb, hq⟩
    rcases List.mem_append.mp hr with hr | hr
    · exact .inl ⟨r, hr, b, hb, hq⟩
    · rw [List.mem_singleton.mp hr] at hb
      obtain rfl : a = b := Option.some.inj (ha.symm.trans hb)
      exact .inr (hq.unique hof)
  · rintro (⟨r, hr, b, hb, hq⟩ | rfl)
    · exact ⟨r, List.mem_append_left _ hr, b, hb, hq⟩
    · exact ⟨k, List.mem_append_right _ (List.mem_singleton_self k), a, ha, hof⟩

theorem isAvailable_iff {n : Node} : n.isAvailable = true ↔ ∃ x, n.UpAt x := by
  unfold Node.isAvailable Node.UpAt
  rw [List.any_eq_true]
  exact ⟨fun ⟨j, hj, hup⟩ => ⟨_, j, hj, rfl, hup⟩, fun ⟨x, j, hj, _, hup⟩ => ⟨j, hj, hup⟩⟩

theorem upAt_iff_any {h : NodeHeap} {k : ℕ} :
    (∃ x, h.UpAt k x) ↔ (h.node k).any (·.isAvailable) = true := by
  unfold NodeHeap.UpAt
  cases hk : h.node k with
  | none => simp
  | some n =>
    rw [Option.any_some, isAvailable_iff]
    simp

theorem Peers.Stored.isSome_node (h : peers.Stored st) {r : ℕ} (hr : r ∈ st.records) :
    (st.heap.node r).isSome := by
  rw [← NodeHeap.isSome_sig]
  rcases h.each r hr with hdevice | ⟨p, a, ha, -⟩
  · rw [hdevice]
    rfl
  · rw [ha]
    rfl

/-- The records stay, and each that is available stays available. -/
structure Kept (st st' : NodeStore) : Prop where
  records : st'.records = st.records
  sig : ∀ r ∈ st.records, st'.heap.sig r = st.heap.sig r
  upAt : ∀ r ∈ st.records, (∃ x, st.heap.UpAt r x) → ∃ x, st'.heap.UpAt r x

theorem Kept.stored (hk : Kept st st') (h : peers.Stored st) : peers.Stored st' := by
  refine h.sublist (by rw [hk.records]) ?_ ?_
  · rw [hk.records]
    exact hk.sig
  · rw [hk.records]
    exact hk.upAt

theorem Kept.holds (hk : Kept st st') (p : Digest) : peers.Holds p st' ↔ peers.Holds p st := by
  unfold Peers.Holds
  rw [hk.records]
  constructor
  · rintro ⟨r, hr, a, ha, hof⟩
    exact ⟨r, hr, a, (hk.sig r hr).symm.trans ha, hof⟩
  · rintro ⟨r, hr, a, ha, hof⟩
    exact ⟨r, hr, a, (hk.sig r hr).trans ha, hof⟩

theorem Peers.Stored.kept_create {s : State} (h : peers.Stored s.store) (n : Node) :
    Kept s.store (s.create n).store := by
  have hnode : ∀ r ∈ s.store.records, (s.create n).store.heap.node r = s.store.heap.node r :=
    fun r hr => NodeHeap.node_append (h.isSome_node hr) _
  refine ⟨rfl, fun r hr => congrArg (Option.map Node.sig) (hnode r hr), fun r hr hup => ?_⟩
  obtain ⟨x, m, hm, hx⟩ := hup
  exact ⟨x, m, (hnode r hr).trans hm, hx⟩

/-- The one record of a peer. -/
theorem Peers.Stored.split (h : peers.Stored st) {r : ℕ} {p : Digest} {a : NodeSig}
    (hr : r ∈ st.records) (ha : st.heap.sig r = some a) (hof : peers.IsOf p a) :
    ∃ l₁ l₂, st.records = l₁ ++ r :: l₂ ∧
      ∀ x ∈ l₁ ++ l₂, ∀ b, st.heap.sig x = some b → ¬ peers.IsOf p b := by
  obtain ⟨l₁, l₂, hl⟩ := List.append_of_mem hr
  refine ⟨l₁, l₂, hl, fun x hx b hb hp => ?_⟩
  have hdistinct := h.distinct
  rw [hl, List.pairwise_append, List.pairwise_cons] at hdistinct
  obtain ⟨-, ⟨hafter, -⟩, hbefore⟩ := hdistinct
  rcases List.mem_append.mp hx with hx | hx
  · exact hbefore x hx r List.mem_cons_self p b a hb hp ha hof
  · exact hafter x hx p a b ha hof hb hp

theorem Peers.Stored.unique (h : peers.Stored st) {r r' : ℕ} {p : Digest} {a b : NodeSig}
    (hr : r ∈ st.records) (ha : st.heap.sig r = some a) (hof : peers.IsOf p a)
    (hr' : r' ∈ st.records) (hb : st.heap.sig r' = some b) (hof' : peers.IsOf p b) : r' = r := by
  obtain ⟨l₁, l₂, hl, hothers⟩ := h.split hr ha hof
  rw [hl, List.mem_append, List.mem_cons] at hr'
  by_contra hne
  have hin : r' ∈ l₁ ++ l₂ := List.mem_append.mpr (hr'.imp_right fun h => h.resolve_left hne)
  exact hothers r' hin b hb hof'

/-- A record that is not of the peer is not equal to a node of it and shares no interface. -/
theorem Peers.Stored.apart (h : peers.Stored st) {r k : ℕ} {p : Digest} {a : NodeSig}
    (hr : r ∈ st.records) (hnot : ∀ b, st.heap.sig r = some b → ¬ peers.IsOf p b)
    (ha : st.heap.sig k = some a) (hof : peers.IsOf p a) :
    st.heap.sameNode r k = false ∧ st.heap.shares k r = false := by
  rcases h.each r hr with hdevice | ⟨q, b, hb, hq, -⟩
  · exact Peers.IsOf.apart_device hdevice ha hof
  · apply Peers.IsOf.apart hb hq ha hof
    rintro rfl
    exact hnot b hb hq

/-- A change of one node that keeps what it is compared by, and keeps it available. -/
theorem kept_modifyNode (st : NodeStore) (k : ℕ) {f : Node → Node}
    (hsig : ∀ n, (f n).sig = n.sig)
    (hup : k ∈ st.records → ∀ n, st.heap.node k = some n → n.isAvailable = true →
      (f n).isAvailable = true) : Kept st { st with heap := st.heap.modifyNode k f } := by
  refine ⟨rfl, fun r _ => congrFun (NodeHeap.sig_modifyNode k hsig) r, fun r hr hx => ?_⟩
  rw [upAt_iff_any] at hx ⊢
  rw [NodeHeap.node_modifyNode]
  split_ifs with hrk
  · obtain ⟨n, hn, havailable⟩ := (Option.any_eq_true _ _).mp hx
    rw [hn]
    exact hup (hrk ▸ hr) n (hrk ▸ hn) havailable
  · exact hx

/-- The record of a peer is the one that is removed. -/
theorem Peers.Stored.remove (h : peers.Stored st) {r : ℕ} {p : Digest} {a : NodeSig}
    (hr : r ∈ st.records) (ha : st.heap.sig r = some a) (hof : peers.IsOf p a)
    (hrecords : st'.records = st.records) (hsig : st'.heap.sig = st.heap.sig)
    (hnode : ∀ x, x ≠ r → st'.heap.node x = st.heap.node x) :
    peers.Stored (st'.remove r).2 ∧ ¬ peers.Holds p (st'.remove r).2 ∧
      (∀ q, q ≠ p → (peers.Holds q (st'.remove r).2 ↔ peers.Holds q st)) ∧
        (st'.remove r).2.heap.node r = st'.heap.node r := by
  obtain ⟨l₁, l₂, hl, hothers⟩ := h.split hr ha hof
  have hne : ∀ x ∈ l₁ ++ l₂, x ≠ r := by
    rintro x hx rfl
    exact hothers x hx a ha hof
  have hmem : ∀ x ∈ l₁ ++ l₂, x ∈ st.records := by
    intro x hx
    rw [hl]
    exact (List.sublist_append_right [r] l₂ |>.append_left l₁).subset hx
  have hfirst : ∀ x ∈ l₁, ¬ st'.heap.sameRef x r = true := by
    intro x hx
    have hx := List.mem_append_left l₂ hx
    have hapart := (h.apart (hmem x hx) (hothers x hx) ha hof).1
    rw [NodeHeap.sameRef_congr hsig]
    simp [NodeHeap.sameRef, hne x hx, hapart]
  have hself : st'.heap.sameRef r r = true := by
    have hsome := h.isSome_node hr
    rw [← NodeHeap.isSome_sig, ← hsig, NodeHeap.isSome_sig] at hsome
    simp [NodeHeap.sameRef, hsome]
  have hremove : (st'.remove r).2 = ⟨st'.heap.setStored [r] false, l₁ ++ l₂⟩ := by
    unfold NodeStore.remove NodeStore.removeFirst
    have hfind : st'.records.find? (st'.heap.sameRef · r) = some r := by
      rw [hrecords, hl, List.find?_append, List.find?_eq_none.mpr hfirst, Option.none_or,
        List.find?_cons_of_pos (p := (st'.heap.sameRef · r)) hself]
    have herase : st'.records.eraseP (st'.heap.sameRef · r) = l₁ ++ l₂ := by
      rw [hrecords, hl, List.eraseP_append_right _ hfirst,
        List.eraseP_cons_of_pos (p := (st'.heap.sameRef · r)) hself]
    simp only [hfind, herase]
  have hsig' : (st'.heap.setStored [r] false).sig = st.heap.sig :=
    (NodeStore.sig_setStored _ _ _).trans hsig
  rw [hremove]
  refine ⟨?_, ?_, fun q hq => ?_, congrFun (NodeHeap.node_setStored _ _) r⟩
  · refine h.sublist ?_ (fun x _ => congrFun hsig' x) fun x hx hup => ?_
    · rw [hl]
      exact (List.sublist_append_right [r] l₂).append_left l₁
    · obtain ⟨y, n, hn, hy⟩ := hup
      refine ⟨y, n, ?_, hy⟩
      rw [NodeHeap.node_setStored, hnode x (hne x hx)]
      exact hn
  · rintro ⟨x, hx, b, hb, hp⟩
    exact hothers x hx b ((congrFun hsig' x).symm.trans hb) hp
  · constructor
    · rintro ⟨x, hx, b, hb, hp⟩
      exact ⟨x, hmem x hx, b, (congrFun hsig' x).symm.trans hb, hp⟩
    · rintro ⟨x, hx, b, hb, hp⟩
      refine ⟨x, ?_, b, (congrFun hsig' x).trans hb, hp⟩
      rw [hl, List.mem_append, List.mem_cons] at hx
      refine List.mem_append.mpr (hx.imp_right fun hx => hx.resolve_left ?_)
      rintro rfl
      obtain rfl : a = b := Option.some.inj (ha.symm.trans hb)
      exact hq (hp.unique hof)

/-- A node of a peer that is not in the store is added. -/
theorem Peers.Stored.add (h : peers.Stored st) {k : ℕ} {p : Digest} {a : NodeSig}
    (ha : st.heap.sig k = some a) (hof : peers.IsOf p a) (hup : ∃ x, st.heap.UpAt k x)
    (hnot : ¬ peers.Holds p st) :
    peers.Stored (st.add k).2 ∧ (st.add k).2.heap.node k = st.heap.node k ∧
      ∀ q, peers.Holds q (st.add k).2 ↔ peers.Holds q st ∨ q = p := by
  have hsome : (st.heap.node k).isNone = false := by
    obtain ⟨x, n, hn, -⟩ := hup
    rw [hn]
    rfl
  have hsame : st.records.any (st.heap.sameRef · k) = false := by
    rw [List.any_eq_false]
    intro r hr
    have hother : ∀ b, st.heap.sig r = some b → ¬ peers.IsOf p b :=
      fun b hb hp => hnot ⟨r, hr, b, hb, hp⟩
    have hne : r ≠ k := by
      rintro rfl
      exact hother a ha hof
    simp [NodeHeap.sameRef, hne, (h.apart hr hother ha hof).1]
  have hadd : (st.add k).2 = ⟨st.heap.setStored [k] true, st.records ++ [k]⟩ := by
    unfold NodeStore.add NodeStore.addWith
    rw [hsome, hsame]
    rfl
  have hnode := NodeHeap.node_setStored (h := st.heap) [k] true
  have hsig := NodeStore.sig_setStored st.heap [k] true
  have hkept : Kept st { st with heap := st.heap.setStored [k] true } := by
    refine ⟨rfl, fun r _ => congrFun hsig r, fun r _ hx => ?_⟩
    unfold NodeHeap.UpAt
    rw [hnode]
    exact hx
  have hstored := hkept.stored h
  have ha' := (congrFun hsig k).trans ha
  have hup' : ∃ x, (st.heap.setStored [k] true).UpAt k x := by
    unfold NodeHeap.UpAt
    rw [hnode]
    exact hup
  rw [hadd]
  refine ⟨hstored.append ha' hof hup' ?_, congrFun hnode k, fun q => ?_⟩
  · rw [hkept.holds]
    exact hnot
  · rw [Peers.holds_append ha' hof, hkept.holds]

/-- No record shares an interface with a node of a peer that is not in the store. -/
theorem Peers.Stored.not_shares (h : peers.Stored st) {k : ℕ} {p : Digest} {a : NodeSig}
    (ha : st.heap.sig k = some a) (hof : peers.IsOf p a) (hnot : ¬ peers.Holds p st) :
    ∀ r ∈ st.records, st.heap.shares k r = false := fun r hr =>
  (h.apart hr (fun b hb hp => hnot ⟨r, hr, b, hb, hp⟩) ha hof).2

/-- A node of a peer replaces the record of the peer, and is available if it is so itself or has an
interface that is up in that record. -/
theorem Peers.Stored.update (h : peers.Stored st) (now : Timeval) {k r : ℕ} {p : Digest}
    {a b : NodeSig} (hk : k ∉ st.records) (ha : st.heap.sig k = some a) (hof : peers.IsOf p a)
    (hr : r ∈ st.records) (hb : st.heap.sig r = some b) (hofr : peers.IsOf p b)
    (hshares : st.heap.shares k r = true)
    (hup : (∃ x, st.heap.UpAt k x) ∨ ∃ x, st.heap.UpAt r x ∧ x ∈ a.keys) :
    (st.update now k).1 = true ∧ peers.Stored (st.update now k).2.2 ∧
      ∀ q, peers.Holds q (st.update now k).2.2 ↔ peers.Holds q st := by
  obtain ⟨heap, hreplaced, heq⟩ := NodeStore.update_of_shares now ⟨r, hr, hshares⟩
  have hsig : (heap.setStored [k] true).sig = st.heap.sig :=
    (NodeStore.sig_setStored _ _ _).trans hreplaced.sig
  have hnode := NodeHeap.node_setStored (h := heap) [k] true
  have hup' : ∃ x, (heap.setStored [k] true).UpAt k x := by
    unfold NodeHeap.UpAt
    rw [hnode]
    rcases hup with ⟨x, hx⟩ | ⟨x, hx, hkey⟩
    · exact ⟨x, hreplaced.keeps x hx⟩
    · exact ⟨x, hreplaced.takes r (List.mem_filter.mpr ⟨hr, hshares⟩) x hx ⟨a, ha, hkey⟩⟩
  have hstored : peers.Stored ⟨heap.setStored [k] true,
      st.records.filter fun x => !st.heap.shares k x⟩ := by
    refine h.sublist List.filter_sublist (fun x _ => congrFun hsig x) fun x hx hupx => ?_
    have hne : x ≠ k := by
      rintro rfl
      exact hk (List.mem_of_mem_filter hx)
    obtain ⟨y, n, hn, hy⟩ := hupx
    refine ⟨y, n, ?_, hy⟩
    rw [hnode, hreplaced.node x hne]
    exact hn
  have hgone : ¬ peers.Holds p ⟨heap.setStored [k] true,
      st.records.filter fun x => !st.heap.shares k x⟩ := by
    rintro ⟨x, hx, c, hc, hp⟩
    obtain ⟨hx, hno⟩ := List.mem_filter.mp hx
    obtain rfl := h.unique hr hb hofr hx ((congrFun hsig x).symm.trans hc) hp
    simp [hshares] at hno
  have ha' := (congrFun hsig k).trans ha
  rw [heq]
  refine ⟨rfl, hstored.append ha' hof hup' hgone, fun q => ?_⟩
  rw [Peers.holds_append ha' hof]
  constructor
  · rintro (⟨x, hx, c, hc, hq⟩ | rfl)
    · exact ⟨x, List.mem_of_mem_filter hx, c, (congrFun hsig x).symm.trans hc, hq⟩
    · exact ⟨r, hr, b, hb, hofr⟩
  · rintro ⟨x, hx, c, hc, hq⟩
    by_cases hqp : q = p
    · exact .inr hqp
    · refine .inl ⟨x, List.mem_filter.mpr ⟨hx, ?_⟩, c, (congrFun hsig x).trans hc, hq⟩
      rw [(Peers.IsOf.apart hc hq ha hof hqp).2]
      rfl

theorem Peers.Stored.length_notMem {s : State} (h : peers.Stored s.store) :
    s.store.heap.length ∉ s.store.records := by
  intro hin
  have hsome := h.isSome_node hin
  simp [NodeHeap.node] at hsome

/-- A new object whose interfaces are set is not one of the records. -/
theorem Peers.Stored.kept_sync {s : State} (h : peers.Stored s.store) (now : Timeval)
    (stored : Interface → Bool) (n : Node) : Kept (s.create n).store
      ((s.create n).modifyNode s.store.heap.length (syncInterfaces now stored)).store :=
  kept_modifyNode _ _ (sig_syncInterfaces now stored) fun hin => absurd hin h.length_notMem

end Stored

end NodeManager
end Haggle
