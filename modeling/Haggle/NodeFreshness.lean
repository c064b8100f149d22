import Haggle.NodeContacts

/-!
# The create times of stored descriptions

A description is compared with the one in the store before it gets there, but what the data store
calls back with is not. A node that replaces another one is looked up by its interfaces, so the
times of records with the same identifier are what the condition is about.
-/

namespace Haggle

section Entries

variable {κ τ : Type}

/-- The time of a key in a list of entries. -/
def timeOf [DecidableEq κ] (l : List (κ × τ)) (id : κ) : Option τ :=
  (l.find? fun e => e.1 = id).map (·.2)

theorem mem_of_timeOf [DecidableEq κ] {l : List (κ × τ)} {id : κ} {t : τ}
    (h : timeOf l id = some t) : (id, t) ∈ l := by
  obtain ⟨e, he, rfl⟩ := Option.map_eq_some_iff.mp h
  have hid : e.1 = id := by simpa using List.find?_some he
  rw [← hid]
  exact List.mem_of_find?_eq_some he

variable [Preorder τ]

/-- Entries are taken out, and one may be put in that has no other of its key beside it and is not
older than those there were. -/
def Advances (l l' : List (κ × τ)) : Prop :=
  ∃ kept, kept.Sublist l ∧ (l' = kept ∨ ∃ e, l' = kept ++ [e] ∧ e.1 ∉ kept.map (·.1) ∧
    ∀ t, (e.1, t) ∈ l → t ≤ e.2)

variable {l l' : List (κ × τ)}

theorem Advances.of_sublist (h : l'.Sublist l) : Advances l l' := ⟨l', h, .inl rfl⟩

theorem Advances.nodup (h : Advances l l') (hl : (l.map (·.1)).Nodup) :
    (l'.map (·.1)).Nodup := by
  obtain ⟨kept, hsub, rfl | ⟨e, rfl, hout, -⟩⟩ := h
  · exact hl.sublist (hsub.map _)
  · rw [List.map_append, List.map_singleton, List.nodup_append]
    refine ⟨hl.sublist (hsub.map _), List.nodup_singleton _, ?_⟩
    rintro x hx y hy rfl
    rw [List.mem_singleton.mp hy] at hx
    exact hout hx

theorem Advances.timeOf_le [DecidableEq κ] (h : Advances l l') (hl : (l.map (·.1)).Nodup) {id : κ}
    {t t' : τ} (ht : timeOf l id = some t) (ht' : timeOf l' id = some t') : t ≤ t' := by
  have hmem := mem_of_timeOf ht
  have hmem' := mem_of_timeOf ht'
  have hold : ∀ {kept : List (κ × τ)}, kept.Sublist l → (id, t') ∈ kept → t ≤ t' := by
    intro kept hsub hin
    have heq : (id, t) = (id, t') := List.inj_on_of_nodup_map hl hmem (hsub.subset hin) rfl
    exact le_of_eq (Prod.mk.inj heq).2
  obtain ⟨kept, hsub, rfl | ⟨e, rfl, -, hle⟩⟩ := h
  · exact hold hsub hmem'
  · rcases List.mem_append.mp hmem' with hin | hin
    · exact hold hsub hin
    · obtain rfl := List.mem_singleton.mp hin
      exact hle t hmem

end Entries

namespace Node

/-- The identifier and the create time of the description of a neighbor that has sent one. -/
def entry (n : Node) : Option (Digest × Timeval) :=
  if n.type = .peer ∨ n.type = .gateway then some (n.id, n.nodeDescriptionCreateTime) else none

theorem entry_stamp (now : Timeval) (n : Node) : (n.stamp now).entry = n.entry := by
  unfold stamp
  split_ifs with h
  · simp [entry, h]
  · rfl

theorem entry_setInterfaceUp (now : Timeval) (n : Node) (i : Interface) :
    (n.setInterfaceUp now i).entry = n.entry := by
  unfold setInterfaceUp
  cases markFirst (fun j => i.same j && !j.isUp) true n.interfaces with
  | none => rfl
  | some l => exact entry_stamp now _

theorem entry_setInterfaceDown (now : Timeval) (n : Node) (i : Interface) :
    (n.setInterfaceDown now i).entry = n.entry := by
  unfold setInterfaceDown
  cases markFirst (fun j => i.same j && j.isUp) false n.interfaces with
  | none => rfl
  | some l => exact entry_stamp now _

theorem entry_takeUp (now : Timeval) (n : Node) (interfaces : List Interface) :
    (n.takeUp now interfaces).entry = n.entry := by
  unfold takeUp
  induction interfaces generalizing n with
  | nil => rfl
  | cons i l ih =>
    rw [List.foldl_cons, ih]
    split_ifs
    · exact entry_setInterfaceUp now n i
    · rfl

end Node

namespace NodeHeap

variable {h : NodeHeap}

def entry (h : NodeHeap) (k : ℕ) : Option (Digest × Timeval) := (h.node k).bind Node.entry

theorem entry_setStored (refs : List ℕ) (b : Bool) : (h.setStored refs b).entry = h.entry := by
  unfold entry
  rw [node_setStored]

theorem entry_modify (k : ℕ) {f : NodeObject → NodeObject} {g : Node → Node}
    (hf : ∀ o, (f o).node = g o.node) (hg : ∀ n, (g n).entry = n.entry) :
    entry (h.modify k f) = h.entry := by
  funext x
  unfold entry
  rw [node_modify k hf]
  split_ifs
  · cases h.node x with
    | none => rfl
    | some n => exact hg n
  · rfl

theorem entry_modifyNode (k : ℕ) {g : Node → Node} (hg : ∀ n, (g n).entry = n.entry) :
    (h.modifyNode k g).entry = h.entry :=
  entry_modify k (fun _ => rfl) hg

theorem entry_replace (now : Timeval) (k r : ℕ) : (h.replace now k r).entry = h.entry := by
  unfold replace
  cases h[r]? with
  | none => rfl
  | some old =>
    rw [entry_modify k (f := fun o => { o with nodeDescExch := old.nodeDescExch }) (g := id)
      (fun _ => rfl) fun _ => rfl, entry_setStored,
      entry_modifyNode k fun n => Node.entry_takeUp now n old.node.interfaces]

end NodeHeap

namespace NodeStore

open NodeHeap

variable {s : NodeStore}

theorem entry_updateRecords (now : Timeval) (k : ℕ) (records : List ℕ) (h : NodeHeap) :
    (updateRecords now k h records).1.entry = h.entry := by
  induction records generalizing h with
  | nil => rfl
  | cons r l ih =>
    unfold updateRecords
    split_ifs
    · exact (ih _).trans (entry_replace now k r)
    · exact ih h

/-- The identifiers and times of the descriptions in the store. -/
def entries (s : NodeStore) : List (Digest × Timeval) := s.records.filterMap s.heap.entry

/-- Every record refers to an object. -/
def Valid (s : NodeStore) : Prop := ∀ r ∈ s.records, (s.heap.node r).isSome

theorem advances_remove (s : NodeStore) (k : ℕ) : Advances s.entries (s.remove k).2.entries := by
  unfold remove removeFirst
  cases s.records.find? (s.heap.sameRef · k) with
  | none => exact .of_sublist (List.Sublist.refl _)
  | some r =>
    apply Advances.of_sublist
    unfold entries
    simp only [entry_setStored]
    exact List.eraseP_sublist.filterMap _

theorem Valid.remove (h : s.Valid) (k : ℕ) : (s.remove k).2.Valid := by
  unfold NodeStore.remove removeFirst
  cases s.records.find? (s.heap.sameRef · k) with
  | none => exact h
  | some r =>
    intro x hx
    simp only [node_setStored]
    exact h x (List.mem_of_mem_eraseP hx)

theorem entry_eq_some {n : Node} {e : Digest × Timeval} (h : n.entry = some e) :
    n.sig.type ≠ .undefined ∧ n.sig.id = e.1 := by
  unfold Node.entry at h
  split_ifs at h with htype
  obtain rfl := Option.some.inj h
  refine ⟨fun hundefined => ?_, rfl⟩
  rw [show n.type = .undefined from hundefined] at htype
  simp at htype

theorem advances_add (s : NodeStore) (k : ℕ) : Advances s.entries (s.add k).2.entries := by
  unfold add addWith
  split_ifs with hrefused
  · exact .of_sublist (List.Sublist.refl _)
  · rw [Bool.or_eq_true, not_or, Bool.not_eq_true, Bool.not_eq_true, List.any_eq_false] at hrefused
    unfold entries
    simp only [entry_setStored, List.filterMap_append]
    cases hk : s.heap.entry k with
    | none =>
      simp only [List.filterMap_cons_none hk, List.filterMap_nil, List.append_nil]
      exact .of_sublist (List.Sublist.refl _)
    | some e =>
      rw [List.filterMap_cons_some hk, List.filterMap_nil]
      have hout : ∀ e', e' ∈ s.records.filterMap s.heap.entry → e'.1 ≠ e.1 := by
        intro e' he' hid
        obtain ⟨r, hr, he'⟩ := List.mem_filterMap.mp he'
        obtain ⟨n, hn, hentry⟩ := Option.bind_eq_some_iff.mp hk
        obtain ⟨m, hm, hentry'⟩ := Option.bind_eq_some_iff.mp he'
        obtain ⟨htype, hidn⟩ := entry_eq_some hentry
        obtain ⟨htype', hidm⟩ := entry_eq_some hentry'
        have hsame : s.heap.sameNode r k = true := by
          apply sameNode_iff.mpr
          refine ⟨m.sig, n.sig, congrArg _ hm, congrArg _ hn, ?_⟩
          rw [if_neg (not_or.mpr ⟨htype', htype⟩)]
          exact hidm.trans (hid.trans hidn.symm)
        exact hrefused.2 r hr (by simp [sameRef, hsame])
      refine ⟨_, List.Sublist.refl _, .inr ⟨e, rfl, ?_, fun t ht => absurd rfl (hout (e.1, t) ht)⟩⟩
      intro hin
      obtain ⟨e', he', hid⟩ := List.mem_map.mp hin
      exact hout e' he' hid

theorem Valid.add (h : s.Valid) (k : ℕ) : (s.add k).2.Valid := by
  unfold NodeStore.add addWith
  split_ifs with hrefused
  · exact h
  · intro r hr
    simp only [node_setStored]
    rcases List.mem_append.mp hr with hr | hr
    · exact h r hr
    · rw [List.mem_singleton.mp hr]
      rw [Bool.or_eq_true, not_or] at hrefused
      simpa [Option.isSome_iff_ne_none] using hrefused.1

/-- A node that replaces records is not older than those with its identifier, and all of them are
replaced. -/
def Newer (s : NodeStore) (k : ℕ) : Prop :=
  (∃ r ∈ s.records, s.heap.shares k r = true) → ∀ e, s.heap.entry k = some e →
    ∀ r ∈ s.records, ∀ t, s.heap.entry r = some (e.1, t) → s.heap.shares k r = true ∧ t ≤ e.2

theorem entry_update (now : Timeval) (s : NodeStore) (k : ℕ) :
    (s.update now k).2.2.heap.entry = s.heap.entry := by
  unfold update
  simp only
  split_ifs
  · rfl
  · rw [entry_setStored, entry_updateRecords]

theorem advances_update (now : Timeval) {k : ℕ} (hnewer : s.Newer k) :
    Advances s.entries (s.update now k).2.2.entries := by
  by_cases hfound : ∃ r ∈ s.records, s.heap.shares k r = true
  · obtain ⟨heap, -, heq⟩ := update_of_shares now hfound
    have hrecords : (s.update now k).2.2.records =
        s.records.filter (fun r => !s.heap.shares k r) ++ [k] := by rw [heq]
    have hsub : ((s.records.filter fun r => !s.heap.shares k r).filterMap s.heap.entry).Sublist
        s.entries := List.filter_sublist.filterMap _
    unfold entries at hsub ⊢
    rw [entry_update, hrecords, List.filterMap_append]
    cases hk : s.heap.entry k with
    | none =>
      rw [List.filterMap_cons_none hk, List.filterMap_nil, List.append_nil]
      exact .of_sublist hsub
    | some e =>
      rw [List.filterMap_cons_some hk, List.filterMap_nil]
      refine ⟨_, hsub, .inr ⟨e, rfl, fun hin => ?_, fun t ht => ?_⟩⟩
      · obtain ⟨e', he', hid⟩ := List.mem_map.mp hin
        obtain ⟨r, hr, hentry⟩ := List.mem_filterMap.mp he'
        obtain ⟨hr, hno⟩ := List.mem_filter.mp hr
        rw [(hnewer hfound e hk r hr e'.2 (by rw [hentry, ← hid])).1] at hno
        cases hno
      · obtain ⟨r, hr, hentry⟩ := List.mem_filterMap.mp ht
        exact (hnewer hfound e hk r hr t hentry).2
  · rw [update_of_not_shares now fun r hr => Bool.eq_false_iff.mpr fun h => hfound ⟨r, hr, h⟩]
    exact .of_sublist (List.Sublist.refl _)

theorem Valid.update (h : s.Valid) (now : Timeval) {k : ℕ} (hk : (s.heap.node k).isSome) :
    (s.update now k).2.2.Valid := by
  by_cases hfound : ∃ r ∈ s.records, s.heap.shares k r = true
  · obtain ⟨heap, hreplaced, heq⟩ := update_of_shares now hfound
    rw [heq]
    intro r hr
    have hsome : (heap.node r).isSome = (s.heap.node r).isSome := by
      rw [← isSome_sig, ← isSome_sig, hreplaced.sig]
    simp only [node_setStored]
    rw [hsome]
    rcases List.mem_append.mp hr with hr | hr
    · exact h r (List.mem_of_mem_filter hr)
    · rw [List.mem_singleton.mp hr]
      exact hk
  · rw [update_of_not_shares now fun r hr => Bool.eq_false_iff.mpr fun h => hfound ⟨r, hr, h⟩]
    exact h

end NodeStore
namespace NodeManager

section Forward

variable (env : Surroundings)

/-- No description that stays in the store is replaced by one with an earlier time. -/
def NotBack (s s' : State) : Prop :=
  ∀ id t t', timeOf s.store.entries id = some t → timeOf s'.store.entries id = some t' → t ≤ t'

/-- Descriptions that come together are put into the store one after the other. -/
def Forward (s : State) : Act → Prop
  | .descriptions now stored running ds => running = true →
      Trace.Guarded (receiveNodeDescription env now stored)
        (fun s d => NotBack s (receiveNodeDescription env now stored s d)) s ds
  | act => NotBack s (step env s act)

/-- A node that shares an interface with a record shares one with each record of its identifier, and
was described no earlier. -/
def FreshOk (s : State) (n : Node) : Prop :=
  (∃ r ∈ s.store.records, ∃ m, s.node r = some m ∧ m.interfaces.any n.hasInterface = true) →
    ∀ e, n.entry = some e → ∀ r ∈ s.store.records, ∀ m, s.node r = some m →
      ∀ t, m.entry = some (e.1, t) → m.interfaces.any n.hasInterface = true ∧ t ≤ e.2

def Ordered (s : State) : Act → Prop
  | .retrieved now position node isUp => ∀ i ∈ s.retrieving[position]?,
      FreshOk s (node.getD (undefinedNode env now { i with isUp := isUp }))
  | .descriptions now stored running ds => running = true →
      Trace.Guarded (receiveNodeDescription env now stored)
        (fun s d => ∀ n ∈ updatesWith env now s d, FreshOk s n) s ds
  | .inserted _ _ position bloomfilter => ∀ n ∈ s.inserting[position]?,
      FreshOk s { n with bloomfilter := bloomfilter }
  | _ => True

end Forward

section Steps

variable {env : Surroundings} {s s' : State}

/-- The records refer to objects, and no two have the same identifier. -/
structure Fresh (s : State) : Prop where
  valid : s.store.Valid
  unique : (s.store.entries.map (·.1)).Nodup

/-- What a step does to the store. -/
structure Moves (s s' : State) : Prop where
  valid : s'.store.Valid
  advances : Advances s.store.entries s'.store.entries

theorem Moves.fresh (h : Moves s s') (hs : Fresh s) : Fresh s' :=
  ⟨h.valid, h.advances.nodup hs.unique⟩

theorem Moves.notBack (h : Moves s s') (hs : Fresh s) : NotBack s s' :=
  fun _ _ _ ht ht' => h.advances.timeOf_le hs.unique ht ht'

theorem Moves.of_store (h : s.store.Valid) (heq : s'.store = s.store) : Moves s s' := by
  refine ⟨heq ▸ h, ?_⟩
  rw [heq]
  exact .of_sublist (List.Sublist.refl _)

theorem entries_create (h : s.store.Valid) (n : Node) :
    (s.create n).store.entries = s.store.entries := by
  apply List.filterMap_congr
  intro r hr
  exact congrArg (Option.bind · Node.entry) (NodeHeap.node_append (h r hr) _)

theorem valid_create (h : s.store.Valid) (n : Node) : (s.create n).store.Valid := by
  intro r hr
  have hnode : (s.create n).store.heap.node r = s.store.heap.node r :=
    NodeHeap.node_append (h r hr) _
  rw [hnode]
  exact h r hr

theorem entries_modifyNode (s : State) (k : ℕ) {f : Node → Node}
    (hf : ∀ n, (f n).entry = n.entry) : (s.modifyNode k f).store.entries = s.store.entries := by
  unfold State.modifyNode NodeStore.entries
  simp only [NodeHeap.entry_modifyNode k hf]

theorem valid_modifyNode (h : s.store.Valid) (k : ℕ) (f : Node → Node) :
    (s.modifyNode k f).store.Valid := by
  intro r hr
  unfold State.modifyNode
  simp only [NodeHeap.node_modifyNode]
  split_ifs
  · rw [Option.isSome_map]
    exact h r hr
  · exact h r hr

theorem entry_syncInterfaces (now : Timeval) (stored : Interface → Bool) (n : Node) :
    (syncInterfaces now stored n).entry = n.entry := by
  unfold syncInterfaces
  generalize n.interfaces = l
  induction l generalizing n with
  | nil => rfl
  | cons i l ih =>
    rw [List.foldl_cons, ih]
    split_ifs
    · exact Node.entry_setInterfaceUp now n i
    · rfl

theorem FreshOk.newer (h : s.store.Valid) {n : Node} (hok : FreshOk s n) :
    (s.create n).store.Newer s.store.heap.length := by
  have hnode : ∀ r ∈ s.store.records, ∃ m, s.node r = some m ∧
      (s.create n).store.heap.node r = some m := by
    intro r hr
    obtain ⟨m, hm⟩ := Option.isSome_iff_exists.mp (h r hr)
    exact ⟨m, hm, (NodeHeap.node_append (h r hr) _).trans hm⟩
  rintro ⟨r, hr, hshares⟩ e he r' hr' t ht
  obtain ⟨m, hm, -⟩ := hnode r hr
  obtain ⟨m', hm', hcreated⟩ := hnode r' hr'
  rw [shares_create hm] at hshares
  rw [shares_create hm']
  have hn : (s.create n).store.heap.node s.store.heap.length = some n := node_create s n
  unfold NodeHeap.entry at he ht
  rw [hn] at he
  rw [hcreated] at ht
  exact hok ⟨r, hr, m, hm, hshares⟩ e he r' hr' m' hm' t ht

theorem moves_update (h : s.store.Valid) (now : Timeval) {n : Node} (hok : FreshOk s n) :
    ((s.create n).store.update now s.store.heap.length).2.2.Valid ∧ Advances s.store.entries
      ((s.create n).store.update now s.store.heap.length).2.2.entries := by
  constructor
  · apply (valid_create h n).update now
    rw [show NodeHeap.node _ _ = some n from node_create s n]
    rfl
  · rw [← entries_create h n]
    exact NodeStore.advances_update now (hok.newer h)

theorem moves_nodeUpdate (h : s.store.Valid) (now : Timeval) (stored : Interface → Bool) {n : Node}
    (hok : FreshOk s n) : Moves s (nodeUpdate now stored s n) := by
  by_cases hfound : ∃ r ∈ (s.create n).store.records,
      (s.create n).store.heap.shares s.store.heap.length r = true
  · obtain ⟨heap, -, heq⟩ := NodeStore.update_of_shares now hfound
    have hmoves := moves_update h now hok
    have hstore : (nodeUpdate now stored s n).store =
        ((s.create n).store.update now s.store.heap.length).2.2 := by
      unfold nodeUpdate
      simp only [heq, if_true]
    rw [← hstore] at hmoves
    exact ⟨hmoves.1, hmoves.2⟩
  · have hsync := entries_modifyNode (s.create n) s.store.heap.length
      (entry_syncInterfaces now stored)
    have hvalid := valid_modifyNode (valid_create h n) s.store.heap.length
      (syncInterfaces now stored)
    rw [entries_create h] at hsync
    rw [nodeUpdate_of_not_shares now stored fun r hr =>
      Bool.eq_false_iff.mpr fun hshares => hfound ⟨r, hr, hshares⟩]
    split_ifs
    · refine ⟨hvalid.add _, ?_⟩
      rw [← hsync]
      exact NodeStore.advances_add _ _
    · refine ⟨hvalid, ?_⟩
      rw [hsync]
      exact .of_sublist (List.Sublist.refl _)

theorem moves_onRetrieveNode (h : s.store.Valid) (now : Timeval) (node : Option Node)
    (i : Interface) (hok : FreshOk s (node.getD (undefinedNode env now i))) :
    Moves s (onRetrieveNode env now s node i) := by
  unfold onRetrieveNode
  generalize node.getD (undefinedNode env now i) = n at hok ⊢
  have hmoves := moves_update h now hok
  cases hupdated : ((s.create n).store.update now s.store.heap.length).1 with
  | true =>
    simp only [hupdated, if_true]
    exact ⟨hmoves.1, hmoves.2⟩
  | false =>
    simp only [hupdated, Bool.false_eq_true, if_false]
    refine ⟨(valid_create h n).add _, ?_⟩
    rw [← entries_create h n]
    exact NodeStore.advances_add _ _

theorem moves_onNeighborInterfaceUp (h : s.store.Valid) (now : Timeval) (i : Interface) :
    Moves s (onNeighborInterfaceUp now s i) := by
  unfold onNeighborInterfaceUp
  cases s.store.retrieve (s.store.hasInterface i) true with
  | none => exact .of_store h rfl
  | some k =>
    refine ⟨valid_modifyNode h k _, ?_⟩
    rw [entries_modifyNode s k fun n => Node.entry_setInterfaceUp now n i]
    exact .of_sublist (List.Sublist.refl _)

theorem moves_onNeighborInterfaceDown (h : s.store.Valid) (now : Timeval) (i : Interface) :
    Moves s (onNeighborInterfaceDown now s i) := by
  unfold onNeighborInterfaceDown
  cases s.store.retrieve (s.store.hasInterface i) false with
  | none => exact .of_store h rfl
  | some k =>
    have hvalid := valid_modifyNode h k (·.setInterfaceDown now i)
    have hentries := entries_modifyNode s k fun n => Node.entry_setInterfaceDown now n i
    simp only
    split_ifs
    · refine ⟨hvalid, ?_⟩
      rw [hentries]
      exact .of_sublist (List.Sublist.refl _)
    · refine ⟨hvalid.remove k, ?_⟩
      rw [← hentries]
      exact NodeStore.advances_remove _ k

theorem moves_receiveNodeDescription (h : s.store.Valid) {now : Timeval} {stored : Interface → Bool}
    {d : Description} (hok : ∀ n ∈ updatesWith env now s d, FreshOk s n) :
    Moves s (receiveNodeDescription env now stored s d) := by
  rcases receiveNodeDescription_eq now stored s d with ⟨n, hn, heq⟩ | ⟨inserting, heq⟩
  · rw [heq]
    exact moves_nodeUpdate h now stored (hok n hn)
  · rw [heq]
    exact .of_store h rfl

end Steps

section Runs

variable {env : Surroundings} {s : State}

theorem Fresh.step (h : Fresh s) {act : Act} (hok : Ordered env s act) :
    Forward env s act ∧ Fresh (step env s act) := by
  cases act with
  | interfaceUp now i =>
    have hmoves := moves_onNeighborInterfaceUp h.valid now i
    exact ⟨hmoves.notBack h, hmoves.fresh h⟩
  | interfaceDown now i =>
    have hmoves := moves_onNeighborInterfaceDown h.valid now i
    exact ⟨hmoves.notBack h, hmoves.fresh h⟩
  | retrieved now position node isUp =>
    have hmoves : Moves s (NodeManager.step env s (.retrieved now position node isUp)) := by
      cases hget : s.retrieving[position]? with
      | none =>
        simp only [NodeManager.step, hget]
        exact .of_store h.valid rfl
      | some i =>
        simp only [NodeManager.step, hget]
        have hmoves := moves_onRetrieveNode
          (s := { s with retrieving := s.retrieving.eraseIdx position }) h.valid now node
          { i with isUp := isUp } (hok i hget)
        exact ⟨hmoves.valid, hmoves.advances⟩
    exact ⟨hmoves.notBack h, hmoves.fresh h⟩
  | descriptions now stored running ds =>
    cases running with
    | false => exact ⟨(fun h => by cases h), h⟩
    | true =>
      have hguarded := hok rfl
      refine ⟨fun _ => hguarded.imp (fun s d hs hd => ?_) (fun s d hs hd => ?_) h, ?_⟩
      · exact (moves_receiveNodeDescription hs.valid hd).notBack hs
      · exact (moves_receiveNodeDescription hs.valid hd).fresh hs
      · exact Trace.invariant_of_guarded (fun s d hs hd =>
          (moves_receiveNodeDescription hs.valid hd).fresh hs) h hguarded
  | inserted now stored position bloomfilter =>
    have hmoves : Moves s (NodeManager.step env s (.inserted now stored position bloomfilter)) := by
      cases hget : s.inserting[position]? with
      | none =>
        simp only [NodeManager.step, hget]
        exact .of_store h.valid rfl
      | some n =>
        simp only [NodeManager.step, hget]
        have hmoves := moves_nodeUpdate
          (s := { s with inserting := s.inserting.eraseIdx position }) h.valid now stored
          (hok n hget)
        exact ⟨hmoves.valid, hmoves.advances⟩
    exact ⟨hmoves.notBack h, hmoves.fresh h⟩

theorem fresh_init (env : Surroundings) : Fresh (init env) := by
  constructor
  · intro r hr
    rw [List.mem_singleton.mp hr]
    rfl
  · have hentry : env.thisNode.entry = none := by simp [Node.entry, env.isDevice]
    have hentries : (init env).store.entries = [] := by
      simp [NodeStore.entries, init, NodeHeap.entry, NodeHeap.node, hentry]
    rw [hentries]
    exact List.nodup_nil

/-- In a run that keeps to the condition, no description that stays in the store goes back in
time. -/
theorem forward_run {acts : List Act} (h : Trace.Guarded (step env) (Ordered env) (init env) acts) :
    Trace.Guarded (step env) (Forward env) (init env) acts :=
  h.imp (fun _ _ hs hok => (hs.step hok).1) (fun _ _ hs hok => (hs.step hok).2) (fresh_init env)

end Runs

end NodeManager

namespace Sample

open NodeManager

/-- A peer as it described itself at a time. -/
def peerAt (time : ℤ) (i : Interface) : Node :=
  { plainNode .peer 1 [i] with nodeDescriptionCreateTime := ⟨time, 0⟩ }

/-- The data store knows an older description. -/
def describedLater : List Act :=
  [.interfaceUp ⟨6, 0⟩ (wlanOf 1), .retrieved ⟨7, 0⟩ 0 (some (peerAt 3 (wlanOf 1))) true,
    .descriptions ⟨8, 0⟩ (fun _ => true) true [⟨some (peerAt 5 (downWlanOf 1)), some (wlanOf 1)⟩]]

/-- The description arrives before the data store calls back. -/
def describedBefore : List Act :=
  [.interfaceUp ⟨6, 0⟩ (wlanOf 1),
    .descriptions ⟨7, 0⟩ (fun _ => true) true [⟨some (peerAt 5 (downWlanOf 1)), some (wlanOf 1)⟩],
    .retrieved ⟨8, 0⟩ 0 (some (peerAt 3 (wlanOf 1))) true]

/-- It is enough that the records with a description share an interface and are not younger. -/
theorem freshOk_of {s : State} {n : Node} (h : ∀ r ∈ s.store.records, ∀ m ∈ s.node r,
    ∀ e ∈ m.entry, m.interfaces.any n.hasInterface = true ∧ e.2 ≤ n.nodeDescriptionCreateTime) :
    FreshOk s n := by
  intro _ e he r hr m hm t ht
  have htime : n.nodeDescriptionCreateTime = e.2 := by
    unfold Node.entry at he
    split_ifs at he
    rw [← Option.some.inj he]
  rw [← htime]
  exact h r hr m hm (e.1, t) ht

theorem forward_describedLater :
    Trace.Guarded (step device) (Forward device) (init device) describedLater ∧
      timeOf (Trace.run (step device) (init device) describedLater).store.entries firstPeer =
        some ⟨5, 0⟩ := by
  refine ⟨forward_run ⟨trivial, fun i hi => ?_, fun _ => ⟨fun n hn => ?_, trivial⟩, trivial⟩, ?_⟩
  · obtain rfl := Option.some.inj hi
    exact freshOk_of (by decide)
  · obtain rfl := Option.some.inj hn
    exact freshOk_of (by decide)
  · decide

theorem not_forward_describedBefore :
    ¬ Trace.Guarded (step device) (Forward device) (init device) describedBefore := by
  rintro ⟨-, -, hback, -⟩
  have hle := hback firstPeer ⟨5, 0⟩ ⟨3, 0⟩ (by decide) (by decide)
  exact absurd hle (by decide)

end Sample
end Haggle
