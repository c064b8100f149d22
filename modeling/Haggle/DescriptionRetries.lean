import Haggle.DescriptionSends
import Haggle.Trace

/-!
# How often a node description is sent

As long as the nodes that are compared can be told from each other, the entry that is found is the
one that was made for the sending, also when the node in the store has been replaced. Node equality
need not tell them apart: two nodes of which nothing but an interface is known differ, and the peer
that both of them turn out to be is equal to either.
-/

namespace Haggle

namespace NodeHeap

variable {h h' : NodeHeap} {a b k : ℕ}

theorem sameRef_congr_at (ha : h'.sig a = h.sig a) (hb : h'.sig b = h.sig b) :
    h'.sameRef a b = h.sameRef a b := by
  have hnode : h'.sameNode a b = h.sameNode a b := by
    rw [Bool.eq_iff_iff, sameNode_iff, sameNode_iff, ha, hb]
  unfold sameRef
  rw [hnode, ← isSome_sig, ← isSome_sig, ha]

theorem sameRef_self (hk : (h.node k).isSome) : h.sameRef k k = true := by
  unfold sameRef
  rw [hk, Bool.and_true, decide_eq_true rfl, Bool.true_or]

theorem sameRef_symm (a b : ℕ) : h.sameRef a b = h.sameRef b a := by
  by_cases hab : a = b
  · rw [hab]
  have hnode : h.sameNode a b = h.sameNode b a := by
    unfold sameNode
    cases h.node a with
    | none => cases h.node b <;> rfl
    | some n =>
      cases h.node b with
      | none => rfl
      | some m => exact Node.same_symm n m
  unfold sameRef
  rw [hnode, decide_eq_false hab, decide_eq_false (Ne.symm hab), Bool.false_and, Bool.false_and]

theorem isSome_of_sameRef (hab : h.sameRef a b = true) : (h.node a).isSome := by
  unfold sameRef at hab
  rcases (Bool.or_eq_true _ _).mp hab with hself | hnode
  · exact ((Bool.and_eq_true _ _).mp hself).2
  · obtain ⟨x, -, hx, -⟩ := sameNode_iff.mp hnode
    rw [← isSome_sig, hx]
    rfl

end NodeHeap

namespace NodeStore

open NodeHeap DescriptionSends

variable {s : NodeStore} {k r : ℕ}

theorem sig_step (hk : (s.heap.node k).isSome) (call : Call) :
    (s.step call).heap.sig k = s.heap.sig k := by
  have hwith : ∀ same k', (s.addWith same k').2.heap.sig = s.heap.sig := by
    intro same k'
    unfold addWith
    split_ifs
    · rfl
    · exact sig_setStored s.heap [k'] true
  have hfirst : ∀ p, (s.removeFirst p).2.heap.sig = s.heap.sig := by
    intro p
    unfold removeFirst
    cases s.records.find? p with
    | none => rfl
    | some r => exact sig_setStored s.heap [r] false
  cases call with
  | create o => exact congrArg (Option.map Node.sig) (NodeHeap.node_append hk o)
  | setInterfaceUp now k' i =>
    exact congrFun (sig_modifyNode k' (Node.sig_setInterfaceUp now · i)) k
  | setInterfaceDown now k' i =>
    exact congrFun (sig_modifyNode k' (Node.sig_setInterfaceDown now · i)) k
  | add k' => exact congrFun (hwith _ k') k
  | addPtr k' => exact congrFun (hwith _ k') k
  | update now k' =>
    by_cases hfound : ∃ r ∈ s.records, s.heap.shares k' r = true
    · obtain ⟨heap, hreplaced, heq⟩ := update_of_shares now hfound
      rw [step, heq, sig_setStored, hreplaced.sig]
    · have hnone : ∀ r ∈ s.records, s.heap.shares k' r = false := fun r hr =>
        Bool.eq_false_iff.mpr fun h => hfound ⟨r, hr, h⟩
      rw [step, update_of_not_shares now hnone]
  | removeInterface i => exact congrFun (hfirst _) k
  | remove k' => exact congrFun (hfirst _) k
  | removeType type => exact congrFun (sig_setStored s.heap _ false) k

theorem mem_records_step {call : Call} (hr : r ∈ (s.step call).records) :
    r ∈ s.records ∨ r ∈ arriving call ∧ (s.heap.node r).isSome := by
  have hwith : ∀ same k', r ∈ (s.addWith same k').2.records →
      r ∈ s.records ∨ r ∈ [k'] ∧ (s.heap.node r).isSome := by
    intro same k' hr
    unfold addWith at hr
    split_ifs at hr with hrefused
    · exact .inl hr
    · refine (List.mem_append.mp hr).imp_right fun hr => ⟨hr, ?_⟩
      rw [List.mem_singleton.mp hr, ← Option.not_isNone, Bool.not_eq_true']
      exact Bool.eq_false_iff.mpr fun h => hrefused ((Bool.or_eq_true _ _).mpr (.inl h))
  have hfirst : ∀ p, r ∈ (s.removeFirst p).2.records → r ∈ s.records := by
    intro p hr
    unfold removeFirst at hr
    cases hfind : s.records.find? p with
    | none =>
      rw [hfind] at hr
      exact hr
    | some r' =>
      rw [hfind] at hr
      exact List.mem_of_mem_eraseP hr
  cases call with
  | create o => exact .inl hr
  | setInterfaceUp now k' i => exact .inl hr
  | setInterfaceDown now k' i => exact .inl hr
  | add k' => exact hwith _ k' hr
  | addPtr k' => exact hwith _ k' hr
  | update now k' =>
    by_cases hfound : ∃ r ∈ s.records, s.heap.shares k' r = true
    · obtain ⟨heap, -, heq⟩ := update_of_shares now hfound
      rw [step, heq] at hr
      refine (List.mem_append.mp hr).imp (fun hr => (List.mem_filter.mp hr).1) fun hr => ⟨hr, ?_⟩
      obtain ⟨r', -, hshares⟩ := hfound
      obtain ⟨x, -, hx, -⟩ := shares_iff.mp hshares
      rw [List.mem_singleton.mp hr, ← isSome_sig, hx]
      rfl
    · have hnone : ∀ r ∈ s.records, s.heap.shares k' r = false := fun r hr =>
        Bool.eq_false_iff.mpr fun h => hfound ⟨r, hr, h⟩
      rw [step, update_of_not_shares now hnone] at hr
      exact .inl hr
  | removeInterface i => exact .inl (hfirst _ hr)
  | remove k' => exact .inl (hfirst _ hr)
  | removeType type => exact .inl (List.mem_filter.mp hr).1

end NodeStore

namespace DescriptionSends

variable {l : Ledger} {retries : ℕ}

/-- What holds of the manager as long as nodes can be told from each other. -/
structure Ledger.Inv (retries : ℕ) (l : Ledger) : Prop where
  records : ∀ r ∈ l.state.store.records, (l.state.store.heap.node r).isSome
  entries : ∀ e ∈ l.state.sendList, (l.state.store.heap.node e.node).isSome
  sends : ∀ o ∈ l.made, (l.state.store.heap.node o.1).isSome
  matched : OpenRequests.Matched (fits l.state.store.heap) (·.retries + 1) l.state.sendList
    l.opened l.made
  once : ∀ n ∈ l.state.store.records, ∀ dObj,
    l.state.sendList.countP (isFor l.state.store.heap n dObj) ≤ 1
  alone : ∀ e ∈ l.state.sendList,
    l.state.sendList.countP (isFor l.state.store.heap e.node e.dObj) ≤ 1
  retries_le : ∀ e ∈ l.state.sendList, e.retries ≤ retries

theorem Ledger.Inv.bounded (h : l.Inv retries) : l.Bounded retries where
  once := h.once
  alone := h.alone
  one_open := h.matched.one_open
  made_le e he := by
    rw [h.matched.tried e he]
    exact Nat.add_le_add_right (h.retries_le e he) 1

theorem inv_init : Ledger.init.Inv retries :=
  ⟨nofun, nofun, nofun, OpenRequests.matched_nil, nofun, nofun, nofun⟩

section Comparing

variable {h : NodeHeap} {n k : ℕ} {dObj : Digest} {e : SendEntry} {o : Send}

theorem isFor_iff : isFor h n dObj e = true ↔ h.sameRef e.node n = true ∧ e.dObj = dObj := by
  unfold isFor
  rw [Bool.and_eq_true, decide_eq_true_iff]

theorem mem_entriesOf (he : e ∈ l.state.sendList) : e.node ∈ l.entriesOf e.dObj :=
  List.mem_map_of_mem (List.mem_filter.mpr ⟨he, decide_eq_true rfl⟩)

theorem mem_involved_iff : k ∈ l.involved dObj ↔ k ∈ l.state.store.records ∨
    (∃ e ∈ l.state.sendList, e.dObj = dObj ∧ e.node = k) ∨ (k, dObj) ∈ l.made := by
  unfold Ledger.involved Ledger.entriesOf
  simp only [List.mem_append, List.mem_map, List.mem_filter, decide_eq_true_iff, or_assoc,
    and_assoc]
  constructor
  · rintro (hr | he | ⟨o, ho, rfl, rfl⟩)
    · exact .inl hr
    · exact .inr (.inl he)
    · exact .inr (.inr ho)
  · rintro (hr | he | ho)
    · exact .inl hr
    · exact .inr (.inl he)
    · exact .inr (.inr ⟨_, ho, rfl, rfl⟩)

theorem mem_involved_of_entry (he : e ∈ l.state.sendList) : e.node ∈ l.involved e.dObj :=
  mem_involved_iff.mpr (.inr (.inl ⟨e, he, rfl, rfl⟩))

theorem mem_involved_of_record (hn : n ∈ l.state.store.records) : n ∈ l.involved dObj :=
  mem_involved_iff.mpr (.inl hn)

theorem mem_involved_of_made (ho : o ∈ l.made) : o.1 ∈ l.involved o.2 :=
  mem_involved_iff.mpr (.inr (.inr ho))

/-- A node that is equal to one entry's node is looked up to that entry only. -/
theorem countP_le_one {entries : List SendEntry}
    (halone : ∀ e ∈ entries, entries.countP (isFor h e.node e.dObj) ≤ 1)
    (htold : ∀ e ∈ entries, ∀ e' ∈ entries, e.dObj = dObj → e'.dObj = dObj →
      h.sameRef e.node n = true → h.sameRef n e'.node = true → h.sameRef e.node e'.node = true) :
    entries.countP (isFor h n dObj) ≤ 1 := by
  by_cases hany : ∃ e ∈ entries, isFor h n dObj e = true
  · obtain ⟨e, he, hfor⟩ := hany
    obtain ⟨hsame, rfl⟩ := isFor_iff.mp hfor
    refine (List.countP_mono_left fun e' he' hfor' => ?_).trans (halone e he)
    obtain ⟨hsame', hobj⟩ := isFor_iff.mp hfor'
    rw [NodeHeap.sameRef_symm] at hsame
    exact isFor_iff.mpr ⟨htold e' he' e he hobj rfl hsame' hsame, hobj⟩
  · have hnone : entries.countP (isFor h n dObj) = 0 :=
      List.countP_eq_zero.mpr fun e he hfor => hany ⟨e, he, hfor⟩
    rw [hnone]
    exact Nat.zero_le 1

end Comparing

section Steps

/-- The store changes; what comes in is equal to one entry's node at the most. -/
theorem Ledger.Inv.store (h : l.Inv retries) {call : NodeStore.Call}
    (htold : l.Tells (.store call)) (has : NodeFilter → Digest → Bool) :
    (l.step has retries (.store call)).Inv retries := by
  have hsig : ∀ k, (l.state.store.heap.node k).isSome →
      (l.state.store.step call).heap.sig k = l.state.store.heap.sig k :=
    fun k hk => NodeStore.sig_step hk call
  have hsome : ∀ k, (l.state.store.heap.node k).isSome →
      ((l.state.store.step call).heap.node k).isSome := by
    intro k hk
    rw [← NodeHeap.isSome_sig, hsig k hk, NodeHeap.isSome_sig]
    exact hk
  have hsame : ∀ a b, (l.state.store.heap.node a).isSome → (l.state.store.heap.node b).isSome →
      (l.state.store.step call).heap.sameRef a b = l.state.store.heap.sameRef a b :=
    fun a b ha hb => NodeHeap.sameRef_congr_at (hsig a ha) (hsig b hb)
  have hfor : ∀ n, (l.state.store.heap.node n).isSome → ∀ dObj, ∀ e ∈ l.state.sendList,
      isFor (l.state.store.step call).heap n dObj e = isFor l.state.store.heap n dObj e := by
    intro n hn dObj e he
    unfold isFor
    rw [hsame e.node n (h.entries e he) hn]
  have hcount : ∀ n, (l.state.store.heap.node n).isSome → ∀ dObj,
      l.state.sendList.countP (isFor (l.state.store.step call).heap n dObj) =
        l.state.sendList.countP (isFor l.state.store.heap n dObj) :=
    fun n hn dObj => List.countP_congr fun e he => by rw [hfor n hn dObj e he]
  refine ⟨fun r hr => ?_, fun e he => hsome _ (h.entries e he), fun o ho => hsome _ (h.sends o ho),
    h.matched.congr fun e he o ho => hfor o.1 (h.sends o ho) o.2 e he, fun n hn dObj => ?_,
    fun e he => (hcount _ (h.entries e he) _).trans_le (h.alone e he), h.retries_le⟩
  · rcases NodeStore.mem_records_step hr with hr | ⟨-, hr⟩
    · exact hsome r (h.records r hr)
    · exact hsome r hr
  · rcases NodeStore.mem_records_step hn with hn | ⟨hn, hvalid⟩
    · exact (hcount n (h.records n hn) dObj).trans_le (h.once n hn dObj)
    · refine (hcount n hvalid dObj).trans_le (countP_le_one h.alone ?_)
      rintro e he e' he' rfl hobj hen hne'
      have hmem : e'.node ∈ l.entriesOf e.dObj := hobj ▸ mem_entriesOf he'
      exact htold e he e.node (List.mem_append_left _ (mem_entriesOf he)) n
        (List.mem_append_right _ hn) e'.node (List.mem_append_left _ hmem) hen hne'

/-- An entry is made for a node that is equal to the node of none, with a first sending. -/
theorem Ledger.Inv.push (h : l.Inv retries) {nodes : List ℕ} {neigh : ℕ} {dObj : Digest}
    (htold : Told l.state.store.heap nodes) (hinvolved : ∀ k ∈ l.involved dObj, k ∈ nodes)
    (hneigh : neigh ∈ nodes) (hvalid : (l.state.store.heap.node neigh).isSome)
    (hnot : l.state.isInSendList neigh dObj = false) :
    Ledger.Inv retries ⟨{ l.state with sendList := l.state.sendList ++ [⟨neigh, dObj, 0⟩] },
      l.opened ++ [(neigh, dObj)], l.made ++ [(neigh, dObj)]⟩ := by
  have hapart : ∀ e ∈ l.state.sendList, isFor l.state.store.heap neigh dObj e = false :=
    fun e he => Bool.eq_false_iff.mpr (List.any_eq_false.mp hnot e he)
  have hself : l.state.store.heap.sameRef neigh neigh = true := NodeHeap.sameRef_self hvalid
  have hsymm : ∀ a b, l.state.store.heap.sameRef a b = l.state.store.heap.sameRef b a :=
    NodeHeap.sameRef_symm
  -- Whatever is equal to the new node is equal to the node of no entry.
  have hnone : ∀ e ∈ l.state.sendList, ∀ k ∈ nodes, e.dObj = dObj →
      l.state.store.heap.sameRef e.node k = true → l.state.store.heap.sameRef neigh k = false := by
    intro e he k hk hobj hek
    by_contra hnk
    have hkn : l.state.store.heap.sameRef k neigh = true := by
      rw [hsymm]
      exact Bool.not_eq_false _ ▸ hnk
    have he' : e.node ∈ nodes := hinvolved _ (hobj ▸ mem_involved_of_entry he)
    have hfor := isFor_iff.mpr ⟨htold e.node he' k hk neigh hneigh hek hkn, hobj⟩
    rw [hapart e he] at hfor
    cases hfor
  have hrecords : ∀ n ∈ l.state.store.records, n ∈ nodes :=
    fun n hn => hinvolved n (mem_involved_of_record hn)
  refine ⟨h.records, fun e he => ?_, fun o ho => ?_, ?_, fun n hn dObj' => ?_, fun e he => ?_,
    fun e he => ?_⟩
  · rcases List.mem_append.mp he with he | he
    · exact h.entries e he
    · rw [List.mem_singleton.mp he]
      exact hvalid
  · rcases List.mem_append.mp ho with ho | ho
    · exact h.sends o ho
    · rw [List.mem_singleton.mp ho]
      exact hvalid
  · refine h.matched.request (isFor_iff.mpr ⟨hself, rfl⟩) hapart (fun o ho => ?_) rfl
    by_contra hfits
    obtain ⟨hsame, hobj⟩ := isFor_iff.mp (Bool.not_eq_false _ ▸ hfits)
    obtain ⟨e, he, hefits⟩ := List.countP_pos_iff.mp (by
      rw [h.matched.owner o ho]; exact Nat.one_pos)
    obtain ⟨hesame, heobj⟩ := isFor_iff.mp hefits
    have ho' : o.1 ∈ nodes := hinvolved _ (by
      rw [show dObj = o.2 from hobj]; exact mem_involved_of_made ho)
    have hno := hnone e he o.1 ho' (heobj.trans hobj.symm) hesame
    rw [show l.state.store.heap.sameRef neigh o.1 = true from hsame] at hno
    cases hno
  · by_cases hfor : isFor l.state.store.heap n dObj' ⟨neigh, dObj, 0⟩ = true
    · obtain ⟨hsame, rfl⟩ := isFor_iff.mp hfor
      refine le_of_eq ((OpenRequests.countP_append_singleton_of_pos hfor _).trans ?_)
      rw [OpenRequests.countP_eq_zero_of_forall]
      intro e he
      by_contra hefor
      obtain ⟨hesame, heobj⟩ := isFor_iff.mp (Bool.not_eq_false _ ▸ hefor)
      have hno := hnone e he n (hrecords n hn) heobj hesame
      rw [show l.state.store.heap.sameRef neigh n = true from hsame] at hno
      cases hno
    · have hfor := Bool.eq_false_iff.mpr hfor
      exact (OpenRequests.countP_append_singleton_of_neg hfor _).trans_le (h.once n hn dObj')
  · rcases List.mem_append.mp he with he | he
    · have hfor : isFor l.state.store.heap e.node e.dObj ⟨neigh, dObj, 0⟩ = false := by
        by_contra hfor
        obtain ⟨hsame, hobj⟩ := isFor_iff.mp (Bool.not_eq_false _ ▸ hfor)
        have hno := hapart e he
        rw [isFor, hsymm, show l.state.store.heap.sameRef neigh e.node = true from hsame,
          show dObj = e.dObj from hobj, decide_eq_true rfl] at hno
        cases hno
      exact (OpenRequests.countP_append_singleton_of_neg hfor _).trans_le (h.alone e he)
    · rw [List.mem_singleton.mp he]
      have hfor : isFor l.state.store.heap neigh dObj ⟨neigh, dObj, 0⟩ = true :=
        isFor_iff.mpr ⟨hself, rfl⟩
      refine le_of_eq ((OpenRequests.countP_append_singleton_of_pos hfor _).trans ?_)
      rw [OpenRequests.countP_eq_zero_of_forall hapart]
  · rcases List.mem_append.mp he with he | he
    · exact h.retries_le e he
    · rw [List.mem_singleton.mp he]
      exact Nat.zero_le _

/-- The loop over the nodes that a description is to be sent to. -/
theorem Ledger.Inv.sent (h : l.Inv retries) (has : NodeFilter → Digest → Bool) {dObj : Digest}
    {nodes neighList : List ℕ} (htold : Told l.state.store.heap nodes)
    (hinvolved : ∀ k ∈ l.involved dObj, k ∈ nodes) (hneigh : ∀ k ∈ neighList, k ∈ nodes ∧
      (l.state.store.heap.node k).isSome) :
    (l.sent dObj (sendNodeDescription has dObj l.state neighList)).Inv retries := by
  induction neighList generalizing l with
  | nil =>
    unfold Ledger.sent sendNodeDescription
    rw [List.map_nil, List.append_nil, List.append_nil]
    exact h
  | cons neigh neighList ih =>
    obtain ⟨⟨hmem, hvalid⟩, hrest⟩ := List.forall_mem_cons.mp hneigh
    unfold sendNodeDescription
    split_ifs with hskip
    · exact ih h htold hinvolved hrest
    · have hnot := (not_or.mp fun h => hskip ((Bool.or_eq_true _ _).mpr h)).2
      have hpush := h.push htold hinvolved hmem hvalid (Bool.eq_false_iff.mpr hnot)
      have hloop := ih hpush htold (fun k hk => ?_) hrest
      · unfold Ledger.sent at hloop ⊢
        simp only at hloop ⊢
        rw [List.map_cons]
        rwa [List.append_assoc, List.append_assoc] at hloop
      · rcases mem_involved_iff.mp hk with hr | ⟨e, he, hobj, rfl⟩ | ho
        · exact hinvolved k (mem_involved_of_record hr)
        · rcases List.mem_append.mp he with he | he
          · exact hinvolved _ (hobj ▸ mem_involved_of_entry he)
          · rw [List.mem_singleton.mp he]
            exact hmem
        · rcases List.mem_append.mp ho with ho | ho
          · exact hinvolved k (mem_involved_of_made ho)
          · obtain ⟨rfl, -⟩ := Prod.mk.inj (List.mem_singleton.mp ho)
            exact hmem

theorem changeFirst_append {p : SendEntry → Bool} {f : SendEntry → Option SendEntry}
    {l₁ l₂ : List SendEntry} {e : SendEntry} (hfirst : ∀ e ∈ l₁, p e = false) (he : p e = true) :
    changeFirst p f (l₁ ++ e :: l₂) = l₁ ++ ((f e).toList ++ l₂) := by
  induction l₁ with
  | nil => exact if_pos he
  | cons e' l₁ ih =>
    obtain ⟨he', hrest⟩ := List.forall_mem_cons.mp hfirst
    rw [List.cons_append, changeFirst, if_neg (Bool.eq_false_iff.mp he'), ih hrest,
      List.cons_append]

theorem sig_setExchanged (s : State) (node : ℕ) (yes : Bool) :
    (s.setExchanged node yes).store.heap.sig = s.store.heap.sig := by
  funext k
  unfold State.setExchanged NodeHeap.sig
  simp only
  rw [NodeHeap.node_modify node (f := fun o => { o with nodeDescExch := yes }) (g := id)
    fun _ => rfl]
  split_ifs
  · rw [Option.map_id]
    rfl
  · rfl

theorem isFor_congr {h h' : NodeHeap} (hsig : h'.sig = h.sig) : isFor h' = isFor h := by
  funext node dObj e
  unfold isFor
  rw [NodeHeap.sameRef_congr hsig]

theorem fits_congr {h h' : NodeHeap} (hsig : h'.sig = h.sig) : fits h' = fits h := by
  funext e o
  exact congrFun (congrFun (congrFun (isFor_congr hsig) o.1) o.2) e

/-- The flag of a node is nothing that nodes are compared by. -/
theorem Ledger.Inv.exchanged {s : State} {opened made : List Send}
    (h : Ledger.Inv retries ⟨s, opened, made⟩) (node : ℕ) (yes : Bool) :
    Ledger.Inv retries ⟨s.setExchanged node yes, opened, made⟩ := by
  have hsig := sig_setExchanged s node yes
  have hsome : ∀ k, (s.store.heap.node k).isSome →
      ((s.setExchanged node yes).store.heap.node k).isSome := by
    intro k hk
    rw [← NodeHeap.isSome_sig, hsig, NodeHeap.isSome_sig]
    exact hk
  refine ⟨fun r hr => hsome r (h.records r hr), fun e he => hsome _ (h.entries e he),
    fun o ho => hsome _ (h.sends o ho), ?_, ?_, ?_, h.retries_le⟩
  · rw [fits_congr hsig]
    exact h.matched
  · rw [isFor_congr hsig]
    exact h.once
  · rw [isFor_congr hsig]
    exact h.alone

/-- The node in the store that a result is about is equal to the one that the protocol holds. -/
theorem retrieve_sameRef {s : State} {node : ℕ} (hnode : (s.store.heap.node node).isSome) :
    ((s.store.retrieve (s.store.heap.sameRef · node) false).getD node = node ∨
      (s.store.retrieve (s.store.heap.sameRef · node) false).getD node ∈ s.store.records) ∧
    s.store.heap.sameRef ((s.store.retrieve (s.store.heap.sameRef · node) false).getD node) node =
      true := by
  cases hfind : s.store.retrieve (s.store.heap.sameRef · node) false with
  | none => exact ⟨.inl rfl, NodeHeap.sameRef_self hnode⟩
  | some r =>
    have hr : s.store.heap.sameRef r node = true := by
      simpa using List.find?_some hfind
    exact ⟨.inr (List.mem_of_find?_eq_some hfind), hr⟩

/-- What the manager does with a result once it has found the entry. -/
theorem onSendResult_eq {s : State} {successful : Bool} {node neigh : ℕ} {dObj : Digest}
    {l₁ l₂ : List SendEntry} {e : SendEntry}
    (hneigh : (s.store.retrieve (s.store.heap.sameRef · node) false).getD node = neigh)
    (hlist : s.sendList = l₁ ++ e :: l₂)
    (hfirst : ∀ e ∈ l₁, isFor s.store.heap neigh dObj e = false)
    (he : isFor s.store.heap neigh dObj e = true) :
    (∃ yes, onSendResult retries successful s (some node) dObj =
        ({ s.setExchanged neigh yes with sendList := l₁ ++ l₂ }, [])) ∨
      e.retries + 1 ≤ retries ∧ onSendResult retries successful s (some node) dObj =
        ({ s.setExchanged neigh false with
          sendList := l₁ ++ { e with retries := e.retries + 1 } :: l₂ }, [(neigh, dObj)]) := by
  have hfind : s.sendList.find? (isFor s.store.heap neigh dObj) = some e := by
    have hnone : l₁.find? (isFor s.store.heap neigh dObj) = none :=
      List.find?_eq_none.mpr fun e he => Bool.eq_false_iff.mp (hfirst e he)
    rw [hlist, List.find?_append, hnone, Option.none_or, List.find?_cons_of_pos he]
  unfold onSendResult
  simp only [hneigh, hfind]
  rw [hlist, changeFirst_append hfirst he, changeFirst_append hfirst he]
  split_ifs with hsuccess hagain
  · exact .inl ⟨true, rfl⟩
  · exact .inr ⟨hagain.1, rfl⟩
  · exact .inl ⟨false, rfl⟩

/-- A result: the entry that is found is the one that was made for what was sent. -/
theorem Ledger.Inv.reported (h : l.Inv retries) {successful : Bool} {i node : ℕ} {o : Send}
    (ho : l.opened[i]? = some o) (hnode : l.state.store.heap.sameRef node o.1 = true)
    (htold : Told l.state.store.heap (node :: l.involved o.2)) :
    (l.reported i (onSendResult retries successful l.state (some node) o.2)).Inv retries := by
  obtain ⟨neigh, hneigh⟩ : ∃ neigh,
      (l.state.store.retrieve (l.state.store.heap.sameRef · node) false).getD node = neigh :=
    ⟨_, rfl⟩
  obtain ⟨hmem, hsame⟩ := retrieve_sameRef (NodeHeap.isSome_of_sameRef hnode)
  rw [hneigh] at hmem hsame
  have homade : o ∈ l.made := h.matched.made_of_open o (List.mem_of_getElem? ho)
  have ho1 : o.1 ∈ node :: l.involved o.2 := List.mem_cons_of_mem _ (mem_involved_of_made homade)
  have hn : node ∈ node :: l.involved o.2 := List.mem_cons_self
  have hk : neigh ∈ node :: l.involved o.2 :=
    List.mem_cons.mpr (hmem.imp_right mem_involved_of_record)
  have hsymm : ∀ a b, l.state.store.heap.sameRef a b = l.state.store.heap.sameRef b a :=
    NodeHeap.sameRef_symm
  have hfor : ∀ e ∈ l.state.sendList,
      isFor l.state.store.heap neigh o.2 e = fits l.state.store.heap e o := by
    intro e he
    rw [fits, Bool.eq_iff_iff, isFor_iff, isFor_iff]
    refine and_congr_left fun hobj => ?_
    have hen : e.node ∈ node :: l.involved o.2 :=
      List.mem_cons_of_mem _ (hobj ▸ mem_involved_of_entry he)
    constructor
    · intro hek
      exact htold _ hen _ hn _ ho1 (htold _ hen _ hk _ hn hek hsame) hnode
    · intro heo
      rw [hsymm] at hnode hsame
      exact htold _ hen _ hn _ hk (htold _ hen _ ho1 _ hn heo hnode) hsame
  obtain ⟨e, l₁, l₂, hlist, hfirst, he⟩ : ∃ e l₁ l₂, l.state.sendList = l₁ ++ e :: l₂ ∧
      (∀ e ∈ l₁, isFor l.state.store.heap neigh o.2 e = false) ∧
        isFor l.state.store.heap neigh o.2 e = true := by
    obtain ⟨e₀, he₀, hfits⟩ := List.countP_pos_iff.mp (by
      rw [h.matched.owner o homade]; exact Nat.one_pos)
    cases hfind : l.state.sendList.find? (isFor l.state.store.heap neigh o.2) with
    | none => exact absurd ((hfor e₀ he₀).trans hfits) (List.find?_eq_none.mp hfind e₀ he₀)
    | some e =>
      obtain ⟨he, l₁, l₂, hlist, hfirst⟩ := List.find?_eq_some_iff_append.mp hfind
      exact ⟨e, l₁, l₂, hlist, fun e he => by simpa using hfirst e he, he⟩
  have hmatched := h.matched
  rw [hlist] at hmatched hfor
  have hmem_e : e ∈ l₁ ++ e :: l₂ := List.mem_append_right _ List.mem_cons_self
  have hfits : fits l.state.store.heap e o = true := (hfor e hmem_e).symm.trans he
  have hperm : l.opened.Perm (o :: l.opened.eraseIdx i) := by
    obtain ⟨hi, rfl⟩ := List.getElem?_eq_some_iff.mp ho
    exact (List.getElem_cons_eraseIdx_perm hi).symm
  have hothers : ∀ e' ∈ l₁ ++ l₂, e' ∈ l.state.sendList := by
    intro e' he'
    rw [hlist]
    exact List.mem_append.mpr ((List.mem_append.mp he').imp_right (List.mem_cons_of_mem _))
  unfold Ledger.reported
  rcases onSendResult_eq hneigh hlist hfirst he with ⟨yes, heq⟩ | ⟨hle, heq⟩
  · rw [heq]
    have hfewer : ∀ p : SendEntry → Bool, (l₁ ++ l₂).countP p ≤ l.state.sendList.countP p := by
      intro p
      rw [hlist]
      exact ((List.sublist_cons_self e l₂).append_left l₁).countP_le
    have hdone : Ledger.Inv retries ⟨{ l.state with sendList := l₁ ++ l₂ }, l.opened.eraseIdx i,
        OpenRequests.current (fits l.state.store.heap) (l₁ ++ l₂) l.made⟩ :=
      ⟨h.records, fun e' he' => h.entries e' (hothers e' he'),
        fun o' ho' => h.sends o' (List.mem_filter.mp ho').1, hmatched.done hperm hfits,
        fun n hn dObj => (hfewer _).trans (h.once n hn dObj),
        fun e' he' => (hfewer _).trans (h.alone e' (hothers e' he')),
        fun e' he' => h.retries_le e' (hothers e' he')⟩
    have hexchanged := hdone.exchanged neigh yes
    simp only [List.append_nil]
    rw [fits_congr (sig_setExchanged l.state neigh yes)]
    exact hexchanged
  · rw [heq]
    have he_list : e ∈ l.state.sendList := hlist ▸ hmem_e
    have hcount : ∀ n dObj, (l₁ ++ { e with retries := e.retries + 1 } :: l₂).countP
        (isFor l.state.store.heap n dObj) =
          l.state.sendList.countP (isFor l.state.store.heap n dObj) := by
      intro n dObj
      rw [hlist, List.countP_append, List.countP_append, List.countP_cons, List.countP_cons]
      rfl
    have hcases : ∀ e' ∈ l₁ ++ { e with retries := e.retries + 1 } :: l₂,
        e' = { e with retries := e.retries + 1 } ∨ e' ∈ l.state.sendList := by
      intro e' he'
      rcases List.mem_append.mp he' with he' | he'
      · exact .inr (hothers e' (List.mem_append_left _ he'))
      · exact (List.mem_cons.mp he').imp_right fun he' => hothers e' (List.mem_append_right _ he')
    have hagain : Ledger.Inv retries
        ⟨{ l.state with sendList := l₁ ++ { e with retries := e.retries + 1 } :: l₂ },
          l.opened.eraseIdx i ++ [(neigh, o.2)], l.made ++ [(neigh, o.2)]⟩ := by
      refine ⟨h.records, fun e' he' => ?_, fun o' ho' => ?_,
        hmatched.again hperm hfits (fun _ => rfl) hfor rfl,
        fun n hn dObj => (hcount n dObj).trans_le (h.once n hn dObj), fun e' he' => ?_,
        fun e' he' => ?_⟩
      · rcases hcases e' he' with rfl | he'
        · exact h.entries e he_list
        · exact h.entries e' he'
      · rcases List.mem_append.mp ho' with ho' | ho'
        · exact h.sends o' ho'
        · rw [List.mem_singleton.mp ho']
          exact NodeHeap.isSome_of_sameRef hsame
      · rcases hcases e' he' with rfl | he'
        · exact (hcount _ _).trans_le (h.alone e he_list)
        · exact (hcount _ _).trans_le (h.alone e' he')
      · rcases hcases e' he' with rfl | he'
        · exact hle
        · exact h.retries_le e' he'
    have hexchanged := hagain.exchanged neigh false
    have hcurrent : OpenRequests.current (fits (l.state.setExchanged neigh false).store.heap)
        (l₁ ++ { e with retries := e.retries + 1 } :: l₂) (l.made ++ [(neigh, o.2)]) =
          l.made ++ [(neigh, o.2)] := hexchanged.matched.current_eq
    simp only
    rw [hcurrent]
    exact hexchanged

/-- Every step keeps to it as long as the nodes that it has to do with can be told from each
other. -/
theorem Ledger.Inv.step (h : l.Inv retries) (has : NodeFilter → Digest → Bool) {m : Move}
    (htold : l.Tells m) : (l.step has retries m).Inv retries := by
  have hquiet : ∀ dObj, (l.sent dObj (l.state, [])).Inv retries := by
    intro dObj
    unfold Ledger.sent
    rw [List.map_nil, List.append_nil, List.append_nil]
    exact h
  cases m with
  | store call => exact h.store htold has
  | newContact running dObj neigh =>
    rw [Ledger.step]
    split_ifs with hvalid
    · unfold onNewNodeContact
      split_ifs
      · refine h.sent has htold (fun k hk => List.mem_cons_of_mem _ hk) fun k hk => ?_
        rw [List.mem_singleton.mp hk]
        exact ⟨List.mem_cons_self, hvalid⟩
      · exact hquiet dObj
    · exact h
  | nodeDescriptionSend running dObj =>
    rw [Ledger.step, onSendNodeDescription]
    split_ifs
    · refine h.sent has htold (fun k hk => hk) fun k hk => ?_
      have hrecord := (List.mem_filter.mp hk).1
      exact ⟨mem_involved_of_record hrecord, h.records k hrecord⟩
    · exact hquiet dObj
  | sendResult successful i node =>
    rw [Ledger.step]
    rw [Ledger.Tells] at htold
    cases ho : l.opened[i]? with
    | none => exact h
    | some o =>
      rw [ho] at htold
      simp only
      split_ifs with hnode
      · exact h.reported ho hnode htold
      · exact h

end Steps

end DescriptionSends

namespace Sample

open NodeStore

end Sample
end Haggle
