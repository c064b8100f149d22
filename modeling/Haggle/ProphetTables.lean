import Haggle.ProphetMetrics

/-!
# The numbers of the nodes

The two maps between identifiers and numbers are inverse to each other throughout, and every number
in a table of metrics stands for an identifier.
-/

namespace Haggle
namespace Prophet

/-- The number of an identifier, if it has one. -/
def State.number (s : State) (nodeid : Bytes) : Option ℕ :=
  AssocList.get s.nodeid_to_id_number nodeid

def State.Named (s : State) (k : ℕ) : Prop := ∃ n, s.number n = some k

structure State.Wf (s : State) : Prop where
  next_pos : 0 < s.next_id_number
  bound : ∀ n k, s.number n = some k → 0 < k ∧ k < s.next_id_number
  inverse : ∀ n k, s.number n = some k ↔ AssocList.get s.id_number_to_nodeid k = some n
  rib_nodup : (s.rib.map Prod.fst).Nodup
  rib_named : ∀ e ∈ s.rib, s.Named e.1
  neighbor_named : ∀ r ∈ s.neighbor_ribs, s.Named r.1 ∧ ∀ e ∈ r.2, s.Named e.1

section Numbers

variable {s : State}

theorem State.Wf.injective (h : s.Wf) {n n' : Bytes} {k : ℕ} (hn : s.number n = some k)
    (hn' : s.number n' = some k) : n = n' := by
  have hname := (h.inverse n k).mp hn
  rw [(h.inverse n' k).mp hn'] at hname
  exact (Option.some.inj hname).symm

theorem State.Wf.nodeid_eq (h : s.Wf) {n : Bytes} {k : ℕ} (hn : s.number n = some k) :
    s.nodeid k = n := by
  unfold State.nodeid
  rw [(h.inverse n k).mp hn]
  rfl

/-- What `id_for_string` does: the identifier has the number that is returned, all others keep
theirs, and so do the tables of metrics. -/
structure Numbers (s : State) (nodeid : Bytes) (k : ℕ) (s' : State) : Prop where
  self : s'.number nodeid = some k
  others : ∀ n, n ≠ nodeid → s'.number n = s.number n
  old : ∀ j, s.number nodeid = some j → j = k
  new : s.number nodeid = none → k = s.next_id_number
  rib : s'.rib = s.rib
  neighbor_ribs : s'.neighbor_ribs = s.neighbor_ribs

theorem Numbers.keeps {nodeid : Bytes} {k : ℕ} {s' : State} (h : Numbers s nodeid k s') {n : Bytes}
    {j : ℕ} (hn : s.number n = some j) : s'.number n = some j := by
  by_cases heq : n = nodeid
  · subst heq
    rw [h.old j hn]
    exact h.self
  · rw [h.others n heq, hn]

theorem Numbers.named {nodeid : Bytes} {k : ℕ} {s' : State} (h : Numbers s nodeid k s') {j : ℕ}
    (hj : s.Named j) : s'.Named j := by
  obtain ⟨n, hn⟩ := hj
  exact ⟨n, h.keeps hn⟩

theorem State.Wf.numbers (h : s.Wf) (nodeid : Bytes) :
    Numbers s nodeid (idForString s nodeid).1 (idForString s nodeid).2 ∧
      (Prophet.idForString s nodeid).2.Wf := by
  cases hnum : s.number nodeid with
  | some k =>
    have heq : Prophet.idForString s nodeid = (k, s) := by
      unfold Prophet.idForString
      rw [show AssocList.get s.nodeid_to_id_number nodeid = some k from hnum]
      simp only [Option.getD_some]
      rw [if_neg (h.bound nodeid k hnum).1.ne']
    rw [heq]
    refine ⟨⟨hnum, fun _ _ => rfl, fun j hj => ?_, fun hnone => ?_, rfl, rfl⟩, h⟩
    · rw [hnum] at hj
      exact (Option.some.inj hj).symm
    · rw [hnum] at hnone
      cases hnone
  | none =>
    have heq : Prophet.idForString s nodeid = (s.next_id_number,
        { s with
          nodeid_to_id_number := AssocList.set nodeid s.next_id_number s.nodeid_to_id_number
          id_number_to_nodeid := AssocList.set s.next_id_number nodeid s.id_number_to_nodeid
          next_id_number := s.next_id_number + 1 }) := by
      unfold Prophet.idForString
      rw [show AssocList.get s.nodeid_to_id_number nodeid = none from hnum]
      rfl
    rw [heq]
    have hnumbers : Numbers s nodeid s.next_id_number
        { s with
          nodeid_to_id_number := AssocList.set nodeid s.next_id_number s.nodeid_to_id_number
          id_number_to_nodeid := AssocList.set s.next_id_number nodeid s.id_number_to_nodeid
          next_id_number := s.next_id_number + 1 } := by
      refine ⟨AssocList.get_set_self _ _ _, fun n hn => ?_, fun j hj => ?_, fun _ => rfl, rfl, rfl⟩
      · exact AssocList.get_set_of_ne (fun h => hn h.symm) _ _
      · rw [hnum] at hj
        cases hj
    refine ⟨hnumbers, Nat.succ_pos _, ?_, ?_, h.rib_nodup, ?_, ?_⟩
    · intro n k hk
      by_cases hn : n = nodeid
      · subst hn
        rw [hnumbers.self] at hk
        obtain rfl := Option.some.inj hk
        exact ⟨h.next_pos, Nat.lt_succ_self _⟩
      · rw [hnumbers.others n hn] at hk
        exact ⟨(h.bound n k hk).1, (h.bound n k hk).2.trans (Nat.lt_succ_self _)⟩
    · intro n k
      by_cases hk : k = s.next_id_number
      · subst hk
        rw [AssocList.get_set_self]
        by_cases hn : n = nodeid
        · subst hn
          exact iff_of_true hnumbers.self rfl
        · rw [hnumbers.others n hn]
          refine iff_of_false (fun h' => ?_) fun h' => hn (Option.some.inj h').symm
          exact lt_irrefl _ (h.bound n _ h').2
      · rw [AssocList.get_set_of_ne (fun h' => hk h'.symm), ← h.inverse]
        by_cases hn : n = nodeid
        · subst hn
          rw [hnumbers.self, hnum]
          exact iff_of_false (fun h' => hk (Option.some.inj h').symm) nofun
        · rw [hnumbers.others n hn]
    · exact fun e he => hnumbers.named (h.rib_named e he)
    · intro r hr
      obtain ⟨hr₁, hr₂⟩ := h.neighbor_named r hr
      exact ⟨hnumbers.named hr₁, fun e he => hnumbers.named (hr₂ e he)⟩

@[simp] theorem named_modifyRib {k j : ℕ} {f : Metric → Metric} :
    (s.modifyRib k f).Named j ↔ s.Named j := Iff.rfl

@[simp] theorem named_modifyNeighborRib {k j : ℕ} {f : Rib → Rib} :
    (s.modifyNeighborRib k f).Named j ↔ s.Named j := Iff.rfl

theorem State.Wf.modifyRib (h : s.Wf) {k : ℕ} (hk : s.Named k) (f : Metric → Metric) :
    (s.modifyRib k f).Wf := by
  refine ⟨h.next_pos, h.bound, h.inverse, AssocList.nodup_set _ _ h.rib_nodup, ?_, h.neighbor_named⟩
  intro e he
  rcases AssocList.mem_set he with rfl | he
  · exact hk
  · exact h.rib_named e he

theorem State.Wf.modifyNeighborRib (h : s.Wf) {k : ℕ} (hk : s.Named k) {f : Rib → Rib}
    (hf : ∀ r : Rib, (∀ e ∈ r, s.Named e.1) → ∀ e ∈ f r, s.Named e.1) :
    (s.modifyNeighborRib k f).Wf := by
  refine ⟨h.next_pos, h.bound, h.inverse, h.rib_nodup, h.rib_named, ?_⟩
  intro r hr
  rcases AssocList.mem_set hr with rfl | hr
  · refine ⟨hk, hf _ ?_⟩
    cases hget : AssocList.get s.neighbor_ribs k with
    | none => exact nofun
    | some r => exact (h.neighbor_named _ (AssocList.mem_of_get hget)).2
  · exact h.neighbor_named r hr

theorem named_modifyAt {r : Rib} (hr : ∀ e ∈ r, s.Named e.1) {k : ℕ} (hk : s.Named k)
    (f : Metric → Metric) : ∀ e ∈ modifyAt .new k f r, s.Named e.1 := by
  intro e he
  rcases AssocList.mem_set he with rfl | he
  · exact hk
  · exact hr e he

theorem State.Wf.named_of_mem_neighborRib (h : s.Wf) {b : ℕ} {e : ℕ × Metric}
    (he : e ∈ (AssocList.get s.neighbor_ribs b).getD []) : s.Named e.1 := by
  cases hget : AssocList.get s.neighbor_ribs b with
  | none =>
    rw [hget] at he
    cases he
  | some r =>
    rw [hget] at he
    exact (h.neighbor_named _ (AssocList.mem_of_get hget)).2 e he

end Numbers

section Steps

variable {s : State} (pr : Parameters)

theorem State.Wf.receiveMetric (h : s.Wf) {b : ℕ} (hb : s.Named b) (times : Timeval × Timeval)
    (mm : Metadata) : (receiveMetric pr b times s mm).Wf ∧
      ∀ j, s.Named j → (Prophet.receiveMetric pr b times s mm).Named j := by
  obtain ⟨hnumbers, hwf⟩ := h.numbers (nodeIdOf mm)
  have hb' := hnumbers.named hb
  have hc : (Prophet.idForString s (nodeIdOf mm)).2.Named (Prophet.idForString s (nodeIdOf mm)).1 :=
    ⟨_, hnumbers.self⟩
  have hreceived := hwf.modifyNeighborRib hb' fun r hr => named_modifyAt hr hc fun m =>
    { m with p := (DoubleText.scan mm.content).getD m.p }
  unfold Prophet.receiveMetric
  simp only
  split_ifs
  · exact ⟨hreceived, fun j hj => hnumbers.named hj⟩
  · have haged := (hreceived.modifyRib hb' (ageMetric pr times.1)).modifyRib hc
      (ageMetric pr times.2)
    refine ⟨haged.modifyRib hc _, fun j hj => ?_⟩
    simp only [named_modifyRib, named_modifyNeighborRib]
    exact hnumbers.named hj

theorem State.Wf.receiveMetrics (h : s.Wf) {b : ℕ} (hb : s.Named b)
    (clock : ℕ → Timeval × Timeval) (mms : List Metadata) :
    (receiveMetrics pr b clock s mms).Wf := by
  induction mms generalizing s clock with
  | nil => exact h
  | cons mm mms ih =>
    obtain ⟨hwf, hnamed⟩ := h.receiveMetric pr hb (clock 0) mm
    exact ih hwf (hnamed b hb) _

theorem State.Wf.targetSteps (h : s.Wf) (prefers : ℚ → ℚ → Bool) (blank : Node)
    (clock : ℕ → Timeval) (b : ℕ) {entries : List (ℕ × Metric)}
    (hentries : ∀ e ∈ entries, s.Named e.1) (l : List (Node × ℚ)) :
    (entries.foldl (targetStep pr prefers blank clock b) (s, l)).1.Wf := by
  induction entries generalizing s l with
  | nil => exact h
  | cons e entries ih =>
    rw [List.forall_mem_cons] at hentries
    have haged := h.modifyRib hentries.1 (ageMetric pr (clock e.1))
    have hstep : (targetStep pr prefers blank clock b (s, l) e).1.Wf ∧
        ∀ j, s.Named j → (targetStep pr prefers blank clock b (s, l) e).1.Named j := by
      unfold targetStep
      simp only
      split_ifs
      · exact ⟨h, fun j hj => hj⟩
      · cases Node.createWithId blank ((s.modifyRib e.1 (ageMetric pr (clock e.1))).nodeid e.1) with
        | none => exact ⟨haged, fun j hj => hj⟩
        | some target => exact ⟨haged, fun j hj => hj⟩
      · exact ⟨haged, fun j hj => hj⟩
    exact ih hstep.1 (fun e he => hstep.2 e.1 (hentries.2 e he)) _

theorem State.Wf.delegateSteps (h : s.Wf) (prefers : ℚ → ℚ → Bool)
    (retrieve : Bytes → Option Node) (other_targets : List Node) {d : ℕ} (hd : s.Named d) (P_ad : ℚ)
    {tables : List (ℕ × Rib)} (htables : ∀ e ∈ tables, s.Named e.1) (l : List (Node × ℚ)) :
    (tables.foldl (delegateStep prefers retrieve other_targets d P_ad) (s, l)).1.Wf := by
  induction tables generalizing s l with
  | nil => exact h
  | cons e tables ih =>
    rw [List.forall_mem_cons] at htables
    have hstep : (delegateStep prefers retrieve other_targets d P_ad (s, l) e).1.Wf ∧ ∀ j,
        s.Named j → (delegateStep prefers retrieve other_targets d P_ad (s, l) e).1.Named j := by
      have hmade := h.modifyNeighborRib htables.1 fun r hr => named_modifyAt hr hd id
      unfold delegateStep
      by_cases hself : e.1 = this_node_id ∨ e.1 = d
      · rw [if_pos hself]
        exact ⟨h, fun j hj => hj⟩
      · rw [if_neg hself]
        cases retrieve (s.nodeid e.1) with
        | none => exact ⟨h, fun j hj => hj⟩
        | some delegate =>
          by_cases hother : (other_targets.any fun n => n.same delegate) = true
          · simp only [hother, if_true]
            exact ⟨h, fun j hj => hj⟩
          · simp only [hother]
            exact ⟨hmade, fun j hj => hj⟩
    exact ih hstep.1 (hstep.2 d hd) (fun e he => hstep.2 e.1 (htables.2 e he)) _

theorem map_fst_advertise (clock : ℕ → Timeval) (r : Rib) :
    (r.map (advertise pr clock)).map Prod.fst = r.map Prod.fst := by
  rw [List.map_map]
  apply List.map_congr_left
  intro e _
  simp only [Function.comp_apply, advertise]
  split_ifs <;> rfl

theorem State.Wf.step (h : s.Wf) (thisNode : Bytes) {op : Op} {s' : State}
    (hs : step pr thisNode s op = some s') : s'.Wf := by
  cases op with
  | newNeighbor type idStr =>
    obtain rfl := Option.some.inj hs
    unfold newNeighbor
    split_ifs
    · exact h
    · obtain ⟨hnumbers, hwf⟩ := h.numbers idStr
      exact hwf.modifyRib ⟨_, hnumbers.self⟩ _
  | endNeighbor now type idStr =>
    obtain rfl := Option.some.inj hs
    unfold endNeighbor
    split_ifs
    · exact h
    · obtain ⟨hnumbers, hwf⟩ := h.numbers idStr
      exact hwf.modifyRib ⟨_, hnumbers.self⟩ _
  | newRoutingInformation clock m =>
    obtain rfl := Option.some.inj hs
    unfold newRoutingInformation
    split_ifs
    · exact h
    · obtain ⟨hnumbers, hwf⟩ := h.numbers (nodeIdOf m)
      have hmade := hwf.modifyNeighborRib ⟨_, hnumbers.self⟩ fun r hr => hr
      exact hmade.receiveMetrics pr ⟨_, hnumbers.self⟩ clock _
  | addRoutingInformation clock parent =>
    simp only [Prophet.step, addRoutingInformation] at hs
    split_ifs at hs
    swap
    · cases hs
    obtain rfl := Option.some.inj hs
    refine ⟨h.next_pos, h.bound, h.inverse, ?_, ?_, h.neighbor_named⟩
    · rw [map_fst_advertise]
      exact h.rib_nodup
    · intro e he
      have hkey : e.1 ∈ s.rib.map Prod.fst := by
        rw [← map_fst_advertise pr clock]
        exact List.mem_map_of_mem he
      obtain ⟨e', he', hkey'⟩ := List.mem_map.mp hkey
      rw [← hkey']
      exact h.rib_named e' he'
  | setSaveState uninit key value =>
    obtain rfl := Option.some.inj hs
    obtain ⟨hnumbers, hwf⟩ := h.numbers key
    exact hwf.modifyRib ⟨_, hnumbers.self⟩ _
  | generateTargetsFor prefers blank limit clock neighbor =>
    obtain rfl := Option.some.inj hs
    obtain ⟨hnumbers, hwf⟩ := h.numbers neighbor
    have hmade := hwf.modifyNeighborRib ⟨_, hnumbers.self⟩ fun r hr => hr
    refine hmade.targetSteps pr prefers blank clock _ (fun e he => ?_) []
    exact hmade.named_of_mem_neighborRib (List.mem_mergeSort.mp he)
  | generateDelegatesFor prefers retrieve other_targets limit now target =>
    obtain rfl := Option.some.inj hs
    obtain ⟨hnumbers, hwf⟩ := h.numbers target
    have haged := hwf.modifyRib ⟨_, hnumbers.self⟩ (ageMetric pr now)
    refine haged.delegateSteps prefers retrieve other_targets ⟨_, hnumbers.self⟩ _ ?_ []
    exact fun e he => (haged.neighbor_named e (List.mem_mergeSort.mp he)).1

theorem wf_init (thisNode : Bytes) : (State.init thisNode).Wf := by
  have hempty : State.Wf ⟨[], [], 1, [], []⟩ :=
    ⟨Nat.one_pos, nofun, fun n k => iff_of_false nofun nofun, List.nodup_nil, nofun, nofun⟩
  exact (hempty.numbers thisNode).2

theorem wf_history {thisNode : Bytes} {ops : List Op} {s : State}
    (h : history pr thisNode ops = some s) : s.Wf := by
  have hrun : ∀ ops : List Op, ∀ s s' : State, s.Wf →
      Trace.run (fun s op => s.bind fun s => step pr thisNode s op) (some s) ops = some s' →
        s'.Wf := by
    intro ops
    induction ops with
    | nil =>
      rintro s s' hs ⟨⟩
      exact hs
    | cons op ops ih =>
      intro s s' hs hrun
      rw [Trace.run_cons, Option.bind_some] at hrun
      cases hstep : step pr thisNode s op with
      | none =>
        rw [hstep] at hrun
        have hnone := @Trace.invariant _ _
          (fun (s : Option State) op => s.bind fun s => step pr thisNode s op) (fun s => s = none)
          (fun s op h => by rw [h]; rfl) none rfl ops
        rw [hnone] at hrun
        cases hrun
      | some s₁ =>
        rw [hstep] at hrun
        exact ih s₁ s' (hs.step pr thisNode hstep) hrun
  exact hrun ops _ s (wf_init thisNode) h

end Steps

end Prophet
end Haggle
