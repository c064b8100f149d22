import Haggle.ProphetMetrics

/-!
# The best targets and delegates

The module puts the nodes for which its strategy speaks into a list in the order of their metrics,
and raises an event with the first ones. It asks whether there are any in front of the cut, so that
a limit of zero makes an event without nodes.
-/

namespace Haggle
namespace Prophet

/-- A node that may be chosen, with its number and its metric. -/
structure Candidate where
  key : ℕ
  metric : ℚ
  node : Node

/-- As many as there may be, each once, the best ones in front. -/
structure IsBest (limit : ℕ) (candidates chosen : List Candidate) : Prop where
  distinct : (chosen.map Candidate.key).Nodup
  sub : ∀ c ∈ chosen, c ∈ candidates
  count : chosen.length = min limit candidates.length
  sorted : chosen.Pairwise fun c c' => c'.metric ≤ c.metric
  best : ∀ c ∈ chosen, ∀ c' ∈ candidates, c' ∉ chosen → c'.metric ≤ c.metric

/-- An event has the best candidates, and there is none without nodes. -/
def Selects (limit : ℕ) (candidates : List Candidate) (event : Option (List Node)) : Prop :=
  ∃ chosen, IsBest limit candidates chosen ∧
    event = if chosen = [] then none else some (chosen.map Candidate.node)

section Order

variable {N M : Type} {x : N} {m : ℚ} {l : List (N × ℚ)}

theorem sortedNodeListInsert_perm (x : N) (m : ℚ) (l : List (N × ℚ)) :
    (sortedNodeListInsert x m l).Perm ((x, m) :: l) := by
  induction l with
  | nil => exact List.Perm.refl _
  | cons y l ih =>
    rw [sortedNodeListInsert]
    split_ifs
    · exact List.Perm.refl _
    · exact (ih.cons y).trans (List.Perm.swap (x, m) y l)

theorem sortedNodeListInsert_sorted (h : l.Pairwise fun y z => z.2 ≤ y.2) :
    (sortedNodeListInsert x m l).Pairwise fun y z => z.2 ≤ y.2 := by
  induction l with
  | nil => exact List.pairwise_singleton _ _
  | cons y l ih =>
    obtain ⟨hy, hl⟩ := List.pairwise_cons.mp h
    rw [sortedNodeListInsert]
    split_ifs with hlt
    · refine List.pairwise_cons.mpr ⟨fun z hz => ?_, h⟩
      rcases List.mem_cons.mp hz with rfl | hz
      · exact hlt.le
      · exact (hy z hz).trans hlt.le
    · refine List.pairwise_cons.mpr ⟨fun z hz => ?_, ih hl⟩
      rcases List.mem_cons.mp ((sortedNodeListInsert_perm x m l).mem_iff.mp hz) with rfl | hz
      · exact not_lt.mp hlt
      · exact hy z hz

theorem sortedNodeListInsert_map (f : N → M) (x : N) (m : ℚ) (l : List (N × ℚ)) :
    sortedNodeListInsert (f x) m (l.map fun y => (f y.1, y.2)) =
      (sortedNodeListInsert x m l).map fun y => (f y.1, y.2) := by
  induction l with
  | nil => rfl
  | cons y l ih =>
    rw [List.map_cons, sortedNodeListInsert, sortedNodeListInsert]
    split_ifs
    · rfl
    · rw [ih, List.map_cons]

/-- The list that candidates are put into. -/
def collect (cs : List Candidate) : List (Candidate × ℚ) :=
  cs.foldl (fun l c => sortedNodeListInsert c c.metric l) []

theorem collect_spec (cs : List Candidate) :
    (collect cs).Perm (cs.map fun c => (c, c.metric)) ∧
      (collect cs).Pairwise fun y z => z.2 ≤ y.2 := by
  have hfold : ∀ (cs : List Candidate) (l : List (Candidate × ℚ)),
      l.Pairwise (fun y z => z.2 ≤ y.2) →
      (cs.foldl (fun l c => sortedNodeListInsert c c.metric l) l).Perm
        (cs.map (fun c => (c, c.metric)) ++ l) ∧
      (cs.foldl (fun l c => sortedNodeListInsert c c.metric l) l).Pairwise
        fun y z => z.2 ≤ y.2 := by
    intro cs
    induction cs with
    | nil => exact fun l hl => ⟨List.Perm.refl _, hl⟩
    | cons c cs ih =>
      intro l hl
      obtain ⟨hperm, hsorted⟩ := ih _ (sortedNodeListInsert_sorted (x := c) (m := c.metric) hl)
      refine ⟨hperm.trans ?_, hsorted⟩
      have hinsert := sortedNodeListInsert_perm c c.metric l
      exact (hinsert.append_left _).trans List.perm_middle
  have h := hfold cs [] List.Pairwise.nil
  rwa [List.append_nil] at h

theorem collect_map (cs : List Candidate) :
    cs.foldl (fun l c => sortedNodeListInsert c.node c.metric l) [] =
      (collect cs).map fun y => (y.1.node, y.2) := by
  have hfold : ∀ (cs : List Candidate) (l : List (Candidate × ℚ)),
      cs.foldl (fun l c => sortedNodeListInsert c.node c.metric l)
        (l.map fun y => (y.1.node, y.2)) =
      (cs.foldl (fun l c => sortedNodeListInsert c c.metric l) l).map
        fun y => (y.1.node, y.2) := by
    intro cs
    induction cs with
    | nil => exact fun l => rfl
    | cons c cs ih =>
      intro l
      rw [List.foldl_cons, List.foldl_cons, ← ih, sortedNodeListInsert_map Candidate.node]
  exact hfold cs []

/-- The first ones of the list are the best. -/
theorem isBest_take {candidates cs : List Candidate} (hkeys : (candidates.map Candidate.key).Nodup)
    (hperm : cs.Perm candidates) (limit : ℕ) :
    IsBest limit candidates (((collect cs).take limit).map Prod.fst) := by
  obtain ⟨hcollect, hsorted⟩ := collect_spec cs
  have hfst : ((collect cs).map Prod.fst).Perm candidates := by
    have h := hcollect.map Prod.fst
    rw [List.map_map] at h
    exact (h.trans (List.Perm.of_eq (List.map_id cs))).trans hperm
  have hsnd : ∀ y ∈ collect cs, y.2 = y.1.metric := by
    intro y hy
    obtain ⟨c, -, rfl⟩ := List.mem_map.mp (hcollect.mem_iff.mp hy)
    rfl
  have hall : ((collect cs).map Prod.fst).Pairwise fun c c' => c'.metric ≤ c.metric := by
    rw [List.pairwise_map]
    refine hsorted.imp_of_mem fun hy hz h => ?_
    rwa [← hsnd _ hy, ← hsnd _ hz]
  have htake : ((collect cs).take limit).map Prod.fst = ((collect cs).map Prod.fst).take limit :=
    List.map_take
  have hsplit := List.take_append_drop limit ((collect cs).map Prod.fst)
  rw [htake]
  refine ⟨?_, fun c hc => hfst.mem_iff.mp (List.mem_of_mem_take hc), ?_,
    hall.sublist (List.take_sublist _ _), fun c hc c' hc' hout => ?_⟩
  · exact ((hfst.map _).nodup_iff.mpr hkeys).sublist ((List.take_sublist _ _).map _)
  · rw [List.length_take, hfst.length_eq]
  · have hmem := hfst.mem_iff.mpr hc'
    rw [← hsplit] at hmem hall
    exact (List.pairwise_append.mp hall).2.2 c hc c' ((List.mem_append.mp hmem).resolve_left hout)

/-- The event has the best ones. It is there where there are candidates. -/
theorem best_spec {candidates cs : List Candidate}
    (hkeys : (candidates.map Candidate.key).Nodup) (hperm : cs.Perm candidates) (limit : ℕ) :
    ∃ chosen, IsBest limit candidates chosen ∧
      best limit (cs.foldl (fun l c => sortedNodeListInsert c.node c.metric l) []) =
        if candidates = [] then none else some (chosen.map Candidate.node) := by
  refine ⟨_, isBest_take hkeys hperm limit, ?_⟩
  have hlen : (collect cs).length = candidates.length := by
    rw [(collect_spec cs).1.length_eq, List.length_map, hperm.length_eq]
  rw [collect_map, best]
  by_cases hnone : candidates = []
  · have hnil : collect cs = [] := List.length_eq_zero_iff.mp (by rw [hlen, hnone]; rfl)
    rw [hnil, if_pos hnone]
    rfl
  · have hne : collect cs ≠ [] := by
      rintro h
      rw [h] at hlen
      exact hnone (List.length_eq_zero_iff.mp hlen.symm)
    rw [if_neg (by simpa using hne), if_neg hnone, List.map_map, ← List.map_take, List.map_map]
    rfl

/-- What the event is made of is what is to be chosen, unless nothing may be. -/
theorem selects_iff {candidates cs : List Candidate}
    (hkeys : (candidates.map Candidate.key).Nodup) (hperm : cs.Perm candidates) (limit : ℕ) :
    Selects limit candidates
        (best limit (cs.foldl (fun l c => sortedNodeListInsert c.node c.metric l) [])) ↔
      (limit = 0 → candidates = []) := by
  obtain ⟨chosen, hchosen, hevent⟩ := best_spec hkeys hperm limit
  rw [hevent]
  constructor
  · rintro ⟨chosen', hchosen', heq⟩ rfl
    have hnil : chosen' = [] := List.length_eq_zero_iff.mp (hchosen'.count.trans (Nat.zero_min _))
    rw [if_pos hnil] at heq
    by_contra hnone
    rw [if_neg hnone] at heq
    exact absurd heq (Option.some_ne_none _)
  · intro hlimit
    have hiff : chosen = [] ↔ candidates = [] := by
      rw [← List.length_eq_zero_iff, hchosen.count, ← List.length_eq_zero_iff]
      have hzero : limit = 0 → candidates.length = 0 :=
        fun h => List.length_eq_zero_iff.mpr (hlimit h)
      omega
    exact ⟨chosen, hchosen, if_congr hiff.symm rfl rfl⟩

end Order

section Candidates

variable (pr : Parameters) (prefers : ℚ → ℚ → Bool)

/-- No key is twice in a table. -/
structure State.Keyed (s : State) : Prop where
  tables : (s.neighbor_ribs.map Prod.fst).Nodup
  entries : ∀ e ∈ s.neighbor_ribs, (e.2.map Prod.fst).Nodup

/-- A node that the neighbor `b` is a good delegate for. -/
def targetOf (blank : Node) (clock : ℕ → Timeval) (b : ℕ) (s : State) (e : ℕ × Metric) :
    Option Candidate :=
  if e.1 = this_node_id ∨ e.1 = b then none
  else if prefers (ageMetric pr (clock e.1) (s.rib.metric e.1)).p e.2.p then
    (Node.createWithId blank (s.nodeid e.1)).map (⟨e.1, e.2.p, ·⟩)
  else none

def targets (blank : Node) (clock : ℕ → Timeval) (s : State) (neighbor : Bytes) :
    List Candidate :=
  let (b, s) := idForString s neighbor
  ((AssocList.get s.neighbor_ribs b).getD []).filterMap (targetOf pr prefers blank clock b s)

/-- A neighbor that is a good delegate for the target `d`. -/
def delegateOf (retrieve : Bytes → Option Node) (other_targets : List Node) (d : ℕ) (P_ad : ℚ)
    (s : State) (e : ℕ × Rib) : Option Candidate :=
  if e.1 = this_node_id ∨ e.1 = d then none
  else
    (retrieve (s.nodeid e.1)).bind fun delegate =>
      if other_targets.any (fun n => n.same delegate) = false ∧
          prefers P_ad (Rib.metric e.2 d).p = true then
        some ⟨e.1, (Rib.metric e.2 d).p, delegate⟩
      else none

def delegates (retrieve : Bytes → Option Node) (other_targets : List Node) (now : Timeval)
    (s : State) (target : Bytes) : List Candidate :=
  let (d, s) := idForString s target
  s.neighbor_ribs.filterMap (delegateOf prefers retrieve other_targets d
    (ageMetric pr now (s.rib.metric d)).p s)

variable {s : State}

theorem nodup_keys_filterMap {V : Type} {f : ℕ × V → Option Candidate}
    (hf : ∀ e c, f e = some c → c.key = e.1) {l : List (ℕ × V)} (hl : (l.map Prod.fst).Nodup) :
    ((l.filterMap f).map Candidate.key).Nodup := by
  induction l with
  | nil => exact List.nodup_nil
  | cons e l ih =>
    obtain ⟨he, hrest⟩ := List.nodup_cons.mp hl
    cases hfe : f e with
    | none =>
      rw [List.filterMap_cons_none hfe]
      exact ih hrest
    | some c =>
      rw [List.filterMap_cons_some hfe, List.map_cons, List.nodup_cons]
      refine ⟨fun hc => he ?_, ih hrest⟩
      obtain ⟨c', hc', hkey⟩ := List.mem_map.mp hc
      obtain ⟨e', he', hfe'⟩ := List.mem_filterMap.mp hc'
      rw [← hf e c hfe, ← hkey, hf e' c' hfe']
      exact List.mem_map_of_mem he'

theorem key_targetOf {blank : Node} {clock : ℕ → Timeval} {b : ℕ} (e : ℕ × Metric) (c : Candidate)
    (h : targetOf pr prefers blank clock b s e = some c) : c.key = e.1 := by
  unfold targetOf at h
  split_ifs at h
  obtain ⟨n, -, rfl⟩ := Option.map_eq_some_iff.mp h
  rfl

theorem key_delegateOf {retrieve : Bytes → Option Node} {other_targets : List Node} {d : ℕ}
    {P_ad : ℚ} (e : ℕ × Rib) (c : Candidate)
    (h : delegateOf prefers retrieve other_targets d P_ad s e = some c) : c.key = e.1 := by
  unfold delegateOf at h
  split_ifs at h
  obtain ⟨n, -, hn⟩ := Option.bind_eq_some_iff.mp h
  split_ifs at hn
  obtain rfl := Option.some.inj hn
  rfl

theorem inOrder_perm {V : Type} (m : List (ℕ × V)) : (inOrder m).Perm m :=
  List.mergeSort_perm m _

theorem metric_modifyRib_of_ne {k j : ℕ} (h : k ≠ j) (f : Metric → Metric) :
    (s.modifyRib k f).rib.metric j = s.rib.metric j := by
  unfold Rib.metric State.modifyRib
  rw [get_modifyAt_of_ne h]

theorem metric_modifyRib_self (k : ℕ) (f : Metric → Metric) :
    (s.modifyRib k f).rib.metric k = f (s.rib.metric k) := by
  unfold Rib.metric State.modifyRib
  rw [get_modifyAt_self]
  rfl

theorem nodeid_modifyRib (s : State) (k : ℕ) (f : Metric → Metric) (j : ℕ) :
    (s.modifyRib k f).nodeid j = s.nodeid j := rfl

/-- The loop over the table of a neighbor puts in the candidates in their order. -/
theorem targetSteps_eq (blank : Node) (clock : ℕ → Timeval) (b : ℕ) {entries : List (ℕ × Metric)}
    (hnodup : (entries.map Prod.fst).Nodup) (s : State) (l : List (Node × ℚ)) :
    (entries.foldl (targetStep pr prefers blank clock b) (s, l)).2 =
      (entries.filterMap (targetOf pr prefers blank clock b s)).foldl
        (fun l c => sortedNodeListInsert c.node c.metric l) l := by
  induction entries generalizing s l with
  | nil => rfl
  | cons e entries ih =>
    obtain ⟨he, hrest⟩ := List.nodup_cons.mp hnodup
    -- What was aged for this entry is not looked at for a later one.
    have hlater : ∀ s', (∀ j, j ≠ e.1 → s'.rib.metric j = s.rib.metric j) →
        s'.id_number_to_nodeid = s.id_number_to_nodeid →
        entries.filterMap (targetOf pr prefers blank clock b s') =
          entries.filterMap (targetOf pr prefers blank clock b s) := by
      intro s' hmetric hids
      refine List.filterMap_congr fun e' he' => ?_
      have hne : e'.1 ≠ e.1 := fun h => he (h ▸ List.mem_map_of_mem he')
      have hname : s'.nodeid e'.1 = s.nodeid e'.1 := by
        unfold State.nodeid
        rw [hids]
      unfold targetOf
      rw [hmetric _ hne, hname]
    have haged : ∀ j, j ≠ e.1 →
        (s.modifyRib e.1 (ageMetric pr (clock e.1))).rib.metric j = s.rib.metric j :=
      fun j hj => metric_modifyRib_of_ne hj.symm _
    have hself := metric_modifyRib_self (s := s) e.1 (ageMetric pr (clock e.1))
    rw [List.foldl_cons]
    by_cases hskip : e.1 = this_node_id ∨ e.1 = b
    · have hnone : targetOf pr prefers blank clock b s e = none := if_pos hskip
      have hstep : targetStep pr prefers blank clock b (s, l) e = (s, l) := if_pos hskip
      rw [hstep, ih hrest, List.filterMap_cons_none hnone]
    · by_cases hprefers : prefers (ageMetric pr (clock e.1) (s.rib.metric e.1)).p e.2.p = true
      · cases hnode : Node.createWithId blank (s.nodeid e.1) with
        | none =>
          have hnone : targetOf pr prefers blank clock b s e = none := by
            rw [targetOf, if_neg hskip, if_pos hprefers, hnode]
            rfl
          have hstep : targetStep pr prefers blank clock b (s, l) e =
              (s.modifyRib e.1 (ageMetric pr (clock e.1)), l) := by
            rw [targetStep, if_neg hskip]
            simp only
            rw [hself, if_pos hprefers, nodeid_modifyRib, hnode]
          rw [hstep, ih hrest, hlater _ haged rfl, List.filterMap_cons_none hnone]
        | some target =>
          have hsome : targetOf pr prefers blank clock b s e = some ⟨e.1, e.2.p, target⟩ := by
            rw [targetOf, if_neg hskip, if_pos hprefers, hnode]
            rfl
          have hstep : targetStep pr prefers blank clock b (s, l) e =
              (s.modifyRib e.1 (ageMetric pr (clock e.1)),
                sortedNodeListInsert target e.2.p l) := by
            rw [targetStep, if_neg hskip]
            simp only
            rw [hself, if_pos hprefers, nodeid_modifyRib, hnode]
          rw [hstep, ih hrest, hlater _ haged rfl, List.filterMap_cons_some hsome, List.foldl_cons]
      · have hnone : targetOf pr prefers blank clock b s e = none := by
          rw [targetOf, if_neg hskip, if_neg hprefers]
        have hstep : targetStep pr prefers blank clock b (s, l) e =
            (s.modifyRib e.1 (ageMetric pr (clock e.1)), l) := by
          rw [targetStep, if_neg hskip]
          simp only
          rw [hself, if_neg hprefers]
        rw [hstep, ih hrest, hlater _ haged rfl, List.filterMap_cons_none hnone]

/-- The loop over the tables puts in the candidates in their order. -/
theorem delegateSteps_eq (retrieve : Bytes → Option Node) (other_targets : List Node) (d : ℕ)
    (P_ad : ℚ) (entries : List (ℕ × Rib)) (s : State) (l : List (Node × ℚ)) :
    (entries.foldl (delegateStep prefers retrieve other_targets d P_ad) (s, l)).2 =
      (entries.filterMap (delegateOf prefers retrieve other_targets d P_ad s)).foldl
        (fun l c => sortedNodeListInsert c.node c.metric l) l := by
  induction entries generalizing s l with
  | nil => rfl
  | cons e entries ih =>
    rw [List.foldl_cons]
    by_cases hskip : e.1 = this_node_id ∨ e.1 = d
    · have hnone : delegateOf prefers retrieve other_targets d P_ad s e = none := if_pos hskip
      rw [delegateStep, if_pos hskip, ih, List.filterMap_cons_none hnone]
    cases hnode : retrieve (s.nodeid e.1) with
    | none =>
      have hnone : delegateOf prefers retrieve other_targets d P_ad s e = none := by
        rw [delegateOf, if_neg hskip, hnode]
        rfl
      rw [delegateStep, if_neg hskip]
      simp only [hnode]
      rw [ih, List.filterMap_cons_none hnone]
    | some delegate =>
      by_cases hother : other_targets.any (fun n => n.same delegate) = true
      · have hnone : delegateOf prefers retrieve other_targets d P_ad s e = none := by
          rw [delegateOf, if_neg hskip, hnode, Option.bind_some, hother]
          rfl
        rw [delegateStep, if_neg hskip]
        simp only [hnode]
        rw [if_pos hother, ih, List.filterMap_cons_none hnone]
      have hother' := Bool.eq_false_iff.mpr hother
      -- The table of the neighbor is extended, but no table is read again.
      have hlater : entries.filterMap (delegateOf prefers retrieve other_targets d P_ad
            (s.modifyNeighborRib e.1 (modifyAt .new d id))) =
          entries.filterMap (delegateOf prefers retrieve other_targets d P_ad s) := rfl
      rw [delegateStep, if_neg hskip]
      simp only [hnode]
      rw [if_neg hother, ih, hlater]
      by_cases hprefers : prefers P_ad (Rib.metric e.2 d).p = true
      · have hsome : delegateOf prefers retrieve other_targets d P_ad s e =
            some ⟨e.1, (Rib.metric e.2 d).p, delegate⟩ := by
          rw [delegateOf, if_neg hskip, hnode, Option.bind_some, if_pos ⟨hother', hprefers⟩]
        rw [List.filterMap_cons_some hsome, List.foldl_cons, if_pos hprefers]
      · have hnone : delegateOf prefers retrieve other_targets d P_ad s e = none := by
          rw [delegateOf, if_neg hskip, hnode, Option.bind_some,
            if_neg (fun h => hprefers h.2)]
        rw [List.filterMap_cons_none hnone, if_neg hprefers]

theorem idForString_neighbor_ribs (s : State) (nodeid : Bytes) :
    (idForString s nodeid).2.neighbor_ribs = s.neighbor_ribs := by
  unfold idForString
  simp only
  split_ifs <;> rfl

theorem State.Keyed.neighborRib (hs : s.Keyed) (b : ℕ) :
    (((AssocList.get s.neighbor_ribs b).getD []).map Prod.fst).Nodup := by
  cases hget : AssocList.get s.neighbor_ribs b with
  | none => exact List.nodup_nil
  | some r => exact hs.entries (b, r) (AssocList.mem_of_get hget)

/-- The event of targets is the best of what is sorted in. -/
theorem generateTargetsFor_eq (hs : s.Keyed) (blank : Node) (limit : ℕ) (clock : ℕ → Timeval)
    (neighbor : Bytes) :
    ∃ cs : List Candidate, cs.Perm (targets pr prefers blank clock s neighbor) ∧
      (generateTargetsFor pr prefers blank limit clock s neighbor).2 =
        best limit (cs.foldl (fun l c => sortedNodeListInsert c.node c.metric l) []) := by
  have hribs := idForString_neighbor_ribs s neighbor
  have htable := hs.neighborRib (idForString s neighbor).1
  rw [← hribs] at htable
  refine ⟨_, (inOrder_perm _).filterMap _, ?_⟩
  unfold generateTargetsFor
  simp only
  have hget : (AssocList.get ((idForString s neighbor).2.modifyNeighborRib
        (idForString s neighbor).1 id).neighbor_ribs (idForString s neighbor).1).getD [] =
      (AssocList.get (idForString s neighbor).2.neighbor_ribs
        (idForString s neighbor).1).getD [] := by
    unfold State.modifyNeighborRib
    rw [get_modifyAt_self]
    rfl
  have hnodup := ((inOrder_perm _).map Prod.fst).nodup_iff.mpr htable
  rw [hget, targetSteps_eq pr prefers blank clock (idForString s neighbor).1 hnodup]
  rfl

/-- So is the event of delegates. -/
theorem generateDelegatesFor_eq (s : State) (retrieve : Bytes → Option Node)
    (other_targets : List Node) (limit : ℕ) (now : Timeval) (target : Bytes) :
    ∃ cs : List Candidate, cs.Perm (delegates pr prefers retrieve other_targets now s target) ∧
      (generateDelegatesFor pr prefers retrieve other_targets limit now s target).2 =
        best limit (cs.foldl (fun l c => sortedNodeListInsert c.node c.metric l) []) := by
  refine ⟨_, (inOrder_perm _).filterMap _, ?_⟩
  unfold generateDelegatesFor
  simp only
  rw [delegateSteps_eq, metric_modifyRib_self]
  rfl

theorem nodup_targets (hs : s.Keyed) (blank : Node) (clock : ℕ → Timeval) (neighbor : Bytes) :
    ((targets pr prefers blank clock s neighbor).map Candidate.key).Nodup := by
  have htable := hs.neighborRib (idForString s neighbor).1
  rw [← idForString_neighbor_ribs s neighbor] at htable
  exact nodup_keys_filterMap (key_targetOf pr prefers) htable

theorem nodup_delegates (hs : s.Keyed) (retrieve : Bytes → Option Node)
    (other_targets : List Node) (now : Timeval) (target : Bytes) :
    ((delegates pr prefers retrieve other_targets now s target).map Candidate.key).Nodup := by
  have htables := hs.tables
  rw [← idForString_neighbor_ribs s target] at htables
  exact nodup_keys_filterMap (key_delegateOf prefers) htables

/-- Targets and delegates are chosen as they should be, unless there may be none and there is a
candidate. -/
theorem selection_iff (hs : s.Keyed) (limit : ℕ) :
    (∀ blank clock neighbor,
      Selects limit (targets pr prefers blank clock s neighbor)
          (generateTargetsFor pr prefers blank limit clock s neighbor).2 ↔
        (limit = 0 → targets pr prefers blank clock s neighbor = [])) ∧
      ∀ retrieve other_targets now target,
        Selects limit (delegates pr prefers retrieve other_targets now s target)
            (generateDelegatesFor pr prefers retrieve other_targets limit now s target).2 ↔
          (limit = 0 → delegates pr prefers retrieve other_targets now s target = []) := by
  constructor
  · intro blank clock neighbor
    obtain ⟨cs, hperm, heq⟩ := generateTargetsFor_eq pr prefers hs blank limit clock neighbor
    rw [heq]
    exact selects_iff (nodup_targets pr prefers hs blank clock neighbor) hperm limit
  · intro retrieve other_targets now target
    obtain ⟨cs, hperm, heq⟩ :=
      generateDelegatesFor_eq pr prefers s retrieve other_targets limit now target
    rw [heq]
    exact selects_iff (nodup_delegates pr prefers hs retrieve other_targets now target) hperm limit

end Candidates

end Prophet

namespace Sample

open Prophet

/-- The text of an identifier of zeros. -/
def zeroId : Bytes := List.replicate 40 48

/-- A module that has the metric of its neighbor for one other node. -/
def informed : Prophet.State where
  nodeid_to_id_number := [(lit "a", 1), (lit "b", 2), (zeroId, 3)]
  id_number_to_nodeid := [(1, lit "a"), (2, lit "b"), (3, zeroId)]
  next_id_number := 4
  rib := []
  neighbor_ribs := [(2, [(3, ⟨1 / 2, ⟨0, 0⟩⟩)])]

theorem keyed_informed : informed.Keyed where
  tables := List.nodup_singleton 2
  entries := by
    intro e he
    rw [List.mem_singleton.mp he]
    exact List.nodup_singleton 3

/-- The strategy that asks for a greater metric. -/
def GRTR (P_ad P_bd : ℚ) : Bool := P_ad < P_bd

theorem targets_informed : (targets defaults GRTR lostNode (fun _ => ⟨1000, 0⟩) informed
    (lit "b")).length = 1 := by
  decide +kernel

theorem selection_informed : informed.Keyed ∧
    ((∀ blank clock neighbor,
      Selects 1 (targets defaults GRTR blank clock informed neighbor)
          (generateTargetsFor defaults GRTR blank 1 clock informed neighbor).2 ↔
        (1 = 0 → targets defaults GRTR blank clock informed neighbor = [])) ∧
      ∀ retrieve other_targets now target,
        Selects 1 (delegates defaults GRTR retrieve other_targets now informed target)
            (generateDelegatesFor defaults GRTR retrieve other_targets 1 now informed target).2 ↔
          (1 = 0 → delegates defaults GRTR retrieve other_targets now informed target = [])) :=
  ⟨keyed_informed, selection_iff defaults GRTR keyed_informed 1⟩

/-- Where no targets are asked for, they are announced all the same. -/
theorem not_selects_informed : ¬ Selects 0
    (targets defaults GRTR lostNode (fun _ => ⟨1000, 0⟩) informed (lit "b"))
    (generateTargetsFor defaults GRTR lostNode 0 (fun _ => ⟨1000, 0⟩) informed (lit "b")).2 := by
  obtain ⟨cs, hperm, heq⟩ := generateTargetsFor_eq defaults GRTR keyed_informed lostNode 0
    (fun _ => ⟨1000, 0⟩) (lit "b")
  rw [heq, selects_iff (nodup_targets defaults GRTR keyed_informed _ _ _) hperm]
  intro h
  have hlen := targets_informed
  rw [h rfl] at hlen
  exact absurd hlen (by decide)

end Sample
end Haggle
