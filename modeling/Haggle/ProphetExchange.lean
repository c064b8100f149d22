import Haggle.ProphetTables

/-!
# An exchange of routing information

A device sends the metrics of its table that are not zero, and the receiver puts them into the table
that it keeps for the sender. What the sender no longer has stays there.
-/

namespace Haggle
namespace Prophet

/-- The metric of this device for a node, and the one that it has from node `b`. -/
def State.metricFor (s : State) (n : Bytes) : ℚ := (s.number n).elim 0 fun k => (s.rib.metric k).p

def State.neighborRib (s : State) (b : Bytes) : Rib :=
  (s.number b).elim [] fun k => (AssocList.get s.neighbor_ribs k).getD []

def State.neighborMetricFor (s : State) (b n : Bytes) : ℚ :=
  (s.number n).elim 0 fun k => ((s.neighborRib b).metric k).p

/-- The routing information of a device: `createRoutingInformationDataObject` makes the element that
the module adds its metrics to. -/
def routingInformation (pr : Parameters) (clock : ℕ → Timeval) (thisNode : Bytes) (s : State) :
    Option (State × Metadata) :=
  addRoutingInformation pr clock thisNode s
    ((Metadata.new name []).setParameter (lit "node_id") thisNode)

/-- The table for a node has its metrics, with the decimals that are printed. -/
def Agrees (b : Bytes) (sender receiver : State) : Prop :=
  ∀ n, receiver.neighborMetricFor b n = (DoubleText.sixDecimals (sender.metricFor n) : ℚ) / 1000000

section Receiver

variable {s : State}

theorem State.Wf.not_named_next (h : s.Wf) : ¬ s.Named s.next_id_number := by
  rintro ⟨n, hn⟩
  exact lt_irrefl _ (h.bound n _ hn).2

theorem metric_of_not_named {r : Rib} (hr : ∀ e ∈ r, s.Named e.1) {k : ℕ} (hk : ¬ s.Named k) :
    r.metric k = .new := by
  unfold Rib.metric
  cases hget : AssocList.get r k with
  | none => rfl
  | some m => exact absurd (hr _ (AssocList.mem_of_get hget)) hk

theorem State.Wf.neighborRib_named (h : s.Wf) (b : Bytes) : ∀ e ∈ s.neighborRib b, s.Named e.1 := by
  unfold State.neighborRib
  cases s.number b with
  | none => exact nofun
  | some k => exact fun e he => h.named_of_mem_neighborRib he

theorem State.Wf.neighborMetricFor_idForString (h : s.Wf) (x b n : Bytes) :
    (idForString s x).2.neighborMetricFor b n = s.neighborMetricFor b n := by
  obtain ⟨hnumbers, -⟩ := h.numbers x
  have hrib : (idForString s x).2.neighborRib b = s.neighborRib b := by
    unfold State.neighborRib
    rw [hnumbers.neighbor_ribs]
    by_cases hb : b = x
    · subst hb
      cases hold : s.number b with
      | some j => rw [hnumbers.keeps hold]
      | none =>
        rw [hnumbers.self, hnumbers.new hold]
        cases hget : AssocList.get s.neighbor_ribs s.next_id_number with
        | none => simp [hget]
        | some r =>
          exact absurd (h.neighbor_named _ (AssocList.mem_of_get hget)).1 h.not_named_next
    · rw [hnumbers.others b hb]
  unfold State.neighborMetricFor
  rw [hrib]
  by_cases hn : n = x
  · subst hn
    cases hold : s.number n with
    | some j => rw [hnumbers.keeps hold]
    | none =>
      rw [hnumbers.self, hnumbers.new hold, Option.elim_some, Option.elim_none,
        metric_of_not_named (h.neighborRib_named b) h.not_named_next]
      rfl
  · rw [hnumbers.others n hn]

/-- A change to one entry of the table of a neighbor. -/
theorem State.Wf.neighborMetricFor_modify (h : s.Wf) {b x : Bytes} {kb c : ℕ}
    (hb : s.number b = some kb) (hx : s.number x = some c) (f : Metric → Metric) (n : Bytes) :
    (s.modifyNeighborRib kb (modifyAt .new c f)).neighborMetricFor b n =
      if n = x then (f ((s.neighborRib b).metric c)).p else s.neighborMetricFor b n := by
  have hold : s.neighborRib b = (AssocList.get s.neighbor_ribs kb).getD [] := by
    unfold State.neighborRib
    rw [hb]
    rfl
  have hrib : (s.modifyNeighborRib kb (modifyAt .new c f)).neighborRib b =
      modifyAt .new c f (s.neighborRib b) := by
    rw [hold]
    unfold State.neighborRib
    rw [show (s.modifyNeighborRib kb (modifyAt .new c f)).number b = some kb from hb,
      Option.elim_some]
    change (AssocList.get (modifyAt [] kb (modifyAt .new c f) s.neighbor_ribs) kb).getD [] = _
    rw [get_modifyAt_self]
    rfl
  unfold State.neighborMetricFor
  rw [hrib]
  change (s.number n).elim 0 (fun k => (Rib.metric (modifyAt .new c f (s.neighborRib b)) k).p) = _
  by_cases hn : n = x
  · subst hn
    rw [if_pos rfl, hx, Option.elim_some, Rib.metric, get_modifyAt_self]
    rfl
  · rw [if_neg hn]
    cases hnum : s.number n with
    | none => rfl
    | some j =>
      have hj : c ≠ j := by
        rintro rfl
        exact hn (h.injective hnum hx)
      rw [Option.elim_some, Option.elim_some, Rib.metric, get_modifyAt_of_ne hj]
      rfl

variable (pr : Parameters)

@[simp] theorem number_modifyRib (k : ℕ) (f : Metric → Metric) (n : Bytes) :
    (s.modifyRib k f).number n = s.number n := rfl

@[simp] theorem neighborMetricFor_modifyRib (k : ℕ) (f : Metric → Metric) (b n : Bytes) :
    (s.modifyRib k f).neighborMetricFor b n = s.neighborMetricFor b n := rfl

theorem State.Wf.neighborMetricFor_receiveMetric (h : s.Wf) {b : Bytes} {kb : ℕ}
    (hb : s.number b = some kb) (times : Timeval × Timeval) (mm : Metadata) :
    (Prophet.receiveMetric pr kb times s mm).number b = some kb ∧
      ∀ n, (Prophet.receiveMetric pr kb times s mm).neighborMetricFor b n =
        if n = nodeIdOf mm then (DoubleText.scan mm.content).getD (s.neighborMetricFor b n)
        else s.neighborMetricFor b n := by
  obtain ⟨hnumbers, hwf⟩ := h.numbers (nodeIdOf mm)
  have hb' := hnumbers.keeps hb
  have htable : ∀ n, ((idForString s (nodeIdOf mm)).2.modifyNeighborRib kb
      (modifyAt .new (idForString s (nodeIdOf mm)).1 fun m =>
        { m with p := (DoubleText.scan mm.content).getD m.p })).neighborMetricFor b n =
        if n = nodeIdOf mm then (DoubleText.scan mm.content).getD (s.neighborMetricFor b n)
        else s.neighborMetricFor b n := by
    intro n
    rw [hwf.neighborMetricFor_modify hb' hnumbers.self, h.neighborMetricFor_idForString]
    by_cases hn : n = nodeIdOf mm
    · have hread : s.neighborMetricFor b n =
          (((idForString s (nodeIdOf mm)).2.neighborRib b).metric
            (idForString s (nodeIdOf mm)).1).p := by
        rw [← h.neighborMetricFor_idForString (nodeIdOf mm), hn]
        unfold State.neighborMetricFor
        rw [hnumbers.self]
        rfl
      rw [if_pos hn, if_pos hn, hread]
    · rw [if_neg hn, if_neg hn]
  unfold Prophet.receiveMetric
  simp only
  -- What follows changes the metrics of this device only.
  split_ifs
  · exact ⟨hb', htable⟩
  · simp only [number_modifyRib, neighborMetricFor_modifyRib]
    exact ⟨hb', htable⟩

theorem State.Wf.neighborMetricFor_receiveMetrics (h : s.Wf) {b : Bytes} {kb : ℕ}
    (hb : s.number b = some kb) (clock : ℕ → Timeval × Timeval) (mms : List Metadata) (n : Bytes) :
    (Prophet.receiveMetrics pr kb clock s mms).neighborMetricFor b n =
      mms.foldl (fun v mm => if n = nodeIdOf mm then (DoubleText.scan mm.content).getD v else v)
        (s.neighborMetricFor b n) := by
  induction mms generalizing s clock with
  | nil => rfl
  | cons mm mms ih =>
    obtain ⟨hb', hmetric⟩ := h.neighborMetricFor_receiveMetric pr hb (clock 0) mm
    have hwf := (h.receiveMetric pr ⟨b, hb⟩ (clock 0) mm).1
    rw [List.foldl_cons, ← hmetric n]
    exact ih hwf hb' _

theorem State.Wf.neighborMetricFor_newRoutingInformation (h : s.Wf) (clock : ℕ → Timeval × Timeval)
    {m : Metadata} (hm : m.name = name) (n : Bytes) :
    (newRoutingInformation pr clock s m).neighborMetricFor (nodeIdOf m) n =
      (m.getAll (lit "Metric")).foldl
        (fun v mm => if n = nodeIdOf mm then (DoubleText.scan mm.content).getD v else v)
        (s.neighborMetricFor (nodeIdOf m) n) := by
  obtain ⟨hnumbers, hwf⟩ := h.numbers (nodeIdOf m)
  have hmade : ((idForString s (nodeIdOf m)).2.modifyNeighborRib (idForString s (nodeIdOf m)).1
      id).Wf := hwf.modifyNeighborRib ⟨_, hnumbers.self⟩ fun r hr => hr
  have hsame : ((idForString s (nodeIdOf m)).2.modifyNeighborRib (idForString s (nodeIdOf m)).1
      id).neighborMetricFor (nodeIdOf m) n = s.neighborMetricFor (nodeIdOf m) n := by
    rw [← h.neighborMetricFor_idForString (nodeIdOf m) (nodeIdOf m) n]
    unfold State.neighborMetricFor State.neighborRib
    change ((idForString s (nodeIdOf m)).2.number n).elim 0 (fun k => (Rib.metric
      (((idForString s (nodeIdOf m)).2.number (nodeIdOf m)).elim [] fun j =>
        (AssocList.get (modifyAt [] (idForString s (nodeIdOf m)).1 id
          (idForString s (nodeIdOf m)).2.neighbor_ribs) j).getD []) k).p) = _
    rw [hnumbers.self, Option.elim_some, Option.elim_some, get_modifyAt_self]
    rfl
  unfold newRoutingInformation
  rw [if_neg (not_not.mpr hm)]
  simp only
  rw [hmade.neighborMetricFor_receiveMetrics pr hnumbers.self, hsame]

end Receiver

section Sender

variable {s : State} (pr : Parameters) (clock : ℕ → Timeval)

/-- The entries that are sent. -/
def State.sent (s : State) : List (ℕ × Metric) :=
  ((inOrder s.rib).filter fun e => e.2.p ≠ 0).map (advertise pr clock)

theorem advertise_fst (e : ℕ × Metric) : (advertise pr clock e).1 = e.1 := by
  unfold advertise
  split_ifs <;> rfl

theorem State.Wf.metricFor_advertise (h : s.Wf) {n : Bytes} {k : ℕ} (hn : s.number n = some k) :
    State.metricFor { s with rib := s.rib.map (advertise pr clock) } n =
      (advertise pr clock (k, s.rib.metric k)).2.p := by
  have hnodup := h.rib_nodup
  rw [← map_fst_advertise pr clock] at hnodup
  change (s.number n).elim 0 (fun k => (Rib.metric (s.rib.map (advertise pr clock)) k).p) = _
  rw [hn, Option.elim_some]
  unfold Rib.metric
  cases hget : AssocList.get s.rib k with
  | none =>
    have hkey : k ∉ (s.rib.map (advertise pr clock)).map Prod.fst := by
      rw [map_fst_advertise]
      exact AssocList.get_eq_none_iff.mp hget
    rw [AssocList.get_eq_none_iff.mpr hkey]
    rfl
  | some m =>
    have hread := AssocList.get_of_mem hnodup
      (List.mem_map_of_mem (f := advertise pr clock) (AssocList.mem_of_get hget))
    rw [advertise_fst] at hread
    rw [hread]
    rfl

/-- Just the nodes with a metric are in the list, with the metric that they have afterwards. -/
theorem State.Wf.mem_sent (h : s.Wf) (n : Bytes) :
    ((∃ e ∈ s.sent pr clock, n = s.nodeid e.1) ↔ s.metricFor n ≠ 0) ∧
      ∀ e ∈ s.sent pr clock, n = s.nodeid e.1 →
        e.2.p = State.metricFor { s with rib := s.rib.map (advertise pr clock) } n := by
  have hentry : ∀ e ∈ s.sent pr clock, n = s.nodeid e.1 → ∃ k, s.number n = some k ∧
      (s.rib.metric k).p ≠ 0 ∧ e = advertise pr clock (k, s.rib.metric k) := by
    intro e he hn
    obtain ⟨e', he', rfl⟩ := List.mem_map.mp he
    obtain ⟨hmem, hp⟩ := List.mem_filter.mp he'
    have hrib : e' ∈ s.rib := List.mem_mergeSort.mp hmem
    obtain ⟨x, hx⟩ := h.rib_named e' hrib
    have hmetric : s.rib.metric e'.1 = e'.2 := by
      rw [Rib.metric, AssocList.get_of_mem h.rib_nodup hrib]
      rfl
    rw [advertise_fst, h.nodeid_eq hx] at hn
    refine ⟨e'.1, hn ▸ hx, ?_, ?_⟩
    · rw [hmetric]
      exact of_decide_eq_true hp
    · rw [hmetric]
  refine ⟨⟨?_, fun hp => ?_⟩, ?_⟩
  · rintro ⟨e, he, hn⟩
    obtain ⟨k, hk, hp, -⟩ := hentry e he hn
    unfold State.metricFor
    rw [hk]
    exact hp
  · cases hk : s.number n with
    | none =>
      unfold State.metricFor at hp
      rw [hk] at hp
      exact absurd rfl hp
    | some k =>
      unfold State.metricFor at hp
      rw [hk, Option.elim_some] at hp
      have hget : AssocList.get s.rib k = some (s.rib.metric k) := by
        unfold Rib.metric at hp ⊢
        cases hget : AssocList.get s.rib k with
        | none =>
          rw [hget] at hp
          exact absurd rfl hp
        | some m => rfl
      refine ⟨advertise pr clock (k, s.rib.metric k), ?_, ?_⟩
      · refine List.mem_map_of_mem (List.mem_filter.mpr ⟨?_, decide_eq_true hp⟩)
        exact List.mem_mergeSort.mpr (AssocList.mem_of_get hget)
      · rw [advertise_fst, h.nodeid_eq hk]
  · intro e he hn
    obtain ⟨k, hk, -, rfl⟩ := hentry e he hn
    rw [h.metricFor_advertise pr clock hk]

/-- The element that is produced. -/
theorem routingInformation_spec {thisNode : Bytes} {s' : State} {m : Metadata}
    (h : routingInformation pr clock thisNode s = some (s', m)) :
    s' = { s with rib := s.rib.map (advertise pr clock) } ∧ m.name = name ∧
      nodeIdOf m = thisNode ∧ m.getAll (lit "Metric") =
        (s.sent pr clock).map fun e => metricElement e.2.p (s.nodeid e.1) := by
  unfold routingInformation addRoutingInformation at h
  simp only at h
  split_ifs at h
  obtain ⟨rfl, hfold⟩ := Prod.mk.inj (Option.some.inj h)
  have hmade : ((s.sent pr clock).map fun e => metricElement e.2.p (s.nodeid e.1)).foldl
      Metadata.addMetadata (((Metadata.new name []).setParameter (lit "node_id")
        thisNode).setParameter (lit "node_id") thisNode) = m := by
    rw [List.foldl_map]
    exact hfold
  have hparent : (((Metadata.new name []).setParameter (lit "node_id") thisNode).setParameter
      (lit "node_id") thisNode).Valid :=
    Metadata.valid_setParameter (Metadata.valid_setParameter (Metadata.valid_new _ _) _ _) _ _
  have helement : ∀ c ∈ (s.sent pr clock).map fun e => metricElement e.2.p (s.nodeid e.1),
      c.Valid ∧ c.name = lit "Metric" := by
    intro c hc
    obtain ⟨e, -, rfl⟩ := List.mem_map.mp hc
    exact ⟨Metadata.valid_setParameter (Metadata.valid_new _ _) _ _, rfl⟩
  obtain ⟨hname, hparams, hall⟩ :=
    Metadata.foldl_addMetadata _ hparent fun c hc => (helement c hc).1
  rw [hmade] at hname hparams hall
  refine ⟨rfl, hname, ?_, ?_⟩
  · unfold nodeIdOf Metadata.getParameter
    rw [hparams]
    exact congrArg (·.getD []) (Metadata.getParameter_setParameter_self _ _ thisNode)
  · have hnone : (((Metadata.new name []).setParameter (lit "node_id") thisNode).setParameter
        (lit "node_id") thisNode).getAll (lit "Metric") = [] :=
      Metadata.getAll_new name [] (lit "Metric")
    rw [hall, hnone, List.nil_append,
      List.filter_eq_self.mpr fun c hc => decide_eq_true (helement c hc).2]

end Sender

section Exchange

/-- Entries with the same value for a node, which are put in one after the other. -/
theorem foldl_put {α : Type} (p : α → Prop) [DecidablePred p] {g : α → ℚ} {w : ℚ} (l : List α)
    (hl : ∀ e ∈ l, p e → g e = w) (v : ℚ) :
    l.foldl (fun v e => if p e then g e else v) v = if ∃ e ∈ l, p e then w else v := by
  induction l generalizing v with
  | nil => simp
  | cons e l ih =>
    rw [List.forall_mem_cons] at hl
    rw [List.foldl_cons, ih hl.2]
    by_cases he : p e
    · rw [if_pos he, hl.1 he]
      simp [he]
    · simp [he]

/-- What is zero is not aged. -/
theorem State.Wf.metricFor_advertise_zero {B : State} (h : B.Wf) (pr : Parameters)
    (clock : ℕ → Timeval) {n : Bytes} (hn : B.metricFor n = 0) :
    State.metricFor { B with rib := B.rib.map (advertise pr clock) } n = 0 := by
  cases hk : B.number n with
  | none =>
    change (B.number n).elim 0 _ = _
    rw [hk]
    rfl
  | some k =>
    unfold State.metricFor at hn
    rw [hk, Option.elim_some] at hn
    rw [h.metricFor_advertise pr clock hk]
    unfold advertise
    rw [if_neg (not_not.mpr hn)]
    exact hn

/-- The table for the sender after an exchange: where the sender has no metric it stays. -/
theorem neighborMetricFor_exchange {A B B' : State} (hA : A.Wf) (hB : B.Wf) {prB : Parameters}
    {b : Bytes} {clock : ℕ → Timeval} {m : Metadata}
    (hm : routingInformation prB clock b B = some (B', m)) (prA : Parameters)
    (clockA : ℕ → Timeval × Timeval) (n : Bytes) :
    (newRoutingInformation prA clockA A m).neighborMetricFor b n =
      if B.metricFor n ≠ 0 then (DoubleText.sixDecimals (B'.metricFor n) : ℚ) / 1000000
      else A.neighborMetricFor b n := by
  obtain ⟨rfl, hname, rfl, hall⟩ := routingInformation_spec prB clock hm
  obtain ⟨hsent, hvalue⟩ := hB.mem_sent prB clock n
  rw [hA.neighborMetricFor_newRoutingInformation prA clockA hname, hall, List.foldl_map]
  have hscan : ∀ e : ℕ × Metric, DoubleText.scan (metricElement e.2.p (B.nodeid e.1)).content =
      some ((DoubleText.sixDecimals e.2.p : ℚ) / 1000000) := fun e => DoubleText.scan_print e.2.p
  have hid : ∀ e : ℕ × Metric, nodeIdOf (metricElement e.2.p (B.nodeid e.1)) = B.nodeid e.1 :=
    fun e => congrArg (·.getD []) (Metadata.getParameter_setParameter_self _ _ _)
  simp only [hscan, hid, Option.getD_some]
  rw [foldl_put (fun e : ℕ × Metric => n = B.nodeid e.1) (B.sent prB clock)
    (fun e he hn => by rw [hvalue e he hn]) (A.neighborMetricFor (nodeIdOf m) n)]
  exact if_congr hsent rfl rfl

/-- After an exchange the table for the sender has the metrics of the sender just if it had none for
the nodes that the sender has no metric for. -/
theorem agrees_iff {prA prB : Parameters} {a b : Bytes} {opsA opsB : List Op} {A B B' : State}
    {clock : ℕ → Timeval} {m : Metadata} (hA : history prA a opsA = some A)
    (hB : history prB b opsB = some B) (hm : routingInformation prB clock b B = some (B', m))
    (clockA : ℕ → Timeval × Timeval) :
    Agrees b B' (newRoutingInformation prA clockA A m) ↔
      ∀ n, B.metricFor n = 0 → A.neighborMetricFor b n = 0 := by
  have hwfA := wf_history prA hA
  have hwfB := wf_history prB hB
  have hreceived := neighborMetricFor_exchange hwfA hwfB hm prA clockA
  have hzero : ∀ n, B.metricFor n = 0 → B'.metricFor n = 0 := by
    intro n hn
    rw [(routingInformation_spec prB clock hm).1]
    exact hwfB.metricFor_advertise_zero prB clock hn
  constructor
  · intro hagrees n hn
    have hn' := hagrees n
    rw [hreceived, if_neg (not_not.mpr hn), hzero n hn, DoubleText.sixDecimals_zero] at hn'
    rw [hn', Int.cast_zero, zero_div]
  · intro hold n
    rw [hreceived]
    by_cases hn : B.metricFor n = 0
    · rw [if_neg (not_not.mpr hn), hzero n hn, hold n hn, DoubleText.sixDecimals_zero,
        Int.cast_zero, zero_div]
    · rw [if_pos hn]

end Exchange

end Prophet

namespace Sample

open Prophet

/-- A contact with node `c`, which ends. -/
def contactWithC : List Op :=
  [.newNeighbor .peer (lit "c"), .endNeighbor ⟨1000, 0⟩ .peer (lit "c")]

/-- The device tells about it, and asks itself much later who could deliver to `c`. -/
def contactForgotten : List Op :=
  contactWithC ++ [.addRoutingInformation (fun _ => ⟨1000, 0⟩) (Metadata.new Prophet.name []),
    .generateDelegatesFor (fun P_ad P_bd => P_ad < P_bd) (fun _ => none) [] 1 ⟨8161000, 0⟩
      (lit "c")]

/-- What a neighbor gets from a device with some history. -/
def heardAfter (ops : List Op) : List Op :=
  ((history defaults (lit "b") ops).bind
    (routingInformation defaults (fun _ => ⟨1000, 0⟩) (lit "b"))).toList.map fun r =>
      .newRoutingInformation (fun _ => (⟨1000, 0⟩, ⟨1000, 0⟩)) r.2

theorem agrees_contactWithC : ∃ A B B' m, history defaults (lit "a") [] = some A ∧
    history defaults (lit "b") contactWithC = some B ∧
    routingInformation defaults (fun _ => ⟨1000, 0⟩) (lit "b") B = some (B', m) ∧
    Agrees (lit "b") B'
      (newRoutingInformation defaults (fun _ => (⟨1000, 0⟩, ⟨1000, 0⟩)) A m) := by
  have hsent : ((history defaults (lit "b") contactWithC).bind
      (routingInformation defaults (fun _ => ⟨1000, 0⟩) (lit "b"))).isSome = true := by
    decide +kernel
  obtain ⟨⟨B', m⟩, hsent⟩ := Option.isSome_iff_exists.mp hsent
  obtain ⟨B, hB, hm⟩ := Option.bind_eq_some_iff.mp hsent
  have hA : history defaults (lit "a") [] = some (.init (lit "a")) := rfl
  refine ⟨.init (lit "a"), B, B', m, hA, hB, hm, (agrees_iff hA hB hm _).mpr fun n _ => ?_⟩
  -- Nothing has been received yet.
  unfold State.neighborMetricFor
  cases (State.init (lit "a")).number n with
  | none => rfl
  | some k =>
    have hnone : (State.init (lit "a")).neighborRib (lit "b") = [] := by decide +kernel
    rw [Option.elim_some, hnone]
    rfl

/-- The metric for `c` is aged until nothing is left of it, and then no longer sent: the neighbor
keeps the old one. -/
theorem not_agrees_contactForgotten : ∃ A B B' m,
    history defaults (lit "a") (heardAfter contactWithC) = some A ∧
    history defaults (lit "b") contactForgotten = some B ∧
    routingInformation defaults (fun _ => ⟨8161000, 0⟩) (lit "b") B = some (B', m) ∧
    B'.metricFor (lit "c") = 0 ∧
    (newRoutingInformation defaults (fun _ => (⟨8161000, 0⟩, ⟨8161000, 0⟩)) A m).neighborMetricFor
      (lit "b") (lit "c") = 749250 / 1000000 ∧
    ¬ Agrees (lit "b") B'
      (newRoutingInformation defaults (fun _ => (⟨8161000, 0⟩, ⟨8161000, 0⟩)) A m) := by
  have hsent : ((history defaults (lit "b") contactForgotten).bind
      (routingInformation defaults (fun _ => ⟨8161000, 0⟩) (lit "b"))).isSome = true := by
    decide +kernel
  have hzero : (history defaults (lit "b") contactForgotten).map
      (fun s => s.metricFor (lit "c")) = some 0 := by decide +kernel
  have hheard : (history defaults (lit "a") (heardAfter contactWithC)).map
      (fun s => s.neighborMetricFor (lit "b") (lit "c")) = some (749250 / 1000000) := by
    decide +kernel
  obtain ⟨⟨B', m⟩, hsent⟩ := Option.isSome_iff_exists.mp hsent
  obtain ⟨B, hB, hm⟩ := Option.bind_eq_some_iff.mp hsent
  obtain ⟨A, hA, hheard⟩ := Option.map_eq_some_iff.mp hheard
  rw [hB] at hzero
  have hzero := Option.some.inj hzero
  have hwfB := wf_history defaults hB
  have hsender : B'.metricFor (lit "c") = 0 := by
    rw [(routingInformation_spec defaults _ hm).1]
    exact hwfB.metricFor_advertise_zero defaults _ hzero
  have hkept := neighborMetricFor_exchange (wf_history defaults hA) hwfB hm defaults
    (fun _ => (⟨8161000, 0⟩, ⟨8161000, 0⟩)) (lit "c")
  rw [if_neg (not_not.mpr hzero), hheard] at hkept
  refine ⟨A, B, B', m, hA, hB, hm, hsender, hkept, fun hagrees => ?_⟩
  have hc := hagrees (lit "c")
  rw [hkept, hsender, DoubleText.sixDecimals_zero] at hc
  norm_num at hc

end Sample
end Haggle
