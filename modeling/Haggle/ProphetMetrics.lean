import Haggle.Prophet
import Mathlib.Tactic.Positivity

/-!
# Metrics as probabilities

Each rule of the module leads from numbers between zero and one to such numbers. The numbers that a
neighbor sends, and those of the repository, are taken as they are read.
-/

namespace Haggle
namespace Prophet

def Probability (q : ℚ) : Prop := 0 ≤ q ∧ q ≤ 1

instance (q : ℚ) : Decidable (Probability q) := inferInstanceAs (Decidable (_ ∧ _))

structure State.InRange (s : State) : Prop where
  rib : ∀ e ∈ s.rib, Probability e.2.p
  neighbor_ribs : ∀ r ∈ s.neighbor_ribs, ∀ e ∈ r.2, Probability e.2.p

structure Parameters.InRange (pr : Parameters) : Prop where
  P_encounter : Probability pr.P_encounter
  beta : Probability pr.beta
  gamma : Probability pr.gamma

/-- What a request brings in from outside is a probability, where it is a number. -/
def Op.Reasonable : Op → Prop
  | .newRoutingInformation _ m =>
    m.name = name → ∀ mm ∈ m.getAll (lit "Metric"), ∀ q ∈ DoubleText.scan mm.content, Probability q
  | .setSaveState _ _ value => ∀ q ∈ DoubleText.scan (splitValue value).1, Probability q
  | _ => True

section Rules

variable {p q : ℚ}

theorem Probability.mul (hp : Probability p) (hq : Probability q) : Probability (p * q) :=
  ⟨mul_nonneg hp.1 hq.1, mul_le_one₀ hp.2 hq.1 hq.2⟩

theorem Probability.pow (hp : Probability p) (n : ℕ) : Probability (p ^ n) :=
  ⟨pow_nonneg hp.1 n, pow_le_one₀ hp.1 hp.2⟩

theorem Probability.increase (hp : Probability p) (hq : Probability q) :
    Probability (p + (1 - p) * q) := by
  have hmissing : 0 ≤ 1 - p := sub_nonneg.mpr hp.2
  constructor
  · exact add_nonneg hp.1 (mul_nonneg hmissing hq.1)
  · calc p + (1 - p) * q ≤ p + (1 - p) * 1 := by gcongr; exact hq.2
      _ = 1 := by ring

theorem Probability.cutOff (hp : Probability p) : Probability (cutOff p) := by
  unfold Prophet.cutOff
  split_ifs
  · exact ⟨le_refl 0, zero_le_one⟩
  · exact hp

theorem probability_new : Probability Metric.new.p := ⟨le_refl 0, zero_le_one⟩

theorem Probability.ageMetric {pr : Parameters} (hpr : pr.InRange) (now : Timeval) {m : Metric}
    (hm : Probability m.p) : Probability (ageMetric pr now m).p := by
  unfold Prophet.ageMetric
  simp only
  split_ifs
  · exact hm
  · exact (hm.mul (hpr.gamma.pow _)).cutOff
  · exact hm

theorem Probability.length_print (hp : Probability p) : (DoubleText.print p).length ≤ 31 := by
  have hle : (DoubleText.sixDecimals p).natAbs ≤ 1000000 := by
    have hround := abs_le.mp (DoubleText.abs_sixDecimals_sub_le p)
    have hupper : (DoubleText.sixDecimals p : ℚ) < 1000001 := by linarith [hp.2]
    have hlower : (-1 : ℚ) < DoubleText.sixDecimals p := by linarith [hp.1]
    have hupper' : DoubleText.sixDecimals p < 1000001 := by exact_mod_cast hupper
    have hlower' : -1 < DoubleText.sixDecimals p := by exact_mod_cast hlower
    omega
  have hwhole : (decimal ((DoubleText.sixDecimals p).natAbs / 1000000)).length ≤ 1 :=
    length_decimal_le Nat.one_pos (by omega)
  have hfraction :
      (Timeval.padded ((DoubleText.sixDecimals p).natAbs % 1000000)).length = 6 :=
    Timeval.length_padded (by omega)
  unfold DoubleText.print
  rw [if_neg (not_lt.mpr hp.1)]
  simp only [List.nil_append, List.length_append, List.length_cons, hfraction]
  omega

end Rules

section Steps

variable {s : State} {pr : Parameters}

@[simp] theorem rib_idForString (s : State) (nodeid : Bytes) :
    (idForString s nodeid).2.rib = s.rib := by
  unfold idForString
  simp only
  split_ifs <;> rfl

@[simp] theorem neighbor_ribs_idForString (s : State) (nodeid : Bytes) :
    (idForString s nodeid).2.neighbor_ribs = s.neighbor_ribs := by
  unfold idForString
  simp only
  split_ifs <;> rfl

theorem State.InRange.numbered (h : s.InRange) (nodeid : Bytes) :
    (idForString s nodeid).2.InRange := by
  constructor
  · rw [rib_idForString]
    exact h.rib
  · rw [neighbor_ribs_idForString]
    exact h.neighbor_ribs

theorem State.InRange.modifyRib (h : s.InRange) (k : ℕ) {f : Metric → Metric}
    (hf : ∀ m, Probability m.p → Probability (f m).p) : (s.modifyRib k f).InRange :=
  ⟨forall_modifyAt (P := fun m : Metric => Probability m.p) probability_new h.rib hf,
    h.neighbor_ribs⟩

theorem State.InRange.modifyNeighborRib (h : s.InRange) (k : ℕ) {f : Rib → Rib}
    (hf : ∀ r : Rib, (∀ e ∈ r, Probability e.2.p) → ∀ e ∈ f r, Probability e.2.p) :
    (s.modifyNeighborRib k f).InRange :=
  ⟨h.rib, forall_modifyAt (P := fun r : Rib => ∀ e ∈ r, Probability e.2.p) nofun h.neighbor_ribs hf⟩

theorem probability_metric {r : Rib} (h : ∀ e ∈ r, Probability e.2.p) (k : ℕ) :
    Probability (r.metric k).p := by
  unfold Rib.metric
  cases hget : AssocList.get r k with
  | none => exact probability_new
  | some m =>
    have hm : Probability m.p := h (k, m) (AssocList.mem_of_get hget)
    exact hm

theorem State.InRange.neighborRib (h : s.InRange) (b : ℕ) :
    ∀ e ∈ (AssocList.get s.neighbor_ribs b).getD [], Probability e.2.p := by
  cases hget : AssocList.get s.neighbor_ribs b with
  | none => exact nofun
  | some r => exact h.neighbor_ribs _ (AssocList.mem_of_get hget)

variable (hpr : pr.InRange)

include hpr in
theorem State.InRange.receiveMetric (h : s.InRange) (b : ℕ) (times : Timeval × Timeval)
    {mm : Metadata} (hmm : ∀ q ∈ DoubleText.scan mm.content, Probability q) :
    (receiveMetric pr b times s mm).InRange := by
  unfold Prophet.receiveMetric
  simp only
  have hread : ∀ m : Metric, Probability m.p →
      Probability ({ m with p := (DoubleText.scan mm.content).getD m.p } : Metric).p := by
    intro m hm
    cases hscan : DoubleText.scan mm.content with
    | none => exact hm
    | some q => exact hmm q (by rw [hscan]; rfl)
  have hmodified : ∀ r : Rib, (∀ e ∈ r, Probability e.2.p) →
      ∀ e ∈ modifyAt Metric.new (idForString s (nodeIdOf mm)).1
        (fun m => { m with p := (DoubleText.scan mm.content).getD m.p }) r, Probability e.2.p := by
    intro r hr
    exact forall_modifyAt (P := fun m : Metric => Probability m.p) probability_new hr hread
  have hreceived := (h.numbered (nodeIdOf mm)).modifyNeighborRib b hmodified
  split_ifs
  · exact hreceived
  · have haged := (hreceived.modifyRib b fun m hm => hm.ageMetric hpr times.1).modifyRib
      (idForString s (nodeIdOf mm)).1 fun m hm => hm.ageMetric hpr times.2
    apply haged.modifyRib
    intro m hm
    have hfactor := ((probability_metric haged.rib b).mul
      (probability_metric (haged.neighborRib b) (idForString s (nodeIdOf mm)).1)).mul hpr.beta
    have hincrease := hm.increase hfactor
    simp only [← mul_assoc] at hincrease
    exact hincrease

include hpr in
theorem State.InRange.receiveMetrics (h : s.InRange) (b : ℕ) (clock : ℕ → Timeval × Timeval)
    {mms : List Metadata} (hmms : ∀ mm ∈ mms, ∀ q ∈ DoubleText.scan mm.content, Probability q) :
    (receiveMetrics pr b clock s mms).InRange := by
  induction mms generalizing s clock with
  | nil => exact h
  | cons mm mms ih =>
    rw [List.forall_mem_cons] at hmms
    exact ih (h.receiveMetric hpr b (clock 0) hmms.1) _ hmms.2

include hpr in
theorem State.InRange.targetSteps (h : s.InRange) (prefers : ℚ → ℚ → Bool) (blank : Node)
    (clock : ℕ → Timeval) (b : ℕ) (entries : List (ℕ × Metric)) (l : List (Node × ℚ)) :
    (entries.foldl (targetStep pr prefers blank clock b) (s, l)).1.InRange := by
  induction entries generalizing s l with
  | nil => exact h
  | cons e entries ih =>
    have hstep : (targetStep pr prefers blank clock b (s, l) e).1.InRange := by
      have haged := h.modifyRib e.1 fun m hm => hm.ageMetric hpr (clock e.1)
      unfold targetStep
      simp only
      split_ifs
      · exact h
      · cases Node.createWithId blank ((s.modifyRib e.1 (ageMetric pr (clock e.1))).nodeid e.1) with
        | none => exact haged
        | some target => exact haged
      · exact haged
    exact ih hstep _

theorem State.InRange.delegateSteps (h : s.InRange) (prefers : ℚ → ℚ → Bool)
    (retrieve : Bytes → Option Node) (other_targets : List Node) (d : ℕ) (P_ad : ℚ)
    (tables : List (ℕ × Rib)) (l : List (Node × ℚ)) :
    (tables.foldl (delegateStep prefers retrieve other_targets d P_ad) (s, l)).1.InRange := by
  induction tables generalizing s l with
  | nil => exact h
  | cons e tables ih =>
    have hstep : (delegateStep prefers retrieve other_targets d P_ad (s, l) e).1.InRange := by
      have hmade := h.modifyNeighborRib e.1 fun r hr =>
        forall_modifyAt (P := fun m : Metric => Probability m.p) (k := d) (f := id)
          probability_new hr fun m hm => hm
      unfold delegateStep
      by_cases hself : e.1 = this_node_id ∨ e.1 = d
      · rw [if_pos hself]
        exact h
      · rw [if_neg hself]
        cases retrieve (s.nodeid e.1) with
        | none => exact h
        | some delegate =>
          by_cases hother : (other_targets.any fun n => n.same delegate) = true
          · simp only [hother, if_true]
            exact h
          · simp only [hother]
            exact hmade
    exact ih hstep _

include hpr in
theorem State.InRange.step (h : s.InRange) (thisNode : Bytes) {op : Op} (hop : op.Reasonable) :
    ∃ s', step pr thisNode s op = some s' ∧ s'.InRange := by
  cases op with
  | newNeighbor type idStr =>
    refine ⟨_, rfl, ?_⟩
    unfold newNeighbor
    split_ifs
    · exact h
    · exact (h.numbered idStr).modifyRib _ fun m hm => hm.increase hpr.P_encounter
  | endNeighbor now type idStr =>
    refine ⟨_, rfl, ?_⟩
    unfold endNeighbor
    split_ifs
    · exact h
    · exact (h.numbered idStr).modifyRib _ fun m hm => (hm.mul hpr.gamma).cutOff
  | newRoutingInformation clock m =>
    refine ⟨_, rfl, ?_⟩
    unfold newRoutingInformation
    split_ifs with hname
    · exact h
    · have hmade := (h.numbered (nodeIdOf m)).modifyNeighborRib
        (idForString s (nodeIdOf m)).1 fun r hr => hr
      exact hmade.receiveMetrics hpr _ clock (hop (not_not.mp hname))
  | addRoutingInformation clock parent =>
    have hadvertise : ∀ e : ℕ × Metric, Probability e.2.p →
        Probability (advertise pr clock e).2.p := by
      intro e he
      unfold advertise
      split_ifs
      · exact he.ageMetric hpr (clock e.1)
      · exact he
    have hfits : (((inOrder s.rib).filter fun e => e.2.p ≠ 0).map (advertise pr clock)).all
        (fun e => (DoubleText.print e.2.p).length ≤ 31) = true := by
      rw [List.all_eq_true]
      intro e he
      obtain ⟨e', he', rfl⟩ := List.mem_map.mp he
      have hmem : e' ∈ s.rib := List.mem_mergeSort.mp (List.mem_filter.mp he').1
      exact decide_eq_true (hadvertise e' (h.rib e' hmem)).length_print
    unfold Prophet.step addRoutingInformation
    simp only
    rw [if_pos hfits]
    refine ⟨_, rfl, ?_, h.neighbor_ribs⟩
    intro e he
    obtain ⟨e', he', rfl⟩ := List.mem_map.mp he
    exact hadvertise e' (h.rib e' he')
  | setSaveState uninit key value =>
    have hvalue : Probability ((DoubleText.scan (splitValue value).1).getD 0) := by
      cases hscan : DoubleText.scan (splitValue value).1 with
      | none => exact probability_new
      | some q => exact hop q (by rw [hscan]; rfl)
    exact ⟨_, rfl, (h.numbered key).modifyRib _ fun m _ => hvalue⟩
  | generateTargetsFor prefers blank limit clock neighbor =>
    have hmade := (h.numbered neighbor).modifyNeighborRib (idForString s neighbor).1 fun r hr => hr
    exact ⟨_, rfl, hmade.targetSteps hpr prefers blank clock _ _ []⟩
  | generateDelegatesFor prefers retrieve other_targets limit now target =>
    have haged := (h.numbered target).modifyRib (idForString s target).1
      fun m hm => hm.ageMetric hpr now
    exact ⟨_, rfl, haged.delegateSteps prefers retrieve other_targets _ _ _ []⟩

theorem inRange_init (thisNode : Bytes) : (State.init thisNode).InRange := by
  unfold State.init
  constructor
  · rw [rib_idForString]
    exact nofun
  · rw [neighbor_ribs_idForString]
    exact nofun

/-- In every run of reasonable requests all metrics are probabilities. -/
theorem inRange_history (pr : Parameters) (hpr : pr.InRange) (thisNode : Bytes) (ops : List Op)
    (hops : ∀ op ∈ ops, op.Reasonable) : ∃ s, history pr thisNode ops = some s ∧ s.InRange := by
  have hrun : ∀ ops : List Op, (∀ op ∈ ops, op.Reasonable) → ∀ s : State, s.InRange →
      ∃ s', Trace.run (fun s op => s.bind fun s => step pr thisNode s op) (some s) ops = some s' ∧
        s'.InRange := by
    intro ops
    induction ops with
    | nil => exact fun _ s hs => ⟨s, rfl, hs⟩
    | cons op ops ih =>
      intro hops s hs
      rw [List.forall_mem_cons] at hops
      obtain ⟨s', hstep, hs'⟩ := hs.step hpr thisNode hops.1
      rw [Trace.run_cons, Option.bind_some, hstep]
      exact ih hops.2 s' hs'
  exact hrun ops hops _ (inRange_init thisNode)

end Steps

end Prophet

namespace Sample

open Prophet

def defaults : Parameters := ⟨3 / 4, 1 / 4, 999 / 1000, 600⟩

/-- Routing information of a node for one other node. -/
def routingInfo (b c metric : Bytes) : Metadata :=
  ((Metadata.new Prophet.name []).setParameter (lit "node_id") b).addMetadata
    ((Metadata.new (lit "Metric") metric).setParameter (lit "node_id") c)

theorem getAll_routingInfo (b c metric : Bytes) : (routingInfo b c metric).getAll (lit "Metric") =
    [(Metadata.new (lit "Metric") metric).setParameter (lit "node_id") c] := by
  have hnew := Metadata.valid_new Prophet.name [] (c := .signed)
  have hvalid := Metadata.valid_setParameter hnew (lit "node_id") b
  have hname : ((Metadata.new (lit "Metric") metric).setParameter (lit "node_id") c).name =
      lit "Metric" := rfl
  have hnone : ((Metadata.new Prophet.name []).setParameter (lit "node_id") b).getAll
      (lit "Metric") = [] := Metadata.getAll_new Prophet.name [] (lit "Metric")
  rw [routingInfo, Metadata.getAll_addMetadata hvalid, if_pos hname, hnone, List.nil_append]

/-- A neighbor is met, and sends its metric for another node. -/
def metWith (metric : Bytes) : List Op :=
  [.newNeighbor .peer (lit "b"),
    .newRoutingInformation (fun _ => (⟨1000, 0⟩, ⟨1000, 0⟩))
      (routingInfo (lit "b") (lit "c") metric)]

theorem inRange_metWith : defaults.InRange ∧ (∀ op ∈ metWith (lit "0.500000"), op.Reasonable) ∧
    ∃ s, history defaults (lit "a") (metWith (lit "0.500000")) = some s ∧ s.InRange := by
  have hdefaults : defaults.InRange :=
    ⟨by decide +kernel, by decide +kernel, by decide +kernel⟩
  have hops : ∀ op ∈ metWith (lit "0.500000"), op.Reasonable := by
    intro op hop
    simp only [metWith, List.mem_cons, List.not_mem_nil, or_false] at hop
    rcases hop with rfl | rfl
    · exact trivial
    · intro _ mm hmm
      rw [getAll_routingInfo] at hmm
      rw [List.mem_singleton.mp hmm]
      have hscan : DoubleText.scan (lit "0.500000") = some (1 / 2) := by decide +kernel
      change ∀ q ∈ DoubleText.scan (lit "0.500000"), Probability q
      rw [hscan]
      rintro q ⟨⟩
      decide +kernel
  exact ⟨hdefaults, hops, inRange_history defaults hdefaults (lit "a") _ hops⟩

/-- A neighbor that claims to meet a node fifty times as surely as one can makes both its own metric
and that of this device for the node more than one. -/
theorem not_inRange_metWith : ∃ s, history defaults (lit "a") (metWith (lit "50.000000")) = some s ∧
    (s.rib.metric 3).p = 75 / 8 ∧ ¬ s.InRange := by
  refine ⟨_, rfl, ?_⟩
  have hmetric : ∀ s : State, (s.rib.metric 3).p = 75 / 8 →
      (s.rib.metric 3).p = 75 / 8 ∧ ¬ s.InRange := by
    intro s hs
    refine ⟨hs, fun h => ?_⟩
    have hle := (probability_metric h.rib 3).2
    rw [hs] at hle
    norm_num at hle
  apply hmetric
  decide +kernel

end Sample
end Haggle
