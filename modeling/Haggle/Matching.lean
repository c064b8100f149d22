import Haggle.Relational
import Mathlib.Data.Set.Basic
import Mathlib.Tactic.Tauto

/-!
# Matching data objects and nodes

A data object and a node match through the attributes they share. The views for the two directions
join the same two link tables, one of them limited to the node or the data object of the query, and
group the rows by the pair. They sum the weights of each group, and `sum` ends the whole statement
with an error once a sum leaves 64 bits.
-/

namespace Haggle
namespace Matching

open Relational

section Tables

structure NodeRow where
  rowid : ℤ
  sum_weights : Int64
  resolution_threshold : Int64
deriving DecidableEq

structure NodeAttribute where
  node_rowid : ℤ
  attr_rowid : ℤ
  weight : Int64
deriving DecidableEq

structure DataobjectAttribute where
  dataobject_rowid : ℤ
  attr_rowid : ℤ
deriving DecidableEq

/-- The rows of data objects count by their identifiers here; identifiers of rows are positive. -/
structure Tables where
  nodes : List NodeRow
  dataobjects : List ℤ
  nodeAttributes : List NodeAttribute
  dataobjectAttributes : List DataobjectAttribute
  nodes_pos : ∀ r ∈ nodes, 0 < r.rowid
  dataobjects_pos : ∀ d ∈ dataobjects, 0 < d

/-- `setViewLimitedNodeAttributes`. -/
def limitedNodes (node_rowid : ℤ) (na : List NodeAttribute) : List NodeAttribute :=
  if node_rowid = 0 then na else na.filter fun a => a.node_rowid = node_rowid

/-- `setViewLimitedDataobjectAttributes`. -/
def limitedDataobjects (dataobject_rowid : ℤ) (da : List DataobjectAttribute) :
    List DataobjectAttribute :=
  if dataobject_rowid = 0 then da else da.filter fun a => a.dataobject_rowid = dataobject_rowid

end Tables

section Aggregates

structure SumCtx where
  iSum : Int64
  overflow : Bool

def sumStep (p : SumCtx) (v : Int64) : SumCtx :=
  if p.overflow then p
  else
    let iNewSum := p.iSum + v
    let s1 := decide (p.iSum < 0)
    let s2 := decide (v < 0)
    let s3 := decide (iNewSum < 0)
    ⟨iNewSum, (s1 && s2 && !s3) || (!s1 && !s2 && s3)⟩

def sum (ws : List Int64) : SumCtx := ws.foldl sumStep ⟨0, false⟩

/-- `min(weight)=-1`. -/
def minIsNoMatch (ws : List Int64) : Bool := (-1) ∈ ws && ws.all fun w => (-1 : Int64) ≤ w

/-- The sum without its end at an overflow. -/
def total (ws : List Int64) : Int64 := ws.foldl (· + ·) 0

theorem iSum_eq_total {ws : List Int64} (h : (sum ws).overflow = false) :
    (sum ws).iSum = total ws := by
  have hstuck : ∀ (ws : List Int64) (p : SumCtx), p.overflow = true →
      (ws.foldl sumStep p).overflow = true := by
    intro ws
    induction ws with
    | nil => exact fun p hp => hp
    | cons v ws ih =>
      intro p hp
      rw [List.foldl_cons, sumStep, if_pos hp]
      exact ih p hp
  have hgo : ∀ (ws : List Int64) (p : SumCtx), (ws.foldl sumStep p).overflow = false →
      (ws.foldl sumStep p).iSum = ws.foldl (· + ·) p.iSum := by
    intro ws
    induction ws with
    | nil => exact fun p _ => rfl
    | cons v ws ih =>
      intro p hp
      rw [List.foldl_cons, List.foldl_cons] at *
      rw [ih _ hp]
      by_cases hover : p.overflow = true
      · rw [sumStep, if_pos hover, hstuck ws p hover] at hp
        cases hp
      · rw [sumStep, if_neg hover]
  exact hgo ws ⟨0, false⟩ h

theorem total_perm {ws ws' : List Int64} (h : ws.Perm ws') : total ws = total ws' := by
  refine h.foldl_eq' (fun x _ y _ z => ?_) 0
  rw [Int64.add_assoc, Int64.add_comm x, ← Int64.add_assoc]

theorem minIsNoMatch_perm {ws ws' : List Int64} (h : ws.Perm ws') :
    minIsNoMatch ws = minIsNoMatch ws' := by
  rw [minIsNoMatch, minIsNoMatch, h.all_eq]
  congr 1
  exact decide_eq_decide.mpr h.mem_iff

end Aggregates

section Views

/-- A row of the joined link tables. -/
structure Link where
  dataobject_rowid : ℤ
  node_rowid : ℤ
  weight : Int64
deriving DecidableEq

def Link.pair (l : Link) : ℤ × ℤ := (l.node_rowid, l.dataobject_rowid)

/-- The order in which a statement goes through the rows of a join. -/
structure Plan where
  order : List Link → List Link
  perm : ∀ l, (order l).Perm l

structure MatchRow where
  dataobject_rowid : ℤ
  node_rowid : ℤ
  mcount : ℕ
  weight : Int64
  dataobject_not_match : Bool
deriving DecidableEq

def weights (links : List Link) (p : ℤ × ℤ) : List Int64 :=
  (group Link.pair links p).map Link.weight

/-- The groups of a join with their aggregates, unless one of the sums overflows. -/
def matchRows (links : List Link) : Option (List MatchRow) :=
  let pairs := groupKeys Link.pair links
  if pairs.any fun p => (sum (weights links p)).overflow then none
  else some (pairs.map fun p =>
    ⟨p.2, p.1, (weights links p).length, (sum (weights links p)).iSum,
      minIsNoMatch (weights links p)⟩)

/-- `VIEW_MATCH_DATAOBJECTS_AND_NODES`. -/
def matchDataobjectsAndNodes (plan : Plan) (da : List DataobjectAttribute)
    (na : List NodeAttribute) : Option (List MatchRow) :=
  matchRows (plan.order ((innerJoin (fun d n => n.attr_rowid = d.attr_rowid) da na).map fun x =>
    ⟨x.1.dataobject_rowid, x.2.node_rowid, x.2.weight⟩))

/-- `VIEW_MATCH_NODES_AND_DATAOBJECTS`. -/
def matchNodesAndDataobjects (plan : Plan) (na : List NodeAttribute)
    (da : List DataobjectAttribute) : Option (List MatchRow) :=
  matchRows (plan.order ((innerJoin (fun n d => n.attr_rowid = d.attr_rowid) na da).map fun x =>
    ⟨x.2.dataobject_rowid, x.1.node_rowid, x.1.weight⟩))

variable (t : Tables) (plan : Plan)

def nodeRow (node_rowid : ℤ) : Option NodeRow := t.nodes.find? fun n => n.rowid = node_rowid

/-- `100*weight/n.sum_weights`: no value without a row of the node, or with a sum of zero. -/
def ratio (node_rowid : ℤ) (weight : Int64) : Option Int64 :=
  (nodeRow t node_rowid).bind fun n =>
    if n.sum_weights = 0 then none else some (100 * weight / n.sum_weights)

def threshold (node_rowid : ℤ) : Option Int64 :=
  (nodeRow t node_rowid).map NodeRow.resolution_threshold

/-- `>=` of two columns: false where one has no value. -/
def atLeast (x y : Option Int64) : Bool :=
  match x, y with
  | some x, some y => y ≤ x
  | _, _ => false

/-- The rows of the statement of `_doDataObjectQueryStep2`. -/
def dataObjectQuery (node_rowid : ℤ) (threshold : Int64) (attrMatch : ℕ) :
    Option (List MatchRow) :=
  (matchNodesAndDataobjects plan (limitedNodes node_rowid t.nodeAttributes)
    t.dataobjectAttributes).map fun rows =>
      (rows.filter fun r => !r.dataobject_not_match).filter fun r =>
        atLeast (ratio t r.node_rowid r.weight) (some threshold) && attrMatch ≤ r.mcount

/-- The rows of the statement of `_doNodeQuery`, without its limit. -/
def nodeQuery (dataobject_rowid : ℤ) (attrMatch : ℕ) : Option (List MatchRow) :=
  (matchDataobjectsAndNodes plan (limitedDataobjects dataobject_rowid t.dataobjectAttributes)
    t.nodeAttributes).map fun rows =>
      rows.filter fun r => atLeast (ratio t r.node_rowid r.weight) (threshold t r.node_rowid) &&
        attrMatch ≤ r.mcount && !r.dataobject_not_match

/-- The pairs that queries for the nodes give, each with the threshold of its node. -/
def dataobjectsOfNodes (attrMatch : ℕ) : Set (ℤ × ℤ) :=
  {p | p.2 ∈ t.dataobjects ∧ ∃ thr, threshold t p.1 = some thr ∧
    ∃ rows, dataObjectQuery t plan p.1 thr attrMatch = some rows ∧
      ∃ r ∈ rows, r.dataobject_rowid = p.2}

/-- The pairs that queries for the data objects give. -/
def nodesOfDataobjects (attrMatch : ℕ) : Set (ℤ × ℤ) :=
  {p | p.2 ∈ t.dataobjects ∧ ∃ rows, nodeQuery t plan p.2 attrMatch = some rows ∧
    ∃ r ∈ rows, r.node_rowid = p.1}

end Views

section Pairs

variable (t : Tables)

/-- The links between nodes and data objects through common attributes. -/
def links : List Link :=
  (innerJoin (fun n d => n.attr_rowid = d.attr_rowid) t.nodeAttributes
    t.dataobjectAttributes).map fun x => ⟨x.2.dataobject_rowid, x.1.node_rowid, x.1.weight⟩

theorem links_perm : (links t).Perm ((innerJoin (fun d n => n.attr_rowid = d.attr_rowid)
    t.dataobjectAttributes t.nodeAttributes).map fun x =>
      ⟨x.1.dataobject_rowid, x.2.node_rowid, x.2.weight⟩) := by
  have hswap := (innerJoin_swap (fun (n : NodeAttribute) (d : DataobjectAttribute) =>
    decide (n.attr_rowid = d.attr_rowid)) t.nodeAttributes t.dataobjectAttributes).map fun x =>
      (⟨x.2.dataobject_rowid, x.1.node_rowid, x.1.weight⟩ : Link)
  rw [List.map_map] at hswap
  exact hswap

/-- The row of a pair whose links have these weights. -/
def matchRow (p : ℤ × ℤ) (ws : List Int64) : MatchRow :=
  ⟨p.2, p.1, ws.length, total ws, minIsNoMatch ws⟩

/-- What a query asks of a row: no unwanted attribute, and enough weight and common attributes. -/
def Wanted (thr : Option Int64) (attrMatch : ℕ) (r : MatchRow) : Prop :=
  r.dataobject_not_match = false ∧ atLeast (ratio t r.node_rowid r.weight) thr = true ∧
    attrMatch ≤ r.mcount

/-- A pair with common attributes that both queries ask for. -/
def Admitted (attrMatch : ℕ) (p : ℤ × ℤ) : Prop :=
  weights (links t) p ≠ [] ∧
    Wanted t (threshold t p.1) attrMatch (matchRow p (weights (links t) p))

/-- A sum of the groups leaves 64 bits. -/
def Overflows (ls : List Link) : Prop := ∃ p, (sum (weights ls p)).overflow = true

theorem mem_groupKeys_pair {ls : List Link} {p : ℤ × ℤ} :
    p ∈ groupKeys Link.pair ls ↔ weights ls p ≠ [] := by
  rw [mem_groupKeys, weights, ne_eq, ne_eq, List.map_eq_nil_iff]

theorem matchRows_of_overflows {ls : List Link} (h : Overflows ls) : matchRows ls = none := by
  obtain ⟨p, hp⟩ := h
  have hmem : p ∈ groupKeys Link.pair ls := by
    rw [mem_groupKeys_pair]
    intro hnil
    rw [hnil] at hp
    cases hp
  have hany : ((groupKeys Link.pair ls).any fun p => (sum (weights ls p)).overflow) = true :=
    List.any_eq_true.mpr ⟨p, hmem, hp⟩
  rw [matchRows, if_pos hany]

theorem matchRows_eq {ls : List Link} (h : ¬Overflows ls) :
    matchRows ls = some ((groupKeys Link.pair ls).map fun p => matchRow p (weights ls p)) := by
  have hnone : ∀ p, (sum (weights ls p)).overflow = false := by
    intro p
    by_contra hp
    exact h ⟨p, by simpa using hp⟩
  have hany : ¬((groupKeys Link.pair ls).any fun p => (sum (weights ls p)).overflow) = true := by
    simp [hnone]
  rw [matchRows, if_neg hany]
  congr 1
  refine List.map_congr_left fun p _ => ?_
  rw [matchRow, iSum_eq_total (hnone p)]

theorem matchRow_perm (p : ℤ × ℤ) {ws ws' : List Int64} (h : ws.Perm ws') :
    matchRow p ws = matchRow p ws' := by
  rw [matchRow, matchRow, h.length_eq, total_perm h, minIsNoMatch_perm h]

/-- The rows of a part of the links that `q` decides by the pair. -/
theorem exists_matchRow {ls : List Link} {q : ℤ × ℤ → Bool}
    (hls : ls.Perm ((links t).filter fun l => q l.pair)) (P : MatchRow → Prop) :
    (∃ rows, matchRows ls = some rows ∧ ∃ r ∈ rows, P r) ↔
      ¬Overflows ls ∧ ∃ p, q p = true ∧ weights (links t) p ≠ [] ∧
        P (matchRow p (weights (links t) p)) := by
  have hweights : ∀ p, q p = true → (weights ls p).Perm (weights (links t) p) := by
    intro p hp
    have hgroup := group_perm Link.pair hls p
    rw [group_filter Link.pair fun l _ hl => by rw [hl, hp]] at hgroup
    exact hgroup.map _
  have hrest : ∀ p, q p = false → weights ls p = [] := by
    intro p hp
    have hempty : (group Link.pair ((links t).filter fun l => q l.pair) p) = [] := by
      rw [group, List.filter_filter, List.filter_eq_nil_iff]
      intro l _ hl
      simp only [Bool.and_eq_true, decide_eq_true_eq] at hl
      rw [hl.1, hp] at hl
      exact absurd hl.2 Bool.false_ne_true
    have hgroup := group_perm Link.pair hls p
    rw [hempty] at hgroup
    rw [weights, List.perm_nil.mp hgroup, List.map_nil]
  by_cases hover : Overflows ls
  · simp [matchRows_of_overflows hover, hover]
  rw [matchRows_eq hover]
  simp only [Option.some.injEq, exists_eq_left', List.mem_map, hover, not_false_eq_true, true_and]
  constructor
  · rintro ⟨r, ⟨p, hp, rfl⟩, hr⟩
    rw [mem_groupKeys_pair] at hp
    have hq : q p = true := by
      by_contra hq
      exact hp (hrest p (by simpa using hq))
    refine ⟨p, hq, fun hnil => hp ?_, ?_⟩
    · exact List.perm_nil.mp (hnil ▸ hweights p hq)
    · rwa [matchRow_perm p (hweights p hq)] at hr
  · rintro ⟨p, hq, hne, hp⟩
    refine ⟨_, ⟨p, mem_groupKeys_pair.mpr fun hnil => hne ?_, rfl⟩, ?_⟩
    · exact List.perm_nil.mp (hnil ▸ (hweights p hq).symm)
    · rwa [matchRow_perm p (hweights p hq)]

end Pairs

section Symmetry
variable (t : Tables) (plan : Plan)

/-- The links of one node, in the order of the query for it. -/
def nodeLinks (n : ℤ) : List Link :=
  plan.order ((innerJoin (fun n d => n.attr_rowid = d.attr_rowid)
    (limitedNodes n t.nodeAttributes) t.dataobjectAttributes).map fun x =>
      ⟨x.2.dataobject_rowid, x.1.node_rowid, x.1.weight⟩)

def dataobjectLinks (d : ℤ) : List Link :=
  plan.order ((innerJoin (fun d n => n.attr_rowid = d.attr_rowid)
    (limitedDataobjects d t.dataobjectAttributes) t.nodeAttributes).map fun x =>
      ⟨x.1.dataobject_rowid, x.2.node_rowid, x.2.weight⟩)

theorem nodeLinks_perm {n : ℤ} (hn : n ≠ 0) :
    (nodeLinks t plan n).Perm ((links t).filter fun l => decide (l.pair.1 = n)) := by
  refine (plan.perm _).trans ?_
  rw [limitedNodes, if_neg hn, innerJoin_filter_left, links, List.filter_map]
  exact List.Perm.refl _

theorem dataobjectLinks_perm {d : ℤ} (hd : d ≠ 0) :
    (dataobjectLinks t plan d).Perm ((links t).filter fun l => decide (l.pair.2 = d)) := by
  refine (plan.perm _).trans ?_
  rw [limitedDataobjects, if_neg hd, innerJoin_filter_left]
  refine List.Perm.trans ?_ ((links_perm t).filter _).symm
  rw [List.filter_map]
  exact List.Perm.refl _

theorem threshold_ne_zero {n : ℤ} {thr : Int64} (h : threshold t n = some thr) : n ≠ 0 := by
  rw [threshold, Option.map_eq_some_iff] at h
  obtain ⟨r, hr, -⟩ := h
  have hn : r.rowid = n := by simpa using List.find?_some hr
  have hpos := t.nodes_pos r (List.mem_of_find?_eq_some hr)
  omega

theorem Admitted.threshold {attrMatch : ℕ} {p : ℤ × ℤ} (h : Admitted t attrMatch p) :
    ∃ thr, Matching.threshold t p.1 = some thr := by
  obtain ⟨-, -, h, -⟩ := h
  cases hthr : Matching.threshold t p.1 with
  | none =>
    rw [hthr, atLeast] at h
    · cases h
    · simp
  | some thr => exact ⟨thr, rfl⟩

theorem exists_dataObjectQuery {p : ℤ × ℤ} {thr : Int64} (hthr : threshold t p.1 = some thr)
    (attrMatch : ℕ) :
    (∃ rows, dataObjectQuery t plan p.1 thr attrMatch = some rows ∧
      ∃ r ∈ rows, r.dataobject_rowid = p.2) ↔
        ¬Overflows (nodeLinks t plan p.1) ∧ Admitted t attrMatch p := by
  have hrows := exists_matchRow t (q := fun p' => decide (p'.1 = p.1))
    (nodeLinks_perm t plan (threshold_ne_zero t hthr)) fun r =>
      Wanted t (some thr) attrMatch r ∧ r.dataobject_rowid = p.2
  have hpair : (∃ p', decide (p'.1 = p.1) = true ∧ weights (links t) p' ≠ [] ∧
      Wanted t (some thr) attrMatch (matchRow p' (weights (links t) p')) ∧ p'.2 = p.2) ↔
        Admitted t attrMatch p := by
    rw [Admitted, hthr]
    constructor
    · rintro ⟨p', hn, hne, hwanted, hd⟩
      obtain rfl : p' = p := Prod.ext (by simpa using hn) hd
      exact ⟨hne, hwanted⟩
    · rintro ⟨hne, hwanted⟩
      exact ⟨p, by simp, hne, hwanted, rfl⟩
  rw [← hpair]
  refine Iff.trans ?_ hrows
  constructor
  · rintro ⟨rows, hr, r, hmem, hd⟩
    obtain ⟨rows', hmatch, rfl⟩ := Option.map_eq_some_iff.mp hr
    simp only [List.mem_filter, Bool.and_eq_true, decide_eq_true_eq, Bool.not_eq_true'] at hmem
    exact ⟨rows', hmatch, r, hmem.1.1, ⟨hmem.1.2, hmem.2.1, hmem.2.2⟩, hd⟩
  · rintro ⟨rows, hmatch, r, hmem, ⟨hmin, hratio, hcount⟩, hd⟩
    refine ⟨_, Option.map_eq_some_iff.mpr ⟨rows, hmatch, rfl⟩, r, ?_, hd⟩
    simp only [List.mem_filter, Bool.and_eq_true, decide_eq_true_eq, Bool.not_eq_true']
    exact ⟨⟨hmem, hmin⟩, hratio, hcount⟩

theorem exists_nodeQuery {p : ℤ × ℤ} (hd : p.2 ≠ 0) (attrMatch : ℕ) :
    (∃ rows, nodeQuery t plan p.2 attrMatch = some rows ∧ ∃ r ∈ rows, r.node_rowid = p.1) ↔
      ¬Overflows (dataobjectLinks t plan p.2) ∧ Admitted t attrMatch p := by
  have hrows := exists_matchRow t (q := fun p' => decide (p'.2 = p.2))
    (dataobjectLinks_perm t plan hd) fun r =>
      Wanted t (threshold t r.node_rowid) attrMatch r ∧ r.node_rowid = p.1
  have hpair : (∃ p', decide (p'.2 = p.2) = true ∧ weights (links t) p' ≠ [] ∧
      Wanted t (threshold t p'.1) attrMatch (matchRow p' (weights (links t) p')) ∧ p'.1 = p.1) ↔
        Admitted t attrMatch p := by
    constructor
    · rintro ⟨p', hd', hne, hwanted, hn⟩
      obtain rfl : p' = p := Prod.ext hn (by simpa using hd')
      exact ⟨hne, hwanted⟩
    · rintro ⟨hne, hwanted⟩
      exact ⟨p, by simp, hne, hwanted, rfl⟩
  rw [← hpair]
  refine Iff.trans ?_ hrows
  constructor
  · rintro ⟨rows, hr, r, hmem, hn⟩
    obtain ⟨rows', hmatch, rfl⟩ := Option.map_eq_some_iff.mp hr
    simp only [List.mem_filter, Bool.and_eq_true, decide_eq_true_eq, Bool.not_eq_true'] at hmem
    exact ⟨rows', hmatch, r, hmem.1, ⟨hmem.2.2, hmem.2.1.1, hmem.2.1.2⟩, hn⟩
  · rintro ⟨rows, hmatch, r, hmem, ⟨hmin, hratio, hcount⟩, hn⟩
    refine ⟨_, Option.map_eq_some_iff.mpr ⟨rows, hmatch, rfl⟩, r, ?_, hn⟩
    simp only [List.mem_filter, Bool.and_eq_true, decide_eq_true_eq, Bool.not_eq_true']
    exact ⟨hmem, ⟨hratio, hcount⟩, hmin⟩

theorem mem_dataobjectsOfNodes {attrMatch : ℕ} {p : ℤ × ℤ} :
    p ∈ dataobjectsOfNodes t plan attrMatch ↔
      p.2 ∈ t.dataobjects ∧ ¬Overflows (nodeLinks t plan p.1) ∧ Admitted t attrMatch p := by
  constructor
  · rintro ⟨hd, thr, hthr, hrows⟩
    exact ⟨hd, (exists_dataObjectQuery t plan hthr attrMatch).mp hrows⟩
  · rintro ⟨hd, hover, hadm⟩
    obtain ⟨thr, hthr⟩ := hadm.threshold
    exact ⟨hd, thr, hthr, (exists_dataObjectQuery t plan hthr attrMatch).mpr ⟨hover, hadm⟩⟩

theorem mem_nodesOfDataobjects {attrMatch : ℕ} {p : ℤ × ℤ} :
    p ∈ nodesOfDataobjects t plan attrMatch ↔
      p.2 ∈ t.dataobjects ∧ ¬Overflows (dataobjectLinks t plan p.2) ∧ Admitted t attrMatch p := by
  refine and_congr_right fun hd => ?_
  exact exists_nodeQuery t plan (t.dataobjects_pos p.2 hd).ne' attrMatch

/-- The two directions agree exactly if, for each pair they ask for, a sum of the node overflows
just when a sum of the data object does. -/
theorem matching_symmetric_iff (plan' : Plan) (attrMatch : ℕ) :
    dataobjectsOfNodes t plan attrMatch = nodesOfDataobjects t plan' attrMatch ↔
      ∀ n d, d ∈ t.dataobjects → Admitted t attrMatch (n, d) →
        (Overflows (nodeLinks t plan n) ↔ Overflows (dataobjectLinks t plan' d)) := by
  rw [Set.ext_iff]
  simp only [mem_dataobjectsOfNodes, mem_nodesOfDataobjects]
  constructor
  · intro h n d hd hadm
    have hpair := h (n, d)
    tauto
  · rintro h ⟨n, d⟩
    have hpair := h n d
    tauto

end Symmetry
end Matching

namespace Sample

open Matching

/-- The links of the first data object weigh `2 ^ 63` together, that of the second weighs 1. -/
def heavyTables : Matching.Tables where
  nodes := [⟨1, -9223372036854775807, 0⟩]
  dataobjects := [10, 11]
  nodeAttributes := [⟨1, 1, 4611686018427387904⟩, ⟨1, 2, 4611686018427387904⟩, ⟨1, 3, 1⟩]
  dataobjectAttributes := [⟨10, 1⟩, ⟨10, 2⟩, ⟨11, 3⟩]
  nodes_pos := by decide
  dataobjects_pos := by decide

def scan : Plan := ⟨id, List.Perm.refl⟩

theorem not_symmetric_heavyTables :
    ¬∀ t plan plan' attrMatch,
      dataobjectsOfNodes t plan attrMatch = nodesOfDataobjects t plan' attrMatch := by
  intro h
  have hnode : ((1, 11) : ℤ × ℤ) ∈ nodesOfDataobjects heavyTables scan 1 := by
    refine ⟨by decide, [⟨11, 1, 1, 1, false⟩], by decide, ?_⟩
    exact ⟨_, List.mem_singleton_self _, rfl⟩
  rw [← h heavyTables scan scan 1] at hnode
  obtain ⟨-, thr, hthr, rows, hrows, -⟩ := hnode
  have hzero : threshold heavyTables 1 = some 0 := by decide
  rw [hzero] at hthr
  obtain rfl := Option.some.inj hthr
  have hnone : dataObjectQuery heavyTables scan 1 0 1 = none := by decide
  rw [hnone] at hrows
  cases hrows

end Sample
end Haggle
