import Haggle.DelegateQuery
import Haggle.FilterCounts

/-!
# Evaluating filters and data objects

A new data object raises the events of the filters that match it, and a new filter reports the data
objects that match it. Both read the same view, whose ratio is wrong where an attribute is counted
more than once, and is lost in the division for a filter with many attributes.
-/

namespace Haggle
namespace StoreQueries

open Matching Relational
open StoredObject (columnInt)
open StoredNode (int32)

section Evaluation

variable (env : Environment) (s : State)

/-- What the tables keep: their constraints and counters, and that links are removed with the data
objects. -/
structure Kept (db : Database) : Prop extends
    Consistent db.attributes db.filterAttributes db.filters where
  objects : ∀ x ∈ db.dataobjectAttributes, x.dataobject_rowid ∈ db.tables.dataobjects

/-- The rows of the view, limited to a data object or not. -/
def viewRows (db : Database) (limit : ℤ) : List FilterMatch :=
  matchFiltersAndDataobjectsAsRatio env.filterPlan
    (limitedDataobjects limit db.dataobjectAttributes) db.attributes db.filterAttributes db.filters

def matchedBy (db : Database) (f : FilterRow) (d : ℤ) : ℕ :=
  matched db.dataobjectAttributes db.attributes db.filterAttributes f d

def countedFor (db : Database) (f : FilterRow) (d : ℤ) : ℕ :=
  counted db.dataobjectAttributes db.attributes db.filterAttributes f d

def attributesOf (db : Database) (f : FilterRow) : ℕ := (linksOf db.filterAttributes f).length

/-- A filter and a data object share an attribute. -/
def Shares (db : Database) (f : FilterRow) (d : ℤ) : Prop := 0 < matchedBy db f d

instance (db : Database) (f : FilterRow) (d : ℤ) : Decidable (Shares db f d) :=
  inferInstanceAs (Decidable (0 < _))

/-- How many percent of the attributes of a filter are matched. -/
def percent (db : Database) (f : FilterRow) (d : ℤ) : ℕ :=
  100 * matchedBy db f d / attributesOf db f

def eventRows (eventType : ℤ) : List FilterMatch :=
  (filterRows env s.db 0).filter fun m => m.filter.any fun f => f.event = eventType

/-- The data objects that are reported for an event, before the limit. -/
def reportedFor (eventType : ℤ) : List DataObject :=
  (eventRows env s eventType).filterMap fun m =>
    getDataObjectFromRowId env s.db s.files m.dataobject_rowid

/-- A data object is reported for an event: a row of the event names it, and it can be made of its
row. -/
def Reported (eventType : ℤ) (d : ℤ) : Prop :=
  (∃ m ∈ eventRows env s eventType, m.dataobject_rowid = d) ∧
    (getDataObjectFromRowId env s.db s.files d).isSome = true

/-- The view has one row for each filter and data object that share an attribute, with the
percentage of matched attributes, a data object raises the event of each of its filters once, and is
reported for a filter just if it raises its event. -/
structure MatchesFilters : Prop where
  unique : ∀ limit, ((viewRows env s.db limit).map fun m =>
    (m.filter.map FilterRow.rowid, m.dataobject_rowid)).Nodup
  row : ∀ limit, ∀ m ∈ viewRows env s.db limit, ∃ f ∈ s.db.filters, m.filter = some f ∧
    Shares s.db f m.dataobject_rowid ∧
    m.ratio = some (percent s.db f m.dataobject_rowid : ℤ) ∧
    percent s.db f m.dataobject_rowid ≤ 100
  complete : ∀ f ∈ s.db.filters, ∀ d, Shares s.db f d → ∀ limit, limit = 0 ∨ limit = d →
    ∃ m ∈ viewRows env s.db limit, m.filter = some f ∧ m.dataobject_rowid = d
  raised : ∀ dObj, ∀ d ∈ s.db.tables.dataobjects,
    (evaluateFilters env .executed dObj d s).2.posted.Perm
      ((s.db.filters.filter fun f => Shares s.db f d).map fun f =>
        .filter (int32 f.event).toInt [dObj])
  posted : ∀ eventType, (evaluateDataObjects env .executed eventType s).2.posted =
    if reportedFor env s eventType = [] then []
    else [.filter eventType ((reportedFor env s eventType).take 10)]
  reported : ∀ f ∈ s.db.filters, ∀ d ∈ s.db.tables.dataobjects, Reported env s f.event d ↔
    ∃ m ∈ filterRows env s.db d, m.filter = some f

/-- For each filter and data object that share an attribute: what is counted gives the percentage,
the percentage is not lost in the division, and the data object can be made of its row. -/
def Exact : Prop :=
  ∀ f ∈ s.db.filters, ∀ d, Shares s.db f d →
    100 * countedFor s.db f d / attributesOf s.db f = percent s.db f d ∧
    attributesOf s.db f ≤ 100 * matchedBy s.db f d ∧
    (getDataObjectFromRowId env s.db s.files d).isSome = true

/-- The row of a filter and a data object. -/
def rowOf (db : Database) (d : ℤ) (f : FilterRow) : FilterMatch := ⟨some f, countedFor db f d, d⟩

variable {env s}

theorem mem_viewRows (h : Kept s.db) {limit : ℤ} {m : FilterMatch} :
    m ∈ viewRows env s.db limit ↔ ∃ f ∈ s.db.filters, ∃ d, Shares s.db f d ∧
      (limit = 0 ∨ limit = d) ∧ m = rowOf s.db d f := by
  have hspec := (@matchFiltersAndDataobjects_spec
    (limitedDataobjects limit s.db.dataobjectAttributes) _ _ _ h.toConsistent env.filterPlan).2 m
  rw [viewRows, matchFiltersAndDataobjectsAsRatio, (orderByDesc_perm _ _).mem_iff, hspec]
  refine exists_congr fun f => and_congr_right fun hf => exists_congr fun d => ?_
  rw [counted_limited]
  by_cases hd : limit = 0 ∨ limit = d
  · rw [if_pos hd, counted_pos_iff]
    exact ⟨fun ⟨hpos, hm⟩ => ⟨hpos, hd, hm⟩, fun ⟨hpos, _, hm⟩ => ⟨hpos, hm⟩⟩
  · rw [if_neg hd]
    exact ⟨fun ⟨hpos, _⟩ => absurd hpos (lt_irrefl 0), fun ⟨_, hd', _⟩ => absurd hd' hd⟩

theorem nodup_viewRows (h : Kept s.db) (limit : ℤ) : ((viewRows env s.db limit).map fun m =>
    (m.filter.map FilterRow.rowid, m.dataobject_rowid)).Nodup := by
  have hspec := (@matchFiltersAndDataobjects_spec
    (limitedDataobjects limit s.db.dataobjectAttributes) _ _ _ h.toConsistent env.filterPlan).1
  exact ((orderByDesc_perm _ _).map _).nodup_iff.mpr hspec

/-- The ratio of a row is that of what is counted. -/
theorem ratio_rowOf (h : Kept s.db) {f : FilterRow} (hf : f ∈ s.db.filters) {d : ℤ}
    (hs : Shares s.db f d) : (rowOf s.db d f).ratio =
      some ((100 * countedFor s.db f d / attributesOf s.db f : ℕ) : ℤ) := by
  have hpos : 0 < attributesOf s.db f := lt_of_lt_of_le hs List.countP_le_length
  have hcount : f.num_attributes = (attributesOf s.db f : ℤ) := h.count f hf
  have hne : f.num_attributes ≠ 0 := by
    rw [hcount]
    exact Int.natCast_ne_zero.mpr hpos.ne'
  rw [FilterMatch.ratio, rowOf, Option.bind_some, if_neg hne, hcount]
  rfl

theorem viewRows_perm (h : Kept s.db) {d : ℤ} (hd : d ≠ 0) : (viewRows env s.db d).Perm
    ((s.db.filters.filter fun f => Shares s.db f d).map (rowOf s.db d)) := by
  have hfilters : s.db.filters.Nodup := h.filters_nodup.of_map
  refine (List.perm_ext_iff_of_nodup (nodup_viewRows h d).of_map ?_).mpr fun m => ?_
  · exact (hfilters.filter _).map fun f g hfg => Option.some.inj (congrArg FilterMatch.filter hfg)
  · rw [mem_viewRows h, List.mem_map]
    constructor
    · rintro ⟨f, hf, d', hs, hlimit, rfl⟩
      obtain rfl := hlimit.resolve_left hd
      exact ⟨f, List.mem_filter.mpr ⟨hf, decide_eq_true hs⟩, rfl⟩
    · rintro ⟨f, hf, rfl⟩
      obtain ⟨hf, hs⟩ := List.mem_filter.mp hf
      exact ⟨f, hf, d, of_decide_eq_true hs, .inr rfl, rfl⟩

theorem filterRows_eq (db : Database) (limit : ℤ) :
    filterRows env db limit = (viewRows env db limit).filter fun m => m.ratio.any (0 < ·) := rfl

theorem evaluateFilters_posted (dObj : DataObject) {d : ℤ} (hd : 0 < d) :
    (evaluateFilters env .executed dObj d s).2.posted = (filterRows env s.db d).map fun m =>
      .filter (int32 ((m.filter.map FilterRow.event).getD 0)).toInt [dObj] := by
  have hview : setView .executed d s.dataobjectView = some d := rfl
  unfold evaluateFilters
  simp only [if_neg hd.ne', if_neg (not_lt.mpr hd.le), hview]
  rfl

/-- The first ten are posted. -/
theorem evaluateDataObjects_posted (eventType : ℤ) :
    (evaluateDataObjects env .executed eventType s).2.posted =
      if reportedFor env s eventType = [] then []
      else [.filter eventType ((reportedFor env s eventType).take 10)] := by
  have hview : setView .executed 0 s.dataobjectView = some 0 := rfl
  have hselect : ∀ q : ℤ → List FilterMatch,
      select .executed (some 0) (fun limit => some (q limit)) = some (q 0, true) := fun _ => rfl
  have hgather := @gather_eq_take _ FilterMatch
    (fun m => getDataObjectFromRowId env s.db s.files m.dataobject_rowid) (fun n => n = 10) 10
    (fun _ _ => rfl) (eventRows env s eventType) 0 (Nat.succ_pos 9)
  have hnil : (reportedFor env s eventType).take 10 = [] ↔ reportedFor env s eventType = [] := by
    rw [List.take_eq_nil_iff, or_iff_right (Nat.succ_ne_zero 9)]
  rw [Nat.sub_zero] at hgather
  unfold evaluateDataObjects
  simp only [hview, hselect, Bool.or_true, if_true]
  refine (if_congr (by rw [← hnil, reportedFor, ← hgather]; rfl) rfl ?_)
  rw [reportedFor, ← hgather]
  rfl

theorem ratio_pos_iff (h : Kept s.db) {f : FilterRow} (hf : f ∈ s.db.filters) {d : ℤ}
    (hs : Shares s.db f d) : (rowOf s.db d f).ratio.any (0 < ·) = true ↔
      0 < 100 * countedFor s.db f d / attributesOf s.db f := by
  rw [ratio_rowOf h hf hs, Option.any_some, decide_eq_true_eq, Int.natCast_pos]

/-- If all events are raised, no ratio is lost. -/
theorem ratio_pos_of_raised (h : Kept s.db) (hm : MatchesFilters env s) {f : FilterRow}
    (hf : f ∈ s.db.filters) {d : ℤ} (hd : d ∈ s.db.tables.dataobjects) (hs : Shares s.db f d) :
    0 < 100 * countedFor s.db f d / attributesOf s.db f := by
  have hpos := s.db.tables.dataobjects_pos d hd
  have hperm := @viewRows_perm env s h d hpos.ne'
  have hlen := (hm.raised (DataObject.new [] []) d hd).length_eq
  rw [evaluateFilters_posted _ hpos, List.length_map, List.length_map, filterRows_eq] at hlen
  have hall := List.length_filter_eq_length_iff.mp
    (hlen.trans ((List.length_map _).symm.trans hperm.length_eq.symm))
  rw [← ratio_pos_iff h hf hs]
  refine hall _ (hperm.mem_iff.mpr (List.mem_map_of_mem ?_))
  exact List.mem_filter.mpr ⟨hf, decide_eq_true hs⟩

theorem exact_of_matchesFilters (h : Kept s.db) (hm : MatchesFilters env s) : Exact env s := by
  intro f hf d hs
  have hd : d ∈ s.db.tables.dataobjects := by
    obtain ⟨l, -, hl⟩ := List.countP_pos_iff.mp hs
    obtain ⟨y, hy, -⟩ := List.countP_pos_iff.mp (of_decide_eq_true hl)
    obtain ⟨hy, hyd⟩ := List.mem_filter.mp hy
    exact of_decide_eq_true hyd ▸ h.objects y hy
  have hd0 := (s.db.tables.dataobjects_pos d hd).ne'
  have hrow : rowOf s.db d f ∈ viewRows env s.db d :=
    (mem_viewRows h).mpr ⟨f, hf, d, hs, .inr rfl, rfl⟩
  have hpos := ratio_pos_of_raised h hm hf hd hs
  have hpercent : 100 * countedFor s.db f d / attributesOf s.db f = percent s.db f d := by
    obtain ⟨g, -, hg, -, hratio, -⟩ := hm.row d _ hrow
    obtain rfl : f = g := Option.some.inj hg
    rw [ratio_rowOf h hf hs] at hratio
    exact Int.ofNat_inj.mp (Option.some.inj hratio)
  refine ⟨hpercent, ?_, ?_⟩
  · rw [hpercent, percent] at hpos
    exact (Nat.div_pos_iff.mp hpos).2
  · refine ((hm.reported f hf d hd).mpr ⟨_, List.mem_filter.mpr ⟨hrow, ?_⟩, rfl⟩).2
    exact (ratio_pos_iff h hf hs).mpr hpos

theorem matchesFilters_of_exact (h : Kept s.db) (he : Exact env s) : MatchesFilters env s := by
  have hattributes : ∀ {f d}, Shares s.db f d → 0 < attributesOf s.db f := fun hs =>
    lt_of_lt_of_le hs List.countP_le_length
  have hratio : ∀ {f}, f ∈ s.db.filters → ∀ {d}, Shares s.db f d →
      (rowOf s.db d f).ratio.any (0 < ·) = true := by
    intro f hf d hs
    obtain ⟨hpercent, hle, -⟩ := he f hf d hs
    rw [ratio_pos_iff h hf hs, hpercent]
    exact Nat.div_pos hle (hattributes hs)
  refine ⟨nodup_viewRows h, ?_, ?_, ?_, evaluateDataObjects_posted, ?_⟩
  · intro limit m hm
    obtain ⟨f, hf, d, hs, -, rfl⟩ := (mem_viewRows h).mp hm
    refine ⟨f, hf, rfl, hs, ?_, ?_⟩
    · rw [ratio_rowOf h hf hs, (he f hf d hs).1]
      rfl
    · rw [percent]
      exact Nat.div_le_of_le_mul (by
        rw [Nat.mul_comm]
        exact Nat.mul_le_mul_right _ List.countP_le_length)
  · exact fun f hf d hs limit hlimit =>
      ⟨rowOf s.db d f, (mem_viewRows h).mpr ⟨f, hf, d, hs, hlimit, rfl⟩, rfl, rfl⟩
  · intro dObj d hd
    have hpos := s.db.tables.dataobjects_pos d hd
    have hperm := @viewRows_perm env s h d hpos.ne'
    have hall : filterRows env s.db d = viewRows env s.db d := by
      rw [filterRows_eq, List.filter_eq_self]
      intro m hm
      obtain ⟨f, hf, d', hs, -, rfl⟩ := (mem_viewRows h).mp hm
      exact hratio hf hs
    rw [evaluateFilters_posted dObj hpos, hall]
    refine (hperm.map _).trans ?_
    rw [List.map_map]
    exact List.Perm.refl _
  · intro f hf d hd
    have hd0 := (s.db.tables.dataobjects_pos d hd).ne'
    constructor
    · rintro ⟨⟨m, hm, rfl⟩, -⟩
      obtain ⟨hm, hevent⟩ := List.mem_filter.mp hm
      obtain ⟨hm, hpos⟩ := List.mem_filter.mp hm
      obtain ⟨g, hg, d, hs, -, rfl⟩ := (mem_viewRows h).mp hm
      obtain rfl : g = f := List.inj_on_of_nodup_map h.events_nodup hg hf (by
        rw [rowOf, Option.any_some] at hevent
        exact of_decide_eq_true hevent)
      exact ⟨_, List.mem_filter.mpr ⟨(mem_viewRows h).mpr ⟨g, hg, d, hs, .inr rfl, rfl⟩, hpos⟩, rfl⟩
    · rintro ⟨m, hm, hmf⟩
      obtain ⟨hm, hpos⟩ := List.mem_filter.mp hm
      obtain ⟨g, hg, d', hs, hlimit, rfl⟩ := (mem_viewRows h).mp hm
      obtain rfl := hlimit.resolve_left hd0
      obtain rfl : g = f := Option.some.inj hmf
      have hrow : rowOf s.db d g ∈ filterRows env s.db 0 :=
        List.mem_filter.mpr ⟨(mem_viewRows h).mpr ⟨g, hg, d, hs, .inl rfl, rfl⟩, hpos⟩
      refine ⟨⟨_, List.mem_filter.mpr ⟨hrow, ?_⟩, rfl⟩, (he g hg d hs).2.2⟩
      rw [rowOf, Option.any_some]
      exact decide_eq_true rfl

/-- Each attribute of the filter that the data object has is an attribute of no other filter, and is
similar to one attribute of the data object. -/
def Single (db : Database) (f : FilterRow) (d : ℤ) : Prop :=
  ∀ x ∈ linksOf db.filterAttributes f,
    0 < hits db.dataobjectAttributes db.attributes x.attr_rowid d →
      uses db.filterAttributes x.attr_rowid = 1 ∧
        hits db.dataobjectAttributes db.attributes x.attr_rowid d = 1

/-- With at most a hundred attributes, the division hides nothing that is counted too much. -/
theorem percent_eq_iff_single {db : Database} {f : FilterRow} {d : ℤ} (hs : Shares db f d)
    (hle : attributesOf db f ≤ 100) :
    100 * countedFor db f d / attributesOf db f = percent db f d ↔ Single db f d := by
  have huses : ∀ x ∈ linksOf db.filterAttributes f, 0 < uses db.filterAttributes x.attr_rowid :=
    fun x hx => List.countP_pos_iff.mpr ⟨x, List.mem_of_mem_filter hx, decide_eq_true rfl⟩
  obtain ⟨hmore, hiff⟩ := @sum_eq_countP_iff _ (linksOf db.filterAttributes f)
    (fun x => 0 < hits db.dataobjectAttributes db.attributes x.attr_rowid d)
    (fun x => uses db.filterAttributes x.attr_rowid *
      hits db.dataobjectAttributes db.attributes x.attr_rowid d) (by
      intro x hx
      split_ifs with hhits
      · exact Nat.mul_pos (huses x hx) (of_decide_eq_true hhits)
      · exact Nat.zero_le _)
  have hsum : countedFor db f d = matchedBy db f d ↔ Single db f d := by
    refine hiff.trans (forall₂_congr fun x hx => ?_)
    by_cases hhits : 0 < hits db.dataobjectAttributes db.attributes x.attr_rowid d
    · rw [if_pos (decide_eq_true hhits)]
      refine ⟨fun h _ => ⟨Nat.eq_one_of_mul_eq_one_right h, Nat.eq_one_of_mul_eq_one_left h⟩,
        fun h => ?_⟩
      rw [(h hhits).1, (h hhits).2]
    · rw [if_neg (by simpa using hhits), Nat.eq_zero_of_not_pos hhits, Nat.mul_zero]
      exact ⟨fun _ h => absurd h (lt_irrefl 0), fun _ => rfl⟩
  have hpos : 0 < attributesOf db f := lt_of_lt_of_le hs List.countP_le_length
  have hcounted : matchedBy db f d ≤ countedFor db f d := hmore
  rw [← hsum, percent]
  constructor
  · intro heq
    by_contra hne
    have hlt : matchedBy db f d + 1 ≤ countedFor db f d := by omega
    have hstep : 100 * matchedBy db f d / attributesOf db f + 1 ≤
        100 * countedFor db f d / attributesOf db f := by
      rw [← Nat.add_div_right _ hpos]
      exact Nat.div_le_div_right (by omega)
    omega
  · exact fun heq => by rw [heq]

/-- The view and the evaluation in both directions do what they should just if the rows that are
counted too much are lost in the division, nothing else is, and the data objects can be made of
their rows; and for a filter with at most a hundred attributes the first of these says that nothing
is counted too much. -/
theorem matchesFilters_iff (h : Kept s.db) :
    (MatchesFilters env s ↔ Exact env s) ∧
      ∀ f d, Shares s.db f d → attributesOf s.db f ≤ 100 →
        (100 * countedFor s.db f d / attributesOf s.db f = percent s.db f d ↔ Single s.db f d) :=
  ⟨⟨exact_of_matchesFilters h, matchesFilters_of_exact h⟩, fun _ _ => percent_eq_iff_single⟩

end Evaluation

end StoreQueries

namespace Sample

open Matching StoreQueries

/-- Two filters for the same attribute, which a data object has. -/
def sharedFilters : Database :=
  { delegateTables with
    dataobjectAttributes := [⟨1, 1⟩]
    filters := [⟨1, 30, 1⟩, ⟨2, 31, 1⟩]
    filterAttributes := [⟨1, 1⟩, ⟨2, 1⟩] }

def sharedStart : State := ⟨sharedFilters, some 0, some 0, bareKernel, emptyDisk⟩

theorem kept_sharedFilters : Kept sharedFilters where
  attributes_nodup := by decide
  filters_nodup := by decide
  events_nodup := by decide
  links_nodup := by decide
  owner := by decide
  count := by decide
  objects := by decide

/-- Both filters are in the view with 200 percent. -/
theorem not_matchesFilters_shared : ¬ MatchesFilters delegateEnvironment sharedStart := by
  intro h
  have hrow : ((viewRows delegateEnvironment sharedFilters 1).any fun m =>
      m.ratio = some 200) = true := by decide
  obtain ⟨m, hm, hratio⟩ := List.any_eq_true.mp hrow
  obtain ⟨f, -, -, -, hpercent, hle⟩ := h.row 1 m hm
  rw [of_decide_eq_true hratio] at hpercent
  have hlarge : percent sharedStart.db f m.dataobject_rowid = 200 :=
    (Int.ofNat_inj.mp (Option.some.inj hpercent)).symm
  omega

/-- The two filters keep the tables in order all the same. -/
theorem matchesFilters_iff_shared :
    MatchesFilters delegateEnvironment sharedStart ↔ Exact delegateEnvironment sharedStart :=
  (matchesFilters_iff kept_sharedFilters).1

end Sample
end Haggle
