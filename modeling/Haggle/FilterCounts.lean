import Haggle.StoreQueries

/-!
# What the view of matching filters counts

The view joins the attributes of a data object with the similar attributes of all filters and those
with the filters they belong to. So an attribute of a filter is counted once for each filter that
has it, this one or another, and once for each attribute of the data object that is similar to it.
-/

namespace Haggle
namespace Matching

open Relational

section Counts

variable (da : List DataobjectAttribute) (attrs : List AttributeRow) (fa : List FilterAttribute)

def attributeOf (attr_rowid : ℤ) : Option AttributeRow :=
  attrs.find? fun a => a.rowid = attr_rowid

/-- An attribute of a filter and one that it is similar to. -/
def similar (a b : ℤ) : Bool :=
  (attributeOf attrs a).any fun x => (attributeOf attrs b).any fun y =>
    x.name = y.name && (x.value = y.value || x.value = wildcard)

/-- The attributes of a filter. -/
def linksOf (f : FilterRow) : List FilterAttribute := fa.filter fun x => x.filter_rowid = f.rowid

/-- How many filters have an attribute. -/
def uses (attr_rowid : ℤ) : ℕ := fa.countP fun x => x.attr_rowid = attr_rowid

/-- How many attributes of a data object an attribute of a filter is similar to. -/
def hits (attr_rowid dataobject_rowid : ℤ) : ℕ :=
  (da.filter fun d => d.dataobject_rowid = dataobject_rowid).countP fun d =>
    similar attrs attr_rowid d.attr_rowid

/-- The rows that are counted for a filter and a data object. -/
def counted (f : FilterRow) (d : ℤ) : ℕ :=
  ((linksOf fa f).map fun x => uses fa x.attr_rowid * hits da attrs x.attr_rowid d).sum

/-- The attributes of the filter that the data object has. -/
def matched (f : FilterRow) (d : ℤ) : ℕ :=
  (linksOf fa f).countP fun x => 0 < hits da attrs x.attr_rowid d

end Counts

/-- What the constraints and the triggers of the tables are for. -/
structure Consistent (attrs : List AttributeRow) (fa : List FilterAttribute)
    (filters : List FilterRow) : Prop where
  attributes_nodup : (attrs.map AttributeRow.rowid).Nodup
  filters_nodup : (filters.map FilterRow.rowid).Nodup
  events_nodup : (filters.map FilterRow.event).Nodup
  links_nodup : fa.Nodup
  owner : ∀ x ∈ fa, ∃ f ∈ filters, f.rowid = x.filter_rowid
  count : ∀ f ∈ filters, f.num_attributes = (linksOf fa f).length

section Join

variable {da : List DataobjectAttribute} {attrs : List AttributeRow} {fa : List FilterAttribute}
  {filters : List FilterRow} (h : Consistent attrs fa filters)

/-- The filters of an attribute. -/
def has (fa : List FilterAttribute) (f : FilterRow) (attr_rowid : ℤ) : Bool :=
  fa.any fun x => x.filter_rowid = f.rowid && x.attr_rowid = attr_rowid

include h

theorem relevant_eq : (filterRelevantAttributes fa attrs).filterMap id =
    fa.filterMap fun x => attributeOf attrs x.attr_rowid := by
  have hfilter : ∀ k : ℤ, attrs.filter (fun a => k = a.rowid) =
      (attributeOf attrs k).toList := by
    intro k
    rw [attributeOf, ← filter_eq_toList_find? AttributeRow.rowid h.attributes_nodup]
    congr 1
    funext a
    exact decide_eq_decide.mpr eq_comm
  unfold filterRelevantAttributes leftJoin
  clear h
  induction fa with
  | nil => rfl
  | cons x fa ih =>
    rw [List.flatMap_cons, List.map_append, List.filterMap_append, ih, hfilter]
    cases hx : attributeOf attrs x.attr_rowid with
    | none => simp [hx]
    | some a => simp [hx]

omit h in
theorem attributeOf_rowid {k : ℤ} {a : AttributeRow} (ha : attributeOf attrs k = some a) :
    a.rowid = k := by simpa using List.find?_some ha

/-- The pairs of similar attributes, one for each link of a filter. -/
theorem countP_similarAttributes (q : ℤ → Bool) (y : ℤ) :
    (similarAttributes fa attrs).countP (fun x => y = x.2 && q x.1) =
      fa.countP fun x => q x.attr_rowid && similar attrs x.attr_rowid y := by
  have hinner : ∀ a : AttributeRow, (attrs.countP fun b =>
      (a.name = b.name && (a.value = b.value || a.value = wildcard)) &&
        (y = b.rowid && q a.rowid)) = if q a.rowid && (attributeOf attrs y).any (fun b =>
          a.name = b.name && (a.value = b.value || a.value = wildcard)) then 1 else 0 := by
    intro a
    cases q a.rowid with
    | false => simp
    | true =>
      rw [Bool.true_and, attributeOf, ← countP_key AttributeRow.rowid h.attributes_nodup y]
      congr 1
      funext b
      rw [Bool.and_true, decide_eq_decide.mpr (@eq_comm _ y b.rowid)]
  rw [similarAttributes, List.countP_map]
  refine (countP_innerJoin _ _ _ _).trans ?_
  simp only [Function.comp_apply, hinner]
  rw [sum_indicator, relevant_eq h, List.countP_filterMap]
  refine List.countP_congr fun x _ => ?_
  rw [similar]
  cases hx : attributeOf attrs x.attr_rowid with
  | none => simp
  | some a =>
    rw [Option.map_some, Option.getD_some, attributeOf_rowid hx]
    rfl

omit h in
/-- The links between filters and data objects that the view counts. -/
theorem matchFiltersAndDataobjects_eq (plan : FilterPlan) :
    ∃ links : List FilterLink,
      links.Perm ((leftJoin (fun x f => x.2.any fun l => l.filter_rowid = f.rowid)
        (leftJoin (fun x f => f.attr_rowid = x.2.1)
          (innerJoin (fun d x => d.attr_rowid = x.2) da (similarAttributes fa attrs)) fa)
        filters).map fun x => ⟨x.2, x.1.1.1.dataobject_rowid⟩) ∧
      matchFiltersAndDataobjects plan da attrs fa filters =
        (groupKeys FilterLink.key links).map fun k =>
          ⟨(group FilterLink.key links k).head?.bind FilterLink.filter,
            (group FilterLink.key links k).length, k.2⟩ :=
  ⟨_, plan.perm _, rfl⟩

omit h in
theorem has_iff {f : FilterRow} {k : ℤ} : has fa f k = true ↔ ⟨f.rowid, k⟩ ∈ fa := by
  rw [has, List.any_eq_true]
  constructor
  · rintro ⟨⟨r, a⟩, hx, hxa⟩
    rw [Bool.and_eq_true, decide_eq_true_eq, decide_eq_true_eq] at hxa
    obtain ⟨rfl, rfl⟩ := hxa
    exact hx
  · exact fun hx => ⟨_, hx, by simp⟩

/-- A filter has an attribute once. -/
theorem countP_has (f : FilterRow) (k : ℤ) (c : Bool) :
    fa.countP (fun x => x.attr_rowid = k && (x.filter_rowid = f.rowid && c)) =
      if has fa f k && c then 1 else 0 := by
  cases c with
  | false => simp
  | true =>
    have hcount : fa.countP (fun x => x.attr_rowid = k && (x.filter_rowid = f.rowid && true)) =
        fa.count ⟨f.rowid, k⟩ := by
      rw [List.count]
      congr 1
      funext x
      obtain ⟨r, a⟩ := x
      rw [Bool.eq_iff_iff]
      simp [and_comm]
    rw [hcount, h.links_nodup.count]
    simp only [Bool.and_true, has_iff]

/-- A link belongs to one filter. -/
theorem countP_filter {f : FilterRow} (hf : f ∈ filters) (x : Option FilterAttribute) (c : Bool) :
    filters.countP (fun g => x.any (fun l => l.filter_rowid = g.rowid) &&
      (g.rowid = f.rowid && c)) =
        if x.any (fun l => l.filter_rowid = f.rowid) && c then 1 else 0 := by
  have hcount : filters.countP (fun g => x.any (fun l => l.filter_rowid = g.rowid) &&
      (g.rowid = f.rowid && c)) = filters.countP fun g =>
        (x.any (fun l => l.filter_rowid = g.rowid) && c) && g.rowid = f.rowid := by
    congr 1
    funext g
    rw [Bool.and_assoc, Bool.and_comm c]
  rw [hcount, countP_key FilterRow.rowid h.filters_nodup,
    find?_key FilterRow.rowid h.filters_nodup hf]
  rfl

/-- The rows that a filter and a data object are counted with, in the order of the join. -/
theorem countP_links {f : FilterRow} (hf : f ∈ filters) (d : ℤ) :
    ((leftJoin (fun x f => x.2.any fun l => l.filter_rowid = f.rowid)
        (leftJoin (fun x f => f.attr_rowid = x.2.1)
          (innerJoin (fun d x => d.attr_rowid = x.2) da (similarAttributes fa attrs)) fa)
        filters).map fun x => (⟨x.2, x.1.1.1.dataobject_rowid⟩ : FilterLink)).countP
      (fun l => l.key = (some f.rowid, d)) =
        ((da.filter fun y => y.dataobject_rowid = d).map fun y =>
          fa.countP fun x => has fa f x.attr_rowid &&
            similar attrs x.attr_rowid y.attr_rowid).sum := by
  rw [List.countP_map]
  -- The filters of the links, then the links of the similar attributes, then these.
  refine (countP_leftJoin _ _ _ fun x => by simp [FilterLink.key]).trans ?_
  have hfilters : ∀ x : ((DataobjectAttribute × (ℤ × ℤ)) × Option FilterAttribute),
      filters.countP (fun g => (x.2.any fun l => l.filter_rowid = g.rowid) &&
        ((fun l : FilterLink => decide (l.key = (some f.rowid, d))) ∘
          fun x : ((DataobjectAttribute × (ℤ × ℤ)) × Option FilterAttribute) × Option FilterRow =>
            ⟨x.2, x.1.1.1.dataobject_rowid⟩) (x, some g)) =
        if (x.2.any fun l => l.filter_rowid = f.rowid) && x.1.1.dataobject_rowid = d then 1
        else 0 := by
    intro x
    rw [← countP_filter h hf]
    congr 1
    funext g
    simp [FilterLink.key]
  simp only [hfilters]
  rw [sum_indicator]
  refine (countP_leftJoin _ _ _ fun x => by simp).trans ?_
  have hlinks : ∀ y : DataobjectAttribute × (ℤ × ℤ),
      fa.countP (fun l => l.attr_rowid = y.2.1 &&
        ((some l).any (fun l => l.filter_rowid = f.rowid) && y.1.dataobject_rowid = d)) =
          if has fa f y.2.1 && y.1.dataobject_rowid = d then 1 else 0 :=
    fun y => countP_has h f y.2.1 _
  simp only [hlinks]
  rw [sum_indicator]
  refine (countP_innerJoin _ _ _ _).trans ?_
  rw [sum_filter]
  congr 1
  refine List.map_congr_left fun y _ => ?_
  by_cases hy : y.dataobject_rowid = d
  · rw [if_pos (decide_eq_true hy), ← countP_similarAttributes h]
    congr 1
    funext x
    rw [decide_eq_true hy, Bool.and_true]
  · rw [if_neg (by simpa using hy)]
    simp [hy]

/-- The rows by the attributes of the filter. -/
theorem sum_counted (f : FilterRow) (d : ℤ) :
    ((da.filter fun y => y.dataobject_rowid = d).map fun y =>
      fa.countP fun x => has fa f x.attr_rowid && similar attrs x.attr_rowid y.attr_rowid).sum =
        counted da attrs fa f d := by
  have hlink : ∀ x : FilterAttribute, (if has fa f x.attr_rowid then
      hits da attrs x.attr_rowid d else 0) = ((linksOf fa f).map fun l =>
        if l.attr_rowid = x.attr_rowid then hits da attrs x.attr_rowid d else 0).sum := by
    intro x
    have hone := countP_has h f x.attr_rowid true
    simp only [Bool.and_true] at hone
    have hcount : (linksOf fa f).countP (fun l => l.attr_rowid = x.attr_rowid) =
        if has fa f x.attr_rowid then 1 else 0 := List.countP_filter.trans hone
    have hsum := sum_ite_const (linksOf fa f) (fun l => decide (l.attr_rowid = x.attr_rowid))
      (hits da attrs x.attr_rowid d)
    simp only [decide_eq_true_eq] at hsum
    rw [hsum, hcount]
    split_ifs <;> simp
  have huses : ∀ l : FilterAttribute, (fa.map fun x =>
      if l.attr_rowid = x.attr_rowid then hits da attrs x.attr_rowid d else 0).sum =
        uses fa l.attr_rowid * hits da attrs l.attr_rowid d := by
    intro l
    rw [uses, ← sum_ite_const]
    congr 1
    refine List.map_congr_left fun x _ => ?_
    by_cases hx : l.attr_rowid = x.attr_rowid
    · rw [if_pos hx, if_pos (by simpa using hx.symm), hx]
    · rw [if_neg hx, if_neg (by simpa using fun hx' : _ = _ => hx hx'.symm)]
  calc ((da.filter fun y => y.dataobject_rowid = d).map fun y =>
        fa.countP fun x => has fa f x.attr_rowid &&
          similar attrs x.attr_rowid y.attr_rowid).sum
      = ((da.filter fun y => y.dataobject_rowid = d).map fun y =>
          (fa.map fun x => if has fa f x.attr_rowid &&
            similar attrs x.attr_rowid y.attr_rowid then 1 else 0).sum).sum := by
        simp only [sum_indicator]
    _ = (fa.map fun x => ((da.filter fun y => y.dataobject_rowid = d).map fun y =>
          if has fa f x.attr_rowid && similar attrs x.attr_rowid y.attr_rowid then 1
          else 0).sum).sum := sum_swap _ _ _
    _ = (fa.map fun x =>
          if has fa f x.attr_rowid then hits da attrs x.attr_rowid d else 0).sum := by
        congr 1
        refine List.map_congr_left fun x _ => ?_
        rw [sum_indicator]
        cases has fa f x.attr_rowid with
        | false => simp
        | true => rfl
    _ = (fa.map fun x => ((linksOf fa f).map fun l =>
          if l.attr_rowid = x.attr_rowid then hits da attrs x.attr_rowid d else 0).sum).sum := by
        simp only [hlink]
    _ = ((linksOf fa f).map fun l => (fa.map fun x =>
          if l.attr_rowid = x.attr_rowid then hits da attrs x.attr_rowid d else 0).sum).sum :=
        sum_swap _ _ _
    _ = counted da attrs fa f d := by simp only [huses, counted]

theorem exists_link_of_similar {x : ℤ × ℤ} (hx : x ∈ similarAttributes fa attrs) :
    ∃ l ∈ fa, l.attr_rowid = x.1 := by
  obtain ⟨⟨a, b⟩, hab, rfl⟩ := List.mem_map.mp hx
  obtain ⟨ha, -, -⟩ := mem_innerJoin.mp hab
  rw [relevant_eq h] at ha
  obtain ⟨l, hl, hla⟩ := List.mem_filterMap.mp ha
  exact ⟨l, hl, (attributeOf_rowid hla).symm⟩

/-- No row of the join is without a filter. -/
theorem exists_filter_of_mem {l : FilterLink}
    (hl : l ∈ (leftJoin (fun x f => x.2.any fun l => l.filter_rowid = f.rowid)
      (leftJoin (fun x f => f.attr_rowid = x.2.1)
        (innerJoin (fun d x => d.attr_rowid = x.2) da (similarAttributes fa attrs)) fa)
      filters).map fun x => (⟨x.2, x.1.1.1.dataobject_rowid⟩ : FilterLink)) :
    ∃ f ∈ filters, l.filter = some f := by
  obtain ⟨⟨⟨y, link⟩, filter⟩, hx, rfl⟩ := List.mem_map.mp hl
  cases filter with
  | some f => exact ⟨f, (mem_leftJoin_some hx).2.1, rfl⟩
  | none =>
    obtain ⟨hy, hnone⟩ := filter_of_mem_leftJoin_none hx
    cases link with
    | some l =>
      obtain ⟨f, hf, hfl⟩ := h.owner l (mem_leftJoin_some hy).2.1
      exact absurd (List.filter_eq_nil_iff.mp hnone f hf) (by simp [hfl])
    | none =>
      obtain ⟨hy, hnone⟩ := filter_of_mem_leftJoin_none hy
      obtain ⟨l, hl, hla⟩ := exists_link_of_similar h (mem_innerJoin.mp hy).2.1
      exact absurd (List.filter_eq_nil_iff.mp hnone l hl) (by simp [hla])

/-- The view has one row for a filter and a data object that share an attribute, with what is
counted for them, and no others. -/
theorem matchFiltersAndDataobjects_spec (plan : FilterPlan) :
    ((matchFiltersAndDataobjects plan da attrs fa filters).map fun m =>
        (m.filter.map FilterRow.rowid, m.dataobject_rowid)).Nodup ∧
      ∀ m, m ∈ matchFiltersAndDataobjects plan da attrs fa filters ↔
        ∃ f ∈ filters, ∃ d, 0 < counted da attrs fa f d ∧
          m = ⟨some f, counted da attrs fa f d, d⟩ := by
  obtain ⟨links, hperm, heq⟩ := @matchFiltersAndDataobjects_eq da attrs fa filters plan
  have hfilter : ∀ l ∈ links, ∃ f ∈ filters, l.filter = some f := fun l hl =>
    exists_filter_of_mem h (hperm.mem_iff.mp hl)
  have hlength : ∀ f ∈ filters, ∀ d, (group FilterLink.key links (some f.rowid, d)).length =
      counted da attrs fa f d := by
    intro f hf d
    rw [group, ← List.countP_eq_length_filter, hperm.countP_eq, countP_links h hf,
      sum_counted h]
  -- The first link of a group has the filter of the key.
  have hhead : ∀ k ∈ groupKeys FilterLink.key links, ∃ f ∈ filters, k = (some f.rowid, k.2) ∧
      (group FilterLink.key links k).head?.bind FilterLink.filter = some f := by
    intro k hk
    rw [mem_groupKeys] at hk
    obtain ⟨l, rest, hl⟩ := List.exists_cons_of_ne_nil hk
    have hmem : l ∈ group FilterLink.key links k := hl ▸ List.mem_cons_self
    obtain ⟨hlinks, hkey⟩ := List.mem_filter.mp hmem
    obtain ⟨f, hf, hlf⟩ := hfilter l hlinks
    refine ⟨f, hf, ?_, ?_⟩
    · rw [← of_decide_eq_true hkey, FilterLink.key, hlf]
      rfl
    · rw [hl]
      exact hlf
  constructor
  · have hkeys : (matchFiltersAndDataobjects plan da attrs fa filters).map (fun m =>
        (m.filter.map FilterRow.rowid, m.dataobject_rowid)) = groupKeys FilterLink.key links := by
      rw [heq, List.map_map]
      refine (List.map_congr_left fun k hk => ?_).trans (List.map_id _)
      obtain ⟨f, hf, hkf, hfirst⟩ := hhead k hk
      simp only [Function.comp_apply, hfirst]
      exact hkf.symm
    rw [hkeys]
    exact List.nodup_dedup _
  · intro m
    rw [heq, List.mem_map]
    constructor
    · rintro ⟨k, hk, rfl⟩
      obtain ⟨f, hf, hkf, hfirst⟩ := hhead k hk
      have hlen := hlength f hf k.2
      rw [← hkf] at hlen
      refine ⟨f, hf, k.2, ?_, by rw [hfirst, hlen]⟩
      rw [← hlen]
      exact List.length_pos_of_ne_nil ((mem_groupKeys _).mp hk)
    · rintro ⟨f, hf, d, hpos, rfl⟩
      have hlen := hlength f hf d
      have hk : (some f.rowid, d) ∈ groupKeys FilterLink.key links :=
        (mem_groupKeys _).mpr (List.ne_nil_of_length_pos (hlen ▸ hpos))
      obtain ⟨g, hg, hkg, hfirst⟩ := hhead _ hk
      have hfg : f = g := List.inj_on_of_nodup_map h.filters_nodup hf hg
        (Option.some.inj (congrArg Prod.fst hkg))
      exact ⟨_, hk, by rw [hfirst, hlen, hfg]⟩

omit h in
/-- An attribute that is matched is counted at least once. -/
theorem counted_pos_iff {f : FilterRow} {d : ℤ} :
    0 < counted da attrs fa f d ↔ 0 < matched da attrs fa f d := by
  rw [counted, matched, List.sum_pos_iff_exists_pos_nat, List.countP_pos_iff]
  constructor
  · rintro ⟨_, hmem, hpos⟩
    obtain ⟨l, hl, rfl⟩ := List.mem_map.mp hmem
    exact ⟨l, hl, decide_eq_true (Nat.pos_of_mul_pos_left hpos)⟩
  · rintro ⟨l, hl, hpos⟩
    have huses : 0 < uses fa l.attr_rowid :=
      List.countP_pos_iff.mpr ⟨l, List.mem_of_mem_filter hl, decide_eq_true rfl⟩
    exact ⟨_, List.mem_map_of_mem hl, Nat.mul_pos huses (of_decide_eq_true hpos)⟩

omit h in
theorem hits_limited (limit k d : ℤ) :
    hits (limitedDataobjects limit da) attrs k d =
      if limit = 0 ∨ limit = d then hits da attrs k d else 0 := by
  unfold hits limitedDataobjects
  by_cases hzero : limit = 0
  · rw [if_pos hzero, if_pos (.inl hzero)]
  · rw [if_neg hzero, List.filter_filter]
    by_cases hd : limit = d
    · rw [if_pos (.inr hd), hd]
      congr 1
      refine List.filter_congr fun y _ => ?_
      rw [Bool.and_self]
    · have hnil : (da.filter fun y => decide (y.dataobject_rowid = d) &&
          decide (y.dataobject_rowid = limit)) = [] := by
        rw [List.filter_eq_nil_iff]
        intro y _ hy
        rw [Bool.and_eq_true, decide_eq_true_eq, decide_eq_true_eq] at hy
        exact hd (hy.2.symm.trans hy.1)
      rw [if_neg (by tauto), hnil, List.countP_nil]

omit h in
theorem counted_limited (limit : ℤ) (f : FilterRow) (d : ℤ) :
    counted (limitedDataobjects limit da) attrs fa f d =
      if limit = 0 ∨ limit = d then counted da attrs fa f d else 0 := by
  unfold counted
  simp only [hits_limited]
  by_cases hlimit : limit = 0 ∨ limit = d
  · simp only [if_pos hlimit]
  · simp [if_neg hlimit]

end Join

end Matching
end Haggle
