import Haggle.Bytes
import Haggle.Matching

/-!
# Matching filters and data objects

A filter is a row with attributes of its own. An attribute of a data object is similar to one of a
filter if it is the same, or if the filter has a wildcard for its value. The view for matching joins
the attributes of the data objects, limited or not, with the similar attributes and the filters they
belong to, and counts the rows of each filter and data object.
-/

namespace Haggle
namespace Matching

open Relational

structure FilterRow where
  rowid : ℤ
  event : ℤ
  num_attributes : ℤ
deriving DecidableEq

structure FilterAttribute where
  filter_rowid : ℤ
  attr_rowid : ℤ
deriving DecidableEq

structure AttributeRow where
  rowid : ℤ
  name : Bytes
  value : Bytes
deriving DecidableEq

/-- `ATTR_WILDCARD`. -/
def wildcard : Bytes := lit "*"

/-- `VIEW_FILTERRELEVANT_ATTRIBUTES`. An attribute of two filters is there twice. -/
def filterRelevantAttributes (fa : List FilterAttribute) (attrs : List AttributeRow) :
    List (Option AttributeRow) :=
  (leftJoin (fun f a => f.attr_rowid = a.rowid) fa attrs).map Prod.snd

/-- `VIEW_SIMILAR_ATTRIBUTES`: the columns `a_rowid` and `b_rowid`. -/
def similarAttributes (fa : List FilterAttribute) (attrs : List AttributeRow) : List (ℤ × ℤ) :=
  (innerJoin (fun (a b : AttributeRow) =>
      a.name = b.name && (a.value = b.value || a.value = wildcard))
    ((filterRelevantAttributes fa attrs).filterMap id) attrs).map fun x => (x.1.rowid, x.2.rowid)

/-- A row of the join: the filter, if there is one, and the data object. -/
structure FilterLink where
  filter : Option FilterRow
  dataobject_rowid : ℤ
deriving DecidableEq

def FilterLink.key (l : FilterLink) : Option ℤ × ℤ :=
  (l.filter.map FilterRow.rowid, l.dataobject_rowid)

/-- The order in which the statement goes through the rows of the join. -/
structure FilterPlan where
  order : List FilterLink → List FilterLink
  perm : ∀ l, (order l).Perm l

structure FilterMatch where
  filter : Option FilterRow
  fmcount : ℕ
  dataobject_rowid : ℤ
deriving DecidableEq

/-- `VIEW_MATCH_FILTERS_AND_DATAOBJECTS`. -/
def matchFiltersAndDataobjects (plan : FilterPlan) (da : List DataobjectAttribute)
    (attrs : List AttributeRow) (fa : List FilterAttribute) (filters : List FilterRow) :
    List FilterMatch :=
  let similar := innerJoin (fun d x => d.attr_rowid = x.2) da (similarAttributes fa attrs)
  let linked := leftJoin (fun x f => f.attr_rowid = x.2.1) similar fa
  let rows := leftJoin (fun x f => x.2.any fun l => l.filter_rowid = f.rowid) linked filters
  let links := plan.order (rows.map fun x => ⟨x.2, x.1.1.1.dataobject_rowid⟩)
  (groupKeys FilterLink.key links).map fun k =>
    let g := group FilterLink.key links k
    ⟨g.head?.bind FilterLink.filter, g.length, k.2⟩

/-- `100*fmcount/filter_num_attributes`. -/
def FilterMatch.ratio (m : FilterMatch) : Option ℤ :=
  m.filter.bind fun f =>
    if f.num_attributes = 0 then none else some ((100 * (m.fmcount : ℤ)).tdiv f.num_attributes)

/-- `VIEW_MATCH_FILTERS_AND_DATAOBJECTS_AS_RATIO`. -/
def matchFiltersAndDataobjectsAsRatio (plan : FilterPlan) (da : List DataobjectAttribute)
    (attrs : List AttributeRow) (fa : List FilterAttribute) (filters : List FilterRow) :
    List FilterMatch :=
  orderByDesc (fun m => [m.ratio, m.filter.map FilterRow.num_attributes])
    (matchFiltersAndDataobjects plan da attrs fa filters)

end Matching
end Haggle
