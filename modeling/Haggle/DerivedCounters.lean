import Haggle.FilterCounts
import Haggle.InterfaceOwners
import Haggle.ObjectStore
import Haggle.OwnedLinks
import Mathlib.Data.BitVec

/-!
# Counters of attributes in the data store

Nodes, filters and data objects count their links to attributes in their own rows; the rows of nodes
sum up the weights as well. Triggers keep the counters, and delete the links and the interfaces of
what is deleted. The operations of the data store are runs of statements without a transaction, and
what becomes of each statement is an input.
-/

namespace Haggle
namespace DerivedCounters

open ObjectStore (Ended)
open OwnedLinks
open StoredNode (hasQuote signed)

section Model

structure InterfaceRow where
  type : InterfaceType
  mac : Bytes
  node_rowid : ℤ
deriving DecidableEq

/-- `num_attributes` and `sum_weights` of nodes, `num_attributes` of the others. -/
structure Store where
  nodes : Tables Digest ℤ (ℤ × BitVec 64)
  interfaces : List InterfaceRow
  filters : Tables ℤ ℤ ℤ
  dataobjects : Tables Digest Unit ℤ

def emptyStore : Store := ⟨⟨[], [], 0⟩, [], ⟨[], [], 0⟩, ⟨[], [], 0⟩⟩

/-- What the triggers of a link add to the row of a node. -/
def nodeWorth (weight : ℤ) : ℤ × BitVec 64 := (1, BitVec.ofInt 64 weight)

/-- What they add to the row of a filter or a data object. -/
def one {V : Type} (_ : V) : ℤ := 1

/-- How the statement for the row of an owner ends. With a code that is neither success, nor a
conflict, nor `SQLITE_ERROR` there is no row, and the code takes the number of the row that was
inserted last, into whatever table. -/
inductive Written
  | done
  | error
  | other (last : ℤ)
deriving DecidableEq

/-- What becomes of an attribute: the number that the code takes for its row, none after an error,
and the statement for the link. -/
structure Linking where
  attr_rowid : Option ℤ
  link : Ended

section Links

variable {K V C : Type} [AddCommGroup C] (worth : V → C)

/-- The loop over the attributes. A link that is there already is no error. -/
def linkAll (rowid : ℤ) : List (V × Linking) → Tables K V C → Tables K V C × Bool
  | [], t => (t, true)
  | (v, x) :: l, t =>
    match x.attr_rowid, x.link with
    | none, _ | some _, .error => (t, false)
    | some attr_rowid, .done => linkAll rowid l ((insertLink worth ⟨rowid, attr_rowid, v⟩ t).getD t)
    | some _, .other => linkAll rowid l t

end Links

/-- The attributes in their order, each with what becomes of it. -/
def attempts (attrs : Attributes) (linkings : ℕ → Linking) : List (ℤ × Linking) :=
  attrs.toList.zipIdx.map fun (e, i) => (signed e.2.weight, linkings i)

section Filters

def deleteFilter (d : Ended) (event : ℤ) (s : Store) : Store × Bool :=
  match d with
  | .done => ({ s with filters := deleteWhere one (· = event) s.filters }, true)
  | .error => (s, false)
  | .other => (s, true)

/-- `SQL_DELETE_FILTERS`, when the data store is opened. -/
def deleteFilters (d : Ended) (s : Store) : Store :=
  if d = .done then { s with filters := deleteWhere one (fun _ => true) s.filters } else s

structure FilterCall where
  event : ℤ
  attrs : Attributes
  linkings : ℕ → Linking

/-- `_insertFilter`. A filter with this event is deleted, and then the function calls itself; the
list holds what becomes of the statements in each of these calls. -/
def insertFilter (x : FilterCall) : List (Written × Ended) → Store → Store × Bool
  | [], s => (s, false)
  | (.error, _) :: _, s => (s, false)
  | (.other last, _) :: _, s =>
    let r := linkAll one last (attempts x.attrs x.linkings) s.filters
    ({ s with filters := r.1 }, r.2)
  | (.done, d) :: calls, s =>
    match insertOwner false x.event s.filters with
    | some (rowid, t) =>
      let r := linkAll one rowid (attempts x.attrs x.linkings) t
      ({ s with filters := r.1 }, r.2)
    | none =>
      match deleteFilter d x.event s with
      | (s, false) => (s, false)
      | (s, true) => insertFilter x calls s

end Filters

section Nodes

/-- The row of a node is deleted, and behind it its links and its interfaces. -/
def deleteNodeRow (s : Store) (rowid : ℤ) : Store :=
  { s with
    nodes := deleteOwner nodeWorth s.nodes rowid
    interfaces := s.interfaces.filter (·.node_rowid ≠ rowid) }

def deleteNode (d : Ended) (id : Digest) (s : Store) : Store × Bool :=
  match d with
  | .done => ((rowidsOf (· = id) s.nodes).foldl deleteNodeRow s, true)
  | .error => (s, false)
  | .other => (s, true)

/-- What becomes of the statement for an interface. If its readable form has an apostrophe, the text
behind that decides about the number of the node. -/
structure Attaching where
  ended : Ended
  pasted : ℤ

def insertInterface (node_rowid : ℤ) (i : Interface) (x : Attaching) (l : List InterfaceRow) :
    List InterfaceRow × Bool :=
  match x.ended with
  | .error => (l, false)
  | .other => (l, true)
  | .done =>
    if l.any fun r => r.type = i.type && r.mac = i.identifier then (l, true)
    else (l ++ [⟨i.type, i.identifier, if hasQuote i then x.pasted else node_rowid⟩], true)

def insertInterfaces (node_rowid : ℤ) :
    List (Interface × Attaching) → List InterfaceRow → List InterfaceRow × Bool
  | [], l => (l, true)
  | (i, x) :: is, l =>
    match insertInterface node_rowid i x l with
    | (l, false) => (l, false)
    | (l, true) => insertInterfaces node_rowid is l

structure NodeCall where
  node : Node
  hasDataObject : Bool
  linkings : ℕ → Linking
  attachings : ℕ → Attaching

/-- The attributes and interfaces behind the row of a node. -/
def insertParts (x : NodeCall) (node_rowid : ℤ) (s : Store) : Store × Bool :=
  match linkAll nodeWorth node_rowid (attempts x.node.attrs x.linkings) s.nodes with
  | (t, false) => ({ s with nodes := t }, false)
  | (t, true) =>
    let r := insertInterfaces node_rowid
      (x.node.interfaces.zipIdx.map fun (i, k) => (i, x.attachings k)) s.interfaces
    ({ s with nodes := t, interfaces := r.1 }, r.2)

/-- `_insertNode`. What is deleted if the node is there already is the node that was made of its
row, or the node itself. -/
def insertNode (x : NodeCall) : List (Written × Digest × Ended) → Store → Store × Bool
  | [], s => (s, false)
  | (w, existing, d) :: calls, s =>
    if x.hasDataObject = false ∨ x.node.type = .undefined then (s, false)
    else
      match w with
      | .error => (s, false)
      | .other last => insertParts x last s
      | .done =>
        match insertOwner true x.node.id s.nodes with
        | some (rowid, t) => insertParts x rowid { s with nodes := t }
        | none =>
          match deleteNode d existing s with
          | (s, false) => (s, false)
          | (s, true) => insertNode x calls s

end Nodes

section DataObjects

def deleteDataObject (s : Store) (x : Digest × Ended) : Store :=
  if x.2 = .done then
    { s with dataobjects := deleteWhere one (· = x.1) s.dataobjects }
  else s

/-- One call of `_insertDataObject`: the node descriptions that it deletes first, whether it comes
to the statement for the row, and what becomes of that one and of a deletion. -/
structure ObjectAttempt where
  older : List (Digest × Ended)
  goesOn : Bool
  insert : Written
  delete : Ended

structure ObjectCall where
  id : Digest
  attrs : Attributes
  linkings : ℕ → Linking
  persistent : Bool

/-- The attributes behind the row of a data object, which is removed again if it is not persistent.
-/
def linkDataObject (x : ObjectCall) (d : Ended) (dataobject_rowid : ℤ) (s : Store) : Store × Bool :=
  let r := linkAll one dataobject_rowid
    ((attempts x.attrs x.linkings).map fun (_, l) => ((), l)) s.dataobjects
  let s := { s with dataobjects := r.1 }
  (if r.2 && !x.persistent then deleteDataObject s (x.id, d) else s, r.2)

/-- `_insertDataObject`. -/
def insertDataObject (x : ObjectCall) : List ObjectAttempt → Store → Store × Bool
  | [], s => (s, false)
  | a :: calls, s =>
    let s := a.older.foldl deleteDataObject s
    if a.goesOn then
      match a.insert with
      | .error => (s, false)
      | .other last => linkDataObject x a.delete last s
      | .done =>
        match insertOwner true x.id s.dataobjects with
        | some (rowid, t) => linkDataObject x a.delete rowid { s with dataobjects := t }
        | none =>
          if x.persistent then (s, true)
          else insertDataObject x calls (deleteDataObject s (x.id, a.delete))
    else (s, false)

end DataObjects

section Runs

/-- The operations of the data store that write these tables. -/
inductive Operation
  | insertNode (x : NodeCall) (calls : List (Written × Digest × Ended))
  | deleteNode (d : Ended) (id : Digest)
  | insertFilter (x : FilterCall) (calls : List (Written × Ended))
  | deleteFilter (d : Ended) (event : ℤ)
  | deleteFilters (d : Ended)
  | insertDataObject (x : ObjectCall) (calls : List ObjectAttempt)
  | deleteDataObject (id : Digest) (d : Ended)
  | ageDataObjects (deletes : List (Digest × Ended))

def perform (s : Store) : Operation → Store
  | .insertNode x calls => (DerivedCounters.insertNode x calls s).1
  | .deleteNode d id => (DerivedCounters.deleteNode d id s).1
  | .insertFilter x calls => (DerivedCounters.insertFilter x calls s).1
  | .deleteFilter d event => (DerivedCounters.deleteFilter d event s).1
  | .deleteFilters d => DerivedCounters.deleteFilters d s
  | .insertDataObject x calls => (DerivedCounters.insertDataObject x calls s).1
  | .deleteDataObject id d => DerivedCounters.deleteDataObject s (id, d)
  | .ageDataObjects deletes => deletes.foldl DerivedCounters.deleteDataObject s

/-- The row is inserted, in conflict, or refused with an error that the code looks for. -/
def Written.Known : Written → Prop
  | .other _ => False
  | _ => True

/-- The code sees how the statements for the rows of owners end, and the readable forms of
interfaces have no apostrophes. -/
def Sane : Operation → Prop
  | .insertNode x calls => (∀ c ∈ calls, c.1.Known) ∧ ∀ i ∈ x.node.interfaces, hasQuote i = false
  | .insertFilter _ calls => ∀ c ∈ calls, c.1.Known
  | .insertDataObject _ calls => ∀ c ∈ calls, c.insert.Known
  | _ => True

/-- The links of an owner. -/
def linksOf {K V C : Type} (t : Tables K V C) (o : Owner K C) : List (Link V) :=
  t.links.filter (·.owner = o.rowid)

/-- Counters are the numbers and, in the integers of SQLite, the sums that they stand for, and no
link or interface is one of a row that is not there. -/
structure Derived (s : Store) : Prop where
  nodes : ∀ n ∈ s.nodes.owners, n.counter.1 = (linksOf s.nodes n).length ∧
    n.counter.2 = BitVec.ofInt 64 ((linksOf s.nodes n).map Link.value).sum
  filters : ∀ f ∈ s.filters.owners, f.counter = (linksOf s.filters f).length
  dataobjects : ∀ d ∈ s.dataobjects.owners, d.counter = (linksOf s.dataobjects d).length
  nodeLinks : ∀ l ∈ s.nodes.links, ∃ n ∈ s.nodes.owners, n.rowid = l.owner
  filterLinks : ∀ l ∈ s.filters.links, ∃ f ∈ s.filters.owners, f.rowid = l.owner
  dataobjectLinks : ∀ l ∈ s.dataobjects.links, ∃ d ∈ s.dataobjects.owners, d.rowid = l.owner
  interfaces : ∀ i ∈ s.interfaces, ∃ n ∈ s.nodes.owners, n.rowid = i.node_rowid

end Runs

end Model

section Invariant

/-- What the triggers keep. -/
structure Kept (s : Store) : Prop where
  nodes : Exact nodeWorth s.nodes
  filters : Exact one s.filters
  dataobjects : Exact one s.dataobjects
  interfaces : ∀ i ∈ s.interfaces, ∃ n ∈ s.nodes.owners, n.rowid = i.node_rowid

theorem exact_empty {K V C : Type} [AddCommGroup C] (worth : V → C) :
    Exact worth (⟨[], [], 0⟩ : Tables K V C) where
  rowids := List.nodup_nil
  keys := List.nodup_nil
  links := List.Pairwise.nil
  owned := nofun
  counted := nofun

theorem kept_emptyStore : Kept emptyStore :=
  ⟨exact_empty _, exact_empty _, exact_empty _, nofun⟩

section Links

variable {K V C : Type} [AddCommGroup C] {worth : V → C} {t : Tables K V C} {rowid : ℤ}

/-- The loop over the attributes of an owner keeps the owners. -/
theorem linkAll_exact (h : Exact worth t) (hown : ∃ o ∈ t.owners, o.rowid = rowid)
    (l : List (V × Linking)) : Exact worth (linkAll worth rowid l t).1 ∧
      (linkAll worth rowid l t).1.owners.map Owner.rowid = t.owners.map Owner.rowid := by
  induction l generalizing t with
  | nil => exact ⟨h, rfl⟩
  | cons e l ih =>
    obtain ⟨v, attr, link⟩ := e
    cases attr with
    | none => exact ⟨h, rfl⟩
    | some attr =>
      cases link with
      | error => exact ⟨h, rfl⟩
      | other => exact ih h hown
      | done =>
        have hstep : linkAll worth rowid ((v, ⟨some attr, .done⟩) :: l) t =
            linkAll worth rowid l ((insertLink worth ⟨rowid, attr, v⟩ t).getD t) := rfl
        rw [hstep]
        cases hins : insertLink worth ⟨rowid, attr, v⟩ t with
        | none => exact ih h hown
        | some t' =>
          obtain ⟨h', hrowids⟩ := h.insertLink hown hins
          have hown' : ∃ o ∈ t'.owners, o.rowid = rowid := by
            obtain ⟨o, ho, hrow⟩ := hown
            have hmem : rowid ∈ t'.owners.map Owner.rowid := by
              rw [hrowids, ← hrow]
              exact List.mem_map_of_mem ho
            exact List.mem_map.mp hmem
          obtain ⟨hexact, hrest⟩ := ih h' hown'
          exact ⟨hexact, hrest.trans hrowids⟩

end Links

variable {s : Store}

theorem Kept.deleteFilter (h : Kept s) (d : Ended) (event : ℤ) :
    Kept (deleteFilter d event s).1 := by
  cases d with
  | done => exact ⟨h.nodes, h.filters.deleteWhere _, h.dataobjects, h.interfaces⟩
  | error => exact h
  | other => exact h

theorem Kept.insertFilter {x : FilterCall} {calls : List (Written × Ended)}
    (hknown : ∀ c ∈ calls, c.1.Known) (h : Kept s) : Kept (insertFilter x calls s).1 := by
  induction calls generalizing s with
  | nil => exact h
  | cons c calls ih =>
    obtain ⟨w, d⟩ := c
    rw [List.forall_mem_cons] at hknown
    cases w with
    | error => exact h
    | other last => exact hknown.1.elim
    | done =>
      rw [DerivedCounters.insertFilter]
      cases hins : insertOwner false x.event s.filters with
      | some r =>
        obtain ⟨hexact, hown⟩ := h.filters.insertOwner hins
        exact ⟨h.nodes, (linkAll_exact hexact hown _).1, h.dataobjects, h.interfaces⟩
      | none =>
        have hdelete := h.deleteFilter d x.event
        generalize DerivedCounters.deleteFilter d x.event s = r at hdelete ⊢
        obtain ⟨s', ok⟩ := r
        cases ok with
        | false => exact hdelete
        | true => exact ih hknown.2 hdelete

theorem Kept.deleteNodeRow (h : Kept s) (rowid : ℤ) : Kept (deleteNodeRow s rowid) := by
  refine ⟨h.nodes.deleteOwner rowid, h.filters, h.dataobjects, fun i hi => ?_⟩
  obtain ⟨hi, hne⟩ := List.mem_filter.mp hi
  obtain ⟨n, hn, hrow⟩ := h.interfaces i hi
  have hmem : n ∈ s.nodes.owners.filter (·.rowid ≠ rowid) :=
    List.mem_filter.mpr ⟨hn, by rwa [hrow]⟩
  have hkept : n.rowid ∈ (deleteOwner nodeWorth s.nodes rowid).owners.map Owner.rowid := by
    rw [rowids_deleteOwner]
    exact List.mem_map_of_mem hmem
  obtain ⟨n', hn', heq⟩ := List.mem_map.mp hkept
  exact ⟨n', hn', heq.trans hrow⟩

theorem Kept.deleteNode (h : Kept s) (d : Ended) (id : Digest) : Kept (deleteNode d id s).1 := by
  cases d with
  | error => exact h
  | other => exact h
  | done =>
    change Kept ((rowidsOf (· = id) s.nodes).foldl DerivedCounters.deleteNodeRow s)
    induction rowidsOf (· = id) s.nodes generalizing s with
    | nil => exact h
    | cons r rs ih => exact ih (h.deleteNodeRow r)

theorem insertInterfaces_owned {rowid : ℤ} {is : List (Interface × Attaching)}
    (hquote : ∀ p ∈ is, hasQuote p.1 = false) {l : List InterfaceRow} {P : ℤ → Prop}
    (hrow : P rowid) (hl : ∀ r ∈ l, P r.node_rowid) :
    ∀ r ∈ (insertInterfaces rowid is l).1, P r.node_rowid := by
  induction is generalizing l with
  | nil => exact hl
  | cons p is ih =>
    obtain ⟨i, x⟩ := p
    rw [List.forall_mem_cons] at hquote
    have hstep : ∀ r ∈ (insertInterface rowid i x l).1, P r.node_rowid := by
      unfold insertInterface
      cases x.ended with
      | error => exact hl
      | other => exact hl
      | done =>
        simp only [hquote.1, Bool.false_eq_true, if_false]
        split_ifs
        · exact hl
        · rw [List.forall_mem_append, List.forall_mem_singleton]
          exact ⟨hl, hrow⟩
    rw [insertInterfaces]
    generalize insertInterface rowid i x l = q at hstep ⊢
    obtain ⟨l', ok⟩ := q
    cases ok with
    | false => exact hstep
    | true => exact ih hquote.2 hstep

theorem Kept.insertParts {x : NodeCall} {rowid : ℤ}
    (hquote : ∀ i ∈ x.node.interfaces, hasQuote i = false) (h : Kept s)
    (hown : ∃ n ∈ s.nodes.owners, n.rowid = rowid) : Kept (insertParts x rowid s).1 := by
  obtain ⟨hexact, hrowids⟩ := linkAll_exact h.nodes hown (attempts x.node.attrs x.linkings)
  have hkept : ∀ r, (∃ n ∈ s.nodes.owners, n.rowid = r) →
      ∃ n ∈ (linkAll nodeWorth rowid (attempts x.node.attrs x.linkings) s.nodes).1.owners,
        n.rowid = r := by
    rintro r ⟨n, hn, rfl⟩
    have hmem := List.mem_map_of_mem (f := Owner.rowid) hn
    rw [← hrowids] at hmem
    exact List.mem_map.mp hmem
  rw [DerivedCounters.insertParts]
  generalize linkAll nodeWorth rowid (attempts x.node.attrs x.linkings) s.nodes = r
    at hexact hkept ⊢
  obtain ⟨t, ok⟩ := r
  cases ok with
  | false => exact ⟨hexact, h.filters, h.dataobjects, fun i hi => hkept _ (h.interfaces i hi)⟩
  | true =>
    refine ⟨hexact, h.filters, h.dataobjects, ?_⟩
    refine insertInterfaces_owned (P := fun r => ∃ n ∈ t.owners, n.rowid = r) (fun p hp => ?_)
      (hkept _ hown) fun i hi => hkept _ (h.interfaces i hi)
    obtain ⟨⟨i, k⟩, hi, rfl⟩ := List.mem_map.mp hp
    exact hquote i (List.fst_mem_of_mem_zipIdx hi)

theorem Kept.insertNode {x : NodeCall} {calls : List (Written × Digest × Ended)}
    (hknown : ∀ c ∈ calls, c.1.Known) (hquote : ∀ i ∈ x.node.interfaces, hasQuote i = false)
    (h : Kept s) : Kept (insertNode x calls s).1 := by
  induction calls generalizing s with
  | nil => exact h
  | cons c calls ih =>
    obtain ⟨w, existing, d⟩ := c
    rw [List.forall_mem_cons] at hknown
    unfold DerivedCounters.insertNode
    split_ifs
    · exact h
    · cases w with
      | error => exact h
      | other last => exact hknown.1.elim
      | done =>
        cases hins : insertOwner true x.node.id s.nodes with
        | some r =>
          obtain ⟨hexact, hown⟩ := h.nodes.insertOwner hins
          refine Kept.insertParts hquote ⟨hexact, h.filters, h.dataobjects, fun i hi => ?_⟩ hown
          obtain ⟨n, hn, hrow⟩ := h.interfaces i hi
          exact ⟨n, mem_insertOwner hins hn, hrow⟩
        | none =>
          have hdelete := h.deleteNode d existing
          dsimp only
          generalize DerivedCounters.deleteNode d existing s = r at hdelete ⊢
          obtain ⟨s', ok⟩ := r
          cases ok with
          | false => exact hdelete
          | true => exact ih hknown.2 hdelete

theorem Kept.deleteDataObject (h : Kept s) (x : Digest × Ended) : Kept (deleteDataObject s x) := by
  unfold DerivedCounters.deleteDataObject
  split_ifs
  · exact ⟨h.nodes, h.filters, h.dataobjects.deleteWhere _, h.interfaces⟩
  · exact h

theorem Kept.deleteDataObjects (h : Kept s) (l : List (Digest × Ended)) :
    Kept (l.foldl DerivedCounters.deleteDataObject s) := by
  induction l generalizing s with
  | nil => exact h
  | cons x l ih => exact ih (h.deleteDataObject x)

theorem Kept.linkDataObject (h : Kept s) (x : ObjectCall) (d : Ended) {rowid : ℤ}
    (hown : ∃ o ∈ s.dataobjects.owners, o.rowid = rowid) :
    Kept (linkDataObject x d rowid s).1 := by
  have hlinked : Kept { s with dataobjects := (linkAll one rowid
      ((attempts x.attrs x.linkings).map fun (_, l) => ((), l)) s.dataobjects).1 } :=
    ⟨h.nodes, h.filters, (linkAll_exact h.dataobjects hown _).1, h.interfaces⟩
  unfold DerivedCounters.linkDataObject
  dsimp only
  split_ifs
  · exact hlinked.deleteDataObject _
  · exact hlinked

theorem Kept.insertDataObject {x : ObjectCall} {calls : List ObjectAttempt}
    (hknown : ∀ c ∈ calls, c.insert.Known) (h : Kept s) : Kept (insertDataObject x calls s).1 := by
  induction calls generalizing s with
  | nil => exact h
  | cons a calls ih =>
    rw [List.forall_mem_cons] at hknown
    have hdeleted := h.deleteDataObjects a.older
    rw [DerivedCounters.insertDataObject]
    generalize a.older.foldl DerivedCounters.deleteDataObject s = s' at hdeleted ⊢
    by_cases hgo : a.goesOn = true
    · rw [if_pos hgo]
      cases hw : a.insert with
      | error => exact hdeleted
      | other last =>
        rw [hw] at hknown
        exact hknown.1.elim
      | done =>
        cases hins : insertOwner true x.id s'.dataobjects with
        | some r =>
          obtain ⟨hexact, hown⟩ := hdeleted.dataobjects.insertOwner hins
          have hrow : Kept { s' with dataobjects := r.2 } :=
            ⟨hdeleted.nodes, hdeleted.filters, hexact, hdeleted.interfaces⟩
          exact hrow.linkDataObject x a.delete hown
        | none =>
          dsimp only
          split_ifs
          · exact hdeleted
          · exact ih hknown.2 (hdeleted.deleteDataObject _)
    · rw [if_neg hgo]
      exact hdeleted

theorem Kept.perform {o : Operation} (h : Kept s) (ho : Sane o) : Kept (perform s o) := by
  cases o with
  | insertNode x calls => exact Kept.insertNode ho.1 ho.2 h
  | deleteNode d id => exact h.deleteNode d id
  | insertFilter x calls => exact Kept.insertFilter ho h
  | deleteFilter d event => exact h.deleteFilter d event
  | deleteFilters d =>
    change Kept (DerivedCounters.deleteFilters d s)
    unfold DerivedCounters.deleteFilters
    split_ifs
    · exact ⟨h.nodes, h.filters.deleteWhere _, h.dataobjects, h.interfaces⟩
    · exact h
  | insertDataObject x calls => exact Kept.insertDataObject ho h
  | deleteDataObject id d => exact h.deleteDataObject (id, d)
  | ageDataObjects deletes => exact h.deleteDataObjects deletes

end Invariant

section Sums

variable {s : Store}

theorem sum_one {V : Type} (ls : List (Link V)) :
    (ls.map fun l => one l.value).sum = (ls.length : ℤ) := by
  induction ls with
  | nil => rfl
  | cons l ls ih =>
    rw [List.map_cons, List.sum_cons, ih, List.length_cons, Nat.cast_succ, add_comm]
    rfl

theorem sum_nodeWorth (ls : List (Link ℤ)) : (ls.map fun l => nodeWorth l.value).sum =
    ((ls.length : ℤ), BitVec.ofInt 64 (ls.map Link.value).sum) := by
  induction ls with
  | nil => rfl
  | cons l ls ih =>
    rw [List.map_cons, List.sum_cons, ih, List.map_cons, List.sum_cons, BitVec.ofInt_add]
    refine Prod.ext ?_ rfl
    rw [List.length_cons, Nat.cast_succ, add_comm]
    rfl

theorem Kept.derived (h : Kept s) : Derived s where
  nodes n hn := by
    rw [h.nodes.counted n hn, total, sum_nodeWorth]
    exact ⟨rfl, rfl⟩
  filters f hf := (h.filters.counted f hf).trans (sum_one _)
  dataobjects d hd := (h.dataobjects.counted d hd).trans (sum_one _)
  nodeLinks := h.nodes.owned
  filterLinks := h.filters.owned
  dataobjectLinks := h.dataobjects.owned
  interfaces := h.interfaces

/-- The counters are exact, and no link and no interface is without its owner, in every run of sane
operations. -/
theorem derived_run {ops : List Operation}
    (hops : Trace.Guarded perform (fun _ o => Sane o) emptyStore ops) :
    Derived (Trace.run perform emptyStore ops) := by
  have hkept : Kept (Trace.run perform emptyStore ops) :=
    Trace.invariant_of_guarded (fun _ _ h ho => h.perform ho) kept_emptyStore hops
  exact hkept.derived

end Sums

end DerivedCounters

namespace Sample

open DerivedCounters

/-- The apostrophe ends the string, and the rest of the statement is behind its semicolon. -/
def quotedInterface : Interface := ⟨.media, lit "x',1);--", [], false⟩

def linkedNode (b : UInt8) (interfaces : List Interface) : Node where
  type := .peer
  id := .fill b
  name := lit "node"
  attrs := Attributes.add HashMap.empty ⟨lit "news", lit "sports", 3⟩
  interfaces := interfaces
  nodeDescriptionCreateTime := ⟨0, 0⟩
  matchThreshold := 0
  maxDataObjectsInMatch := 10
  bloomfilter := ⟨false, [1]⟩

def insertLinked (b : UInt8) (interfaces : List Interface) : Operation :=
  .insertNode ⟨linkedNode b interfaces, true, fun _ => ⟨some 1, .done⟩, fun _ => ⟨.done, 1⟩⟩
    [(.done, (linkedNode b interfaces).id, .done), (.done, (linkedNode b interfaces).id, .done)]

/-- A node is inserted twice and deleted, and another one stays with a filter. -/
def saneOperations : List Operation :=
  [insertLinked 1 [⟨.media, lit "m", [], false⟩], insertLinked 1 [⟨.media, lit "m", [], false⟩],
    .deleteNode .done (linkedNode 1 []).id, insertLinked 2 [⟨.media, lit "m", [], false⟩],
    .insertFilter ⟨5, (linkedNode 1 []).attrs, fun _ => ⟨some 1, .done⟩⟩ [(.done, .done)]]

theorem derived_saneOperations : Derived (Trace.run perform emptyStore saneOperations) :=
  derived_run (by
    have hquote : ∀ i ∈ [(⟨.media, lit "m", [], false⟩ : Interface)],
        StoredNode.hasQuote i = false := by decide
    have hnode : ∀ b, Sane (insertLinked b [⟨.media, lit "m", [], false⟩]) := by
      refine fun b => ⟨?_, hquote⟩
      simp [Written.Known]
    exact ⟨hnode 1, hnode 1, trivial, hnode 2, by simp [Sane, Written.Known], trivial⟩)

/-- The interface of the second node is written for the first one, which is deleted. -/
theorem not_derived_quoted :
    StoredNode.insertCmd StoredNode.insertIfaceHead
        (StoredNode.insertIfaceValues 2 quotedInterface) =
      lit "INSERT INTO table_interfaces (type,mac,mac_str,node_rowid) VALUES(6,?,'x',1);--',2);" ∧
    ¬ Derived (Trace.run perform emptyStore [insertLinked 1 [],
      .deleteNode .done (linkedNode 1 []).id, insertLinked 2 [quotedInterface]]) := by
  refine ⟨by decide, fun h => ?_⟩
  have hmem : (⟨.media, lit "x',1);--", 1⟩ : InterfaceRow) ∈ (Trace.run perform emptyStore
      [insertLinked 1 [], .deleteNode .done (linkedNode 1 []).id,
        insertLinked 2 [quotedInterface]]).interfaces := by decide
  have hrows : (Trace.run perform emptyStore [insertLinked 1 [],
      .deleteNode .done (linkedNode 1 []).id, insertLinked 2 [quotedInterface]]).nodes.owners.map
        OwnedLinks.Owner.rowid = [2] := by decide
  obtain ⟨n, hn, hrow⟩ := h.interfaces _ hmem
  have hone := List.mem_map_of_mem (f := OwnedLinks.Owner.rowid) hn
  rw [hrows, hrow] at hone
  exact absurd hone (by decide)

end Sample
end Haggle
