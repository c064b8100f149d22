import Haggle.Attribute
import Haggle.HashMapIterators

/-!
# Going through the children of metadata

The kernel's `Metadata` keeps its children in a hash multimap and, for the loop over those of a
name, a pair of iterators in itself. An iterator follows its node when other nodes come and go, and
is no longer to be used when its own node has gone.
-/

namespace Haggle
namespace MetadataCursor

open HashMap

variable {V : Type}

section Model

/-- A pair of iterators: as it was constructed, in the table, or at a node that was deleted. -/
inductive Cursor
  | unset
  | range (first second : Iterator)
  | dangling

/-- `Metadata`, as far as its children go. -/
structure Node (V : Type) where
  registry : HashMap Bytes V
  r : Cursor
  rConst : Cursor

def Node.new : Node V := ⟨.empty, .unset, .unset⟩

/-- The loop of the copy constructor, where `copy` is what the children are copied with. -/
def copyLoop (m : HashMap Bytes V) (copy : V → V) :
    ℕ → HashMap Bytes V → Iterator → Option (HashMap Bytes V)
  | 0, _, _ => none
  | fuel + 1, registry, it =>
    if it.same m.endIterator then some registry
    else do
      let e ← m.deref it
      let registry ← registry.insertPair (e.1, copy e.2)
      let it ← m.findNextFilledBucket it
      copyLoop m copy fuel registry it

/-- The copy constructor. -/
def copyNode (copy : V → V) (node : Node V) : Option (Node V) := do
  let it ← node.registry.begin
  let registry ← copyLoop node.registry copy (node.registry.toList.length + 1) .empty it
  some ⟨registry, .unset, .unset⟩

/-- An iterator after the node `p` of the list `b` was deleted, unless it stands there. The place to
go to next is gone if it was that node. -/
def eraseIterator (b p : ℕ) (it : Iterator) : Option Iterator :=
  if it.bucket ≠ b then some it
  else if it.pos = p then none
  else some { it with
    pos := if p < it.pos then it.pos - 1 else it.pos
    next := it.next.bind fun q => if q = p then none else some (if p < q then q - 1 else q) }

def Cursor.erase (b p : ℕ) : Cursor → Cursor
  | .range first second =>
    match eraseIterator b p first, eraseIterator b p second with
    | some first, some second => .range first second
    | _, _ => .dangling
  | c => c

/-- An iterator after a node was put in at the place `p` of the list `b`. -/
def insertIterator (b p : ℕ) (it : Iterator) : Iterator :=
  if it.bucket ≠ b then it
  else { it with
    pos := if p ≤ it.pos then it.pos + 1 else it.pos
    next := it.next.map fun q => if p ≤ q then q + 1 else q }

def Cursor.insert (b p : ℕ) : Cursor → Cursor
  | .range first second => .range (insertIterator b p first) (insertIterator b p second)
  | c => c

/-- The nodes of a table that was made anew are other ones. -/
def Cursor.lose : Cursor → Cursor
  | .range _ _ => .dangling
  | c => c

/-- Where an entry goes in a bucket: behind the last one of its key, or to the end. -/
def insertPlace (k : Bytes) (l : List (Bytes × V)) : ℕ :=
  let i := l.findIdx fun e => e.1 = k
  i + ((l.drop i).takeWhile fun e => e.1 = k).length

/-- `_addMetadata`. A table that grows is made anew. -/
def addMetadata (node : Node V) (name : Bytes) : Option V → Option (Node V × Bool)
  | none => some (node, false)
  | some m => do
    let registry ← node.registry.insertPair (name, m)
    let moved : Cursor → Cursor :=
      if registry.table.length = node.registry.table.length then
        Cursor.insert (node.registry.getIndex name)
          (insertPlace name (node.registry.list (node.registry.getIndex name)))
      else Cursor.lose
    some (⟨registry, moved node.r, moved node.rConst⟩, true)

/-- The loop of `removeMetadata`. -/
def removeLoop : ℕ → Node V → Bool → Option (Node V × Bool)
  | 0, _, _ => none
  | fuel + 1, node, ret =>
    match node.r with
    | .range first second =>
      if first.same second then some (node, ret)
      else do
        let _ ← node.registry.deref first
        let next ← node.registry.findNextFilledBucket first
        let registry ← node.registry.eraseAt first
        let erase := Cursor.erase first.bucket first.pos
        removeLoop fuel ⟨registry, erase (.range next second), erase node.rConst⟩ true
    | _ => none

/-- `removeMetadata`; every turn of its loop deletes an entry. -/
def removeMetadata (node : Node V) (name : Bytes) : Option (Node V × Bool) := do
  let r ← node.registry.rangeOf name
  removeLoop (node.registry.toList.length + 1) { node with r := .range r.1 r.2 } false

/-- The loop over `n` entries, which ends early where the range does. -/
def skip (m : HashMap Bytes V) (second : Iterator) : ℕ → Iterator → Option (Iterator × Bool)
  | 0, first => some (first, true)
  | n + 1, first => do
    let first ← m.findNextFilledBucket first
    if first.same second then some (first, false) else skip m second n first

/-- `getMetadata`, with the iterators it leaves. -/
def getFrom (m : HashMap Bytes V) (name : Bytes) (n : ℕ) : Option (Cursor × Option V) := do
  let r ← m.rangeOf name
  if r.1.same r.2 then some (.range r.1 r.2, none)
  else do
    let s ← skip m r.2 n r.1
    if s.2 then do
      let e ← m.deref s.1
      some (.range s.1 r.2, some e.2)
    else some (.range s.1 r.2, none)

/-- `getNextMetadata`. Two iterators that were only constructed are equal. -/
def nextFrom (m : HashMap Bytes V) : Cursor → Option (Cursor × Option V)
  | .unset => some (.unset, none)
  | .dangling => none
  | .range first second =>
    if first.same m.endIterator ∨ first.same second then some (.range first second, none)
    else do
      let first ← m.findNextFilledBucket first
      if first.same second then some (.range first second, none)
      else do
        let e ← m.deref first
        some (.range first second, some e.2)

def getMetadata (node : Node V) (name : Bytes) (n : ℕ) : Option (Node V × Option V) :=
  (getFrom node.registry name n).map fun r => ({ node with r := r.1 }, r.2)

def getNextMetadata (node : Node V) : Option (Node V × Option V) :=
  (nextFrom node.registry node.r).map fun r => ({ node with r := r.1 }, r.2)

/-- `getMetadata` of a constant node, which has its own iterators. -/
def getMetadataConst (node : Node V) (name : Bytes) (n : ℕ) : Option (Node V × Option V) :=
  (getFrom node.registry name n).map fun r => ({ node with rConst := r.1 }, r.2)

def getNextMetadataConst (node : Node V) : Option (Node V × Option V) :=
  (nextFrom node.registry node.rConst).map fun r => ({ node with rConst := r.1 }, r.2)

/-- What a caller gets that goes on until there is no more. -/
def collect (next : Node V → Option (Node V × Option V)) :
    ℕ → Node V → Option V → Option (List V)
  | 0, _, _ => none
  | _ + 1, _, none => some []
  | fuel + 1, node, some c => do
    let r ← next node
    let rest ← collect next fuel r.1 r.2
    some (c :: rest)

def enumerate (fuel : ℕ) (node : Node V) (name : Bytes) : Option (List V) := do
  let r ← getMetadata node name 0
  collect getNextMetadata fuel r.1 r.2

def enumerateConst (fuel : ℕ) (node : Node V) (name : Bytes) : Option (List V) := do
  let r ← getMetadataConst node name 0
  collect getNextMetadataConst fuel r.1 r.2

end Model

/-! ## Iterators when an entry goes -/

section Erasing

variable {m m' : HashMap Bytes V} {it it' a b : Iterator} {e : Bytes × V}
  {es gs xs : List (Bytes × V)} {i j p q : ℕ}

/-- The entries from a place on are more the further to the front it is. -/
theorem length_from_le (hij : i < j) (hp : p < (m.list i).length) :
    (m.table.drop j).flatten.length <
      ((m.list i).drop p ++ (m.table.drop (i + 1)).flatten).length := by
  have hsuffix : (m.table.drop j).flatten.length ≤ (m.table.drop (i + 1)).flatten.length := by
    obtain ⟨k, rfl⟩ : ∃ k, j = i + 1 + k := ⟨j - (i + 1), by omega⟩
    rw [← List.drop_drop, ← List.take_append_drop k (m.table.drop (i + 1)), List.flatten_append,
      List.length_append, List.take_append_drop]
    exact Nat.le_add_left _ _
  rw [List.length_append, List.length_drop]
  omega

theorem same_of_rest (h : m.Rest it es) (h' : m.Rest it' es) : it.same it' := by
  by_cases hes : es = []
  · obtain ⟨hb, hp⟩ := (same_end_iff h).mpr hes
    obtain ⟨hb', hp'⟩ := (same_end_iff h').mpr hes
    exact ⟨hb.trans hb'.symm, hp.trans hp'.symm⟩
  · obtain ⟨i, p, rfl, hp, heq⟩ | ⟨-, hnil⟩ := h
    · obtain ⟨j, q, rfl, hq, heq'⟩ | ⟨-, hnil⟩ := h'
      · have hlen := congrArg List.length (heq.symm.trans heq')
        simp only [List.length_append, List.length_drop] at hlen
        rcases lt_trichotomy i j with hij | rfl | hij
        · have hless := length_from_le hij hp
          simp only [drop_table m j, List.length_append, List.length_drop] at hless
          omega
        · exact ⟨rfl, show p = q by omega⟩
        · have hless := length_from_le hij hq
          simp only [drop_table m i, List.length_append, List.length_drop] at hless
          omega
      · exact absurd hnil hes
    · exact absurd hnil hes

/-- A table after the entry at a place was deleted. -/
structure Erased (m m' : HashMap Bytes V) (i p : ℕ) : Prop where
  length : m'.table.length = m.table.length
  shorter : m'.list i = (m.list i).eraseIdx p
  other : ∀ j, j ≠ i → m'.list j = m.list j

theorem drop_eraseIdx {α : Type} (l : List α) (hpq : p < q) :
    (l.eraseIdx p).drop (q - 1) = l.drop q := by
  apply List.ext_getElem?
  intro k
  rw [List.getElem?_drop, List.getElem?_drop, List.getElem?_eraseIdx_of_ge (by omega)]
  congr 1
  omega

theorem Erased.flatten (h : Erased m m' i p) (hij : i < j) :
    (m'.table.drop j).flatten = (m.table.drop j).flatten := by
  have hlist : m'.table.drop j = m.table.drop j := by
    apply List.ext_getElem?
    intro k
    have hother := h.other (j + k) (by omega)
    rw [list, list, List.getD_eq_getElem?_getD, List.getD_eq_getElem?_getD] at hother
    rw [List.getElem?_drop, List.getElem?_drop]
    by_cases hk : j + k < m.table.length
    · have hk' : j + k < m'.table.length := h.length ▸ hk
      rw [List.getElem?_eq_getElem hk, List.getElem?_eq_getElem hk'] at hother ⊢
      exact congrArg some hother
    · rw [List.getElem?_eq_none (not_lt.mp hk), List.getElem?_eq_none (h.length ▸ not_lt.mp hk)]
  rw [hlist]

/-- An iterator with fewer entries before it than the deleted place keeps them. -/
theorem Erased.rest (h : Erased m m' i p) (hp : p < (m.list i).length) (hit : m.Rest it es)
    (hlen : es.length <
      ((m.list i).drop p ++ (m.table.drop (i + 1)).flatten).length) :
    ∃ it', eraseIterator i p it = some it' ∧ m'.Rest it' es := by
  have hlength : (m'.list i).length = (m.list i).length - 1 := by
    rw [h.shorter, List.length_eraseIdx_of_lt hp]
  rcases hit with ⟨j, q, rfl, hq, rfl⟩ | ⟨hsame, rfl⟩
  · have hij : i ≤ j := by
      by_contra hlt
      have hless := length_from_le (not_le.mp hlt) hq
      simp only [drop_table m i, List.length_append, List.length_drop] at hless hlen
      omega
    rcases hij.eq_or_lt with rfl | hij
    · have hpq : p < q := by
        simp only [List.length_append, List.length_drop] at hlen
        omega
      have hnext : (if q = (m.list i).length then 0 else q + 1) = q + 1 := if_neg hq.ne
      have hnext' : (if q - 1 = (m'.list i).length then 0 else q - 1 + 1) = q := by
        rw [if_neg (by omega)]
        omega
      refine ⟨m'.iteratorAt i i (q - 1), ?_, .inl ⟨i, q - 1, rfl, by omega, ?_⟩⟩
      · have hgone : ¬ q + 1 = p := by omega
        have hafter : p < q + 1 := by omega
        simp only [eraseIterator, iteratorAt, ne_eq, not_true, if_false, if_neg hpq.ne', hpq,
          if_true, hnext, hnext', Option.bind_some, if_neg hgone, if_pos hafter,
          Nat.add_sub_cancel]
      · have hdrop : (m'.list i).drop (q - 1) = (m.list i).drop q := by
          rw [h.shorter, drop_eraseIdx _ hpq]
        rw [hdrop, h.flatten (Nat.lt_succ_self i)]
    · refine ⟨m'.iteratorAt j j q, ?_, .inl ⟨j, q, rfl, ?_, ?_⟩⟩
      · simp only [eraseIterator, iteratorAt, ne_eq, hij.ne', not_false_eq_true, if_true,
          h.other j hij.ne']
      · rw [h.other j hij.ne']
        exact hq
      · rw [h.other j hij.ne', h.flatten (hij.trans (Nat.lt_succ_self j))]
  · obtain ⟨hbucket, hpos⟩ := hsame
    have hend : m'.endIterator.bucket = m.endIterator.bucket := by
      simp only [endIterator, iteratorAt, h.length]
    by_cases hi : it.bucket = i
    · have hpos' : it.pos = (m.list i).length := by
        rw [hpos]
        simp only [endIterator, iteratorAt] at hbucket ⊢
        rw [← hbucket, hi]
      have hne : ¬ it.pos = p := by omega
      refine ⟨{ it with
        pos := it.pos - 1
        next := it.next.bind fun q => if q = p then none else some (if p < q then q - 1 else q) },
        ?_, .inr ⟨⟨?_, ?_⟩, rfl⟩⟩
      · simp only [eraseIterator, hi, ne_eq, not_true, if_false, if_neg hne,
          if_pos (show p < it.pos by omega)]
      · rw [hend]
        exact hbucket
      · have hlast : m'.endIterator.pos = (m'.list i).length := by
          simp only [endIterator, iteratorAt] at hbucket ⊢
          rw [h.length, ← hbucket, hi]
        rw [hlast, hlength, hpos']
    · refine ⟨it, if_pos hi, .inr ⟨⟨hend ▸ hbucket, ?_⟩, rfl⟩⟩
      rw [hpos]
      simp only [endIterator, iteratorAt] at hbucket ⊢
      rw [h.length, h.other _ (hbucket ▸ hi)]

theorem eraseAt_erased (hlt : it.pos < (m.list it.bucket).length) (h : m.eraseAt it = some m') :
    Erased m m' it.bucket it.pos := by
  have hbucket : it.tableIndex < m.table.length ∧ it.bucket = it.tableIndex := by
    by_contra hne
    unfold eraseAt at h
    rw [if_neg hne] at h
    cases h
  unfold eraseAt at h
  simp only [if_pos hbucket, if_pos hlt] at h
  obtain ⟨-, -, rfl⟩ := Option.map_eq_some_iff.mp h
  have hlist : ∀ j, (⟨if m.size = 0 then 2 ^ 64 - 1 else m.size - 1,
      m.table.modify it.bucket fun b => b.eraseIdx it.pos, m.plainChar⟩ : HashMap Bytes V).list j =
        if it.bucket = j then (m.list j).eraseIdx it.pos else m.list j := by
    intro j
    simp only [list, List.getD_eq_getElem?_getD, List.getElem?_modify]
    cases m.table[j]? <;> split_ifs <;> rfl
  refine ⟨List.length_modify .., (hlist _).trans (if_pos rfl), fun j hj => ?_⟩
  exact (hlist j).trans (if_neg hj.symm)

theorem rank_lt (hm : m.WF) (he : m.deref it = some e) :
    m.rank it e.1 < (m.values e.1).length := by
  obtain ⟨-, hbucket, a, b, hsplit, hpos⟩ := split_of_deref hm he
  unfold values rank
  rw [filter_toList hm, hbucket, hsplit, List.take_left' hpos, List.length_map,
    ← List.countP_eq_length_filter, List.countP_append, List.countP_cons_of_pos (by simp)]
  omega

end Erasing

/-! ## The children of a name -/

section Children

variable {m : HashMap Bytes V} {a b first second : Iterator} {e : Bytes × V}
  {es gs xs cs : List (Bytes × V)} {node : Node V} {k name : Bytes} {fuel n : ℕ}

/-- Every turn of the loop deletes the first entry of what is left. -/
theorem removeLoop_spec (node : Node V) (ret : Bool) (hm : node.registry.Maintained)
    (hr : node.r = .range first second) (hfirst : node.registry.Rest first (xs ++ gs))
    (hsecond : node.registry.Rest second gs) (hxs : ∀ e ∈ xs, e.1 = k)
    (hlen : (node.registry.values k).length = xs.length) (hfuel : xs.length < fuel) :
    ∃ node', removeLoop fuel node ret = some (node', ret || !xs.isEmpty) ∧
      node'.registry.Maintained ∧
      ∀ k', node'.registry.values k' = if k' = k then [] else node.registry.values k' := by
  induction xs generalizing node ret first second fuel with
  | nil =>
    obtain _ | fuel := fuel
    · exact absurd hfuel (Nat.not_lt_zero _)
    · refine ⟨node, ?_, hm, fun k' => ?_⟩
      · unfold removeLoop
        rw [hr]
        simp only [if_pos (same_of_rest hfirst hsecond), List.isEmpty_nil, Bool.not_true,
          Bool.or_false]
      · split_ifs with hk
        · exact hk ▸ List.length_eq_zero_iff.mp hlen
        · rfl
  | cons x xs ih =>
    obtain _ | fuel := fuel
    · exact absurd hfuel (Nat.not_lt_zero _)
    obtain ⟨hderef, next, hnext, hrest⟩ := rest_cons hfirst
    have hne : ¬ first.same second := by
      intro hsame
      have hlength := congrArg List.length (rest_unique hfirst hsecond hsame)
      simp only [List.length_append, List.length_cons] at hlength
      omega
    obtain rfl : x.1 = k := hxs x List.mem_cons_self
    obtain ⟨i, p, rfl, hp, heq⟩ | ⟨-, hnil⟩ := hfirst
    swap
    · cases hnil
    obtain ⟨m', herase, hm', hvals⟩ := eraseAt_spec hm rfl hderef rfl
    have herased : Erased node.registry m' i p := eraseAt_erased hp herase
    have hlength : (xs ++ gs).length <
        ((node.registry.list i).drop p ++ (node.registry.table.drop (i + 1)).flatten).length := by
      rw [← heq]
      exact Nat.lt_succ_self _
    obtain ⟨next', hmoved, hrest'⟩ := herased.rest hp hrest hlength
    obtain ⟨second', hmoved', hsecond'⟩ := herased.rest hp hsecond
      (lt_of_le_of_lt (List.length_append ▸ Nat.le_add_left _ _) hlength)
    have hrank := rank_lt hm.toWF hderef
    have hshorter : (m'.values x.1).length = xs.length := by
      rw [hvals, if_pos rfl, List.length_eraseIdx_of_lt hrank, hlen]
      rfl
    obtain ⟨node', hloop, hmaintained, hothers⟩ :=
      ih ⟨m', .range next' second', node.rConst.erase i p⟩ true hm' rfl hrest' hsecond'
        (fun e he => hxs e (List.mem_cons_of_mem x he)) hshorter (Nat.lt_of_succ_lt_succ hfuel)
    refine ⟨node', ?_, hmaintained, fun k' => ?_⟩
    · have hcursor : Cursor.erase (node.registry.iteratorAt i i p).bucket
          (node.registry.iteratorAt i i p).pos (.range next second) = .range next' second' := by
        simp only [Cursor.erase, iteratorAt, hmoved, hmoved']
      unfold removeLoop
      rw [hr]
      simp only [if_neg hne, hderef, hnext, herase, hcursor, Option.bind_eq_bind, Option.bind_some]
      simp only [List.isEmpty_cons, Bool.not_false, Bool.or_true, Bool.true_or] at hloop ⊢
      exact hloop
    · rw [hothers, hvals]
      split_ifs <;> rfl

theorem skip_spec (h : m.Walks a b es) (hes : es ≠ []) :
    ∃ a', skip m b n a = some (a', decide (n < es.length)) ∧ m.Walks a' b (es.drop n) := by
  induction n generalizing a es with
  | zero => exact ⟨a, by simp [skip, List.length_pos_iff.mpr hes], h⟩
  | succ n ih =>
    obtain _ | ⟨e, es⟩ := es
    · exact absurd rfl hes
    obtain ⟨-, -, a', hnext, hwalks⟩ := h
    simp only [skip, hnext, Option.bind_eq_bind, Option.bind_some, List.drop_succ_cons]
    obtain _ | ⟨e', es⟩ := es
    · have hsame : a'.same b := hwalks
      refine ⟨a', ?_, ?_⟩
      · rw [if_pos hsame]
        simp
      · rw [List.drop_nil]
        exact hsame
    · obtain ⟨a'', hskip, hwalks'⟩ := ih hwalks (List.cons_ne_nil _ _)
      refine ⟨a'', ?_, hwalks'⟩
      rw [if_neg hwalks.1, hskip]
      simp

theorem not_same_end (h : m.deref a = some e) : ¬ a.same m.endIterator := by
  rintro ⟨hbucket, hpos⟩
  have hlt := (List.getElem?_eq_some_iff.mp h).1
  rw [hbucket, hpos] at hlt
  exact lt_irrefl _ hlt

theorem nextFrom_spec (h : m.Walks a b es) :
    ∃ a', nextFrom m (.range a b) = some (.range a' b, es[1]?.map Prod.snd) ∧
      m.Walks a' b (es.drop 1) := by
  obtain _ | ⟨e, es⟩ := es
  · exact ⟨a, if_pos (.inr h), h⟩
  obtain ⟨hne, hderef, a', hnext, hwalks⟩ := h
  refine ⟨a', ?_, hwalks⟩
  have hmore : ¬ (a.same m.endIterator ∨ a.same b) := not_or.mpr ⟨not_same_end hderef, hne⟩
  simp only [nextFrom, if_neg hmore, hnext, Option.bind_eq_bind, Option.bind_some]
  obtain _ | ⟨e', es⟩ := es
  · exact if_pos hwalks
  · rw [if_neg hwalks.1, hwalks.2.1]
    rfl

/-- What `getMetadata` gives, and the iterators it leaves for `getNextMetadata`. -/
theorem getFrom_spec (hm : m.WF) (name : Bytes) (n : ℕ) :
    ∃ a b, getFrom m name n = some (.range a b, (m.values name)[n]?) ∧
      m.Walks a b ((m.toList.filter fun e => e.1 = name).drop n) := by
  obtain ⟨b, hrange, hwalks⟩ := rangeOf_spec hm name
  unfold values
  simp only [getFrom, hrange, Option.bind_eq_bind, Option.bind_some]
  generalize m.toList.filter (fun e => e.1 = name) = es at hwalks
  obtain _ | ⟨e, es⟩ := es
  · refine ⟨_, b, if_pos hwalks, ?_⟩
    rw [List.drop_nil]
    exact hwalks
  · obtain ⟨a', hskip, hwalks'⟩ := skip_spec (n := n) hwalks (List.cons_ne_nil _ _)
    refine ⟨a', b, ?_, hwalks'⟩
    rw [if_neg hwalks.1, hskip, Option.bind_some, List.getElem?_map]
    by_cases hn : n < (e :: es).length
    · rw [List.drop_eq_getElem_cons hn] at hwalks'
      rw [if_pos (decide_eq_true hn), hwalks'.2.1, List.getElem?_eq_getElem hn]
      rfl
    · rw [if_neg (by simpa using hn), List.getElem?_eq_none (not_lt.mp hn)]
      rfl

/-- A loop that gets one after the other gets all there are. -/
theorem collect_spec {next : Node V → Option (Node V × Option V)} {vs : List V}
    {At : Node V → List V → Prop}
    (hnext : ∀ node vs, At node vs → ∃ node', next node = some (node', vs[1]?) ∧
      At node' (vs.drop 1)) (h : At node vs) (hfuel : vs.length < fuel) :
    collect next fuel node vs.head? = some vs := by
  induction vs generalizing node fuel with
  | nil =>
    obtain _ | fuel := fuel
    · exact absurd hfuel (Nat.not_lt_zero _)
    · rfl
  | cons v vs ih =>
    obtain _ | fuel := fuel
    · exact absurd hfuel (Nat.not_lt_zero _)
    obtain ⟨node', hstep, hat⟩ := hnext node (v :: vs) h
    have hrest := ih hat (Nat.lt_of_succ_lt_succ hfuel)
    have hhead : (v :: vs)[1]? = vs.head? := by cases vs <;> rfl
    simp only [List.head?_cons, collect, hstep, hhead, Option.bind_eq_bind, Option.bind_some]
    rw [show collect next fuel node' vs.head? = some vs from hrest]
    rfl

end Children

/-! ## Nodes that operations lead to -/

section Runs

variable {m m' : HashMap Bytes V} {it : Iterator} {es cs : List (Bytes × V)} {node node' : Node V}
  {fuel : ℕ}

/-- The children of a name in their order. -/
def children (name : Bytes) (cs : List (Bytes × V)) : List V :=
  (cs.filter fun c => c.1 = name).map Prod.snd

/-- The node has come to be by the operations, and these children were put in, in this order, and
not removed since. -/
inductive Reaches : Node V → List (Bytes × V) → Prop
  | new : Reaches Node.new []
  | copy {a cs f b} : Reaches a cs → copyNode f a = some b →
      Reaches b (a.registry.toList.map fun e => (e.1, f e.2))
  | add {a cs k c b r} : Reaches a cs → addMetadata a k (some c) = some (b, r) →
      Reaches b (cs ++ [(k, c)])
  | remove {a cs k b r} : Reaches a cs → removeMetadata a k = some (b, r) →
      Reaches b (cs.filter fun c => c.1 ≠ k)
  | get {a cs k n b r} : Reaches a cs → getMetadata a k n = some (b, r) → Reaches b cs
  | getNext {a cs b r} : Reaches a cs → getNextMetadata a = some (b, r) → Reaches b cs
  | getConst {a cs k n b r} : Reaches a cs → getMetadataConst a k n = some (b, r) → Reaches b cs
  | getNextConst {a cs b r} : Reaches a cs → getNextMetadataConst a = some (b, r) → Reaches b cs

/-- The table keeps the children of each name in their order. -/
structure Keeps (m : HashMap Bytes V) (cs : List (Bytes × V)) : Prop where
  maintained : m.Maintained
  values : ∀ k, m.values k = children k cs

theorem children_append (k : Bytes) (cs ds : List (Bytes × V)) :
    children k (cs ++ ds) = children k cs ++ children k ds := by
  unfold children
  rw [List.filter_append, List.map_append]

theorem children_single (k : Bytes) (e : Bytes × V) :
    children k [e] = if e.1 = k then [e.2] else [] := by
  unfold children
  rw [List.filter_singleton]
  split_ifs <;> simp_all

theorem children_remove (k name : Bytes) (cs : List (Bytes × V)) :
    children k (cs.filter fun c => c.1 ≠ name) = if k = name then [] else children k cs := by
  unfold children
  rw [List.filter_filter]
  split_ifs with hk
  · subst hk
    rw [List.filter_eq_nil_iff.mpr fun e _ => by simp, List.map_nil]
  · congr 1
    refine List.filter_congr fun e _ => ?_
    by_cases he : e.1 = k
    · simp [he, hk]
    · simp [he]

theorem children_length_le (k : Bytes) (cs : List (Bytes × V)) :
    (children k cs).length ≤ cs.length := by
  unfold children
  rw [List.length_map]
  exact List.length_filter_le _ _

theorem Keeps.insert (h : Keeps m cs) (e : Bytes × V) : Keeps (m.insert e) (cs ++ [e]) where
  maintained := maintained_insert h.maintained e
  values k := by
    rw [values_insert h.maintained.toWF, h.values, children_append, children_single]

theorem keeps_empty : Keeps (HashMap.empty : HashMap Bytes V) [] where
  maintained := maintained_ofTableSize (by decide)
  values k := values_ofTableSize 7 .signed k

theorem copyLoop_spec (copy : V → V) (h : m.Rest it es) (hkeeps : Keeps m' cs)
    (hfuel : es.length < fuel) :
    ∃ registry, copyLoop m copy fuel m' it = some registry ∧
      Keeps registry (cs ++ es.map fun e => (e.1, copy e.2)) := by
  induction es generalizing it m' cs fuel with
  | nil =>
    obtain _ | fuel := fuel
    · exact absurd hfuel (Nat.not_lt_zero _)
    · rw [List.map_nil, List.append_nil]
      exact ⟨m', if_pos ((same_end_iff h).mpr rfl), hkeeps⟩
  | cons e es ih =>
    obtain _ | fuel := fuel
    · exact absurd hfuel (Nat.not_lt_zero _)
    obtain ⟨hderef, it', hnext, hrest⟩ := rest_cons h
    have hend := mt (same_end_iff h).mp (List.cons_ne_nil e es)
    obtain ⟨registry, hloop, hkeeps'⟩ := ih hrest (hkeeps.insert (e.1, copy e.2))
      (Nat.lt_of_succ_lt_succ hfuel)
    refine ⟨registry, ?_, ?_⟩
    · unfold copyLoop
      simp only [if_neg hend, hderef, hnext, insertPair_eq hkeeps.maintained, Option.bind_eq_bind,
        Option.bind_some, hloop]
    · rwa [List.append_assoc, List.singleton_append] at hkeeps'

theorem copyNode_spec (copy : V → V) (hm : m.Maintained) (a b : Cursor) : ∃ registry,
    copyNode copy ⟨m, a, b⟩ = some ⟨registry, .unset, .unset⟩ ∧
      Keeps registry (m.toList.map fun e => (e.1, copy e.2)) := by
  obtain ⟨it, hbegin, hrest⟩ := rest_begin (pos_of_mem_tableSizes hm.sizes)
  obtain ⟨registry, hloop, hkeeps⟩ := copyLoop_spec copy hrest keeps_empty
    (Nat.lt_succ_self _)
  refine ⟨registry, ?_, hkeeps⟩
  simp only [copyNode, hbegin, hloop, Option.bind_eq_bind, Option.bind_some]

theorem removeMetadata_spec (h : Keeps node.registry cs) (name : Bytes) :
    ∃ node', removeMetadata node name = some (node', !(children name cs).isEmpty) ∧
      Keeps node'.registry (cs.filter fun c => c.1 ≠ name) := by
  have hfind := rest_find node.registry name
  obtain ⟨hi, hloop, hrest, -⟩ := highLoop_spec (k := name) hfind
    (Nat.lt_succ_of_le (rest_length_le hfind))
  have hrange : node.registry.rangeOf name = some (node.registry.findIterator name, hi) := by
    unfold rangeOf
    rw [hloop]
    rfl
  have hfrom : (node.registry.findFrom name).takeWhile (fun e => e.1 = name) =
      node.registry.toList.filter fun e => e.1 = name :=
    equalRange_eq_filter h.maintained.toWF name
  have hvalues := h.values name
  rw [← List.takeWhile_append_dropWhile (p := fun e => e.1 = name)
    (l := node.registry.findFrom name), hfrom] at hfind
  obtain ⟨node', hremove, hmaintained, hvals⟩ := removeLoop_spec
    { node with r := .range (node.registry.findIterator name) hi } false (k := name)
    h.maintained rfl hfind hrest
    (fun e he => of_decide_eq_true (List.mem_filter.mp he).2) (List.length_map _)
    (Nat.lt_succ_of_le (List.length_filter_le _ _))
  refine ⟨node', ?_, hmaintained, fun k => ?_⟩
  · simp only [removeMetadata, hrange, Option.bind_eq_bind, Option.bind_some]
    rw [hremove, ← hvalues]
    unfold values
    rw [Bool.false_or, List.isEmpty_map]
  · rw [hvals, children_remove]
    split_ifs
    · rfl
    · exact h.values k

theorem reaches_keeps (h : Reaches node cs) : Keeps node.registry cs := by
  induction h with
  | new => exact keeps_empty
  | copy _ hcopy ih =>
    obtain ⟨registry, heq, hkeeps⟩ := copyNode_spec _ ih.maintained _ _
    obtain rfl := Option.some.inj (hcopy.symm.trans heq)
    exact hkeeps
  | add _ hadd ih =>
    simp only [addMetadata, insertPair_eq ih.maintained, Option.bind_eq_bind, Option.bind_some,
      Option.some.injEq, Prod.mk.injEq] at hadd
    obtain ⟨rfl, -⟩ := hadd
    exact ih.insert _
  | remove _ hremove ih =>
    obtain ⟨node', heq, hkeeps⟩ := removeMetadata_spec ih _
    obtain ⟨rfl, -⟩ := Prod.mk.inj (Option.some.inj (hremove.symm.trans heq))
    exact hkeeps
  | get _ hget ih | getConst _ hget ih | getNext _ hget ih | getNextConst _ hget ih =>
    obtain ⟨r, -, heq⟩ := Option.map_eq_some_iff.mp hget
    obtain ⟨rfl, -⟩ := Prod.mk.inj heq
    exact ih

end Runs

/-! ## The loop over the children of a name -/

section Enumeration

variable {cs : List (Bytes × V)} {node : Node V} {name : Bytes} {fuel n : ℕ}

theorem getMetadata_spec (h : Keeps node.registry cs) (name : Bytes) (n : ℕ) :
    (getMetadata node name n).map Prod.snd = some (children name cs)[n]? ∧
      (getMetadataConst node name n).map Prod.snd = some (children name cs)[n]? := by
  obtain ⟨a, b, hget, -⟩ := getFrom_spec h.maintained.toWF name n
  rw [h.values] at hget
  simp only [getMetadata, getMetadataConst, hget, Option.map_some, and_self]

/-- The loop goes on from one of the cursors, which is in a walk. -/
theorem collect_walks (cursor : Node V → Cursor) {next : Node V → Option (Node V × Option V)}
    (hnext : ∀ node c v, nextFrom node.registry (cursor node) = some (c, v) →
      ∃ node', next node = some (node', v) ∧ node'.registry = node.registry ∧ cursor node' = c)
    {a b : Iterator} {es : List (Bytes × V)} (hcursor : cursor node = .range a b)
    (hwalks : node.registry.Walks a b es) (hfuel : es.length < fuel) :
    collect next fuel node (es.map Prod.snd).head? = some (es.map Prod.snd) := by
  have hstep : ∀ node' vs, (node'.registry = node.registry ∧ ∃ a es,
      cursor node' = .range a b ∧ node.registry.Walks a b es ∧ vs = es.map Prod.snd) →
      ∃ node'', next node' = some (node'', vs[1]?) ∧ node''.registry = node.registry ∧ ∃ a es,
        cursor node'' = .range a b ∧ node.registry.Walks a b es ∧
          vs.drop 1 = es.map Prod.snd := by
    rintro node' vs ⟨hregistry, a, es, hcursor, hwalks, rfl⟩
    obtain ⟨a', hfrom, hwalks'⟩ := nextFrom_spec hwalks
    rw [← hregistry, ← hcursor] at hfrom
    obtain ⟨node'', hnext', hregistry', hcursor'⟩ := hnext node' _ _ hfrom
    refine ⟨node'', ?_, hregistry'.trans hregistry, a', es.drop 1, hcursor', hwalks',
      List.map_drop.symm⟩
    rw [hnext', List.getElem?_map]
  exact collect_spec hstep ⟨rfl, a, es, hcursor, hwalks, rfl⟩ (by rwa [List.length_map])

/-- Either loop gets the children of the name one after the other. -/
theorem enumerate_spec (h : Keeps node.registry cs) (hfuel : cs.length < fuel) :
    enumerate fuel node name = some (children name cs) ∧
      enumerateConst fuel node name = some (children name cs) := by
  obtain ⟨a, b, hget, hwalks⟩ := getFrom_spec h.maintained.toWF name 0
  have hfuel' := (children_length_le name cs).trans_lt hfuel
  have hhead : (node.registry.values name)[0]? = (node.registry.values name).head? :=
    List.head?_eq_getElem?.symm
  rw [hhead] at hget
  rw [← h.values] at hfuel' ⊢
  unfold values at hget hfuel' ⊢
  rw [List.length_map] at hfuel'
  constructor
  · simp only [enumerate, getMetadata, hget, Option.map_some, Option.bind_eq_bind,
      Option.bind_some]
    refine collect_walks Node.r (fun node' c v hfrom => ?_) rfl hwalks hfuel'
    exact ⟨{ node' with r := c }, by rw [getNextMetadata, hfrom]; rfl, rfl, rfl⟩
  · simp only [enumerateConst, getMetadataConst, hget, Option.map_some, Option.bind_eq_bind,
      Option.bind_some]
    refine collect_walks Node.rConst (fun node' c v hfrom => ?_) rfl hwalks hfuel'
    exact ⟨{ node' with rConst := c }, by rw [getNextMetadataConst, hfrom]; rfl, rfl, rfl⟩

/-- What the operations on a node give when these are its children. -/
structure Answers (node : Node V) (cs : List (Bytes × V)) : Prop where
  loop : ∀ name fuel, cs.length < fuel → enumerate fuel node name = some (children name cs) ∧
    enumerateConst fuel node name = some (children name cs)
  nth : ∀ name n, (getMetadata node name n).map Prod.snd = some (children name cs)[n]? ∧
    (getMetadataConst node name n).map Prod.snd = some (children name cs)[n]?

theorem answers_of_keeps (h : Keeps node.registry cs) : Answers node cs where
  loop _ _ hfuel := enumerate_spec h hfuel
  nth := getMetadata_spec h

/-- The operations of a node give its children of a name in order, and `removeMetadata` leaves the
others. -/
theorem answers_of_reaches (h : Reaches node cs) : Answers node cs ∧ ∀ name, ∃ node',
    removeMetadata node name = some (node', !(children name cs).isEmpty) ∧
      Answers node' (cs.filter fun c => c.1 ≠ name) := by
  refine ⟨answers_of_keeps (reaches_keeps h), fun name => ?_⟩
  obtain ⟨node', hremove, hkeeps⟩ := removeMetadata_spec (reaches_keeps h) name
  exact ⟨node', hremove, answers_of_keeps hkeeps⟩

end Enumeration

end MetadataCursor
end Haggle
