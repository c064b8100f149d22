import Haggle.HashMapIterators

/-!
# Programs with hash multimaps

Any number of maps that are filled, searched, emptied, copied and assigned. The abstract state has
the values of each key in the order in which they were inserted. Assignment gives the table of the
map back before it reads the other one, so that a map that is assigned to itself is lost.
-/

namespace Haggle
namespace HashMapPrograms

open HashMap

variable {K V : Type}

section Model

/-- The maps by their names. -/
abbrev World (K V : Type) := ℕ → Option (HashMap K V)

/-- A map is made on a node of either kind; `insertOwn` inserts what an iterator of the same map
stands for. -/
inductive Op (K V : Type)
  | new (l : ℕ) (c : PlainChar := .signed)
  | insert (l : ℕ) (p : K × V)
  | insertOwn (l : ℕ) (it : Iterator)
  | eraseAt (l : ℕ) (it : Iterator)
  | erase (l : ℕ) (k : K)
  | clear (l : ℕ)
  | copy (l src : ℕ)
  | assign (l src : ℕ)

variable [DecidableEq K] [Hash K]

def step (w : World K V) : Op K V → Option (World K V)
  | .new l c => some (Function.update w l (some (.empty c)))
  | .insert l p => (w l).bind fun m => (m.insertPair p).map fun m => Function.update w l (some m)
  | .insertOwn l it =>
    (w l).bind fun m => (m.insertOwn it).map fun m => Function.update w l (some m)
  | .eraseAt l it => (w l).bind fun m => (m.eraseAt it).map fun m => Function.update w l (some m)
  | .erase l k => (w l).map fun m => Function.update w l (some (m.erase k))
  | .clear l => (w l).map fun m => Function.update w l (some m.clear)
  | .copy l src => (w src).map fun m => Function.update w l (some (m.assign false))
  | .assign l src =>
    (w l).bind fun _ => (w src).map fun m => Function.update w l (some (m.assign (l = src)))

def run (w : World K V) (ops : List (Op K V)) : Option (World K V) := ops.foldlM step w

end Model

section Meaning

variable [DecidableEq K] [Hash K]

/-- The values of each key of each map, the first one that was inserted first. -/
abbrev Multimaps (K V : Type) := ℕ → Option (K → List V)

def Op.effect (w : World K V) (s : Multimaps K V) : Op K V → Multimaps K V
  | .new l _ => Function.update s l (some fun _ => [])
  | .insert l p =>
    Function.update s l ((s l).map fun vals k => vals k ++ if p.1 = k then [p.2] else [])
  | .insertOwn l it =>
    match (w l).bind fun m => m.deref it with
    | some p =>
      Function.update s l ((s l).map fun vals k => vals k ++ if p.1 = k then [p.2] else [])
    | none => s
  | .eraseAt l it =>
    match w l with
    | some m =>
      match m.deref it with
      | some e => Function.update s l ((s l).map fun vals k =>
        if k = e.1 then (vals k).eraseIdx (m.rank it k) else vals k)
      | none => s
    | none => s
  | .erase l k => Function.update s l ((s l).map fun vals k' => if k = k' then [] else vals k')
  | .clear l => Function.update s l ((s l).map fun _ _ => [])
  | .copy l src | .assign l src => Function.update s l (s src)

/-- The entries are in the buckets of their keys, as many as the size; those of a key are next to
each other, in the order of the insertions. Iterators come to each of them once, `find` to the first
one of a key and `equal_range` to all; a table that grows keeps them. -/
structure Faithful (m : HashMap K V) (vals : K → List V) : Prop where
  placed : ∀ i b, m.table[i]? = some b → ∀ e ∈ b, Hash.hash m.plainChar e.1 % m.table.length = i
  size : m.size = m.toList.length
  order : ∀ k, m.values k = vals k
  adjacent : ∀ k, ∃ pre post, m.toList = pre ++ (m.toList.filter (fun e => e.1 = k) ++ post)
  iterates : ∃ it, m.begin = some it ∧ m.Walks it m.endIterator m.toList
  finds : ∀ k, m.deref (m.findIterator k) = m.toList.find? fun e => e.1 = k
  ranges : ∀ k, ∃ hi, m.rangeOf k = some (m.findIterator k, hi) ∧
    m.Walks (m.findIterator k) hi (m.toList.filter fun e => e.1 = k)
  grows : ∃ m', m.growTable = some m' ∧ m'.toList.Perm m.toList

structure Represents (w : World K V) (s : Multimaps K V) : Prop where
  maps : ∀ l m, w l = some m → ∃ vals, s l = some vals ∧ Faithful m vals
  noMaps : ∀ l, w l = none → s l = none

/-- The iterator is at an entry of the map or at the end of the last list. -/
def PointsInto (m : HashMap K V) (it : Iterator) : Prop :=
  it.bucket = it.tableIndex ∧ ((m.deref it).isSome ∨ it.same m.endIterator ∧ 0 < m.table.length)

/-- The maps that an operation names are there or, where it makes one, are not. -/
def Valid (w : World K V) : Op K V → Prop
  | .new l _ => w l = none
  | .insert l _ | .erase l _ | .clear l => (w l).isSome
  | .insertOwn l it => ∃ m, w l = some m ∧ (m.deref it).isSome
  | .eraseAt l it => ∃ m, w l = some m ∧ PointsInto m it
  | .copy l src => w l = none ∧ (w src).isSome
  | .assign l src => (w l).isSome ∧ (w src).isSome

/-- An entry of the map itself is inserted where the table does not grow; an iterator that is erased
is not at the end and has its next place still there; only an empty map is assigned to itself. -/
def Proper (w : World K V) : Op K V → Prop
  | .insertOwn l _ => ∀ m ∈ w l, m.size + 1 ≤ m.table.length ∨ ¬ m.CanGrow
  | .eraseAt l it => it.next.isSome ∧ ∀ m ∈ w l, (m.deref it).isSome
  | .assign l src => l = src → ∀ m ∈ w l, m.toList = []
  | _ => True

/-- The states of the runs of proper operations. -/
inductive Reaches : World K V → Multimaps K V → Prop
  | start : Reaches (fun _ => none) fun _ => none
  | step {w w' : World K V} {s : Multimaps K V} {op : Op K V} : Reaches w s → Valid w op →
      Proper w op → step w op = some w' → Reaches w' (op.effect w s)

end Meaning

section Maps

variable [DecidableEq K] [Hash K] {m m' : HashMap K V} {vals : K → List V}

theorem head?_findFrom (m : HashMap K V) (k : K) :
    (m.findFrom k).head? = (m.equalRange k).head? := by
  unfold equalRange
  cases hd : (m.list (m.getIndex k)).dropWhile (fun e : K × V => e.1 ≠ k) with
  | nil =>
    rw [findFrom_of_nil hd]
    rfl
  | cons e l =>
    have he := List.head?_dropWhile_not (fun e : K × V => e.1 ≠ k) (m.list (m.getIndex k))
    rw [hd] at he
    have hk : e.1 = k := by simpa using he
    rw [findFrom_of_cons hd, List.takeWhile_cons_of_pos (by simpa using hk)]
    rfl

theorem adjacent (hm : m.WF) (k : K) :
    ∃ pre post, m.toList = pre ++ (m.toList.filter (fun e => e.1 = k) ++ post) := by
  obtain ⟨pre, post, hold, -⟩ := toList_modify hm k
  have hsplit := List.takeWhile_append_dropWhile (p := fun e : K × V => e.1 ≠ k) (l := m.bucket k)
  have hrun := List.takeWhile_append_dropWhile (p := fun e : K × V => e.1 = k)
    (l := (m.bucket k).dropWhile fun e => e.1 ≠ k)
  rw [filter_toList hm, ← takeWhile_dropWhile_eq_filter k _ (hm.grouped_bucket k)]
  refine ⟨pre ++ (m.bucket k).takeWhile (fun e => e.1 ≠ k),
    ((m.bucket k).dropWhile fun e => e.1 ≠ k).dropWhile (fun e => e.1 = k) ++ post, ?_⟩
  rw [← List.append_assoc _ _ post, hrun, List.append_assoc, ← List.append_assoc _ _ post, hsplit]
  exact hold

theorem faithful_of_maintained (hm : m.Maintained) (hvals : ∀ k, m.values k = vals k) :
    Faithful m vals where
  placed := hm.placed
  size := hm.sized
  order := hvals
  adjacent := adjacent hm.toWF
  iterates := by
    obtain ⟨it, hbegin, hrest⟩ := rest_begin (pos_of_mem_tableSizes hm.sizes)
    exact ⟨it, hbegin, walks_end hrest⟩
  finds k := by
    rw [deref_of_rest (rest_find m k), head?_findFrom, equalRange_eq_filter hm.toWF,
      List.head?_filter]
  ranges := rangeOf_spec hm.toWF
  grows := ⟨m.grow, growTable_eq hm.toWF hm.sized hm.fits, toList_grow_perm hm.toWF⟩

end Maps

section Steps

variable [DecidableEq K] [Hash K] {w w' : World K V} {s : Multimaps K V} {l src : ℕ}
  {m m' : HashMap K V} {vals vals' : K → List V} {op : Op K V}

/-- Every map is one that the operations maintain, with the values of the abstract state. -/
def Inv (w : World K V) (s : Multimaps K V) : Prop :=
  ∀ l, (w l = none ∧ s l = none) ∨
    ∃ m vals, w l = some m ∧ s l = some vals ∧ m.Maintained ∧ ∀ k, m.values k = vals k

theorem Inv.represents (h : Inv w s) : Represents w s where
  maps l m hm := by
    obtain ⟨hnone, -⟩ | ⟨m', vals, hm', hs, hkept, hvals⟩ := h l
    · rw [hnone] at hm
      cases hm
    · obtain rfl := Option.some.inj (hm'.symm.trans hm)
      exact ⟨vals, hs, faithful_of_maintained hkept hvals⟩
  noMaps l hl := by
    obtain ⟨-, hs⟩ | ⟨m, vals, hm, -⟩ := h l
    · exact hs
    · rw [hl] at hm
      cases hm

theorem Inv.exists_map (h : Inv w s) (hl : (w l).isSome) :
    ∃ m vals, w l = some m ∧ s l = some vals ∧ m.Maintained ∧ ∀ k, m.values k = vals k := by
  obtain ⟨hnone, -⟩ | hmap := h l
  · rw [hnone] at hl
    cases hl
  · exact hmap

/-- One map is changed. -/
theorem Inv.update (h : Inv w s) (hm : m.Maintained) (hvals : ∀ k, m.values k = vals k) :
    Inv (Function.update w l (some m)) (Function.update s l (some vals)) := by
  intro l'
  by_cases hne : l' = l
  · subst hne
    exact .inr ⟨m, vals, Function.update_self .., Function.update_self .., hm, hvals⟩
  · rw [Function.update_of_ne hne, Function.update_of_ne hne]
    exact h l'

omit [DecidableEq K] in
theorem empty_maintained {c : PlainChar} : (HashMap.empty c : HashMap K V).Maintained :=
  maintained_ofTableSize (by decide)

theorem insert_spec (h : Inv w s) (hs : s l = some vals) (hm : m.Maintained)
    (hvals : ∀ k, m.values k = vals k) (p : K × V) :
    Inv (Function.update w l (some (m.insert p))) (Function.update s l
      ((s l).map fun vals k => vals k ++ if p.1 = k then [p.2] else [])) := by
  rw [hs]
  refine h.update (maintained_insert hm p) fun k => ?_
  rw [values_insert hm.toWF, hvals]

theorem step_spec (h : Inv w s) (hvalid : Valid w op) (hproper : Proper w op) :
    ∃ w', step w op = some w' ∧ Inv w' (op.effect w s) := by
  cases op with
  | new l c => exact ⟨_, rfl, h.update empty_maintained fun k => values_ofTableSize 7 c k⟩
  | insert l p =>
    obtain ⟨m, vals, hw, hs, hm, hvals⟩ := h.exists_map hvalid
    refine ⟨_, ?_, insert_spec h hs hm hvals p⟩
    simp only [step, hw, Option.bind_some, insertPair_eq hm, Option.map_some]
  | insertOwn l it =>
    obtain ⟨m, hw, hderef⟩ := hvalid
    obtain ⟨m', vals, hw', hs, hm, hvals⟩ := h.exists_map (Option.isSome_of_eq_some hw)
    obtain rfl := Option.some.inj (hw'.symm.trans hw)
    obtain ⟨p, hp⟩ := Option.isSome_iff_exists.mp hderef
    have hgrow := hproper m' hw
    have hsame : m'.insert p = m'.insertNoGrow p := by
      unfold HashMap.insert
      split_ifs with hfull
      · obtain hle | hgrow := hgrow
        · exact absurd hfull (Nat.not_lt_of_le hle)
        · exact congrArg (insertNoGrow · p) (if_pos (not_not.mp hgrow))
      · rfl
    have hinsert : m'.insertOwn it = some (m'.insert p) := by
      unfold insertOwn
      rw [hp, Option.bind_some, if_neg, hsame]
      rintro ⟨hfull, hcan⟩
      obtain hle | hgrow := hgrow
      · exact absurd hfull (Nat.not_lt_of_le hle)
      · exact hgrow hcan
    have heffect : (Op.insertOwn l it).effect w s = Function.update s l
        ((s l).map fun vals k => vals k ++ if p.1 = k then [p.2] else []) := by
      simp only [Op.effect, hw, Option.bind_some, hp]
    rw [heffect]
    refine ⟨_, ?_, insert_spec h hs hm hvals p⟩
    simp only [step, hw, Option.bind_some, hinsert, Option.map_some]
  | eraseAt l it =>
    obtain ⟨m, hw, hpoints⟩ := hvalid
    obtain ⟨m', vals, hw', hs, hm, hvals⟩ := h.exists_map (Option.isSome_of_eq_some hw)
    obtain rfl := Option.some.inj (hw'.symm.trans hw)
    obtain ⟨e, he⟩ := Option.isSome_iff_exists.mp (hproper.2 m' hw)
    obtain ⟨m₁, herase, hm₁, hvals₁⟩ := eraseAt_spec hm hpoints.1 he hproper.1
    refine ⟨Function.update w l (some m₁), ?_, ?_⟩
    · simp only [step, hw, Option.bind_some, herase, Option.map_some]
    · simp only [Op.effect, hw, he, hs, Option.map_some]
      refine h.update hm₁ fun k => ?_
      rw [hvals₁, hvals]
  | erase l k =>
    obtain ⟨m, vals, hw, hs, hm, hvals⟩ := h.exists_map hvalid
    refine ⟨_, congrArg (Option.map _) hw, ?_⟩
    simp only [Op.effect, hs, Option.map_some]
    refine h.update (maintained_erase hm k) fun k' => ?_
    rw [values_erase hm.toWF, hvals]
  | clear l =>
    obtain ⟨m, vals, hw, hs, hm, hvals⟩ := h.exists_map hvalid
    refine ⟨_, congrArg (Option.map _) hw, ?_⟩
    simp only [Op.effect, hs, Option.map_some]
    refine h.update (maintained_clear hm) fun k' => ?_
    rw [clear_eq, values_ofTableSize]
  | copy l src =>
    obtain ⟨m, vals, hw, hs, hm, hvals⟩ := h.exists_map hvalid.2
    refine ⟨_, congrArg (Option.map _) hw, ?_⟩
    simp only [Op.effect, hs, assign_other]
    exact h.update hm hvals
  | assign l src =>
    obtain ⟨m, vals, hw, hs, hm, hvals⟩ := h.exists_map hvalid.2
    obtain ⟨m₀, vals₀, hw₀, hs₀, hm₀, hvals₀⟩ := h.exists_map hvalid.1
    refine ⟨Function.update w l (some (m.assign (l = src))), ?_, ?_⟩
    · simp only [step, hw₀, Option.bind_some, hw, Option.map_some]
    · simp only [Op.effect, hs]
      by_cases heq : l = src
      · have hnil := hproper heq m₀ hw₀
        obtain rfl : m₀ = m := Option.some.inj (hw₀.symm.trans (heq ▸ hw))
        have hzero : m₀.size = 0 := hm₀.sized.trans (congrArg List.length hnil)
        have hself : m₀.assign true = ofTableSize m₀.table.length m₀.plainChar := by
          rw [assign_self, hzero]
          rfl
        rw [decide_eq_true heq, hself]
        refine h.update (maintained_ofTableSize hm₀.sizes) fun k => ?_
        rw [values_ofTableSize, ← hvals]
        unfold values
        rw [hnil]
        rfl
      · rw [decide_eq_false heq, assign_other]
        exact h.update hm hvals

theorem reaches_inv (h : Reaches w s) : Inv w s := by
  induction h with
  | start => exact fun _ => .inl ⟨rfl, rfl⟩
  | step _ hvalid hproper hstep ih =>
    obtain ⟨w', hw', hinv⟩ := step_spec ih hvalid hproper
    obtain rfl := Option.some.inj (hstep.symm.trans hw')
    exact hinv

end Steps

/-- In every state of a run in which no map that has entries is assigned to itself, no iterator at
the end is erased and none whose next place went, and no entry is inserted again where that makes
the table grow, every map is the multimap of what was inserted and not erased, in this order. -/
theorem isMultimap [DecidableEq K] [Hash K] {w : World K V} {s : Multimaps K V}
    (h : Reaches w s) : Represents w s ∧ ∀ op, Valid w op → Proper w op →
      ∃ w', step w op = some w' ∧ Represents w' (op.effect w s) := by
  have hinv := reaches_inv h
  refine ⟨hinv.represents, fun op hvalid hproper => ?_⟩
  obtain ⟨w', hstep, hw'⟩ := step_spec hinv hvalid hproper
  exact ⟨w', hstep, hw'.represents⟩

namespace Sample

instance natHash : Hash ℕ := ⟨fun _ k => k⟩

theorem isMultimap_inserted : ∃ (w : World ℕ ℕ) (s : Multimaps ℕ ℕ), (∃ m, w 0 = some m ∧
      m.toList = [(3, 1), (3, 2)]) ∧ Represents w s ∧ ∀ op, Valid w op → Proper w op →
      ∃ w', step w op = some w' ∧ Represents w' (op.effect w s) := by
  have hnew := @Reaches.step ℕ ℕ _ _ _ _ _ (.new 0) .start rfl trivial rfl
  have hfirst := @Reaches.step ℕ ℕ _ _ _ _ _ (.insert 0 (3, 1)) hnew rfl trivial rfl
  have hsecond := @Reaches.step ℕ ℕ _ _ _ _ _ (.insert 0 (3, 2)) hfirst rfl trivial rfl
  exact ⟨_, _, ⟨_, rfl, rfl⟩, isMultimap hsecond⟩

/-- A map with one entry that is assigned to itself has no entry and the size one. -/
theorem not_isMultimap_self : ∃ (w : World ℕ ℕ) (m : HashMap ℕ ℕ),
    run (fun _ => none) [.new 0, .insert 0 (3, 1), .assign 0 0] = some w ∧ w 0 = some m ∧
      m.size = 1 ∧ m.toList = [] ∧ ∀ vals, ¬ Faithful m vals := by
  refine ⟨_, _, rfl, rfl, rfl, rfl, fun vals h => ?_⟩
  exact absurd h.size (by decide)

end Sample

end HashMapPrograms
end Haggle
