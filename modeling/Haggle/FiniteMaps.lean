import Haggle.OrderedMaps
import Mathlib.Data.Nat.Basic

/-!
# Programs with maps

Any number of maps that are filled, searched, emptied, copied and assigned. The abstract state has a
function from the keys for each map. A copy has as many slots as the other map has entries, but the
size of the other map, which may be larger after entries were erased.
-/

namespace Haggle
namespace FiniteMaps

open BasicMap SortedEntries

variable {K V : Type}

section Model

variable [LinearOrder K] [Inhabited V]

/-- The operations on one map. `setIndex` is a write to what `operator[]` gives; `eraseOwn` erases
the key that an iterator of the map comes to. -/
inductive MapOp (K V : Type)
  | insert (x : K × V)
  | insertAt (pos : ℕ) (x : K × V)
  | find (k : K)
  | index (k : K)
  | setIndex (k : K) (v : V)
  | erase (k : K)
  | eraseAt (pos : ℕ)
  | eraseOwn (pos : ℕ)
  | clear

/-- What is at the iterator or the reference, and what else is given back. -/
inductive Answer (K V : Type)
  | none
  | entry (e : Option (K × V))
  | inserted (e : Option (K × V)) (new : Bool)
  | count (n : ℕ)

def MapOp.run (m : BasicMap K V) : MapOp K V → Option (BasicMap K V × Answer K V)
  | .insert x => (m.insertUnique x).map fun r => (r.1, .inserted (r.1.deref r.2.1) r.2.2)
  | .insertAt pos x => (m.insertUniqueAt pos x).map fun m' => (m', .entry (m'.deref pos))
  | .find k => (m.find k).map fun i => (m, .entry (m.deref i))
  | .index k => (m.subscript k).map fun r => (r.1, .entry (r.1.entry r.2))
  | .setIndex k v => (m.subscript k).map fun r => (r.1.setValue r.2 v, .none)
  | .erase k => (m.erase k .value).map fun r => (r.1, .count r.2)
  | .eraseAt pos => some (m.eraseAt pos, .none)
  | .eraseOwn pos =>
    (m.deref pos).bind fun e => (m.erase e.1 (.entryAt pos)).map fun r => (r.1, .count r.2)
  | .clear => some (.empty, .none)

/-- The maps by their names. -/
abbrev World (K V : Type) := ℕ → Option (BasicMap K V)

inductive Op (K V : Type)
  | new (l : ℕ)
  | on (l : ℕ) (op : MapOp K V)
  | copy (l src : ℕ)
  | assign (l src : ℕ)

def step (w : World K V) : Op K V → Option (World K V × Answer K V)
  | .new l => some (Function.update w l (some .empty), .none)
  | .on l op =>
    (w l).bind fun m => (op.run m).map fun r => (Function.update w l (some r.1), r.2)
  | .copy l src => (w src).map fun m => (Function.update w l (some m.copy), .none)
  | .assign l src =>
    (w l).bind fun _ => (w src).map fun m =>
      (if l = src then w else Function.update w l (some m.copy), .none)

def run (w : World K V) (ops : List (Op K V)) : Option (World K V) :=
  ops.foldlM (fun w op => (step w op).map Prod.fst) w

end Model

section Meaning

variable [LinearOrder K] [Inhabited V]

/-- A key that has no value gets one. -/
def insertNew (f : K → Option V) (k : K) (v : V) : K → Option V :=
  Function.update f k (some ((f k).getD v))

/-- The function that an operation leaves, and its answer. -/
def MapOp.meaning (m : BasicMap K V) (f : K → Option V) :
    MapOp K V → (K → Option V) × Answer K V
  | .insert x =>
    (insertNew f x.1 x.2, .inserted (some (x.1, (f x.1).getD x.2)) (f x.1).isNone)
  | .insertAt _ x => (insertNew f x.1 x.2, .entry (some (x.1, (f x.1).getD x.2)))
  | .find k => (f, .entry ((f k).map (k, ·)))
  | .index k => (insertNew f k default, .entry (some (k, (f k).getD default)))
  | .setIndex k v => (Function.update f k (some v), .none)
  | .erase k => (Function.update f k none, .count (f k).toList.length)
  | .eraseAt pos =>
    match m.live pos with
    | some e => (Function.update f e.1 none, .none)
    | none => (f, .none)
  | .eraseOwn pos =>
    match m.live pos with
    | some e => (Function.update f e.1 none, .count 1)
    | none => (f, .count 0)
  | .clear => (fun _ => none, .none)

/-- The functions of the maps. -/
abbrev Functions (K V : Type) := ℕ → Option (K → Option V)

def Op.effect (w : World K V) (s : Functions K V) : Op K V → Functions K V
  | .new l => Function.update s l (some fun _ => none)
  | .on l op =>
    match w l, s l with
    | some m, some f => Function.update s l (some (op.meaning m f).1)
    | _, _ => s
  | .copy l src | .assign l src => Function.update s l (s src)

def Op.answer (w : World K V) (s : Functions K V) : Op K V → Answer K V
  | .on l op =>
    match w l, s l with
    | some m, some f => (op.meaning m f).2
    | _, _ => .none
  | _ => .none

/-- The entries are those of the function, strictly sorted by their keys; the iterators come to each
of them. There is room for as many as the map has a size for. -/
structure Faithful (m : BasicMap K V) (f : K → Option V) : Prop where
  entries : ∃ es, m.theMap.take m.numberOfEntries = es.map some ∧ es.length = m.numberOfEntries ∧
    StrictlySorted es ∧ (∀ k v, (k, v) ∈ es ↔ f k = some v) ∧ m.Walks m.begin npos es
  room : m.numberOfEntries ≤ m.mapSize
  allocated : m.mapSize ≤ m.theMap.length

structure AllFaithful (w : World K V) (s : Functions K V) : Prop where
  maps : ∀ l m, w l = some m → ∃ f, s l = some f ∧ Faithful m f
  noMaps : ∀ l, w l = none → s l = none

/-- One more entry can be counted, or the key has one. -/
def HasRoom (m : BasicMap K V) (k : K) : Prop :=
  m.numberOfEntries < npos ∨ ∃ pos e, m.live pos = some e ∧ e.1 = k

/-- The position is that of the entry of the key or the one where such an entry goes. -/
def Fits (m : BasicMap K V) (pos : ℕ) (k : K) : Prop :=
  (∃ e, m.live pos = some e ∧ e.1 = k) ∨
    pos ≤ m.numberOfEntries ∧ (∀ i e, i < pos → m.live i = some e → e.1 < k) ∧
      ∀ i e, pos ≤ i → m.live i = some e → k < e.1

/-- An iterator whose key is read comes to an entry. -/
def MapOp.Valid (m : BasicMap K V) : MapOp K V → Prop
  | .eraseOwn pos => pos < m.numberOfEntries
  | _ => True

/-- A position that is given for an insertion is the right one, and a key that is itself erased is
that of the last entry. -/
def MapOp.Proper (m : BasicMap K V) : MapOp K V → Prop
  | .insert x => HasRoom m x.1
  | .insertAt pos x => HasRoom m x.1 ∧ Fits m pos x.1
  | .index k | .setIndex k _ => HasRoom m k
  | .eraseOwn pos => pos + 1 = m.numberOfEntries
  | _ => True

/-- The maps that an operation names are there or, where it makes one, are not. -/
def Valid (w : World K V) : Op K V → Prop
  | .new l => w l = none
  | .on l op => ∃ m, w l = some m ∧ op.Valid m
  | .copy l src => w l = none ∧ (w src).isSome
  | .assign l src => (w l).isSome ∧ (w src).isSome

/-- Only a map with no spare slots is copied to another. -/
def Proper (w : World K V) : Op K V → Prop
  | .new _ => True
  | .on l op => ∀ m ∈ w l, op.Proper m
  | .copy _ src => ∀ m ∈ w src, m.mapSize = m.numberOfEntries
  | .assign l src => l ≠ src → ∀ m ∈ w src, m.mapSize = m.numberOfEntries

/-- The states of the runs of proper operations. -/
inductive Reaches : World K V → Functions K V → Prop
  | start : Reaches (fun _ => none) fun _ => none
  | step {w w' : World K V} {s : Functions K V} {o : Op K V} {r : Answer K V} : Reaches w s →
      Valid w o → Proper w o → step w o = some (w', r) → Reaches w' (o.effect w s)

end Meaning

section Maps

variable [LinearOrder K] {m : BasicMap K V} {f : K → Option V} {es : List (K × V)} {k : K}
  {v : V} {e x : K × V} {pos : ℕ}

/-- The map has entries, which are those of the function. -/
def Kept (m : BasicMap K V) (f : K → Option V) : Prop := ∃ es, Holds m es ∧ Represents es f

theorem Kept.faithful (h : Kept m f) : Faithful m f := by
  obtain ⟨es, hes, hf⟩ := h
  exact ⟨⟨es, hes.entries, hes.number.symm, hf.sorted, hf.mem_iff, walks_begin hes⟩, hes.room,
    hes.allocated⟩

theorem kept_empty : Kept (.empty : BasicMap K V) fun _ => none :=
  ⟨[], holds_empty, represents_nil⟩

theorem Kept.copy (h : Kept m f) (hfull : m.mapSize = m.numberOfEntries) : Kept m.copy f := by
  obtain ⟨es, hes, hf⟩ := h
  refine ⟨es, ⟨?_, hes.number, hes.room, ?_, hes.short⟩, hf⟩
  · show (m.theMap.take m.numberOfEntries).take m.numberOfEntries = _
    rw [List.take_take, Nat.min_self, hes.entries]
  · show m.mapSize ≤ (m.theMap.take m.numberOfEntries).length
    rw [hes.entries, List.length_map, hfull]
    exact Nat.le_of_eq hes.number

theorem Kept.split (h : Kept m f) (k : K) : ∃ es, Holds m es ∧ Represents es f ∧
    ((f k = none ∧ ∃ a c, Cut k es a [] c) ∨ ∃ v, f k = some v ∧ ∃ a c, Cut k es a [(k, v)] c) := by
  obtain ⟨es, hes, hf⟩ := h
  obtain ⟨a, b, c, hcut⟩ := exists_cut hf.sorted.sorted k
  have hb := hcut.eq_of_represents hf
  refine ⟨es, hes, hf, ?_⟩
  cases hk : f k with
  | none =>
    rw [hk] at hb
    obtain rfl : b = [] := hb
    exact .inl ⟨rfl, a, c, hcut⟩
  | some v =>
    rw [hk] at hb
    obtain rfl : b = [(k, v)] := hb
    exact .inr ⟨v, rfl, a, c, hcut⟩

theorem HasRoom.short (h : HasRoom m k) (hes : Holds m es) (hf : Represents es f)
    (hk : f k = none) : es.length < npos := by
  obtain hlt | ⟨pos, e, hlive, rfl⟩ := h
  · exact hes.number ▸ hlt
  · rw [live_eq hes] at hlive
    have hmem := (hf.mem_iff e.1 e.2).mp (List.mem_of_getElem? hlive)
    rw [hk] at hmem
    cases hmem

theorem insertNew_of_none (hk : f k = none) (v : V) :
    insertNew f k v = Function.update f k (some v) := by
  unfold insertNew
  rw [hk]
  rfl

theorem insertNew_of_some {w : V} (hk : f k = some w) (v : V) : insertNew f k v = f := by
  unfold insertNew
  rw [hk]
  exact Function.update_eq_self_iff.mpr hk.symm

section Operations

variable [Inhabited V]

theorem insert_spec (h : Kept m f) (hroom : HasRoom m x.1) :
    ∃ m', (MapOp.insert x).run m = some (m', ((MapOp.insert x).meaning m f).2) ∧
      Kept m' ((MapOp.insert x).meaning m f).1 := by
  unfold MapOp.run MapOp.meaning
  obtain ⟨es, hes, hf, ⟨hk, a, c, hcut⟩ | ⟨v, hk, a, c, hcut⟩⟩ := h.split x.1
  · obtain ⟨m', hinsert, hm'⟩ := insertUnique_of_nil hes hcut (hroom.short hes hf hk)
    refine ⟨m', ?_, a ++ x :: c, hm', ?_⟩
    · simp only [hinsert, Option.map_some, hm'.deref_append, hk]
      rfl
    · show Represents _ (insertNew f x.1 x.2)
      rw [insertNew_of_none hk]
      exact represents_update hcut hf x.2
  · refine ⟨m, ?_, es, hes, ?_⟩
    · have hes' := hes
      rw [hcut.eq] at hes'
      simp only [insertUnique_of_single hes hcut, Option.map_some, hk]
      exact congrArg (fun e => some (m, Answer.inserted e false)) hes'.deref_append
    · show Represents _ (insertNew f x.1 x.2)
      rw [insertNew_of_some hk]
      exact hf

theorem insertAt_spec (h : Kept m f) (hroom : HasRoom m x.1) (hfits : Fits m pos x.1) :
    ∃ m', (MapOp.insertAt pos x).run m = some (m', ((MapOp.insertAt pos x).meaning m f).2) ∧
      Kept m' ((MapOp.insertAt pos x).meaning m f).1 := by
  unfold MapOp.run MapOp.meaning
  obtain ⟨es, hes, hf⟩ := h
  obtain ⟨e, hlive, he⟩ | ⟨hle, hbelow, habove⟩ := hfits
  · obtain ⟨a, b, rfl, rfl⟩ := exists_append_of_live hes hlive
    have hk : f x.1 = some e.2 := (hf.mem_iff x.1 e.2).mp (by rw [← he]; simp)
    have hx : (x.1, e.2) = e := by rw [← he]
    refine ⟨m, ?_, a ++ e :: b, hes, ?_⟩
    · simp only [insertUniqueAt_of_eq hes he, Option.map_some, hes.deref_append, hk]
      rw [Option.getD_some, hx]
    · show Represents _ (insertNew f x.1 x.2)
      rw [insertNew_of_some hk]
      exact hf
  · have hlen : (es.take pos).length = pos := List.length_take_of_le (hes.number ▸ hle)
    have hcut : Cut x.1 es (es.take pos) [] (es.drop pos) :=
      ⟨(List.take_append_drop pos es).symm, forall_mem_take hes hbelow, nofun,
        forall_mem_drop hes habove⟩
    have hk : f x.1 = none := by
      have hnil := hcut.eq_of_represents hf
      cases hk : f x.1 with
      | none => rfl
      | some v =>
        rw [hk] at hnil
        cases hnil
    have hshort := hroom.short hes hf hk
    rw [hcut.eq] at hes hshort
    obtain ⟨m', hinsert, hm'⟩ := BasicMap.insertAt_spec hes hshort x
    have hsame := insertUniqueAt_of_ne (x := x) hes fun e he => ne_of_gt (hcut.above e he)
    rw [hlen] at hinsert hsame
    have hderef := hm'.deref_append
    rw [hlen] at hderef
    refine ⟨m', ?_, _, hm', ?_⟩
    · simp only [hsame, hinsert, Option.map_some, hderef, hk]
      rfl
    · show Represents _ (insertNew f x.1 x.2)
      rw [insertNew_of_none hk]
      exact represents_update hcut hf x.2

theorem find_spec (h : Kept m f) (k : K) :
    (MapOp.find k).run m = some (m, ((MapOp.find k).meaning m f).2) := by
  unfold MapOp.run MapOp.meaning
  obtain ⟨es, hes, hf, ⟨hk, a, c, hcut⟩ | ⟨v, hk, a, c, hcut⟩⟩ := h.split k
  · simp only [find_of_nil hes hcut, Option.map_some, hk]
    rfl
  · have hes' := hes
    rw [hcut.eq] at hes'
    simp only [find_of_cons hes hcut, Option.map_some, hk]
    exact congrArg (fun e => some (m, Answer.entry e)) hes'.deref_append

/-- After `operator[]` there is an entry of the key. -/
theorem subscript_spec (h : Kept m f) (hroom : HasRoom m k) : ∃ m' a c,
    m.subscript k = some (m', a.length) ∧ Holds m' (a ++ (k, (f k).getD default) :: c) ∧
      Represents (a ++ (k, (f k).getD default) :: c) (insertNew f k default) := by
  obtain ⟨es, hes, hf, ⟨hk, a, c, hcut⟩ | ⟨v, hk, a, c, hcut⟩⟩ := h.split k
  · obtain ⟨m', hsub, hm'⟩ := subscript_of_nil hes hcut (hroom.short hes hf hk)
    rw [insertNew_of_none hk, hk]
    exact ⟨m', a, c, hsub, hm', represents_update hcut hf default⟩
  · have hsub := subscript_of_single hes hcut
    rw [hcut.eq] at hes hf
    rw [insertNew_of_some hk, hk]
    exact ⟨m, a, c, hsub, hes, hf⟩

theorem index_spec (h : Kept m f) (hroom : HasRoom m k) :
    ∃ m', (MapOp.index k).run m = some (m', ((MapOp.index k).meaning m f).2) ∧
      Kept m' ((MapOp.index k).meaning m f).1 := by
  obtain ⟨m', a, c, hsub, hm', hf⟩ := subscript_spec h hroom
  refine ⟨m', ?_, _, hm', hf⟩
  unfold MapOp.run MapOp.meaning
  simp only [hsub, Option.map_some, hm'.entry_append]

theorem setIndex_spec (h : Kept m f) (hroom : HasRoom m k) (v : V) :
    ∃ m', (MapOp.setIndex k v).run m = some (m', ((MapOp.setIndex k v).meaning m f).2) ∧
      Kept m' ((MapOp.setIndex k v).meaning m f).1 := by
  obtain ⟨m', a, c, hsub, hm', hf⟩ := subscript_spec h hroom
  refine ⟨m'.setValue a.length v, ?_, _, setValue_spec hm' v, ?_⟩
  · unfold MapOp.run MapOp.meaning
    simp only [hsub, Option.map_some]
  · have hupdate := represents_update (cut_of_strictlySorted hf.sorted) hf v
    rwa [insertNew, Function.update_idem] at hupdate

theorem erase_spec (h : Kept m f) (k : K) :
    ∃ m', (MapOp.erase k).run m = some (m', ((MapOp.erase k).meaning m f).2) ∧
      Kept m' ((MapOp.erase k).meaning m f).1 := by
  unfold MapOp.run MapOp.meaning
  obtain ⟨es, hes, hf, ⟨hk, a, c, hcut⟩ | ⟨v, hk, a, c, hcut⟩⟩ := h.split k
  · refine ⟨m, ?_, es, hes, ?_⟩
    · simp only [erase_of_nil hes hcut, Option.map_some, hk]
      rfl
    · show Represents _ (Function.update f k none)
      rw [Function.update_eq_self_iff.mpr hk.symm]
      exact hf
  · obtain ⟨m', herase, hm'⟩ := erase_of_single (r := .value) hes hcut nofun nofun
    rw [hcut.eq] at hf
    refine ⟨m', ?_, a ++ c, hm', represents_erase hf⟩
    simp only [herase, Option.map_some, hk]
    rfl

theorem eraseAt_spec (h : Kept m f) (pos : ℕ) :
    ∃ m', (MapOp.eraseAt pos).run m = some (m', ((MapOp.eraseAt pos).meaning m f).2) ∧
      Kept m' ((MapOp.eraseAt pos).meaning m f).1 := by
  obtain ⟨es, hes, hf⟩ := h
  cases hlive : m.live pos with
  | none =>
    have hmeaning : (MapOp.eraseAt pos).meaning m f = (f, .none) := by
      simp only [MapOp.meaning, hlive]
    rw [live_eq hes, List.getElem?_eq_none_iff, ← hes.number] at hlive
    rw [hmeaning]
    exact ⟨m, congrArg (fun m' => some (m', Answer.none)) (eraseAt_of_le hlive), es, hes, hf⟩
  | some e =>
    have hmeaning : (MapOp.eraseAt pos).meaning m f = (Function.update f e.1 none, .none) := by
      simp only [MapOp.meaning, hlive]
    obtain ⟨a, b, rfl, rfl⟩ := exists_append_of_live hes hlive
    rw [hmeaning]
    exact ⟨_, rfl, _, BasicMap.eraseAt_spec hes, represents_erase hf⟩

/-- The key of the last entry is not read after the entry is gone. -/
theorem eraseOwn_spec (h : Kept m f) (hvalid : pos < m.numberOfEntries)
    (hlast : pos + 1 = m.numberOfEntries) :
    ∃ m', (MapOp.eraseOwn pos).run m = some (m', ((MapOp.eraseOwn pos).meaning m f).2) ∧
      Kept m' ((MapOp.eraseOwn pos).meaning m f).1 := by
  obtain ⟨es, hes, hf⟩ := h
  have hlt : pos < es.length := hes.number ▸ hvalid
  have hlive : m.live pos = some es[pos] := by
    rw [live_eq hes]
    exact List.getElem?_eq_getElem hlt
  obtain ⟨a, b, heq, hlen⟩ := exists_append_of_live hes hlive
  generalize es[pos] = e at hlive heq
  subst heq hlen
  have hb : b = [] := by
    have hnumber := hes.number
    rw [← hlast, List.length_append, List.length_cons] at hnumber
    exact List.length_eq_zero_iff.mp (by omega)
  obtain ⟨m', herase, hm'⟩ := erase_of_single (r := .entryAt a.length) hes
    (cut_of_strictlySorted hf.sorted) nofun fun _ => hb
  unfold MapOp.run MapOp.meaning
  simp only [hlive, hes.deref_append, Option.bind_some, herase, Option.map_some]
  exact ⟨m', rfl, _, hm', represents_erase hf⟩

theorem run_spec (h : Kept m f) {o : MapOp K V} (hvalid : o.Valid m) (hproper : o.Proper m) :
    ∃ m', o.run m = some (m', (o.meaning m f).2) ∧ Kept m' (o.meaning m f).1 := by
  cases o with
  | insert x => exact insert_spec h hproper
  | insertAt pos x => exact insertAt_spec h hproper.1 hproper.2
  | find k => exact ⟨m, find_spec h k, h⟩
  | index k => exact index_spec h hproper
  | setIndex k v => exact setIndex_spec h hproper v
  | erase k => exact erase_spec h k
  | eraseAt pos => exact eraseAt_spec h pos
  | eraseOwn pos => exact eraseOwn_spec h hvalid hproper
  | clear => exact ⟨_, rfl, kept_empty⟩

end Operations

end Maps

section Steps

variable [LinearOrder K] [Inhabited V] {w w' : World K V} {s : Functions K V} {l : ℕ}
  {m : BasicMap K V} {f : K → Option V} {o : Op K V} {r : Answer K V}

/-- Every map is one that keeps the function of its name. -/
def Inv (w : World K V) (s : Functions K V) : Prop := ∀ l, Option.Rel Kept (w l) (s l)

omit [Inhabited V] in
theorem Inv.exists_function (h : Inv w s) (hm : w l = some m) : ∃ f, s l = some f ∧ Kept m f := by
  have hrel := h l
  rw [hm] at hrel
  cases hs : s l with
  | none =>
    rw [hs] at hrel
    cases hrel
  | some f =>
    rw [hs] at hrel
    exact ⟨f, rfl, Option.rel_some_some.mp hrel⟩

omit [Inhabited V] in
theorem Inv.allFaithful (h : Inv w s) : AllFaithful w s where
  maps l m hm := by
    obtain ⟨f, hs, hkept⟩ := h.exists_function hm
    exact ⟨f, hs, hkept.faithful⟩
  noMaps l hl := by
    have hrel := h l
    rw [hl] at hrel
    cases hs : s l with
    | none => rfl
    | some f =>
      rw [hs] at hrel
      cases hrel

omit [Inhabited V] in
/-- One map is changed. -/
theorem Inv.update (h : Inv w s) (l : ℕ) (hm : Kept m f) :
    Inv (Function.update w l (some m)) (Function.update s l (some f)) := by
  intro l'
  by_cases hne : l' = l
  · subst hne
    rw [Function.update_self, Function.update_self]
    exact .some hm
  · rw [Function.update_of_ne hne, Function.update_of_ne hne]
    exact h l'

theorem step_spec (h : Inv w s) (hvalid : Valid w o) (hproper : Proper w o) :
    ∃ w', step w o = some (w', o.answer w s) ∧ Inv w' (o.effect w s) := by
  cases o with
  | new l => exact ⟨_, rfl, h.update l kept_empty⟩
  | on l op =>
    obtain ⟨m, hw, hvalid⟩ := hvalid
    obtain ⟨f, hs, hm⟩ := h.exists_function hw
    obtain ⟨m', hrun, hm'⟩ := run_spec hm hvalid (hproper m hw)
    refine ⟨Function.update w l (some m'), ?_, ?_⟩
    · simp only [step, Op.answer, hw, hs, Option.bind_some, hrun, Option.map_some]
    · simp only [Op.effect, hw, hs]
      exact h.update l hm'
  | copy l src =>
    obtain ⟨m, hw⟩ := Option.isSome_iff_exists.mp hvalid.2
    obtain ⟨f, hs, hm⟩ := h.exists_function hw
    refine ⟨_, congrArg (Option.map _) hw, ?_⟩
    simp only [Op.effect, hs]
    exact h.update l (hm.copy (hproper m hw))
  | assign l src =>
    obtain ⟨m₀, hw₀⟩ := Option.isSome_iff_exists.mp hvalid.1
    obtain ⟨m, hw⟩ := Option.isSome_iff_exists.mp hvalid.2
    obtain ⟨f, hs, hm⟩ := h.exists_function hw
    refine ⟨if l = src then w else Function.update w l (some m.copy), ?_, ?_⟩
    · simp only [step, hw₀, hw, Option.bind_some, Option.map_some]
      rfl
    · show Inv _ (Function.update s l (s src))
      by_cases heq : l = src
      · rw [if_pos heq, heq, Function.update_eq_self]
        exact h
      · rw [if_neg heq, hs]
        exact h.update l (hm.copy (hproper heq m hw))

theorem reaches_inv (h : Reaches w s) : Inv w s := by
  induction h with
  | start => exact fun _ => .none
  | step _ hvalid hproper hstep ih =>
    obtain ⟨w', hw', hinv⟩ := step_spec ih hvalid hproper
    obtain ⟨rfl, -⟩ := Prod.mk.inj (Option.some.inj (hstep.symm.trans hw'))
    exact hinv

end Steps

/-- In every state of a run in which only maps with no spare slots are copied, every insertion at a
given position is at the right one and no key is erased that is the key of an entry before the
last, every map is the function of what was inserted and not erased, and the next such operation
gives what this function says. -/
theorem isFiniteMap [LinearOrder K] [Inhabited V] {w : World K V} {s : Functions K V}
    (h : Reaches w s) : AllFaithful w s ∧ ∀ o, Valid w o → Proper w o →
      ∃ w', step w o = some (w', o.answer w s) ∧ AllFaithful w' (o.effect w s) := by
  have hinv := reaches_inv h
  refine ⟨hinv.allFaithful, fun o hvalid hproper => ?_⟩
  obtain ⟨w', hstep, hw'⟩ := step_spec hinv hvalid hproper
  exact ⟨w', hstep, hw'.allFaithful⟩

namespace Sample

theorem isFiniteMap_inserted : ∃ (w : World ℕ ℕ) (s : Functions ℕ ℕ), (∃ m, w 0 = some m ∧
      m.theMap = [some (2, 5), some (3, 1)]) ∧ AllFaithful w s ∧
      ∀ o, Valid w o → Proper w o →
        ∃ w', step w o = some (w', o.answer w s) ∧ AllFaithful w' (o.effect w s) := by
  have hroom : ∀ n < 2, n < npos := by decide
  refine ⟨_, _, ?_, isFiniteMap (.step (o := .on 0 (.setIndex 2 5)) (.step (o := .on 0
    (.insert (3, 1))) (.step (o := .new 0) .start rfl trivial rfl) ⟨_, rfl, trivial⟩ ?_ rfl)
    ⟨_, rfl, trivial⟩ ?_ rfl)⟩
  · exact ⟨_, rfl, rfl⟩
  · rintro m ⟨⟩
    exact .inl (hroom 0 (by decide))
  · rintro m ⟨⟩
    exact .inl (hroom 1 (by decide))

/-- After an entry was erased the copy has a size that is more than its slots, and an insertion in
the copy writes outside of them. -/
theorem not_isFiniteMap_copied : ∃ (w : World ℕ ℕ) (m : BasicMap ℕ ℕ),
    run (fun _ => none) [.new 0, .on 0 (.insert (1, 1)), .on 0 (.insert (2, 2)), .on 0 (.erase 1),
      .copy 1 0] = some w ∧ w 1 = some m ∧ m.theMap.length < m.mapSize ∧
      (∀ f, ¬ Faithful m f) ∧ step w (.on 1 (.insert (3, 3))) = none := by
  refine ⟨_, _, rfl, rfl, by decide, fun f h => ?_, rfl⟩
  exact absurd h.allocated (by decide)

end Sample

end FiniteMaps
end Haggle
