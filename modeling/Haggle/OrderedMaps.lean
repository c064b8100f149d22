import Haggle.SortedEntries

/-!
# Maps in an array

`BasicMap`, from which `Map` and `MultiMap` are made, has pointers to its entries in an array. A
binary search with a largest number that stands for no position finds an entry or the place for it.
The length that the array is said to have is counted apart from the one that was allocated.
-/

namespace Haggle

open SortedEntries

section Model

/-- The slots of the array, as many as were allocated. -/
structure BasicMap (K V : Type) where
  theMap : List (Option (K × V))
  numberOfEntries : ℕ
  mapSize : ℕ

namespace BasicMap

variable {K V : Type}

/-- The largest position, where `end()` is. -/
def npos : ℕ := 2 ^ 64 - 1

/-- One less, of a `size_type`. -/
def predecessor (n : ℕ) : ℕ := if n = 0 then npos else n - 1

def empty : BasicMap K V := ⟨[], 0, 0⟩

/-- What the pointer in a slot of the array points to. -/
def entry (m : BasicMap K V) (i : ℕ) : Option (K × V) := (m.theMap[i]?).join

/-- The copy constructor; `operator=` does the same when the maps are not the same. -/
def copy (m : BasicMap K V) : BasicMap K V :=
  ⟨m.theMap.take m.numberOfEntries, m.numberOfEntries, m.mapSize⟩

/-- `begin()`. -/
def begin (m : BasicMap K V) : ℕ := if 0 < m.numberOfEntries then 0 else npos

/-- `operator++`. -/
def next (m : BasicMap K V) (i : ℕ) : ℕ :=
  if i < npos then if m.numberOfEntries ≤ i + 1 then npos else i + 1 else i

/-- `operator*`; the end has none. -/
def deref (m : BasicMap K V) (i : ℕ) : Option (K × V) := if i = npos then none else m.entry i

/-- `_insert` at a position. There is no result where the code writes outside of the array. -/
def insertAt (m : BasicMap K V) (pos : ℕ) (x : K × V) : Option (BasicMap K V) :=
  let n := m.numberOfEntries
  if n < m.mapSize then
    if pos ≤ n then
      -- the entries from the position on move up by one slot
      if n < m.theMap.length then
        some ⟨m.theMap.take pos ++ some x :: (m.theMap.take n).drop pos ++ m.theMap.drop (n + 1),
          n + 1, m.mapSize⟩
      else none
    else if pos < m.theMap.length then some ⟨m.theMap.set pos (some x), n + 1, m.mapSize⟩
    else none
  else
    -- a new array has one slot more than there are entries
    if pos ≤ n then
      some ⟨m.theMap.take pos ++ some x :: (m.theMap.take n).drop pos, n + 1, m.mapSize + 1⟩
    else none

/-- `erase(iterator)`: the entries behind move down, and the last slot keeps its pointer. -/
def eraseAt (m : BasicMap K V) (pos : ℕ) : BasicMap K V :=
  let n := m.numberOfEntries
  if n ≤ pos then m
  else
    let theMap := m.theMap.set pos none
    ⟨theMap.take pos ++ (theMap.take n).drop (pos + 1) ++ theMap.drop (n - 1), n - 1, m.mapSize⟩

variable [LinearOrder K]

/-- The loop that goes back to the first one of the entries with the key. -/
def back (m : BasicMap K V) (k : K) : ℕ → ℕ
  | 0 => 0
  | pos + 1 => if (m.entry pos).any fun e => e.1 = k then m.back k pos else pos + 1

/-- `_find` between two positions. -/
def findIn (m : BasicMap K V) (k : K) (findFirst : Bool) :
    ℕ → ℕ → ℕ → ℕ → Option (ℕ × Bool)
  | 0, _, _, _ => none
  | fuel + 1, leftMin, rightMax, before =>
    if rightMax = npos ∨ rightMax < leftMin then some (before, false)
    else
      let pos := (rightMax - leftMin + 1) / 2 + leftMin
      (m.entry pos).bind fun e =>
        if e.1 < k then m.findIn k findFirst fuel (pos + 1) rightMax (pos + 1)
        else if k < e.1 then m.findIn k findFirst fuel leftMin (predecessor pos) pos
        else some (if findFirst then m.back k pos else pos, true)

/-- `_find`. -/
def search (m : BasicMap K V) (k : K) (findFirst : Bool) : Option (ℕ × Bool) :=
  m.findIn k findFirst (m.numberOfEntries + 1) 0 (predecessor m.numberOfEntries) 0

def find (m : BasicMap K V) (k : K) : Option ℕ :=
  (m.search k true).map fun r => if r.2 then r.1 else npos

/-- The loop of `equal_range`, with as many turns as there are entries. -/
def highLoop (m : BasicMap K V) (k : K) : ℕ → ℕ → Option ℕ
  | 0, _ => none
  | fuel + 1, i =>
    if i = npos then some i
    else (m.entry i).bind fun e => if k = e.1 then m.highLoop k fuel (m.next i) else some i

def equalRange (m : BasicMap K V) (k : K) : Option (ℕ × ℕ) :=
  (m.find k).bind fun low => (m.highLoop k (m.numberOfEntries + 1) low).map (low, ·)

/-- `insert_unique` with a position. -/
def insertUniqueAt (m : BasicMap K V) (pos : ℕ) (x : K × V) : Option (BasicMap K V) :=
  if pos < m.numberOfEntries then
    (m.entry pos).bind fun e => if e.1 = x.1 then some m else m.insertAt pos x
  else m.insertAt pos x

/-- `insert` of the multimap: the map and the position. -/
def insertEqual (m : BasicMap K V) (x : K × V) : Option (BasicMap K V × ℕ) :=
  (m.search x.1 true).bind fun r => (m.insertAt r.1 x).map (·, r.1)

/-- `insert_unique`: the map, the position, and whether it was inserted. -/
def insertUnique (m : BasicMap K V) (x : K × V) : Option (BasicMap K V × ℕ × Bool) :=
  (m.search x.1 false).bind fun r =>
    if r.2 then some (m, r.1, false) else (m.insertAt r.1 x).map (·, r.1, true)

/-- What the key that `erase` gets is: a value of its own, that of an entry of the map, or that of
an entry that is gone. -/
inductive KeyRef
  | value
  | entryAt (pos : ℕ)
  | gone
deriving DecidableEq

/-- The entry at a position is erased. -/
def KeyRef.erased (pos : ℕ) : KeyRef → KeyRef
  | .entryAt i => if i = pos then .gone else if pos < i then .entryAt (i - 1) else .entryAt i
  | r => r

/-- The loop of `erase(const Key&)`. -/
def eraseLoop (k : K) : ℕ → BasicMap K V → KeyRef → ℕ → ℕ → Option (BasicMap K V × ℕ)
  | 0, _, _, _, _ => none
  | fuel + 1, m, r, it, n =>
    if it = npos then some (m, n)
    else if r = .gone then none
    else
      (m.entry it).bind fun e =>
        if e.1 = k then
          eraseLoop k fuel (m.eraseAt it) (if it < m.numberOfEntries then r.erased it else r)
            (m.next it) (n + 1)
        else some (m, n)

def erase (m : BasicMap K V) (k : K) (r : KeyRef) : Option (BasicMap K V × ℕ) :=
  (m.find k).bind fun it => eraseLoop k (m.numberOfEntries + 1) m r it 0

/-- `operator[]`: the position of the entry of the key. -/
def subscript [Inhabited V] (m : BasicMap K V) (k : K) : Option (BasicMap K V × ℕ) :=
  (m.search k false).bind fun r =>
    if r.2 then some (m, r.1) else (m.insertUniqueAt r.1 (k, default)).map (·, r.1)

/-- A write to the value of an entry. -/
def setValue (m : BasicMap K V) (i : ℕ) (v : V) : BasicMap K V :=
  { m with theMap := m.theMap.modify i fun o => o.map fun e => (e.1, v) }

end BasicMap

end Model

namespace BasicMap

section Entries

variable {K V : Type} {m m' : BasicMap K V} {es a b c : List (K × V)} {e x : K × V} {pos : ℕ}

/-- The entries are in the first slots, and there are as many slots as the map counts. -/
structure Holds (m : BasicMap K V) (es : List (K × V)) : Prop where
  entries : m.theMap.take m.numberOfEntries = es.map some
  number : m.numberOfEntries = es.length
  room : m.numberOfEntries ≤ m.mapSize
  allocated : m.mapSize ≤ m.theMap.length
  short : es.length ≤ npos

theorem holds_empty : Holds (empty : BasicMap K V) [] :=
  ⟨rfl, rfl, Nat.le_refl 0, Nat.le_refl 0, Nat.zero_le npos⟩

theorem Holds.entry_eq (h : Holds m es) {i : ℕ} (hi : i < es.length) : m.entry i = some es[i] := by
  have htake : (m.theMap.take m.numberOfEntries)[i]? = m.theMap[i]? :=
    List.getElem?_take_of_lt (h.number ▸ hi)
  unfold entry
  rw [← htake, h.entries, List.getElem?_map, List.getElem?_eq_getElem hi]
  rfl

theorem Holds.entry_append (h : Holds m (a ++ e :: b)) : m.entry a.length = some e := by
  rw [h.entry_eq (by simp)]
  simp

theorem insertAt_spec (h : Holds m (a ++ b)) (hshort : (a ++ b).length < npos) (x : K × V) :
    ∃ m', m.insertAt a.length x = some m' ∧ Holds m' (a ++ x :: b) := by
  have hle : a.length ≤ m.numberOfEntries := by
    rw [h.number, List.length_append]
    exact Nat.le_add_right _ _
  have hlen : (a ++ x :: b).length = m.numberOfEntries + 1 := by
    rw [h.number]
    simp [Nat.add_assoc]
  have htake : m.theMap.take a.length = a.map some := by
    have hmin := List.take_take (i := a.length) (j := m.numberOfEntries) (l := m.theMap)
    rw [Nat.min_eq_left hle, h.entries, List.map_append, List.take_left' (List.length_map ..)]
      at hmin
    exact hmin.symm
  have hdrop : (m.theMap.take m.numberOfEntries).drop a.length = b.map some := by
    rw [h.entries, List.map_append, List.drop_left' (List.length_map ..)]
  have hentries : a.map some ++ some x :: b.map some = (a ++ x :: b).map some := by
    rw [List.map_append, List.map_cons]
  have hmap : ((a ++ x :: b).map some).length = m.numberOfEntries + 1 := by
    rw [List.length_map, hlen]
  have hshort' : (a ++ x :: b).length ≤ npos := by
    rw [hlen, h.number]
    exact hshort
  have hroom := h.room
  have halloc := h.allocated
  unfold insertAt
  simp only []
  by_cases hspare : m.numberOfEntries < m.mapSize
  · have hslot : m.numberOfEntries < m.theMap.length := Nat.lt_of_lt_of_le hspare halloc
    rw [if_pos hspare, if_pos hle, if_pos hslot, htake, hdrop, hentries]
    refine ⟨_, rfl, List.take_left' hmap, hlen.symm, hspare, ?_, hshort'⟩
    show m.mapSize ≤ _
    rw [List.length_append, hmap, List.length_drop]
    omega
  · rw [if_neg hspare, if_pos hle, htake, hdrop, hentries]
    refine ⟨_, rfl, List.take_of_length_le (Nat.le_of_eq hmap), hlen.symm,
      Nat.succ_le_succ hroom, ?_, hshort'⟩
    rw [hmap]
    exact Nat.succ_le_succ (Nat.le_of_not_lt hspare)

theorem eraseAt_spec (h : Holds m (a ++ e :: b)) : Holds (m.eraseAt a.length) (a ++ b) := by
  have hnumber := h.number
  have hroom := h.room
  have halloc := h.allocated
  have hshort := h.short
  have hlen : (a ++ e :: b).length = a.length + b.length + 1 := by
    rw [List.length_append, List.length_cons, Nat.add_assoc]
  rw [hlen] at hnumber hshort
  have hset : (m.theMap.set a.length none).take m.numberOfEntries
      = a.map some ++ none :: b.map some := by
    rw [List.take_set, h.entries, List.map_append, List.map_cons]
    exact List.set_append_right a.length none (Nat.le_of_eq (List.length_map ..)) |>.trans
      (by rw [List.length_map, Nat.sub_self, List.set_cons_zero])
  have htake : (m.theMap.set a.length none).take a.length = a.map some := by
    have hmin := List.take_take (i := a.length) (j := m.numberOfEntries)
      (l := m.theMap.set a.length none)
    rw [Nat.min_eq_left (by omega), hset, List.take_left' (List.length_map ..)] at hmin
    exact hmin.symm
  have hdrop : ((m.theMap.set a.length none).take m.numberOfEntries).drop (a.length + 1)
      = b.map some := by
    rw [hset, List.append_cons, List.drop_left' (by simp)]
  have hmap : ((a ++ b).map some : List (Option (K × V))).length = m.numberOfEntries - 1 := by
    rw [List.length_map, List.length_append, hnumber]
    rfl
  unfold eraseAt
  simp only []
  rw [if_neg (by omega), htake, hdrop, ← List.map_append]
  refine ⟨List.take_left' hmap, ?_, ?_, ?_, ?_⟩
  · rw [List.length_append, hnumber]
    rfl
  · exact Nat.le_trans (Nat.sub_le _ 1) hroom
  · show m.mapSize ≤ _
    rw [List.length_append, hmap, List.length_drop, List.length_set]
    omega
  · rw [List.length_append]
    omega

/-- The entry at a position, where there is one. -/
def live (m : BasicMap K V) (pos : ℕ) : Option (K × V) :=
  if pos < m.numberOfEntries then m.entry pos else none

theorem live_eq (h : Holds m es) (pos : ℕ) : m.live pos = es[pos]? := by
  unfold live
  rw [h.number]
  split_ifs with hlt
  · rw [h.entry_eq hlt, List.getElem?_eq_getElem hlt]
  · exact (List.getElem?_eq_none (Nat.le_of_not_lt hlt)).symm

theorem exists_append_of_live (h : Holds m es) (hlive : m.live pos = some e) :
    ∃ a b, es = a ++ e :: b ∧ a.length = pos := by
  rw [live_eq h] at hlive
  obtain ⟨hlt, he⟩ := List.getElem?_eq_some_iff.mp hlive
  refine ⟨es.take pos, es.drop (pos + 1), ?_, List.length_take_of_le (Nat.le_of_lt hlt)⟩
  rw [← he, List.getElem_cons_drop, List.take_append_drop]

theorem forall_mem_take (h : Holds m es) {p : K × V → Prop}
    (hp : ∀ i e, i < pos → m.live i = some e → p e) : ∀ e ∈ es.take pos, p e := by
  intro e he
  obtain ⟨i, hi, rfl⟩ := List.getElem_of_mem he
  refine hp i _ (Nat.lt_of_lt_of_le hi (List.length_take_le pos es)) ?_
  rw [live_eq h, List.getElem_take]
  exact List.getElem?_eq_getElem _

theorem forall_mem_drop (h : Holds m es) {p : K × V → Prop}
    (hp : ∀ i e, pos ≤ i → m.live i = some e → p e) : ∀ e ∈ es.drop pos, p e := by
  intro e he
  obtain ⟨i, hi, rfl⟩ := List.getElem_of_mem he
  refine hp (pos + i) _ (Nat.le_add_right pos i) ?_
  rw [live_eq h, List.getElem_drop]
  exact List.getElem?_eq_getElem _

theorem eraseAt_of_le (h : m.numberOfEntries ≤ pos) : m.eraseAt pos = m := if_pos h

theorem setValue_spec (h : Holds m (a ++ e :: b)) (v : V) :
    Holds (m.setValue a.length v) (a ++ (e.1, v) :: b) := by
  refine ⟨?_, ?_, h.room, ?_, ?_⟩
  · show (m.theMap.modify a.length _).take m.numberOfEntries = _
    rw [List.take_modify, h.entries, List.map_append, List.modify_eq_take_drop,
      List.take_left' (List.length_map ..), List.drop_left' (List.length_map ..), List.map_append]
    rfl
  · exact h.number.trans (by simp)
  · show m.mapSize ≤ (m.theMap.modify a.length _).length
    rw [List.length_modify]
    exact h.allocated
  · exact Nat.le_trans (Nat.le_of_eq (by simp)) h.short

end Entries

section Search

variable {K V : Type} [LinearOrder K] {m m' : BasicMap K V} {k : K} {e x : K × V}
  {es a b c : List (K × V)} {pos : ℕ}

theorem exists_entry (h : Holds m es) (hcut : Cut k es a b c) (hpos : pos < es.length) :
    ∃ e, m.entry pos = some e ∧ (e.1 < k ↔ pos < a.length) ∧
      (k < e.1 ↔ a.length + b.length ≤ pos) :=
  ⟨es[pos], h.entry_eq hpos, hcut.getElem_lt_iff hpos, hcut.lt_getElem_iff hpos⟩

theorem back_spec (h : Holds m es) (hcut : Cut k es a b c) (hfirst : a.length ≤ pos)
    (hlast : pos < a.length + b.length) : m.back k pos = a.length := by
  have hlen := hcut.length_eq
  induction pos with
  | zero => exact (Nat.le_zero.mp hfirst).symm
  | succ pos ih =>
    have hpos : pos < es.length := by omega
    obtain ⟨e, he, hlt, hgt⟩ := exists_entry h hcut hpos
    unfold back
    rw [he, Option.any_some]
    by_cases hle : a.length ≤ pos
    · have hk : e.1 = k := le_antisymm (not_lt.mp (mt hgt.mp (by omega)))
        (not_lt.mp (mt hlt.mp (by omega)))
      rw [if_pos (decide_eq_true hk)]
      exact ih hle (by omega)
    · have hk : e.1 ≠ k := ne_of_lt (hlt.mpr (by omega))
      rw [if_neg (by simpa using hk)]
      omega

theorem predecessor_done_iff {l hi : ℕ} (hle : l ≤ hi) (hshort : hi ≤ npos) :
    (predecessor hi = npos ∨ predecessor hi < l) ↔ l = hi := by
  unfold predecessor
  have hpos : 0 < npos := by decide
  split <;> omega

/-- The entries of the key lie between the two positions, of which the second one is not searched;
when nothing is left the place before which an entry goes is one of the two. -/
theorem findIn_spec (h : Holds m es) (hcut : Cut k es a b c) (findFirst : Bool)
    {fuel l hi before : ℕ} (hle : l ≤ hi) (hhi : hi ≤ es.length) (hfuel : hi - l < fuel)
    (hleft : l ≤ a.length) (hright : a.length + b.length ≤ hi)
    (hbefore : before = l ∨ before = hi) :
    ∃ pos, m.findIn k findFirst fuel l (predecessor hi) before = some (pos, !b.isEmpty) ∧
      a.length ≤ pos ∧ pos ≤ a.length + (b.length - 1) ∧ (findFirst = true → pos = a.length) := by
  induction fuel generalizing l hi before with
  | zero => omega
  | succ fuel ih =>
    have hdone := predecessor_done_iff hle (Nat.le_trans hhi h.short)
    unfold findIn
    by_cases heq : l = hi
    · -- there is no entry of the key
      obtain rfl : b = [] := List.length_eq_zero_iff.mp (by omega)
      rw [if_pos (hdone.mpr heq)]
      refine ⟨before, rfl, ?_, ?_, fun _ => ?_⟩ <;> simp at hright ⊢ <;> omega
    · have hmiddle : (predecessor hi - l + 1) / 2 + l = (hi - l) / 2 + l := by
        unfold predecessor
        split <;> congr 2 <;> omega
      have hmid : (hi - l) / 2 + l < es.length := by omega
      obtain ⟨e, he, hlt, hgt⟩ := exists_entry h hcut hmid
      rw [if_neg (mt hdone.mp heq)]
      simp only [hmiddle, he, Option.bind_some]
      by_cases hbelow : e.1 < k
      · rw [if_pos hbelow]
        have hpos := hlt.mp hbelow
        exact ih (by omega) hhi (by omega) (by omega) hright (.inl rfl)
      · rw [if_neg hbelow]
        by_cases habove : k < e.1
        · rw [if_pos habove]
          have hpos := hgt.mp habove
          exact ih (by omega) (by omega) (by omega) hleft hpos (.inr rfl)
        · rw [if_neg habove]
          have hfirst : a.length ≤ (hi - l) / 2 + l := Nat.le_of_not_lt (mt hlt.mpr hbelow)
          have hlast : (hi - l) / 2 + l < a.length + b.length :=
            Nat.lt_of_not_le (mt hgt.mpr habove)
          have hne : (!b.isEmpty) = true := by
            rw [Bool.not_eq_true', List.isEmpty_eq_false_iff]
            rintro rfl
            exact absurd hlast (Nat.not_lt_of_le hfirst)
          rw [hne]
          cases findFirst with
          | false => exact ⟨(hi - l) / 2 + l, rfl, hfirst, by omega, nofun⟩
          | true =>
            refine ⟨_, rfl, ?_⟩
            rw [if_pos rfl, back_spec h hcut hfirst hlast]
            exact ⟨Nat.le_refl _, Nat.le_add_right _ _, fun _ => rfl⟩

theorem search_spec (h : Holds m es) (hcut : Cut k es a b c) (findFirst : Bool) :
    ∃ pos, m.search k findFirst = some (pos, !b.isEmpty) ∧
      a.length ≤ pos ∧ pos ≤ a.length + (b.length - 1) ∧ (findFirst = true → pos = a.length) := by
  have hlen := hcut.length_eq
  exact findIn_spec h hcut findFirst (Nat.zero_le _) (Nat.le_of_eq h.number) (by omega)
    (Nat.zero_le _) (by rw [h.number]; omega) (.inl rfl)

end Search

section Iterators

variable {K V : Type} {m : BasicMap K V} {e : K × V} {es a b c : List (K × V)} {pos : ℕ}

/-- The iterator at a position, which is `end()` behind the entries. -/
def iteratorAt (m : BasicMap K V) (pos : ℕ) : ℕ := if pos < m.numberOfEntries then pos else npos

/-- The iterators from one to another come to the entries, one after the other. -/
def Walks (m : BasicMap K V) : ℕ → ℕ → List (K × V) → Prop
  | i, j, [] => i = j
  | i, j, e :: es => i ≠ j ∧ m.deref i = some e ∧ m.Walks (m.next i) j es

theorem iteratorAt_of_lt (h : Holds m es) (hpos : pos < es.length) : m.iteratorAt pos = pos :=
  if_pos (h.number ▸ hpos)

theorem iteratorAt_of_le (h : Holds m es) (hpos : es.length ≤ pos) : m.iteratorAt pos = npos :=
  if_neg (Nat.not_lt_of_le (h.number ▸ hpos))

theorem Holds.ne_npos (h : Holds m es) (hpos : pos < es.length) : pos ≠ npos :=
  Nat.ne_of_lt (Nat.lt_of_lt_of_le hpos h.short)

theorem next_eq (h : Holds m es) (hpos : pos < es.length) :
    m.next pos = m.iteratorAt (pos + 1) := by
  have hlt : pos < npos := Nat.lt_of_lt_of_le hpos h.short
  unfold next iteratorAt
  rw [if_pos hlt]
  split_ifs with hend hmore
  · exact absurd hmore (Nat.not_lt_of_le hend)
  · rfl
  · rfl
  · exact absurd (Nat.lt_of_not_le hend) ‹_›

theorem Holds.deref_append (h : Holds m (a ++ e :: b)) : m.deref a.length = some e := by
  unfold deref
  rw [if_neg (h.ne_npos (by simp)), h.entry_append]

theorem walks_spec (h : Holds m (a ++ (b ++ c))) :
    m.Walks (m.iteratorAt a.length) (m.iteratorAt (a.length + b.length)) b := by
  induction b generalizing a with
  | nil => rfl
  | cons e b ih =>
    have hlt : a.length < (a ++ (e :: b ++ c)).length := by simp
    have hnext := ih (a := a ++ [e]) (by rw [List.append_assoc]; exact h)
    have hlen : (a ++ [e]).length = a.length + 1 := List.length_append
    have hcons : (e :: b).length = b.length + 1 := rfl
    rw [hlen, Nat.add_right_comm, Nat.add_assoc, ← hcons] at hnext
    rw [iteratorAt_of_lt h hlt]
    refine ⟨?_, h.deref_append, ?_⟩
    · unfold iteratorAt
      split
      · rw [hcons]
        omega
      · exact h.ne_npos hlt
    · rw [next_eq h hlt]
      exact hnext

theorem walks_begin (h : Holds m es) : m.Walks m.begin npos es := by
  have hwalks := walks_spec (a := []) (b := es) (c := []) (by simpa using h)
  have hend : m.iteratorAt (([] : List (K × V)).length + es.length) = npos :=
    iteratorAt_of_le h (by simp)
  rwa [hend] at hwalks

theorem entry_eraseAt_last (h : Holds m es) (hpos : pos + 1 < es.length) :
    (m.eraseAt pos).entry (es.length - 1) = m.entry (es.length - 1) := by
  have hnumber := h.number
  have hroom := h.room
  have halloc := h.allocated
  have hlen : ((m.theMap.set pos none).take pos ++
      ((m.theMap.set pos none).take m.numberOfEntries).drop (pos + 1)).length = es.length - 1 := by
    rw [List.length_append, List.length_drop, List.length_take, List.length_take, List.length_set]
    omega
  unfold eraseAt entry
  simp only []
  rw [if_neg (by omega), List.getElem?_append_right (Nat.le_of_eq hlen), hlen, Nat.sub_self,
    List.getElem?_drop, Nat.add_zero, hnumber, List.getElem?_set_ne (by omega)]

theorem entry_eraseAt (h : Holds m (a ++ e :: c)) (hc : c ≠ []) :
    ∃ f ∈ c, (m.eraseAt a.length).entry (a.length + 1) = some f := by
  have herased := eraseAt_spec h
  match c with
  | f :: g :: c =>
    refine ⟨g, by simp, ?_⟩
    have hsplit : a ++ f :: g :: c = (a ++ [f]) ++ g :: c := List.append_cons ..
    rw [hsplit] at herased
    have hg := herased.entry_append
    rwa [List.length_append] at hg
  | [f] =>
    refine ⟨f, List.mem_singleton_self f, ?_⟩
    have hsplit : a ++ [e, f] = (a ++ [e]) ++ [f] := List.append_cons ..
    have hmore : a.length + 1 < (a ++ [e, f]).length := by simp
    have hkept := entry_eraseAt_last h hmore
    have hlen : (a ++ [e, f]).length - 1 = a.length + 1 := by simp
    rw [hlen] at hkept
    rw [hsplit] at h
    have hf := h.entry_append
    rw [List.length_append] at hf
    exact hkept.trans hf

end Iterators

section Operations

variable {K V : Type} [LinearOrder K] {m m' : BasicMap K V} {k : K} {e x : K × V}
  {es a b c : List (K × V)} {pos : ℕ}

theorem find_of_nil (h : Holds m es) (hcut : Cut k es a [] c) : m.find k = some npos := by
  obtain ⟨pos, hsearch, -⟩ := search_spec h hcut true
  unfold find
  rw [hsearch]
  rfl

theorem find_of_cons (h : Holds m es) (hcut : Cut k es a (e :: b) c) :
    m.find k = some a.length := by
  obtain ⟨pos, hsearch, -, -, hpos⟩ := search_spec h hcut true
  unfold find
  rw [hsearch, hpos rfl]
  rfl

theorem highLoop_spec (h : Holds m (a ++ (b ++ c))) (hb : ∀ e ∈ b, e.1 = k) (hc : ∀ e ∈ c, k ≠ e.1)
    {fuel : ℕ} (hfuel : b.length < fuel) :
    m.highLoop k fuel (m.iteratorAt a.length) = some (m.iteratorAt (a.length + b.length)) := by
  induction fuel generalizing a b with
  | zero => exact absurd hfuel (Nat.not_lt_zero _)
  | succ fuel ih =>
    unfold highLoop
    match b with
    | [] =>
      match c with
      | [] => rw [iteratorAt_of_le h (by simp), if_pos rfl, iteratorAt_of_le h (by simp)]
      | e :: c =>
        have hlt : a.length < (a ++ ([] ++ e :: c)).length := by simp
        rw [iteratorAt_of_lt h hlt, if_neg (h.ne_npos hlt), h.entry_append, Option.bind_some,
          if_neg (hc e List.mem_cons_self)]
        exact congrArg some (iteratorAt_of_lt h hlt).symm
    | e :: b =>
      have hlt : a.length < (a ++ (e :: b ++ c)).length := by simp
      have hlen : (a ++ [e]).length = a.length + 1 := List.length_append
      have hnext := ih (a := a ++ [e]) (b := b) (by rw [List.append_assoc]; exact h)
        (fun f hf => hb f (List.mem_cons_of_mem e hf)) (Nat.lt_of_succ_lt_succ hfuel)
      have hentry : m.entry a.length = some e := h.entry_append
      rw [hlen] at hnext
      rw [iteratorAt_of_lt h hlt, if_neg (h.ne_npos hlt), hentry, Option.bind_some,
        if_pos (hb e List.mem_cons_self).symm, next_eq h hlt, hnext, List.length_cons,
        Nat.add_right_comm, Nat.add_assoc]

theorem equalRange_spec (h : Holds m es) (hcut : Cut k es a b c) :
    ∃ low high, m.equalRange k = some (low, high) ∧ m.Walks low high b := by
  have hes := h
  have hlen := hcut.length_eq
  rw [hcut.eq] at hes
  have hfuel : b.length < m.numberOfEntries + 1 := by
    rw [h.number]
    omega
  have hhigh := highLoop_spec hes hcut.equal (fun e he => ne_of_lt (hcut.above e he)) hfuel
  unfold equalRange
  match b with
  | [] =>
    rw [find_of_nil h hcut]
    exact ⟨npos, npos, rfl, rfl⟩
  | e :: b =>
    have hlow : m.iteratorAt a.length = a.length :=
      iteratorAt_of_lt h (by rw [hlen, List.length_cons]; omega)
    have hwalks := walks_spec hes
    rw [hlow] at hhigh hwalks
    rw [find_of_cons h hcut, Option.bind_some, hhigh]
    exact ⟨_, _, rfl, hwalks⟩

theorem insertEqual_spec (h : Holds m es) (hcut : Cut x.1 es a b c) (hshort : es.length < npos) :
    ∃ m', m.insertEqual x = some (m', a.length) ∧ Holds m' (a ++ x :: (b ++ c)) := by
  obtain ⟨pos, hsearch, -, -, hpos⟩ := search_spec h hcut true
  rw [hcut.eq] at h hshort
  obtain ⟨m', hinsert, hm'⟩ := insertAt_spec h hshort x
  refine ⟨m', ?_, hm'⟩
  unfold insertEqual
  rw [hsearch, hpos rfl]
  exact congrArg (Option.map _) hinsert

theorem insertUnique_of_nil (h : Holds m es) (hcut : Cut x.1 es a [] c)
    (hshort : es.length < npos) :
    ∃ m', m.insertUnique x = some (m', a.length, true) ∧ Holds m' (a ++ x :: c) := by
  obtain ⟨pos, hsearch, hfirst, hlast, -⟩ := search_spec h hcut false
  obtain rfl : pos = a.length := Nat.le_antisymm hlast hfirst
  rw [hcut.eq] at h hshort
  obtain ⟨m', hinsert, hm'⟩ := insertAt_spec h hshort x
  refine ⟨m', ?_, hm'⟩
  unfold insertUnique
  rw [hsearch]
  exact congrArg (Option.map _) hinsert

theorem insertUnique_of_single (h : Holds m es) (hcut : Cut x.1 es a [e] c) :
    m.insertUnique x = some (m, a.length, false) := by
  obtain ⟨pos, hsearch, hfirst, hlast, -⟩ := search_spec h hcut false
  obtain rfl : pos = a.length := Nat.le_antisymm hlast hfirst
  unfold insertUnique
  rw [hsearch]
  rfl

theorem insertUniqueAt_of_eq (h : Holds m (a ++ e :: b)) (he : e.1 = x.1) :
    m.insertUniqueAt a.length x = some m := by
  have hlt : a.length < m.numberOfEntries := by
    rw [h.number]
    simp
  unfold insertUniqueAt
  rw [if_pos hlt, h.entry_append, Option.bind_some, if_pos he]

theorem insertUniqueAt_of_ne (h : Holds m (a ++ b)) (hb : ∀ e ∈ b, e.1 ≠ x.1) :
    m.insertUniqueAt a.length x = m.insertAt a.length x := by
  unfold insertUniqueAt
  match b with
  | [] => exact if_neg (by rw [h.number]; simp)
  | e :: b =>
    split
    · rw [h.entry_append, Option.bind_some, if_neg (hb e List.mem_cons_self)]
    · rfl

theorem subscript_of_nil [Inhabited V] (h : Holds m es) (hcut : Cut k es a [] c)
    (hshort : es.length < npos) :
    ∃ m', m.subscript k = some (m', a.length) ∧ Holds m' (a ++ (k, default) :: c) := by
  obtain ⟨pos, hsearch, hfirst, hlast, -⟩ := search_spec h hcut false
  obtain rfl : pos = a.length := Nat.le_antisymm hlast hfirst
  rw [hcut.eq] at h hshort
  obtain ⟨m', hinsert, hm'⟩ := insertAt_spec h hshort (k, default)
  refine ⟨m', ?_, hm'⟩
  have hsame := insertUniqueAt_of_ne (x := (k, default)) h
    fun e he => ne_of_gt (hcut.above e he)
  unfold subscript
  rw [hsearch]
  exact congrArg (Option.map _) (hsame.trans hinsert)

theorem subscript_of_single [Inhabited V] (h : Holds m es) (hcut : Cut k es a [e] c) :
    m.subscript k = some (m, a.length) := by
  obtain ⟨pos, hsearch, hfirst, hlast, -⟩ := search_spec h hcut false
  obtain rfl : pos = a.length := Nat.le_antisymm hlast hfirst
  unfold subscript
  rw [hsearch]
  rfl

theorem erase_of_nil (h : Holds m es) (hcut : Cut k es a [] c) (r : KeyRef) :
    m.erase k r = some (m, 0) := by
  unfold erase
  rw [find_of_nil h hcut, Option.bind_some]
  exact if_pos rfl

/-- Of the entries of a key the first one is erased; with one of them the loop then ends. -/
theorem erase_of_single (h : Holds m es) (hcut : Cut k es a [e] c) {r : KeyRef} (hr : r ≠ .gone)
    (hgone : r.erased a.length = .gone → c = []) :
    ∃ m', m.erase k r = some (m', 1) ∧ Holds m' (a ++ c) := by
  have hes := h
  rw [hcut.eq] at hes
  have hlen := hcut.length_eq
  have hlt : a.length < es.length := by
    rw [hlen, List.length_singleton]
    omega
  refine ⟨_, ?_, eraseAt_spec hes⟩
  have hk : e.1 = k := hcut.equal e (List.mem_singleton_self e)
  have hentry : m.entry a.length = some e := hes.entry_append
  obtain ⟨n, hn⟩ : ∃ n, m.numberOfEntries = n + 1 :=
    Nat.exists_eq_succ_of_ne_zero (by rw [h.number]; omega)
  have hturn : eraseLoop k (n + 1 + 1) m r a.length 0
      = eraseLoop k (n + 1) (m.eraseAt a.length) (r.erased a.length) (m.next a.length) 1 := by
    conv_lhs => unfold eraseLoop
    rw [if_neg (h.ne_npos hlt), if_neg hr, hentry, Option.bind_some, if_pos hk,
      if_pos (h.number ▸ hlt)]
  unfold erase
  rw [find_of_cons h hcut, Option.bind_some, hn, hturn, next_eq h hlt]
  unfold eraseLoop
  by_cases hc : c = []
  · rw [iteratorAt_of_le h (by rw [hlen, hc]; exact Nat.le_refl _), if_pos rfl]
  · have hmore : a.length + 1 < es.length := by
      have hpos := List.length_pos_iff.mpr hc
      rw [hlen, List.length_singleton]
      omega
    obtain ⟨f, hf, hentry'⟩ := entry_eraseAt hes hc
    rw [iteratorAt_of_lt h hmore, if_neg (h.ne_npos hmore), if_neg (mt hgone hc), hentry',
      Option.bind_some, if_neg (ne_of_gt (hcut.above f hf))]

end Operations

end BasicMap

end Haggle
