import Haggle.MinHeap
import Mathlib.Data.Multiset.AddSub
import Mathlib.Logic.Function.Basic
import Mathlib.Order.Antisymmetrization

/-!
# The heap of items

`Heap` keeps pointers to items in an array that grows, and writes into each item where in the array
it stands. The array is followed move by move and compared with the sequence of its items.
-/

namespace Haggle

/-- A `Heap`. The indices are fields of the items. -/
structure ItemHeap (ι : Type) where
  maxSize : ℕ
  size : ℕ
  heap : List (Option ι)
  index : ι → ℕ

namespace ItemHeap

section Model

variable {ι : Type} [DecidableEq ι]

-- `compare_less` and `compare_greater` of the items.
variable (less greater : ι → ι → Bool)

/-- A number in an `unsigned long`. -/
def word (n : ℕ) : ℕ := n % 2 ^ 64

/-- `(i - 1) / 2`, which is far outside for the root. -/
def parent (i : ℕ) : ℕ := word (i + (2 ^ 64 - 1)) / 2

/-- `Heap::Heap`. The items have never been in a heap. -/
def new (maxSize : ℕ) : ItemHeap ι :=
  ⟨maxSize, 0, List.replicate maxSize none, fun _ => 2 ^ 64 - 1⟩

def empty (h : ItemHeap ι) : Bool := h.size = 0

def full (h : ItemHeap ι) : Bool := h.maxSize ≤ h.size

/-- The item in a slot; none outside of the array and where nothing has been written. -/
def slot (h : ItemHeap ι) (i : ℕ) : Option ι := h.heap[i]?.join

/-- An item is written into a slot, and the number of the slot into the item. -/
def place (h : ItemHeap ι) (i : ℕ) (item : ι) : Option (ItemHeap ι) :=
  if i < h.heap.length then
    some { h with
      heap := h.heap.set i (some item)
      index := Function.update h.index item i }
  else none

/-- The slot `c` if it is in use and its item is less, and otherwise `smallest`. -/
def smaller (h : ItemHeap ι) (c i smallest : ℕ) : Option ℕ :=
  if c < h.size then do
    let a ← h.slot c
    let b ← h.slot i
    if less a b then some c else some smallest
  else some smallest

/-- `heapify`, with as many calls as are needed at most. -/
def heapify : ℕ → ItemHeap ι → ℕ → Option (ItemHeap ι)
  | 0, _, _ => none
  | fuel + 1, h, i => do
    let l := word (2 * i + 1)
    let r := word (l + 1)
    let smallest ← h.smaller less l i i
    let smallest ← h.smaller less r smallest smallest
    if smallest = i then some h
    else do
      let tmp ← h.slot smallest
      let a ← h.slot i
      let h ← h.place smallest a
      let h ← h.place i tmp
      heapify fuel h smallest

/-- `increaseSize`; what stands behind the items is not copied. -/
def increaseSize (h : ItemHeap ι) (increase : ℕ) : ItemHeap ι :=
  { h with
    maxSize := h.maxSize + increase
    heap := h.heap.take h.size ++ List.replicate (h.maxSize + increase - h.size) none }

/-- The loop of `insert`. -/
def climb (item : ι) : ℕ → ItemHeap ι → ℕ → Option (ItemHeap ι)
  | 0, _, _ => none
  | fuel + 1, h, i =>
    if 0 < i then do
      let p ← h.slot (parent i)
      if greater p item then do
        let h ← h.place i p
        climb item fuel h (parent i)
      else h.place i item
    else h.place i item

/-- `insert` behind its test for room. -/
def insertInto (h : ItemHeap ι) (item : ι) : Option (ItemHeap ι) := do
  let h ← climb greater item (h.size + 1) h h.size
  some { h with size := h.size + 1 }

/-- `insert`, with its result. The memory for a larger array is granted or not, and never for one
with more than `2 ^ 61` pointers. -/
def insert (granted : Bool) (h : ItemHeap ι) (item : ι) : Option (ItemHeap ι × Bool) :=
  if h.full then
    if granted ∧ h.maxSize + 100 < 2 ^ 61 then
      (insertInto greater (h.increaseSize 100) item).map fun h => (h, true)
    else some (h, false)
  else (insertInto greater h item).map fun h => (h, true)

/-- `extractFirst`. -/
def extractFirst (h : ItemHeap ι) : Option (ItemHeap ι × Option ι) :=
  if h.empty then some (h, none)
  else do
    let max ← h.slot 0
    let h := { h with size := h.size - 1 }
    let last ← h.slot h.size
    let h ← h.place 0 last
    let h ← heapify less (h.size + 1) h 0
    some (h, some max)

/-- `pop_front`. -/
def popFront (h : ItemHeap ι) : Option (ItemHeap ι) := (extractFirst less h).map Prod.fst

end Model

/-! ## The sequence of items -/

section Sequence

variable {ι : Type} {h : ItemHeap ι} {l : List ι} {i j k : ℕ} {item a b : ι} {index : ι → ℕ}

/-- The slots hold the items of a sequence, but perhaps for one slot. -/
def SlotsBut (heap : List (Option ι)) (l : List ι) (i : ℕ) : Prop :=
  l.length ≤ heap.length ∧ ∀ k < l.length, k ≠ i → heap[k]? = some l[k]?

def Slots (heap : List (Option ι)) (l : List ι) : Prop :=
  l.length ≤ heap.length ∧ ∀ k < l.length, heap[k]? = some l[k]?

/-- Every item has the number of its slot. -/
def Indexed (index : ι → ℕ) (l : List ι) : Prop := ∀ k x, l[k]? = some x → index x = k

def IndexedBut (index : ι → ℕ) (l : List ι) (i : ℕ) : Prop :=
  ∀ k x, k ≠ i → l[k]? = some x → index x = k

theorem parent_eq (hi : 0 < i) (hlt : i < 2 ^ 64) : parent i = MinHeap.parent i := by
  rw [parent, MinHeap.parent, word]
  omega

theorem Slots.but {heap : List (Option ι)} (hs : Slots heap l) (i : ℕ) : SlotsBut heap l i :=
  ⟨hs.1, fun k hk _ => hs.2 k hk⟩

theorem Indexed.but (hx : Indexed index l) (i : ℕ) : IndexedBut index l i :=
  fun k x _ hk => hx k x hk

theorem SlotsBut.slot_eq (hs : SlotsBut h.heap l i) (hk : k < l.length) (hne : k ≠ i) :
    h.slot k = l[k]? := by
  rw [slot, hs.2 k hk hne, Option.join_some]

theorem Slots.slot_eq (hs : Slots h.heap l) (hk : k < l.length) : h.slot k = l[k]? := by
  rw [slot, hs.2 k hk, Option.join_some]

variable [DecidableEq ι]

/-- Filling the hole. -/
theorem SlotsBut.place (hs : SlotsBut h.heap l i) (hi : i < l.length) (item : ι) :
    h.place i item = some { h with
      heap := h.heap.set i (some item)
      index := Function.update h.index item i } ∧
    Slots (h.heap.set i (some item)) (l.set i item) := by
  have hroom : i < h.heap.length := hi.trans_le hs.1
  refine ⟨if_pos hroom, by simpa using hs.1, ?_⟩
  intro k hk
  rw [List.length_set] at hk
  by_cases hki : k = i
  · subst hki
    rw [List.getElem?_set_self hroom, List.getElem?_set_self hi]
  · rw [List.getElem?_set_ne (Ne.symm hki), List.getElem?_set_ne (Ne.symm hki), hs.2 k hk hki]

/-- An item that stands at one other place at most, which becomes the hole. -/
theorem IndexedBut.move (hx : IndexedBut index l i) (hji : j ≠ i)
    (hj : l[j]? = some a) (hi : i < l.length) :
    IndexedBut (Function.update index a i) (l.set i a) j := by
  intro k x hkj hk
  by_cases hki : k = i
  · subst hki
    rw [List.getElem?_set_self hi, Option.some.injEq] at hk
    rw [← hk, Function.update_self]
  · rw [List.getElem?_set_ne (Ne.symm hki)] at hk
    have hne : x ≠ a := by
      rintro rfl
      exact hkj ((hx k x hki hk).symm.trans (hx j x hji hj))
    rw [Function.update_of_ne hne, hx k x hki hk]

/-- An item that does not stand elsewhere is written into the hole. -/
theorem IndexedBut.fill (hx : IndexedBut index l i) (hi : i < l.length)
    (hnew : ∀ k ≠ i, l[k]? ≠ some item) :
    Indexed (Function.update index item i) (l.set i item) := by
  intro k x hk
  by_cases hki : k = i
  · subst hki
    rw [List.getElem?_set_self hi, Option.some.injEq] at hk
    rw [← hk, Function.update_self]
  · rw [List.getElem?_set_ne (Ne.symm hki)] at hk
    have hne : x ≠ item := fun h => hnew k hki (h ▸ hk)
    rw [Function.update_of_ne hne, hx k x hki hk]

/-- Two items change places. -/
theorem Indexed.swap (hx : Indexed index l) (hij : i ≠ j) (hi : l[i]? = some a)
    (hj : l[j]? = some b) :
    Indexed (Function.update (Function.update index a j) b i) ((l.set j a).set i b) := by
  have hilt := (List.getElem?_eq_some_iff.mp hi).1
  have hjlt := (List.getElem?_eq_some_iff.mp hj).1
  have hne : b ≠ a := by
    rintro rfl
    exact hij ((hx i b hi).symm.trans (hx j b hj))
  refine ((hx.but j).move hij hi hjlt).fill (by simpa using hilt) ?_
  intro k hki hk
  by_cases hkj : k = j
  · subst hkj
    rw [List.getElem?_set_self hjlt, Option.some.injEq] at hk
    exact hne hk.symm
  · rw [List.getElem?_set_ne (Ne.symm hkj)] at hk
    exact hkj ((hx k b hk).symm.trans (hx j b hj))

end Sequence

section Moves

variable {ι κ : Type} [LinearOrder κ] {key : ι → κ} {less greater : ι → ι → Bool}
  {h : ItemHeap ι} {l : List ι} {i c fuel : ℕ} {item : ι}

/-- One of the two comparisons for the smallest of three. -/
theorem smaller_eq (hless : ∀ a b, less a b = true ↔ key a < key b) (hs : Slots h.heap l)
    (hsize : h.size = l.length) (hi : i < l.length ∨ l = []) (smallest : ℕ) :
    h.smaller less c i smallest = some (if MinHeap.below key l c i then c else smallest) := by
  rw [smaller, hsize]
  by_cases hc : c < l.length
  · have hi' : i < l.length := by
      rcases hi with hi | rfl
      · exact hi
      · exact absurd hc (Nat.not_lt_zero c)
    have hbelow : MinHeap.below key l c i = less l[c] l[i] := by
      rw [Bool.eq_iff_iff, MinHeap.below_eq_true, hless]
      simp [List.getElem?_eq_getElem hc, List.getElem?_eq_getElem hi']
    rw [if_pos hc, hs.slot_eq hc, hs.slot_eq hi', List.getElem?_eq_getElem hc,
      List.getElem?_eq_getElem hi', hbelow]
    simp only [Option.bind_eq_bind, Option.bind_some]
    split_ifs <;> rfl
  · have hbelow : ¬ MinHeap.below key l c i = true :=
      fun hb => hc (MinHeap.lt_length_of_below hb)
    rw [if_neg hc, if_neg hbelow]

variable [DecidableEq ι]

theorem heapify_eq (hless : ∀ a b, less a b = true ↔ key a < key b) (hs : Slots h.heap l)
    (hsize : h.size = l.length) (hmax : l.length < 2 ^ 61) (hi : i < l.length ∨ l = [] ∧ i = 0)
    (hfuel : l.length < fuel + i) :
    ∃ h', heapify less fuel h i = some h' ∧ Slots h'.heap (MinHeap.heapify key l i) ∧
      h'.size = h.size ∧ h'.maxSize = h.maxSize ∧ h'.heap.length = h.heap.length ∧
      (Indexed h.index l → Indexed h'.index (MinHeap.heapify key l i)) := by
  induction fuel generalizing h l i with
  | zero =>
    rcases hi with hi | ⟨rfl, rfl⟩
    · omega
    · exact absurd hfuel (by simp)
  | succ fuel ih =>
    have hi' : i < l.length ∨ l = [] := hi.imp_right And.left
    have hword : word (2 * i + 1) = 2 * i + 1 ∧ word (2 * i + 1 + 1) = 2 * i + 1 + 1 := by
      rcases hi with hi | ⟨-, rfl⟩
      · simp only [word]
        omega
      · exact ⟨rfl, rfl⟩
    have hfirst := smaller_eq (c := 2 * i + 1) hless hs hsize hi' i
    have hplace : (if MinHeap.below key l (2 * i + 1) i then 2 * i + 1 else i) < l.length ∨
        l = [] := by
      split_ifs with hb
      · exact .inl (MinHeap.lt_length_of_below hb)
      · exact hi'
    have hsecond := smaller_eq (c := 2 * i + 1 + 1) hless hs hsize hplace
      (if MinHeap.below key l (2 * i + 1) i then 2 * i + 1 else i)
    have hsmallest : MinHeap.smallest key l i =
        if MinHeap.below key l (2 * i + 1 + 1)
          (if MinHeap.below key l (2 * i + 1) i then 2 * i + 1 else i)
        then 2 * i + 1 + 1 else if MinHeap.below key l (2 * i + 1) i then 2 * i + 1 else i := rfl
    rw [heapify]
    simp only [hword.1, hword.2, hfirst, hsecond, ← hsmallest, Option.bind_eq_bind,
      Option.bind_some]
    rw [MinHeap.heapify]
    by_cases hend : MinHeap.smallest key l i = i
    · rw [if_pos hend, if_pos hend]
      exact ⟨h, rfl, hs, rfl, rfl, rfl, id⟩
    · rw [if_neg hend, if_neg hend]
      obtain ⟨hlt, hchild⟩ := (MinHeap.smallest_cases key l i).resolve_left hend
      have hil : i < l.length := hi'.resolve_right (by rintro rfl; simp at hlt)
      generalize MinHeap.smallest key l i = s at *
      have hslot := hs.slot_eq hlt
      have hslot' := hs.slot_eq hil
      rw [List.getElem?_eq_getElem hlt] at hslot
      rw [List.getElem?_eq_getElem hil] at hslot'
      obtain ⟨hput, hslots⟩ := (hs.but s).place hlt l[i]
      obtain ⟨hput', hslots'⟩ := (SlotsBut.place (h := ⟨h.maxSize, h.size, _,
        Function.update h.index l[i] s⟩) (hslots.but i) (by simpa using hil) l[s])
      have hswap : MinHeap.swap l i s = (l.set s l[i]).set i l[s] := by
        rw [MinHeap.swap, List.getElem?_eq_getElem hil, List.getElem?_eq_getElem hlt]
        exact List.set_comm _ _ (Ne.symm hend)
      simp only [hslot, hslot', hput, Option.bind_some]
      rw [hput', Option.bind_some, hswap]
      obtain ⟨h', hrun, hslots'', hsize', hmax', hlength, hindexed⟩ := ih
        (h := ⟨h.maxSize, h.size, _,
          Function.update (Function.update h.index l[i] s) l[s] i⟩) hslots'
        (by simpa using hsize) (by simpa using hmax) (.inl (by simpa using hlt))
        (by simpa using (show l.length < fuel + s by omega))
      refine ⟨h', hrun, hslots'', hsize', hmax', by simpa using hlength, fun hx => hindexed ?_⟩
      exact hx.swap (Ne.symm hend) (List.getElem?_eq_getElem hil) (List.getElem?_eq_getElem hlt)

theorem climb_eq (hgreater : ∀ a b, greater a b = true ↔ key b < key a)
    (hs : SlotsBut h.heap l i) (hi : i < l.length) (hmax : l.length ≤ 2 ^ 61)
    (hfuel : i < fuel) :
    ∃ h', climb greater item fuel h i = some h' ∧ Slots h'.heap (MinHeap.climb key item l i) ∧
      h'.size = h.size ∧ h'.maxSize = h.maxSize ∧ h'.heap.length = h.heap.length ∧
      (IndexedBut h.index l i → (∀ k ≠ i, l[k]? ≠ some item) →
        Indexed h'.index (MinHeap.climb key item l i)) := by
  induction fuel generalizing h l i with
  | zero => exact absurd hfuel (Nat.not_lt_zero i)
  | succ fuel ih =>
    obtain ⟨hput, hslots⟩ := hs.place hi item
    have hlast : ∃ h', h.place i item = some h' ∧ Slots h'.heap (l.set i item) ∧
        h'.size = h.size ∧ h'.maxSize = h.maxSize ∧ h'.heap.length = h.heap.length ∧
        (IndexedBut h.index l i → (∀ k ≠ i, l[k]? ≠ some item) →
          Indexed h'.index (l.set i item)) :=
      ⟨_, hput, hslots, rfl, rfl, List.length_set, fun hx hnew => hx.fill hi hnew⟩
    rw [climb, MinHeap.climb]
    by_cases hi0 : 0 < i
    · have hq := MinHeap.parent_lt hi0
      have hql := hq.trans hi
      rw [if_pos hi0, if_pos hi0, parent_eq hi0 (by omega), hs.slot_eq hql hq.ne,
        List.getElem?_eq_getElem hql]
      simp only [Option.bind_eq_bind, Option.bind_some]
      by_cases hlt : key item < key l[MinHeap.parent i]
      · rw [if_pos ((hgreater _ _).mpr hlt), if_pos hlt]
        obtain ⟨hput', hslots'⟩ := hs.place hi l[MinHeap.parent i]
        rw [hput', Option.bind_some]
        have hi' : MinHeap.parent i < (l.set i l[MinHeap.parent i]).length := by
          rw [List.length_set]
          exact hql
        obtain ⟨h', hrun, hslots'', hsize', hmax', hlength, hindexed⟩ := ih
          (h := ⟨h.maxSize, h.size, _, Function.update h.index l[MinHeap.parent i] i⟩)
          (hslots'.but (MinHeap.parent i)) hi' (by simpa using hmax) (by omega)
        refine ⟨h', hrun, hslots'', hsize', hmax', by simpa using hlength, fun hx hnew => ?_⟩
        apply hindexed
        · exact hx.move hq.ne (List.getElem?_eq_getElem hql) hi
        · intro k hk
          by_cases hki : k = i
          · subst hki
            rw [List.getElem?_set_self hi, ← List.getElem?_eq_getElem hql]
            exact hnew _ hq.ne
          · rw [List.getElem?_set_ne (Ne.symm hki)]
            exact hnew k hki
      · have hnot : ¬ greater l[MinHeap.parent i] item = true := fun h => hlt ((hgreater _ _).mp h)
        rw [if_neg hnot, if_neg hlt]
        exact hlast
    · rw [if_neg hi0, if_neg hi0]
      exact hlast

/-- The array as it is between two operations. -/
structure Holds (h : ItemHeap ι) (l : List ι) : Prop where
  slots : Slots h.heap l
  size : h.size = l.length
  room : h.heap.length = h.maxSize
  small : h.maxSize < 2 ^ 61

omit [DecidableEq ι] in
theorem Holds.length_le (hh : h.Holds l) : l.length ≤ h.maxSize := hh.room ▸ hh.slots.1

omit [DecidableEq ι] in
theorem Holds.increaseSize (hh : h.Holds l) {n : ℕ} (hsmall : h.maxSize + n < 2 ^ 61) :
    (h.increaseSize n).Holds l := by
  have hle := hh.length_le
  have hroom := hh.room
  have htake : (h.heap.take h.size).length = l.length := by
    rw [hh.size, List.length_take_of_le hh.slots.1]
  constructor
  · constructor
    · rw [ItemHeap.increaseSize, List.length_append, htake]
      exact Nat.le_add_right _ _
    · intro k hk
      rw [ItemHeap.increaseSize, List.getElem?_append_left (by rwa [htake]),
        List.getElem?_take_of_lt (by rwa [hh.size]), hh.slots.2 k hk]
  · exact hh.size
  · change (h.heap.take h.size ++ List.replicate (h.maxSize + n - h.size) none).length =
      h.maxSize + n
    rw [List.length_append, htake, List.length_replicate, hh.size]
    omega
  · exact hsmall

theorem Holds.insertInto (hgreater : ∀ a b, greater a b = true ↔ key b < key a) (hh : h.Holds l)
    (hroom : l.length < h.maxSize) (item : ι) :
    ∃ h', insertInto greater h item = some h' ∧ h'.Holds (MinHeap.insert key l item) ∧
      (Indexed h.index l → item ∉ l → Indexed h'.index (MinHeap.insert key l item)) := by
  have hleft : ∀ k, k ≠ l.length → (l ++ [item])[k]? = l[k]? := by
    intro k hk
    by_cases hlt : k < l.length
    · exact List.getElem?_append_left hlt
    · rw [List.getElem?_eq_none (by simpa using (show l.length + 1 ≤ k by omega)),
        List.getElem?_eq_none (not_lt.mp hlt)]
  have hlength : (l ++ [item]).length = l.length + 1 := by simp
  have hsmall := hh.small
  have hbut : SlotsBut h.heap (l ++ [item]) l.length := by
    refine ⟨by rw [hlength, hh.room]; omega, fun k hk hne => ?_⟩
    rw [hleft k hne, hh.slots.2 k (by omega)]
  obtain ⟨h', hrun, hslots, hsize, hmax, hlen, hindexed⟩ :=
    climb_eq hgreater hbut (by omega) (by omega) (Nat.lt_succ_self l.length)
  have hperm : (MinHeap.insert key l item).length = l.length + 1 := by
    rw [(MinHeap.insert_perm key l item).length_eq, List.length_cons]
  refine ⟨{ h' with size := h'.size + 1 }, ?_, ⟨hslots, ?_, ?_, ?_⟩, ?_⟩
  · rw [ItemHeap.insertInto, hh.size, hrun]
    rfl
  · rw [hperm, hsize, hh.size]
  · rw [hlen, hmax, hh.room]
  · rw [hmax]
    exact hh.small
  · intro hx hnew
    refine hindexed (fun k x hk hget => hx k x (hleft k hk ▸ hget)) fun k hk hget => ?_
    rw [hleft k hk] at hget
    exact hnew (List.mem_of_getElem? hget)

/-- An item is inserted, or there is no memory for it and nothing changes. -/
theorem Holds.insert (hgreater : ∀ a b, greater a b = true ↔ key b < key a) (hh : h.Holds l)
    (granted : Bool) (item : ι) :
    (∃ h', insert greater granted h item = some (h', true) ∧
      h'.Holds (MinHeap.insert key l item) ∧
      (Indexed h.index l → item ∉ l → Indexed h'.index (MinHeap.insert key l item))) ∨
    insert greater granted h item = some (h, false) := by
  rw [ItemHeap.insert]
  by_cases hfull : h.full = true
  · rw [if_pos hfull]
    by_cases hgrant : granted = true ∧ h.maxSize + 100 < 2 ^ 61
    · rw [if_pos hgrant]
      obtain ⟨h', hrun, hholds, hindexed⟩ := (hh.increaseSize hgrant.2).insertInto hgreater
        (Nat.lt_of_le_of_lt hh.length_le (Nat.lt_add_of_pos_right (by omega))) item
      exact .inl ⟨h', by rw [hrun]; rfl, hholds, hindexed⟩
    · rw [if_neg hgrant]
      exact .inr rfl
  · have hroom : l.length < h.maxSize := by
      rw [full, decide_eq_true_eq, not_le, hh.size] at hfull
      exact hfull
    rw [if_neg hfull]
    obtain ⟨h', hrun, hholds, hindexed⟩ := hh.insertInto hgreater hroom item
    exact .inl ⟨h', by rw [hrun]; rfl, hholds, hindexed⟩

omit [DecidableEq ι] in
theorem Slots.dropLast {heap : List (Option ι)} (hs : Slots heap l) : Slots heap l.dropLast := by
  refine ⟨(List.dropLast_sublist l).length_le.trans hs.1, fun k hk => ?_⟩
  rw [List.length_dropLast] at hk
  rw [hs.2 k (by omega), List.getElem?_dropLast, if_pos hk]

omit [DecidableEq ι] in
theorem IndexedBut.dropLast {index : ι → ℕ} (hx : IndexedBut index l (l.length - 1)) :
    Indexed index l.dropLast := by
  intro k x hk
  rw [List.getElem?_dropLast] at hk
  split_ifs at hk with hlt
  exact hx k x hlt.ne hk

theorem Holds.extractFirst (hless : ∀ a b, less a b = true ↔ key a < key b) {a : ι} {t : List ι}
    (hh : h.Holds (a :: t)) : ∃ h' rest, extractFirst less h = some (h', some a) ∧
      MinHeap.extractFirst key (a :: t) = some (a, rest) ∧ h'.Holds rest ∧
      (Indexed h.index (a :: t) → Indexed h'.index rest) := by
  have hlen : (a :: t).length = t.length + 1 := rfl
  have hsize : h.size - 1 = t.length := by rw [hh.size, hlen, Nat.add_sub_cancel]
  have hsmall := hh.small
  have hroom := hh.length_le
  have hlast : (a :: t)[t.length]? = some (t.getLastD a) := by
    rcases List.eq_nil_or_concat t with rfl | ⟨t, z, rfl⟩
    · rfl
    · simp
  have hnonempty : ¬ h.empty = true := by
    rw [empty, decide_eq_true_eq, hh.size, hlen]
    omega
  have hslot : h.slot 0 = some a := hh.slots.slot_eq (Nat.succ_pos _)
  have hslot' : ItemHeap.slot { h with size := t.length } t.length = some (t.getLastD a) :=
    (hh.slots.slot_eq (Nat.lt_succ_self _)).trans hlast
  obtain ⟨hput, hslots⟩ := SlotsBut.place (h := { h with size := t.length })
    (hh.slots.but 0) (Nat.succ_pos _) (t.getLastD a)
  have hshort : (((a :: t).set 0 (t.getLastD a)).dropLast).length = t.length := by simp
  have hfuel : (((a :: t).set 0 (t.getLastD a)).dropLast).length < t.length + 1 + 0 := by omega
  obtain ⟨h', hrun, hslots', hsize', hmax', hlength, hindexed⟩ := heapify_eq
    (h := ⟨h.maxSize, t.length, _, Function.update h.index (t.getLastD a) 0⟩) hless
    hslots.dropLast hshort.symm (by omega)
    (by
      rcases Nat.eq_zero_or_pos t.length with h0 | hpos
      · exact .inr ⟨List.length_eq_zero_iff.mp (hshort.trans h0), rfl⟩
      · exact .inl (by omega))
    hfuel
  refine ⟨h', MinHeap.heapify key (((a :: t).set 0 (t.getLastD a)).dropLast) 0, ?_, rfl,
    ⟨hslots', ?_, ?_, ?_⟩, ?_⟩
  · rw [ItemHeap.extractFirst, if_neg hnonempty, hslot, hsize]
    simp only [Option.bind_eq_bind, Option.bind_some, hslot', hput]
    rw [hrun, Option.bind_some]
  · rw [hsize', (MinHeap.heapify_perm key _ 0).length_eq, hshort]
  · rw [hlength, hmax', List.length_set]
    exact hh.room
  · rw [hmax']
    exact hsmall
  · intro hx
    apply hindexed
    rcases Nat.eq_zero_or_pos t.length with h0 | hpos
    · intro k x hk
      rw [List.length_eq_zero_iff.mp (hshort.trans h0)] at hk
      exact absurd hk (by simp)
    · apply IndexedBut.dropLast
      rw [List.length_set, hlen, Nat.add_sub_cancel]
      exact (hx.but 0).move hpos.ne' hlast (Nat.succ_pos _)

theorem Holds.extractFirst_nil (hh : h.Holds []) :
    ItemHeap.extractFirst less h = some (h, none) := by
  have hempty : h.empty = true := by
    rw [empty, decide_eq_true_eq, hh.size]
    rfl
  rw [ItemHeap.extractFirst, if_pos hempty]

end Moves

/-! ## Runs -/

section Runs

variable {ι : Type} [DecidableEq ι] (less greater : ι → ι → Bool)

inductive Op (ι : Type)
  | insert (item : ι) (granted : Bool)
  | extractFirst
  | popFront

/-- A heap with the items that have been inserted and not extracted, and whether none of them has
been inserted while it was there. -/
structure Trace (ι : Type) where
  heap : ItemHeap ι
  stored : Multiset ι
  fresh : Bool

/-- The items after one of them, or none, has been extracted. -/
def without (stored : Multiset ι) : Option ι → Multiset ι
  | none => stored
  | some x => stored.erase x

def Trace.step (t : Trace ι) : Op ι → Option (Trace ι)
  | .insert item granted => do
    let r ← insert greater granted t.heap item
    if r.2 then some ⟨r.1, item ::ₘ t.stored, t.fresh && decide (item ∉ t.stored)⟩
    else some ⟨r.1, t.stored, t.fresh⟩
  | .extractFirst => do
    let r ← extractFirst less t.heap
    some ⟨r.1, without t.stored r.2, t.fresh⟩
  | .popFront => do
    let h ← popFront less t.heap
    -- what the call inside of `pop_front` returns
    let r ← extractFirst less t.heap
    some ⟨h, without t.stored r.2, t.fresh⟩

def Trace.run (t : Trace ι) : List (Op ι) → Option (Trace ι)
  | [] => some t
  | op :: ops => do
    let t ← t.step less greater op
    t.run ops

/-- The items are compared by a total preorder, and the second comparison is the converse of the
first one. -/
structure IsComparison : Prop where
  total : ∀ a b, less a b = true → less b a = false
  trans : ∀ a b c, less b a = false → less c b = false → less c a = false
  converse : ∀ a b, greater a b = less b a

/-- What is expected of a heap after every operation. -/
structure IsHeap (t : Trace ι) : Prop where
  filled : ∀ i < t.heap.size, ∃ x, t.heap.slot i = some x
  ordered : ∀ i c a b, c < t.heap.size → (c = 2 * i + 1 ∨ c = 2 * i + 2) →
    t.heap.slot i = some a → t.heap.slot c = some b → less b a = false
  stored : (((List.range t.heap.size).filterMap t.heap.slot : List ι) : Multiset ι) = t.stored
  index : t.fresh = true → ∀ i < t.heap.size, ∀ x, t.heap.slot i = some x → t.heap.index x = i
  extract : ∃ h r, extractFirst less t.heap = some (h, r) ∧ (r = none ↔ t.stored = 0) ∧
    ∀ x, r = some x → x ∈ t.stored ∧ ∀ y ∈ t.stored, less y x = false

variable {less greater} {t : Trace ι}

omit [DecidableEq ι] in
theorem filterMap_range_getElem? (l : List ι) :
    (List.range l.length).filterMap (fun i => l[i]?) = l := by
  induction l with
  | nil => rfl
  | cons x l ih =>
    rw [List.length_cons, List.range_succ_eq_map, List.filterMap_cons, List.filterMap_map]
    exact congrArg (x :: ·) ih

omit [DecidableEq ι] in
theorem IsComparison.exists_key (h : IsComparison less greater) :
    ∃ (κ : Type) (_ : LinearOrder κ) (key : ι → κ), ∀ a b, less a b = true ↔ key a < key b := by
  classical
  let order : Preorder ι :=
    { le := fun a b => less b a = false
      le_refl := fun a => by
        by_contra hne
        have hlt : less a a = true := by simpa using hne
        exact hne (h.total a a hlt)
      le_trans := h.trans }
  have htotal : Std.Total (fun a b : ι => a ≤ b) := ⟨fun a b => by
    by_cases hba : less b a = true
    · exact .inr (h.total b a hba)
    · exact .inl (Bool.eq_false_iff.mpr hba)⟩
  refine ⟨Antisymmetrization ι (· ≤ ·), inferInstance, toAntisymmetrization (· ≤ ·), ?_⟩
  intro a b
  rw [toAntisymmetrization_lt_toAntisymmetrization_iff, lt_iff_le_not_ge]
  change less a b = true ↔ less b a = false ∧ ¬ less a b = false
  constructor
  · intro hab
    exact ⟨h.total a b hab, by simp [hab]⟩
  · rintro ⟨-, hab⟩
    simpa using hab

section Invariant

variable {κ : Type} [LinearOrder κ] {key : ι → κ}

/-- What every operation keeps: the slots are an ordered heap of the stored items. -/
def Inv (key : ι → κ) (t : Trace ι) : Prop :=
  ∃ l, t.heap.Holds l ∧ MinHeap.Ordered key l ∧ (l : Multiset ι) = t.stored ∧
    (t.fresh = true → Indexed t.heap.index l)

omit [DecidableEq ι] in
theorem inv_new {maxSize : ℕ} (hmax : maxSize < 2 ^ 61) :
    Inv key (⟨new maxSize, 0, true⟩ : Trace ι) := by
  refine ⟨[], ⟨⟨Nat.zero_le _, fun k hk => absurd hk (Nat.not_lt_zero k)⟩, rfl, ?_, hmax⟩, ?_,
    rfl, ?_⟩
  · rw [new, List.length_replicate]
  · intro c _ a ha
    simp at ha
  · intro _ k x hk
    simp at hk

/-- What `extractFirst` does to a heap in order. -/
theorem Inv.extract (hless : ∀ a b, less a b = true ↔ key a < key b) (ht : Inv key t) :
    ∃ h r, extractFirst less t.heap = some (h, r) ∧ (r = none ↔ t.stored = 0) ∧
      (∀ x, r = some x → x ∈ t.stored ∧ ∀ y ∈ t.stored, less y x = false) ∧
      Inv key ⟨h, without t.stored r, t.fresh⟩ := by
  obtain ⟨l, hh, hordered, hstored, hindex⟩ := ht
  cases l with
  | nil =>
    have hempty : t.stored = 0 := hstored.symm
    exact ⟨t.heap, none, hh.extractFirst_nil, by simp [hempty], nofun,
      [], hh, hordered, hstored, hindex⟩
  | cons a l =>
    obtain ⟨h', rest, hrun, hextract, hholds, hindexed⟩ := hh.extractFirst hless
    have hperm : (a :: rest).Perm (a :: l) := MinHeap.extractFirst_perm hextract
    refine ⟨h', some a, hrun, ?_, ?_, rest, hholds,
      MinHeap.extractFirst_ordered hordered hextract, ?_, fun hf => hindexed (hindex hf)⟩
    · rw [← hstored]
      simp
    · rintro x ⟨⟩
      rw [← hstored]
      refine ⟨by simp, fun y hy => ?_⟩
      have hle := MinHeap.extractFirst_le hordered hextract (Multiset.mem_coe.mp hy)
      rw [← Bool.not_eq_true, hless]
      exact not_lt.mpr hle
    · rw [without, ← hstored, ← Multiset.cons_coe, Multiset.erase_cons_head]
      exact Multiset.coe_eq_coe.mpr hperm.cons_inv

theorem Inv.step (hless : ∀ a b, less a b = true ↔ key a < key b)
    (hgreater : ∀ a b, greater a b = true ↔ key b < key a) (ht : Inv key t) (op : Op ι) :
    ∃ t', t.step less greater op = some t' ∧ Inv key t' := by
  cases op with
  | insert item granted =>
    obtain ⟨l, hh, hordered, hstored, hindex⟩ := ht
    rcases hh.insert hgreater granted item with ⟨h', hrun, hholds, hindexed⟩ | hrun
    · refine ⟨⟨h', item ::ₘ t.stored, t.fresh && decide (item ∉ t.stored)⟩, ?_,
        MinHeap.insert key l item, hholds, MinHeap.insert_ordered hordered item, ?_, ?_⟩
      · rw [Trace.step, hrun]
        rfl
      · rw [← hstored, Multiset.cons_coe]
        exact Multiset.coe_eq_coe.mpr (MinHeap.insert_perm key l item)
      · intro hfresh
        rw [Bool.and_eq_true, decide_eq_true_eq, ← hstored, Multiset.mem_coe] at hfresh
        exact hindexed (hindex hfresh.1) hfresh.2
    · refine ⟨⟨t.heap, t.stored, t.fresh⟩, ?_, l, hh, hordered, hstored, hindex⟩
      rw [Trace.step, hrun]
      rfl
  | extractFirst =>
    obtain ⟨h, r, hrun, -, -, hinv⟩ := ht.extract hless
    exact ⟨_, by rw [Trace.step, hrun]; rfl, hinv⟩
  | popFront =>
    obtain ⟨h, r, hrun, -, -, hinv⟩ := ht.extract hless
    exact ⟨_, by rw [Trace.step, popFront, hrun]; rfl, hinv⟩

theorem Inv.run (hless : ∀ a b, less a b = true ↔ key a < key b)
    (hgreater : ∀ a b, greater a b = true ↔ key b < key a) (ht : Inv key t) (ops : List (Op ι)) :
    ∃ t', t.run less greater ops = some t' ∧ Inv key t' := by
  induction ops generalizing t with
  | nil => exact ⟨t, rfl, ht⟩
  | cons op ops ih =>
    obtain ⟨t', hstep, ht'⟩ := ht.step hless hgreater op
    obtain ⟨t'', hrun, ht''⟩ := ih ht'
    exact ⟨t'', by rw [Trace.run, hstep]; exact hrun, ht''⟩

theorem Inv.isHeap (hless : ∀ a b, less a b = true ↔ key a < key b) (ht : Inv key t) :
    IsHeap less t := by
  obtain ⟨h, r, hrun, hnone, hmin, -⟩ := ht.extract hless
  obtain ⟨l, hh, hordered, hstored, hindex⟩ := ht
  have hslot : ∀ i < t.heap.size, t.heap.slot i = l[i]? :=
    fun i hi => hh.slots.slot_eq (hh.size ▸ hi)
  constructor
  · intro i hi
    have hil : i < l.length := hh.size ▸ hi
    exact ⟨l[i], by rw [hslot i hi, List.getElem?_eq_getElem hil]⟩
  · intro i c a b hc hchild ha hb
    have hpos : 0 < c := by omega
    have hparent : MinHeap.parent c = i := (MinHeap.parent_eq_iff hpos).mpr hchild
    rw [hslot i (by omega)] at ha
    rw [hslot c hc] at hb
    have hle := hordered c hpos a (hparent ▸ ha) b hb
    rw [← Bool.not_eq_true, hless]
    exact not_lt.mpr hle
  · rw [← hstored]
    congr 1
    have hcongr : (List.range t.heap.size).filterMap t.heap.slot =
        (List.range l.length).filterMap fun i => l[i]? := by
      rw [hh.size]
      apply List.filterMap_congr
      intro i hi
      exact hslot i (hh.size ▸ List.mem_range.mp hi)
    rw [hcongr, filterMap_range_getElem?]
  · intro hfresh i hi x hx
    rw [hslot i hi] at hx
    exact hindex hfresh i x hx
  · exact ⟨h, r, hrun, hnone, hmin⟩

end Invariant

/-- In every run of a heap whose items are compared by a total preorder, no operation leaves the
array, and after each of them the heap is as it should be. The indices are right as long as no item
has been inserted while it was there. -/
theorem isHeap_run (hcompare : IsComparison less greater) {maxSize : ℕ} (hmax : maxSize < 2 ^ 61)
    (ops : List (Op ι)) :
    ∃ t, Trace.run less greater ⟨new maxSize, 0, true⟩ ops = some t ∧ IsHeap less t := by
  obtain ⟨κ, hκ, key, hless⟩ := hcompare.exists_key
  have hgreater : ∀ a b, greater a b = true ↔ key b < key a :=
    fun a b => by rw [hcompare.converse, hless]
  obtain ⟨t, hrun, ht⟩ := (inv_new hmax : Inv key _).run hless hgreater ops
  exact ⟨t, hrun, ht.isHeap hless⟩

namespace Sample

theorem isComparison_nat :
    IsComparison (fun a b : ℕ => decide (a < b)) (fun a b => decide (b < a)) where
  total a b h := by
    rw [decide_eq_true_eq] at h
    rw [decide_eq_false_iff_not]
    omega
  trans a b c h h' := by
    rw [decide_eq_false_iff_not] at *
    omega
  converse _ _ := rfl

theorem isHeap_run_three :
    ∃ t, Trace.run (fun a b : ℕ => decide (a < b)) (fun a b => decide (b < a)) ⟨new 2, 0, true⟩
      [.insert 5 true, .insert 3 true, .insert 7 true, .extractFirst, .popFront] = some t ∧
        IsHeap (fun a b : ℕ => decide (a < b)) t :=
  isHeap_run isComparison_nat (by decide) _

/-- An item that is inserted twice stands in two slots. -/
theorem not_indexed_twice :
    ¬ ∀ ops : List (Op ℕ), ∃ t, Trace.run (fun a b : ℕ => decide (a < b))
      (fun a b => decide (b < a)) ⟨new 2, 0, true⟩ ops = some t ∧
        ∀ i < t.heap.size, ∀ x, t.heap.slot i = some x → t.heap.index x = i := by
  intro h
  obtain ⟨t, hrun, hindex⟩ := h [.insert 5 true, .insert 5 true]
  obtain rfl := Option.some.inj hrun
  have hfirst := hindex 0 (by decide) 5 (by decide)
  exact absurd hfirst (by decide)

end Sample

end Runs

end ItemHeap
end Haggle
