import Haggle.HashMapEntries

/-!
# Iterators of a hash multimap

An iterator is a place in the list of a bucket, with the place that comes next read in advance. It
goes over empty buckets to the next one with entries, and at the end to the end of the last bucket.
A map that grows goes through its entries in this way.
-/

namespace Haggle
namespace HashMap

variable {K V : Type}

section Model

/-- `it` is the place `pos` of the list of a bucket, where the length stands for its head. `next` is
the place it will go to, unless that node was deleted since. -/
structure Iterator where
  tableIndex : ℕ
  bucket : ℕ
  pos : ℕ
  next : Option ℕ

/-- `operator==`. -/
def Iterator.same (a b : Iterator) : Prop := a.bucket = b.bucket ∧ a.pos = b.pos

instance (a b : Iterator) : Decidable (a.same b) := inferInstanceAs (Decidable (_ ∧ _))

def list (m : HashMap K V) (i : ℕ) : List (K × V) := m.table.getD i []

/-- Behind the head of a list comes its first node. -/
def iteratorAt (m : HashMap K V) (tableIndex bucket pos : ℕ) : Iterator :=
  ⟨tableIndex, bucket, pos, some (if pos = (m.list bucket).length then 0 else pos + 1)⟩

/-- `it == m->table[i].end()`. -/
def IsListEnd (m : HashMap K V) (i : ℕ) (it : Iterator) : Prop :=
  it.bucket = i ∧ it.pos = (m.list i).length

instance (m : HashMap K V) (i : ℕ) (it : Iterator) : Decidable (m.IsListEnd i it) :=
  inferInstanceAs (Decidable (_ ∧ _))

/-- The loop over the buckets that come next, of which there are at most as many as in the table. -/
def nextFilled (m : HashMap K V) : ℕ → Iterator → Iterator
  | 0, it => it
  | fuel + 1, it =>
    if it.tableIndex + 1 < m.table.length then
      let it := m.iteratorAt (it.tableIndex + 1) (it.tableIndex + 1) 0
      if m.IsListEnd it.tableIndex it then m.nextFilled fuel it else it
    else { it with tableIndex := it.tableIndex + 1 }

/-- `find_next_filled_bucket`, which is `operator++`. -/
def findNextFilledBucket (m : HashMap K V) (it : Iterator) : Option Iterator :=
  if it.tableIndex < m.table.length then
    it.next.map fun pos =>
      let it := m.iteratorAt it.tableIndex it.bucket pos
      if m.IsListEnd it.tableIndex it then m.nextFilled m.table.length it else it
  else some it

def begin (m : HashMap K V) : Option Iterator :=
  let it := m.iteratorAt 0 0 0
  if m.IsListEnd 0 it then m.findNextFilledBucket it else some it

def endIterator (m : HashMap K V) : Iterator :=
  let i := m.table.length - 1
  m.iteratorAt i i (m.list i).length

/-- `operator*`. -/
def deref (m : HashMap K V) (it : Iterator) : Option (K × V) := (m.list it.bucket)[it.pos]?

variable [DecidableEq K] [Hash K]

def findIterator (m : HashMap K V) (k : K) : Iterator :=
  let i := m.getIndex k
  let pos := (m.list i).findIdx fun e => e.1 = k
  if pos < (m.list i).length then m.iteratorAt i i pos else m.endIterator

/-- The loop of `equal_range` to the end of the run. -/
def highLoop (m : HashMap K V) (k : K) : ℕ → Iterator → Option Iterator
  | 0, _ => none
  | fuel + 1, it =>
    if it.same m.endIterator then some it
    else
      (m.deref it).bind fun e =>
        if e.1 = k then (m.findNextFilledBucket it).bind (m.highLoop k fuel) else some it

/-- `equal_range`. -/
def rangeOf (m : HashMap K V) (k : K) : Option (Iterator × Iterator) :=
  (m.highLoop k (m.toList.length + 1) (m.findIterator k)).map (m.findIterator k, ·)

/-- The loop over the lists in `operator=` and in the copy constructor, where `src` is the other
table; when there is none, the table is copied to itself. -/
def copyLists (src : Option (List (List (K × V)))) (n : ℕ) (table : List (List (K × V))) :
    List (List (K × V)) :=
  (List.range n).foldl (fun t i => t.set i ((src.getD t).getD i [])) table

/-- `operator=`; the old table is gone before the other one is read, which may be the same. -/
def assign (m : HashMap K V) (same : Bool) : HashMap K V :=
  { m with
    table := copyLists (if same then none else some m.table) m.table.length
      (List.replicate m.table.length []) }

/-- The loop of `grow` over the entries of the map. -/
def growLoop (m : HashMap K V) : ℕ → HashMap K V → Iterator → Option (HashMap K V)
  | 0, _, _ => none
  | fuel + 1, larger, it =>
    if it.same m.endIterator then some larger
    else
      (m.deref it).bind fun p =>
        (m.findNextFilledBucket it).bind (m.growLoop fuel (larger.insert p))

/-- The next prime is larger, so that `grow` makes a new table. -/
def CanGrow (m : HashMap K V) : Prop :=
  ¬ (getPrime (m.table.length + 1) = 0 ∨ getPrime (m.table.length + 1) ≤ m.table.length)

instance (m : HashMap K V) : Decidable m.CanGrow := inferInstanceAs (Decidable (¬ _))

/-- `grow`. -/
def growTable (m : HashMap K V) : Option (HashMap K V) :=
  if m.CanGrow then
    m.begin.bind fun it =>
      (m.growLoop (m.toList.length + 1)
        (ofTableSize (getPrime (getPrime (m.table.length + 1))) m.plainChar) it).map (·.assign false)
  else some m

/-- `insert` of a pair that is not in the map. -/
def insertPair (m : HashMap K V) (p : K × V) : Option (HashMap K V) :=
  (if m.table.length < m.size + 1 then m.growTable else some m).map (·.insertNoGrow p)

/-- `insert` of a pair of the map, which must still be there after the table has grown. -/
def insertOwn (m : HashMap K V) (it : Iterator) : Option (HashMap K V) :=
  (m.deref it).bind fun p =>
    if m.table.length < m.size + 1 ∧ m.CanGrow then none else some (m.insertNoGrow p)

/-- `erase(iterator&)`. The list does nothing if the iterator is at its end. -/
def eraseAt (m : HashMap K V) (it : Iterator) : Option (HashMap K V) :=
  if it.tableIndex < m.table.length ∧ it.bucket = it.tableIndex then
    let size := if m.size = 0 then 2 ^ 64 - 1 else m.size - 1
    if it.pos < (m.list it.bucket).length then
      it.next.map fun _ =>
        { m with size := size, table := m.table.modify it.bucket fun b => b.eraseIdx it.pos }
    else some { m with size := size }
  else none

def clear (m : HashMap K V) : HashMap K V := { m with size := 0, table := m.table.map fun _ => [] }

end Model

section Walking

variable {m : HashMap K V} {it it' a b : Iterator} {e : K × V} {es fs : List (K × V)}

/-- From one iterator to the other the map has these entries. -/
def Walks (m : HashMap K V) : Iterator → Iterator → List (K × V) → Prop
  | a, b, [] => a.same b
  | a, b, e :: es => ¬ a.same b ∧ m.deref a = some e ∧
    ∃ a', m.findNextFilledBucket a = some a' ∧ m.Walks a' b es

/-- What comes from an iterator on, which is at an entry or at the end of the last list. -/
def Rest (m : HashMap K V) (it : Iterator) (es : List (K × V)) : Prop :=
  (∃ i pos, it = m.iteratorAt i i pos ∧ pos < (m.list i).length ∧
      es = (m.list i).drop pos ++ (m.table.drop (i + 1)).flatten) ∨
    it.same m.endIterator ∧ es = []

theorem length_le_of_le {i : ℕ} (hi : m.table.length ≤ i) : m.list i = [] := by
  unfold list
  rw [List.getD_eq_getElem?_getD, List.getElem?_eq_none hi]
  rfl

theorem drop_table (m : HashMap K V) (i : ℕ) :
    (m.table.drop i).flatten = m.list i ++ (m.table.drop (i + 1)).flatten := by
  by_cases hi : i < m.table.length
  · rw [List.drop_eq_getElem_cons hi, List.flatten_cons]
    simp [list, List.getD_eq_getElem?_getD, List.getElem?_eq_getElem hi]
  · have hle := Nat.le_of_not_lt hi
    rw [length_le_of_le hle, List.drop_of_length_le hle, List.drop_of_length_le (by omega)]
    rfl

/-- The loop comes to the first entry of the buckets behind this one. -/
theorem rest_nextFilled {i fuel : ℕ} (hi : i < m.table.length)
    (hfuel : m.table.length ≤ fuel + i) (hit : it.tableIndex = i) (hend : m.IsListEnd i it) :
    m.Rest (m.nextFilled fuel it) (m.table.drop (i + 1)).flatten := by
  induction fuel generalizing i it with
  | zero => exact absurd hfuel (by omega)
  | succ fuel ih =>
    unfold nextFilled
    rw [hit]
    by_cases hlt : i + 1 < m.table.length
    · rw [if_pos hlt]
      by_cases hnil : m.IsListEnd (m.iteratorAt (i + 1) (i + 1) 0).tableIndex
          (m.iteratorAt (i + 1) (i + 1) 0)
      · have hlist : m.list (i + 1) = [] := List.length_eq_zero_iff.mp hnil.2.symm
        rw [drop_table, hlist, List.nil_append]
        simp only []
        rw [if_pos hnil]
        exact ih hlt (by omega) rfl hnil
      · simp only []
        rw [if_neg hnil]
        refine .inl ⟨i + 1, 0, rfl, ?_, ?_⟩
        · exact Nat.pos_of_ne_zero fun hzero => hnil ⟨rfl, hzero.symm⟩
        · exact drop_table m (i + 1)
    · rw [if_neg hlt, List.drop_of_length_le (Nat.le_of_not_lt hlt)]
      obtain rfl : i = m.table.length - 1 := by omega
      exact .inr ⟨hend, rfl⟩

theorem lt_of_lt_list {i pos : ℕ} (hpos : pos < (m.list i).length) : i < m.table.length := by
  by_contra hge
  rw [length_le_of_le (Nat.le_of_not_lt hge)] at hpos
  exact absurd hpos (Nat.not_lt_zero pos)

theorem findNext_eq {i pos p : ℕ} (hi : i < m.table.length)
    (hp : (m.iteratorAt i i pos).next = some p) :
    m.findNextFilledBucket (m.iteratorAt i i pos) =
      some (if m.IsListEnd i (m.iteratorAt i i p) then
        m.nextFilled m.table.length (m.iteratorAt i i p) else m.iteratorAt i i p) := by
  have hi' : (m.iteratorAt i i pos).tableIndex < m.table.length := hi
  unfold findNextFilledBucket
  rw [if_pos hi', hp]
  rfl

theorem rest_cons (h : m.Rest it (e :: es)) :
    m.deref it = some e ∧ ∃ it', m.findNextFilledBucket it = some it' ∧ m.Rest it' es := by
  obtain ⟨i, pos, rfl, hlt, hes⟩ | ⟨-, hes⟩ := h
  · have hi := lt_of_lt_list hlt
    rw [List.drop_eq_getElem_cons hlt, List.cons_append] at hes
    obtain ⟨rfl, rfl⟩ := List.cons.inj hes
    refine ⟨List.getElem?_eq_getElem hlt, _, findNext_eq hi (congrArg some (if_neg hlt.ne)), ?_⟩
    by_cases hend : m.IsListEnd i (m.iteratorAt i i (pos + 1))
    · have hle : (m.list i).length ≤ pos + 1 := hend.2.ge
      rw [if_pos hend, List.drop_of_length_le hle, List.nil_append]
      exact rest_nextFilled hi (Nat.le_add_right _ _) rfl hend
    · have hlt' : pos + 1 < (m.list i).length :=
        lt_of_le_of_ne hlt fun heq => hend ⟨rfl, heq⟩
      rw [if_neg hend]
      exact .inl ⟨i, pos + 1, rfl, hlt', rfl⟩
  · cases hes

theorem same_end_iff (h : m.Rest it es) : it.same m.endIterator ↔ es = [] := by
  obtain ⟨i, pos, rfl, hlt, hes⟩ | ⟨hsame, hes⟩ := h
  · rw [List.drop_eq_getElem_cons hlt] at hes
    refine iff_of_false ?_ (by rw [hes]; nofun)
    rintro ⟨hbucket, hpos⟩
    obtain rfl : i = m.table.length - 1 := hbucket
    exact absurd hpos hlt.ne
  · exact iff_of_true hsame hes

theorem rest_unique (h : m.Rest it es) (h' : m.Rest it' fs) (hsame : it.same it') : es = fs := by
  have hiff : it.same m.endIterator ↔ it'.same m.endIterator := by
    unfold Iterator.same
    rw [hsame.1, hsame.2]
  by_cases hes : es = []
  · rw [hes, ((same_end_iff h').mp (hiff.mp ((same_end_iff h).mpr hes)))]
  · obtain ⟨i, pos, rfl, hlt, rfl⟩ | ⟨-, hnil⟩ := h
    · obtain ⟨i', pos', rfl, -, rfl⟩ | ⟨hend, -⟩ := h'
      · obtain rfl : i = i' := hsame.1
        obtain rfl : pos = pos' := hsame.2
        rfl
      · exact absurd (hiff.mpr hend) (mt (same_end_iff (.inl ⟨i, pos, rfl, hlt, rfl⟩)).mp hes)
    · exact absurd hnil hes

theorem rest_length_le (h : m.Rest it es) : es.length ≤ m.toList.length := by
  obtain ⟨i, pos, rfl, -, rfl⟩ | ⟨-, rfl⟩ := h
  · have hsplit : m.toList = (m.table.take i).flatten ++ (m.table.drop i).flatten := by
      rw [← List.flatten_append, List.take_append_drop]
      rfl
    have hle := (List.drop_suffix pos (m.list i)).length_le
    rw [hsplit, drop_table m i, List.length_append, List.length_append, List.length_append]
    omega
  · exact Nat.zero_le _

theorem rest_begin (hm : 0 < m.table.length) : ∃ it, m.begin = some it ∧ m.Rest it m.toList := by
  have hlist : m.toList = m.list 0 ++ (m.table.drop 1).flatten := drop_table m 0
  by_cases hend : m.IsListEnd 0 (m.iteratorAt 0 0 0)
  · have hnil : m.list 0 = [] := List.length_eq_zero_iff.mp hend.2.symm
    have hfirst : (m.iteratorAt 0 0 0).next = some 0 := congrArg some (if_pos hend.2)
    have hnext := findNext_eq hm hfirst
    refine ⟨_, (if_pos hend).trans hnext, ?_⟩
    rw [if_pos hend, hlist, hnil, List.nil_append]
    exact rest_nextFilled hm (Nat.le_add_right _ _) rfl hend
  · refine ⟨_, if_neg hend, .inl ⟨0, 0, rfl, ?_, hlist⟩⟩
    exact Nat.pos_of_ne_zero fun hzero => hend ⟨rfl, hzero.symm⟩

theorem deref_of_rest (h : m.Rest it es) : m.deref it = es.head? := by
  cases es with
  | nil =>
    obtain ⟨hbucket, hpos⟩ := (same_end_iff h).mpr rfl
    unfold deref
    rw [hbucket, hpos]
    exact List.getElem?_eq_none le_rfl
  | cons e es => exact (rest_cons h).1

theorem walks_end (h : m.Rest it es) : m.Walks it m.endIterator es := by
  induction es generalizing it with
  | nil => exact (same_end_iff h).mpr rfl
  | cons e es ih =>
    obtain ⟨hderef, it', hnext, hrest⟩ := rest_cons h
    exact ⟨mt (same_end_iff h).mp (List.cons_ne_nil e es), hderef, it', hnext, ih hrest⟩

variable [DecidableEq K]

/-- The end of the run is where the first entry with another key is, or at the end. -/
theorem highLoop_spec {k : K} {fuel : ℕ} (h : m.Rest it es) (hfuel : es.length < fuel) :
    ∃ it', m.highLoop k fuel it = some it' ∧ m.Rest it' (es.dropWhile fun e => e.1 = k) ∧
      m.Walks it it' (es.takeWhile fun e => e.1 = k) := by
  induction es generalizing it fuel with
  | nil =>
    cases fuel with
    | zero => exact absurd hfuel (Nat.not_lt_zero _)
    | succ fuel =>
      have hend := (same_end_iff h).mpr rfl
      exact ⟨it, if_pos hend, h, rfl, rfl⟩
  | cons e es ih =>
    obtain ⟨hderef, it₁, hnext, hrest⟩ := rest_cons h
    have hend := mt (same_end_iff h).mp (List.cons_ne_nil e es)
    cases fuel with
    | zero => exact absurd hfuel (Nat.not_lt_zero _)
    | succ fuel =>
      unfold highLoop
      rw [if_neg hend, hderef, Option.bind_some]
      by_cases hk : e.1 = k
      · obtain ⟨it', hloop, hrest', hwalks⟩ := ih hrest (Nat.lt_of_succ_lt_succ hfuel)
        rw [if_pos hk, hnext, List.dropWhile_cons_of_pos (by simpa using hk),
          List.takeWhile_cons_of_pos (by simpa using hk)]
        refine ⟨it', hloop, hrest', ?_, hderef, it₁, hnext, hwalks⟩
        -- the iterator before has more entries left than the one where the run ends
        intro hsame
        have hlen := congrArg List.length (rest_unique h hrest' hsame)
        have hle := (List.dropWhile_suffix (l := es) fun e => decide (e.1 = k)).length_le
        rw [List.length_cons] at hlen
        omega
      · rw [if_neg hk, List.dropWhile_cons_of_neg (by simpa using hk),
          List.takeWhile_cons_of_neg (by simpa using hk)]
        exact ⟨it, rfl, h, rfl, rfl⟩

variable [Hash K]

theorem findFrom_of_nil {m : HashMap K V} {k : K}
    (h : (m.list (m.getIndex k)).dropWhile (fun e => e.1 ≠ k) = []) : m.findFrom k = [] := by
  unfold list at h
  rw [findFrom, h]

theorem findFrom_of_cons {m : HashMap K V} {k : K} {e : K × V} {l : List (K × V)}
    (h : (m.list (m.getIndex k)).dropWhile (fun e => e.1 ≠ k) = e :: l) :
    m.findFrom k = e :: (l ++ (m.table.drop (m.getIndex k + 1)).flatten) := by
  unfold list at h
  rw [findFrom, h]
  rfl

theorem rest_find (m : HashMap K V) (k : K) : m.Rest (m.findIterator k) (m.findFrom k) := by
  have hdrop : (m.list (m.getIndex k)).dropWhile (fun e => e.1 ≠ k) =
      (m.list (m.getIndex k)).drop ((m.list (m.getIndex k)).findIdx fun e => e.1 = k) := by
    rw [List.dropWhile_eq_drop_findIdx_not]
    simp
  unfold findIterator
  simp only []
  by_cases hlt : (m.list (m.getIndex k)).findIdx (fun e => e.1 = k) < (m.list (m.getIndex k)).length
  · rw [if_pos hlt]
    refine .inl ⟨_, _, rfl, hlt, ?_⟩
    rw [findFrom_of_cons (hdrop.trans (List.drop_eq_getElem_cons hlt)),
      List.drop_eq_getElem_cons hlt]
    rfl
  · rw [if_neg hlt]
    refine .inr ⟨⟨rfl, rfl⟩, ?_⟩
    exact findFrom_of_nil (hdrop.trans (List.drop_of_length_le (Nat.le_of_not_lt hlt)))

theorem rangeOf_spec (hm : m.WF) (k : K) : ∃ hi, m.rangeOf k = some (m.findIterator k, hi) ∧
    m.Walks (m.findIterator k) hi (m.toList.filter fun e => e.1 = k) := by
  obtain ⟨hi, hloop, -, hwalks⟩ := highLoop_spec (k := k) (rest_find m k)
    (Nat.lt_succ_of_le (rest_length_le (rest_find m k)))
  rw [← equalRange_eq_filter hm]
  refine ⟨hi, ?_, hwalks⟩
  unfold rangeOf
  rw [hloop]
  rfl

end Walking

section Copying

variable {m m' : HashMap K V} {it : Iterator} {es : List (K × V)}

theorem foldl_set (src t : List (List (K × V))) {n : ℕ} (hn : n ≤ src.length)
    (hlen : t.length = src.length) :
    (List.range n).foldl (fun t i => t.set i (src.getD i [])) t = src.take n ++ t.drop n := by
  induction n with
  | zero => rfl
  | succ n ih =>
    have hlt : n < src.length := hn
    have hltt : n < t.length := by omega
    have htake : (src.take n).length = n := List.length_take_of_le hlt.le
    rw [List.range_succ, List.foldl_append, ih hlt.le, List.foldl_cons, List.foldl_nil,
      List.set_append_right _ _ htake.le, htake, Nat.sub_self, List.drop_eq_getElem_cons hltt,
      List.set_cons_zero, List.take_succ_eq_append_getElem hlt, List.append_assoc]
    simp [List.getD_eq_getElem?_getD, hlt]

theorem copyLists_eq (src : List (List (K × V))) :
    copyLists (some src) src.length (List.replicate src.length []) = src := by
  have hfold := foldl_set src (List.replicate src.length []) le_rfl List.length_replicate
  rwa [List.take_length, List.drop_of_length_le List.length_replicate.le, List.append_nil] at hfold

theorem copyLists_self (t : List (List (K × V))) (n : ℕ) : copyLists none n t = t := by
  have hset : ∀ (t : List (List (K × V))) i, t.set i (t.getD i []) = t := by
    intro t i
    by_cases hi : i < t.length
    · rw [List.getD_eq_getElem?_getD, List.getElem?_eq_getElem hi]
      exact List.set_getElem_self hi
    · exact List.set_eq_of_length_le (Nat.le_of_not_lt hi)
  unfold copyLists
  induction List.range n with
  | nil => rfl
  | cons i l ih =>
    rw [List.foldl_cons]
    exact (congrArg (l.foldl _) (hset t i)).trans ih

theorem assign_other (m : HashMap K V) : m.assign false = m := by
  unfold assign
  exact congrArg (HashMap.mk m.size · m.plainChar) (copyLists_eq m.table)

theorem assign_self (m : HashMap K V) :
    m.assign true = { m with table := List.replicate m.table.length [] } :=
  congrArg (HashMap.mk m.size · m.plainChar) (copyLists_self _ _)

variable [DecidableEq K] [Hash K]

/-- The size is the number of entries. -/
def Sized (m : HashMap K V) : Prop := m.size = m.toList.length

theorem sized_insertNoGrow (hm : m.WF) (hs : m.Sized) (p : K × V) : (m.insertNoGrow p).Sized := by
  have hlen := (toList_insertNoGrow_perm hm p).length_eq
  unfold Sized
  rw [hlen, List.length_cons, ← hs]
  rfl

/-- Into the larger map everything goes without growing. -/
theorem growLoop_spec {larger : HashMap K V} {fuel : ℕ} (h : m.Rest it es)
    (hfuel : es.length < fuel) (hroom : larger.size + es.length ≤ larger.table.length) :
    m.growLoop fuel larger it = some (es.foldl insertNoGrow larger) := by
  induction es generalizing it larger fuel with
  | nil =>
    cases fuel with
    | zero => exact absurd hfuel (Nat.not_lt_zero _)
    | succ fuel => exact if_pos ((same_end_iff h).mpr rfl)
  | cons e es ih =>
    obtain ⟨hderef, it₁, hnext, hrest⟩ := rest_cons h
    rw [List.length_cons] at hroom
    cases fuel with
    | zero => exact absurd hfuel (Nat.not_lt_zero _)
    | succ fuel =>
      have hinsert : larger.insert e = larger.insertNoGrow e := if_neg (by omega)
      unfold growLoop
      rw [if_neg (mt (same_end_iff h).mp (List.cons_ne_nil e es)), hderef, Option.bind_some, hnext,
        hinsert]
      refine ih hrest (Nat.lt_of_succ_lt_succ hfuel) ?_
      have hlen : (larger.insertNoGrow e).table.length = larger.table.length :=
        List.length_modify ..
      have hsize : (larger.insertNoGrow e).size = larger.size + 1 := rfl
      rw [hlen, hsize]
      omega

/-- As long as the table can grow it has at least as many buckets as entries. -/
def Fits (m : HashMap K V) : Prop := m.CanGrow → m.size ≤ m.table.length

omit [DecidableEq K] in
theorem larger_table (hm : m.WF) (hgrow : m.CanGrow) :
    m.table.length < getPrime (getPrime (m.table.length + 1)) := by
  have hall : ∀ n ∈ tableSizes, ¬ (getPrime (n + 1) = 0 ∨ getPrime (n + 1) ≤ n) →
      n < getPrime (getPrime (n + 1)) := by decide
  exact hall _ hm.sizes hgrow

theorem growTable_eq (hm : m.WF) (hs : m.Sized) (hfits : m.Fits) : m.growTable = some m.grow := by
  unfold growTable
  by_cases hgrow : m.CanGrow
  · obtain ⟨it, hbegin, hrest⟩ := rest_begin (pos_of_mem_tableSizes hm.sizes)
    set n := getPrime (getPrime (m.table.length + 1)) with hn
    have hroom : (ofTableSize n m.plainChar : HashMap K V).size + m.toList.length ≤
        (ofTableSize n m.plainChar : HashMap K V).table.length := by
      have hlt := larger_table hm hgrow
      have hle := hfits hgrow
      have hlen := hs
      unfold Sized at hlen
      simp only [ofTableSize, List.length_replicate]
      omega
    rw [if_pos hgrow, hbegin, Option.bind_some, growLoop_spec hrest (Nat.lt_succ_self _) hroom,
      Option.map_some, assign_other]
    exact congrArg some (if_neg hgrow).symm
  · rw [if_neg hgrow]
    exact congrArg some (if_pos (not_not.mp hgrow)).symm

/-- What every map has that was made by the operations. -/
structure Maintained (m : HashMap K V) : Prop extends WF m where
  sized : m.Sized
  fits : m.Fits

theorem insertPair_eq (hm : m.Maintained) (p : K × V) : m.insertPair p = some (m.insert p) := by
  unfold insertPair insert
  by_cases hfull : m.table.length < m.size + 1
  · rw [if_pos hfull, if_pos hfull, growTable_eq hm.toWF hm.sized hm.fits]
    rfl
  · rw [if_neg hfull, if_neg hfull]
    rfl

theorem sized_grow (hm : m.WF) (hs : m.Sized) : m.grow.Sized ∧ m.grow.size = m.size := by
  have hfold : ∀ (es : List (K × V)) {m : HashMap K V}, m.WF → m.Sized →
      (es.foldl insertNoGrow m).Sized ∧ (es.foldl insertNoGrow m).size = m.size + es.length := by
    intro es
    induction es with
    | nil => exact fun _ hs => ⟨hs, rfl⟩
    | cons e es ih =>
      intro m hm hs
      obtain ⟨hs', hsize⟩ := ih (wf_insertNoGrow hm e) (sized_insertNoGrow hm hs e)
      refine ⟨hs', hsize.trans ?_⟩
      change m.size + 1 + es.length = m.size + (es.length + 1)
      omega
  obtain h | ⟨n, hn, h⟩ := grow_cases hm
  · rw [h]
    exact ⟨hs, rfl⟩
  · have hnil : (ofTableSize n m.plainChar : HashMap K V).Sized := by
      unfold Sized
      rw [toList_ofTableSize]
      rfl
    rw [h]
    obtain ⟨hs', hsize⟩ := hfold m.toList (wf_ofTableSize hn) hnil
    exact ⟨hs', hsize.trans (by rw [← hs]; exact Nat.zero_add _)⟩

theorem length_grow (hm : m.WF) (hgrow : m.CanGrow) : m.table.length < m.grow.table.length := by
  have hfold : ∀ (es : List (K × V)) (m : HashMap K V),
      (es.foldl insertNoGrow m).table.length = m.table.length := by
    intro es
    induction es with
    | nil => exact fun _ => rfl
    | cons e es ih => exact fun m => (ih _).trans (List.length_modify ..)
  have hgrown : m.grow = m.toList.foldl insertNoGrow
    (ofTableSize (getPrime (getPrime (m.table.length + 1))) m.plainChar) := if_neg hgrow
  rw [hgrown, hfold]
  exact (larger_table hm hgrow).trans_eq List.length_replicate.symm

theorem maintained_insert (hm : m.Maintained) (p : K × V) : (m.insert p).Maintained := by
  refine ⟨wf_insert hm.toWF p, ?_, ?_⟩
  · unfold insert
    split_ifs
    · exact sized_insertNoGrow (grow_spec hm.toWF).1 (sized_grow hm.toWF hm.sized).1 p
    · exact sized_insertNoGrow hm.toWF hm.sized p
  · unfold insert
    split_ifs with hfull
    · have hlen : (m.grow.insertNoGrow p).table.length = m.grow.table.length :=
        List.length_modify ..
      have hsize := (sized_grow hm.toWF hm.sized).2
      intro hgrow
      change m.grow.size + 1 ≤ (m.grow.insertNoGrow p).table.length
      by_cases hgrow' : m.CanGrow
      · have hlt := length_grow hm.toWF hgrow'
        have hle := hm.fits hgrow'
        omega
      · have hsame : m.grow = m := if_pos (not_not.mp hgrow')
        unfold CanGrow at hgrow hgrow'
        rw [hlen, hsame] at hgrow
        exact absurd hgrow hgrow'
    · intro _
      change m.size + 1 ≤ (m.table.modify _ _).length
      rw [List.length_modify]
      omega

/-- The place of an entry among the entries of its key. -/
def rank (m : HashMap K V) (it : Iterator) (k : K) : ℕ :=
  ((m.list it.bucket).take it.pos).countP fun e => e.1 = k

omit [DecidableEq K] [Hash K] in
theorem grouped_eraseIdx (l : List (K × V)) (i : ℕ) (hl : Grouped l) : Grouped (l.eraseIdx i) := by
  induction l generalizing i with
  | nil => exact hl
  | cons e l ih =>
    cases i with
    | zero => exact hl.1
    | succ i =>
      refine ⟨ih i hl.1, fun h => ?_⟩
      have hhead := hl.2 (((List.eraseIdx_sublist l i).map Prod.fst).subset h)
      cases l with
      | nil => cases hhead
      | cons e' l =>
        cases i with
        | succ i => exact hhead
        | zero =>
          have he' : e'.1 = e.1 := Option.some.inj hhead
          rw [← he'] at h ⊢
          exact hl.1.2 h

omit [DecidableEq K] in
/-- An entry of the map, with its bucket at the place of the iterator. -/
theorem split_of_deref (hm : m.WF) {e : K × V} (he : m.deref it = some e) :
    m.getIndex e.1 = it.bucket ∧ m.bucket e.1 = m.list it.bucket ∧
      ∃ a b, m.list it.bucket = a ++ e :: b ∧ a.length = it.pos := by
  obtain ⟨hlt, rfl⟩ := List.getElem?_eq_some_iff.mp he
  have hbucket := lt_of_lt_list hlt
  have hlist : m.table[it.bucket]? = some (m.list it.bucket) := by
    simp [list, List.getD_eq_getElem?_getD, List.getElem?_eq_getElem hbucket]
  have hplaced := hm.placed it.bucket _ hlist _ (List.getElem_mem hlt)
  refine ⟨hplaced, congrArg m.list hplaced, (m.list it.bucket).take it.pos,
    (m.list it.bucket).drop (it.pos + 1), ?_, List.length_take_of_le hlt.le⟩
  rw [← List.drop_eq_getElem_cons hlt, List.take_append_drop]

omit [DecidableEq K] [Hash K] in
theorem map_filter_eraseIdx {α β : Type} {p : α → Bool} (f : α → β) {x : α} (hx : p x)
    (a b : List α) : ((a ++ b).filter p).map f =
      (((a ++ x :: b).filter p).map f).eraseIdx (a.countP p) := by
  have hcount : ((a.filter p).map f).length = (a.filter p).length := List.length_map f
  rw [List.filter_append, List.filter_append, List.filter_cons_of_pos hx, List.map_append,
    List.map_append, List.countP_eq_length_filter, ← hcount,
    List.eraseIdx_append_of_length_le le_rfl, Nat.sub_self]
  rfl

theorem eraseAt_spec (hm : m.Maintained) {e : K × V} (ht : it.bucket = it.tableIndex)
    (he : m.deref it = some e) (hnext : it.next.isSome) :
    ∃ m', m.eraseAt it = some m' ∧ m'.Maintained ∧
      ∀ k, m'.values k = if k = e.1 then (m.values k).eraseIdx (m.rank it k) else m.values k := by
  obtain ⟨hindex, hbucket, a, b, hsplit, hpos⟩ := split_of_deref hm.toWF he
  have hlt : it.pos < (m.list it.bucket).length := (List.getElem?_eq_some_iff.mp he).1
  obtain ⟨next, hnext⟩ := Option.isSome_iff_exists.mp hnext
  have herased : (m.list it.bucket).eraseIdx it.pos = a ++ b := by
    rw [hsplit, ← hpos, List.eraseIdx_append_of_length_le le_rfl, Nat.sub_self]
    rfl
  obtain ⟨pre, post, hold, hnew⟩ := toList_modify hm.toWF e.1
  have hsized := hm.sized
  unfold Sized at hsized
  rw [hold, hbucket, hsplit] at hsized
  simp only [List.length_append, List.length_cons] at hsized
  have hsize : (if m.size = 0 then 2 ^ 64 - 1 else m.size - 1) = m.size - 1 :=
    if_neg (by omega)
  have herase : m.eraseAt it =
      some { m with
        size := m.size - 1
        table := m.table.modify (m.getIndex e.1) fun b => b.eraseIdx it.pos } := by
    unfold eraseAt
    rw [if_pos ⟨ht ▸ lt_of_lt_list hlt, ht⟩]
    simp only []
    rw [if_pos hlt, hnext, hsize, hindex]
    rfl
  have hwf := wf_modify hm.toWF e.1 (m.size - 1) (fun b => b.eraseIdx it.pos)
    (fun b => grouped_eraseIdx b it.pos) fun b f hf => .inl (List.mem_of_mem_eraseIdx hf)
  refine ⟨_, herase, ⟨hwf, ?_, ?_⟩, fun k => ?_⟩
  · unfold Sized
    rw [hnew, hbucket, herased]
    simp only [List.length_append]
    omega
  · intro hgrow
    have hlen : (m.table.modify (m.getIndex e.1) fun b => b.eraseIdx it.pos).length =
      m.table.length := List.length_modify ..
    unfold CanGrow at hgrow
    simp only [hlen] at hgrow ⊢
    have hle := hm.fits hgrow
    omega
  · unfold values
    rw [filter_toList hwf, filter_toList hm.toWF, bucket_modify hm.toWF]
    by_cases hk : k = e.1
    · subst hk
      rw [if_pos rfl, if_pos rfl, hbucket, herased]
      unfold rank
      rw [hsplit, List.take_left' hpos]
      exact map_filter_eraseIdx Prod.snd (decide_eq_true rfl) a b
    · rw [if_neg hk]
      split_ifs with hi
      · have hsame : m.bucket k = m.bucket e.1 := congrArg m.list hi.symm
        rw [hsame, hbucket, herased, hsplit, List.filter_append, List.filter_append,
          List.filter_cons_of_neg (by simpa using Ne.symm hk)]
      · rfl

theorem maintained_erase (hm : m.Maintained) (k : K) : (m.erase k).Maintained := by
  obtain ⟨pre, post, hold, hnew⟩ := toList_modify hm.toWF k
  have hsized := hm.sized
  unfold Sized at hsized
  rw [hold] at hsized
  have hcount : (m.bucket k).length = (m.bucket k).countP (fun e => e.1 = k) +
      ((m.bucket k).filter fun e => e.1 ≠ k).length := by
    rw [List.countP_eq_length_filter, List.length_eq_length_filter_add fun e => decide (e.1 = k)]
    simp only [ne_eq, decide_not]
  refine ⟨wf_erase hm.toWF k, ?_, ?_⟩
  · have hlist : (m.erase k).toList = pre ++ ((m.bucket k).filter (fun e => e.1 ≠ k) ++ post) :=
      hnew _ _
    have hsize : (m.erase k).size = m.size - (m.bucket k).countP fun e => e.1 = k := rfl
    unfold Sized
    rw [hlist, hsize]
    simp only [List.length_append] at hsized ⊢
    omega
  · intro hgrow
    have hlen : (m.erase k).table.length = m.table.length := List.length_modify ..
    unfold CanGrow at hgrow
    rw [hlen] at hgrow ⊢
    exact (Nat.sub_le _ _).trans (hm.fits hgrow)

omit [DecidableEq K] in
theorem maintained_ofTableSize {n : ℕ} {c : PlainChar} (hn : n ∈ tableSizes) :
    (ofTableSize n c : HashMap K V).Maintained where
  toWF := wf_ofTableSize hn
  sized := by
    unfold Sized
    rw [toList_ofTableSize]
    rfl
  fits _ := Nat.zero_le _

omit [DecidableEq K] [Hash K] in
theorem clear_eq (m : HashMap K V) : m.clear = ofTableSize m.table.length m.plainChar := by
  unfold clear ofTableSize
  rw [List.map_const']

omit [DecidableEq K] in
theorem maintained_clear (hm : m.Maintained) : m.clear.Maintained := by
  rw [clear_eq]
  exact maintained_ofTableSize hm.sizes

omit [Hash K] in
theorem values_ofTableSize (n : ℕ) (c : PlainChar) (k : K) :
    (ofTableSize n c : HashMap K V).values k = [] := by
  unfold values
  rw [toList_ofTableSize]
  rfl

end Copying

end HashMap
end Haggle
