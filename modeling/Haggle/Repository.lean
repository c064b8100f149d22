import Haggle.RepositoryText
import Haggle.Trace

/-!
# The repository is a map

While the statements keep to their strings, the table follows a map from pairs of an authority and
a key to values. It does not if a pair gets a value of the other type: the update asks for a row of
the new type, finds none and changes nothing.
-/

namespace Haggle
namespace Repository

open Sql

section Rows

/-- A row of the table. -/
structure Stored where
  rowid : ℕ
  authority : Bytes
  key : Bytes
  value : EntryValue

namespace Stored

def pair (r : Stored) : Bytes × Bytes := (r.authority, r.key)

def row (r : Stored) : Row :=
  (lit "rowid", .int r.rowid) :: (assignments r.authority r.key r.value).map fun c =>
    (c.1, c.2.eval r.value.bound)

def entry (r : Stored) : Entry := ⟨r.authority, r.key, r.value, r.rowid % 2 ^ 32⟩

theorem value_authority (r : Stored) : Row.value r.row (lit "authority") = .text r.authority := rfl

theorem value_key (r : Stored) : Row.value r.row (lit "key") = .text r.key := rfl

theorem value_type (r : Stored) : Row.value r.row (lit "type") = .int r.value.type :=
  congrArg Value.int (congrArg Nat.cast (digitsValue_decimal r.value.type))

theorem holdsAll_onPair (bound : List Value) (a k : Bytes) (r : Stored) :
    holdsAll bound (onPair a k) r.row = decide (r.pair = (a, k)) := by
  have hsame : ∀ s s' : Bytes, (Value.text s).same (.text s') = decide (s = s') := by
    intro s s'
    simp [Value.same]
  simp only [holdsAll, onPair, List.all_cons, List.all_nil, Comparison.holds, value_authority,
    value_key, Operand.eval, hsame, Bool.and_true, pair, Prod.mk.injEq, Bool.decide_and]

theorem holdsAll_onType (bound : List Value) (a k : Bytes) (n : ℕ) (r : Stored) :
    holdsAll bound (⟨lit "type", .equal, .numeral (decimal n)⟩ :: onPair a k) r.row =
      decide (r.value.type = n ∧ r.pair = (a, k)) := by
  have hcons : ∀ c cs, holdsAll bound (c :: cs) r.row =
      (c.holds bound r.row && holdsAll bound cs r.row) := fun c cs => rfl
  rw [hcons, holdsAll_onPair, Bool.decide_and]
  congr 1
  simp [Comparison.holds, value_type, eval_decimal, Value.same]

theorem holdsAll_onLike (bound : List Value) (a k : Bytes) (r : Stored) :
    holdsAll bound [⟨lit "authority", .equal, .string a⟩, ⟨lit "key", .like, .string k⟩] r.row =
      decide (r.authority = a ∧ like k r.key = true) := by
  have hsame : (Value.text r.authority).same (.text a) = decide (r.authority = a) := by
    simp [Value.same]
  simp only [holdsAll, List.all_cons, List.all_nil, Comparison.holds, value_authority, value_key,
    Operand.eval, hsame, Value.isLike, Bool.and_true, Bool.decide_and, Bool.decide_eq_true]

theorem assign_row {r : Stored} {v : EntryValue} (hv : r.value.type = v.type) :
    assign v.bound (assignments r.authority r.key v) r.row = { r with value := v }.row := by
  obtain ⟨rowid, a, k, w⟩ := r
  cases w <;> cases v
  · rfl
  · cases hv
  · cases hv
  · rfl

theorem newRow_eq (t : Table) (a k : Bytes) (v : EntryValue) :
    newRow v.bound t ((assignments a k v).map Prod.fst) ((assignments a k v).map Prod.snd) =
      row ⟨t.rowid, a, k, v⟩ := by
  rw [newRow, List.map_map, row]
  congr 1
  exact List.zip_map'

theorem rowEntry_row {r : Stored} (hr : ∀ s, r.value = .string s → Plain s) (last : Option Entry) :
    rowEntry last r.row = some r.entry := by
  obtain ⟨rowid, a, k, v⟩ := r
  cases v with
  | string s =>
    have hstr : columnText (row ⟨rowid, a, k, .string s⟩) (lit "value_str") = s :=
      (hr s rfl).cString
    have htype : columnInt (row ⟨rowid, a, k, .string s⟩) (lit "type") = 0 := by
      simp [columnInt, value_type, EntryValue.type]
    rw [rowEntry, if_pos htype, hstr]
    rfl
  | blob s =>
    have htype : columnInt (row ⟨rowid, a, k, .blob s⟩) (lit "type") = 1 := by
      simp [columnInt, value_type, EntryValue.type]
    have hlen : columnInt (row ⟨rowid, a, k, .blob s⟩) (lit "value_len") = s.length :=
      digitsValue_decimal s.length
    have hblob : columnText (row ⟨rowid, a, k, .blob s⟩) (lit "value_blob") = s := by
      have hvalue : Row.value (row ⟨rowid, a, k, .blob s⟩) (lit "value_blob") =
          if s = [] then .null else .blob s := rfl
      rw [columnText, hvalue]
      split_ifs with hs
      · exact hs.symm
      · rfl
    rw [rowEntry, htype, if_neg one_ne_zero, if_pos rfl, hlen, hblob, List.take_length]
    rfl

end Stored

theorem readRows_row {stored : List Stored}
    (hs : ∀ r ∈ stored, ∀ s, r.value = .string s → Plain s) (last : Option Entry) :
    readRows last (stored.map Stored.row) = stored.map Stored.entry := by
  induction stored generalizing last with
  | nil => rfl
  | cons r stored ih =>
    rw [List.map_cons, readRows, Stored.rowEntry_row (hs r (by simp)),
      ih fun r hr => hs r (by simp [hr])]
    rfl

end Rows

section Map

/-- The values of the pairs, in the order of their rows. -/
abbrev Map := List ((Bytes × Bytes) × EntryValue)

structure Represents (t : Table) (m : Map) : Prop where
  name : t.name = table
  columns : t.columns = emptyTable.columns
  rows : ∃ stored : List Stored, t.rows = stored.map Stored.row ∧
    m = stored.map fun r => (r.pair, r.value)
  nodup : (m.map Prod.fst).Nodup
  plain : ∀ p ∈ m, ∀ s, p.2 = .string s → Plain s

theorem represents_empty : Represents emptyTable [] where
  name := rfl
  columns := rfl
  rows := ⟨[], rfl, rfl⟩
  nodup := List.nodup_nil
  plain := by simp

def fits (text : Bytes) : Bool := text.length < 8000

theorem sqlCmd_of_fits {text : Bytes} (h : fits text = true) : sqlCmd text = text := by
  rw [fits, decide_eq_true_eq] at h
  exact List.take_of_length_le (by omega)

/-- A deletion that the map follows. -/
structure Deletable (e : Entry) : Prop where
  authority : Plain e.authority
  key : Plain e.key
  id : e.id = 0
  text : fits (deleteText e.authority e.key 0) = true

variable (beyond : Bytes → List Value → Table → Option (List Row × Table)) {t : Table} {m : Map}
  {e : Entry}

theorem represents_delete (ht : Represents t m) (he : Deletable e) :
    Represents (deleteRepository beyond t e).2 (AssocList.remove (e.authority, e.key) m) := by
  have hresolves : (Statement.delete table (onPair e.authority e.key)).resolves t = true := by
    rw [Statement.resolves, ht.name, ht.columns]
    rfl
  have hrun := run_eq (compile_deleteText he.authority.quote he.key.quote) hresolves beyond []
  rw [deleteRepository, he.authority.cString, he.key.cString, he.id, sqlCmd_of_fits he.text, hrun]
  obtain ⟨stored, hrows, hm⟩ := ht.rows
  have hrows' : t.rows.filter (fun r => !holdsAll [] (onPair e.authority e.key) r) =
      (stored.filter fun r => r.pair ≠ (e.authority, e.key)).map Stored.row := by
    rw [hrows, List.filter_map]
    congr 1
    refine List.filter_congr fun r _ => ?_
    rw [Function.comp_apply, Stored.holdsAll_onPair, decide_not]
  exact {
    name := ht.name
    columns := ht.columns
    rows := by
      refine ⟨_, hrows', ?_⟩
      rw [hm, AssocList.remove, List.filter_map]
      rfl
    nodup := ht.nodup.sublist (List.filter_sublist.map _)
    plain := fun p hp => ht.plain p (List.mem_of_mem_filter hp)
  }

/-- A reading that the map follows: no other key of the authority is `LIKE` the key. -/
structure Readable (m : Map) (e : Entry) : Prop where
  authority : Plain e.authority
  key : Plain e.key
  id : e.id = 0
  text : fits (readText e.authority e.key 0) = true
  exact : ∀ p ∈ m, p.1.1 = e.authority → (Sql.like e.key p.1.2 = true ↔ p.1.2 = e.key)

theorem readRepository_eq (ht : Represents t m) (he : Readable m e) :
    ∃ entries, readRepository beyond t e = (1, some entries, t) ∧
      entries.map (fun x => ((x.authority, x.key), x.value)) =
        (AssocList.get m (e.authority, e.key)).toList.map fun v => ((e.authority, e.key), v) := by
  have hresolves : (Statement.select table [⟨lit "authority", .equal, .string e.authority⟩,
      ⟨lit "key", .like, .string e.key⟩]).resolves t = true := by
    rw [Statement.resolves, ht.name, ht.columns]
    rfl
  have hrun := run_eq (compile_readText he.authority.quote he.key.quote he.key.nonempty) hresolves
    beyond []
  obtain ⟨stored, hrows, hm⟩ := ht.rows
  have hselected : t.rows.filter (holdsAll [] [⟨lit "authority", .equal, .string e.authority⟩,
      ⟨lit "key", .like, .string e.key⟩]) =
        (stored.filter fun r => r.pair = (e.authority, e.key)).map Stored.row := by
    rw [hrows, List.filter_map]
    congr 1
    refine List.filter_congr fun r hr => ?_
    have hmem : (r.pair, r.value) ∈ m := by
      rw [hm]
      exact List.mem_map_of_mem hr
    have hlike := he.exact _ hmem
    rw [Function.comp_apply, Stored.holdsAll_onLike, Bool.eq_iff_iff, decide_eq_true_eq,
      decide_eq_true_eq]
    simp only [Stored.pair, Prod.mk.injEq] at hlike ⊢
    exact and_congr_right hlike
  have hplain : ∀ r ∈ stored.filter (fun r => r.pair = (e.authority, e.key)), ∀ s,
      r.value = .string s → Plain s := by
    intro r hr
    refine ht.plain (r.pair, r.value) ?_
    rw [hm]
    exact List.mem_map_of_mem (List.mem_of_mem_filter hr)
  refine ⟨(stored.filter fun r => r.pair = (e.authority, e.key)).map Stored.entry, ?_, ?_⟩
  · rw [readRepository, if_neg he.authority.nonempty]
    simp only [if_neg he.key.nonempty, he.authority.cString, he.key.cString, he.id,
      sqlCmd_of_fits he.text, hrun, Statement.execute, hselected, readRows_row hplain]
  · rw [← AssocList.filter_key ht.nodup, List.map_map, hm, List.filter_map]
    rfl

/-- An insertion that the map follows: the value of a stored pair keeps its type. -/
structure Insertable (m : Map) (e : Entry) : Prop where
  authority : Plain e.authority
  key : Plain e.key
  string : ∀ s, e.value = .string s → Plain s
  size : e.value.length + 8192 ≤ maxLength
  find : fits (findText e.authority e.key) = true
  new : (e.authority, e.key) ∉ m.map Prod.fst → fits (insertText e.authority e.key e.value) = true
  old : (e.authority, e.key) ∈ m.map Prod.fst →
    fits (updateText e.authority e.key e.value 0) = true ∧ e.id = 0
  type : ∀ p ∈ m, p.1 = (e.authority, e.key) → p.2.type = e.value.type

theorem quote_valueStr {v : EntryValue} (hv : ∀ s, v = .string s → Plain s) : 39 ∉ valueStr v := by
  cases v with
  | string s =>
    rw [valueStr, (hv s rfl).cString]
    exact (hv s rfl).quote
  | blob s =>
    rw [valueStr]
    decide

/-- The search of an insertion finds the pair exactly if it is stored. -/
theorem Represents.run_find (ht : Represents t m) (he : Insertable m e) :
    ∃ found, Sql.run beyond (sqlCmd (findText e.authority e.key)) [] t = some (found, t) ∧
      (found = [] ↔ (e.authority, e.key) ∉ m.map Prod.fst) := by
  obtain ⟨stored, hrows, hm⟩ := ht.rows
  have hresolves : (Statement.select table (onPair e.authority e.key)).resolves t = true := by
    rw [Statement.resolves, ht.name, ht.columns]
    rfl
  have hrun := run_eq (compile_findText he.authority.quote he.key.quote) hresolves beyond []
  rw [← sqlCmd_of_fits he.find] at hrun
  refine ⟨_, hrun, ?_⟩
  simp [hrows, hm, List.filter_eq_nil_iff, Stored.holdsAll_onPair]

theorem Represents.plain_set (ht : Represents t m) {v : EntryValue}
    (hv : ∀ s, v = .string s → Plain s) (p : Bytes × Bytes) :
    ∀ q ∈ AssocList.set p v m, ∀ s, q.2 = .string s → Plain s := by
  intro q hq
  rcases AssocList.mem_set hq with rfl | hq
  · exact hv
  · exact ht.plain q hq

/-- The table after an `INSERT`. -/
theorem Represents.append (ht : Represents t m) {a k : Bytes} {v : EntryValue}
    (hnew : (a, k) ∉ m.map Prod.fst) (hv : ∀ s, v = .string s → Plain s) :
    Represents ((Statement.insert table ((assignments a k v).map Prod.fst)
      ((assignments a k v).map Prod.snd)).execute v.bound t).2 (AssocList.set (a, k) v m) := by
  obtain ⟨stored, hrows, hm⟩ := ht.rows
  refine ⟨ht.name, ht.columns, ⟨stored ++ [⟨t.rowid, a, k, v⟩], ?_, ?_⟩,
    AssocList.nodup_set _ _ ht.nodup, ht.plain_set hv _⟩
  · rw [Statement.execute, Stored.newRow_eq, hrows, List.map_append, List.map_singleton]
  · rw [AssocList.set_of_not_mem v hnew, hm, List.map_append, List.map_singleton]
    rfl

/-- The table after an `UPDATE` of a pair whose value keeps its type. -/
theorem Represents.replace (ht : Represents t m) {a k : Bytes} {v : EntryValue}
    (hold : (a, k) ∈ m.map Prod.fst) (htype : ∀ p ∈ m, p.1 = (a, k) → p.2.type = v.type)
    (hv : ∀ s, v = .string s → Plain s) :
    Represents ((Statement.update table (assignments a k v) (⟨lit "type", .equal,
      .numeral (decimal v.type)⟩ :: onPair a k)).execute v.bound t).2
        (AssocList.set (a, k) v m) := by
  obtain ⟨stored, hrows, hm⟩ := ht.rows
  refine ⟨ht.name, ht.columns,
    ⟨stored.map fun r => if r.pair = (a, k) then { r with value := v } else r, ?_, ?_⟩,
    AssocList.nodup_set _ _ ht.nodup, ht.plain_set hv _⟩
  · rw [Statement.execute, hrows, List.map_map, List.map_map]
    refine List.map_congr_left fun r hr => ?_
    have hmem : (r.pair, r.value) ∈ m := by
      rw [hm]
      exact List.mem_map_of_mem hr
    rw [Function.comp_apply, Function.comp_apply, Stored.holdsAll_onType]
    by_cases hpair : r.pair = (a, k)
    · have hrtype : r.value.type = v.type := htype _ hmem hpair
      rw [if_pos (by simp [hrtype, hpair]), if_pos hpair]
      obtain ⟨rfl, rfl⟩ := Prod.mk.inj hpair
      exact Stored.assign_row hrtype
    · rw [if_neg (by simp [hpair]), if_neg hpair]
  · rw [AssocList.set_of_mem v ht.nodup hold, hm, List.map_map, List.map_map]
    refine List.map_congr_left fun r _ => ?_
    by_cases hpair : r.pair = (a, k)
    · rw [Function.comp_apply, Function.comp_apply, if_pos hpair, if_pos hpair, ← hpair]
      rfl
    · simp [hpair]

theorem represents_insert (ht : Represents t m) (he : Insertable m e) :
    Represents (insertRepository beyond t e).2 (AssocList.set (e.authority, e.key) e.value m) := by
  have hquote := quote_valueStr he.string
  have hmax : e.value.length + 8192 ≤ 1000000000 := he.size
  have hsize : ¬(e.value.type = 1 ∧ maxLength < e.value.length) := by
    rw [maxLength]
    omega
  have hlen : e.value.length < 2 ^ 63 := by omega
  have hfind := ht.run_find beyond he
  obtain ⟨found, hfind, hfound⟩ := hfind
  simp only [insertRepository, he.authority.cString, he.key.cString, hfind, hfound, hsize, if_false]
  by_cases hmem : (e.authority, e.key) ∈ m.map Prod.fst
  · have hresolves : (Statement.update table (assignments e.authority e.key e.value) (⟨lit "type",
        .equal, .numeral (decimal e.value.type)⟩ :: onPair e.authority e.key)).resolves t =
          true := by
      rw [Statement.resolves, ht.name, ht.columns]
      cases e.value <;> rfl
    rw [if_neg (not_not.mpr hmem), (he.old hmem).2, sqlCmd_of_fits (he.old hmem).1,
      run_eq (compile_updateText he.authority.quote he.key.quote hquote hlen) hresolves]
    exact ht.replace hmem he.type he.string
  · have hresolves : (Statement.insert table ((assignments e.authority e.key e.value).map Prod.fst)
        ((assignments e.authority e.key e.value).map Prod.snd)).resolves t = true := by
      rw [Statement.resolves, ht.name, ht.columns]
      cases e.value <;> rfl
    rw [if_pos hmem, sqlCmd_of_fits (he.new hmem),
      run_eq (compile_insertText he.authority.quote he.key.quote hquote hlen) hresolves]
    exact ht.append hmem he.string

end Map

section Runs

inductive Call
  | insert (e : Entry)
  | read (e : Entry)
  | delete (e : Entry)

/-- The table, and the map that it is for. -/
structure State where
  table : Table
  map : Map

def start : State := ⟨emptyTable, []⟩

variable (beyond : Bytes → List Value → Table → Option (List Row × Table))

def step (s : State) : Call → State
  | .insert e => ⟨(insertRepository beyond s.table e).2,
      AssocList.set (e.authority, e.key) e.value s.map⟩
  | .read e => ⟨(readRepository beyond s.table e).2.2, s.map⟩
  | .delete e => ⟨(deleteRepository beyond s.table e).2,
      AssocList.remove (e.authority, e.key) s.map⟩

def Ok (s : State) : Call → Prop
  | .insert e => Insertable s.map e
  | .read e => Readable s.map e
  | .delete e => Deletable e

/-- A reading gives the value of the pair, and nothing of another pair. -/
def Exact (s : State) (e : Entry) : Prop :=
  (readRepository beyond s.table e).2.1.map (List.map fun x => ((x.authority, x.key), x.value)) =
    some ((AssocList.get s.map (e.authority, e.key)).toList.map fun v =>
      ((e.authority, e.key), v))

theorem represents_step {s : State} {c : Call} (hs : Represents s.table s.map) (hc : Ok s c) :
    Represents (step beyond s c).table (step beyond s c).map := by
  cases c with
  | insert e => exact represents_insert beyond hs hc
  | read e =>
    obtain ⟨entries, hread, -⟩ := readRepository_eq beyond hs hc
    rw [step, hread]
    exact hs
  | delete e => exact represents_delete beyond hs hc

theorem exact_run {calls : List Call} (hcalls : Trace.Guarded (step beyond) Ok start calls)
    {e : Entry} (he : Readable (Trace.run (step beyond) start calls).map e) :
    Exact beyond (Trace.run (step beyond) start calls) e := by
  have hrep : Represents (Trace.run (step beyond) start calls).table
      (Trace.run (step beyond) start calls).map :=
    @Trace.invariant_of_guarded _ _ (step beyond) Ok (fun s => Represents s.table s.map)
      (fun s c hs hc => represents_step beyond hs hc) _ _ represents_empty hcalls
  obtain ⟨entries, hread, hentries⟩ := readRepository_eq beyond hrep he
  rw [Exact, hread, Option.map_some, hentries]

end Runs

end Repository

namespace Sample

open Repository

def sessionEntry (v : EntryValue) : Entry := ⟨lit "SecurityManager", lit "session", v, 0⟩

def sessionRun : List Call :=
  [.insert (sessionEntry (.string (lit "open"))), .insert (sessionEntry (.string (lit "closed"))),
    .delete ⟨lit "SecurityManager", lit "ticket", .string [], 0⟩]

theorem exact_sessionRun :
    Exact (fun _ _ _ => none) (Trace.run (step fun _ _ _ => none) start sessionRun)
      (sessionEntry (.string [])) := by
  have hplain : ∀ s, s = lit "SecurityManager" ∨ s = lit "session" ∨ s = lit "ticket" ∨
      s = lit "open" ∨ s = lit "closed" → Plain s := by
    rintro s (rfl | rfl | rfl | rfl | rfl) <;> exact ⟨by decide, by decide, by decide⟩
  have hinsert : ∀ m v, v = lit "open" ∨ v = lit "closed" →
      (∀ p ∈ m, ∃ s, p.2 = EntryValue.string s) → Insertable m (sessionEntry (.string v)) := by
    intro m v hv hm
    refine ⟨hplain _ (by simp [sessionEntry]), hplain _ (by simp [sessionEntry]), ?_, ?_, ?_, ?_,
      ?_, ?_⟩
    · rintro s hs
      obtain rfl := EntryValue.string.inj hs
      exact hplain v (.inr (.inr (.inr hv)))
    · rcases hv with rfl | rfl <;> decide +kernel
    · rcases hv with rfl | rfl <;> decide +kernel
    · intro _
      rcases hv with rfl | rfl <;> decide +kernel
    · intro _
      rcases hv with rfl | rfl <;> decide +kernel
    · intro p hp _
      obtain ⟨s, hs⟩ := hm p hp
      rw [hs]
      rfl
  have hcalls : Trace.Guarded (step fun _ _ _ => none) Ok start sessionRun := by
    refine ⟨hinsert _ _ (by simp) (by simp [start]), hinsert _ _ (by simp) ?_,
      ⟨hplain _ (by simp), hplain _ (by simp), rfl, by decide +kernel⟩, trivial⟩
    simp [step, start, AssocList.set, sessionEntry]
  exact exact_run _ hcalls ⟨hplain _ (by simp [sessionEntry]), hplain _ (by simp [sessionEntry]),
    rfl, by decide +kernel, by decide +kernel⟩

/-- A pair gets a value of the other type: the row keeps the old value. -/
def retypedRun : List Call :=
  [.insert (sessionEntry (.string (lit "none"))), .insert (sessionEntry (.blob [7]))]

theorem not_exact_retypedRun :
    ¬∀ beyond calls e, Exact beyond (Trace.run (step beyond) start calls) e := by
  intro h
  have hread := h (fun _ _ _ => none) retypedRun (sessionEntry (.string []))
  unfold Exact at hread
  revert hread
  decide +kernel

end Sample
end Haggle
