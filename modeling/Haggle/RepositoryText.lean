import Haggle.Printed
import Mathlib.Data.List.TakeWhile
import Mathlib.Logic.Function.Basic

/-!
# The repository

Managers keep values in a table of the data store, under an authority and a key. An insertion looks
for a row of the pair and then updates or inserts; a reading compares the key with `LIKE`. All
statements are printed into one buffer of 8000 bytes, with the strings of the entry between
apostrophes.
-/

namespace Haggle
namespace Repository

/-- The value of an entry, of either type. -/
inductive EntryValue
  | string (s : Bytes)
  | blob (s : Bytes)
deriving DecidableEq

structure Entry where
  authority : Bytes
  key : Bytes
  value : EntryValue
  id : ℕ
deriving DecidableEq

namespace EntryValue

/-- `RepositoryEntry::ValueType`. -/
def type : EntryValue → ℕ
  | string _ => 0
  | blob _ => 1

def length : EntryValue → ℕ
  | string s | blob s => s.length

/-- What `sqlite3_bind_blob` binds: an empty blob has no address. -/
def bound : EntryValue → List Sql.Value
  | string _ => []
  | blob s => [if s = [] then .null else .blob s]

end EntryValue

section Text

/-- `%s` of a string whose address is null when it is empty. -/
def cString (s : Bytes) : Bytes := if s = [] then lit "(null)" else s.takeWhile (· ≠ 0)

/-- `snprintf` into a buffer of `SQL_MAX_CMD_SIZE` bytes. -/
def sqlCmd (text : Bytes) : Bytes := text.take 7999

def findText (a k : Bytes) : Bytes :=
  lit "SELECT * FROM table_repository WHERE (authority='" ++ (a ++ (lit "' AND key='" ++
    (k ++ lit "');")))

/-- The string in `value_str`, and the column of a blob. -/
def valueStr : EntryValue → Bytes
  | .blob _ => lit "-"
  | .string s => cString s

def blobSet : EntryValue → Bytes
  | .blob _ => lit ", value_blob=?"
  | .string _ => []

/-- The assignments of an update, up to the condition. -/
def setText (a k : Bytes) (v : EntryValue) : Bytes :=
  lit "UPDATE table_repository SET type=" ++ (decimal v.type ++ (lit ", authority='" ++ (a ++
    (lit "', key='" ++ (k ++ (lit "', value_str='" ++ (valueStr v ++ (lit "'" ++ (blobSet v ++
      (lit ", value_len=" ++ decimal v.length))))))))))

def updateText (a k : Bytes) (v : EntryValue) (id : ℕ) : Bytes :=
  setText a k v ++ if 0 < id then
      lit " WHERE (rowid='" ++ (decimal id ++ (lit "' AND type=" ++ (decimal v.type ++
        (lit " AND authority='" ++ (a ++ lit "');")))))
    else
      lit " WHERE (type=" ++ (decimal v.type ++ (lit " AND authority='" ++ (a ++
        (lit "' AND key='" ++ (k ++ lit "');")))))

def insertText (a k : Bytes) (v : EntryValue) : Bytes :=
  lit "INSERT INTO table_repository (type, authority, key, value_str, " ++
    ((match v with
      | .blob _ => lit "value_blob, value_len) VALUES ("
      | .string _ => lit "value_len) VALUES (") ++ (decimal v.type ++ (lit ", '" ++ (a ++
        (lit "', '" ++ (k ++ (lit "', '" ++ (valueStr v ++ ((match v with
          | .blob _ => lit "', ?, "
          | .string _ => lit "', ") ++ (decimal v.length ++ lit ");"))))))))))

def readText (a k : Bytes) (id : ℕ) : Bytes :=
  lit "SELECT * FROM table_repository WHERE authority='" ++ (a ++
    if k ≠ [] ∧ 0 < id then
      lit "' AND key LIKE '" ++ (k ++ (lit "' AND id=" ++ (decimal id ++ lit ";")))
    else if k ≠ [] then lit "' AND key LIKE '" ++ (k ++ lit "';")
    else if 0 < id then lit "' AND id='" ++ (decimal id ++ lit "';")
    else lit "';")

def deleteText (a k : Bytes) (id : ℕ) : Bytes :=
  lit "DELETE FROM table_repository WHERE authority='" ++ (a ++ (lit "' AND key='" ++ (k ++
    if 0 < id then lit "' AND rowid = " ++ (decimal id ++ lit ";") else lit "';")))

end Text

section Operations

variable (beyond : Bytes → List Sql.Value → Sql.Table → Option (List Sql.Row × Sql.Table))

/-- `SQL_CREATE_TABLE_REPOSITORY_CMD`. -/
def emptyTable : Sql.Table where
  name := lit "table_repository"
  columns := [lit "rowid", lit "type", lit "authority", lit "key", lit "value_str",
    lit "value_blob", lit "value_len"]
  rows := []
  rowid := 1

/-- `SQLITE_MAX_LENGTH`. -/
def maxLength : ℕ := 1000000000

/-- `_insertRepository`: what it returns, and the table. -/
def insertRepository (t : Sql.Table) (e : Entry) : ℤ × Sql.Table :=
  let a := cString e.authority
  let k := cString e.key
  match Sql.run beyond (sqlCmd (findText a k)) [] t with
  | none => (-1, t)
  | some (found, t) =>
    let text := if found = [] then insertText a k e.value else updateText a k e.value e.id
    if e.value.type = 1 ∧ maxLength < e.value.length then (-1, t)
    else match Sql.run beyond (sqlCmd text) e.value.bound t with
      | none => (-1, t)
      | some (_, t) => (1, t)

/-- `sqlite3_column_text`. -/
def columnText (r : Sql.Row) (c : Bytes) : Bytes :=
  match Sql.Row.value r c with
  | .text s | .blob s => s
  | _ => []

def columnInt (r : Sql.Row) (c : Bytes) : ℕ :=
  match Sql.Row.value r c with
  | .int i => i.toNat
  | _ => 0

/-- One row of the result; the entry of the last row is still there if the type is unknown. -/
def rowEntry (last : Option Entry) (r : Sql.Row) : Option Entry :=
  let authority := columnText r (lit "authority")
  let key := columnText r (lit "key")
  let id := columnInt r (lit "rowid") % 2 ^ 32
  if columnInt r (lit "type") = 0 then
    some ⟨authority, key, .string (columnText r (lit "value_str")), id⟩
  else if columnInt r (lit "type") = 1 then
    some ⟨authority, key,
      .blob ((columnText r (lit "value_blob")).take (columnInt r (lit "value_len"))), id⟩
  else last

def readRows : Option Entry → List Sql.Row → List Entry
  | _, [] => []
  | last, r :: rows => (rowEntry last r).toList ++ readRows (rowEntry last r) rows

/-- `_readRepository`: what it returns, the entries given to the callback, and the table. -/
def readRepository (t : Sql.Table) (e : Entry) : ℤ × Option (List Entry) × Sql.Table :=
  if e.authority = [] then (-1, none, t)
  else
    let k := if e.key = [] then [] else cString e.key
    match Sql.run beyond (sqlCmd (readText (cString e.authority) k e.id)) [] t with
    | none => (-1, none, t)
    | some (rows, t) => (1, some (readRows none rows), t)

/-- `_deleteRepository`. -/
def deleteRepository (t : Sql.Table) (e : Entry) : ℤ × Sql.Table :=
  match Sql.run beyond (sqlCmd (deleteText (cString e.authority) (cString e.key) e.id)) [] t with
  | none => (-1, t)
  | some (_, t) => (1, t)

end Operations

section Compiled

/-- A string that arrives in a statement as it is. -/
structure Plain (s : Bytes) : Prop where
  nonempty : s ≠ []
  quote : 39 ∉ s
  nul : 0 ∉ s

theorem Plain.cString {s : Bytes} (hs : Plain s) : cString s = s := by
  rw [Repository.cString, if_neg hs.nonempty]
  exact cStr_eq hs.nul

open Sql

variable {a k : Bytes} {v : EntryValue}

def table : Bytes := lit "table_repository"

/-- The condition on the pair. -/
def onPair (a k : Bytes) : List Comparison :=
  [⟨lit "authority", .equal, .string a⟩, ⟨lit "key", .equal, .string k⟩]

/-- The columns that an update or an insertion gives, with their values. -/
def assignments (a k : Bytes) (v : EntryValue) : List (Bytes × Operand) :=
  (lit "type", .numeral (decimal v.type)) :: (lit "authority", .string a) ::
    (lit "key", .string k) :: (lit "value_str", .string (valueStr v)) ::
      match v with
      | .blob s => [(lit "value_blob", .parameter 0), (lit "value_len", .numeral (decimal s.length))]
      | .string s => [(lit "value_len", .numeral (decimal s.length))]

theorem EntryValue.type_lt (v : EntryValue) : v.type < 2 ^ 63 := by
  cases v <;> norm_num [type]

theorem wellFormed_assignments (a k : Bytes) (hlen : v.length < 2 ^ 63) :
    ((assignments a k v).map Prod.snd).all Operand.wellFormed = true := by
  have hstring : ∀ s, (Operand.string s).wellFormed = true := fun s => rfl
  have hparameter : (Operand.parameter 0).wellFormed = true := rfl
  have htype := wellFormed_decimal v.type_lt
  have hlength := wellFormed_decimal hlen
  cases v <;>
    simp only [assignments, List.map_cons, List.map_nil, List.all_cons, List.all_nil, hstring,
      hparameter, htype, Bool.and_true, Bool.true_and] <;> exact hlength

theorem feed_key (s : Bytes) : feed (.inString s) (lit "' AND key='") =
    ([.string s.reverse, .word (lit "AND"), .word (lit "key"), .symbol 61], .inString []) := by
  simp only [lit_ofList]
  rfl

theorem feed_close (s : Bytes) :
    feed (.inString s) (lit "');") = ([.string s.reverse, .symbol 41, .symbol 59], .between) := by
  simp only [lit_ofList]
  rfl

theorem feed_end (s : Bytes) :
    feed (.inString s) (lit "';") = ([.string s.reverse, .symbol 59], .between) := by
  simp only [lit_ofList]
  rfl

/-- The condition on the pair, as it is parsed. -/
theorem parseConjunction_onPair (a k : Bytes) (x : UInt8) (l : List Token) (n : ℕ) :
    parseConjunction (n + 2) (.word (lit "authority") :: .symbol 61 :: .string a ::
      .word (ascii "AND") :: .word (lit "key") :: .symbol 61 :: .string k :: .symbol x :: l) =
      some (onPair a k, .symbol x :: l) := by
  rw [parseConjunction_and rfl, parseConjunction_last rfl]
  rfl

theorem compile_findText (ha : 39 ∉ a) (hk : 39 ∉ k) :
    (tokens (findText a k)).bind compile = some (.select table (onPair a k)) := by
  have hselect : feed .between (lit "SELECT * FROM table_repository WHERE (authority='") =
      ([.word (lit "SELECT"), .symbol 42, .word (lit "FROM"), .word table, .word (lit "WHERE"),
        .symbol 40, .word (lit "authority"), .symbol 61], .inString []) := by
    simp only [table, lit_ofList]
    rfl
  have hfeed : feed .between (findText a k) = _ := feed_trans hselect (feed_pasted ha fun s =>
    feed_trans (feed_key s) (feed_pasted hk feed_close))
  have hparse : parse [.word (ascii "SELECT"), .symbol 42, .word (ascii "FROM"), .word table,
      .word (ascii "WHERE"), .symbol 40, .word (lit "authority"), .symbol 61, .string a,
      .word (ascii "AND"), .word (lit "key"), .symbol 61, .string k, .symbol 41, .symbol 59] =
      some (.select table (onPair a k)) := by
    rw [parse_select, parseWhere_word, parseCondition, List.length_cons, List.length_cons,
      parseConjunction_onPair]
    rfl
  rw [tokens_of_feed hfeed rfl, Option.bind_some]
  exact compile_eq hparse rfl

theorem compile_deleteText (ha : 39 ∉ a) (hk : 39 ∉ k) :
    (tokens (deleteText a k 0)).bind compile = some (.delete table (onPair a k)) := by
  have hdelete : feed .between (lit "DELETE FROM table_repository WHERE authority='") =
      ([.word (lit "DELETE"), .word (lit "FROM"), .word table, .word (lit "WHERE"),
        .word (lit "authority"), .symbol 61], .inString []) := by
    simp only [table, lit_ofList]
    rfl
  have hfeed : feed .between (deleteText a k 0) = _ := feed_trans hdelete (feed_pasted ha fun s =>
    feed_trans (feed_key s) (feed_pasted hk feed_end))
  have hparse : parse [.word (ascii "DELETE"), .word (ascii "FROM"), .word table,
      .word (ascii "WHERE"), .word (lit "authority"), .symbol 61, .string a,
      .word (ascii "AND"), .word (lit "key"), .symbol 61, .string k, .symbol 59] =
      some (.delete table (onPair a k)) := by
    rw [parse_delete, parseWhere_word, parseCondition, List.length_cons, List.length_cons,
      parseConjunction_onPair]
    · rfl
    · rintro l ⟨⟩
  rw [tokens_of_feed hfeed rfl, Option.bind_some]
  exact compile_eq hparse rfl

theorem compile_readText (ha : 39 ∉ a) (hk : 39 ∉ k) (hne : k ≠ []) :
    (tokens (readText a k 0)).bind compile = some (.select table
      [⟨lit "authority", .equal, .string a⟩, ⟨lit "key", .like, .string k⟩]) := by
  have hselect : feed .between (lit "SELECT * FROM table_repository WHERE authority='") =
      ([.word (lit "SELECT"), .symbol 42, .word (lit "FROM"), .word table, .word (lit "WHERE"),
        .word (lit "authority"), .symbol 61], .inString []) := by
    simp only [table, lit_ofList]
    rfl
  have hlike : ∀ s, feed (.inString s) (lit "' AND key LIKE '") =
      ([.string s.reverse, .word (lit "AND"), .word (lit "key"), .word (lit "LIKE")],
        .inString []) := by
    intro s
    simp only [lit_ofList]
    rfl
  have htext : readText a k 0 = lit "SELECT * FROM table_repository WHERE authority='" ++
      (a ++ (lit "' AND key LIKE '" ++ (k ++ lit "';"))) := by
    rw [readText, if_neg (fun h => absurd h.2 (Nat.lt_irrefl 0)), if_pos hne]
  have hfeed : feed .between (readText a k 0) = _ := htext ▸ feed_trans hselect
    (feed_pasted ha fun s => feed_trans (hlike s) (feed_pasted hk feed_end))
  have hlast : parseComparison [.word (lit "key"), .word (lit "LIKE"), .string k, .symbol 59] =
      some (⟨lit "key", .like, .string k⟩, [.symbol 59]) := by
    rw [parseComparison]
    exact if_pos rfl
  have hparse : parse [.word (ascii "SELECT"), .symbol 42, .word (ascii "FROM"), .word table,
      .word (ascii "WHERE"), .word (lit "authority"), .symbol 61, .string a,
      .word (ascii "AND"), .word (lit "key"), .word (lit "LIKE"), .string k, .symbol 59] =
      some (.select table
        [⟨lit "authority", .equal, .string a⟩, ⟨lit "key", .like, .string k⟩]) := by
    rw [parse_select, parseWhere_word, parseCondition, List.length_cons, List.length_cons,
      parseConjunction_and rfl, parseConjunction_last hlast]
    · rfl
    · rintro l ⟨⟩
  rw [tokens_of_feed hfeed rfl, Option.bind_some]
  exact compile_eq hparse rfl

theorem compile_updateText (ha : 39 ∉ a) (hk : 39 ∉ k) (hv : 39 ∉ valueStr v)
    (hlen : v.length < 2 ^ 63) :
    (tokens (updateText a k v 0)).bind compile = some (.update table (assignments a k v)
      (⟨lit "type", .equal, .numeral (decimal v.type)⟩ :: onPair a k)) := by
  have hupdate : feed .between (lit "UPDATE table_repository SET type=") =
      ([.word (lit "UPDATE"), .word table, .word (lit "SET"), .word (lit "type"), .symbol 61],
        .between) := by
    simp only [table, lit_ofList]
    rfl
  have hauthority : ∀ w, feed (.inWord w) (lit ", authority='") =
      ([.word w.reverse, .symbol 44, .word (lit "authority"), .symbol 61], .inString []) := by
    intro w
    simp only [lit_ofList]
    rfl
  have hkey : ∀ s, feed (.inString s) (lit "', key='") =
      ([.string s.reverse, .symbol 44, .word (lit "key"), .symbol 61], .inString []) := by
    intro s
    simp only [lit_ofList]
    rfl
  have hstr : ∀ s, feed (.inString s) (lit "', value_str='") =
      ([.string s.reverse, .symbol 44, .word (lit "value_str"), .symbol 61], .inString []) := by
    intro s
    simp only [lit_ofList]
    rfl
  have hquote : ∀ s, feed (.inString s) (lit "'") = ([], .atQuote s) := by
    intro s
    simp only [lit_ofList]
    rfl
  have hwhere : ∀ w, feed (.inWord w) (lit " WHERE (type=") =
      ([.word w.reverse, .word (lit "WHERE"), .symbol 40, .word (lit "type"), .symbol 61],
        .between) := by
    intro w
    simp only [lit_ofList]
    rfl
  have hand : ∀ w, feed (.inWord w) (lit " AND authority='") =
      ([.word w.reverse, .word (lit "AND"), .word (lit "authority"), .symbol 61],
        .inString []) := by
    intro w
    simp only [lit_ofList]
    rfl
  have hcondition : parseWhere [.word (ascii "WHERE"), .symbol 40, .word (lit "type"), .symbol 61,
      .word (decimal v.type), .word (ascii "AND"), .word (lit "authority"), .symbol 61, .string a,
      .word (ascii "AND"), .word (lit "key"), .symbol 61, .string k, .symbol 41, .symbol 59] =
      some (⟨lit "type", .equal, .numeral (decimal v.type)⟩ :: onPair a k) := by
    rw [parseWhere_word, parseCondition, List.length_cons, List.length_cons, List.length_cons,
      parseConjunction_and rfl, parseConjunction_onPair]
    rfl
  have hwf : (Statement.update table (assignments a k v) (⟨lit "type", .equal,
      .numeral (decimal v.type)⟩ :: onPair a k)).operands.all Operand.wellFormed = true := by
    rw [Statement.operands, List.all_append, wellFormed_assignments a k hlen, Bool.true_and,
      List.map_cons, List.all_cons, wellFormed_decimal v.type_lt, Bool.true_and]
    rfl
  have hend : updateText a k v 0 = setText a k v ++ (lit " WHERE (type=" ++ (decimal v.type ++
      (lit " AND authority='" ++ (a ++ (lit "' AND key='" ++ (k ++ lit "');")))))) := by
    rw [updateText, if_neg (Nat.lt_irrefl 0)]
  have hfeedWhere : ∀ w, feed (.inWord w) (lit " WHERE (type=" ++ (decimal v.type ++
      (lit " AND authority='" ++ (a ++ (lit "' AND key='" ++ (k ++ lit "');")))))) = _ :=
    fun w => feed_trans (hwhere w) (feed_number v.type fun w => feed_trans (hand w)
      (feed_pasted ha fun s => feed_trans (feed_key s) (feed_pasted hk feed_close)))
  -- The blob's column stands between the string and the length.
  cases v with
  | string s =>
    have hnext : ∀ s, feed (.atQuote s) (lit ", value_len=") =
        ([.string s.reverse, .symbol 44, .word (lit "value_len"), .symbol 61], .between) := by
      intro s
      simp only [lit_ofList]
      rfl
    have hset : feed .between (setText a k (.string s)) = _ :=
      feed_trans hupdate (feed_number 0 fun w => feed_trans (hauthority w) (feed_pasted ha fun s =>
        feed_trans (hkey s) (feed_pasted hk fun s => feed_trans (hstr s) (feed_pasted hv fun s =>
          feed_trans (hquote s) (feed_trans (hnext s) (feed_decimal _))))))
    have hrest := hfeedWhere (decimal s.length).reverse
    rw [List.reverse_reverse] at hrest
    have hfeed : feed .between (updateText a k (.string s) 0) = _ := hend ▸ feed_trans hset hrest
    rw [tokens_of_feed hfeed rfl, Option.bind_some]
    exact compile_eq ((parse_update _ _ _).trans (parseUpdate_eq rfl hcondition)) hwf
  | blob s =>
    have hblob : ∀ s, feed (.atQuote s) (lit ", value_blob=?") =
        ([.string s.reverse, .symbol 44, .word (lit "value_blob"), .symbol 61, .symbol 63],
          .between) := by
      intro s
      simp only [lit_ofList]
      rfl
    have hnext : feed .between (lit ", value_len=") =
        ([.symbol 44, .word (lit "value_len"), .symbol 61], .between) := by
      simp only [lit_ofList]
      rfl
    have hset : feed .between (setText a k (.blob s)) = _ :=
      feed_trans hupdate (feed_number 1 fun w => feed_trans (hauthority w) (feed_pasted ha fun s =>
        feed_trans (hkey s) (feed_pasted hk fun s => feed_trans (hstr s) (feed_pasted hv fun s =>
          feed_trans (hquote s) (feed_trans (hblob s) (feed_trans hnext (feed_decimal _)))))))
    have hrest := hfeedWhere (decimal s.length).reverse
    rw [List.reverse_reverse] at hrest
    have hfeed : feed .between (updateText a k (.blob s) 0) = _ := hend ▸ feed_trans hset hrest
    rw [tokens_of_feed hfeed rfl, Option.bind_some]
    exact compile_eq ((parse_update _ _ _).trans (parseUpdate_eq rfl hcondition)) hwf

theorem compile_insertText (ha : 39 ∉ a) (hk : 39 ∉ k) (hv : 39 ∉ valueStr v)
    (hlen : v.length < 2 ^ 63) :
    (tokens (insertText a k v)).bind compile = some (.insert table
      ((assignments a k v).map Prod.fst) ((assignments a k v).map Prod.snd)) := by
  have hinsert : feed .between
      (lit "INSERT INTO table_repository (type, authority, key, value_str, ") =
      ([.word (lit "INSERT"), .word (lit "INTO"), .word table, .symbol 40, .word (lit "type"),
        .symbol 44, .word (lit "authority"), .symbol 44, .word (lit "key"), .symbol 44,
        .word (lit "value_str"), .symbol 44], .between) := by
    simp only [table, lit_ofList]
    decide
  have hfirst : ∀ w, feed (.inWord w) (lit ", '") =
      ([.word w.reverse, .symbol 44], .inString []) := by
    intro w
    simp only [lit_ofList]
    rfl
  have hnext : ∀ s, feed (.inString s) (lit "', '") =
      ([.string s.reverse, .symbol 44], .inString []) := by
    intro s
    simp only [lit_ofList]
    rfl
  have hend : ∀ w, feed (.inWord w) (lit ");") =
      ([.word w.reverse, .symbol 41, .symbol 59], .between) := by
    intro w
    simp only [lit_ofList]
    rfl
  cases v with
  | string s =>
    have hvalues : feed .between (lit "value_len) VALUES (") =
        ([.word (lit "value_len"), .symbol 41, .word (lit "VALUES"), .symbol 40], .between) := by
      simp only [lit_ofList]
      rfl
    have hlast : ∀ s, feed (.inString s) (lit "', ") =
        ([.string s.reverse, .symbol 44], .between) := by
      intro s
      simp only [lit_ofList]
      rfl
    have hne : (assignments a k (.string s)).map Prod.fst ≠ [] := List.cons_ne_nil _ _
    have hfeed : feed .between (insertText a k (.string s)) = _ :=
      feed_trans hinsert (feed_trans hvalues (feed_number 0 fun w => feed_trans (hfirst w)
        (feed_pasted ha fun s => feed_trans (hnext s) (feed_pasted hk fun s => feed_trans (hnext s)
          (feed_pasted hv fun s => feed_trans (hlast s) (feed_number _ hend))))))
    rw [tokens_of_feed hfeed rfl, Option.bind_some]
    exact compile_eq ((parse_insertTokens hne table
      [.word (decimal 0), .symbol 44, .string a, .symbol 44, .string k, .symbol 44,
        .string (valueStr (.string s)), .symbol 44, .word (decimal s.length), .symbol 41,
        .symbol 59]).trans rfl) (wellFormed_assignments a k hlen)
  | blob s =>
    have hvalues : feed .between (lit "value_blob, value_len) VALUES (") =
        ([.word (lit "value_blob"), .symbol 44, .word (lit "value_len"), .symbol 41,
          .word (lit "VALUES"), .symbol 40], .between) := by
      simp only [lit_ofList]
      rfl
    have hblob : ∀ s, feed (.inString s) (lit "', ?, ") =
        ([.string s.reverse, .symbol 44, .symbol 63, .symbol 44], .between) := by
      intro s
      simp only [lit_ofList]
      rfl
    have hne : (assignments a k (.blob s)).map Prod.fst ≠ [] := List.cons_ne_nil _ _
    have hfeed : feed .between (insertText a k (.blob s)) = _ :=
      feed_trans hinsert (feed_trans hvalues (feed_number 1 fun w => feed_trans (hfirst w)
        (feed_pasted ha fun s => feed_trans (hnext s) (feed_pasted hk fun s => feed_trans (hnext s)
          (feed_pasted hv fun s => feed_trans (hblob s) (feed_number _ hend))))))
    rw [tokens_of_feed hfeed rfl, Option.bind_some]
    exact compile_eq ((parse_insertTokens hne table
      [.word (decimal 1), .symbol 44, .string a, .symbol 44, .string k, .symbol 44,
        .string (valueStr (.blob s)), .symbol 44, .parameter 0, .symbol 44,
        .word (decimal s.length), .symbol 41, .symbol 59]).trans rfl)
      (wellFormed_assignments a k hlen)

end Compiled

end Repository
end Haggle
