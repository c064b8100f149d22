import Haggle.AssocList
import Mathlib.Algebra.Group.Nat.Defs
import Mathlib.Data.Int.Notation
import Mathlib.Data.List.Basic

/-!
# The text of SQL statements

A statement is a byte string. The scanner cuts it into words, strings and single symbols; a string
stands between apostrophes, and two apostrophes in it are one. Text that is pasted between two
apostrophes is a string of the statement as long as it has none itself. The statements here are
those on one table with conjunctions of comparisons.
-/

namespace Sql

def ascii (s : String) : List UInt8 := s.toByteArray.data.toList

theorem ascii_ofList (l : List Char) :
    ascii (no_index (String.ofList l)) = l.flatMap String.utf8EncodeChar :=
  List.toList_data_toByteArray

inductive Token
  | word (w : List UInt8)
  | string (s : List UInt8)
  | symbol (c : UInt8)
  | parameter (i : ℕ)
deriving DecidableEq

section Scanner

def isBlank (b : UInt8) : Bool := b.toNat = 32 || (9 ≤ b.toNat && b.toNat ≤ 13)

/-- Letters, digits, `_`, `$` and every byte of a character beyond ASCII. -/
def isWordByte (b : UInt8) : Bool :=
  (48 ≤ b.toNat && b.toNat ≤ 57) || (65 ≤ b.toNat && b.toNat ≤ 90) ||
    (97 ≤ b.toNat && b.toNat ≤ 122) || b.toNat = 95 || b.toNat = 36 || 128 ≤ b.toNat

/-- Where the scanner is, with the bytes of an open token, the last one first. At a quote in a
string, the next byte tells whether the string has ended. -/
inductive Scan
  | between
  | inWord (w : List UInt8)
  | inString (s : List UInt8)
  | atQuote (s : List UInt8)
deriving DecidableEq

/-- A byte behind a complete token. -/
def enter (b : UInt8) : List Token × Scan :=
  if isBlank b then ([], .between)
  else if b = 39 then ([], .inString [])
  else if isWordByte b then ([], .inWord [b])
  else ([.symbol b], .between)

def next : Scan → UInt8 → List Token × Scan
  | .between, b => enter b
  | .inWord w, b =>
    if isWordByte b then ([], .inWord (b :: w))
    else (.word w.reverse :: (enter b).1, (enter b).2)
  | .inString s, b => if b = 39 then ([], .atQuote s) else ([], .inString (b :: s))
  | .atQuote s, b =>
    if b = 39 then ([], .inString (39 :: s))
    else (.string s.reverse :: (enter b).1, (enter b).2)

def feed : Scan → List UInt8 → List Token × Scan
  | p, [] => ([], p)
  | p, b :: l => ((next p b).1 ++ (feed (next p b).2 l).1, (feed (next p b).2 l).2)

/-- The end of the text closes a token; an open string is an error. -/
def finish : Scan → Option (List Token)
  | .between => some []
  | .inWord w => some [.word w.reverse]
  | .inString _ => none
  | .atQuote s => some [.string s.reverse]

/-- The parameters, written `?`, are numbered in the order of the text. -/
def number : ℕ → List Token → List Token
  | _, [] => []
  | i, .symbol 63 :: l => .parameter i :: number (i + 1) l
  | i, t :: l => t :: number i l

def tokens (text : List UInt8) : Option (List Token) :=
  (finish (feed .between text).2).map fun l => number 0 ((feed .between text).1 ++ l)

theorem feed_append (p : Scan) (l l' : List UInt8) :
    feed p (l ++ l') = ((feed p l).1 ++ (feed (feed p l).2 l').1, (feed (feed p l).2 l').2) := by
  induction l generalizing p with
  | nil => rfl
  | cons b l ih => rw [List.cons_append, feed, ih, feed, List.append_assoc]

/-- Pasted text without an apostrophe stays inside the string. -/
theorem feed_inString {l : List UInt8} (hl : 39 ∉ l) (s : List UInt8) :
    feed (.inString s) l = ([], .inString (l.reverse ++ s)) := by
  induction l generalizing s with
  | nil => rfl
  | cons b l ih =>
    have hb : b ≠ 39 := fun h => hl (by simp [h])
    have hnext : next (.inString s) b = ([], .inString (b :: s)) := by rw [next, if_neg hb]
    rw [feed, hnext, ih (fun h => hl (by simp [h]))]
    simp

theorem feed_trans {p q r : Scan} {l l' : List UInt8} {t t' : List Token}
    (h : feed p l = (t, q)) (h' : feed q l' = (t', r)) : feed p (l ++ l') = (t ++ t', r) := by
  simp only [feed_append, h, h']

/-- Pasted text, and the text that ends the string. -/
theorem feed_pasted {l l' : List UInt8} {t : List Token} {q : Scan} (hl : 39 ∉ l)
    (h : ∀ s, feed (.inString s) l' = (.string s.reverse :: t, q)) :
    feed (.inString []) (l ++ l') = (.string l :: t, q) := by
  rw [feed_append, feed_inString hl, List.append_nil, h, List.reverse_reverse]
  rfl

theorem tokens_of_feed {text : List UInt8} {t l : List Token} {q : Scan}
    (h : feed .between text = (t, q)) (hq : finish q = some l) :
    tokens text = some (number 0 (t ++ l)) := by
  simp only [tokens, h, hq, Option.map_some]

theorem feed_inWord {l : List UInt8} (hl : ∀ b ∈ l, isWordByte b = true) (w : List UInt8) :
    feed (.inWord w) l = ([], .inWord (l.reverse ++ w)) := by
  induction l generalizing w with
  | nil => rfl
  | cons b l ih =>
    have hnext : next (.inWord w) b = ([], .inWord (b :: w)) := by
      rw [next, if_pos (hl b (by simp))]
    rw [feed, hnext, ih (fun b hb => hl b (by simp [hb]))]
    simp

theorem feed_between_word {b : UInt8} {l : List UInt8} (hb : isWordByte b = true)
    (hl : ∀ b ∈ l, isWordByte b = true) :
    feed .between (b :: l) = ([], .inWord (l.reverse ++ [b])) := by
  have hblank : isBlank b = false := by
    simp only [isWordByte, isBlank, Bool.or_eq_true, Bool.and_eq_true, decide_eq_true_eq,
      Bool.or_eq_false_iff, Bool.and_eq_false_iff, decide_eq_false_iff_not] at hb ⊢
    omega
  have hquote : b ≠ 39 := by
    rintro rfl
    simp [isWordByte] at hb
  have hnext : next .between b = ([], .inWord [b]) := by simp [next, enter, hblank, hquote, hb]
  rw [feed, hnext, feed_inWord hl]
  rfl

end Scanner

section Statements

inductive Value
  | null
  | int (i : ℤ)
  | text (s : List UInt8)
  | blob (s : List UInt8)
deriving DecidableEq

/-- What stands in a statement for a value: a string, a number with or without a minus sign, or a
parameter that is bound later. -/
inductive Operand
  | string (s : List UInt8)
  | numeral (w : List UInt8)
  | negative (w : List UInt8)
  | parameter (i : ℕ)
deriving DecidableEq

inductive Relation
  | equal
  | like
deriving DecidableEq

structure Comparison where
  column : List UInt8
  relation : Relation
  operand : Operand
deriving DecidableEq

inductive Statement
  | select (table : List UInt8) (cond : List Comparison)
  | delete (table : List UInt8) (cond : List Comparison)
  | update (table : List UInt8) (sets : List (List UInt8 × Operand)) (cond : List Comparison)
  | insert (table : List UInt8) (columns : List (List UInt8)) (values : List Operand)
deriving DecidableEq

def isDigit (b : UInt8) : Bool := 48 ≤ b.toNat && b.toNat ≤ 57

def value (w : List UInt8) : ℕ := w.foldl (fun n b => 10 * n + (b.toNat - 48)) 0

def parseOperand : List Token → Option (Operand × List Token)
  | .string s :: l => some (.string s, l)
  | .parameter i :: l => some (.parameter i, l)
  | .word w :: l => some (.numeral w, l)
  | .symbol 45 :: .word w :: l => some (.negative w, l)
  | _ => none

def parseComparison : List Token → Option (Comparison × List Token)
  | .word c :: .symbol 61 :: l => (parseOperand l).map fun r => (⟨c, .equal, r.1⟩, r.2)
  | .word c :: .word w :: l =>
    if w = ascii "LIKE" then (parseOperand l).map fun r => (⟨c, .like, r.1⟩, r.2) else none
  | _ => none

/-- At most `n` comparisons with `AND` between them. -/
def parseConjunction : ℕ → List Token → Option (List Comparison × List Token)
  | 0, _ => none
  | n + 1, l =>
    match parseComparison l with
    | none => none
    | some (c, .word w :: l) =>
      if w = ascii "AND" then (parseConjunction n l).map fun r => (c :: r.1, r.2)
      else some ([c], .word w :: l)
    | some (c, l) => some ([c], l)

/-- A condition may stand in parentheses. -/
def parseCondition (l : List Token) : Option (List Comparison × List Token) :=
  match l with
  | .symbol 40 :: l => do
    match ← parseConjunction l.length l with
    | (cs, .symbol 41 :: l) => return (cs, l)
    | _ => none
  | l => parseConjunction l.length l

def parseAssignments : ℕ → List Token → Option (List (List UInt8 × Operand) × List Token)
  | n + 1, .word c :: .symbol 61 :: l => do
    match ← parseOperand l with
    | (v, .symbol 44 :: l) => do
      let (as, l) ← parseAssignments n l
      return ((c, v) :: as, l)
    | (v, l) => return ([(c, v)], l)
  | _, _ => none

def parseColumns : List Token → Option (List (List UInt8) × List Token)
  | .word c :: .symbol 44 :: l => (parseColumns l).map fun r => (c :: r.1, r.2)
  | .word c :: .symbol 41 :: l => some ([c], l)
  | _ => none

def parseOperands : ℕ → List Token → Option (List Operand × List Token)
  | n + 1, l => do
    match ← parseOperand l with
    | (v, .symbol 44 :: l) => do
      let (vs, l) ← parseOperands n l
      return (v :: vs, l)
    | (v, .symbol 41 :: l) => return ([v], l)
    | _ => none
  | 0, _ => none

/-- Nothing, or a semicolon: what follows it is not compiled. -/
def isEnd : List Token → Bool
  | [] => true
  | t :: _ => t = .symbol 59

def parseWhere (l : List Token) : Option (List Comparison) :=
  match l with
  | .word w :: l =>
    if w = ascii "WHERE" then do
      let (cs, l) ← parseCondition l
      if isEnd l then some cs else none
    else none
  | _ => none

/-- `SET` and the condition of an update. -/
def parseUpdate (t : List UInt8) (l : List Token) : Option Statement := do
  let (as, l) ← parseAssignments l.length l
  let cs ← parseWhere l
  return .update t as cs

/-- The columns and the values of an insertion. -/
def parseInsert (t : List UInt8) (l : List Token) : Option Statement := do
  match ← parseColumns l with
  | (cols, .word v :: .symbol 40 :: l) =>
    if v = ascii "VALUES" then do
      let (vals, l) ← parseOperands l.length l
      if isEnd l then some (.insert t cols vals) else none
    else none
  | _ => none

def parse : List Token → Option Statement
  | .word a :: .symbol 42 :: .word b :: .word t :: l =>
    if a = ascii "SELECT" ∧ b = ascii "FROM" then (parseWhere l).map (.select t) else none
  | .word a :: .word b :: .word t :: l =>
    if a = ascii "DELETE" ∧ b = ascii "FROM" then (parseWhere l).map (.delete t)
    else if a = ascii "UPDATE" ∧ t = ascii "SET" then parseUpdate b l
    else if a = ascii "INSERT" ∧ b = ascii "INTO" then
      match l with
      | .symbol 40 :: l => parseInsert t l
      | _ => none
    else none
  | _ => none

theorem parse_select (t : List UInt8) (l : List Token) :
    parse (.word (ascii "SELECT") :: .symbol 42 :: .word (ascii "FROM") :: .word t :: l) =
      (parseWhere l).map (.select t) := by
  rw [parse]
  exact if_pos ⟨rfl, rfl⟩

theorem parse_delete (t w : List UInt8) (l : List Token) :
    parse (.word (ascii "DELETE") :: .word (ascii "FROM") :: .word t :: .word w :: l) =
      (parseWhere (.word w :: l)).map (.delete t) := by
  rw [parse]
  · exact if_pos ⟨rfl, rfl⟩
  · rintro l' ⟨⟩

theorem parse_update (t w : List UInt8) (l : List Token) :
    parse (.word (ascii "UPDATE") :: .word t :: .word (ascii "SET") :: .word w :: l) =
      parseUpdate t (.word w :: l) := by
  have hne : ascii "UPDATE" ≠ ascii "DELETE" := by
    simp only [ascii_ofList]
    decide
  rw [parse, if_neg (fun h => hne h.1)]
  · exact if_pos ⟨rfl, rfl⟩
  · rintro l' ⟨⟩

theorem parseUpdate_eq {t : List UInt8} {l l' : List Token} {as : List (List UInt8 × Operand)}
    {cs : List Comparison} (h : parseAssignments l.length l = some (as, l'))
    (h' : parseWhere l' = some cs) : parseUpdate t l = some (.update t as cs) := by
  rw [parseUpdate, h]
  simp [h']

theorem parseWhere_word (l : List Token) : parseWhere (.word (ascii "WHERE") :: l) =
    (parseCondition l).bind fun r => if isEnd r.2 then some r.1 else none := by
  rw [parseWhere, if_pos rfl]
  rfl

theorem parseConjunction_and {c : Comparison} {l l' : List Token}
    (h : parseComparison l = some (c, .word (ascii "AND") :: l')) (n : ℕ) :
    parseConjunction (n + 1) l = (parseConjunction n l').map fun r => (c :: r.1, r.2) := by
  rw [parseConjunction, h]
  exact if_pos rfl

theorem parseConjunction_last {c : Comparison} {x : UInt8} {l l' : List Token}
    (h : parseComparison l = some (c, .symbol x :: l')) (n : ℕ) :
    parseConjunction (n + 1) l = some ([c], .symbol x :: l') := by
  rw [parseConjunction, h]

/-- A word among the values is an integer of 64 bits. -/
def Operand.wellFormed : Operand → Bool
  | .numeral w | .negative w => w.all isDigit && value w < 2 ^ 63
  | _ => true

def Statement.operands : Statement → List Operand
  | .select _ cs | .delete _ cs => cs.map Comparison.operand
  | .update _ as cs => as.map Prod.snd ++ cs.map Comparison.operand
  | .insert _ _ vals => vals

def compile (toks : List Token) : Option Statement :=
  (parse toks).filter fun s => s.operands.all Operand.wellFormed

theorem compile_eq {toks : List Token} {s : Statement} (hparse : parse toks = some s)
    (hs : s.operands.all Operand.wellFormed = true) : compile toks = some s := by
  rw [compile, hparse, Option.filter_some, if_pos hs]

end Statements

section Tables

/-- What a lead byte of UTF-8 contributes to its character. -/
def leadValue (b : UInt8) : ℕ :=
  if b.toNat < 224 then b.toNat % 32 else if b.toNat < 240 then b.toNat % 16
  else if b.toNat < 248 then b.toNat % 8 else if b.toNat < 252 then b.toNat % 4
  else if b.toNat < 254 then b.toNat % 2 else 0

/-- A value that no character has stands for U+FFFD. -/
def character (c : ℕ) : ℕ := if c < 128 ∨ c / 2 ^ 11 = 27 ∨ c / 2 = 32767 then 65533 else c

/-- The characters of a string, with the value of one that continuation bytes may still follow. -/
def codesFrom : Option ℕ → List UInt8 → List ℕ
  | c, [] => (c.map character).toList
  | c, b :: l =>
    if c.isSome ∧ b.toNat / 64 = 2 then
      codesFrom (c.map fun c => (64 * c + b.toNat % 64) % 2 ^ 32) l
    else (c.map character).toList ++
      if b.toNat < 192 then b.toNat :: codesFrom none l else codesFrom (some (leadValue b)) l

def codes (s : List UInt8) : List ℕ := codesFrom none s

/-- A capital letter of ASCII and its small one are the same. -/
def foldCase (c : ℕ) : ℕ := if 65 ≤ c ∧ c ≤ 90 then c + 32 else c

/-- `LIKE` without an escape character: `%` stands for any characters and `_` for one. -/
def likeCodes : List ℕ → List ℕ → Bool
  | [], s => s.isEmpty
  | c :: p, s =>
    if c = 37 then s.tails.any (likeCodes p)
    else match s with
      | [] => false
      | d :: s => (c = 95 || foldCase c = foldCase d) && likeCodes p s

def like (pattern s : List UInt8) : Bool := likeCodes (codes pattern) (codes s)

/-- Equality as in a condition: nothing equals `NULL`, and a text that spells a number equals it. -/
def Value.same : Value → Value → Bool
  | .null, _ | _, .null => false
  | .int i, .text s | .text s, .int i => s ≠ [] && s.all isDigit && i = value s
  | v, w => v = w

def Value.isLike : Value → Value → Bool
  | .text s, .text p => like p s
  | _, _ => false

abbrev Row := List (List UInt8 × Value)

/-- A table numbers its rows in the column `rowid`. -/
structure Table where
  name : List UInt8
  columns : List (List UInt8)
  rows : List Row
  rowid : ℕ
deriving DecidableEq

def Row.value (r : Row) (c : List UInt8) : Value := (AssocList.get r c).getD .null

/-- A parameter that is not bound is `NULL`. -/
def Operand.eval (bound : List Value) : Operand → Value
  | .string s => .text s
  | .numeral w => .int (value w)
  | .negative w => .int (-value w)
  | .parameter i => bound.getD i .null

def Comparison.holds (bound : List Value) (c : Comparison) (r : Row) : Bool :=
  match c.relation with
  | .equal => (Row.value r c.column).same (c.operand.eval bound)
  | .like => (Row.value r c.column).isLike (c.operand.eval bound)

def holdsAll (bound : List Value) (cs : List Comparison) (r : Row) : Bool :=
  cs.all fun c => c.holds bound r

def assign (bound : List Value) (sets : List (List UInt8 × Operand)) (r : Row) : Row :=
  sets.foldl (fun r s => AssocList.set s.1 (s.2.eval bound) r) r

def newRow (bound : List Value) (t : Table) (cols : List (List UInt8)) (vals : List Operand) : Row :=
  (ascii "rowid", .int t.rowid) :: cols.zip (vals.map (Operand.eval bound))

/-- Whether a statement names the table and columns of it. -/
def Statement.resolves (t : Table) : Statement → Bool
  | .select n cs | .delete n cs => n = t.name && cs.all (·.column ∈ t.columns)
  | .update n as cs => n = t.name && as.all (·.1 ∈ t.columns) && cs.all (·.column ∈ t.columns)
  | .insert n cols vals => n = t.name && cols.all (· ∈ t.columns) && cols.length = vals.length

/-- The rows that a statement returns, and the table after it. -/
def Statement.execute (bound : List Value) (t : Table) : Statement → List Row × Table
  | .select _ cs => (t.rows.filter (holdsAll bound cs), t)
  | .delete _ cs => ([], { t with rows := t.rows.filter fun r => !holdsAll bound cs r })
  | .update _ as cs =>
    ([], { t with
      rows := t.rows.map fun r => if holdsAll bound cs r then assign bound as r else r })
  | .insert _ cols vals =>
    ([], { t with rows := t.rows ++ [newRow bound t cols vals], rowid := t.rowid + 1 })

/-- A name in small letters that is no other name of the column `rowid`. -/
def isPlainName (c : List UInt8) : Bool :=
  c.all (fun b => (97 ≤ b.toNat && b.toNat ≤ 122) || b.toNat = 95) &&
    c ∉ [ascii "oid", ascii "_rowid_"]

def Statement.names : Statement → List (List UInt8)
  | .select n cs | .delete n cs => n :: cs.map Comparison.column
  | .update n as cs => n :: (as.map Prod.fst ++ cs.map Comparison.column)
  | .insert n cols _ => n :: cols

/-- `sqlite3_prepare_v2` and the steps of a statement: no result if it names what the table does not
have. Text that is not of the statements here has the effect `beyond`. -/
def run (beyond : List UInt8 → List Value → Table → Option (List Row × Table)) (text : List UInt8)
    (bound : List Value) (t : Table) : Option (List Row × Table) :=
  match (tokens text).bind compile with
  | none => beyond text bound t
  | some s =>
    if s.resolves t then some (s.execute bound t)
    else if s.names.all isPlainName then none
    else beyond text bound t

theorem run_eq {text : List UInt8} {s : Statement} {t : Table}
    (hs : (tokens text).bind compile = some s) (ht : s.resolves t = true)
    (beyond : List UInt8 → List Value → Table → Option (List Row × Table)) (bound : List Value) :
    run beyond text bound t = some (s.execute bound t) := by
  simp [run, hs, ht]

end Tables

end Sql
