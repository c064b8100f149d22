import Haggle.SqlText

/-!
# Printed insertions

A program prints an insertion as a fixed head and the values with commas between them. If the
strings among the values have no apostrophe, the statement that is compiled has these values.
-/

namespace Sql

section Print

def Operand.text : Operand → List UInt8
  | .string s => 39 :: (s ++ [39])
  | .numeral w => w
  | .negative w => 45 :: w
  | .parameter _ => [63]

def operandsText : List Operand → List UInt8
  | [] => []
  | [v] => v.text
  | v :: vs => v.text ++ 44 :: operandsText vs

/-- The tokens of a value, before the parameters are numbered. -/
def Operand.tokens : Operand → List Token
  | .string s => [.string s]
  | .numeral w => [.word w]
  | .negative w => [.symbol 45, .word w]
  | .parameter _ => [.symbol 63]

def operandsTokens : List Operand → List Token
  | [] => []
  | [v] => v.tokens
  | v :: vs => v.tokens ++ .symbol 44 :: operandsTokens vs

/-- A string without an apostrophe, a number with digits. -/
def Operand.printable : Operand → Bool
  | .string s => 39 ∉ s
  | .numeral w | .negative w => w ≠ [] && w.all isDigit
  | .parameter _ => true

/-- The parameters are numbered from `i` on. -/
def numbered : ℕ → List Operand → Bool
  | _, [] => true
  | i, .parameter j :: vs => i = j && numbered (i + 1) vs
  | i, _ :: vs => numbered i vs

theorem isWordByte_of_isDigit {b : UInt8} (hb : isDigit b = true) : isWordByte b = true := by
  simp only [isDigit, Bool.and_eq_true, decide_eq_true_eq] at hb
  simp [isWordByte, hb]

theorem feed_digits {w : List UInt8} (hne : w ≠ []) (hw : w.all isDigit = true) :
    feed .between w = ([], .inWord w.reverse) := by
  obtain ⟨b, l, rfl⟩ := List.exists_cons_of_ne_nil hne
  rw [List.all_cons, Bool.and_eq_true, List.all_eq_true] at hw
  rw [feed_between_word (isWordByte_of_isDigit hw.1) fun c hc => isWordByte_of_isDigit (hw.2 c hc),
    List.reverse_cons]

/-- A comma or a parenthesis behind a value. -/
theorem feed_operand {v : Operand} (hv : v.printable = true) {b : UInt8} (hb : b = 44 ∨ b = 41)
    (l : List UInt8) :
    feed .between (v.text ++ b :: l) =
      (v.tokens ++ .symbol b :: (feed .between l).1, (feed .between l).2) := by
  have hword : ∀ w l', feed (.inWord w) (b :: l') =
      (.word w.reverse :: .symbol b :: (feed .between l').1, (feed .between l').2) := by
    rcases hb with rfl | rfl <;> exact fun w l' => rfl
  have hbetween : ∀ l', feed .between (b :: l') =
      (.symbol b :: (feed .between l').1, (feed .between l').2) := by
    rcases hb with rfl | rfl <;> exact fun l' => rfl
  have hquote : ∀ s l', feed (.atQuote s) (b :: l') =
      (.string s.reverse :: .symbol b :: (feed .between l').1, (feed .between l').2) := by
    rcases hb with rfl | rfl <;> exact fun s l' => rfl
  cases v with
  | string s =>
    have hs : 39 ∉ s := by simpa [Operand.printable] using hv
    have hopen : feed .between [39] = ([], .inString []) := rfl
    have hclose : ∀ s, feed (.inString s) [39] = ([], .atQuote s) := fun s => rfl
    have htext : (Operand.string s).text = [39] ++ (s ++ [39]) := rfl
    simp only [htext, List.append_assoc, feed_append, hopen, feed_inString hs, hclose, hquote,
      List.nil_append, List.append_nil, List.reverse_reverse]
    rfl
  | numeral w =>
    have hw : w ≠ [] ∧ w.all isDigit = true := by simpa [Operand.printable] using hv
    rw [Operand.text, feed_append, feed_digits hw.1 hw.2, hword, List.reverse_reverse]
    rfl
  | negative w =>
    have hw : w ≠ [] ∧ w.all isDigit = true := by simpa [Operand.printable] using hv
    have hminus : ∀ l', feed .between (45 :: l') =
        (.symbol 45 :: (feed .between l').1, (feed .between l').2) := fun l' => rfl
    rw [Operand.text, List.cons_append, hminus, feed_append, feed_digits hw.1 hw.2, hword,
      List.reverse_reverse]
    rfl
  | parameter i =>
    have hparam : ∀ l', feed .between (63 :: l') =
        (.symbol 63 :: (feed .between l').1, (feed .between l').2) := fun l' => rfl
    rw [Operand.text, List.singleton_append, hparam, hbetween]
    rfl

theorem feed_operandsText {vs : List Operand} (hne : vs ≠ [])
    (hvs : ∀ v ∈ vs, v.printable = true) :
    feed .between (operandsText vs ++ [41, 59]) =
      (operandsTokens vs ++ [Token.symbol 41, Token.symbol 59], .between) := by
  induction vs with
  | nil => exact absurd rfl hne
  | cons v vs ih =>
    have hv := hvs v (by simp)
    cases vs with
    | nil =>
      rw [operandsText, feed_operand hv (Or.inr rfl)]
      rfl
    | cons u us =>
      have hrest := ih (by simp) fun w hw => hvs w (by simp [hw])
      have htext : operandsText (v :: u :: us) = v.text ++ 44 :: operandsText (u :: us) := rfl
      have htokens : operandsTokens (v :: u :: us) =
          v.tokens ++ .symbol 44 :: operandsTokens (u :: us) := rfl
      rw [htext, List.append_assoc, List.cons_append, feed_operand hv (Or.inl rfl), hrest, htokens,
        List.append_assoc]
      rfl

end Print

section Parse

/-- What the parser does behind `VALUES (`. -/
def parseValues (t : List UInt8) (cols : List (List UInt8)) (l : List Token) : Option Statement :=
  (parseOperands l.length l).bind fun r => if isEnd r.2 then some (.insert t cols r.1) else none

theorem number_operand {i : ℕ} {v : Operand} {vs : List Operand}
    (hv : numbered i (v :: vs) = true) (l : List Token) :
    ∃ j toks, number i (v.tokens ++ l) = toks ++ number j l ∧ numbered j vs = true ∧
      ∀ l', parseOperand (toks ++ l') = some (v, l') := by
  cases v with
  | string s => exact ⟨i, [.string s], rfl, hv, fun l' => rfl⟩
  | numeral w => exact ⟨i, [.word w], rfl, hv, fun l' => rfl⟩
  | negative w => exact ⟨i, [.symbol 45, .word w], rfl, hv, fun l' => rfl⟩
  | parameter j =>
    simp only [numbered, Bool.and_eq_true, decide_eq_true_eq] at hv
    obtain ⟨rfl, hv⟩ := hv
    exact ⟨i + 1, [.parameter i], rfl, hv, fun l' => rfl⟩

theorem parseOperands_number {vs : List Operand} (hne : vs ≠ []) {i n : ℕ}
    (hvs : numbered i vs = true) (hn : vs.length ≤ n) :
    parseOperands n (number i (operandsTokens vs ++ [Token.symbol 41, Token.symbol 59])) =
      some (vs, [.symbol 59]) := by
  induction vs generalizing i n with
  | nil => exact absurd rfl hne
  | cons v vs ih =>
    obtain ⟨n, rfl⟩ : ∃ k, n = k + 1 := ⟨n - 1, by simp at hn; omega⟩
    cases vs with
    | nil =>
      obtain ⟨j, toks, hnumber, -, hparse⟩ := number_operand hvs [.symbol 41, .symbol 59]
      have htokens : operandsTokens [v] = v.tokens := rfl
      rw [htokens, hnumber, parseOperands, hparse]
      rfl
    | cons u us =>
      have htokens : operandsTokens (v :: u :: us) ++ [Token.symbol 41, Token.symbol 59] =
          v.tokens ++
            .symbol 44 :: (operandsTokens (u :: us) ++ [Token.symbol 41, Token.symbol 59]) := by
        simp [operandsTokens]
      obtain ⟨j, toks, hnumber, hj, hparse⟩ := number_operand hvs
        (.symbol 44 :: (operandsTokens (u :: us) ++ [Token.symbol 41, Token.symbol 59]))
      have hcomma : ∀ l, number j (.symbol 44 :: l) = .symbol 44 :: number j l := fun l => rfl
      have hrest := @ih (by simp) j n hj (by simpa using hn)
      rw [htokens, hnumber, hcomma, parseOperands, hparse]
      simp [hrest]

theorem length_number (i : ℕ) (l : List Token) : (number i l).length = l.length := by
  induction l generalizing i with
  | nil => rfl
  | cons t l ih =>
    unfold number
    split <;> simp_all

theorem length_le_operandsTokens (vs : List Operand) : vs.length ≤ (operandsTokens vs).length := by
  induction vs with
  | nil => exact Nat.le_refl 0
  | cons v vs ih =>
    have hv : 1 ≤ v.tokens.length := by cases v <;> simp [Operand.tokens]
    cases vs with
    | nil => simpa [operandsTokens] using hv
    | cons u us =>
      have htokens : operandsTokens (v :: u :: us) =
          v.tokens ++ .symbol 44 :: operandsTokens (u :: us) := rfl
      have hcons : (Token.symbol 44 :: operandsTokens (u :: us)).length =
          (operandsTokens (u :: us)).length + 1 := rfl
      rw [htokens, List.length_append, List.length_cons, hcons]
      omega

def columnsTokens : List (List UInt8) → List Token
  | [] => []
  | [c] => [.word c, .symbol 41]
  | c :: cs => .word c :: .symbol 44 :: columnsTokens cs

/-- The tokens of an insertion up to its values. -/
def insertTokens (t : List UInt8) (cols : List (List UInt8)) : List Token :=
  .word (ascii "INSERT") :: .word (ascii "INTO") :: .word t :: .symbol 40 ::
    (columnsTokens cols ++ [.word (ascii "VALUES"), .symbol 40])

theorem parseColumns_columnsTokens {cols : List (List UInt8)} (hne : cols ≠ []) (l : List Token) :
    parseColumns (columnsTokens cols ++ l) = some (cols, l) := by
  induction cols with
  | nil => exact absurd rfl hne
  | cons c cs ih =>
    cases cs with
    | nil => rfl
    | cons c' cs =>
      have htokens : columnsTokens (c :: c' :: cs) ++ l =
          .word c :: .symbol 44 :: (columnsTokens (c' :: cs) ++ l) := rfl
      rw [htokens, parseColumns, ih (by simp)]
      rfl

theorem parse_insertTokens {cols : List (List UInt8)} (hne : cols ≠ []) (t : List UInt8)
    (l : List Token) : parse (insertTokens t cols ++ l) = parseValues t cols l := by
  have hcons : parse (insertTokens t cols ++ l) =
      parseInsert t
        ((columnsTokens cols ++ [Token.word (ascii "VALUES"), Token.symbol 40]) ++ l) := rfl
  rw [hcons, List.append_assoc, parseInsert, parseColumns_columnsTokens hne]
  rfl

theorem number_columnsTokens (i : ℕ) (cols : List (List UInt8)) (l : List Token) :
    number i (columnsTokens cols ++ l) = columnsTokens cols ++ number i l := by
  induction cols with
  | nil => rfl
  | cons c cs ih =>
    cases cs with
    | nil => rfl
    | cons c' cs =>
      have htokens : ∀ l, columnsTokens (c :: c' :: cs) ++ l =
          .word c :: .symbol 44 :: (columnsTokens (c' :: cs) ++ l) := fun l => rfl
      have hnumber : ∀ l, number i (.word c :: .symbol 44 :: l) =
          .word c :: .symbol 44 :: number i l := fun l => rfl
      rw [htokens, hnumber, ih, htokens]

theorem number_insertTokens (t : List UInt8) (cols : List (List UInt8)) (l : List Token) :
    number 0 (insertTokens t cols ++ l) = insertTokens t cols ++ number 0 l := by
  have hcons : number 0 (insertTokens t cols ++ l) = .word (ascii "INSERT") ::
      .word (ascii "INTO") :: .word t :: .symbol 40 ::
        number 0
          ((columnsTokens cols ++ [Token.word (ascii "VALUES"), Token.symbol 40]) ++ l) := rfl
  rw [hcons, List.append_assoc, number_columnsTokens]
  simp [insertTokens, number]

/-- A printed insertion is compiled into the insertion of its values. -/
theorem compile_printed {head t : List UInt8} {cols : List (List UInt8)} {vs : List Operand}
    (hhead : feed .between head = (insertTokens t cols, .between)) (hcols : cols ≠ [])
    (hne : vs ≠ []) (hprint : ∀ v ∈ vs, v.printable = true) (hwf : ∀ v ∈ vs, v.wellFormed = true)
    (hvs : numbered 0 vs = true) :
    (tokens (head ++ (operandsText vs ++ [41, 59]))).bind compile = some (.insert t cols vs) := by
  have htokens : tokens (head ++ (operandsText vs ++ [41, 59])) = some
      (insertTokens t cols ++
        number 0 (operandsTokens vs ++ [Token.symbol 41, Token.symbol 59])) := by
    simp only [tokens, feed_append, hhead, feed_operandsText hne hprint, finish, Option.map_some,
      List.append_nil, number_insertTokens]
  have hlength : vs.length ≤
      (number 0 (operandsTokens vs ++ [Token.symbol 41, Token.symbol 59])).length := by
    rw [length_number, List.length_append]
    exact Nat.le_trans (length_le_operandsTokens vs) (Nat.le_add_right _ _)
  rw [htokens, Option.bind_some]
  refine compile_eq ?_ (List.all_eq_true.mpr hwf)
  rw [parse_insertTokens hcols, parseValues, parseOperands_number hne hvs hlength]
  rfl

end Parse

end Sql
