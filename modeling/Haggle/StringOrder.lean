import Haggle.StringBuffer

/-!
# The order of strings

All comparisons of strings go through one function that has cases for empty strings and otherwise
compares with `strncmp`, for as many characters as the longer string has. Where a C string stands on
the left, `strcmp` is called instead.
-/

namespace Haggle
namespace StringBuffer

section Model

/-- `_compare`. The second test for an empty first string is in the source. -/
def compareAt (str1 : Option Bytes) (len1 pos1 n1 : ℕ) (str2 : Option Bytes) (len2 pos2 n2 : ℕ) :
    Option Ordering :=
  match str1, str2 with
  | none, _ => some .lt
  | some _, none => some .gt
  | some s1, some s2 =>
    if len1 = 0 ∧ len2 = 0 then some .eq
    else if len1 = 0 then some .lt
    else if len1 = 0 then some .gt
    else if n1 = 0 ∨ pos1 > size (len1 + npos) ∨ pos2 > size (len2 + npos) then some .lt
    else strncmp (if n1 > n2 then n1 else n2) (s1.drop pos1) (s2.drop pos2)

/-- `compare(const String&)`. -/
def compare (t str : StringBuffer) : Option Ordering :=
  compareAt (some t.s) t.slen 0 t.slen (some str.s) str.slen 0 str.slen

/-- `compare(const char *)`; the length of a null pointer is undefined. -/
def compareChars (t : StringBuffer) (s : Option Bytes) : Option Ordering := do
  let m ← s
  let n ← strlen m
  compareAt (some t.s) t.slen 0 t.slen (some m) n 0 n

/-- The operands for which the operators are overloaded. -/
inductive Operands
  | strings (lhs rhs : StringBuffer)
  | charsLeft (lhs : Option Bytes) (rhs : StringBuffer)
  | charsRight (lhs : StringBuffer) (rhs : Option Bytes)

/-- The call that every operator makes with its operands. -/
def Operands.compare : Operands → Option Ordering
  | strings lhs rhs => lhs.compare rhs
  | charsLeft lhs rhs => lhs.bind fun m => strcmp m rhs.s
  | charsRight lhs rhs => lhs.compareChars rhs

/-- `operator==`. -/
def eq (x : Operands) : Option Bool := x.compare.map fun r => decide (r = .eq)

/-- `operator!=`. -/
def ne (x : Operands) : Option Bool := x.compare.map fun r => decide (r ≠ .eq)

/-- `operator<`. -/
def lt (x : Operands) : Option Bool := x.compare.map fun r => decide (r = .lt)

/-- `operator>`. -/
def gt (x : Operands) : Option Bool := x.compare.map fun r => decide (r = .gt)

/-- `operator<=`. -/
def le (x : Operands) : Option Bool := x.compare.map fun r => decide (r ≠ .gt)

/-- `operator>=`. -/
def ge (x : Operands) : Option Bool := x.compare.map fun r => decide (r ≠ .lt)

end Model

section Comparison

variable {t u v : StringBuffer} {b c d m rest : Bytes} {x : Operands}

/-- Two whole texts are compared like sequences of bytes, whatever lies behind them. -/
theorem compareAt_text (hb : 0 ∉ b) (hc : 0 ∉ c) (hlen : b.length < 2 ^ 64)
    (rest rest' : Bytes) :
    compareAt (some (b ++ 0 :: rest)) b.length 0 b.length (some (c ++ 0 :: rest')) c.length 0
      c.length = some (lexCompare b c) := by
  rw [compareAt]
  cases b with
  | nil => cases c <;> simp [lexCompare]
  | cons a b =>
    have hne : (a :: b).length ≠ 0 := by simp
    have hnot : ¬ ((a :: b).length = 0 ∨ 0 > size ((a :: b).length + npos) ∨
        0 > size (c.length + npos)) := by simp
    rw [if_neg (fun h => hne h.1), if_neg hne, if_neg hne, if_neg hnot, List.drop_zero,
      List.drop_zero, strncmp_text hb hc]
    split_ifs with hlong
    · rw [List.take_length, List.take_of_length_le (by omega)]
    · rw [List.take_length, List.take_of_length_le (by omega)]

/-- A C string with its characters. -/
def IsText (s : Option Bytes) (b : Bytes) : Prop := 0 ∉ b ∧ ∃ rest, s = some (b ++ 0 :: rest)

/-- The characters of the two operands; strings satisfy the representation invariant. -/
def Operands.Hold : Operands → Bytes → Bytes → Prop
  | strings lhs rhs, b, c => lhs.Represents b ∧ rhs.Represents c
  | charsLeft lhs rhs, b, c => IsText lhs b ∧ rhs.Represents c
  | charsRight lhs rhs, b, c => lhs.Represents b ∧ IsText rhs c

example : Operands.Hold (.charsRight shared (some [65, 0, 66])) [] [65] :=
  ⟨represents_shared, by decide, [66], rfl⟩

theorem compare_eq (ht : t.Represents b) (hu : u.Represents c) :
    t.compare u = some (lexCompare b c) := by
  obtain ⟨rest, hrest⟩ := ht.chars
  obtain ⟨rest', hrest'⟩ := hu.chars
  rw [compare, ht.slen, hu.slen, hrest, hrest']
  exact compareAt_text ht.noNul hu.noNul (by have := ht.length_lt; omega) rest rest'

theorem compareChars_eq {s : Option Bytes} (ht : t.Represents b) (hs : IsText s c) :
    t.compareChars s = some (lexCompare b c) := by
  obtain ⟨rest, hrest⟩ := ht.chars
  obtain ⟨hc, rest', rfl⟩ := hs
  have hstep : t.compareChars (some (c ++ 0 :: rest')) =
      compareAt (some t.s) t.slen 0 t.slen (some (c ++ 0 :: rest')) c.length 0 c.length := by
    rw [compareChars, Option.bind_eq_bind, Option.bind_some, strlen_text hc]
    rfl
  rw [hstep, ht.slen, hrest]
  exact compareAt_text ht.noNul hc (by have := ht.length_lt; omega) rest rest'

theorem Operands.Hold.compare (h : x.Hold b c) : x.compare = some (lexCompare b c) := by
  cases x with
  | strings lhs rhs => exact compare_eq h.1 h.2
  | charsLeft lhs rhs =>
    obtain ⟨⟨hb, rest, rfl⟩, hc⟩ := h
    obtain ⟨rest', hrest'⟩ := hc.chars
    rw [Operands.compare, Option.bind_some, hrest']
    exact strcmp_text hb hc.noNul
  | charsRight lhs rhs => exact compareChars_eq h.1 h.2

/-- What is expected of the operators: each overload answers for the characters of its operands,
`==` as they are the same, and `<` as a strict total order with the empty string below all others.
-/
structure IsOrdered : Prop where
  eq : ∀ x b c, x.Hold b c → eq x = some (decide (b = c))
  ne : ∀ x b c, x.Hold b c → ne x = some (decide (b ≠ c))
  lt : ∀ x b c, x.Hold b c → lt x = some (decide (b < c))
  gt : ∀ x b c, x.Hold b c → gt x = some (decide (c < b))
  le : ∀ x b c, x.Hold b c → le x = some (decide (b < c ∨ b = c))
  ge : ∀ x b c, x.Hold b c → ge x = some (decide (c < b ∨ b = c))
  irrefl : ∀ t b, t.Represents b → StringBuffer.lt (.strings t t) = some false
  trans : ∀ t u v b c d, t.Represents b → u.Represents c → v.Represents d →
    StringBuffer.lt (.strings t u) = some true → StringBuffer.lt (.strings u v) = some true →
      StringBuffer.lt (.strings t v) = some true
  total : ∀ t u b c, t.Represents b → u.Represents c →
    StringBuffer.lt (.strings t u) = some true ∨ StringBuffer.eq (.strings t u) = some true ∨
      StringBuffer.lt (.strings u t) = some true
  least : ∀ t u c, t.Represents [] → u.Represents c → c ≠ [] →
    StringBuffer.lt (.strings t u) = some true

theorem lt_strings (ht : t.Represents b) (hu : u.Represents c) :
    lt (.strings t u) = some (decide (b < c)) := by
  rw [lt, Operands.Hold.compare (x := .strings t u) ⟨ht, hu⟩]
  simp

/-- The operators on strings that satisfy the representation invariant. -/
theorem isOrdered : IsOrdered where
  eq x b c h := by
    rw [StringBuffer.eq, h.compare]
    simp
  ne x b c h := by
    rw [StringBuffer.ne, h.compare]
    simp
  lt x b c h := by
    rw [StringBuffer.lt, h.compare]
    simp
  gt x b c h := by
    rw [StringBuffer.gt, h.compare]
    simp
  le x b c h := by
    have hcases : lexCompare b c ≠ .gt ↔ b < c ∨ b = c := by
      rw [← lexCompare_eq_lt, ← lexCompare_eq_eq]
      cases lexCompare b c <;> simp
    rw [StringBuffer.le, h.compare, Option.map_some, Option.some.injEq, decide_eq_decide, hcases]
  ge x b c h := by
    have hcases : lexCompare b c ≠ .lt ↔ c < b ∨ b = c := by
      rw [← lexCompare_eq_gt, ← lexCompare_eq_eq]
      cases lexCompare b c <;> simp
    rw [StringBuffer.ge, h.compare, Option.map_some, Option.some.injEq, decide_eq_decide, hcases]
  irrefl t b h := by
    rw [lt_strings h h, decide_eq_false (List.lt_irrefl b)]
  trans t u v b c d ht hu hv htu huv := by
    rw [lt_strings ht hu, Option.some.injEq, decide_eq_true_eq] at htu
    rw [lt_strings hu hv, Option.some.injEq, decide_eq_true_eq] at huv
    rw [lt_strings ht hv, decide_eq_true (List.lt_trans htu huv)]
  total t u b c ht hu := by
    rw [lt_strings ht hu, lt_strings hu ht, StringBuffer.eq,
      Operands.Hold.compare (x := .strings t u) ⟨ht, hu⟩]
    simp only [Option.map_some, Option.some.injEq, decide_eq_true_eq, lexCompare_eq_eq]
    by_cases hlt : b < c
    · exact .inl hlt
    · by_cases hgt : c < b
      · exact .inr (.inr hgt)
      · exact .inr (.inl (Std.Trichotomous.trichotomous (r := (· < ·)) b c hlt hgt))
  least t u c ht hu hc := by
    cases c with
    | nil => exact absurd rfl hc
    | cons a c => rw [lt_strings ht hu, decide_eq_true (List.nil_lt_cons a c)]

end Comparison

end StringBuffer
end Haggle
