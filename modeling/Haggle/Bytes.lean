import Mathlib.Data.Nat.Digits.Lemmas
import Mathlib.Data.List.TakeDrop

/-!
# Byte strings and the C number formats

The wire, the buffers and the C++ `string` values of the kernel are all byte strings here. The
conversions are those of `printf("%lu")` and `strtoul(_, NULL, 10)` on a platform with a 64-bit
`unsigned long`.
-/

namespace Haggle

abbrev Bytes := List UInt8

/-- The bytes of an ASCII literal of the source. -/
def lit (s : String) : Bytes := s.toByteArray.data.toList

def digitByte (d : ℕ) : UInt8 := (48 + d).toUInt8

def isDigit (b : UInt8) : Bool := 48 ≤ b.toNat && b.toNat ≤ 57

/-- `isspace` in the C locale. -/
def isSpace (b : UInt8) : Bool := b.toNat = 32 || (9 ≤ b.toNat && b.toNat ≤ 13)

/-- `%lu`. -/
def decimal (n : ℕ) : Bytes :=
  if n = 0 then [digitByte 0] else (Nat.digits 10 n).reverse.map digitByte

def digitsValue (s : Bytes) : ℕ := s.foldl (fun v b => 10 * v + (b.toNat - 48)) 0

def ulongMax : ℕ := 2 ^ 64 - 1

/-- `strtoul(s, NULL, 10)`: leading blanks, an optional sign, then the longest run of digits. An
overflowing value saturates and a negative one wraps around. -/
def strtoul (s : Bytes) : ℕ :=
  let t := s.dropWhile isSpace
  let neg := t.head? = some 45
  let u := if t.head? = some 45 ∨ t.head? = some 43 then t.tail else t
  let v := digitsValue (u.takeWhile isDigit)
  if ulongMax < v then ulongMax else if neg ∧ v ≠ 0 then 2 ^ 64 - v else v

theorem lit_ofList (l : List Char) :
    lit (no_index (String.ofList l)) = l.flatMap String.utf8EncodeChar :=
  List.toList_data_toByteArray

theorem isDigit_digitByte {d : ℕ} (hd : d < 10) : isDigit (digitByte d) = true := by
  interval_cases d <;> rfl

theorem digitByte_toNat {d : ℕ} (hd : d < 10) : (digitByte d).toNat = 48 + d := by
  interval_cases d <;> rfl

theorem isSpace_of_isDigit {b : UInt8} (hb : isDigit b = true) : isSpace b = false := by
  simp only [isDigit, Bool.and_eq_true, decide_eq_true_eq] at hb
  simp only [isSpace, Bool.or_eq_false_iff, Bool.and_eq_false_iff, decide_eq_false_iff_not]
  omega

theorem decimal_ne_nil (n : ℕ) : decimal n ≠ [] := by
  unfold decimal
  split_ifs with hn
  · simp
  · simp [Nat.digits_ne_nil_iff_ne_zero.mpr hn]

theorem isDigit_of_mem_decimal {n : ℕ} {b : UInt8} (hb : b ∈ decimal n) : isDigit b = true := by
  unfold decimal at hb
  split_ifs at hb with hn
  · simp only [List.mem_singleton] at hb
    subst hb
    rfl
  · obtain ⟨d, hd, rfl⟩ := List.mem_map.mp hb
    exact isDigit_digitByte (Nat.digits_lt_base (by norm_num) (List.mem_reverse.mp hd))

theorem length_decimal_le {n k : ℕ} (hk : 0 < k) (hn : n < 10 ^ k) : (decimal n).length ≤ k := by
  unfold decimal
  split_ifs with h0
  · exact hk
  · simpa using (Nat.digits_length_le_iff (by norm_num) n).mpr hn

theorem digitsValue_append_one (s : Bytes) (b : UInt8) :
    digitsValue (s ++ [b]) = 10 * digitsValue s + (b.toNat - 48) := by
  simp [digitsValue]

theorem digitsValue_reverse_map (l : List ℕ) (hl : ∀ d ∈ l, d < 10) :
    digitsValue (l.reverse.map digitByte) = Nat.ofDigits 10 l := by
  induction l with
  | nil => rfl
  | cons d l ih =>
    have hd : d < 10 := hl d (by simp)
    rw [List.reverse_cons, List.map_append, List.map_singleton, digitsValue_append_one,
      ih (fun e he => hl e (by simp [he])), digitByte_toNat hd, Nat.ofDigits_cons]
    omega

theorem digitsValue_decimal (n : ℕ) : digitsValue (decimal n) = n := by
  unfold decimal
  split_ifs with hn
  · subst hn
    rfl
  · rw [digitsValue_reverse_map _ (fun d hd => Nat.digits_lt_base (by norm_num) hd),
      Nat.ofDigits_digits]

theorem takeWhile_isDigit_append {s t : Bytes} (hs : ∀ b ∈ s, isDigit b = true)
    (ht : ∀ b, t.head? = some b → isDigit b = false) :
    (s ++ t).takeWhile isDigit = s := by
  rw [List.takeWhile_append_of_pos hs]
  cases t with
  | nil => simp
  | cons b t => simp [ht b rfl]

theorem head_of_digits {s : Bytes} (hne : s ≠ []) (hs : ∀ b ∈ s, isDigit b = true) (t : Bytes) :
    (s ++ t).dropWhile isSpace = s ++ t ∧ (s ++ t).head? ≠ some 45 ∧ (s ++ t).head? ≠ some 43 := by
  obtain ⟨b, s, rfl⟩ := List.exists_cons_of_ne_nil hne
  have hb : isDigit b = true := hs b (by simp)
  refine ⟨by simp [isSpace_of_isDigit hb], ?_, ?_⟩ <;>
  · simp only [List.cons_append, List.head?_cons, ne_eq, Option.some.injEq]
    rintro rfl
    simp [isDigit] at hb

theorem strtoul_decimal {n : ℕ} (hn : n ≤ ulongMax) : strtoul (decimal n) = n := by
  have hdig : ∀ b ∈ decimal n, isDigit b = true := fun b hb => isDigit_of_mem_decimal hb
  obtain ⟨hsp, hneg, hpos⟩ := head_of_digits (decimal_ne_nil n) hdig []
  rw [List.append_nil] at hsp hneg hpos
  have htake : (decimal n).takeWhile isDigit = decimal n := by
    simpa using takeWhile_isDigit_append (t := []) hdig (by simp)
  simp only [strtoul, hsp, hneg, hpos, or_self, if_false, htake, digitsValue_decimal, false_and]
  exact if_neg (by omega)

example : strtoul (lit "  -7x") = 2 ^ 64 - 7 := by decide

end Haggle
