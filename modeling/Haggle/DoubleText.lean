import Haggle.Timeval
import Mathlib.Data.Rat.Floor
import Mathlib.Tactic.FieldSimp
import Mathlib.Tactic.Linarith
import Mathlib.Tactic.NormNum

/-!
# Floating point numbers as text

Numbers are rational here, so that nothing is lost but what the text leaves out: `%lf` prints six
decimals. What is read may be in another form: a decimal number with an exponent, or a hexadecimal
one. The words for infinity and for what is not a number do not stand for a rational and are not
read.
-/

namespace Haggle
namespace DoubleText

/-- To the nearest number, and to an even one halfway. -/
def roundHalfEven (x : ℚ) : ℤ :=
  let n := ⌊x⌋
  if x - n < 1 / 2 then n else if 1 / 2 < x - n then n + 1 else if n % 2 = 0 then n else n + 1

/-- The value that six decimals give, in millionths. -/
def sixDecimals (q : ℚ) : ℤ :=
  if q < 0 then -roundHalfEven (-q * 1000000) else roundHalfEven (q * 1000000)

/-- `%lf`. -/
def print (q : ℚ) : Bytes :=
  let n := (sixDecimals q).natAbs
  (if q < 0 then [45] else []) ++ (decimal (n / 1000000) ++ 46 :: Timeval.padded (n % 1000000))

section Read

/-- The number behind the letter of an exponent; without digits there is none. -/
def scanExponent (lower upper : UInt8) (s : Bytes) : ℤ :=
  if s.head? = some lower ∨ s.head? = some upper then
    let t := s.tail
    let u := if t.head? = some 45 ∨ t.head? = some 43 then t.tail else t
    let v : ℤ := digitsValue (u.takeWhile isDigit)
    if t.head? = some 45 then -v else v
  else 0

/-- Digits with a point among them: those before it, those behind it, and the rest. -/
def scanDigits (digit : UInt8 → Bool) (s : Bytes) : Bytes × Bytes × Bytes :=
  let whole := s.takeWhile digit
  let rest := s.drop whole.length
  if rest.head? = some 46 then
    let fraction := rest.tail.takeWhile digit
    (whole, fraction, rest.tail.drop fraction.length)
  else (whole, [], rest)

def scanDecimal (s : Bytes) : Option ℚ :=
  let (whole, fraction, rest) := scanDigits isDigit s
  if whole = [] ∧ fraction = [] then none
  else some ((digitsValue whole + digitsValue fraction / 10 ^ fraction.length) *
    10 ^ scanExponent 101 69 rest)

def isHexDigit (b : UInt8) : Bool :=
  isDigit b || (97 ≤ b.toNat && b.toNat ≤ 102) || (65 ≤ b.toNat && b.toNat ≤ 70)

def hexDigitsValue (s : Bytes) : ℕ :=
  s.foldl (fun v b => 16 * v + if isDigit b then b.toNat - 48 else (b.toNat - 55) % 32) 0

def scanHex (s : Bytes) : Option ℚ :=
  let (whole, fraction, rest) := scanDigits isHexDigit s
  if whole = [] ∧ fraction = [] then none
  else some ((hexDigitsValue whole + hexDigitsValue fraction / 16 ^ fraction.length) *
    2 ^ scanExponent 112 80 rest)

def scanUnsigned (s : Bytes) : Option ℚ :=
  match s with
  | 48 :: x :: t => if x = 120 ∨ x = 88 then (scanHex t).orElse fun _ => some 0 else scanDecimal s
  | _ => scanDecimal s

/-- `strtod`, and `%lf` of `sscanf`: nothing where no number is found. -/
def scan (s : Bytes) : Option ℚ :=
  let t := s.dropWhile isSpace
  let u := if t.head? = some 45 ∨ t.head? = some 43 then t.tail else t
  (scanUnsigned u).map fun q => if t.head? = some 45 then -q else q

end Read

section RoundTrip

theorem abs_roundHalfEven_sub_le (x : ℚ) : |(roundHalfEven x : ℚ) - x| ≤ 1 / 2 := by
  have hle := Int.floor_le x
  have hlt := Int.lt_floor_add_one x
  unfold roundHalfEven
  simp only
  split_ifs with hlow hhigh heven
  · rw [abs_le]
    constructor <;> linarith
  · rw [abs_le, Int.cast_add, Int.cast_one]
    constructor <;> linarith
  · rw [abs_le]
    constructor <;> linarith
  · rw [abs_le, Int.cast_add, Int.cast_one]
    constructor <;> linarith

theorem roundHalfEven_nonneg {x : ℚ} (hx : 0 ≤ x) : 0 ≤ roundHalfEven x := by
  have hfloor : 0 ≤ ⌊x⌋ := Int.floor_nonneg.mpr hx
  unfold roundHalfEven
  simp only
  split_ifs <;> omega

theorem abs_sixDecimals_sub_le (q : ℚ) : |(sixDecimals q : ℚ) / 1000000 - q| ≤ 1 / 2000000 := by
  unfold sixDecimals
  split_ifs with hq
  · have h := abs_le.mp (abs_roundHalfEven_sub_le (-q * 1000000))
    rw [abs_le, Int.cast_neg]
    constructor <;> linarith
  · have h := abs_le.mp (abs_roundHalfEven_sub_le (q * 1000000))
    rw [abs_le]
    constructor <;> linarith

@[simp] theorem sixDecimals_zero : sixDecimals 0 = 0 := by
  unfold sixDecimals
  rw [if_neg (lt_irrefl _), zero_mul]
  decide +kernel

theorem sixDecimals_eq (q : ℚ) :
    (sixDecimals q : ℚ) = (if q < 0 then -1 else 1) * ((sixDecimals q).natAbs : ℚ) := by
  have hcast : ((sixDecimals q).natAbs : ℚ) = |(sixDecimals q : ℚ)| := by
    rw [← Int.cast_abs, Int.abs_eq_natAbs, Int.cast_natCast]
  rw [hcast]
  split_ifs with hq
  · have hnonpos : sixDecimals q ≤ 0 := by
      unfold sixDecimals
      rw [if_pos hq]
      have := @roundHalfEven_nonneg (-q * 1000000) (by linarith)
      omega
    rw [abs_of_nonpos (by exact_mod_cast hnonpos)]
    ring
  · have hnonneg : 0 ≤ sixDecimals q := by
      unfold sixDecimals
      rw [if_neg hq]
      exact roundHalfEven_nonneg (by linarith)
    rw [abs_of_nonneg (by exact_mod_cast hnonneg), one_mul]

/-- Digits, a point and six more digits. -/
theorem scanDecimal_text (a : ℕ) {b : ℕ} (hb : b < 1000000) :
    scanDecimal (decimal a ++ 46 :: Timeval.padded b) =
      some (((a * 1000000 + b : ℕ) : ℚ) / 1000000) := by
  have hwhole : (decimal a ++ 46 :: Timeval.padded b).takeWhile isDigit = decimal a := by
    apply takeWhile_isDigit_append (fun c => isDigit_of_mem_decimal)
    intro c hc
    simp only [List.head?_cons, Option.some.injEq] at hc
    subst hc
    rfl
  have hfraction : (Timeval.padded b).takeWhile isDigit = Timeval.padded b := by
    have h := @takeWhile_isDigit_append (Timeval.padded b) []
      (fun c => Timeval.isDigit_of_mem_padded) nofun
    rwa [List.append_nil] at h
  have hlen : (Timeval.padded b).length = 6 := Timeval.length_padded (by omega)
  have hdigits : scanDigits isDigit (decimal a ++ 46 :: Timeval.padded b) =
      (decimal a, Timeval.padded b, []) := by
    unfold scanDigits
    simp only [hwhole, List.drop_left, List.head?_cons, if_true, List.tail_cons, hfraction,
      List.drop_length]
  unfold scanDecimal
  rw [hdigits]
  simp only [decimal_ne_nil, false_and, if_false, digitsValue_decimal, Timeval.digitsValue_padded,
    hlen]
  have hexp : scanExponent 101 69 [] = 0 := rfl
  rw [hexp, zpow_zero, mul_one]
  congr 1
  push_cast
  ring

theorem scanUnsigned_text (a : ℕ) {b : ℕ} (hb : b < 1000000) :
    scanUnsigned (decimal a ++ 46 :: Timeval.padded b) =
      some (((a * 1000000 + b : ℕ) : ℚ) / 1000000) := by
  rw [← scanDecimal_text a hb]
  unfold scanUnsigned
  split
  · next x t heq =>
    rw [if_neg]
    -- The letter of a hexadecimal number is no digit and no point.
    intro hx
    have hmem : x ∈ decimal a ∨ x = 46 ∨ x ∈ Timeval.padded b := by
      have : x ∈ decimal a ++ 46 :: Timeval.padded b := by rw [heq]; simp
      simpa using this
    rcases hmem with h | h | h
    · have := isDigit_of_mem_decimal h
      rcases hx with rfl | rfl <;> simp [isDigit] at this
    · rcases hx with rfl | rfl <;> simp at h
    · have := Timeval.isDigit_of_mem_padded h
      rcases hx with rfl | rfl <;> simp [isDigit] at this
  · rfl

theorem scan_print (q : ℚ) : scan (print q) = some ((sixDecimals q : ℚ) / 1000000) := by
  have hdigits := scanUnsigned_text ((sixDecimals q).natAbs / 1000000)
    (Nat.mod_lt (sixDecimals q).natAbs (by norm_num))
  rw [Nat.div_add_mod'] at hdigits
  obtain ⟨hspace, hminus, hplus⟩ := head_of_digits
    (decimal_ne_nil ((sixDecimals q).natAbs / 1000000)) (fun b => isDigit_of_mem_decimal)
    (46 :: Timeval.padded ((sixDecimals q).natAbs % 1000000))
  rw [sixDecimals_eq]
  unfold scan print
  split_ifs with hq
  · have hsign : ∀ t : Bytes, ([45] ++ t).dropWhile isSpace = 45 :: t := fun t => rfl
    simp only [hsign, List.head?_cons, true_or, if_true, List.tail_cons, hdigits, Option.map_some]
    congr 1
    ring
  · simp only [List.nil_append, hspace, hminus, hplus, or_self, if_false, hdigits, Option.map_some]
    rw [one_mul]

end RoundTrip

end DoubleText
end Haggle
