import Haggle.LibReading

/-!
# Numbers of the application library

What `atoi` and `sscanf` make of the numbers that `haggle_dataobject_to_metadata` prints. A create
time comes back whatever its signs are, and a length as far as an `int` goes.
-/

namespace Haggle
namespace LibDataObject

/-- The values of a `long`. -/
def IsLong (n : ℤ) : Prop := -(2 ^ 63) ≤ n ∧ n < 2 ^ 63

instance (n : ℤ) : Decidable (IsLong n) := inferInstanceAs (Decidable (_ ∧ _))

/-- What is read of a number that was printed. -/
def clamp (n : ℤ) : ℤ := if n < 0 then max n (-(2 ^ 63)) else min n (2 ^ 63 - 1)

theorem clamp_of_isLong {n : ℤ} (h : IsLong n) : clamp n = n := by
  obtain ⟨hlow, hhigh⟩ := h
  unfold clamp
  split_ifs
  · exact max_eq_left hlow
  · exact min_eq_left (by omega)

theorem clamp_ne_zero {n : ℤ} (h : n ≠ 0) : clamp n ≠ 0 := by
  unfold clamp
  split_ifs <;> omega

theorem lit_minus : lit "-" = [45] := rfl

/-- A text with a sign in front of digits, as it is scanned. -/
theorem scanLong_signed {n : ℤ} {s t : Bytes} (hne : s ≠ []) (hs : ∀ b ∈ s, isDigit b = true)
    (hval : digitsValue s = n.natAbs) (ht : ∀ b, t.head? = some b → isDigit b = false) :
    let text := if n < 0 then 45 :: s else s
    Timeval.scanLong (text ++ t).length (text ++ t) = some (clamp n, t) := by
  by_cases hn : n < 0
  · simp only [if_pos hn, List.cons_append, clamp]
    rw [Timeval.scanLong_neg hne hs ht (by simp), hval]
    have habs : -((n.natAbs : ℕ) : ℤ) = n := by omega
    rw [habs]
  · simp only [if_neg hn, clamp]
    rw [Timeval.scanLong_run hne hs ht (by simp), hval]
    have habs : ((n.natAbs : ℕ) : ℤ) = n := by omega
    rw [habs]

theorem scanLong_longText (n : ℤ) {t : Bytes} (ht : ∀ b, t.head? = some b → isDigit b = false) :
    Timeval.scanLong (longText n ++ t).length (longText n ++ t) = some (clamp n, t) := by
  have htext : longText n = if n < 0 then 45 :: decimal n.natAbs else decimal n.natAbs := by
    rw [longText, lit_minus]
    rfl
  rw [htext]
  exact scanLong_signed (decimal_ne_nil _) (fun b => isDigit_of_mem_decimal)
    (digitsValue_decimal _) ht

theorem scanLong_longText06 (n : ℤ) :
    Timeval.scanLong (longText06 n).length (longText06 n) = some (clamp n, []) := by
  have htext : longText06 n = if n < 0 then
      45 :: (List.replicate (5 - (decimal n.natAbs).length) (digitByte 0) ++ decimal n.natAbs)
      else Timeval.padded n.natAbs := by
    rw [longText06, lit_minus]
    rfl
  have hnil : ∀ b : UInt8, ([] : Bytes).head? = some b → isDigit b = false := by simp
  rw [htext]
  split_ifs with hn
  · have h := scanLong_signed (n := n) (t := [])
      (s := List.replicate (5 - (decimal n.natAbs).length) (digitByte 0) ++ decimal n.natAbs)
      (by simp [decimal_ne_nil]) ?_ ?_ hnil
    · simpa only [if_pos hn, List.append_nil] using h
    · intro b hb
      rcases List.mem_append.mp hb with hb | hb
      · rw [(List.mem_replicate.mp hb).2]
        rfl
      · exact isDigit_of_mem_decimal hb
    · rw [Timeval.digitsValue_zeros, digitsValue_decimal]
  · have h := scanLong_signed (n := n) (t := []) (Timeval.padded_ne_nil n.natAbs)
      (fun b => Timeval.isDigit_of_mem_padded) (Timeval.digitsValue_padded _) hnil
    simpa only [if_neg hn, List.append_nil] using h

theorem scanCreatetime_createtimeText (uninit t : Timeval) :
    scanCreatetime uninit (createtimeText t) = ⟨clamp t.sec, clamp t.usec⟩ := by
  have hdot : ∀ b, (46 :: longText06 t.usec).head? = some b → isDigit b = false := by
    intro b hb
    obtain rfl := Option.some.inj hb
    rfl
  have htext : createtimeText t = longText t.sec ++ 46 :: longText06 t.usec := by
    rw [createtimeText, List.append_assoc]
    rfl
  rw [scanCreatetime, htext, scanLong_longText _ hdot]
  simp only [List.head?_cons, if_true, List.tail_cons, scanLong_longText06]

theorem atoiSize_decimal (n : ℕ) : atoiSize (decimal n) =
    (((min (n : ℤ) (2 ^ 63 - 1) + 2 ^ 31) % 2 ^ 32 - 2 ^ 31) % 2 ^ 64).toNat := by
  have h := Timeval.scanLong_run (t := []) (decimal_ne_nil n) (fun b => isDigit_of_mem_decimal)
    (by simp) le_rfl
  rw [List.append_nil, digitsValue_decimal] at h
  rw [atoiSize, h]
  rfl

theorem length_decimal {n : ℕ} (hn : n ≠ 0) : (decimal n).length = (Nat.digits 10 n).length := by
  rw [decimal, if_neg hn, List.length_map, List.length_reverse]

theorem decimal_snoc {n : ℕ} (hn : 10 ≤ n) :
    decimal n = decimal (n / 10) ++ [digitByte (n % 10)] := by
  rw [decimal, if_neg (by omega), decimal, if_neg (by omega),
    Nat.digits_def' (by norm_num) (by omega), List.reverse_cons, List.map_append]
  rfl

theorem take_decimal {n : ℕ} (hn : n < 2 ^ 64) :
    (decimal n).take 19 = if n < 10 ^ 19 then decimal n else decimal (n / 10) := by
  split_ifs with h
  · exact List.take_of_length_le (length_decimal_le (by norm_num) h)
  · have hle : (decimal (n / 10)).length ≤ 19 := length_decimal_le (by norm_num) (by omega)
    have hlt : 18 < (decimal (n / 10)).length := by
      rw [length_decimal (by omega)]
      exact (Nat.lt_digits_length_iff (by norm_num) _).mpr (by omega)
    have hlen : (decimal (n / 10)).length = 19 := by omega
    rw [decimal_snoc (by omega), ← hlen, List.take_left]

/-- The only larger length that comes back all the same. -/
def luckyLength : ℕ := 18446744071800677262

/-- A length comes back through `snprintf` and `atoi` if it is that of an `int`. -/
theorem atoiSize_take_decimal_iff {n : ℕ} (hn : n < 2 ^ 64) :
    atoiSize ((decimal n).take 19) = n ↔ n < 2 ^ 31 ∨ n = luckyLength := by
  rw [take_decimal hn, luckyLength]
  split_ifs with h
  · rw [atoiSize_decimal]
    omega
  · have hq : n / 10 < 2 ^ 63 - 1 := by omega
    have hmin : min ((n / 10 : ℕ) : ℤ) (2 ^ 63 - 1) = (n / 10 : ℕ) := min_eq_left (by omega)
    rw [atoiSize_decimal, hmin]
    generalize hx : (((n / 10 : ℕ) : ℤ) + 2 ^ 31) % 2 ^ 32 - 2 ^ 31 = x
    -- The `int` is negative, and the length one of the highest.
    constructor
    · intro heq
      have hn : (n : ℤ) = x + 2 ^ 64 := by omega
      have hquot : (((n / 10 : ℕ) : ℤ) + 2 ^ 31) / 2 ^ 32 = 429496729 ∨
          (((n / 10 : ℕ) : ℤ) + 2 ^ 31) / 2 ^ 32 = 429496730 := by omega
      omega
    · intro heq
      omega

end LibDataObject
end Haggle
