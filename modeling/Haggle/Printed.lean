import Haggle.Bytes
import Haggle.SqlInsert
import Mathlib.Data.List.TakeWhile

/-!
# Strings and numbers in printed statements

`%s` prints a string up to its first zero byte, `%u` and `%lld` print decimals.
-/

namespace Haggle

/-- `%s` of a string. -/
def cStr (s : Bytes) : Bytes := s.takeWhile (· ≠ 0)

/-- `%lld`. -/
def printed (z : ℤ) : Sql.Operand :=
  if z < 0 then .negative (decimal z.natAbs) else .numeral (decimal z.natAbs)

theorem cStr_eq {s : Bytes} (h : 0 ∉ s) : cStr s = s := by
  rw [cStr, List.takeWhile_eq_self_iff]
  intro b hb
  have hne : b ≠ 0 := fun h' => h (h' ▸ hb)
  simpa using hne

theorem quote_cStr {s : Bytes} (h : 39 ∉ s) : 39 ∉ cStr s :=
  fun h' => h (List.takeWhile_subset _ h')

theorem feed_decimal (n : ℕ) :
    Sql.feed .between (decimal n) = ([], .inWord (decimal n).reverse) :=
  Sql.feed_digits (decimal_ne_nil n) (List.all_eq_true.mpr fun _ hb => isDigit_of_mem_decimal hb)

/-- A number, and the text that ends it. -/
theorem feed_number (n : ℕ) {l : Bytes} {t : List Sql.Token} {q : Sql.Scan}
    (h : ∀ w, Sql.feed (.inWord w) l = (.word w.reverse :: t, q)) :
    Sql.feed .between (decimal n ++ l) = (.word (decimal n) :: t, q) := by
  rw [Sql.feed_append, feed_decimal, h, List.reverse_reverse]
  rfl

theorem printable_decimal (n : ℕ) : (Sql.Operand.numeral (decimal n)).printable = true := by
  have hall : (decimal n).all Sql.isDigit = true :=
    List.all_eq_true.mpr fun b hb => isDigit_of_mem_decimal hb
  simp [Sql.Operand.printable, decimal_ne_nil, hall]

theorem wellFormed_decimal {n : ℕ} (hn : n < 2 ^ 63) :
    (Sql.Operand.numeral (decimal n)).wellFormed = true := by
  have hvalue : Sql.value (decimal n) = n := digitsValue_decimal n
  rw [Sql.Operand.wellFormed, hvalue, Bool.and_eq_true, List.all_eq_true, decide_eq_true_eq]
  exact ⟨fun b hb => isDigit_of_mem_decimal hb, hn⟩

theorem printable_printed (z : ℤ) : (printed z).printable = true := by
  rw [printed]
  split_ifs <;> exact printable_decimal z.natAbs

theorem wellFormed_printed {z : ℤ} (hz : z.natAbs < 2 ^ 63) : (printed z).wellFormed = true := by
  rw [printed]
  split_ifs <;> exact wellFormed_decimal hz

theorem eval_decimal (b : List Sql.Value) (n : ℕ) :
    (Sql.Operand.numeral (decimal n)).eval b = .int n := by
  have h : Sql.value (decimal n) = n := digitsValue_decimal n
  rw [Sql.Operand.eval, h]

theorem eval_printed (b : List Sql.Value) (z : ℤ) : (printed z).eval b = .int z := by
  have h : Sql.value (decimal z.natAbs) = z.natAbs := digitsValue_decimal z.natAbs
  rw [printed]
  split_ifs with hz
  · rw [Sql.Operand.eval, h]
    congr 1
    omega
  · rw [Sql.Operand.eval, h]
    congr 1
    omega

end Haggle
