import Haggle.Bytes

/-!
# Time values and their text

`Timeval` carries seconds and microseconds. Its text has room for 19 characters only, and is read
back with `sscanf`, which leaves a variable it cannot assign as it was.
-/

namespace Haggle

structure Timeval where
  sec : ℤ
  usec : ℤ
deriving DecidableEq

namespace Timeval

def adjust (t : Timeval) : Timeval := ⟨t.sec + t.usec / 1000000, t.usec % 1000000⟩

def isValid (t : Timeval) : Bool := 0 ≤ t.sec && 0 ≤ t.usec && t.usec < 1000000

/-- `%06ld` of a number that is not negative. -/
def padded (n : ℕ) : Bytes := List.replicate (6 - (decimal n).length) (digitByte 0) ++ decimal n

/-- `snprintf` into `char buf[20]`. -/
def getAsString (t : Timeval) : Bytes :=
  if t.sec < 0 then
    (lit "-" ++ decimal (1 - t.sec).toNat ++ lit "." ++ padded (1000000 - t.usec).toNat).take 19
  else (decimal t.sec.toNat ++ lit "." ++ padded t.usec.toNat).take 19

/-- `%ld` of `sscanf` on at most `width` characters: the value and what is left to read. -/
def scanLong (width : ℕ) (s : Bytes) : Option (ℤ × Bytes) :=
  let t := s.dropWhile isSpace
  let signed := decide (t.head? = some 45) || decide (t.head? = some 43)
  let u := if signed then (t.take width).tail else t.take width
  let d := u.takeWhile isDigit
  let v : ℤ := digitsValue d
  if d = [] then none
  else some (if t.head? = some 45 then max (-v) (-(2 ^ 63)) else min v (2 ^ 63 - 1),
    (if signed then t.tail else t).drop d.length)

/-- `Timeval(const string)`; the local variables start with the values of `uninit`. -/
def ofString (uninit : Timeval) (s : Bytes) : Timeval :=
  adjust <|
    match scanLong s.length s with
    | none => uninit
    | some (sec, rest) =>
      if rest.head? = some 46 then
        match scanLong 6 rest.tail with
        | none => ⟨sec, uninit.usec⟩
        | some (usec, _) => ⟨sec, usec⟩
      else ⟨sec, uninit.usec⟩

theorem isDigit_of_mem_padded {n : ℕ} {b : UInt8} (hb : b ∈ padded n) : isDigit b = true := by
  rcases List.mem_append.mp hb with h | h
  · rw [(List.mem_replicate.mp h).2]
    rfl
  · exact isDigit_of_mem_decimal h

theorem padded_ne_nil (n : ℕ) : padded n ≠ [] := by
  simp [padded, decimal_ne_nil]

theorem length_padded {n : ℕ} (hn : n < 10 ^ 6) : (padded n).length = 6 := by
  have h := length_decimal_le (by norm_num : 0 < 6) hn
  simp only [padded, List.length_append, List.length_replicate]
  omega

theorem digitsValue_zeros (k : ℕ) (s : Bytes) :
    digitsValue (List.replicate k (digitByte 0) ++ s) = digitsValue s := by
  induction k with
  | zero => rfl
  | succ k ih => simpa [digitsValue, List.replicate_succ, digitByte_toNat] using ih

theorem digitsValue_padded (n : ℕ) : digitsValue (padded n) = n := by
  rw [padded, digitsValue_zeros, digitsValue_decimal]

/-- A run of digits that fits the field is read as its value, as far as the type goes. -/
theorem scanLong_run {width : ℕ} {s t : Bytes} (hne : s ≠ [])
    (hs : ∀ b ∈ s, isDigit b = true) (ht : ∀ b, t.head? = some b → isDigit b = false)
    (hlen : s.length ≤ width) :
    scanLong width (s ++ t) = some (min (digitsValue s : ℤ) (2 ^ 63 - 1), t) := by
  obtain ⟨hsp, hneg, hpos⟩ := head_of_digits hne hs t
  have htake : ((s ++ t).take width).takeWhile isDigit = s := by
    rw [List.take_append, List.take_of_length_le hlen]
    apply takeWhile_isDigit_append hs
    intro b hb
    apply ht b
    cases hw : width - s.length with
    | zero => simp [hw] at hb
    | succ k => cases t <;> simp_all
  simp only [scanLong, hsp, hneg, hpos, decide_false, Bool.or_self, Bool.false_eq_true, if_false,
    htake, hne]
  rw [List.drop_left]

theorem scanLong_digits {width : ℕ} {s t : Bytes} (hne : s ≠ [])
    (hs : ∀ b ∈ s, isDigit b = true) (ht : ∀ b, t.head? = some b → isDigit b = false)
    (hlen : s.length ≤ width) (hv : digitsValue s < 2 ^ 63) :
    scanLong width (s ++ t) = some ((digitsValue s : ℤ), t) := by
  have hv' : (digitsValue s : ℤ) < 2 ^ 63 := by exact_mod_cast hv
  rw [scanLong_run hne hs ht hlen, min_eq_left (by omega)]

/-- The same behind a minus sign. -/
theorem scanLong_neg {width : ℕ} {s t : Bytes} (hne : s ≠ []) (hs : ∀ b ∈ s, isDigit b = true)
    (ht : ∀ b, t.head? = some b → isDigit b = false) (hlen : s.length < width) :
    scanLong width (45 :: (s ++ t)) =
      some (max (-(digitsValue s : ℤ)) (-(2 ^ 63)), t) := by
  obtain ⟨width, rfl⟩ : ∃ n, width = n + 1 := ⟨width - 1, by omega⟩
  have hsp : (45 :: (s ++ t)).dropWhile isSpace = 45 :: (s ++ t) := rfl
  have htake : ((s ++ t).take width).takeWhile isDigit = s := by
    rw [List.take_append, List.take_of_length_le (by omega)]
    apply takeWhile_isDigit_append hs
    intro b hb
    apply ht b
    cases hw : width - s.length with
    | zero => simp [hw] at hb
    | succ k => cases t <;> simp_all
  simp only [scanLong, hsp, List.head?_cons, decide_true, Bool.true_or, if_true, List.take_succ_cons,
    List.tail_cons, htake, hne, if_false, List.drop_left]

theorem getAsString_of_nonneg {t : Timeval} (h0 : 0 ≤ t.sec) (ht : t.sec < 10 ^ 12)
    (hu : 0 ≤ t.usec) (hu' : t.usec < 1000000) :
    t.getAsString = decimal t.sec.toNat ++ 46 :: padded t.usec.toNat := by
  have hsec : (decimal t.sec.toNat).length ≤ 12 :=
    length_decimal_le (by norm_num) (by omega)
  have husec : (padded t.usec.toNat).length = 6 := length_padded (by omega)
  have hlit : lit "." = [46] := by decide
  rw [getAsString, if_neg (by omega), hlit, List.append_assoc, List.singleton_append,
    List.take_of_length_le]
  simp only [List.length_append, List.length_cons]
  omega

/-- A valid time is read back from its whole text. -/
theorem ofString_text {t : Timeval} (uninit : Timeval) (hv : t.isValid = true)
    (ht : t.sec < 2 ^ 63) :
    ofString uninit (decimal t.sec.toNat ++ 46 :: padded t.usec.toNat) = t := by
  simp only [isValid, Bool.and_eq_true, decide_eq_true_eq] at hv
  obtain ⟨⟨h0, hu⟩, hu'⟩ := hv
  have hsecval : digitsValue (decimal t.sec.toNat) < 2 ^ 63 := by
    rw [digitsValue_decimal]
    omega
  have husecval : digitsValue (padded t.usec.toNat) < 2 ^ 63 := by
    rw [digitsValue_padded]
    omega
  have hfirst : scanLong (decimal t.sec.toNat ++ 46 :: padded t.usec.toNat).length
      (decimal t.sec.toNat ++ 46 :: padded t.usec.toNat) =
        some ((digitsValue (decimal t.sec.toNat) : ℤ), 46 :: padded t.usec.toNat) := by
    apply scanLong_digits (decimal_ne_nil _) (fun b => isDigit_of_mem_decimal) _ (by simp) hsecval
    intro b hb
    simp only [List.head?_cons, Option.some.injEq] at hb
    subst hb
    rfl
  have hsecond : scanLong 6 (padded t.usec.toNat) =
      some ((digitsValue (padded t.usec.toNat) : ℤ), []) := by
    simpa using scanLong_digits (t := []) (padded_ne_nil _) (fun b => isDigit_of_mem_padded)
      (by simp) (length_padded (by omega)).le husecval
  rw [ofString, hfirst]
  simp only [List.head?_cons, List.tail_cons, if_true, hsecond, digitsValue_decimal,
    digitsValue_padded, adjust]
  have hs : (t.sec.toNat : ℤ) = t.sec := Int.toNat_of_nonneg h0
  have hus : (t.usec.toNat : ℤ) = t.usec := Int.toNat_of_nonneg hu
  rw [hs, hus, Int.ediv_eq_zero_of_lt hu hu', Int.emod_eq_of_lt hu hu', add_zero]

theorem ofString_getAsString {t : Timeval} (uninit : Timeval) (hv : t.isValid = true)
    (ht : t.sec < 10 ^ 12) : ofString uninit t.getAsString = t := by
  have hv' := hv
  simp only [isValid, Bool.and_eq_true, decide_eq_true_eq] at hv'
  obtain ⟨⟨h0, hu⟩, hu'⟩ := hv'
  rw [getAsString_of_nonneg h0 ht hu hu']
  exact ofString_text uninit hv (by omega)

example : getAsString ⟨1000000000000, 123456⟩ = lit "1000000000000.12345" := by decide

/-! ## Order and difference -/

def lt (t₁ t₂ : Timeval) : Prop := t₁.sec < t₂.sec ∨ t₁.sec = t₂.sec ∧ t₁.usec < t₂.usec

def le (t₁ t₂ : Timeval) : Prop := t₁.sec < t₂.sec ∨ t₁.sec = t₂.sec ∧ t₁.usec ≤ t₂.usec

instance (t₁ t₂ : Timeval) : Decidable (lt t₁ t₂) := inferInstanceAs (Decidable (_ ∨ _))

instance (t₁ t₂ : Timeval) : Decidable (le t₁ t₂) := inferInstanceAs (Decidable (_ ∨ _))

instance : LinearOrder Timeval where
  le := le
  lt := lt
  le_refl a := .inr ⟨rfl, le_rfl⟩
  le_trans a b c hab hbc := by
    simp only [le] at *
    omega
  le_antisymm a b hab hba := by
    cases a
    cases b
    simp only [le, mk.injEq] at *
    omega
  le_total a b := by
    simp only [le]
    omega
  lt_iff_le_not_ge a b := by
    simp only [le, lt]
    omega
  toDecidableLE a b := inferInstanceAs (Decidable (le a b))
  toDecidableLT a b := inferInstanceAs (Decidable (lt a b))

/-- What `adjust` establishes. -/
def Adjusted (t : Timeval) : Prop := 0 ≤ t.usec ∧ t.usec < 1000000

def zero : Timeval := ⟨0, 0⟩

/-- `operator-=`: at most one carry either way. -/
def sub (t₁ t₂ : Timeval) : Timeval :=
  let sec := t₁.sec - t₂.sec
  let usec := t₁.usec - t₂.usec
  let r : Timeval := if usec < 0 then ⟨sec - 1, usec + 1000000⟩ else ⟨sec, usec⟩
  if 1000000 ≤ r.usec then ⟨r.sec + 1, r.usec - 1000000⟩ else r

def micros (t : Timeval) : ℤ := t.sec * 1000000 + t.usec

def ofMicros (n : ℤ) : Timeval := ⟨n / 1000000, n % 1000000⟩

@[simp] theorem micros_zero : zero.micros = 0 := rfl

@[simp] theorem micros_ofMicros (n : ℤ) : (ofMicros n).micros = n := by
  simp only [micros, ofMicros]
  omega

theorem micros_sub (t₁ t₂ : Timeval) : (sub t₁ t₂).micros = t₁.micros - t₂.micros := by
  simp only [sub]
  split <;> split <;> simp only [micros] at * <;> omega

/-- Adjusted times compare like their microseconds. -/
theorem le_iff_micros {t₁ t₂ : Timeval} (h₁ : Adjusted t₁) (h₂ : Adjusted t₂) :
    t₁ ≤ t₂ ↔ t₁.micros ≤ t₂.micros := by
  change le t₁ t₂ ↔ _
  simp only [le, micros, Adjusted] at *
  omega

theorem adjusted_ofMicros (n : ℤ) : Adjusted (ofMicros n) := by
  simp only [Adjusted, ofMicros]
  omega

end Timeval
end Haggle
