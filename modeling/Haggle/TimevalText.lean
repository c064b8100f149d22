import Haggle.Timeval
import Mathlib.Algebra.Order.Group.Abs
import Mathlib.Data.List.TakeWhile
import Mathlib.Tactic.Ring

/-!
# Which times are read back

`Timeval::getAsString` prints into twenty bytes, and it prints a time before 1970 with one second too
many. A time is read back from its text, whatever the variables of the reader held before, if it is
not before 1970 and the text has room for it.
-/

namespace Haggle

section Digits

theorem digitsValue_append (s t : Bytes) :
    digitsValue (s ++ t) = digitsValue s * 10 ^ t.length + digitsValue t := by
  induction t using List.reverseRecOn with
  | nil => simp [digitsValue]
  | append_singleton t b ih =>
    rw [← List.append_assoc, digitsValue_append_one, ih, digitsValue_append_one,
      List.length_append, List.length_singleton, pow_succ]
    ring

theorem digitsValue_lt {s : Bytes} (hs : ∀ b ∈ s, isDigit b = true) :
    digitsValue s < 10 ^ s.length := by
  induction s using List.reverseRecOn with
  | nil => simp [digitsValue]
  | append_singleton s b ih =>
    have hb : b.toNat - 48 < 10 := by
      have hdigit := hs b (by simp)
      simp only [isDigit, Bool.and_eq_true, decide_eq_true_eq] at hdigit
      omega
    have hrest := ih fun c hc => hs c (by simp [hc])
    rw [digitsValue_append_one, List.length_append, List.length_singleton, pow_succ]
    omega

theorem ten_mul_digitsValue_take_le {s : Bytes} {j : ℕ} (hj : j < s.length) :
    10 * digitsValue (s.take j) ≤ digitsValue s := by
  have hsplit := digitsValue_append (s.take j) (s.drop j)
  rw [List.take_append_drop, List.length_drop] at hsplit
  obtain ⟨i, hi⟩ : ∃ i, s.length - j = i + 1 := ⟨s.length - j - 1, by omega⟩
  rw [hi, pow_succ] at hsplit
  have hle : digitsValue (s.take j) * 1 ≤ digitsValue (s.take j) * 10 ^ i :=
    Nat.mul_le_mul_left _ (Nat.one_le_pow _ _ (by norm_num))
  rw [← mul_assoc] at hsplit
  omega

theorem lt_length_decimal {n k : ℕ} (h : 10 ^ k ≤ n) : k < (decimal n).length := by
  have hn : n ≠ 0 := by
    have := Nat.one_le_pow k 10 (by norm_num)
    omega
  rw [decimal, if_neg hn, List.length_map, List.length_reverse]
  exact (Nat.lt_digits_length_iff (by norm_num) n).mpr h

end Digits

namespace Timeval

/-- The times whose text has all of them. -/
def Storable (t : Timeval) : Prop :=
  t.isValid = true ∧ (t.sec < 10 ^ 12 ∨ t.usec = 0 ∧ t.sec < 10 ^ 17)

instance (t : Timeval) : Decidable t.Storable := inferInstanceAs (Decidable (_ ∧ _))

section Reading

variable {uninit t : Timeval}

instance (t : Timeval) : Decidable t.Adjusted := inferInstanceAs (Decidable (_ ∧ _))

theorem adjusted_adjust (t : Timeval) : t.adjust.Adjusted := by
  simp only [Adjusted, adjust]
  omega

theorem adjusted_ofString (uninit : Timeval) (s : Bytes) : (ofString uninit s).Adjusted :=
  adjusted_adjust _

theorem head?_digits {s : Bytes} (hs : ∀ b ∈ s, isDigit b = true) :
    s.head? ≠ some 45 ∧ s.head? ≠ some 43 := by
  cases s with
  | nil => exact ⟨nofun, nofun⟩
  | cons b s =>
    have hb := hs b List.mem_cons_self
    constructor <;> rintro ⟨⟩ <;> cases hb

theorem scanLong_six {s rest : Bytes} {v : ℤ} (hs : ∀ b ∈ s, isDigit b = true)
    (h : scanLong 6 s = some (v, rest)) : 0 ≤ v ∧ v < 1000000 := by
  have hspace : s.dropWhile isSpace = s := by
    cases s with
    | nil => rfl
    | cons b s =>
      have hb := hs b List.mem_cons_self
      rw [List.dropWhile_cons_of_neg]
      simp only [isDigit, Bool.and_eq_true, decide_eq_true_eq] at hb
      simp only [isSpace, Bool.or_eq_true, Bool.and_eq_true, decide_eq_true_eq]
      omega
  obtain ⟨hminus, hplus⟩ := head?_digits hs
  have hdigits : ∀ b ∈ (s.take 6).takeWhile isDigit, isDigit b = true :=
    fun b => List.mem_takeWhile_imp
  have hlt := digitsValue_lt hdigits
  have hlen : ((s.take 6).takeWhile isDigit).length ≤ 6 :=
    (List.takeWhile_sublist _).length_le.trans (List.length_take_le _ _)
  have hpow := Nat.pow_le_pow_right (show 0 < 10 by norm_num) hlen
  simp only [scanLong, hspace, hminus, hplus, decide_false, Bool.or_self, Bool.false_eq_true,
    if_false] at h
  split_ifs at h
  obtain ⟨rfl, -⟩ := Prod.mk.inj (Option.some.inj h)
  omega

/-- A text that begins with a number behind a minus sign, cut off somewhere: what is read has the
cut number for its seconds. -/
theorem sec_ofString_neg {n : ℕ} {s : Bytes} (hs : ∀ b ∈ s, isDigit b = true) :
    ∃ v : ℕ, (v = n ∨ 10 * v ≤ n) ∧
      (ofString ⟨0, 0⟩ ((45 :: (decimal n ++ 46 :: s)).take 19)).sec = -(v : ℤ) := by
  have htake : (45 :: (decimal n ++ 46 :: s)).take 19 =
      45 :: ((decimal n).take 18 ++ (46 :: s).take (18 - (decimal n).length)) := by
    rw [List.take_succ_cons, List.take_append]
  have hdigits : ∀ b ∈ (decimal n).take 18, isDigit b = true :=
    fun b hb => isDigit_of_mem_decimal (List.mem_of_mem_take hb)
  have hne : (decimal n).take 18 ≠ [] := by simp [decimal_ne_nil]
  have hdot : ∀ b, ((46 :: s).take (18 - (decimal n).length)).head? = some b →
      isDigit b = false := by
    intro b hb
    cases hw : 18 - (decimal n).length with
    | zero => simp [hw] at hb
    | succ k =>
      rw [hw, List.take_succ_cons, List.head?_cons] at hb
      obtain rfl := Option.some.inj hb
      rfl
  have hwidth : ((decimal n).take 18).length <
      (45 :: ((decimal n).take 18 ++ (46 :: s).take (18 - (decimal n).length))).length := by
    rw [List.length_cons, List.length_append]
    omega
  have hscan := scanLong_neg hne hdigits hdot hwidth
  have hlt := digitsValue_lt hdigits
  have hpow := Nat.pow_le_pow_right (show 0 < 10 by norm_num) (List.length_take_le 18 (decimal n))
  refine ⟨digitsValue ((decimal n).take 18), ?_, ?_⟩
  · by_cases hlong : 18 < (decimal n).length
    · have hcut := ten_mul_digitsValue_take_le hlong
      rw [digitsValue_decimal] at hcut
      exact .inr hcut
    · rw [List.take_of_length_le (by omega), digitsValue_decimal]
      exact .inl rfl
  · rw [htake, ofString, hscan, max_eq_left (by omega)]
    simp only
    split_ifs with hhead
    · cases hsecond : scanLong 6 ((46 :: s).take (18 - (decimal n).length)).tail with
      | none => simp [adjust]
      | some r =>
        have htail : ∀ b ∈ ((46 :: s).take (18 - (decimal n).length)).tail, isDigit b = true := by
          intro b hb
          cases hw : 18 - (decimal n).length with
          | zero => simp [hw] at hb
          | succ k =>
            rw [hw, List.take_succ_cons, List.tail_cons] at hb
            exact hs b (List.mem_of_mem_take hb)
        obtain ⟨hlow, hhigh⟩ := scanLong_six htail hsecond
        simp only [adjust]
        omega
    · simp [adjust]

/-- The same without a sign, where the point may be cut off too. -/
theorem ofString_cut {n : ℕ} {s : Bytes} (uninit : Timeval)
    (hlong : 17 < (decimal n).length) :
    ∃ v, ofString uninit ((decimal n ++ 46 :: s).take 19) = adjust ⟨v, uninit.usec⟩ := by
  have htake : (decimal n ++ 46 :: s).take 19 =
      (decimal n).take 19 ++ (46 :: s).take (19 - (decimal n).length) := List.take_append
  have hdigits : ∀ b ∈ (decimal n).take 19, isDigit b = true :=
    fun b hb => isDigit_of_mem_decimal (List.mem_of_mem_take hb)
  have hne : (decimal n).take 19 ≠ [] := by simp [decimal_ne_nil]
  -- at most the point is left of what is behind the number
  obtain hrest | hrest : (46 :: s).take (19 - (decimal n).length) = [] ∨
      (46 :: s).take (19 - (decimal n).length) = [46] := by
    obtain h | h : 19 - (decimal n).length = 0 ∨ 19 - (decimal n).length = 1 := by omega
    · exact .inl (by rw [h, List.take_zero])
    · exact .inr (by rw [h, List.take_succ_cons, List.take_zero])
  · rw [htake, hrest, ofString,
      scanLong_run hne hdigits (by simp) (by rw [List.append_nil])]
    exact ⟨_, rfl⟩
  · have hwidth : ((decimal n).take 19).length ≤ ((decimal n).take 19 ++ [46]).length := by
      rw [List.length_append]
      omega
    have hdot : ∀ b, ([46] : Bytes).head? = some b → isDigit b = false := by
      rintro b ⟨⟩
      rfl
    rw [htake, hrest, ofString, scanLong_run hne hdigits hdot hwidth]
    exact ⟨_, rfl⟩

/-- A text that has the whole number of seconds and some of the microseconds. -/
theorem ofString_some {n u : ℕ} (uninit : Timeval) (hu : u < 1000000)
    (hshort : (decimal n).length ≤ 17) (hlt : n < 2 ^ 63) :
    ofString uninit ((decimal n ++ 46 :: padded u).take 19) =
      adjust ⟨n, digitsValue ((padded u).take (18 - (decimal n).length))⟩ := by
  have hlen : (padded u).length = 6 := length_padded (by omega)
  have htake : (decimal n ++ 46 :: padded u).take 19 =
      decimal n ++ 46 :: (padded u).take (18 - (decimal n).length) := by
    have hsucc : 19 - (decimal n).length = 18 - (decimal n).length + 1 := by omega
    rw [List.take_append, List.take_of_length_le (by omega), hsucc, List.take_succ_cons]
  have hdot : ∀ b, (46 :: (padded u).take (18 - (decimal n).length)).head? = some b →
      isDigit b = false := by
    rintro b ⟨⟩
    rfl
  have hwidth : (decimal n).length ≤
      (decimal n ++ 46 :: (padded u).take (18 - (decimal n).length)).length := by
    rw [List.length_append]
    omega
  have hfirst := scanLong_digits (decimal_ne_nil n) (fun b => isDigit_of_mem_decimal) hdot hwidth
    (by rw [digitsValue_decimal]; exact hlt)
  rw [digitsValue_decimal] at hfirst
  have hdigits : ∀ b ∈ (padded u).take (18 - (decimal n).length), isDigit b = true :=
    fun b hb => isDigit_of_mem_padded (List.mem_of_mem_take hb)
  have hne : (padded u).take (18 - (decimal n).length) ≠ [] := by
    intro h
    obtain h | h := List.take_eq_nil_iff.mp h
    · omega
    · exact padded_ne_nil u h
  have hpow : digitsValue ((padded u).take (18 - (decimal n).length)) < 10 ^ 6 := by
    refine (digitsValue_lt hdigits).trans_le (Nat.pow_le_pow_right (by norm_num) ?_)
    exact (List.length_take_le' _ _).trans hlen.le
  have hsecond := scanLong_digits (t := []) hne hdigits (by simp)
    ((List.length_take_le' _ _).trans hlen.le) (by omega)
  rw [List.append_nil] at hsecond
  rw [htake, ofString, hfirst]
  simp only [List.head?_cons, if_true, List.tail_cons, hsecond]

end Reading

/-- Exactly the storable times are read back whatever the variables hold. -/
theorem ofString_getAsString_iff (t : Timeval) :
    (∀ uninit, ofString uninit t.getAsString = t) ↔ t.Storable := by
  have hlit : lit "." = [46] := by decide
  constructor
  · intro h
    have hadjusted : t.Adjusted := by
      rw [← h ⟨0, 0⟩]
      exact adjusted_ofString _ _
    obtain ⟨hu, hu'⟩ := hadjusted
    have hpos : 0 ≤ t.sec := by
      by_contra hneg
      have htext : t.getAsString =
          (45 :: (decimal (1 - t.sec).toNat ++ 46 :: padded (1000000 - t.usec).toNat)).take 19 := by
        have hminus : lit "-" = [45] := by decide
        rw [getAsString, if_pos (by omega), hlit, hminus]
        simp
      obtain ⟨v, hv, hsec⟩ := sec_ofString_neg (n := (1 - t.sec).toNat)
        fun b (hb : b ∈ padded (1000000 - t.usec).toNat) => isDigit_of_mem_padded hb
      have hback := congrArg Timeval.sec (h ⟨0, 0⟩)
      rw [htext, hsec] at hback
      omega
    have htext : t.getAsString =
        (decimal t.sec.toNat ++ 46 :: padded t.usec.toNat).take 19 := by
      rw [getAsString, if_neg (by omega), hlit, List.append_assoc, List.singleton_append]
    refine ⟨by simp [isValid, hpos, hu, hu'], ?_⟩
    by_contra hbig
    rw [not_or, not_and] at hbig
    obtain ⟨hsec, husec⟩ := hbig
    by_cases hlong : t.sec < 10 ^ 17
    · -- at least one of the digits of the microseconds is cut off, and they are not zero
      have hlen : 12 < (decimal t.sec.toNat).length := lt_length_decimal (by omega)
      have hlen' : (decimal t.sec.toNat).length ≤ 17 := length_decimal_le (by norm_num) (by omega)
      have hpadded : (padded t.usec.toNat).length = 6 := length_padded (by omega)
      have hcut := ten_mul_digitsValue_take_le (s := padded t.usec.toNat)
        (j := 18 - (decimal t.sec.toNat).length) (by omega)
      rw [digitsValue_padded] at hcut
      have hback := congrArg Timeval.usec (h ⟨0, 0⟩)
      rw [htext, ofString_some _ (by omega) hlen' (by omega)] at hback
      simp only [adjust] at hback
      have hzero : t.usec ≠ 0 := fun h0 => husec h0 hlong
      omega
    · -- no digit of the microseconds is left, and the variable may hold something else
      have hlen : 17 < (decimal t.sec.toNat).length := lt_length_decimal (by omega)
      obtain ⟨v, hv⟩ := ofString_cut (s := padded t.usec.toNat)
        ⟨0, if t.usec = 0 then 1 else 0⟩ hlen
      have hback := congrArg Timeval.usec (h ⟨0, if t.usec = 0 then 1 else 0⟩)
      rw [htext, hv] at hback
      simp only [adjust] at hback
      split_ifs at hback <;> omega
  · rintro ⟨hv, hsec | ⟨husec, hsec⟩⟩ uninit
    · exact ofString_getAsString uninit hv hsec
    · simp only [isValid, Bool.and_eq_true, decide_eq_true_eq] at hv
      obtain ⟨⟨h0, -⟩, -⟩ := hv
      have htext : t.getAsString = (decimal t.sec.toNat ++ 46 :: padded 0).take 19 := by
        rw [getAsString, if_neg (by omega), hlit, List.append_assoc, List.singleton_append, husec]
        rfl
      have hlen : (decimal t.sec.toNat).length ≤ 17 := length_decimal_le (by norm_num) (by omega)
      have hzero : digitsValue ((padded 0).take (18 - (decimal t.sec.toNat).length)) = 0 := by
        have hpadded : (padded 0).length = 6 := length_padded (by norm_num)
        by_cases hcut : 18 - (decimal t.sec.toNat).length < 6
        · have hle := ten_mul_digitsValue_take_le (s := padded 0)
            (j := 18 - (decimal t.sec.toNat).length) (by omega)
          rw [digitsValue_padded] at hle
          omega
        · rw [List.take_of_length_le (by omega), digitsValue_padded]
      rw [htext, ofString_some uninit (by norm_num) hlen (by omega), hzero]
      cases t
      simp only [adjust] at *
      simp [Int.toNat_of_nonneg h0, husec]

/-! ## The text as the form of a time -/

section Text

variable {t : Timeval}

/-- What the two formats of `getAsString` make, before it is cut to the room there is. -/
def printed (t : Timeval) : Bytes :=
  if t.sec < 0 then
    lit "-" ++ decimal (1 - t.sec).toNat ++ lit "." ++ padded (1000000 - t.usec).toNat
  else decimal t.sec.toNat ++ lit "." ++ padded t.usec.toNat

theorem length_printed_le (h : t.Adjusted) (h0 : 0 ≤ t.sec) (hsec : t.sec < 10 ^ 11) :
    t.printed.length ≤ 18 := by
  obtain ⟨hu, hu'⟩ := h
  have hdigits : (decimal t.sec.toNat).length ≤ 11 := length_decimal_le (by norm_num) (by omega)
  have husec : (padded t.usec.toNat).length = 6 := length_padded (by omega)
  have hdot : (lit ".").length = 1 := by decide
  rw [printed, if_neg (by omega), List.length_append, List.length_append, hdot, husec]
  omega

theorem head?_getAsString_of_neg (h : t.sec < 0) : t.getAsString.head? = some 45 := by
  have hminus : lit "-" = [45] := by decide
  rw [getAsString, if_pos h, hminus]
  rfl

theorem head?_getAsString_of_nonneg (h : 0 ≤ t.sec) : t.getAsString.head? ≠ some 45 := by
  have hhead := (head?_digits fun b (hb : b ∈ decimal t.sec.toNat) => isDigit_of_mem_decimal hb).1
  rw [getAsString, if_neg (by omega)]
  cases hd : decimal t.sec.toNat with
  | nil => exact absurd hd (decimal_ne_nil _)
  | cons b s =>
    rw [hd] at hhead
    exact hhead

theorem getAsString_inj {u : Timeval} (ht : t.Adjusted) (h0 : 0 ≤ t.sec) (hsec : t.sec < 10 ^ 11)
    (hu : u.Adjusted) (husec : u.sec < 10 ^ 11) (h : t.getAsString = u.getAsString) : t = u := by
  have hu0 : 0 ≤ u.sec := by
    by_contra hneg
    exact head?_getAsString_of_nonneg h0 (h ▸ head?_getAsString_of_neg (not_le.mp hneg))
  have hstorable : ∀ r : Timeval, r.Adjusted → 0 ≤ r.sec → r.sec < 10 ^ 11 → r.Storable := by
    intro r ⟨hr, hr'⟩ hr0 hrsec
    exact ⟨by simp [isValid, hr0, hr, hr'], .inl (by omega)⟩
  have hback := (ofString_getAsString_iff t).mpr (hstorable t ht h0 hsec) zero
  rw [h, (ofString_getAsString_iff u).mpr (hstorable u hu hu0 husec)] at hback
  exact hback.symm

/-- Between `-10^11` and `10^11` seconds, exactly the times that are not before 1970 are read back
from their text, with a text that fits into its buffer and that no other of these times has. -/
theorem textRoundTrip_iff (t : Timeval) (ht : t.Adjusted) (hsec : |t.sec| < 10 ^ 11) :
    ((∀ uninit, ofString uninit t.getAsString = t) ∧ t.printed.length + 1 ≤ 20 ∧
      ∀ u : Timeval, u.Adjusted → |u.sec| < 10 ^ 11 → (t.getAsString = u.getAsString ↔ t = u)) ↔
    0 ≤ t.sec := by
  obtain ⟨hlow, hhigh⟩ := abs_lt.mp hsec
  constructor
  · rintro ⟨hread, -, -⟩
    have hvalid := ((ofString_getAsString_iff t).mp hread).1
    simp only [isValid, Bool.and_eq_true, decide_eq_true_eq] at hvalid
    exact hvalid.1.1
  · intro h0
    have hstorable : t.Storable := ⟨by simp [isValid, h0, ht.1, ht.2], .inl (by omega)⟩
    refine ⟨(ofString_getAsString_iff t).mpr hstorable,
      Nat.succ_le_succ ((length_printed_le ht h0 hhigh).trans (by norm_num)), ?_⟩
    intro u hu husec
    exact ⟨getAsString_inj ht h0 hhigh hu (abs_lt.mp husec).2, fun h => h ▸ rfl⟩

/-- A second after the epoch. -/
theorem textRoundTrip_second :
    (∀ uninit, ofString uninit (getAsString ⟨1, 500000⟩) = ⟨1, 500000⟩) ∧
      (printed ⟨1, 500000⟩).length + 1 ≤ 20 ∧
      ∀ u : Timeval, u.Adjusted → |u.sec| < 10 ^ 11 →
        (getAsString ⟨1, 500000⟩ = u.getAsString ↔ ⟨1, 500000⟩ = u) :=
  (textRoundTrip_iff ⟨1, 500000⟩ (by decide) (by decide)).mpr (by decide)

/-- Half a second before 1970 is written as two and a half. -/
theorem not_textRoundTrip_negative :
    ¬ ∀ t : Timeval, t.Adjusted → |t.sec| < 10 ^ 11 →
      (∀ uninit, ofString uninit t.getAsString = t) ∧ t.printed.length + 1 ≤ 20 ∧
        ∀ u : Timeval, u.Adjusted → |u.sec| < 10 ^ 11 →
          (t.getAsString = u.getAsString ↔ t = u) := by
  intro h
  have htext : getAsString ⟨-1, 500000⟩ = lit "-2.500000" := by decide
  have hread : ofString zero (lit "-2.500000") = ⟨-2, 500000⟩ := by decide
  have hback := (h ⟨-1, 500000⟩ (by decide) (by decide)).1 zero
  rw [htext, hread] at hback
  exact absurd hback (by decide)

end Text

end Timeval
end Haggle
