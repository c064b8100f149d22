import Haggle.BeaconTiming
import Haggle.PeriodicQueries
import Haggle.TimevalText
import Mathlib.Logic.Function.Basic

/-!
# Programs over time values

A `Timeval` is built from integers, copied, set, added and subtracted. The constructors normalise in
two loops, the arithmetic with one carry, and the setters not at all. A program over such variables
is compared with the same program over whole numbers of microseconds.
-/

namespace Haggle

namespace Timeval

section Model

-- How many bits a `long` has.
variable (w : ℕ)

/-- What a `long` can hold. -/
def InLong (n : ℤ) : Prop := -((2 ^ (w - 1) : ℕ) : ℤ) ≤ n ∧ n < ((2 ^ (w - 1) : ℕ) : ℤ)

instance (n : ℤ) : Decidable (InLong w n) := inferInstanceAs (Decidable (_ ∧ _))

abbrev Long := {n : ℤ // InLong w n}

/-- The fields after an operation, which is undefined where one of them overflows. -/
def fields (sec usec : ℤ) : Option Timeval :=
  if InLong w sec ∧ InLong w usec then some ⟨sec, usec⟩ else none

/-- The first loop of `adjust`. -/
def borrowLoop (t : Timeval) : Option Timeval :=
  if t.usec < 0 then
    if InLong w (t.sec - 1) ∧ InLong w (t.usec + 1000000) then
      borrowLoop ⟨t.sec - 1, t.usec + 1000000⟩
    else none
  else some t
termination_by (-t.usec).toNat

/-- The second loop of `adjust`. -/
def carryLoop (t : Timeval) : Option Timeval :=
  if 1000000 ≤ t.usec then
    if InLong w (t.sec + 1) ∧ InLong w (t.usec - 1000000) then
      carryLoop ⟨t.sec + 1, t.usec - 1000000⟩
    else none
  else some t
termination_by t.usec.toNat

def adjustLoops (t : Timeval) : Option Timeval := do
  let t ← borrowLoop w t
  carryLoop w t

/-- What `operator+=` and `operator-=` do behind their sums: a borrow, and then a carry. -/
def carryOnce (t : Timeval) : Option Timeval := do
  let t ← if t.usec < 0 then fields w (t.sec - 1) (t.usec + 1000000) else some t
  if 1000000 ≤ t.usec then fields w (t.sec + 1) (t.usec - 1000000) else some t

/-- `operator+=`. Each field is read before it is written, so that `tv` can be the time itself. -/
def plusEq (t tv : Timeval) : Option Timeval := do
  let t ← fields w (t.sec + tv.sec) (t.usec + tv.usec)
  carryOnce w t

/-- `operator-=`. -/
def minusEq (t tv : Timeval) : Option Timeval := do
  let t ← fields w (t.sec - tv.sec) (t.usec - tv.usec)
  carryOnce w t

/-- `operator+`: a copy, to which the second time is added. -/
def plus (t₁ t₂ : Timeval) : Option Timeval := do
  let tv ← adjustLoops w t₁
  plusEq w tv t₂

/-- `operator-`. -/
def minus (t₁ t₂ : Timeval) : Option Timeval := do
  let tv ← adjustLoops w t₁
  minusEq w tv t₂

/-- `operator==`. -/
def equals (t₁ t₂ : Timeval) : Prop := t₁.sec = t₂.sec ∧ t₁.usec = t₂.usec

/-- `operator>=`. -/
def ge (t₁ t₂ : Timeval) : Prop := t₂.sec < t₁.sec ∨ t₁.sec = t₂.sec ∧ t₂.usec ≤ t₁.usec

/-- `operator>`. -/
def gt (t₁ t₂ : Timeval) : Prop := t₂.sec < t₁.sec ∨ t₁.sec = t₂.sec ∧ t₂.usec < t₁.usec

/-- A statement, with the variables that it names. -/
inductive Statement
  | construct (r : ℕ) (sec usec : Long w)
  | copy (r a : ℕ)
  | zero (r : ℕ)
  | set (r : ℕ) (sec usec : Long w)
  | plus (r a b : ℕ)
  | minus (r a b : ℕ)
  | plusEq (r a : ℕ)
  | minusEq (r a : ℕ)

variable {w}

namespace Statement

/-- The variable that is changed. -/
def target : Statement w → ℕ
  | construct r _ _ | copy r _ | zero r | set r _ _ | plus r _ _ | minus r _ _ | plusEq r _
  | minusEq r _ => r

/-- The new value of the variable. -/
def value (vars : ℕ → Timeval) : Statement w → Option Timeval
  | construct _ sec usec => adjustLoops w ⟨sec, usec⟩
  | copy _ a => adjustLoops w (vars a)
  | zero _ => some Timeval.zero
  | set _ sec usec => some ⟨sec, usec⟩
  | plus _ a b => Timeval.plus w (vars a) (vars b)
  | minus _ a b => Timeval.minus w (vars a) (vars b)
  | plusEq r a => Timeval.plusEq w (vars r) (vars a)
  | minusEq r a => Timeval.minusEq w (vars r) (vars a)

/-- The same for whole numbers of microseconds. -/
def total (totals : ℕ → ℤ) : Statement w → ℤ
  | construct _ sec usec | set _ sec usec => sec.1 * 1000000 + usec.1
  | copy _ a => totals a
  | zero _ => 0
  | plus _ a b => totals a + totals b
  | minus _ a b => totals a - totals b
  | plusEq r a => totals r + totals a
  | minusEq r a => totals r - totals a

/-- The microseconds that a setter is given are fewer than those of a second. -/
def SetsAdjusted : Statement w → Prop
  | set _ _ usec => 0 ≤ usec.1 ∧ usec.1 < 1000000
  | _ => True

instance (s : Statement w) : Decidable s.SetsAdjusted := by
  cases s <;> unfold SetsAdjusted <;> infer_instance

end Statement

/-- A program, started with the given values of the variables. -/
def run (vars : ℕ → Timeval) : List (Statement w) → Option (ℕ → Timeval)
  | [] => some vars
  | s :: program => do
    let v ← s.value vars
    run (Function.update vars s.target v) program

def runTotals (totals : ℕ → ℤ) : List (Statement w) → ℕ → ℤ
  | [] => totals
  | s :: program => runTotals (Function.update totals s.target (s.total totals)) program

/-- Every statement has a total that a `long` can hold. -/
def Fits (totals : ℕ → ℤ) : List (Statement w) → Prop
  | [] => True
  | s :: program =>
    InLong w (s.total totals) ∧ Fits (Function.update totals s.target (s.total totals)) program

end Model

/-! ## One operation -/

section Operations

variable {w : ℕ} {t t₁ t₂ : Timeval}

theorem million_le (hw : 32 ≤ w) : (2000000 : ℤ) < ((2 ^ (w - 1) : ℕ) : ℤ) := by
  have hpow : 2 ^ 31 ≤ 2 ^ (w - 1) := Nat.pow_le_pow_right (by norm_num) (by omega)
  omega

theorem adjusted_add (h₁ : Adjusted t₁) (h₂ : Adjusted t₂) : Adjusted (add t₁ t₂) := by
  simp only [add]
  split <;> split <;> simp only [Adjusted] at * <;> omega

theorem adjust_of_adjusted (h : t.Adjusted) : t.adjust = t := by
  obtain ⟨hu, hu'⟩ := h
  rw [adjust, Int.ediv_eq_zero_of_lt hu hu', Int.emod_eq_of_lt hu hu', add_zero]

theorem lt_iff_micros (h₁ : Adjusted t₁) (h₂ : Adjusted t₂) :
    lt t₁ t₂ ↔ t₁.micros < t₂.micros := by
  simp only [lt, micros, Adjusted] at *
  omega

theorem eq_iff_micros (h₁ : Adjusted t₁) (h₂ : Adjusted t₂) : t₁ = t₂ ↔ t₁.micros = t₂.micros := by
  constructor
  · rintro rfl
    rfl
  · intro h
    obtain ⟨s₁, u₁⟩ := t₁
    obtain ⟨s₂, u₂⟩ := t₂
    simp only [micros, Adjusted] at *
    rw [mk.injEq]
    omega

theorem inLong_sec (h : t.Adjusted) (hfit : InLong w t.micros) : InLong w t.sec := by
  simp only [Adjusted, micros, InLong] at *
  omega

theorem borrowLoop_of_nonneg (h : 0 ≤ t.usec) : borrowLoop w t = some t := by
  rw [borrowLoop, if_neg (by omega)]

theorem carryLoop_of_lt (h : t.usec < 1000000) : carryLoop w t = some t := by
  rw [carryLoop, if_neg (by omega)]

/-- The first loop ends with the adjusted time if its seconds fit. -/
theorem borrowLoop_of_neg (hw : 32 ≤ w) (hneg : t.usec < 0) (hsec : InLong w t.sec)
    (husec : InLong w t.usec) (hfit : InLong w t.adjust.sec) :
    borrowLoop w t = some t.adjust := by
  have hmillion := million_le hw
  fun_induction borrowLoop w t with
  | case1 t _ hstep ih =>
    have hadjust : adjust ⟨t.sec - 1, t.usec + 1000000⟩ = t.adjust := by
      simp only [adjust, mk.injEq]
      omega
    by_cases hlast : 0 ≤ t.usec + 1000000
    · rw [borrowLoop_of_nonneg hlast, ← hadjust, adjust_of_adjusted]
      exact ⟨hlast, by simpa using hneg⟩
    · rw [ih (by simpa using hlast) hstep.1 hstep.2 (by rwa [hadjust]), hadjust]
  | case2 t _ hover =>
    refine absurd ⟨?_, ?_⟩ hover <;> simp only [InLong, adjust] at * <;> omega
  | case3 t hnonneg => exact absurd hneg hnonneg

theorem carryLoop_of_nonneg (h0 : 0 ≤ t.usec) (hsec : InLong w t.sec)
    (husec : InLong w t.usec) (hfit : InLong w t.adjust.sec) :
    carryLoop w t = some t.adjust := by
  fun_induction carryLoop w t with
  | case1 t hle hstep ih =>
    have hadjust : adjust ⟨t.sec + 1, t.usec - 1000000⟩ = t.adjust := by
      simp only [adjust, mk.injEq]
      omega
    rw [ih (by simpa using hle) hstep.1 hstep.2 (by rwa [hadjust]), hadjust]
  | case2 t hle hover =>
    refine absurd ⟨?_, ?_⟩ hover <;> simp only [InLong, adjust] at * <;> omega
  | case3 t hlt => rw [adjust_of_adjusted ⟨h0, not_le.mp hlt⟩]

theorem adjustLoops_eq (hw : 32 ≤ w) (hsec : InLong w t.sec) (husec : InLong w t.usec)
    (hfit : InLong w t.micros) : adjustLoops w t = some t.adjust := by
  have hfit' : InLong w t.adjust.sec :=
    inLong_sec (adjusted_adjust t) (by rwa [micros_adjust])
  rw [adjustLoops]
  by_cases hneg : t.usec < 0
  · rw [borrowLoop_of_neg hw hneg hsec husec hfit']
    exact carryLoop_of_lt (adjusted_adjust t).2
  · rw [borrowLoop_of_nonneg (not_lt.mp hneg)]
    exact carryLoop_of_nonneg (not_lt.mp hneg) hsec husec hfit'

theorem adjustLoops_of_adjusted (h : t.Adjusted) : adjustLoops w t = some t := by
  rw [adjustLoops, borrowLoop_of_nonneg h.1]
  exact carryLoop_of_lt h.2

theorem fields_of_inLong {sec usec : ℤ} (hsec : InLong w sec) (husec : InLong w usec) :
    fields w sec usec = some ⟨sec, usec⟩ :=
  if_pos ⟨hsec, husec⟩

theorem plusEq_eq (hw : 32 ≤ w) (h₁ : Adjusted t₁) (h₂ : Adjusted t₂)
    (hfit : InLong w (t₁.micros + t₂.micros)) : plusEq w t₁ t₂ = some (t₁.add t₂) := by
  have hmillion := million_le hw
  simp only [Adjusted, InLong, micros] at *
  rw [plusEq, fields_of_inLong (by simp only [InLong]; omega) (by simp only [InLong]; omega)]
  have hneg : ¬ t₁.usec + t₂.usec < 0 := by omega
  simp only [carryOnce, add, Option.bind_eq_bind, Option.bind_some, hneg, if_false]
  split_ifs with hcarry
  · exact fields_of_inLong (by simp only [InLong]; omega) (by simp only [InLong]; omega)
  · rfl

theorem minusEq_eq (hw : 32 ≤ w) (h₁ : Adjusted t₁) (h₂ : Adjusted t₂)
    (hfit : InLong w (t₁.micros - t₂.micros)) : minusEq w t₁ t₂ = some (t₁.sub t₂) := by
  have hmillion := million_le hw
  simp only [Adjusted, InLong, micros] at *
  rw [minusEq, fields_of_inLong (by simp only [InLong]; omega) (by simp only [InLong]; omega)]
  by_cases hneg : t₁.usec - t₂.usec < 0
  · have hcarry : ¬ 1000000 ≤ t₁.usec - t₂.usec + 1000000 := by omega
    have hborrow : fields w (t₁.sec - t₂.sec - 1) (t₁.usec - t₂.usec + 1000000) =
        some ⟨t₁.sec - t₂.sec - 1, t₁.usec - t₂.usec + 1000000⟩ :=
      fields_of_inLong (by simp only [InLong]; omega) (by simp only [InLong]; omega)
    simp only [carryOnce, sub, Option.bind_eq_bind, Option.bind_some, hneg, if_true, hborrow,
      hcarry, if_false]
  · have hcarry : ¬ 1000000 ≤ t₁.usec - t₂.usec := by omega
    simp only [carryOnce, sub, Option.bind_eq_bind, Option.bind_some, hneg, hcarry, if_false]

theorem plus_eq (hw : 32 ≤ w) (h₁ : Adjusted t₁) (h₂ : Adjusted t₂)
    (hfit : InLong w (t₁.micros + t₂.micros)) : plus w t₁ t₂ = some (t₁.add t₂) := by
  rw [plus, adjustLoops_of_adjusted h₁]
  exact plusEq_eq hw h₁ h₂ hfit

theorem minus_eq (hw : 32 ≤ w) (h₁ : Adjusted t₁) (h₂ : Adjusted t₂)
    (hfit : InLong w (t₁.micros - t₂.micros)) : minus w t₁ t₂ = some (t₁.sub t₂) := by
  rw [minus, adjustLoops_of_adjusted h₁]
  exact minusEq_eq hw h₁ h₂ hfit

end Operations

/-! ## Programs -/

section Programs

variable {w : ℕ} {vars : ℕ → Timeval} {totals : ℕ → ℤ} {program : List (Statement w)}

/-- The five comparisons of two times are those of two numbers. -/
structure Coincide (t₁ t₂ : Timeval) (n₁ n₂ : ℤ) : Prop where
  lt : lt t₁ t₂ ↔ n₁ < n₂
  le : le t₁ t₂ ↔ n₁ ≤ n₂
  equals : equals t₁ t₂ ↔ n₁ = n₂
  ge : ge t₁ t₂ ↔ n₂ ≤ n₁
  gt : gt t₁ t₂ ↔ n₂ < n₁

/-- The variables are normalised times with these numbers of microseconds, and compare like them;
what is subtracted can be added again, and a difference has the sign of the comparison. -/
structure Exact (vars : ℕ → Timeval) (totals : ℕ → ℤ) (w : ℕ) : Prop where
  adjusted : ∀ r, (vars r).Adjusted
  micros : ∀ r, (vars r).micros = totals r
  coincide : ∀ r q, Coincide (vars r) (vars q) (totals r) (totals q)
  difference : ∀ r q, InLong w (totals r - totals q) → ∃ d, minus w (vars r) (vars q) = some d ∧
    plus w d (vars q) = some (vars r) ∧ (lt (vars r) (vars q) ↔ lt d zero)

/-- What a program keeps: every variable is the normal form of a total that fits. -/
def Represents (vars : ℕ → Timeval) (totals : ℕ → ℤ) (w : ℕ) : Prop :=
  ∀ r, (vars r).Adjusted ∧ (vars r).micros = totals r ∧ InLong w (totals r)

theorem coincide_of_adjusted {t₁ t₂ : Timeval} (h₁ : t₁.Adjusted) (h₂ : t₂.Adjusted) :
    Coincide t₁ t₂ t₁.micros t₂.micros := by
  constructor <;> simp only [lt, le, equals, ge, gt, Timeval.micros, Adjusted] at * <;> omega

theorem Represents.exact (hw : 32 ≤ w) (h : Represents vars totals w) : Exact vars totals w where
  adjusted r := (h r).1
  micros r := (h r).2.1
  coincide r q := by
    obtain ⟨hr, hr', -⟩ := h r
    obtain ⟨hq, hq', -⟩ := h q
    rw [← hr', ← hq']
    exact coincide_of_adjusted hr hq
  difference r q hfit := by
    obtain ⟨hr, hr', hrfit⟩ := h r
    obtain ⟨hq, hq', -⟩ := h q
    rw [← hr'] at hrfit hfit
    rw [← hq'] at hfit
    have hd : (sub (vars r) (vars q)).Adjusted := adjusted_sub hr hq
    have hmicros := micros_sub (vars r) (vars q)
    have hback : (add (sub (vars r) (vars q)) (vars q)).micros = (vars r).micros := by
      rw [micros_add, hmicros, sub_add_cancel]
    refine ⟨_, minus_eq hw hr hq hfit, ?_, ?_⟩
    · rw [plus_eq hw hd hq (by rwa [hmicros, sub_add_cancel]),
        (eq_iff_micros (adjusted_add hd hq) hr).mpr hback]
    · rw [lt_iff_micros hr hq, lt_iff_micros hd (by decide), hmicros, micros_zero, sub_neg]

/-- Every statement whose total fits has a value, which is the normal form of the total. -/
theorem Statement.value_spec (hw : 32 ≤ w) (h : Represents vars totals w) {s : Statement w}
    (hset : s.SetsAdjusted) (hfit : InLong w (s.total totals)) :
    ∃ v, s.value vars = some v ∧ v.Adjusted ∧ v.micros = s.total totals := by
  cases s with
  | construct r sec usec =>
    exact ⟨_, adjustLoops_eq hw sec.2 usec.2 hfit, adjusted_adjust _, micros_adjust _⟩
  | copy r a => exact ⟨_, adjustLoops_of_adjusted (h a).1, (h a).1, (h a).2.1⟩
  | zero r => exact ⟨_, rfl, by decide, rfl⟩
  | set r sec usec => exact ⟨_, rfl, hset, rfl⟩
  | plus r a b =>
    obtain ⟨ha, ha', -⟩ := h a
    obtain ⟨hb, hb', -⟩ := h b
    rw [Statement.total, ← ha', ← hb'] at hfit ⊢
    exact ⟨_, plus_eq hw ha hb hfit, adjusted_add ha hb, micros_add _ _⟩
  | minus r a b =>
    obtain ⟨ha, ha', -⟩ := h a
    obtain ⟨hb, hb', -⟩ := h b
    rw [Statement.total, ← ha', ← hb'] at hfit ⊢
    exact ⟨_, minus_eq hw ha hb hfit, adjusted_sub ha hb, micros_sub _ _⟩
  | plusEq r a =>
    obtain ⟨hr, hr', -⟩ := h r
    obtain ⟨ha, ha', -⟩ := h a
    rw [Statement.total, ← hr', ← ha'] at hfit ⊢
    exact ⟨_, plusEq_eq hw hr ha hfit, adjusted_add hr ha, micros_add _ _⟩
  | minusEq r a =>
    obtain ⟨hr, hr', -⟩ := h r
    obtain ⟨ha, ha', -⟩ := h a
    rw [Statement.total, ← hr', ← ha'] at hfit ⊢
    exact ⟨_, minusEq_eq hw hr ha hfit, adjusted_sub hr ha, micros_sub _ _⟩

theorem Represents.update (h : Represents vars totals w) {r : ℕ} {v : Timeval} {n : ℤ}
    (hv : v.Adjusted) (hn : v.micros = n) (hfit : InLong w n) :
    Represents (Function.update vars r v) (Function.update totals r n) w := by
  intro q
  by_cases hq : q = r
  · subst hq
    simp only [Function.update_self]
    exact ⟨hv, hn, hfit⟩
  · simp only [Function.update_of_ne hq]
    exact h q

theorem represents_run (hw : 32 ≤ w) (h : Represents vars totals w)
    (hset : ∀ s ∈ program, s.SetsAdjusted) (hfit : Fits totals program) :
    ∃ vars', run vars program = some vars' ∧ Represents vars' (runTotals totals program) w := by
  induction program generalizing vars totals with
  | nil => exact ⟨vars, rfl, h⟩
  | cons s program ih =>
    obtain ⟨hhead, htail⟩ := hfit
    obtain ⟨v, hv, hadjusted, hmicros⟩ :=
      Statement.value_spec hw h (hset s List.mem_cons_self) hhead
    obtain ⟨vars', hrun, hvars'⟩ := ih (h.update hadjusted hmicros hhead)
      (fun t ht => hset t (List.mem_cons_of_mem _ ht)) htail
    exact ⟨vars', by rw [run, hv]; exact hrun, hvars'⟩

theorem represents_zero (hw : 32 ≤ w) : Represents (fun _ => zero) (fun _ => 0) w := by
  have hmillion := million_le hw
  intro r
  exact ⟨⟨le_rfl, by norm_num [zero]⟩, rfl, by simp only [InLong]; omega⟩

/-- In a program whose totals fit and whose setters are given normalised values, no operation
overflows, and every state is that of the program over whole numbers of microseconds. -/
theorem arithmetic_exact (w : ℕ) (hw : 32 ≤ w) (program : List (Statement w))
    (hset : ∀ s ∈ program, s.SetsAdjusted) (hfit : Fits (fun _ => 0) program) :
    ∃ vars, run (fun _ => zero) program = some vars ∧
      Exact vars (runTotals (fun _ => 0) program) w := by
  obtain ⟨vars, hrun, hvars⟩ := represents_run hw (represents_zero hw) hset hfit
  exact ⟨vars, hrun, hvars.exact hw⟩

namespace Sample

/-- Two seconds less a quarter, less five seconds. -/
def negativeProgram : List (Statement 64) :=
  [Statement.construct 0 ⟨2, by decide⟩ ⟨-250000, by decide⟩,
    Statement.set 1 ⟨5, by decide⟩ ⟨0, by decide⟩, Statement.minusEq 0 1, Statement.plus 2 0 0]

theorem arithmetic_exact_negativeProgram :
    ∃ vars, run (fun _ => zero) negativeProgram = some vars ∧
      Exact vars (runTotals (fun _ => 0) negativeProgram) 64 :=
  arithmetic_exact 64 (by decide) negativeProgram
    (by simp only [negativeProgram, List.forall_mem_cons]; decide)
    (by simp only [negativeProgram, Fits]; decide)

def setProgram : List (Statement 64) := [Statement.set 0 ⟨0, by decide⟩ ⟨2000000, by decide⟩]

/-- A setter takes two million microseconds as they are. -/
theorem not_arithmetic_exact :
    ¬ ∀ program : List (Statement 64), Fits (fun _ => 0) program →
      ∃ vars, run (fun _ => zero) program = some vars ∧
        Exact vars (runTotals (fun _ => 0) program) 64 := by
  intro h
  obtain ⟨vars, hrun, hexact⟩ := h setProgram (by simp only [setProgram, Fits]; decide)
  obtain rfl := Option.some.inj hrun
  exact absurd (hexact.adjusted 0) (by decide)

end Sample

end Programs

end Timeval
end Haggle
