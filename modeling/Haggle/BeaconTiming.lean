import Haggle.Timeval
import Mathlib.Data.List.Chain

/-!
# Beacon times

A device sends a beacon every few seconds, give or take up to one, and says in it how long the
interval is. The receiver takes the sender for lost when it has not heard of it for three intervals
and three seconds. Both sums are formed with unsigned numbers.
-/

namespace Haggle

namespace Timeval

/-- `operator+=`: at most one carry either way. -/
def add (t₁ t₂ : Timeval) : Timeval :=
  let sec := t₁.sec + t₂.sec
  let usec := t₁.usec + t₂.usec
  let r : Timeval := if usec < 0 then ⟨sec - 1, usec + 1000000⟩ else ⟨sec, usec⟩
  if 1000000 ≤ r.usec then ⟨r.sec + 1, r.usec - 1000000⟩ else r

/-- `Timeval(const double)`, for a number of seconds without a fraction. -/
def ofSeconds (n : ℕ) : Timeval := ⟨n, 0⟩

theorem micros_add (t₁ t₂ : Timeval) : (add t₁ t₂).micros = t₁.micros + t₂.micros := by
  simp only [add]
  split <;> split <;> simp only [micros] at * <;> omega

theorem micros_adjust (t : Timeval) : t.adjust.micros = t.micros := by
  simp only [adjust, micros]
  omega

@[simp] theorem micros_ofSeconds (n : ℕ) : (ofSeconds n).micros = n * 1000000 := by
  simp only [ofSeconds, micros]
  omega

end Timeval

namespace Beacon

section Model

-- How many bits an `unsigned long` and a `long` have. The numbers that are drawn have 32.
variable (unsignedLong long : ℕ)

/-- `BEACON_JITTER`, as it comes to a parameter that is a `long`. -/
def beaconJitter (draw : BitVec 32) : ℤ :=
  ((draw.setWidth unsignedLong % BitVec.ofNat unsignedLong 2000000 -
    BitVec.ofNat unsignedLong 1000000).setWidth long).toInt

/-- `next_beacon_time += (beaconInterval + jitter)`. -/
def nextBeaconTime (beaconInterval : BitVec 32) (next_beacon_time : Timeval) (draw : BitVec 32) :
    Timeval :=
  let jitter := Timeval.adjust ⟨0, beaconJitter unsignedLong long draw⟩
  next_beacon_time.add ((Timeval.ofSeconds beaconInterval.toNat).add jitter)

/-- The times for which the beacons of a sender are scheduled. -/
def beaconTimes (beaconInterval : BitVec 32) : Timeval → List (BitVec 32) → List Timeval
  | t, [] => [t]
  | t, draw :: draws =>
    t :: beaconTimes beaconInterval (nextBeaconTime unsignedLong long beaconInterval t draw) draws

/-- `BEACON_TIMEOUT`: `BEACON_EPSILON` is 1 and `BEACON_LOSS_MAX` is 3. -/
def beaconTimeout (now : Timeval) (interval : BitVec 32) : Timeval :=
  now.add (Timeval.ofSeconds ((interval + 1) * 3).toNat)

/-- The beacons are one interval apart, give or take a second; whoever hears one waits for three
intervals at least; and the next three beacons are scheduled before that is over. -/
structure Covered (b : BitVec 32) (start : Timeval) (draws : List (BitVec 32)) : Prop where
  spaced : (beaconTimes unsignedLong long b start draws).IsChain fun t t' =>
    ((b.toNat : ℤ) - 1) * 1000000 ≤ t'.micros - t.micros ∧
      t'.micros - t.micros ≤ ((b.toNat : ℤ) + 1) * 1000000
  lasts : ∀ now : Timeval, now.micros + 3 * b.toNat * 1000000 ≤ (beaconTimeout now b).micros
  reaches : ∀ t t₁ t₂ t₃, [t, t₁, t₂, t₃] <:+: beaconTimes unsignedLong long b start draws →
    ∀ now : Timeval, t.micros ≤ now.micros → t₃.micros ≤ (beaconTimeout now b).micros

/-- Whether numbers that wrap in `unsigned long` come out as negative ones: they do if `long` is as
wide. -/
structure Widths : Prop where
  le : unsignedLong ≤ long
  unsignedLong : unsignedLong = 32 ∨ unsignedLong = 64
  long : long = 32 ∨ long = 64

end Model

variable {u l : ℕ} {b : BitVec 32}

theorem beaconJitter_eq (hw : Widths u l) (draw : BitVec 32) : beaconJitter u l draw =
    if u = l ∨ 1000000 ≤ draw.toNat % 2000000 then (draw.toNat % 2000000 : ℤ) - 1000000
    else (draw.toNat % 2000000 : ℤ) - 1000000 + 2 ^ 32 := by
  obtain ⟨hle, hu, hl⟩ := hw
  have hlt := draw.isLt
  have hvalue : (draw.setWidth u % BitVec.ofNat u 2000000 - BitVec.ofNat u 1000000).toNat =
      (draw.toNat % 2000000 + (2 ^ u - 1000000)) % 2 ^ u := by
    have hpow : 2 ^ 32 ≤ 2 ^ u := Nat.pow_le_pow_right (by norm_num) (by omega)
    rw [BitVec.toNat_sub, BitVec.toNat_umod, BitVec.toNat_setWidth, BitVec.toNat_ofNat,
      BitVec.toNat_ofNat, Nat.mod_eq_of_lt (by omega : draw.toNat < 2 ^ u),
      Nat.mod_eq_of_lt (by omega : 2000000 < 2 ^ u), Nat.mod_eq_of_lt (by omega : 1000000 < 2 ^ u),
      Nat.add_comm]
  rw [beaconJitter, BitVec.toInt_eq_toNat_cond, BitVec.toNat_setWidth, hvalue]
  rcases hu with rfl | rfl <;> rcases hl with rfl | rfl
  · split_ifs <;> omega
  · split_ifs <;> omega
  · omega
  · split_ifs <;> omega

theorem micros_nextBeaconTime (t : Timeval) (draw : BitVec 32) :
    (nextBeaconTime u l b t draw).micros =
      t.micros + (b.toNat * 1000000 + beaconJitter u l draw) := by
  rw [nextBeaconTime, Timeval.micros_add, Timeval.micros_add, Timeval.micros_ofSeconds,
    Timeval.micros_adjust]
  simp only [Timeval.micros]
  omega

theorem micros_beaconTimeout (now : Timeval) : (beaconTimeout now b).micros =
    now.micros + 3 * (b.toNat + 1) % 2 ^ 32 * 1000000 := by
  have hb := b.isLt
  have hvalue : ((b + 1) * 3).toNat = 3 * (b.toNat + 1) % 2 ^ 32 := by
    rw [BitVec.toNat_mul, BitVec.toNat_add]
    have hone : (1 : BitVec 32).toNat = 1 := rfl
    have hthree : (3 : BitVec 32).toNat = 3 := rfl
    rw [hone, hthree]
    omega
  rw [beaconTimeout, Timeval.micros_add, Timeval.micros_ofSeconds, hvalue]
  push_cast
  rfl

theorem beaconTimes_eq_cons (t : Timeval) (draws : List (BitVec 32)) :
    ∃ l', beaconTimes u l b t draws = t :: l' := by
  cases draws with
  | nil => exact ⟨[], rfl⟩
  | cons draw draws => exact ⟨_, rfl⟩

/-- The number that is drawn moves a beacon by a second at most, unless it wraps. -/
theorem spaced_iff (hw : Widths u l) (t : Timeval) (draw : BitVec 32) :
    ((b.toNat : ℤ) - 1) * 1000000 ≤ (nextBeaconTime u l b t draw).micros - t.micros ∧
        (nextBeaconTime u l b t draw).micros - t.micros ≤ ((b.toNat : ℤ) + 1) * 1000000 ↔
      u = l ∨ 1000000 ≤ draw.toNat % 2000000 := by
  have hmod : draw.toNat % 2000000 < 2000000 := Nat.mod_lt _ (by norm_num)
  rw [micros_nextBeaconTime, beaconJitter_eq hw]
  split_ifs with h
  · exact iff_of_true ⟨by omega, by omega⟩ h
  · exact iff_of_false (fun hle => by omega) h

theorem isChain_beaconTimes_iff (hw : Widths u l) (t : Timeval) (draws : List (BitVec 32)) :
    ((beaconTimes u l b t draws).IsChain fun t t' =>
      ((b.toNat : ℤ) - 1) * 1000000 ≤ t'.micros - t.micros ∧
        t'.micros - t.micros ≤ ((b.toNat : ℤ) + 1) * 1000000) ↔
      ∀ draw ∈ draws, u = l ∨ 1000000 ≤ draw.toNat % 2000000 := by
  induction draws generalizing t with
  | nil => simp [beaconTimes]
  | cons draw draws ih =>
    obtain ⟨rest, hrest⟩ := @beaconTimes_eq_cons u l b (nextBeaconTime u l b t draw) draws
    have htail := ih (nextBeaconTime u l b t draw)
    rw [hrest] at htail
    rw [beaconTimes, hrest, List.isChain_cons_cons, spaced_iff hw, htail, List.forall_mem_cons]

/-- The sum for the timeout is right if it does not wrap. -/
theorem lasts_iff : (∀ now : Timeval, now.micros + 3 * b.toNat * 1000000 ≤
    (beaconTimeout now b).micros) ↔ 3 * (b.toNat + 1) < 2 ^ 32 := by
  have hb := b.isLt
  simp only [micros_beaconTimeout]
  constructor
  · intro h
    have h0 := h Timeval.zero
    rw [Timeval.micros_zero] at h0
    omega
  · intro h now
    omega

/-- The times are right for every interval whose timeout does not wrap, and for all numbers drawn
unless they wrap in an `unsigned long` that is narrower than a `long`. -/
theorem covered_iff (hw : Widths u l) (b : BitVec 32) (start : Timeval)
    (draws : List (BitVec 32)) : Covered u l b start draws ↔
      (u = l ∨ ∀ draw ∈ draws, 1000000 ≤ draw.toNat % 2000000) ∧ 3 * (b.toNat + 1) < 2 ^ 32 := by
  constructor
  · rintro ⟨hspaced, hlasts, -⟩
    refine ⟨?_, lasts_iff.mp hlasts⟩
    rw [isChain_beaconTimes_iff hw] at hspaced
    by_cases heq : u = l
    · exact Or.inl heq
    · exact Or.inr fun draw hdraw => (hspaced draw hdraw).resolve_left heq
  · rintro ⟨hdraws, hb⟩
    have hspaced := (@isChain_beaconTimes_iff u l b hw start draws).mpr fun draw hdraw =>
      hdraws.imp_right fun h => h draw hdraw
    refine ⟨hspaced, lasts_iff.mpr hb, fun t t₁ t₂ t₃ hinfix now hnow => ?_⟩
    -- three intervals are a second each too long at most, which is what is added
    have hsteps := hspaced.infix hinfix
    simp only [List.isChain_cons_cons] at hsteps
    obtain ⟨h₁, h₂, h₃, -⟩ := hsteps
    rw [micros_beaconTimeout]
    omega

end Beacon

namespace Sample

open Beacon

theorem covered_fiveSeconds : Covered 64 64 5 Timeval.zero [0, 1234567] :=
  (covered_iff ⟨le_refl 64, Or.inr rfl, Or.inr rfl⟩ 5 Timeval.zero [0, 1234567]).mpr
    ⟨Or.inl rfl, by decide⟩

/-- A neighbor that announces the longest interval is lost at once. -/
theorem not_covered_longest : ¬ Covered 64 64 (BitVec.ofNat 32 4294967295) Timeval.zero [] ∧
    beaconTimeout ⟨7, 0⟩ (BitVec.ofNat 32 4294967295) = ⟨7, 0⟩ ∧
    ¬ Covered 32 64 5 Timeval.zero [0] ∧
    nextBeaconTime 32 64 5 Timeval.zero 0 = ⟨4298, 967296⟩ := by
  refine ⟨fun h => ?_, by decide, fun h => ?_, by decide⟩
  · exact absurd (h.lasts Timeval.zero) (by decide)
  · have hspaced := h.spaced
    simp only [beaconTimes, List.isChain_cons_cons] at hspaced
    exact absurd hspaced.1.2 (by decide)

end Sample

end Haggle
