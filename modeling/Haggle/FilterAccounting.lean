import Haggle.FilterObjects
import Haggle.FilterMerge

/-!
# Merging filters and their numbers of objects

The class around a filter takes the number of objects that the filter had when it was wrapped, and
subtracts it behind every merge: when nothing was merged, when it has been subtracted before, and
when the filter that had it has been replaced.
-/

namespace Haggle

open ByteOrder

namespace FilterAccounting

/-- What `raw` points to, with the type that says which it is. -/
inductive Raw
  | normal (bf : FilterBlock 8)
  | counting (cbf : FilterBlock 16)
deriving DecidableEq

def Raw.n : Raw → BitVec 32
  | .normal bf => bf.n
  | .counting cbf => cbf.n

/-- The class `Bloomfilter`. -/
structure Filter where
  init_n : BitVec 32
  raw : Raw
deriving DecidableEq

/-- `Bloomfilter(Type_t, double, unsigned int)`, with the filter that is made. -/
def Filter.new (raw : Raw) : Filter := ⟨0, raw⟩

/-- `Bloomfilter(double, unsigned int, struct bloomfilter *)`, for a filter that was decoded or
copied. -/
def Filter.wrap (raw : Raw) : Filter := ⟨raw.n, raw⟩

/-- `numObjects`. -/
def Filter.numObjects (f : Filter) : ℕ :=
  match f.raw with
  | .normal bf => bf.numObjects
  | .counting cbf => cbf.numObjects

/-- `BLOOMFILTER_TOT_LEN`. -/
def totLen (bf : FilterBlock 8) : ℕ := 12 + 4 * bf.k + bf.m.toNat / 8

/-- `merge`. -/
def Filter.merge (f bf_merge : Filter) : Bool × Filter :=
  match f.raw, bf_merge.raw with
  | .normal bf, .normal other =>
    if totLen bf ≠ totLen other then (false, f)
    else
      let (res, bf) := bloomfilterMerge bf (some other)
      (res = .ok, { f with raw := .normal { bf with n := bf.n - f.init_n } })
  | _, _ => (false, f)

section Calls

variable (sha1 : Bytes → Digest) (e : Endian)

/-- `add`. -/
def Filter.add (f : Filter) (key : Bytes) : Option Filter :=
  match f.raw with
  | .normal bf => (bloomfilterAdd sha1 e bf key).map fun bf => { f with raw := .normal bf }
  | .counting cbf =>
    (countingBloomfilterAdd sha1 e cbf key).map fun cbf => { f with raw := .counting cbf }

/-- `fromBase64`, for what the text is decoded to as a filter of the type. -/
def Filter.fromBase64 (f : Filter) (bf : Option (FilterBlock 8)) (cbf : Option (FilterBlock 16)) :
    Filter :=
  match f.raw with
  | .normal old => { f with raw := .normal (bf.getD old) }
  | .counting old => { f with raw := .counting (cbf.getD old) }

inductive Call
  | add (key : Bytes)
  | merge (bf_merge : Filter)
  | copy
  | fromBase64 (bf : Option (FilterBlock 8)) (cbf : Option (FilterBlock 16))

/-- A call of a filter. Its copy goes on in its place, and an addition that leaves the memory of the
filter has no result. -/
def step (s : Option Filter) : Call → Option Filter
  | .add key => s.bind fun f => f.add sha1 e key
  | .merge bf_merge => s.map fun f => (f.merge bf_merge).2
  | .copy => s
  | .fromBase64 bf cbf => s.map fun f => f.fromBase64 bf cbf

end Calls

section Property

/-- What a merge is to do to the filter and to its number of objects. -/
def Filter.Accounts (f bf_merge : Filter) : Prop :=
  if (f.merge bf_merge).1 then
    ((f.merge bf_merge).2.numObjects : ℤ) =
      f.numObjects + bf_merge.numObjects - f.init_n.toNat
  else (f.merge bf_merge).2 = f

/-- Two filters whose bins can be merged. -/
def Alike (bf other : FilterBlock 8) : Prop := bf.m = other.m ∧ bf.salts = other.salts

instance (bf other : FilterBlock 8) : Decidable (Alike bf other) :=
  inferInstanceAs (Decidable (_ ∧ _))

/-- Filters of one size are alike and the numbers neither add up to less than what is subtracted nor
to more than fits; or they are not alike, and nothing is subtracted. -/
def Filter.Fits (f bf_merge : Filter) : Prop :=
  match f.raw, bf_merge.raw with
  | .normal bf, .normal other => totLen bf = totLen other →
      if Alike bf other then
        f.init_n.toNat ≤ bf.n.toNat + other.n.toNat ∧
          bf.n.toNat + other.n.toNat < f.init_n.toNat + 2 ^ 32
      else f.init_n = 0
  | _, _ => True

instance (f bf_merge : Filter) : Decidable (f.Fits bf_merge) := by
  unfold Filter.Fits
  split <;> infer_instance

instance (f bf_merge : Filter) : Decidable (f.Accounts bf_merge) := by
  unfold Filter.Accounts
  infer_instance

def AccountsAt (s : Option Filter) : Call → Prop
  | .merge bf_merge => ∀ f ∈ s, f.Accounts bf_merge
  | _ => True

def FitsAt (s : Option Filter) : Call → Prop
  | .merge bf_merge => ∀ f ∈ s, f.Fits bf_merge
  | _ => True

end Property

section Merging

variable {f bf_merge : Filter} {bf other : FilterBlock 8}

theorem k_eq_of_salts (h : Alike bf other) : ¬ (bf.m ≠ other.m ∨ bf.k ≠ other.k) := by
  rw [not_or, not_not, not_not]
  exact ⟨h.1, congrArg List.length h.2⟩

theorem bloomfilterMerge_alike (h : Alike bf other) : bloomfilterMerge bf (some other) =
    (.ok, { bf with bins := List.zipWith (· ||| ·) bf.bins other.bins, n := bf.n + other.n }) := by
  rw [bloomfilterMerge, if_neg (k_eq_of_salts h), if_neg (not_not.mpr h.2)]

theorem bloomfilterMerge_refused (h : ¬ Alike bf other) :
    (bloomfilterMerge bf (some other)).1 ≠ .ok ∧ (bloomfilterMerge bf (some other)).2 = bf := by
  rw [bloomfilterMerge]
  split_ifs with hparam hsalts
  · exact ⟨by simp, rfl⟩
  · exact ⟨by simp, rfl⟩
  · rw [not_or, not_not, not_not] at hparam
    exact absurd ⟨hparam.1, not_not.mp hsalts⟩ h

/-- Behind a merge that has been done, the number is right if it is not taken modulo 2³². -/
theorem accounts_of_alike (hraw : f.raw = .normal bf) (hother : bf_merge.raw = .normal other)
    (hlen : totLen bf = totLen other) (h : Alike bf other) : f.Accounts bf_merge ↔
      f.init_n.toNat ≤ bf.n.toNat + other.n.toNat ∧
        bf.n.toNat + other.n.toNat < f.init_n.toNat + 2 ^ 32 := by
  have hmerge : f.merge bf_merge = (true, { f with raw := .normal { bf with
      bins := List.zipWith (· ||| ·) bf.bins other.bins
      n := bf.n + other.n - f.init_n } }) := by
    rw [Filter.merge, hraw, hother]
    simp only [hlen, ne_eq, not_true_eq_false, if_false, bloomfilterMerge_alike h, decide_true]
  have hn := bf.n.isLt
  have ho := other.n.isLt
  have hi := f.init_n.isLt
  have hvalue : (bf.n + other.n - f.init_n).toNat =
      (bf.n.toNat + other.n.toNat + (2 ^ 32 - f.init_n.toNat)) % 2 ^ 32 := by
    rw [BitVec.toNat_sub, BitVec.toNat_add]
    omega
  rw [Filter.Accounts, hmerge, if_pos rfl, Filter.numObjects, Filter.numObjects, Filter.numObjects,
    hraw, hother]
  change ((bf.n + other.n - f.init_n).toNat : ℤ) = bf.n.toNat + other.n.toNat - f.init_n.toNat ↔ _
  rw [hvalue]
  constructor
  · intro h
    omega
  · rintro ⟨hle, hlt⟩
    omega

/-- A merge that has not been done subtracts all the same. -/
theorem accounts_of_not_alike (hraw : f.raw = .normal bf) (hother : bf_merge.raw = .normal other)
    (hlen : totLen bf = totLen other) (h : ¬ Alike bf other) :
    f.Accounts bf_merge ↔ f.init_n = 0 := by
  obtain ⟨hres, hsame⟩ := bloomfilterMerge_refused h
  have hmerge : f.merge bf_merge =
      (false, { f with raw := .normal { bf with n := bf.n - f.init_n } }) := by
    rw [Filter.merge, hraw, hother]
    simp only [hlen, ne_eq, not_true_eq_false, if_false, hsame, decide_eq_false hres]
  obtain ⟨init_n, raw⟩ := f
  subst hraw
  rw [Filter.Accounts, hmerge, if_neg Bool.false_ne_true]
  simp only [Filter.mk.injEq, true_and, Raw.normal.injEq]
  constructor
  · intro heq
    have hn : (bf.n - init_n).toNat = bf.n.toNat := congrArg (fun b => b.n.toNat) heq
    have hi := init_n.isLt
    have hlt := bf.n.isLt
    rw [BitVec.toNat_sub] at hn
    refine BitVec.eq_of_toNat_eq ?_
    change init_n.toNat = 0
    omega
  · rintro rfl
    rw [show bf.n - 0 = bf.n from BitVec.sub_zero bf.n]

theorem accounts_iff (f bf_merge : Filter) : f.Accounts bf_merge ↔ f.Fits bf_merge := by
  cases hraw : f.raw with
  | counting cbf =>
    have hmerge : f.merge bf_merge = (false, f) := by rw [Filter.merge, hraw]
    rw [Filter.Accounts, hmerge, Filter.Fits, hraw]
    simp
  | normal bf =>
    cases hother : bf_merge.raw with
    | counting cbf =>
      have hmerge : f.merge bf_merge = (false, f) := by rw [Filter.merge, hraw, hother]
      rw [Filter.Accounts, hmerge, Filter.Fits, hraw, hother]
      simp
    | normal other =>
      rw [Filter.Fits, hraw, hother]
      by_cases hlen : totLen bf = totLen other
      · simp only [hlen, forall_const]
        split_ifs with h
        · exact accounts_of_alike hraw hother hlen h
        · exact accounts_of_not_alike hraw hother hlen h
      · have hmerge : f.merge bf_merge = (false, f) := by
          rw [Filter.merge, hraw, hother]
          exact if_pos hlen
        rw [Filter.Accounts, hmerge]
        simp [hlen]

/-- Every merge of a run accounts for the objects if and only if its numbers fit. -/
theorem accounting_iff (sha1 : Bytes → Digest) (e : Endian) (f : Filter) (calls : List Call) :
    Trace.Guarded (step sha1 e) AccountsAt (some f) calls ↔
      Trace.Guarded (step sha1 e) FitsAt (some f) calls := by
  refine @Trace.guarded_congr _ _ _ AccountsAt FitsAt (fun _ => True) ?_ (fun _ _ _ _ => trivial) _
    trivial calls
  intro s call _
  cases call with
  | merge bf_merge => exact forall₂_congr fun f _ => accounts_iff f bf_merge
  | _ => exact Iff.rfl

end Merging

end FilterAccounting

namespace Sample

open FilterAccounting

/-- A filter that was decoded with one object. -/
def decodedFilter : FilterAccounting.Filter := .wrap (.normal { plainBlock with n := 1 })

def emptyFilter : FilterAccounting.Filter :=
  .new (.normal { plainBlock with n := 0, bins := [0, 0] })

/-- A filter of the same size with other salts is not merged, but the object is gone from the
number; and when nothing has been merged twice, the number has run below zero. -/
theorem not_accounting_decodedFilter :
    decodedFilter.merge (.new (.normal ⟨16, 0, [5, 7], [0, 0]⟩)) =
        (false, { decodedFilter with raw := .normal { plainBlock with n := 0 } }) ∧
      ¬ Trace.Guarded (FilterAccounting.step firstBytes .little) AccountsAt (some decodedFilter)
        [.merge (.new (.normal ⟨16, 0, [5, 7], [0, 0]⟩))] ∧
      ¬ Trace.Guarded (FilterAccounting.step firstBytes .little) AccountsAt (some decodedFilter)
        [.merge emptyFilter, .merge emptyFilter] := by
  refine ⟨by decide, fun h => ?_, fun h => ?_⟩
  · exact absurd (h.1 decodedFilter rfl) (by decide)
  · exact absurd (h.2.1 _ rfl) (by decide)

end Sample

end Haggle
