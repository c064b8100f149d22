import Haggle.FilterWire
import Haggle.Bloomfilter

/-!
# Operations on filter blocks

`bloomfilter_operation`, `counting_bloomfilter_operation` and `bloomfilter_merge`, on keys of any
length and on hosts of either byte order. The index of a bin is kept in an `int`, although the
number of bins is unsigned: with more than 2³¹ bins it can be negative, and the access then leaves
the filter. An operation that leaves the filter, or divides by zero, has no result.
-/

namespace Haggle

open ByteOrder

/-- The words of a digest, exclusive-ored. -/
def xorDigest (e : Endian) : Bytes → BitVec 32
  | a :: b :: c :: d :: l => BitVec.ofNat 32 (load e [a, b, c, d]) ^^^ xorDigest e l
  | _ => 0

section Operations

variable (sha1 : Bytes → Digest) (e : Endian)

/-- `hash % bf->m`, before it is assigned to `index`. -/
def hashIndex (m : BitVec 32) (key : Bytes) (salt : BitVec 32) : Option (BitVec 32) :=
  if m = 0 then none else some (xorDigest e (sha1 (key ++ store e 4 salt.toNat)).1 % m)

/-- The loop over the salts that checks a key: it stops at the first bin that is not set. -/
def checkSalts (isSet : BitVec 32 → Option Bool) : List (BitVec 32) → Option Bool
  | [] => some true
  | salt :: l => do
    if ← isSet salt then checkSalts isSet l else some false

section Plain

/-- `index` in the arithmetic with `VALUES_PER_BIN`, which is a 64-bit `size_t`. -/
def sizeIndex (index : BitVec 32) : ℕ := (index.signExtend 64).toNat

/-- Whether the bit of an index is set. -/
def testBit (bins : List (BitVec 8)) (index : BitVec 32) : Option Bool :=
  (bins[sizeIndex index / 8]?).map fun b => b &&& (1#8 <<< (sizeIndex index % 8)) != 0

def orBit (bins : List (BitVec 8)) (index : BitVec 32) : Option (List (BitVec 8)) :=
  if sizeIndex index / 8 < bins.length then
    some (bins.modify (sizeIndex index / 8) (· ||| (1#8 <<< (sizeIndex index % 8))))
  else none

/-- `bloomfilter_check`. -/
def bloomfilterCheck (bf : FilterBlock 8) (key : Bytes) : Option Bool :=
  checkSalts (fun salt => do testBit bf.bins (← hashIndex sha1 e bf.m key salt)) bf.salts

/-- `bloomfilter_add`. -/
def bloomfilterAdd (bf : FilterBlock 8) (key : Bytes) : Option (FilterBlock 8) := do
  let bins ← bf.salts.foldlM
    (fun bins salt => do orBit bins (← hashIndex sha1 e bf.m key salt)) bf.bins
  return { bf with bins := bins, n := bf.n + 1 }

inductive MergeResult
  | error
  | saltsError
  | paramError
  | ok
deriving DecidableEq

/-- `bloomfilter_merge`; there may be no filter to merge. -/
def bloomfilterMerge (bf : FilterBlock 8) : Option (FilterBlock 8) → MergeResult × FilterBlock 8
  | none => (.error, bf)
  | some bfMerge =>
    if bf.m ≠ bfMerge.m ∨ bf.k ≠ bfMerge.k then (.paramError, bf)
    else if bf.salts ≠ bfMerge.salts then (.saltsError, bf)
    else (.ok, { bf with
      bins := List.zipWith (· ||| ·) bf.bins bfMerge.bins
      n := bf.n + bfMerge.n })

end Plain

section Counting

/-- `COUNTING_BLOOMFILTER_GET_FILTER(bf)[index]`. -/
def countingBin (bins : List (BitVec 16)) (index : BitVec 32) : Option (BitVec 16) :=
  if index.toInt < 0 then none else bins[index.toInt.toNat]?

def setCountingBin (bins : List (BitVec 16)) (index : BitVec 32) (v : BitVec 16) :
    List (BitVec 16) :=
  bins.set index.toInt.toNat v

/-- `counting_bloomfilter_check`. -/
def countingBloomfilterCheck (bf : FilterBlock 16) (key : Bytes) : Option Bool :=
  checkSalts (fun salt => do
    let bin ← countingBin bf.bins (← hashIndex sha1 e bf.m key salt)
    return bin != 0) bf.salts

/-- The bin of one salt, incremented. -/
def incrementBin (m : BitVec 32) (key : Bytes) (bins : List (BitVec 16)) (salt : BitVec 32) :
    Option (List (BitVec 16)) := do
  let index ← hashIndex sha1 e m key salt
  let bin ← countingBin bins index
  return setCountingBin bins index (bin + 1)

/-- `counting_bloomfilter_add`, which counts the object twice in `n`. -/
def countingBloomfilterAdd (bf : FilterBlock 16) (key : Bytes) : Option (FilterBlock 16) := do
  let bins ← bf.salts.foldlM (incrementBin sha1 e bf.m key) bf.bins
  return { bf with bins := bins, n := bf.n + 2 }

/-- The bin of one salt, decremented unless it is zero. -/
def decrementBin (m : BitVec 32) (key : Bytes) (s : List (BitVec 16) × BitVec 16)
    (salt : BitVec 32) : Option (List (BitVec 16) × BitVec 16) := do
  let index ← hashIndex sha1 e m key salt
  let bin ← countingBin s.1 index
  return if 0 < bin then (setCountingBin s.1 index (bin - 1), s.2 + 1) else s

/-- `counting_bloomfilter_remove`; `removed` is an `unsigned short`. -/
def countingBloomfilterRemove (bf : FilterBlock 16) (key : Bytes) : Option (FilterBlock 16) := do
  let (bins, removed) ← bf.salts.foldlM (decrementBin sha1 e bf.m key) (bf.bins, 0)
  return { bf with bins := bins, n := if 0 < removed then bf.n - 1 else bf.n }

end Counting

end Operations

section Index

theorem toInt_of_lt {index : BitVec 32} (h : index.toNat < 2 ^ 31) :
    index.toInt = index.toNat := by
  rw [BitVec.toInt_eq_toNat_cond]
  split_ifs <;> omega

theorem toInt_neg_of_le {index : BitVec 32} (h : 2 ^ 31 ≤ index.toNat) : index.toInt < 0 := by
  have hlt := index.isLt
  rw [BitVec.toInt_eq_toNat_cond]
  split_ifs <;> omega

theorem sizeIndex_of_lt {index : BitVec 32} (h : index.toNat < 2 ^ 31) :
    sizeIndex index = index.toNat := by
  rw [sizeIndex, BitVec.signExtend, toInt_of_lt h, BitVec.toNat_ofInt]
  omega

theorem le_sizeIndex {index : BitVec 32} (h : 2 ^ 31 ≤ index.toNat) :
    2 ^ 63 ≤ sizeIndex index := by
  have hneg := toInt_neg_of_le h
  have hlow := BitVec.le_toInt index
  rw [sizeIndex, BitVec.signExtend, BitVec.toNat_ofInt]
  omega

theorem and_bit_ne_zero (b : BitVec 8) {k : ℕ} (hk : k < 8) :
    (b &&& (1#8 <<< k) != 0) = b.getLsbD k := by
  rw [← BitVec.twoPow_eq, BitVec.and_twoPow]
  have hne : BitVec.twoPow 8 k ≠ 0#8 := by
    intro h
    have hbit := congrArg (fun x => x.getLsbD k) h
    simp [hk] at hbit
  cases b.getLsbD k <;> simp [hne]

variable {m : BitVec 32} {bins : List (BitVec 8)} (height : 8 ∣ m.toNat)
  (hbins : bins.length = m.toNat / 8) {index : BitVec 32} (hindex : index.toNat < m.toNat)
include hbins hindex height

theorem testBit_eq : testBit bins index =
    if index.toNat < 2 ^ 31 then some (Bloomfilter.getBit bins index.toNat) else none := by
  have hm := m.isLt
  unfold testBit
  split_ifs with h
  · have hlt : index.toNat / 8 < bins.length := by omega
    rw [sizeIndex_of_lt h, List.getElem?_eq_getElem hlt, Option.map_some,
      and_bit_ne_zero _ (Nat.mod_lt _ (by norm_num)), Bloomfilter.getBit,
      List.getD_eq_getElem _ _ hlt]
  · have hle := le_sizeIndex (Nat.le_of_not_lt h)
    rw [List.getElem?_eq_none (by omega), Option.map_none]

theorem orBit_eq : orBit bins index =
    if index.toNat < 2 ^ 31 then some (Bloomfilter.setBit bins index.toNat) else none := by
  have hm := m.isLt
  unfold orBit
  split_ifs with h h' h'
  · rw [sizeIndex_of_lt h', Bloomfilter.setBit]
  · have hle := le_sizeIndex (Nat.le_of_not_lt h')
    omega
  · rw [sizeIndex_of_lt h'] at h
    omega
  · rfl

end Index

section Salts

variable (sha1 : Bytes → Digest) (e : Endian)

/-- The bin of a key under a salt. -/
def position (m : BitVec 32) (key : Bytes) (salt : BitVec 32) : ℕ :=
  (xorDigest e (sha1 (key ++ store e 4 salt.toNat)).1 % m).toNat

/-- The division is defined, and its result fits an `int`. -/
def IndexFits (m : BitVec 32) (key : Bytes) (salt : BitVec 32) : Prop :=
  m ≠ 0 ∧ position sha1 e m key salt < 2 ^ 31

instance (m : BitVec 32) (key : Bytes) (salt : BitVec 32) :
    Decidable (IndexFits sha1 e m key salt) :=
  inferInstanceAs (Decidable (_ ∧ _))

variable {sha1 e}

theorem indexFits_of_le {m : BitVec 32} (hpos : 0 < m.toNat) (hm : m.toNat ≤ 2 ^ 31) (key : Bytes)
    (salt : BitVec 32) : IndexFits sha1 e m key salt := by
  constructor
  · rintro rfl
    simp at hpos
  · rw [position, BitVec.toNat_umod]
    exact lt_of_lt_of_le (Nat.mod_lt _ hpos) hm

theorem position_lt {m : BitVec 32} (hm : m ≠ 0) (key : Bytes) (salt : BitVec 32) :
    position sha1 e m key salt < m.toNat := by
  rw [position, BitVec.toNat_umod]
  apply Nat.mod_lt
  rw [Nat.pos_iff_ne_zero]
  intro h
  exact hm (BitVec.eq_of_toNat_eq h)

theorem IndexFits.position_lt {m : BitVec 32} {key : Bytes} {salt : BitVec 32}
    (h : IndexFits sha1 e m key salt) : position sha1 e m key salt < m.toNat :=
  Haggle.position_lt h.1 key salt

theorem checkSalts_eq_all {isSet : BitVec 32 → Option Bool} {test : BitVec 32 → Bool}
    {l : List (BitVec 32)} (h : ∀ salt ∈ l, isSet salt = some (test salt)) :
    checkSalts isSet l = some (l.all test) := by
  induction l with
  | nil => rfl
  | cons salt l ih =>
    rw [checkSalts, h salt (by simp), ih (fun s hs => h s (by simp [hs])), List.all_cons]
    cases test salt <;> rfl

/-- The loop ends when none of the salts that it comes to goes wrong. -/
theorem checkSalts_isSome_iff {isSet : BitVec 32 → Option Bool} {l : List (BitVec 32)} :
    (∃ r, checkSalts isSet l = some r) ↔ ∀ pre salt post, l = pre ++ salt :: post →
      (∀ s ∈ pre, isSet s = some true) → isSet salt ≠ none := by
  induction l with
  | nil => simp [checkSalts]
  | cons salt l ih =>
    rw [checkSalts]
    constructor
    · rintro ⟨r, hr⟩ pre s post heq hpre hnone
      cases pre with
      | nil =>
        obtain ⟨rfl, -⟩ := List.cons.inj heq
        rw [hnone] at hr
        cases hr
      | cons t pre =>
        obtain ⟨rfl, htail⟩ := List.cons.inj heq
        rw [hpre salt (by simp)] at hr
        exact ih.mp ⟨r, hr⟩ pre s post htail (fun u hu => hpre u (by simp [hu])) hnone
    · intro h
      cases hset : isSet salt with
      | none => exact absurd hset (h [] salt l rfl (by simp))
      | some b =>
        cases b with
        | false => exact ⟨false, rfl⟩
        | true =>
          apply ih.mpr
          intro pre s post heq hpre
          apply h (salt :: pre) s post (by rw [heq, List.cons_append])
          intro u hu
          rcases List.mem_cons.mp hu with rfl | hu
          · exact hset
          · exact hpre u hu

theorem checkSalts_eq_true {isSet : BitVec 32 → Option Bool} {l : List (BitVec 32)} :
    checkSalts isSet l = some true ↔ ∀ salt ∈ l, isSet salt = some true := by
  induction l with
  | nil => simp [checkSalts]
  | cons salt l ih =>
    rw [checkSalts, List.forall_mem_cons, ← ih]
    cases hset : isSet salt with
    | none => simp
    | some b => cases b <;> simp

variable {bf : FilterBlock 8} (height : 8 ∣ bf.m.toNat) (hbf : bf.Plain)
include height hbf

theorem testBit_hashIndex (key : Bytes) (salt : BitVec 32) :
    (do testBit bf.bins (← hashIndex sha1 e bf.m key salt)) =
      if IndexFits sha1 e bf.m key salt then
        some (Bloomfilter.getBit bf.bins (position sha1 e bf.m key salt))
      else none := by
  unfold hashIndex IndexFits
  by_cases hm : bf.m = 0
  · simp [hm]
  · simp only [Option.bind_eq_bind, hm, ne_eq, not_false_eq_true, true_and]
    exact testBit_eq height hbf.bins (position_lt hm key salt)

/-- A key is reported when each of its bits is set and none is out of reach. -/
theorem bloomfilterCheck_eq_true {key : Bytes} : bloomfilterCheck sha1 e bf key = some true ↔
    ∀ salt ∈ bf.salts, IndexFits sha1 e bf.m key salt ∧
      Bloomfilter.getBit bf.bins (position sha1 e bf.m key salt) = true := by
  rw [bloomfilterCheck, checkSalts_eq_true]
  apply forall₂_congr
  intro salt _
  rw [testBit_hashIndex height hbf]
  by_cases hfit : IndexFits sha1 e bf.m key salt
  · simp [hfit]
  · simp [hfit]

omit height hbf in
theorem orBit_hashIndex {m : BitVec 32} (height : 8 ∣ m.toNat) {bins : List (BitVec 8)}
    (hbins : bins.length = m.toNat / 8) (key : Bytes) (salt : BitVec 32) :
    (do orBit bins (← hashIndex sha1 e m key salt)) =
      if IndexFits sha1 e m key salt then
        some (Bloomfilter.setBit bins (position sha1 e m key salt))
      else none := by
  unfold hashIndex IndexFits
  by_cases hm : m = 0
  · simp [hm]
  · simp only [Option.bind_eq_bind, hm, ne_eq, not_false_eq_true, true_and]
    exact orBit_eq height hbins (position_lt hm key salt)

omit height hbf in
theorem foldlM_orBit {m : BitVec 32} (height : 8 ∣ m.toNat) (key : Bytes) (l : List (BitVec 32))
    {bins : List (BitVec 8)} (hbins : bins.length = m.toNat / 8) :
    l.foldlM (fun bins salt => do orBit bins (← hashIndex sha1 e m key salt)) bins =
      if ∀ salt ∈ l, IndexFits sha1 e m key salt then
        some ((l.map (position sha1 e m key)).foldl Bloomfilter.setBit bins)
      else none := by
  induction l generalizing bins with
  | nil => simp
  | cons salt l ih =>
    rw [List.foldlM_cons, orBit_hashIndex height hbins key salt]
    by_cases hfit : IndexFits sha1 e m key salt
    · have hlen : (Bloomfilter.setBit bins (position sha1 e m key salt)).length = m.toNat / 8 := by
        rw [Bloomfilter.length_setBit, hbins]
      simp only [Option.bind_eq_bind, List.forall_mem_cons, hfit, true_and, List.map_cons,
        List.foldl_cons]
      exact ih hlen
    · simp [hfit]

/-- A key is added when none of its bits is out of reach. -/
theorem bloomfilterAdd_eq (key : Bytes) : bloomfilterAdd sha1 e bf key =
    if ∀ salt ∈ bf.salts, IndexFits sha1 e bf.m key salt then
      some { bf with
        bins := (bf.salts.map (position sha1 e bf.m key)).foldl Bloomfilter.setBit bf.bins
        n := bf.n + 1 }
    else none := by
  rw [bloomfilterAdd, foldlM_orBit height key bf.salts hbf.bins]
  split_ifs <;> rfl

end Salts

end Haggle
