import Haggle.FilterMerge
import Haggle.FilterCounting

/-!
# The published form of a counting filter

`counting_bloomfilter_to_noncounting` packs the bins of a counting filter into bits, eight to a
byte. A key is reported by the packed filter, and by what a peer makes of its text, when the
counting filter reports it.
-/

namespace Haggle

open ByteOrder

/-- One turn of the loop over the bins: `j` is the byte that is being filled. -/
def packStep (bins : List (BitVec 16)) (s : List (BitVec 8) × ℕ) (i : ℕ) : List (BitVec 8) × ℕ :=
  let bitsToShift := i % 8
  (if bins.getD i 0 ≠ 0 then s.1.modify s.2 (· ||| (1#8 <<< bitsToShift)) else s.1,
    if bitsToShift = 7 then s.2 + 1 else s.2)

/-- `counting_bloomfilter_to_noncounting`. -/
def countingBloomfilterToNoncounting (bf : FilterBlock 16) : FilterBlock 8 :=
  { m := bf.m
    n := bf.n
    salts := bf.salts
    bins := ((List.range bf.m.toNat).foldl (packStep bf.bins)
      (List.replicate (bf.m.toNat / 8) 0, 0)).1 }

/-- `counting_bloomfilter_to_noncounting_base64`. -/
def countingBloomfilterToNoncountingBase64 (e : Endian) (junk : ℕ → UInt8) (bf : FilterBlock 16) :
    Option Bytes :=
  bloomfilterToBase64 e junk ((countingBloomfilterToNoncounting bf).image e)

namespace FilterBlock

theorem getBit_replicate (len i : ℕ) : Bloomfilter.getBit (List.replicate len 0) i = false := by
  unfold Bloomfilter.getBit
  by_cases hi : i / 8 < len
  · rw [List.getD_eq_getElem _ _ (by simpa using hi), List.getElem_replicate]
    simp
  · rw [List.getD_eq_default _ _ (by simpa using hi)]
    simp

theorem foldl_packStep (bins : List (BitVec 16)) {len t : ℕ} (ht : t ≤ 8 * len) :
    let s := (List.range t).foldl (packStep bins) (List.replicate len 0, 0)
    s.1.length = len ∧ s.2 = t / 8 ∧
      ∀ i, Bloomfilter.getBit s.1 i = decide (i < t ∧ bins.getD i 0 ≠ 0) := by
  induction t with
  | zero =>
    refine ⟨List.length_replicate, rfl, fun i => ?_⟩
    simp only [List.range_zero, List.foldl_nil]
    rw [getBit_replicate]
    simp
  | succ t ih =>
    obtain ⟨hlen, hj, hbits⟩ := ih (by omega)
    rw [List.range_succ, List.foldl_append, List.foldl_cons, List.foldl_nil]
    generalize (List.range t).foldl (packStep bins) (List.replicate len 0, 0) = s at hlen hj hbits
    have hset : s.1.modify s.2 (· ||| (1#8 <<< (t % 8))) = Bloomfilter.setBit s.1 t := by
      rw [hj, Bloomfilter.setBit]
    simp only [packStep, hset]
    refine ⟨?_, ?_, fun i => ?_⟩
    · split_ifs
      · rw [Bloomfilter.length_setBit, hlen]
      · exact hlen
    · split_ifs with h <;> omega
    · have hlast : i < t + 1 ↔ i < t ∨ t = i := by omega
      split_ifs with hbin
      · rw [Bloomfilter.getBit_setBit s.1 (by omega), hbits, ← Bool.decide_or, decide_eq_decide,
          hlast]
        constructor
        · rintro (rfl | h)
          · exact ⟨.inr rfl, hbin⟩
          · exact ⟨.inl h.1, h.2⟩
        · rintro ⟨h | rfl, h'⟩
          · exact .inr ⟨h, h'⟩
          · exact .inl rfl
      · rw [hbits, decide_eq_decide, hlast]
        constructor
        · rintro ⟨h, h'⟩
          exact ⟨.inl h, h'⟩
        · rintro ⟨h | rfl, h'⟩
          · exact ⟨h, h'⟩
          · exact absurd h' hbin

section Published

variable {sha1 : Bytes → Digest} {e : Endian} {bf : FilterBlock 16} (height : 8 ∣ bf.m.toNat)
  (hbf : bf.Counting)
include height

theorem getBit_toNoncounting (i : ℕ) :
    Bloomfilter.getBit (countingBloomfilterToNoncounting bf).bins i =
      decide (i < bf.m.toNat ∧ bf.bins.getD i 0 ≠ 0) :=
  (foldl_packStep bf.bins (Nat.mul_div_cancel' height).ge).2.2 i

include hbf

theorem packed_toNoncounting : (countingBloomfilterToNoncounting bf).Packed where
  salts := hbf.salts
  bins := (foldl_packStep bf.bins (Nat.mul_div_cancel' height).ge).1
  eight := height

/-- A bit of the packed filter is read where the bin of the counting filter is. -/
theorem testBit_toNoncounting (key : Bytes) (salt : BitVec 32) :
    (do testBit (countingBloomfilterToNoncounting bf).bins (← hashIndex sha1 e bf.m key salt)) =
      (do
        let bin ← countingBin bf.bins (← hashIndex sha1 e bf.m key salt)
        return bin != 0) := by
  have hp := packed_toNoncounting height hbf
  have htest := @testBit_hashIndex sha1 e _ hp.eight hp.toPlain key salt
  have hm : (countingBloomfilterToNoncounting bf).m = bf.m := rfl
  rw [hm] at htest
  rw [htest, countingBin_ne_zero hbf.bins]
  by_cases hfit : IndexFits sha1 e bf.m key salt
  · have hlt := hfit.position_lt
    rw [if_pos hfit, if_pos hfit, getBit_toNoncounting height, getD_counts]
    congr 1
    rw [decide_eq_decide, ne_eq, BitVec.toNat_eq]
    exact and_iff_right hlt
  · rw [if_neg hfit, if_neg hfit]

theorem check_toNoncounting (key : Bytes) :
    bloomfilterCheck sha1 e (countingBloomfilterToNoncounting bf) key =
      countingBloomfilterCheck sha1 e bf key := by
  rw [bloomfilterCheck, countingBloomfilterCheck]
  congr 1
  funext salt
  exact testBit_toNoncounting height hbf key salt

variable (sha1 e bf) in
/-- A check comes to no salt with an index that does not fit an `int`: it stops at the first bin
that is zero. -/
def ReachedFit (key : Bytes) : Prop :=
  ∀ pre salt post, bf.salts = pre ++ salt :: post →
    (∀ s ∈ pre, IndexFits sha1 e bf.m key s ∧
      bf.bins.getD (position sha1 e bf.m key s) 0 ≠ 0) → IndexFits sha1 e bf.m key salt

omit height in
theorem countingCheck_isSome_iff (key : Bytes) :
    (∃ r, countingBloomfilterCheck sha1 e bf key = some r) ↔ bf.ReachedFit sha1 e key := by
  have htrue : ∀ s, (do
      let bin ← countingBin bf.bins (← hashIndex sha1 e bf.m key s)
      return bin != 0) = some true ↔ IndexFits sha1 e bf.m key s ∧
        bf.bins.getD (position sha1 e bf.m key s) 0 ≠ 0 := by
    intro s
    rw [countingBin_ne_zero hbf.bins, getD_counts]
    by_cases hfit : IndexFits sha1 e bf.m key s
    · simp [hfit, BitVec.toNat_eq]
    · simp [hfit]
  have hnone : ∀ s, (do
      let bin ← countingBin bf.bins (← hashIndex sha1 e bf.m key s)
      return bin != 0) ≠ none ↔ IndexFits sha1 e bf.m key s := by
    intro s
    rw [countingBin_ne_zero hbf.bins]
    by_cases hfit : IndexFits sha1 e bf.m key s <;> simp [hfit]
  rw [countingBloomfilterCheck, checkSalts_isSome_iff]
  simp only [htrue, hnone]
  rfl

/-- The counting filter, its published form and what becomes of the text of that form all return the
same for a key, exactly when the check comes to no index that does not fit an `int` and the text is
not too long. -/
theorem published_agrees_iff (junk : ℕ → UInt8) (key : Bytes) :
    (∃ r, countingBloomfilterCheck sha1 e bf key = some r ∧
        bloomfilterCheck sha1 e (countingBloomfilterToNoncounting bf) key = some r ∧
        ∃ mem b', (countingBloomfilterToNoncountingBase64 e junk bf).bind
            (base64ToBloomfilter e) = some mem ∧
          read e 8 (· / 8) mem = some (bf.k, b') ∧ bloomfilterCheck sha1 e b' key = some r) ↔
      bf.ReachedFit sha1 e key ∧ (countingBloomfilterToNoncounting bf).TextFits := by
  have hp := packed_toNoncounting height hbf
  have htrip := base64ToBloomfilter_toBase64 e e junk hp.toPlain
  have hread : read e 8 (· / 8) ((countingBloomfilterToNoncounting bf).image e) =
      some (bf.k, countingBloomfilterToNoncounting bf) := read_image hp.salts e rfl hp.bins
  have hcheck : bloomfilterCheck sha1 e (countingBloomfilterToNoncounting bf) key =
      countingBloomfilterCheck sha1 e bf key := check_toNoncounting height hbf key
  rw [← countingCheck_isSome_iff hbf]
  constructor
  · rintro ⟨r, hr, -, mem, b', hmem, -⟩
    refine ⟨⟨r, hr⟩, ?_⟩
    by_contra hfit
    rw [countingBloomfilterToNoncountingBase64, htrip, if_neg hfit] at hmem
    cases hmem
  · rintro ⟨⟨r, hr⟩, hfit⟩
    rw [hr] at hcheck
    refine ⟨r, hr, hcheck, _, _, ?_, hread, hcheck⟩
    rw [countingBloomfilterToNoncountingBase64, htrip, if_pos hfit]

end Published

end FilterBlock

section Identifiers

variable {sha1 : Bytes → Digest}

/-- What the block of a host with its lowest byte first holds for the data manager. -/
def FilterBlock.toBloomfilter (b : FilterBlock 8) : Bloomfilter :=
  ⟨b.m.toNat, b.n.toNat, b.salts.map fun salt => store .little 4 salt.toNat, b.bins⟩

def FilterBlock.toCountingBloomfilter (b : FilterBlock 16) : CountingBloomfilter :=
  ⟨b.m.toNat, b.n.toNat, b.salts.map fun salt => store .little 4 salt.toNat, counts b.bins⟩

theorem toNat_xorDigest (l : Bytes) : (xorDigest .little l).toNat = xorWords l := by
  induction l using xorWords.induct with
  | case1 a b c d l ih =>
    have ha := a.toNat_lt
    have hb := b.toNat_lt
    have hc := c.toNat_lt
    have hd := d.toNat_lt
    have hload : load .little [a, b, c, d] =
        a.toNat + 2 ^ 8 * b.toNat + 2 ^ 16 * c.toNat + 2 ^ 24 * d.toNat := by
      simp only [load, ofLowBytes]
      omega
    rw [xorDigest, xorWords, BitVec.toNat_xor, ih, BitVec.toNat_ofNat, hload,
      Nat.mod_eq_of_lt (by omega)]
  | case2 l h =>
    rw [xorDigest, xorWords]
    · rfl
    · exact h
    · exact h

theorem position_eq_binIndex (m : BitVec 32) (key : Digest) (salt : BitVec 32) :
    position sha1 .little m key.1 salt =
      binIndex sha1 m.toNat key (store .little 4 salt.toNat) := by
  rw [position, BitVec.toNat_umod, toNat_xorDigest, binIndex]

/-- The check of a data object identifier is that of the data manager's filter. -/
theorem bloomfilterCheck_eq_has {b : FilterBlock 8} (hb : b.Packed) {key : Digest}
    (hfit : ∀ salt ∈ b.salts, IndexFits sha1 .little b.m key.1 salt) :
    bloomfilterCheck sha1 .little b key.1 = some (b.toBloomfilter.has sha1 key) := by
  have hset : ∀ salt ∈ b.salts, (do testBit b.bins (← hashIndex sha1 .little b.m key.1 salt)) =
      some (Bloomfilter.getBit b.bins (position sha1 .little b.m key.1 salt)) := by
    intro salt hsalt
    rw [testBit_hashIndex hb.eight hb.toPlain, if_pos (hfit salt hsalt)]
  rw [bloomfilterCheck, checkSalts_eq_all hset, Bloomfilter.has, Bloomfilter.indices,
    FilterBlock.toBloomfilter, List.map_map, List.all_map]
  simp only [position_eq_binIndex, Function.comp_def]

theorem countingBloomfilterCheck_eq_has {b : FilterBlock 16} (hb : b.Counting) {key : Digest}
    (hfit : ∀ salt ∈ b.salts, IndexFits sha1 .little b.m key.1 salt) :
    countingBloomfilterCheck sha1 .little b key.1 =
      some (b.toCountingBloomfilter.has sha1 key) := by
  have hpos : position sha1 .little b.m key.1 =
      fun salt => binIndex sha1 b.m.toNat key (store .little 4 salt.toNat) := by
    funext salt
    exact position_eq_binIndex b.m key salt
  rw [FilterBlock.countingBloomfilterCheck_eq hb hfit, hpos, CountingBloomfilter.has,
    CountingBloomfilter.indices, FilterBlock.toCountingBloomfilter, List.map_map]
  rfl

end Identifiers

namespace Sample

theorem eight_countingBlock : 8 ∣ countingBlock.m.toNat := by decide

/-- A key on the filter of eight bins. -/
theorem published_countingBlock : countingBlock.Counting ∧
    ∃ r, countingBloomfilterCheck firstBytes .little countingBlock [4] = some r ∧
      bloomfilterCheck firstBytes .little (countingBloomfilterToNoncounting countingBlock) [4] =
        some r ∧
      ∃ mem b', (countingBloomfilterToNoncountingBase64 .little (fun _ => 7) countingBlock).bind
          (base64ToBloomfilter .little) = some mem ∧
        FilterBlock.read .little 8 (· / 8) mem = some (2, b') ∧
          bloomfilterCheck firstBytes .little b' [4] = some r := by
  refine ⟨counting_countingBlock, ?_⟩
  apply (FilterBlock.published_agrees_iff eight_countingBlock counting_countingBlock _ _).mpr
  constructor
  · intro pre salt post _ _
    exact indexFits_of_le (by decide) (by decide) _ salt
  · decide

/-- 2³¹ + 8 counters under one salt. -/
def wideCounting : FilterBlock 16 :=
  ⟨BitVec.ofNat 32 (2 ^ 31 + 8), 0, [0], List.replicate (2 ^ 31 + 8) 0⟩

theorem counting_wideCounting : wideCounting.Counting where
  salts := by
    rw [wideCounting, List.length_singleton]
    norm_num
  bins := by
    rw [wideCounting, List.length_replicate]
    rfl

/-- The index of the key is negative, and the check reads what is before the filter. -/
theorem published_wideCounting : wideCounting.Counting ∧ 8 ∣ wideCounting.m.toNat ∧
    ¬ ∃ r, countingBloomfilterCheck firstBytes .little wideCounting [0, 0, 0, 128] = some r ∧
      bloomfilterCheck firstBytes .little (countingBloomfilterToNoncounting wideCounting)
        [0, 0, 0, 128] = some r := by
  refine ⟨counting_wideCounting, by rw [wideCounting]; decide, ?_⟩
  rintro ⟨r, hr, -⟩
  have hfit := (FilterBlock.countingCheck_isSome_iff counting_wideCounting _).mp ⟨r, hr⟩
  have hindex := hfit [] 0 [] (by rw [wideCounting, List.nil_append]) (by simp)
  exact not_indexFits_wideBlock hindex

end Sample
end Haggle
