import Haggle.CountingFilter
import Haggle.DataObject
import Mathlib.Data.List.GetD

/-!
# Bloom filters

The filters of `utils/bloomfilter.c` and `utils/counting_bloomfilter.c` over data object
identifiers. A node shows its peers a plain filter, which is made from the counting one that the
data manager keeps.
-/

namespace Haggle

/-- `unsigned int` words of a digest, exclusive-ored; the bytes of a word are in host order. -/
def xorWords : Bytes → ℕ
  | a :: b :: c :: d :: l =>
    (a.toNat + 2 ^ 8 * b.toNat + 2 ^ 16 * c.toNat + 2 ^ 24 * d.toNat) ^^^ xorWords l
  | _ => 0

/-- The bin of a key under a salt. -/
def binIndex (sha1 : Bytes → Digest) (m : ℕ) (key : Digest) (salt : Bytes) : ℕ :=
  xorWords (sha1 (key.1 ++ salt)).1 % m

structure Bloomfilter where
  m : ℕ
  n : ℕ
  salts : List Bytes
  bins : List (BitVec 8)

structure CountingBloomfilter where
  m : ℕ
  n : ℕ
  salts : List Bytes
  bins : List ℕ

/-- What a constructor makes of its error rate and capacity: the number of bins is a positive
multiple of eight, and there are salts. -/
structure FilterShape where
  eighths : ℕ
  salts : List Bytes
  pos : 0 < eighths

namespace Bloomfilter

variable (sha1 : Bytes → Digest)

def new (s : FilterShape) : Bloomfilter :=
  ⟨8 * s.eighths, 0, s.salts, List.replicate s.eighths 0⟩

def indices (bf : Bloomfilter) (key : Digest) : List ℕ := bf.salts.map (binIndex sha1 bf.m key)

def getBit (bins : List (BitVec 8)) (i : ℕ) : Bool := (bins.getD (i / 8) 0).getLsbD (i % 8)

def setBit (bins : List (BitVec 8)) (i : ℕ) : List (BitVec 8) :=
  bins.modify (i / 8) (fun b => b ||| (1#8 <<< (i % 8)))

/-- `BF_OP_CHECK`. -/
def has (bf : Bloomfilter) (key : Digest) : Bool := (bf.indices sha1 key).all (getBit bf.bins)

/-- `BF_OP_ADD`. -/
def add (bf : Bloomfilter) (key : Digest) : Bloomfilter :=
  { bf with n := bf.n + 1, bins := (bf.indices sha1 key).foldl setBit bf.bins }

/-- There is a bin for every index. -/
structure WF (bf : Bloomfilter) : Prop where
  pos : 0 < bf.m
  bins : bf.m = 8 * bf.bins.length

variable {sha1}

theorem length_setBit (bins : List (BitVec 8)) (i : ℕ) : (setBit bins i).length = bins.length :=
  List.length_modify _ _ _

theorem getLsbD_one_shiftLeft {k : ℕ} (hk : k < 8) (i : ℕ) :
    (1#8 <<< i).getLsbD k = decide (k = i) := by
  rw [BitVec.getLsbD_shiftLeft, BitVec.getLsbD_one, Bool.eq_iff_iff]
  simp only [Bool.and_eq_true, Bool.not_eq_true', decide_eq_true_eq, decide_eq_false_iff_not]
  omega

theorem getBit_setBit (bins : List (BitVec 8)) {i : ℕ} (hi : i < 8 * bins.length) (j : ℕ) :
    getBit (setBit bins i) j = (decide (i = j) || getBit bins j) := by
  unfold getBit setBit
  rw [List.getD_eq_getElem?_getD, List.getElem?_modify, List.getD_eq_getElem?_getD]
  by_cases hd : i / 8 = j / 8
  · have hlt : j / 8 < bins.length := by omega
    have hij : decide (i = j) = decide (j % 8 = i % 8) := by
      rw [decide_eq_decide]
      omega
    rw [List.getElem?_eq_getElem hlt, hij]
    simp only [hd, if_true, Option.map_eq_map, Option.map_some, Option.getD_some, BitVec.getLsbD_or,
      getLsbD_one_shiftLeft (Nat.mod_lt j (by norm_num : 0 < 8))]
    rw [Bool.or_comm]
  · have hij : i ≠ j := fun h => hd (by rw [h])
    simp [hd, hij]

theorem getBit_foldl_setBit (l : List ℕ) {bins : List (BitVec 8)}
    (hl : ∀ i ∈ l, i < 8 * bins.length) (j : ℕ) :
    getBit (l.foldl setBit bins) j = (decide (j ∈ l) || getBit bins j) := by
  induction l generalizing bins with
  | nil => simp
  | cons i l ih =>
    have hi : i < 8 * bins.length := hl i (by simp)
    rw [List.foldl_cons, ih (fun k hk => by rw [length_setBit]; exact hl k (by simp [hk])),
      getBit_setBit bins hi]
    by_cases hij : j = i
    · simp [hij]
    · simp [hij, Ne.symm hij]

theorem WF.index_lt {bf : Bloomfilter} (hbf : bf.WF) {key : Digest} {i : ℕ}
    (hi : i ∈ bf.indices sha1 key) : i < 8 * bf.bins.length := by
  obtain ⟨s, -, rfl⟩ := List.mem_map.mp hi
  rw [← hbf.bins]
  exact Nat.mod_lt _ hbf.pos

theorem has_add_self {bf : Bloomfilter} (hbf : bf.WF) (key : Digest) :
    (bf.add sha1 key).has sha1 key = true := by
  rw [has, List.all_eq_true]
  intro i hi
  have hi' : i ∈ bf.indices sha1 key := hi
  rw [add, getBit_foldl_setBit _ (fun k hk => hbf.index_lt hk)]
  simp [hi']

theorem wf_new (s : FilterShape) : (new s).WF where
  pos := Nat.mul_pos (by norm_num) s.pos
  bins := by simp [new]

end Bloomfilter

namespace CountingBloomfilter

variable (sha1 : Bytes → Digest)

/-- The values a bin can have. -/
def binValues : ℕ := 2 ^ 16

def new (s : FilterShape) : CountingBloomfilter :=
  ⟨8 * s.eighths, 0, s.salts, List.replicate (8 * s.eighths) 0⟩

def indices (bf : CountingBloomfilter) (key : Digest) : List ℕ :=
  bf.salts.map (binIndex sha1 bf.m key)

/-- `COUNTING_BF_OP_CHECK`. -/
def has (bf : CountingBloomfilter) (key : Digest) : Bool :=
  CountingFilter.hasAll bf.bins (bf.indices sha1 key)

/-- `COUNTING_BF_OP_ADD`, which counts the object twice in `n`. -/
def add (bf : CountingBloomfilter) (key : Digest) : CountingBloomfilter :=
  { bf with
    n := bf.n + 2
    bins := CountingFilter.addAll binValues bf.bins (bf.indices sha1 key) }

/-- `COUNTING_BF_OP_REMOVE`: bins that are zero stay so, and nothing is checked. -/
def remove (bf : CountingBloomfilter) (key : Digest) : CountingBloomfilter :=
  { bf with
    n := if bf.bins = CountingFilter.removeAll bf.bins (bf.indices sha1 key) then bf.n else bf.n - 1
    bins := CountingFilter.removeAll bf.bins (bf.indices sha1 key) }

/-- The byte of the plain filter that eight bins make. -/
def packBins (bins : List ℕ) (j : ℕ) : BitVec 8 :=
  (List.range 8).foldl
    (fun b k => if bins.getD (8 * j + k) 0 ≠ 0 then b ||| (1#8 <<< k) else b) 0

/-- `counting_bloomfilter_to_noncounting`. -/
def toNoncounting (bf : CountingBloomfilter) : Bloomfilter :=
  ⟨bf.m, bf.n, bf.salts, (List.range (bf.m / 8)).map (packBins bf.bins)⟩

structure WF (bf : CountingBloomfilter) : Prop where
  pos : 0 < bf.m
  eight : 8 ∣ bf.m
  bins : bf.bins.length = bf.m

theorem wf_new (s : FilterShape) : (new s).WF where
  pos := Nat.mul_pos (by norm_num) s.pos
  eight := ⟨s.eighths, rfl⟩
  bins := by simp [new]

variable {sha1}

theorem wf_add {bf : CountingBloomfilter} (hbf : bf.WF) (key : Digest) : (bf.add sha1 key).WF :=
  ⟨hbf.pos, hbf.eight, by simp [add, hbf.bins]⟩

theorem wf_remove {bf : CountingBloomfilter} (hbf : bf.WF) (key : Digest) :
    (bf.remove sha1 key).WF :=
  ⟨hbf.pos, hbf.eight, by simp [remove, hbf.bins]⟩

theorem WF.index_lt {bf : CountingBloomfilter} (hbf : bf.WF) {key : Digest} {i : ℕ}
    (hi : i ∈ bf.indices sha1 key) : i < bf.bins.length := by
  obtain ⟨s, -, rfl⟩ := List.mem_map.mp hi
  rw [hbf.bins]
  exact Nat.mod_lt _ hbf.pos

theorem getLsbD_packBins (bins : List ℕ) (j : ℕ) {k : ℕ} (hk : k < 8) :
    (packBins bins j).getLsbD k = decide (bins.getD (8 * j + k) 0 ≠ 0) := by
  have hbit : ∀ (l : List ℕ) (b : BitVec 8), (l.foldl
      (fun b k => if bins.getD (8 * j + k) 0 ≠ 0 then b ||| (1#8 <<< k) else b) b).getLsbD k =
        (b.getLsbD k || (decide (k ∈ l) && decide (bins.getD (8 * j + k) 0 ≠ 0))) := by
    intro l
    induction l with
    | nil => simp
    | cons i l ih =>
      intro b
      rw [List.foldl_cons, ih]
      by_cases hki : k = i
      · subst hki
        by_cases hz : bins.getD (8 * j + k) 0 = 0
        · simp only [hz, ne_eq, not_true, if_false, decide_false, Bool.and_false]
        · simp only [hz, ne_eq, not_false_iff, if_true, BitVec.getLsbD_or,
            Bloomfilter.getLsbD_one_shiftLeft hk, decide_true, Bool.or_true, Bool.true_or,
            List.mem_cons, true_or, Bool.and_true]
      · have hmem : decide (k ∈ i :: l) = decide (k ∈ l) := by simp [hki]
        rw [hmem]
        split_ifs
        · rw [BitVec.getLsbD_or, Bloomfilter.getLsbD_one_shiftLeft hk, decide_eq_false hki,
            Bool.or_false]
        · rfl
  rw [packBins, hbit]
  simp [hk]

theorem has_toNoncounting {bf : CountingBloomfilter} (hbf : bf.WF) (key : Digest) :
    bf.toNoncounting.has sha1 key = bf.has sha1 key := by
  unfold Bloomfilter.has has CountingFilter.hasAll
  have hind : bf.toNoncounting.indices sha1 key = bf.indices sha1 key := rfl
  rw [hind, Bool.eq_iff_iff, List.all_eq_true, List.all_eq_true]
  refine forall₂_congr fun i hi => ?_
  have hlt := hbf.index_lt hi
  obtain ⟨q, hq⟩ := hbf.eight
  rw [hbf.bins] at hlt
  have hbit : Bloomfilter.getBit bf.toNoncounting.bins i = decide (bf.bins.getD i 0 ≠ 0) := by
    unfold Bloomfilter.getBit toNoncounting
    have hlen : i / 8 < bf.m / 8 := by omega
    rw [List.getD_eq_getElem?_getD, List.getElem?_map, List.getElem?_range hlen, Option.map_some,
      Option.getD_some, getLsbD_packBins _ _ (Nat.mod_lt _ (by norm_num)), Nat.div_add_mod]
  rw [hbit]

end CountingBloomfilter

namespace Sample

/-- Eight bins and one salt. -/
def shape : FilterShape := ⟨1, [[0, 0, 0, 0]], by norm_num⟩

/-- A hash that gives back its first bytes. -/
def firstBytes (l : Bytes) : Digest :=
  ⟨(l ++ List.replicate 20 0).take 20, by simp⟩

end Sample
end Haggle
