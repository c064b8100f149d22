import Haggle.FilterOperation
import Mathlib.Logic.Function.Basic

/-!
# Filters that are added to and merged

A family of plain filters, under any sequence of `bloomfilter_add` and `bloomfilter_merge`. Bits are
only ever set, and salts and sizes stay, so what a filter reports once it reports from then on.
-/

namespace Haggle

open ByteOrder

namespace FilterBlock

/-- The filter `b'` has the bins and the salts of `b`, and every bit that `b` has. -/
structure Extends (b b' : FilterBlock 8) : Prop where
  m : b'.m = b.m
  salts : b'.salts = b.salts
  bins : b'.bins.length = b.bins.length
  bits : ∀ i, Bloomfilter.getBit b.bins i = true → Bloomfilter.getBit b'.bins i = true

/-- A plain filter whose size is a multiple of eight. -/
structure Packed (b : FilterBlock 8) : Prop extends b.Plain where
  eight : 8 ∣ b.m.toNat

namespace Extends

variable {b b' b'' : FilterBlock 8}

theorem refl (b : FilterBlock 8) : b.Extends b := ⟨rfl, rfl, rfl, fun _ h => h⟩

theorem trans (h : b.Extends b') (h' : b'.Extends b'') : b.Extends b'' where
  m := h'.m.trans h.m
  salts := h'.salts.trans h.salts
  bins := h'.bins.trans h.bins
  bits i hi := h'.bits i (h.bits i hi)

theorem packed (h : b.Extends b') (hb : b.Packed) : b'.Packed where
  salts := by
    rw [h.salts]
    exact hb.salts
  bins := by
    rw [h.bins, h.m]
    exact hb.bins
  eight := by
    rw [h.m]
    exact hb.eight

variable {sha1 : Bytes → Digest} {e : Endian}

/-- What the smaller filter reports, the larger one reports. -/
theorem check (h : b.Extends b') (hb : b.Packed) {key : Bytes}
    (hkey : bloomfilterCheck sha1 e b key = some true) :
    bloomfilterCheck sha1 e b' key = some true := by
  have hb' := h.packed hb
  rw [bloomfilterCheck_eq_true hb.eight hb.toPlain] at hkey
  rw [bloomfilterCheck_eq_true hb'.eight hb'.toPlain, h.m, h.salts]
  intro salt hsalt
  obtain ⟨hfit, hbit⟩ := hkey salt hsalt
  exact ⟨hfit, h.bits _ hbit⟩

end Extends

section Steps

variable {sha1 : Bytes → Digest} {e : Endian} {b b' : FilterBlock 8}

theorem Packed.position_lt (hb : b.Packed) {key : Bytes} {i : ℕ}
    (hfit : ∀ salt ∈ b.salts, IndexFits sha1 e b.m key salt)
    (hi : i ∈ b.salts.map (position sha1 e b.m key)) : i < 8 * b.bins.length := by
  obtain ⟨salt, hsalt, rfl⟩ := List.mem_map.mp hi
  have hlt := (hfit salt hsalt).position_lt
  have height := hb.eight
  rw [hb.bins]
  omega

theorem getBit_add (hb : b.Packed) {key : Bytes} (hadd : bloomfilterAdd sha1 e b key = some b')
    (i : ℕ) : Bloomfilter.getBit b'.bins i =
      (decide (i ∈ b.salts.map (position sha1 e b.m key)) || Bloomfilter.getBit b.bins i) := by
  rw [bloomfilterAdd_eq hb.eight hb.toPlain] at hadd
  split_ifs at hadd with hfit
  obtain rfl := Option.some.inj hadd
  exact Bloomfilter.getBit_foldl_setBit _ (fun j hj => hb.position_lt hfit hj) i

theorem length_foldl_setBit (l : List ℕ) (bins : List (BitVec 8)) :
    (l.foldl Bloomfilter.setBit bins).length = bins.length := by
  induction l generalizing bins with
  | nil => rfl
  | cons i l ih => rw [List.foldl_cons, ih, Bloomfilter.length_setBit]

theorem extends_add (hb : b.Packed) {key : Bytes} (hadd : bloomfilterAdd sha1 e b key = some b') :
    b.Extends b' := by
  have hbits := getBit_add hb hadd
  rw [bloomfilterAdd_eq hb.eight hb.toPlain] at hadd
  split_ifs at hadd with hfit
  obtain rfl := Option.some.inj hadd
  constructor
  · rfl
  · rfl
  · exact length_foldl_setBit _ _
  · intro i hi
    rw [hbits i, hi, Bool.or_true]

theorem check_add (hb : b.Packed) {key : Bytes} (hadd : bloomfilterAdd sha1 e b key = some b') :
    bloomfilterCheck sha1 e b' key = some true := by
  have hext := extends_add hb hadd
  have hb' := hext.packed hb
  have hbits := getBit_add hb hadd
  rw [bloomfilterAdd_eq hb.eight hb.toPlain] at hadd
  split_ifs at hadd with hfit
  rw [bloomfilterCheck_eq_true hb'.eight hb'.toPlain, hext.m, hext.salts]
  intro salt hsalt
  have hmem := List.mem_map_of_mem (f := position sha1 e b.m key) hsalt
  exact ⟨hfit salt hsalt, by rw [hbits, decide_eq_true hmem, Bool.true_or]⟩

theorem getBit_zipWith {bins bins' : List (BitVec 8)} (hlen : bins.length = bins'.length) (i : ℕ) :
    Bloomfilter.getBit (List.zipWith (· ||| ·) bins bins') i =
      (Bloomfilter.getBit bins i || Bloomfilter.getBit bins' i) := by
  unfold Bloomfilter.getBit
  by_cases hi : i / 8 < bins.length
  · have hi' : i / 8 < bins'.length := by omega
    have hz : i / 8 < (List.zipWith (· ||| ·) bins bins').length := by
      rw [List.length_zipWith]
      omega
    rw [List.getD_eq_getElem _ _ hi, List.getD_eq_getElem _ _ hi', List.getD_eq_getElem _ _ hz,
      List.getElem_zipWith, BitVec.getLsbD_or]
  · have hz : (List.zipWith (· ||| ·) bins bins').length ≤ i / 8 := by
      rw [List.length_zipWith]
      omega
    rw [List.getD_eq_default _ _ hz, List.getD_eq_default _ _ (by omega),
      List.getD_eq_default _ _ (by omega)]
    simp

/-- What a merge does: nothing on an error, and the union of the bits otherwise. -/
theorem merge_cases (b : FilterBlock 8) (c : Option (FilterBlock 8)) :
    ((bloomfilterMerge b c).1 ≠ .ok ∧ (bloomfilterMerge b c).2 = b) ∨
      ∃ b', c = some b' ∧ b.m = b'.m ∧ b.salts = b'.salts ∧
        bloomfilterMerge b c = (.ok, { b with
          bins := List.zipWith (· ||| ·) b.bins b'.bins
          n := b.n + b'.n }) := by
  cases c with
  | none => exact .inl ⟨by simp [bloomfilterMerge], rfl⟩
  | some b' =>
    by_cases hpar : b.m ≠ b'.m ∨ b.k ≠ b'.k
    · left
      simp [bloomfilterMerge, hpar]
    · by_cases hsalts : b.salts ≠ b'.salts
      · left
        simp [bloomfilterMerge, hpar, hsalts]
      · right
        have hm : b.m = b'.m := not_not.mp fun h => hpar (.inl h)
        refine ⟨b', rfl, hm, not_not.mp hsalts, ?_⟩
        simp [bloomfilterMerge, hpar, hsalts]

theorem extends_merge (hb : b.Packed) {c : Option (FilterBlock 8)} (hc : ∀ b' ∈ c, b'.Packed) :
    b.Extends (bloomfilterMerge b c).2 := by
  obtain ⟨-, heq⟩ | ⟨b', rfl, hm, -, heq⟩ := merge_cases b c
  · rw [heq]
    exact .refl b
  · have hlen : b.bins.length = b'.bins.length := by
      rw [hb.bins, (hc b' rfl).bins, hm]
    rw [heq]
    constructor
    · rfl
    · rfl
    · simp [hlen]
    · intro i hi
      rw [getBit_zipWith hlen, hi, Bool.true_or]

/-- A key that the other filter reports is reported after a merge without an error. -/
theorem check_merge (hb : b.Packed) (hb' : b'.Packed) {key : Bytes}
    (hok : (bloomfilterMerge b (some b')).1 = .ok)
    (hkey : bloomfilterCheck sha1 e b' key = some true) :
    bloomfilterCheck sha1 e (bloomfilterMerge b (some b')).2 key = some true := by
  obtain ⟨hne, -⟩ | ⟨c, hc, hm, hsalts, heq⟩ := merge_cases b (some b')
  · exact absurd hok hne
  · obtain rfl := Option.some.inj hc
    have hlen : b.bins.length = b'.bins.length := by rw [hb.bins, hb'.bins, hm]
    have hext : b'.Extends (bloomfilterMerge b (some b')).2 := by
      rw [heq]
      constructor
      · exact hm
      · exact hsalts
      · simp [hlen]
      · intro i hi
        rw [getBit_zipWith hlen, hi, Bool.or_true]
    exact hext.check hb' hkey

end Steps

end FilterBlock

section Runs

variable {I : Type} [DecidableEq I] (sha1 : Bytes → Digest) (e : Endian)

inductive FilterOp (I : Type)
  | add (i : I) (key : Bytes)
  | merge (i : I) (j : Option I)

/-- One operation on a family of filters. -/
def FilterOp.apply (s : I → FilterBlock 8) : FilterOp I → Option (I → FilterBlock 8)
  | .add i key => do
    let bf ← bloomfilterAdd sha1 e (s i) key
    return Function.update s i bf
  | .merge i j => some (Function.update s i (bloomfilterMerge (s i) (j.map s)).2)

def runFilters (s : I → FilterBlock 8) (ops : List (FilterOp I)) : Option (I → FilterBlock 8) :=
  ops.foldlM (FilterOp.apply sha1 e) s

/-- What holds of each operation of a run from `s` once the run has reached `t`. -/
structure FilterOp.Sound (s t : I → FilterBlock 8) (pre : List (FilterOp I)) (op : FilterOp I)
    (s₁ s₂ : I → FilterBlock 8) : Prop where
  before : runFilters sha1 e s pre = some s₁
  after : op.apply sha1 e s₁ = some s₂
  added : ∀ i key, op = .add i key → bloomfilterCheck sha1 e (t i) key = some true
  merged : ∀ i j, op = .merge i (some j) → (bloomfilterMerge (s₁ i) (some (s₁ j))).1 = .ok →
    ∀ key, bloomfilterCheck sha1 e (s₁ j) key = some true →
      bloomfilterCheck sha1 e (t i) key = some true
  failed : ∀ i j, op = .merge i j → (bloomfilterMerge (s₁ i) (j.map s₁)).1 ≠ .ok → s₂ i = s₁ i

variable {sha1 e} {s s₁ t : I → FilterBlock 8}

theorem extends_apply (hs : ∀ i, (s i).Packed) {op : FilterOp I}
    (hop : op.apply sha1 e s = some s₁) (i : I) : (s i).Extends (s₁ i) := by
  cases op with
  | add j key =>
    obtain ⟨bf, hbf, heq⟩ := Option.bind_eq_some_iff.mp hop
    obtain rfl := Option.some.inj heq
    by_cases hij : i = j
    · subst hij
      rw [Function.update_self]
      exact FilterBlock.extends_add (hs i) hbf
    · rw [Function.update_of_ne hij]
      exact .refl _
  | merge j k =>
    obtain rfl := Option.some.inj hop
    by_cases hij : i = j
    · subst hij
      rw [Function.update_self]
      apply FilterBlock.extends_merge (hs i)
      intro b' hb'
      obtain ⟨l, -, rfl⟩ := Option.map_eq_some_iff.mp hb'
      exact hs l
    · rw [Function.update_of_ne hij]
      exact .refl _

theorem extends_run (hs : ∀ i, (s i).Packed) {ops : List (FilterOp I)}
    (hrun : runFilters sha1 e s ops = some t) (i : I) : (s i).Extends (t i) := by
  induction ops generalizing s with
  | nil =>
    obtain rfl := Option.some.inj hrun
    exact .refl _
  | cons op ops ih =>
    rw [runFilters, List.foldlM_cons] at hrun
    obtain ⟨s₁, hop, hrest⟩ := Option.bind_eq_some_iff.mp hrun
    have hext := extends_apply hs hop
    exact (hext i).trans (ih (fun j => (hext j).packed (hs j)) hrest)

/-- One operation, as it looks once the rest of the run is over. -/
theorem sound_apply (hs : ∀ i, (s i).Packed) {s₂ : I → FilterBlock 8} {op : FilterOp I}
    (hop : op.apply sha1 e s₁ = some s₂) {pre post : List (FilterOp I)}
    (hpre : runFilters sha1 e s pre = some s₁) (hpost : runFilters sha1 e s₂ post = some t) :
    op.Sound sha1 e s t pre s₁ s₂ := by
  have hs₁ : ∀ i, (s₁ i).Packed := fun i => (extends_run hs hpre i).packed (hs i)
  have hs₂ : ∀ i, (s₂ i).Packed := fun i => (extends_apply hs₁ hop i).packed (hs₁ i)
  have hext := extends_run hs₂ hpost
  constructor
  · exact hpre
  · exact hop
  · rintro i key rfl
    obtain ⟨bf, hbf, heq⟩ := Option.bind_eq_some_iff.mp hop
    have hbf' : s₂ i = bf := by
      obtain rfl := Option.some.inj heq
      exact Function.update_self i bf s₁
    apply (hext i).check (hs₂ i)
    rw [hbf']
    exact FilterBlock.check_add (hs₁ i) hbf
  · rintro i j rfl hok key hkey
    have hb : s₂ i = (bloomfilterMerge (s₁ i) (some (s₁ j))).2 := by
      obtain rfl := Option.some.inj hop
      exact Function.update_self i _ s₁
    apply (hext i).check (hs₂ i)
    rw [hb]
    exact FilterBlock.check_merge (hs₁ i) (hs₁ j) hok hkey
  · rintro i j rfl hne
    obtain rfl := Option.some.inj hop
    rw [Function.update_self]
    obtain ⟨-, heq⟩ | ⟨b', -, -, -, heq⟩ := FilterBlock.merge_cases (s₁ i) (j.map s₁)
    · exact heq
    · rw [heq] at hne
      exact absurd rfl hne

variable (sha1 e) in
/-- Every key that is added has its bits within reach. -/
def AddsFit (s : I → FilterBlock 8) (ops : List (FilterOp I)) : Prop :=
  ∀ i key, .add i key ∈ ops → ∀ salt ∈ (s i).salts, IndexFits sha1 e (s i).m key salt

theorem apply_isSome_iff (hs : ∀ i, (s i).Packed) (op : FilterOp I) :
    (∃ s₁, op.apply sha1 e s = some s₁) ↔ AddsFit sha1 e s [op] := by
  cases op with
  | add i key =>
    rw [FilterOp.apply, bloomfilterAdd_eq (hs i).eight (hs i).toPlain]
    constructor
    · rintro ⟨s₁, h⟩ j k hmem
      obtain ⟨rfl, rfl⟩ : j = i ∧ k = key := by simpa using hmem
      by_contra hfit
      simp [hfit] at h
    · intro hfit
      rw [if_pos (hfit i key (List.mem_singleton_self _))]
      exact ⟨_, rfl⟩
  | merge i j => simp [FilterOp.apply, AddsFit]

/-- A run comes to its end if and only if every key that is added has its bits within reach. -/
theorem runFilters_isSome_iff (hs : ∀ i, (s i).Packed) (ops : List (FilterOp I)) :
    (∃ t, runFilters sha1 e s ops = some t) ↔ AddsFit sha1 e s ops := by
  induction ops generalizing s with
  | nil => simp [runFilters, AddsFit]
  | cons op ops ih =>
    have hcons : AddsFit sha1 e s (op :: ops) ↔ AddsFit sha1 e s [op] ∧ AddsFit sha1 e s ops := by
      constructor
      · intro h
        exact ⟨fun i key hmem => h i key (by simp_all), fun i key hmem => h i key (by simp [hmem])⟩
      · rintro ⟨h, h'⟩ i key hmem
        rcases List.mem_cons.mp hmem with heq | hmem
        · exact h i key (by simp [heq])
        · exact h' i key hmem
    rw [hcons, ← apply_isSome_iff hs op, runFilters, List.foldlM_cons]
    constructor
    · rintro ⟨t, h⟩
      obtain ⟨s₁, hop, hrest⟩ := Option.bind_eq_some_iff.mp h
      have hext := extends_apply hs hop
      have hfit := (ih fun i => (hext i).packed (hs i)).mp ⟨t, hrest⟩
      refine ⟨⟨s₁, hop⟩, fun i key hmem salt hsalt => ?_⟩
      rw [← (hext i).salts] at hsalt
      rw [← (hext i).m]
      exact hfit i key hmem salt hsalt
    · rintro ⟨⟨s₁, hop⟩, hfit⟩
      have hext := extends_apply hs hop
      have hfit₁ : AddsFit sha1 e s₁ ops := by
        intro i key hmem salt hsalt
        rw [(hext i).salts] at hsalt
        rw [(hext i).m]
        exact hfit i key hmem salt hsalt
      obtain ⟨t, hrest⟩ := (ih fun i => (hext i).packed (hs i)).mpr hfit₁
      exact ⟨t, Option.bind_eq_some_iff.mpr ⟨s₁, hop, hrest⟩⟩

/-- Every key that is added to a filter, or that a filter reports when it is merged, is reported by
the target at the end of the run, and a merge that fails changes nothing, exactly when every key
that is added has its bits within reach. -/
theorem runFilters_sound_iff (hs : ∀ i, (s i).Packed) (ops : List (FilterOp I)) :
    (∃ t, runFilters sha1 e s ops = some t ∧ ∀ pre op post, ops = pre ++ op :: post →
        ∃ s₁ s₂, FilterOp.Sound sha1 e s t pre op s₁ s₂) ↔ AddsFit sha1 e s ops := by
  rw [← runFilters_isSome_iff hs ops]
  constructor
  · rintro ⟨t, ht, -⟩
    exact ⟨t, ht⟩
  · rintro ⟨t, ht⟩
    refine ⟨t, ht, ?_⟩
    rintro pre op post rfl
    rw [runFilters, List.foldlM_append] at ht
    obtain ⟨s₁, hpre, hrest⟩ := Option.bind_eq_some_iff.mp ht
    rw [List.foldlM_cons] at hrest
    obtain ⟨s₂, hop, hpost⟩ := Option.bind_eq_some_iff.mp hrest
    exact ⟨s₁, s₂, sound_apply hs hop hpre hpost⟩

end Runs

namespace Sample

theorem packed_plainBlock : plainBlock.Packed := ⟨plain_plainBlock, by decide⟩

/-- A key goes to one filter, which is merged into the other. -/
theorem runFilters_two : plainBlock.Packed ∧
    ∃ t, runFilters firstBytes .little (fun _ : Bool => plainBlock)
        [.add true [1], .merge false (some true)] = some t ∧
      ∀ pre op post, [.add true [1], .merge false (some true)] = pre ++ op :: post →
        ∃ s₁ s₂, FilterOp.Sound firstBytes .little (fun _ => plainBlock) t pre op s₁ s₂ := by
  have hpos : 0 < plainBlock.m.toNat := by decide
  have hle : plainBlock.m.toNat ≤ 2 ^ 31 := by decide
  refine ⟨packed_plainBlock, ?_⟩
  apply (runFilters_sound_iff (fun _ : Bool => packed_plainBlock) _).mpr
  intro i key _ salt _
  exact indexFits_of_le hpos hle key salt

/-- 2³¹ + 8 bins under one salt. -/
def wideBlock : FilterBlock 8 :=
  ⟨BitVec.ofNat 32 (2 ^ 31 + 8), 0, [0], List.replicate (2 ^ 28 + 1) 0⟩

theorem packed_wideBlock : wideBlock.Packed where
  salts := by
    rw [wideBlock, List.length_singleton]
    norm_num
  bins := by
    rw [wideBlock, List.length_replicate]
    rfl
  eight := by
    rw [wideBlock]
    decide

theorem not_indexFits_wideBlock :
    ¬ IndexFits firstBytes .little wideBlock.m [0, 0, 0, 128] 0 := by
  rw [wideBlock]
  decide

/-- The bit of the key is 2³¹, a negative number as an `int`. -/
theorem runFilters_wideBlock : wideBlock.Packed ∧
    ¬ ∃ t, runFilters firstBytes .little (fun _ : Unit => wideBlock)
        [.add () [0, 0, 0, 128]] = some t ∧
      bloomfilterCheck firstBytes .little (t ()) [0, 0, 0, 128] = some true := by
  refine ⟨packed_wideBlock, ?_⟩
  rintro ⟨t, ht, -⟩
  have hfit := (runFilters_isSome_iff (fun _ => packed_wideBlock) _).mp ⟨t, ht⟩
  have hsalt : (0 : BitVec 32) ∈ wideBlock.salts := by
    rw [wideBlock]
    exact List.mem_singleton_self _
  exact not_indexFits_wideBlock (hfit () _ (List.mem_singleton_self _) 0 hsalt)

end Sample
end Haggle
