import Haggle.FilterOperation
import Haggle.Trace

/-!
# Counting filters that are added to and removed from

A counting filter under any sequence of `counting_bloomfilter_add` and
`counting_bloomfilter_remove`. Its bins are the counters of a `CountingFilter`: each one covers the
keys that are in the filter, as long as no counter runs over its 16 bits.
-/

namespace Haggle

open ByteOrder CountingFilter

namespace FilterBlock

variable {sha1 : Bytes → Digest} {e : Endian}

/-- The bins as numbers. -/
def counts (bins : List (BitVec 16)) : List ℕ := bins.map BitVec.toNat

theorem countingBin_eq {bins : List (BitVec 16)} {index : BitVec 32}
    (hindex : index.toNat < bins.length) : countingBin bins index =
      if index.toNat < 2 ^ 31 then some (bins[index.toNat]) else none := by
  unfold countingBin
  by_cases h : index.toNat < 2 ^ 31
  · have hnonneg : ¬ index.toInt < 0 := by
      rw [toInt_of_lt h]
      omega
    rw [if_neg hnonneg, if_pos h, toInt_of_lt h, Int.toNat_natCast, List.getElem?_eq_getElem hindex]
  · rw [if_pos (toInt_neg_of_le (Nat.le_of_not_lt h)), if_neg h]

theorem counts_setCountingBin {bins : List (BitVec 16)} {index : BitVec 32}
    (hindex : index.toNat < bins.length) (hint : index.toNat < 2 ^ 31) {v : BitVec 16} {f : ℕ → ℕ}
    (hv : v.toNat = f (bins[index.toNat]).toNat) :
    counts (setCountingBin bins index v) = (counts bins).modify index.toNat f := by
  rw [setCountingBin, toInt_of_lt hint, Int.toNat_natCast]
  apply List.ext_getElem?
  intro i
  simp only [counts, List.getElem?_map, List.getElem?_set, List.getElem?_modify]
  by_cases hi : index.toNat = i
  · subst hi
    simp [hindex, hv]
  · simp [hi]

variable {m : BitVec 32} {key : Bytes} {salt : BitVec 32} {bins : List (BitVec 16)}

theorem countingBin_hashIndex (hbins : bins.length = m.toNat) (hfit : IndexFits sha1 e m key salt) :
    ∃ (index : BitVec 32) (hindex : index.toNat < bins.length),
      hashIndex sha1 e m key salt = some index ∧ index.toNat = position sha1 e m key salt ∧
        index.toNat < 2 ^ 31 ∧ countingBin bins index = some (bins[index.toNat]) := by
  have hlt : position sha1 e m key salt < bins.length := by
    rw [hbins]
    exact hfit.position_lt
  refine ⟨_, hlt, if_neg hfit.1, rfl, hfit.2, ?_⟩
  rw [countingBin_eq hlt]
  exact if_pos hfit.2

theorem getD_counts (bins : List (BitVec 16)) (i : ℕ) :
    (counts bins).getD i 0 = (bins.getD i 0).toNat := by
  rw [counts, List.getD_eq_getElem?_getD, List.getElem?_map, List.getD_eq_getElem?_getD]
  cases bins[i]? <;> rfl

/-- The test of `COUNTING_BF_OP_CHECK`. -/
theorem countingBin_ne_zero (hbins : bins.length = m.toNat) :
    (do
      let bin ← countingBin bins (← hashIndex sha1 e m key salt)
      return bin != 0) =
      if IndexFits sha1 e m key salt then
        some (decide ((counts bins).getD (position sha1 e m key salt) 0 ≠ 0))
      else none := by
  by_cases hfit : IndexFits sha1 e m key salt
  · obtain ⟨index, hindex, hhash, hpos, -, hbin⟩ := countingBin_hashIndex hbins hfit
    have hzero : (bins[index.toNat] != 0) = decide ((bins[index.toNat]).toNat ≠ 0) := by
      rw [Bool.eq_iff_iff, bne_iff_ne, decide_eq_true_iff, ne_eq, ne_eq, BitVec.toNat_eq]
      rfl
    rw [if_pos hfit, ← hpos, getD_counts, List.getD_eq_getElem _ _ hindex, ← hzero, hhash]
    simp only [Option.bind_eq_bind, Option.bind_some, hbin]
    rfl
  · rw [if_neg hfit]
    by_cases hm : m = 0
    · simp [hashIndex, hm]
    · -- the index is negative as an `int`
      have hneg : 2 ^ 31 ≤ position sha1 e m key salt := Nat.le_of_not_lt fun h => hfit ⟨hm, h⟩
      rw [hashIndex, if_neg hm]
      simp only [Option.bind_eq_bind, Option.bind_some]
      rw [countingBin, if_pos (toInt_neg_of_le hneg), Option.bind_none]

theorem incrementBin_spec (hbins : bins.length = m.toNat) (hfit : IndexFits sha1 e m key salt) :
    ∃ bins', incrementBin sha1 e m key bins salt = some bins' ∧
      counts bins' = (counts bins).modify (position sha1 e m key salt)
        (fun c => (c + 1) % CountingBloomfilter.binValues) := by
  obtain ⟨index, hindex, hhash, hpos, hint, hbin⟩ := countingBin_hashIndex hbins hfit
  refine ⟨setCountingBin bins index (bins[index.toNat] + 1), ?_, ?_⟩
  · simp [incrementBin, hhash, hbin]
  · rw [← hpos]
    apply counts_setCountingBin hindex hint
    rw [BitVec.toNat_add]
    rfl

theorem decrementBin_spec (hbins : bins.length = m.toNat) (hfit : IndexFits sha1 e m key salt)
    (removed : BitVec 16) : ∃ s, decrementBin sha1 e m key (bins, removed) salt = some s ∧
      counts s.1 = (counts bins).modify (position sha1 e m key salt) (fun c => c - 1) := by
  obtain ⟨index, hindex, hhash, hpos, hint, hbin⟩ := countingBin_hashIndex hbins hfit
  refine ⟨_, by simp [decrementBin, hhash, hbin]; rfl, ?_⟩
  rw [← hpos]
  split_ifs with hzero
  · apply counts_setCountingBin hindex hint
    have hpos' : 0 < (bins[index.toNat]).toNat := hzero
    have hlt := (bins[index.toNat]).isLt
    rw [BitVec.toNat_sub]
    simp only [BitVec.toNat_ofNat]
    omega
  · -- a bin that is zero stays so
    have hzero' : (bins[index.toNat]).toNat = 0 := by
      have h : ¬ 0 < (bins[index.toNat]).toNat := hzero
      omega
    apply List.ext_getElem?
    intro i
    simp only [counts, List.getElem?_map, List.getElem?_modify]
    by_cases hi : index.toNat = i
    · subst hi
      simp [hindex, hzero']
    · simp [hi]

theorem length_of_counts_eq_modify {bins' : List (BitVec 16)} {i : ℕ} {f : ℕ → ℕ}
    (h : counts bins' = (counts bins).modify i f) : bins'.length = bins.length := by
  have hlen := congrArg List.length h
  rwa [List.length_modify, counts, counts, List.length_map, List.length_map] at hlen

theorem foldlM_incrementBin (hbins : bins.length = m.toNat) {l : List (BitVec 32)}
    (hfit : ∀ salt ∈ l, IndexFits sha1 e m key salt) :
    ∃ bins', l.foldlM (incrementBin sha1 e m key) bins = some bins' ∧
      counts bins' =
        addAll CountingBloomfilter.binValues (counts bins) (l.map (position sha1 e m key)) := by
  induction l generalizing bins with
  | nil => exact ⟨bins, rfl, rfl⟩
  | cons salt l ih =>
    obtain ⟨bins₁, hinc, hcounts⟩ := incrementBin_spec hbins (hfit salt (by simp))
    have hlen : bins₁.length = m.toNat := by rw [length_of_counts_eq_modify hcounts, hbins]
    obtain ⟨bins', hrest, heq⟩ := ih hlen (fun s hs => hfit s (by simp [hs]))
    refine ⟨bins', ?_, ?_⟩
    · rw [List.foldlM_cons, hinc]
      exact hrest
    · rw [heq, hcounts]
      rfl

theorem foldlM_decrementBin (hbins : bins.length = m.toNat) {l : List (BitVec 32)}
    (hfit : ∀ salt ∈ l, IndexFits sha1 e m key salt) (removed : BitVec 16) :
    ∃ s, l.foldlM (decrementBin sha1 e m key) (bins, removed) = some s ∧
      counts s.1 = removeAll (counts bins) (l.map (position sha1 e m key)) := by
  induction l generalizing bins removed with
  | nil => exact ⟨_, rfl, rfl⟩
  | cons salt l ih =>
    obtain ⟨s₁, hdec, hcounts⟩ := decrementBin_spec hbins (hfit salt (by simp)) removed
    have hlen : s₁.1.length = m.toNat := by rw [length_of_counts_eq_modify hcounts, hbins]
    obtain ⟨s', hrest, heq⟩ := ih hlen (fun s hs => hfit s (by simp [hs])) s₁.2
    refine ⟨s', ?_, ?_⟩
    · rw [List.foldlM_cons, hdec]
      exact hrest
    · rw [heq, hcounts]
      rfl

variable {b : FilterBlock 16} (hb : b.Counting)
  (hfit : ∀ salt ∈ b.salts, IndexFits sha1 e b.m key salt)
include hb hfit

/-- What adding a key does: its bins are incremented, with wrap-around. -/
theorem countingBloomfilterAdd_spec : ∃ b', countingBloomfilterAdd sha1 e b key = some b' ∧
    b'.m = b.m ∧ b'.salts = b.salts ∧ counts b'.bins =
      addAll CountingBloomfilter.binValues (counts b.bins)
        (b.salts.map (position sha1 e b.m key)) := by
  obtain ⟨bins', hloop, heq⟩ := foldlM_incrementBin hb.bins hfit
  refine ⟨{ b with bins := bins', n := b.n + 2 }, ?_, rfl, rfl, heq⟩
  simp [countingBloomfilterAdd, hloop]

theorem countingBloomfilterRemove_spec : ∃ b', countingBloomfilterRemove sha1 e b key = some b' ∧
    b'.m = b.m ∧ b'.salts = b.salts ∧ counts b'.bins =
      removeAll (counts b.bins) (b.salts.map (position sha1 e b.m key)) := by
  obtain ⟨s, hloop, heq⟩ := foldlM_decrementBin hb.bins hfit 0
  refine ⟨{ b with bins := s.1, n := if 0 < s.2 then b.n - 1 else b.n }, ?_, rfl, rfl, heq⟩
  rw [countingBloomfilterRemove, hloop]
  rfl

theorem countingBloomfilterCheck_eq : countingBloomfilterCheck sha1 e b key =
    some (hasAll (counts b.bins) (b.salts.map (position sha1 e b.m key))) := by
  have hset : ∀ salt ∈ b.salts, (do
      let bin ← countingBin b.bins (← hashIndex sha1 e b.m key salt)
      return bin != 0) =
        some (decide ((counts b.bins).getD (position sha1 e b.m key salt) 0 ≠ 0)) := by
    intro salt hsalt
    rw [countingBin_ne_zero hb.bins, if_pos (hfit salt hsalt)]
  rw [countingBloomfilterCheck, checkSalts_eq_all hset, hasAll, List.all_map]
  rfl

end FilterBlock

section Runs

variable (sha1 : Bytes → Digest) (e : Endian)

inductive CountingOp
  | add (key : Bytes)
  | remove (key : Bytes)
deriving DecidableEq

/-- One operation on a filter, unless an earlier one went wrong. -/
def countingStep (s : Option (FilterBlock 16)) : CountingOp → Option (FilterBlock 16)
  | .add key => s.bind fun b => countingBloomfilterAdd sha1 e b key
  | .remove key => s.bind fun b => countingBloomfilterRemove sha1 e b key

/-- Each removal of a key comes after more additions than removals of it. -/
def Balanced (ops : List CountingOp) : Prop :=
  ∀ pre key post, ops = pre ++ .remove key :: post →
    pre.count (.remove key) < pre.count (.add key)

/-- A key that is added has its bins within reach, and none of them runs over. -/
def AddFits (s : Option (FilterBlock 16)) (op : CountingOp) : Prop :=
  ∀ b ∈ s, ∀ key, op = .add key →
    (∀ salt ∈ b.salts, IndexFits sha1 e b.m key salt) ∧
      ∀ j < b.bins.length, (FilterBlock.counts b.bins).getD j 0 +
        (b.salts.map (position sha1 e b.m key)).count j < CountingBloomfilter.binValues

variable {sha1 e} {b : FilterBlock 16}

variable (sha1 e b) in
/-- The filter `b'` comes from `b` and counts the keys of the list. -/
structure Counts (b' : FilterBlock 16) (live : List Bytes) : Prop where
  m : b'.m = b.m
  salts : b'.salts = b.salts
  counting : b'.Counting
  covers : Covers (fun key => b.salts.map (position sha1 e b.m key))
    (FilterBlock.counts b'.bins) live
  fits : ∀ key ∈ live, ∀ salt ∈ b.salts, IndexFits sha1 e b.m key salt

/-- Neither operation moves a bin. -/
theorem Counts.update {b' b'' : FilterBlock 16} {live live' : List Bytes}
    (h : Counts sha1 e b b' live) (hm : b''.m = b'.m) (hsalts : b''.salts = b'.salts)
    (hlen : (FilterBlock.counts b''.bins).length = (FilterBlock.counts b'.bins).length)
    (hcovers : Covers (fun key => b.salts.map (position sha1 e b.m key))
      (FilterBlock.counts b''.bins) live')
    (hfits : ∀ key ∈ live', ∀ salt ∈ b.salts, IndexFits sha1 e b.m key salt) :
    Counts sha1 e b b'' live' := by
  rw [FilterBlock.counts, FilterBlock.counts, List.length_map, List.length_map] at hlen
  constructor
  · rw [hm, h.m]
  · rw [hsalts, h.salts]
  · constructor
    · rw [hsalts]
      exact h.counting.salts
    · rw [hlen, hm]
      exact h.counting.bins
  · exact hcovers
  · exact hfits

theorem Counts.add {b' : FilterBlock 16} {live : List Bytes} (h : Counts sha1 e b b' live)
    {key : Bytes} (hadd : AddFits sha1 e (some b') (.add key)) :
    ∃ b'', countingBloomfilterAdd sha1 e b' key = some b'' ∧
      Counts sha1 e b b'' (key :: live) := by
  obtain ⟨hfit, hover⟩ := hadd b' rfl key rfl
  obtain ⟨b'', hb'', hm, hsalts, hcounts⟩ :=
    FilterBlock.countingBloomfilterAdd_spec h.counting hfit
  rw [h.m, h.salts] at hfit hover hcounts
  refine ⟨b'', hb'', h.update hm hsalts (by rw [hcounts, length_addAll]) ?_ ?_⟩
  · rw [hcounts]
    apply covers_addAll h.covers
    intro j hj
    rw [FilterBlock.counts, List.length_map] at hj
    exact hover j hj
  · intro k hk
    rcases List.mem_cons.mp hk with rfl | hk
    · exact hfit
    · exact h.fits k hk

theorem Counts.remove {b' : FilterBlock 16} {live : List Bytes} (h : Counts sha1 e b b' live)
    {key : Bytes} (hkey : key ∈ live) :
    ∃ b'', countingBloomfilterRemove sha1 e b' key = some b'' ∧
      Counts sha1 e b b'' (live.erase key) := by
  have hfit := h.fits key hkey
  rw [← h.m, ← h.salts] at hfit
  obtain ⟨b'', hb'', hm, hsalts, hcounts⟩ :=
    FilterBlock.countingBloomfilterRemove_spec h.counting hfit
  rw [h.m, h.salts] at hcounts
  refine ⟨b'', hb'', h.update hm hsalts (by rw [hcounts, length_removeAll]) ?_ ?_⟩
  · rw [hcounts]
    exact covers_removeAll h.covers hkey
  · intro k hk
    exact h.fits k (List.mem_of_mem_erase hk)

theorem Counts.check {b' : FilterBlock 16} {live : List Bytes} (h : Counts sha1 e b b' live)
    {key : Bytes} (hkey : key ∈ live) : countingBloomfilterCheck sha1 e b' key = some true := by
  have hfit := h.fits key hkey
  rw [← h.m, ← h.salts] at hfit
  rw [FilterBlock.countingBloomfilterCheck_eq h.counting hfit, h.m, h.salts]
  congr 1
  apply hasAll_of_mem h.covers hkey
  intro j hj
  obtain ⟨salt, hsalt, rfl⟩ := List.mem_map.mp hj
  rw [FilterBlock.counts, List.length_map, h.counting.bins, h.m]
  exact (h.fits key hkey salt hsalt).position_lt

/-- What a run has added and not removed, the filter counts. -/
theorem counts_run (hb : b.Counting) {ops : List CountingOp} (hops : Balanced ops)
    (hok : Trace.Guarded (countingStep sha1 e) (AddFits sha1 e) (some b) ops) :
    ∃ b' live, Trace.run (countingStep sha1 e) (some b) ops = some b' ∧
      Counts sha1 e b b' live ∧
        ∀ key, live.count key + ops.count (.remove key) = ops.count (.add key) := by
  -- on the last operation, so that the run before it is a run from the same filter
  induction ops using List.reverseRecOn with
  | nil =>
    refine ⟨b, [], rfl, ⟨rfl, rfl, hb, covers_nil _, by simp⟩, by simp⟩
  | append_singleton ops op ih =>
    have hops' : Balanced ops := by
      rintro pre key post rfl
      exact hops pre key (post ++ [op]) (by simp)
    rw [Trace.guarded_append] at hok
    obtain ⟨b', live, hrun, hcounts, hcount⟩ := ih hops' hok.1
    have hstep := hok.2.1
    rw [hrun] at hstep
    rw [Trace.run_append, hrun, Trace.run_cons, Trace.run_nil]
    cases op with
    | add key =>
      obtain ⟨b'', hadd, hcounts'⟩ := hcounts.add hstep
      refine ⟨b'', key :: live, hadd, hcounts', fun k => ?_⟩
      have hk := hcount k
      simp only [List.count_append, List.count_cons, List.count_nil, beq_iff_eq, reduceCtorEq,
        if_false, CountingOp.add.injEq]
      omega
    | remove key =>
      have hlive : key ∈ live := by
        have hlt := hops ops key [] rfl
        have hk := hcount key
        exact List.count_pos_iff.mp (by omega)
      obtain ⟨b'', hrem, hcounts'⟩ := hcounts.remove hlive
      refine ⟨b'', live.erase key, hrem, hcounts', fun k => ?_⟩
      have hk := hcount k
      have hpos : key = k → 0 < live.count k := fun h => h ▸ List.count_pos_iff.mpr hlive
      simp only [List.count_append, List.count_cons, List.count_nil, List.count_erase, beq_iff_eq,
        reduceCtorEq, if_false, CountingOp.remove.injEq]
      split_ifs with hkk
      · have := hpos hkk
        omega
      · omega

/-- Every key with more additions than removals is reported, as long as the bins of each key that is
added are within reach and none of them runs over. -/
theorem countingRun_reports (hb : b.Counting) {ops : List CountingOp} (hops : Balanced ops)
    (hok : Trace.Guarded (countingStep sha1 e) (AddFits sha1 e) (some b) ops) :
    ∃ b', Trace.run (countingStep sha1 e) (some b) ops = some b' ∧
      ∀ key, ops.count (.remove key) < ops.count (.add key) →
        countingBloomfilterCheck sha1 e b' key = some true := by
  obtain ⟨b', live, hrun, hcounts, hcount⟩ := counts_run hb hops hok
  refine ⟨b', hrun, fun key hkey => ?_⟩
  have hlive := hcount key
  exact hcounts.check (List.count_pos_iff.mp (by omega))

/-- Additions of one key, with wrap-around. -/
theorem run_replicate_add (hb : b.Counting) {key : Bytes} {salt : BitVec 32}
    (hsalts : b.salts = [salt]) (hfit : IndexFits sha1 e b.m key salt) (t : ℕ) :
    ∃ b', Trace.run (countingStep sha1 e) (some b) (List.replicate t (.add key)) = some b' ∧
      b'.m = b.m ∧ b'.salts = b.salts ∧ b'.Counting ∧
        (FilterBlock.counts b'.bins).getD (position sha1 e b.m key salt) 0 =
          ((FilterBlock.counts b.bins).getD (position sha1 e b.m key salt) 0 + t) %
            CountingBloomfilter.binValues := by
  induction t with
  | zero =>
    refine ⟨b, rfl, rfl, rfl, hb, ?_⟩
    have hlt : position sha1 e b.m key salt < (FilterBlock.counts b.bins).length := by
      rw [FilterBlock.counts, List.length_map, hb.bins]
      exact hfit.position_lt
    rw [List.getD_eq_getElem _ _ hlt, Nat.add_zero]
    apply (Nat.mod_eq_of_lt _).symm
    exact FilterBlock.toNat_lt_of_mem (List.getElem_mem hlt)
  | succ t ih =>
    obtain ⟨b', hrun, hm, hs, hb', hbin⟩ := ih
    have hfit' : ∀ salt ∈ b'.salts, IndexFits sha1 e b'.m key salt := by
      rw [hs, hsalts, hm]
      intro s hmem
      rw [List.mem_singleton.mp hmem]
      exact hfit
    obtain ⟨b'', hadd, hm', hs', hcounts⟩ := FilterBlock.countingBloomfilterAdd_spec hb' hfit'
    have hlen : (FilterBlock.counts b''.bins).length = (FilterBlock.counts b'.bins).length := by
      rw [hcounts, length_addAll]
    have hlt : position sha1 e b.m key salt < (FilterBlock.counts b'.bins).length := by
      rw [FilterBlock.counts, List.length_map, hb'.bins, hm]
      exact hfit.position_lt
    rw [FilterBlock.counts, FilterBlock.counts, List.length_map, List.length_map] at hlen
    rw [List.replicate_succ', Trace.run_append, hrun, Trace.run_cons, Trace.run_nil]
    refine ⟨b'', hadd, by rw [hm', hm], by rw [hs', hs], ⟨?_, ?_⟩, ?_⟩
    · rw [hs']
      exact hb'.salts
    · rw [hlen, hm']
      exact hb'.bins
    · have hstep := getD_modify (FilterBlock.counts b'.bins)
        (fun c => (c + 1) % CountingBloomfilter.binValues) (position sha1 e b.m key salt) _ hlt
      rw [if_pos rfl, hbin] at hstep
      rw [hcounts, hs, hsalts, hm]
      exact hstep.trans (by rw [Nat.mod_add_mod, Nat.add_assoc])

end Runs

namespace Sample

/-- An empty filter of eight bins under one salt. -/
def emptyBlock : FilterBlock 16 := ⟨8, 0, [0], List.replicate 8 0⟩

theorem counting_emptyBlock : emptyBlock.Counting := ⟨by decide, rfl⟩

theorem indexFits_emptyBlock (key : Bytes) (salt : BitVec 32) :
    IndexFits firstBytes .little emptyBlock.m key salt :=
  indexFits_of_le (by decide) (by decide) key salt

/-- One key is added twice and removed once. -/
def onceOps : List CountingOp := [.add [1], .add [1], .remove [1]]

theorem balanced_onceOps : Balanced onceOps := by
  intro pre key post h
  obtain _ | ⟨a, _ | ⟨b, _ | ⟨c, pre⟩⟩⟩ := pre
  · simp [onceOps] at h
  · simp [onceOps] at h
  · simp only [onceOps, List.cons_append, List.nil_append, List.cons.injEq,
      CountingOp.remove.injEq] at h
    obtain ⟨rfl, rfl, rfl, -⟩ := h
    decide
  · simp [onceOps] at h

theorem addFits_emptyBlock {n : BitVec 32} {bins : List (BitVec 16)} (key : Bytes)
    (hover : ∀ j < bins.length, (FilterBlock.counts bins).getD j 0 +
      ([0].map (position firstBytes .little emptyBlock.m key)).count j <
        CountingBloomfilter.binValues) :
    AddFits firstBytes .little (some { emptyBlock with n := n, bins := bins }) (.add key) := by
  intro b hb k hk
  obtain rfl := Option.some.inj hb
  obtain rfl := CountingOp.add.inj hk
  exact ⟨fun salt _ => indexFits_emptyBlock key salt, hover⟩

theorem countingRun_once : Balanced onceOps ∧
    ∃ b', Trace.run (countingStep firstBytes .little) (some emptyBlock) onceOps = some b' ∧
      ∀ key, onceOps.count (.remove key) < onceOps.count (.add key) →
        countingBloomfilterCheck firstBytes .little b' key = some true := by
  have hfirst : countingStep firstBytes .little (some emptyBlock) (.add [1]) =
      some { emptyBlock with n := 2, bins := [0, 1, 0, 0, 0, 0, 0, 0] } := by decide
  refine ⟨balanced_onceOps, ?_⟩
  apply countingRun_reports counting_emptyBlock balanced_onceOps
  refine ⟨addFits_emptyBlock [1] (by decide), ?_, ?_, trivial⟩
  · rw [hfirst]
    exact addFits_emptyBlock [1] (by decide)
  · intro b _ key hkey
    cases hkey

/-- The bin of a key is back at zero after 65536 additions. -/
theorem countingRun_wraps : Balanced (List.replicate 65536 (.add [1])) ∧
    ∃ b', Trace.run (countingStep firstBytes .little) (some emptyBlock)
        (List.replicate 65536 (.add [1])) = some b' ∧
      countingBloomfilterCheck firstBytes .little b' [1] = some false := by
  constructor
  · intro pre key post h
    have hmem : CountingOp.remove key ∈ List.replicate 65536 (CountingOp.add [1]) := by
      rw [h]
      exact List.mem_append_right pre List.mem_cons_self
    cases List.eq_of_mem_replicate hmem
  · obtain ⟨b', hrun, hm, hs, hb', hbin⟩ := run_replicate_add counting_emptyBlock
      (rfl : emptyBlock.salts = [0]) (indexFits_emptyBlock [1] 0) 65536
    have hzero : (FilterBlock.counts emptyBlock.bins).getD
        (position firstBytes .little emptyBlock.m [1] 0) 0 = 0 := by decide
    have hfit : ∀ salt ∈ b'.salts, IndexFits firstBytes .little b'.m [1] salt := by
      rw [hm]
      exact fun salt _ => indexFits_emptyBlock [1] salt
    rw [hzero] at hbin
    refine ⟨b', hrun, ?_⟩
    rw [FilterBlock.countingBloomfilterCheck_eq hb' hfit, hm, hs, hasAll]
    simp only [emptyBlock, List.map_cons, List.map_nil, List.all_cons, List.all_nil, Bool.and_true]
    rw [emptyBlock] at hbin
    rw [hbin]
    rfl

end Sample
end Haggle
