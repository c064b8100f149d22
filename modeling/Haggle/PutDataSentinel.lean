import Haggle.PutDataChunks

/-!
# The marker of an incomplete header

`putData` reports an incomplete header by a number of remaining bytes that a payload can have as
well. The receive loop answers a data object at the first report that is not this number.
-/

namespace Haggle

/-- The condition under which `receiveDataObject` sends its ACCEPT or REJECT: the header is there,
and `md` is not set yet. -/
def needsAnswer (answered : Bool) (remaining : ℕ) : Bool :=
  decide (remaining ≠ metadataPending) && !answered

namespace Feed

variable {pf : Platform} {fs : FileSystem} {o parsed : DataObject} {header body : Bytes}
variable {cut : ℕ → ℕ}

/-- How many answers the receive loop has sent after `i` calls; an error ends the loop before the
check. -/
def answers (pf : Platform) (cut : ℕ → ℕ) (f : Feed) : ℕ → ℕ
  | 0 => 0
  | i + 1 =>
    if !(run pf cut (i + 1) f).failed &&
        needsAnswer (decide (0 < answers pf cut f i)) (run pf cut (i + 1) f).remaining
    then answers pf cut f i + 1 else answers pf cut f i

/-- After each call the marker says whether the header is incomplete, and the object was answered
once if the calls were offered the whole of it. -/
def Unambiguous (pf : Platform) (cut : ℕ → ℕ) (header : Bytes) (f : Feed) : Prop :=
  ∀ i, 0 < i →
    ((run pf cut i f).remaining = metadataPending ↔ offset cut i < header.length) ∧
      answers pf cut f i = if header.length ≤ offset cut i then 1 else 0

/-- As long as the payload is incomplete, the piece that came with the header is in the file. -/
theorem completed_writing {a e : ℕ} (hbody : parsed.dataLen ≤ body.length)
    (ha : a < header.length) (hroom : e < maxMetadataSize)
    (hlt : e - header.length < parsed.dataLen) :
    ∃ q c, completed fs o parsed header body a e =
        writing fs (parsed.createFilePath fs) (body.take (e - header.length)) q c ∧
      parsed.dataLen - (e - header.length) ≤ q.length := by
  rw [completed, if_neg (by omega), if_neg (by omega)]
  by_cases heq : e = header.length
  · rw [if_pos heq, heq, Nat.sub_self, List.take_zero]
    exact ⟨body, header.length, rfl, by omega⟩
  · rw [if_neg heq, if_pos hlt]
    refine ⟨_, _, rfl, ?_⟩
    rw [List.length_drop, List.length_append]
    omega

/-- What is reported once the header is complete: the payload bytes that were not offered yet. -/
theorem remaining_of_crossing (hh : o.IsHeader pf fs header parsed) (ho : o.metadata = none)
    (hcut : ∀ i, 0 < cut i) (hbody : parsed.dataLen ≤ body.length) {j e : ℕ}
    (hj : offset cut j < header.length) (hj' : header.length ≤ offset cut (j + 1))
    (he : e = min (offset cut (j + 1)) (header ++ body).length) (hroom : e < maxMetadataSize)
    (hfs : Stores fs parsed (e - header.length) fun m => cut (j + 1 + m)) (k : ℕ) :
    (run pf cut (j + 1 + k) (start fs ⟨o, some ⟨[], none, 0⟩⟩ (header ++ body))).remaining =
        header.length + parsed.dataLen - offset cut (j + 1 + k) ∧
      (run pf cut (j + 1 + k)
        (start fs ⟨o, some ⟨[], none, 0⟩⟩ (header ++ body))).failed = false := by
  have hlen1 : (parsed.createFilePath fs).dataLen = parsed.dataLen := rfl
  have hadd := offset_add cut (j + 1) k
  rw [run_of_crossing hh ho hcut hj hj' he hfs.opens]
  rw [List.length_append] at he
  by_cases hlt : e - header.length < parsed.dataLen
  · obtain ⟨q, c, hstate, hq⟩ := @completed_writing fs o parsed header body _ e hbody hj
      hroom hlt
    have hw : (body.take (e - header.length)).length = e - header.length := by
      rw [List.length_take]
      omega
    rw [hstate, run_writing hh.isSome_metadata _ (fun i => hcut _) (by omega) (by omega)
      fun i _ => by rw [hw, hlen1]; exact (hfs (by omega)).2 (i + 1), hw, hlen1]
    split_ifs with hk
    · refine ⟨?_, rfl⟩
      simp only [writing, List.length_append, hw, hlen1, List.length_take]
      omega
    · refine ⟨?_, rfl⟩
      simp only [written]
      omega
  rw [completed, if_neg (by omega)]
  by_cases hD : parsed.dataLen = 0
  · rw [if_pos hD, run_of_finished (by simp [finished])]
    refine ⟨?_, rfl⟩
    dsimp only
    omega
  · rw [if_neg hD, if_neg (by omega), if_neg hlt, run_of_finished (by simp [finished, written])]
    refine ⟨?_, rfl⟩
    simp only [written]
    omega

/-- A header that comes with too many bytes behind it is an error, and the marker stays. -/
theorem remaining_of_oversized (hh : o.IsHeader pf fs header parsed) (ho : o.metadata = none)
    (hcut : ∀ i, 0 < cut i) {j : ℕ} (hj : offset cut j < header.length)
    (hj' : header.length ≤ offset cut (j + 1))
    (hroom : ¬min (offset cut (j + 1)) (header ++ body).length < maxMetadataSize) :
    (run pf cut (j + 1) (start fs ⟨o, some ⟨[], none, 0⟩⟩ (header ++ body))).remaining =
      metadataPending := by
  rw [offset] at hroom
  rw [run, run_collecting hh ho hcut hj, step_crossing hh ho hj hj' rfl, if_pos (not_lt.mp hroom)]
  rfl

/-- If the storage refuses the payload, the call in which the header ends fails, or a call behind it
reports the marker. -/
theorem report_of_refused (hh : o.IsHeader pf fs header parsed) (ho : o.metadata = none)
    (hcut : ∀ i, 0 < cut i) (hbody : parsed.dataLen ≤ body.length) {j e : ℕ}
    (hj : offset cut j < header.length) (hj' : header.length ≤ offset cut (j + 1))
    (he : e = min (offset cut (j + 1)) (header ++ body).length) (hroom : e < maxMetadataSize)
    (hfs : ¬Stores fs parsed (e - header.length) fun m => cut (j + 1 + m)) :
    (run pf cut (j + 1) (start fs ⟨o, some ⟨[], none, 0⟩⟩ (header ++ body))).failed = true ∨
      ∃ i, j < i ∧ (run pf cut i (start fs ⟨o, some ⟨[], none, 0⟩⟩ (header ++ body))).remaining =
        metadataPending := by
  rw [Stores, Classical.not_imp, not_and] at hfs
  obtain ⟨hD, hfs⟩ := hfs
  by_cases hopen : fs.accepts (parsed.createFilePath fs).filepath 0 = true ∧
      fs.accepts (parsed.createFilePath fs).filepath (min parsed.dataLen (e - header.length)) = true
  · right
    have hlen1 : (parsed.createFilePath fs).dataLen = parsed.dataLen := rfl
    have hlen : (header ++ body).length = header.length + body.length := List.length_append
    obtain ⟨k, hk⟩ := not_forall.mp (hfs hopen.1)
    -- the file is not complete after the first piece, whose size was accepted
    have hlt : e - header.length < parsed.dataLen := by
      by_contra hge
      rw [min_eq_left (by omega)] at hk
      rw [min_eq_left (by omega)] at hopen
      exact hk hopen.2
    cases k with
    | zero => exact absurd hopen.2 hk
    | succ m =>
      obtain ⟨q, c, hstate, hq⟩ := @completed_writing fs o parsed header body _ e hbody hj
        hroom hlt
      have hw : (body.take (e - header.length)).length = e - header.length := by
        rw [List.length_take]
        omega
      obtain ⟨i, -, -, hrun⟩ := @run_refused pf fs (parsed.createFilePath fs)
        (body.take (e - header.length)) q (fun m => cut (j + 1 + m)) hh.isSome_metadata c
        (fun _ => hcut _) (by omega) (by omega) m (by rw [hw, hlen1]; simpa using hk)
      refine ⟨j + 1 + (i + 1), by omega, ?_⟩
      rw [run_of_crossing hh ho hcut hj hj' he (fun _ => hopen), hstate, hrun]
      rfl
  · left
    rw [run, run_collecting hh ho hcut hj]
    exact (step_crossing_refused hh ho hj hj' he hroom hD hopen).1

/-- If the marker is right after every call, so is the number of answers. -/
theorem answers_eq {f : Feed} {n : ℕ}
    (h : ∀ i, 0 < i → ((run pf cut i f).remaining = metadataPending ↔ offset cut i < n))
    (hfail : ∀ i, 0 < i → n ≤ offset cut i → (run pf cut i f).failed = false) (i : ℕ)
    (hi : 0 < i) : answers pf cut f i = if n ≤ offset cut i then 1 else 0 := by
  have hanswer : ∀ i, 0 < i → ∀ b, (!(run pf cut i f).failed &&
      needsAnswer b (run pf cut i f).remaining) = (decide (n ≤ offset cut i) && !b) := by
    intro i hi b
    have hi1 := h i hi
    by_cases hn : n ≤ offset cut i
    · have hne : (run pf cut i f).remaining ≠ metadataPending := fun hr => by
        have := hi1.mp hr
        omega
      simp [needsAnswer, hne, hfail i hi hn, hn]
    · simp [needsAnswer, hi1.mpr (not_le.mp hn), hn]
  induction i with
  | zero => exact absurd hi (lt_irrefl 0)
  | succ i ih =>
    rw [answers, hanswer (i + 1) hi]
    rcases Nat.eq_zero_or_pos i with rfl | hpos
    · rw [answers]
      split_ifs <;> simp_all
    · rw [ih hpos]
      have hmono := offset_mono cut (Nat.le_succ i)
      by_cases hn : n ≤ offset cut i
      · simp [hn, hn.trans hmono]
      · by_cases hn' : n ≤ offset cut (i + 1) <;> simp [hn, hn']

/-- The marker and the answers are right exactly when the bytes offered up to the call in which the
header ends fit into the header buffer, the storage takes the payload, and no call after the end of
the header leaves as many payload bytes to come as the marker says. -/
theorem unambiguous_iff (hh : o.IsHeader pf fs header parsed) (ho : o.metadata = none)
    (hcut : ∀ i, 0 < cut i) {payload : Bytes} (hpayload : payload.length = parsed.dataLen)
    (trailing : Bytes) :
    Unambiguous pf cut header
        (start fs ⟨o, some ⟨[], none, 0⟩⟩ (header ++ (payload ++ trailing))) ↔
      ∀ j e, offset cut j < header.length → header.length ≤ offset cut (j + 1) →
        e = min (offset cut (j + 1)) (header ++ (payload ++ trailing)).length →
          e < maxMetadataSize ∧ Stores fs parsed (e - header.length) (fun m => cut (j + 1 + m)) ∧
            ∀ i, j < i → offset cut i + metadataPending ≠ header.length + payload.length := by
  have hbody : parsed.dataLen ≤ (payload ++ trailing).length := by
    rw [List.length_append]
    omega
  rw [hpayload]
  have hpend : 0 < metadataPending := by decide
  constructor
  · intro h j e hj hj' he
    have hreport : ∀ i, j < i → (run pf cut i (start fs ⟨o, some ⟨[], none, 0⟩⟩
        (header ++ (payload ++ trailing)))).remaining ≠ metadataPending := by
      intro i hi hrem
      have hlt := (h i (by omega)).1.mp hrem
      have hmono := offset_mono cut (Nat.succ_le_of_lt hi)
      rw [Nat.succ_eq_add_one] at hmono
      omega
    have hroom : e < maxMetadataSize := by
      by_contra hbig
      exact hreport (j + 1) (by omega) (remaining_of_oversized hh ho hcut hj hj' (he ▸ hbig))
    have hfs : Stores fs parsed (e - header.length) fun m => cut (j + 1 + m) := by
      by_contra hrefused
      rcases report_of_refused hh ho hcut hbody hj hj' he hroom hrefused with hfail | ⟨i, hi, hrem⟩
      · have hbefore : answers pf cut (start fs ⟨o, some ⟨[], none, 0⟩⟩
            (header ++ (payload ++ trailing))) j = 0 := by
          rcases Nat.eq_zero_or_pos j with rfl | hpos
          · rfl
          · rw [(h j hpos).2, if_neg (not_le.mpr hj)]
        have hnow := (h (j + 1) (by omega)).2
        rw [answers, hfail, if_neg (by simp), hbefore, if_pos hj'] at hnow
        cases hnow
      · exact hreport i hi hrem
    refine ⟨hroom, hfs, fun i hi heq => ?_⟩
    obtain ⟨k, rfl⟩ := Nat.exists_eq_add_of_lt hi
    rw [show j + k + 1 = j + 1 + k by omega] at heq
    refine hreport (j + 1 + k) (by omega) ?_
    rw [(remaining_of_crossing hh ho hcut hbody hj hj' he hroom hfs k).1]
    omega
  · intro h
    obtain ⟨j, hj, hj'⟩ := exists_crossing hcut (List.length_pos_of_ne_nil hh.ne_nil)
    obtain ⟨hroom, hfs, hne⟩ := h j _ hj hj' rfl
    have hcases : ∀ i, (offset cut i < header.length ∧ (run pf cut i (start fs
        ⟨o, some ⟨[], none, 0⟩⟩ (header ++ (payload ++ trailing)))).remaining = metadataPending) ∨
        header.length ≤ offset cut i ∧ (run pf cut i (start fs ⟨o, some ⟨[], none, 0⟩⟩
          (header ++ (payload ++ trailing)))).remaining ≠ metadataPending ∧
        (run pf cut i (start fs ⟨o, some ⟨[], none, 0⟩⟩
          (header ++ (payload ++ trailing)))).failed = false := by
      intro i
      rcases le_or_gt i j with hi | hi
      · have hlt := (offset_mono cut hi).trans_lt hj
        exact .inl ⟨hlt, by rw [run_collecting hh ho hcut hlt]; rfl⟩
      · obtain ⟨k, rfl⟩ := Nat.exists_eq_add_of_lt hi
        have hmono := offset_mono cut (Nat.succ_le_of_lt hi)
        have hi' := hne _ hi
        rw [show j + k + 1 = j + 1 + k by omega] at *
        obtain ⟨hrem, hfail⟩ := remaining_of_crossing hh ho hcut hbody hj hj' rfl hroom hfs k
        exact .inr ⟨hj'.trans hmono, by rw [hrem]; omega, hfail⟩
    have hmarker : ∀ i, 0 < i → ((run pf cut i (start fs ⟨o, some ⟨[], none, 0⟩⟩
        (header ++ (payload ++ trailing)))).remaining = metadataPending ↔
          offset cut i < header.length) := by
      intro i _
      rcases hcases i with ⟨hlt, hrem⟩ | ⟨hle, hrem, -⟩
      · exact iff_of_true hrem hlt
      · exact iff_of_false hrem (not_lt.mpr hle)
    refine fun i hi => ⟨hmarker i hi, answers_eq hmarker (fun i _ hle => ?_) i hi⟩
    rcases hcases i with ⟨hlt, -⟩ | ⟨-, -, hfail⟩
    · omega
    · exact hfail

/-- A payload of two bytes is too short for the marker. -/
theorem unambiguous_sample : Unambiguous (Sample.platform 2) (fun _ => 10) (Sample.header 2)
    (start Sample.storage ⟨Sample.object, some ⟨[], none, 0⟩⟩
      (Sample.header 2 ++ (lit "ab" ++ []))) := by
  refine (unambiguous_iff Sample.isHeader_two rfl (fun _ => by norm_num)
    (by rw [Sample.dataLen_two]; rfl) []).mpr fun j e hj hj' he => ?_
  have hsize : (Sample.header 2 ++ (lit "ab" ++ [])).length = 67 := by decide
  have hmax : maxMetadataSize = 65536 := rfl
  refine ⟨by omega, fun _ => ⟨rfl, fun _ => rfl⟩, fun i hji heq => ?_⟩
  have hmono := offset_mono (fun _ => 10) (Nat.succ_le_of_lt hji)
  have hpend : metadataPending = 32767 := rfl
  have hlen : (lit "ab").length = 2 := by decide
  rw [Nat.succ_eq_add_one] at hmono
  omega

/-- A payload of as many bytes as the marker says, offered after the header. -/
theorem not_unambiguous_sample : ¬Unambiguous (Sample.platform 32767)
    (fun _ => (Sample.header 32767).length) (Sample.header 32767)
    (start Sample.storage ⟨Sample.object, some ⟨[], none, 0⟩⟩
      (Sample.header 32767 ++ (List.replicate 32767 0 ++ []))) := by
  intro h
  have hpos : 0 < (Sample.header 32767).length :=
    List.length_pos_of_ne_nil Sample.isHeader_pending.ne_nil
  have hoff : offset (fun _ => (Sample.header 32767).length) 1 = (Sample.header 32767).length :=
    Nat.zero_add _
  have hsize := Sample.isHeader_pending.size
  have hbody : (Sample.parsed 32767).dataLen ≤ (List.replicate 32767 (0 : UInt8) ++ []).length := by
    rw [Sample.dataLen_pending, List.append_nil, List.length_replicate]
  have hrem := (remaining_of_crossing (j := 0) Sample.isHeader_pending rfl (fun _ => hpos) hbody hpos
    (by rw [hoff]) rfl (by rw [hoff]; omega) (fun _ => ⟨rfl, fun _ => rfl⟩) 0).1
  simp only [Nat.zero_add, Nat.add_zero, hoff, Nat.add_sub_cancel_left] at hrem
  have hlt := (h 1 Nat.one_pos).1.mp (hrem.trans Sample.dataLen_pending)
  rw [hoff] at hlt
  exact lt_irrefl _ hlt

end Feed
end Haggle
