import Haggle.PutDataChunks

/-!
# Where a reception ends

A stream that is fed to a new object is put as a whole, with its last byte as the last byte of the
payload, if the receiver counts the payload from the right position. The position from which it
counts is the end of the header only if the piece in which the header ends goes no further.
-/

namespace Haggle
namespace DataObject

variable {pf : Platform} {fs : FileSystem} {o : DataObject}

/-- The search for the end of the header, by its result. -/
def HeaderResult.Meets (pf : Platform) (fs : FileSystem) (o : DataObject) (header data : Bytes) :
    HeaderResult → Prop
  | .more header' => header' = header ++ data ∧ ∀ i, header.length < i →
      i ≤ (header ++ data).length → endsHeader ((header ++ data).take i) = false
  | .failed _ => True
  | .done parsed rest => ∃ found, data = found ++ rest ∧ endsHeader (header ++ found) = true ∧
      completeHeader pf fs o (header ++ found) = (parsed, true) ∧ ∀ i, header.length < i →
        i < (header ++ found).length → endsHeader ((header ++ found).take i) = false

theorem putHeader_meets (header data : Bytes) :
    (putHeader pf fs o header data).Meets pf fs o header data := by
  induction data generalizing header with
  | nil =>
    refine ⟨by simp, fun i hi hle => ?_⟩
    simp only [List.append_nil] at hle
    omega
  | cons b data ih =>
    have hcat : ∀ l : Bytes, header ++ b :: l = header ++ [b] ++ l := by simp
    have hlen : (header ++ [b]).length = header.length + 1 := by simp
    have hback : endsHeader (header ++ [b]) = false → ∀ (l : Bytes) (i : ℕ), header.length < i →
        (header.length + 1 < i → endsHeader ((header ++ [b] ++ l).take i) = false) →
          endsHeader ((header ++ [b] ++ l).take i) = false := by
      intro hend l i hi hlater
      rcases Nat.eq_or_lt_of_le (Nat.succ_le_of_lt hi) with heq | hlt
      · rw [← heq, Nat.succ_eq_add_one, ← hlen, List.take_left]
        exact hend
      · exact hlater hlt
    unfold putHeader
    by_cases hend : endsHeader (header ++ [b]) = true
    · rw [if_pos hend]
      cases hc : completeHeader pf fs o (header ++ [b]) with
      | mk o' ok =>
        cases ok with
        | false => trivial
        | true =>
          refine ⟨[b], rfl, hend, hc, fun i hi hlt => ?_⟩
          omega
    · have hend' : endsHeader (header ++ [b]) = false := by simpa using hend
      rw [if_neg hend]
      have hrest := ih (header ++ [b])
      cases hput : putHeader pf fs o (header ++ [b]) data with
      | more header' =>
        rw [hput] at hrest
        obtain ⟨heq, hno⟩ := hrest
        refine ⟨heq.trans (hcat data).symm, fun i hi hle => ?_⟩
        rw [hcat] at hle ⊢
        exact hback hend' data i hi fun hlt => hno i (by omega) hle
      | failed o' => trivial
      | done parsed rest =>
        rw [hput] at hrest
        obtain ⟨found, hdata, hfound, hparse, hno⟩ := hrest
        refine ⟨b :: found, by rw [hdata, List.cons_append], by rw [hcat]; exact hfound,
          by rw [hcat]; exact hparse, fun i hi hlt => ?_⟩
        rw [hcat] at hlt ⊢
        exact hback hend' found i hi fun hlt' => hno i (by omega) hlt

end DataObject

namespace Feed

variable {pf : Platform} {fs : FileSystem} {o parsed : DataObject} {header body stream : Bytes}
  {cut : ℕ → ℕ}

/-- The stream is put as a whole, and its last byte is the last one of the object. -/
def Complete (f : Feed) (stream : Bytes) : Prop :=
  f.failed = false ∧ f.remaining = 0 ∧ f.consumed = stream.length

section Searching

/-- No header has been found. -/
def Searching (fs : FileSystem) (o : DataObject) (stream : Bytes) (f : Feed) : Prop :=
  f.failed = true ∨ ∃ n ≤ stream.length, f = collecting fs o stream stream n ∧
    ∀ i ≤ n, endsHeader (stream.take i) = false

theorem searching_step (ho : o.metadata = none)
    (hno : ∀ h parsed, h <+: stream → ¬o.IsHeader pf fs h parsed) {f : Feed}
    (hf : Searching fs o stream f) (n : ℕ) : Searching fs o stream (f.step pf n) := by
  rcases hf with hfail | ⟨a, ha, rfl, hsearched⟩
  · rw [step_of_finished (by simp [finished, hfail])]
    exact .inl hfail
  rw [step, if_neg (by simp [finished, collecting, metadataPending])]
  set data := (stream.drop a).take n with hdata
  have hsplit : stream.take a ++ data = stream.take (a + data.length) := by
    rw [List.take_add, hdata, List.length_take, ← List.take_take, List.take_length]
  have hbound : a + data.length ≤ stream.length := by
    rw [hdata, List.length_take, List.length_drop]
    omega
  have hpre : (stream.take a).length = a := by
    rw [List.length_take]
    omega
  simp only [collecting, Incoming.putData, ← hdata]
  by_cases hnil : data = []
  · simp only [hnil, if_true]
    exact .inr ⟨a, ha, rfl, hsearched⟩
  rw [if_neg hnil]
  simp only [ho]
  by_cases hbig : maxMetadataSize ≤ (stream.take a).length + data.length
  · rw [if_pos hbig]
    exact .inl rfl
  rw [if_neg hbig]
  have hmeets := @DataObject.putHeader_meets pf fs o (stream.take a) data
  cases hput : o.putHeader pf fs (stream.take a) data with
  | more header' =>
    rw [hput] at hmeets
    obtain ⟨rfl, hlater⟩ := hmeets
    refine .inr ⟨a + data.length, hbound, ?_, fun i hi => ?_⟩
    · simp only [collecting, hsplit, List.drop_drop]
    · by_cases hia : i ≤ a
      · exact hsearched i hia
      · have h := hlater i (by omega) (by rw [List.length_append]; omega)
        rwa [hsplit, List.take_take, Nat.min_eq_left hi] at h
  | failed o' => exact .inl rfl
  | done parsed rest =>
    rw [hput] at hmeets
    obtain ⟨found, hfound, hend, hparse, hfirst⟩ := hmeets
    have hprefix : stream.take a ++ found <+: stream := by
      refine .trans ?_ (hsplit ▸ List.take_prefix (a + data.length) stream)
      rw [hfound]
      exact (List.prefix_append_right_inj _).mpr (List.prefix_append _ _)
    refine absurd ⟨?_, fun i hi => ?_, hend, hparse⟩ (hno _ parsed hprefix)
    · have hle : found.length ≤ data.length := by
        rw [hfound, List.length_append]
        omega
      rw [List.length_append]
      omega
    · by_cases hia : i ≤ a
      · rw [List.take_append_of_le_length (by omega), List.take_take, Nat.min_eq_left hia]
        exact hsearched i hia
      · exact hfirst i (by omega) hi

/-- Without a header in the stream, nothing is put together. -/
theorem not_complete_of_searching (ho : o.metadata = none)
    (hno : ∀ h parsed, h <+: stream → ¬o.IsHeader pf fs h parsed) :
    ¬(outcome pf fs o stream cut).Complete stream := by
  have hrun : ∀ k,
      Searching fs o stream (run pf cut k (start fs ⟨o, some ⟨[], none, 0⟩⟩ stream)) := by
    intro k
    induction k with
    | zero =>
      refine .inr ⟨0, Nat.zero_le _, rfl, fun i hi => ?_⟩
      rw [Nat.le_zero.mp hi]
      rfl
    | succ k ih => exact searching_step ho hno ih (cut k)
  rintro ⟨hfail, hrem, -⟩
  rcases hrun stream.length with h | ⟨n, -, h, -⟩
  · rw [outcome, h] at hfail
    cases hfail
  · rw [outcome, h] at hrem
    exact absurd hrem (by simp [collecting, metadataPending])

end Searching

section Payload

variable {w q : Bytes}

/-- One call in a payload that is not there as a whole. -/
theorem step_starved (ho : o.metadata.isSome) (c n : ℕ) (hq : w.length + q.length < o.dataLen) :
    ((writing fs o w q c).step pf n).failed = true ∨
      ∃ w' q' c', w'.length + q'.length = w.length + q.length ∧
        (writing fs o w q c).step pf n = writing fs o w' q' c' := by
  obtain ⟨m, hm⟩ := Option.isSome_iff_exists.mp ho
  have hfin : (writing fs o w q c).finished = false := by
    have hpos : o.dataLen - w.length ≠ 0 := by omega
    simp [finished, writing, hpos]
  have hlen : (q.take n).length ≤ q.length := by
    rw [List.length_take]
    exact Nat.min_le_right _ _
  rw [step_of_not_finished hfin]
  by_cases hnil : q.take n = []
  · refine .inr ⟨w, q, c, rfl, ?_⟩
    simp only [writing, Incoming.putData, hnil, if_true, after, List.drop_zero, Nat.add_zero]
  · have hlt : (q.take n).length < o.dataLen - w.length := by omega
    simp only [writing, Incoming.putData, if_neg hnil, hm, Incoming.putPayload, Incoming.putFile,
      if_pos hlt, FileSystem.write_holding]
    by_cases hfs : fs.accepts o.filepath (w.length + (q.take n).length) = true
    · refine .inr ⟨w ++ q.take n, q.drop (q.take n).length, c + (q.take n).length, ?_, ?_⟩
      · rw [List.length_append, List.length_drop]
        omega
      · simp only [if_pos hfs, after, List.length_append, Nat.sub_add_eq]
    · rw [if_neg hfs]
      exact .inl rfl

theorem run_starved (ho : o.metadata.isSome) (c : ℕ) (hq : w.length + q.length < o.dataLen)
    (k : ℕ) : ¬(run pf cut k (writing fs o w q c)).Complete stream := by
  have hrun : (run pf cut k (writing fs o w q c)).failed = true ∨
      ∃ w' q' c', w'.length + q'.length = w.length + q.length ∧
        run pf cut k (writing fs o w q c) = writing fs o w' q' c' := by
    induction k with
    | zero => exact .inr ⟨w, q, c, rfl, rfl⟩
    | succ k ih =>
      rw [run]
      rcases ih with hfail | ⟨w', q', c', hlen, heq⟩
      · rw [step_of_finished (by simp [finished, hfail])]
        exact .inl hfail
      · rw [heq, ← hlen]
        exact step_starved ho c' (cut k) (by omega)
  rintro ⟨hfail, hrem, -⟩
  rcases hrun with h | ⟨w', q', c', hlen, heq⟩
  · rw [h] at hfail
    cases hfail
  · rw [heq] at hrem
    change o.dataLen - w'.length = 0 at hrem
    omega

/-- What is left is put as a whole if it is as long as what the object lacks, and the storage takes
it. -/
theorem complete_writing_iff (ho : o.metadata.isSome) (hcut : ∀ i, 0 < cut i)
    (hw : w.length < o.dataLen) {c k : ℕ} (htotal : c + q.length = stream.length)
    (hk : q.length ≤ k) :
    (run pf cut k (writing fs o w q c)).Complete stream ↔ w.length + q.length = o.dataLen ∧
      ∀ i, fs.accepts o.filepath (min o.dataLen (w.length + offset cut (i + 1))) = true := by
  by_cases hq : o.dataLen - w.length ≤ q.length
  · have hoff := le_offset hcut k
    have hrun := fun hfs : ∀ i < k,
      fs.accepts o.filepath (min o.dataLen (w.length + offset cut (i + 1))) = true =>
        @run_writing pf fs o w q cut ho c hcut hw hq k hfs
    rw [if_neg (show ¬w.length + offset cut k < o.dataLen by omega)] at hrun
    constructor
    · intro hcomplete
      have hfs : ∀ i, fs.accepts o.filepath (min o.dataLen (w.length + offset cut (i + 1))) =
          true := by
        intro i
        by_contra hrefused
        obtain ⟨m, -, hlt, hm⟩ :=
          @run_refused pf fs o w q cut ho c hcut hw hq i (by simpa using hrefused)
        have hle := le_offset hcut m
        have hfail := hcomplete.1
        rw [run_of_finished_at (i := m + 1) (by rw [hm]; rfl) (by omega), hm] at hfail
        cases hfail
      have hcons := hcomplete.2.2
      rw [hrun fun i _ => hfs i] at hcons
      change c + (o.dataLen - w.length) = stream.length at hcons
      exact ⟨by omega, hfs⟩
    · rintro ⟨hlen, hfs⟩
      rw [hrun fun i _ => hfs i]
      refine ⟨rfl, rfl, ?_⟩
      change c + (o.dataLen - w.length) = stream.length
      omega
  · refine iff_of_false (run_starved ho c (by omega) k) ?_
    omega

end Payload

section Boundary

/-- The position from which the receiver counts the payload, if the header ends in the call that is
offered the bytes from `a` to `e`. -/
def boundary (header : Bytes) (a e : ℕ) : ℕ := if e = header.length then header.length else a

/-- The payload that the receiver expects ends with the stream. -/
def Agrees (cut : ℕ → ℕ) (header : Bytes) (dataLen total : ℕ) : Prop :=
  ∀ j, offset cut j < header.length → header.length ≤ offset cut (j + 1) →
    min (offset cut (j + 1)) total < maxMetadataSize ∧
      boundary header (offset cut j) (min (offset cut (j + 1)) total) + dataLen = total

/-- The storage takes the payload in the pieces of the calls. -/
def Keeps (cut : ℕ → ℕ) (fs : FileSystem) (parsed : DataObject) (header : Bytes) (total : ℕ) :
    Prop :=
  ∀ j, offset cut j < header.length → header.length ≤ offset cut (j + 1) →
    Stores fs parsed (min (offset cut (j + 1)) total - header.length) fun m => cut (j + 1 + m)

theorem complete_completed_iff (hh : o.IsHeader pf fs header parsed) (hcut : ∀ i, 0 < cut i)
    {a e k : ℕ} (ha : a < header.length) (he : header.length ≤ e)
    (hle : e ≤ (header ++ body).length) (hk : (header ++ body).length ≤ k + a + 1)
    (hroom : e < maxMetadataSize)
    (hfs : parsed.dataLen ≠ 0 → fs.accepts (parsed.createFilePath fs).filepath 0 = true ∧
      fs.accepts (parsed.createFilePath fs).filepath
        (min parsed.dataLen (e - header.length)) = true) :
    (run pf cut k (completed fs o parsed header body a e)).Complete (header ++ body) ↔
      boundary header a e + parsed.dataLen = (header ++ body).length ∧
        Stores fs parsed (e - header.length) cut := by
  have hlen : (header ++ body).length = header.length + body.length := List.length_append
  have hcreate : (parsed.createFilePath fs).dataLen = parsed.dataLen := rfl
  -- the sizes behind the first one
  have hstores : parsed.dataLen ≠ 0 → (Stores fs parsed (e - header.length) cut ↔
      ∀ i, fs.accepts (parsed.createFilePath fs).filepath
        (min parsed.dataLen (e - header.length + offset cut (i + 1))) = true) := by
    refine fun hD => ⟨fun h i => (h hD).2 (i + 1), fun h _ => ⟨(hfs hD).1, fun k => ?_⟩⟩
    cases k with
    | zero => exact (hfs hD).2
    | succ k => exact h k
  unfold completed boundary
  rw [if_neg (by omega)]
  by_cases hD : parsed.dataLen = 0
  · rw [if_pos hD, run_of_finished (by simp [finished]), hD]
    have hcomplete : Complete ⟨⟨parsed, none⟩, fs, 0, body, header.length, false⟩
        (header ++ body) ↔ header.length = (header ++ body).length := by
      simp [Complete]
    have htrivial : Stores fs parsed (e - header.length) cut := fun h => absurd hD h
    rw [hcomplete, and_iff_left htrivial]
    split_ifs <;> omega
  rw [if_neg hD, hstores hD]
  by_cases heq : e = header.length
  · rw [if_pos heq, if_pos heq, complete_writing_iff hh.isSome_metadata hcut
      (by rw [hcreate, List.length_nil]; omega) hlen.symm (by omega), hcreate, List.length_nil, heq,
      Nat.sub_self]
    exact and_congr_left fun _ => by omega
  rw [if_neg heq, if_neg heq]
  by_cases hlt : e - header.length < parsed.dataLen
  · have hw : (body.take (e - header.length)).length = e - header.length := by
      rw [List.length_take]
      omega
    have hq : ((header ++ body).drop (a + (e - header.length))).length =
        (header ++ body).length - (a + (e - header.length)) := List.length_drop
    rw [if_pos hlt, complete_writing_iff hh.isSome_metadata hcut (by omega) (by omega)
      (by omega), hw, hq, hcreate]
    exact and_congr_left fun _ => by omega
  · rw [if_neg hlt, run_of_finished (by simp [finished, written])]
    have hcomplete : Complete (written fs (parsed.createFilePath fs) (body.take parsed.dataLen)
        ((header ++ body).drop (a + parsed.dataLen)) (a + parsed.dataLen)) (header ++ body) ↔
          a + parsed.dataLen = (header ++ body).length := by
      simp only [Complete, written, true_and]
    rw [hcomplete, and_iff_left]
    intro i
    have hsize := (hfs hD).2
    rw [min_eq_left (by omega)] at hsize ⊢
    exact hsize

/-- The calls from the one in which the header ends put the stream as a whole if they agree on the
payload and the storage takes it. -/
theorem complete_crossing_iff (hh : o.IsHeader pf fs header parsed) (ho : o.metadata = none)
    (hcut : ∀ i, 0 < cut i) {j e : ℕ} (hj : offset cut j < header.length)
    (hj' : header.length ≤ offset cut (j + 1))
    (he : e = min (offset cut (j + 1)) (header ++ body).length) :
    (outcome pf fs o (header ++ body) cut).Complete (header ++ body) ↔
      (e < maxMetadataSize ∧
        boundary header (offset cut j) e + parsed.dataLen = (header ++ body).length) ∧
      Stores fs parsed (e - header.length) fun m => cut (j + 1 + m) := by
  have hcalls := crossing_lt hcut hj
  have hoff := le_offset hcut j
  have hlen : (header ++ body).length = header.length + body.length := List.length_append
  obtain ⟨k, hk⟩ : ∃ k, (header ++ body).length = j + 1 + k :=
    ⟨(header ++ body).length - (j + 1), by omega⟩
  have hrun : run pf cut (j + 1) (start fs ⟨o, some ⟨[], none, 0⟩⟩ (header ++ body)) =
      (collecting fs o header (header ++ body) (offset cut j)).step pf (cut j) := by
    rw [run, run_collecting hh ho hcut hj]
  -- a call that fails ends the reception
  have hfailed : ((collecting fs o header (header ++ body) (offset cut j)).step pf (cut j)).failed =
      true → ¬(outcome pf fs o (header ++ body) cut).Complete (header ++ body) := by
    rintro hfail ⟨hnot, -⟩
    rw [outcome, run_of_finished_at (i := j + 1) (by rw [hrun]; simp [finished, hfail]) (by omega),
      hrun, hfail] at hnot
    cases hnot
  by_cases hroom : e < maxMetadataSize
  · by_cases hfs : parsed.dataLen ≠ 0 → fs.accepts (parsed.createFilePath fs).filepath 0 = true ∧
        fs.accepts (parsed.createFilePath fs).filepath
          (min parsed.dataLen (e - header.length)) = true
    · rw [outcome, hk, run_of_crossing hh ho hcut hj hj' he hfs, ← hk,
        complete_completed_iff hh (fun _ => hcut _) hj (by omega) (by omega) (by omega) hroom hfs,
        and_iff_right hroom]
    · refine iff_of_false ?_ fun h => hfs h.2.opens
      rw [Classical.not_imp] at hfs
      exact hfailed (step_crossing_refused hh ho hj hj' he hroom hfs.1 hfs.2).1
  · refine iff_of_false (hfailed ?_) fun h => hroom h.1.1
    rw [step_crossing hh ho hj hj' he, if_pos (not_lt.mp hroom)]

/-- The stream is put as a whole exactly if it begins with a header that the receiver can parse, the
payload that this header announces ends with the stream, and the storage takes it. -/
theorem complete_outcome_iff (ho : o.metadata = none) (hcut : ∀ i, 0 < cut i) :
    (outcome pf fs o stream cut).Complete stream ↔ ∃ header parsed, header <+: stream ∧
      o.IsHeader pf fs header parsed ∧ Agrees cut header parsed.dataLen stream.length ∧
        Keeps cut fs parsed header stream.length := by
  constructor
  · intro hcomplete
    by_cases hsome : ∃ header parsed, header <+: stream ∧ o.IsHeader pf fs header parsed
    · obtain ⟨header, parsed, ⟨body, rfl⟩, hh⟩ := hsome
      exact ⟨header, parsed, List.prefix_append _ _, hh,
        fun j hj hj' => ((complete_crossing_iff hh ho hcut hj hj' rfl).mp hcomplete).1,
        fun j hj hj' => ((complete_crossing_iff hh ho hcut hj hj' rfl).mp hcomplete).2⟩
    · have hno : ∀ h parsed, h <+: stream → ¬o.IsHeader pf fs h parsed :=
        fun h parsed hp hh => hsome ⟨h, parsed, hp, hh⟩
      exact absurd hcomplete (not_complete_of_searching ho hno)
  · rintro ⟨header, parsed, ⟨body, rfl⟩, hh, hagrees, hkeeps⟩
    obtain ⟨j, hj, hj'⟩ := exists_crossing hcut (List.length_pos_of_ne_nil hh.ne_nil)
    exact (complete_crossing_iff hh ho hcut hj hj' rfl).mpr ⟨hagrees j hj hj', hkeeps j hj hj'⟩

/-- If the header announces the payload as it is, the piece in which the header ends has to end with
it. -/
theorem agrees_payload_iff (cut : ℕ → ℕ) {header payload : Bytes}
    (hsize : header.length < maxMetadataSize) :
    Agrees cut header payload.length (header ++ payload).length ↔
      ∀ j, offset cut j < header.length → header.length ≤ offset cut (j + 1) →
        min (offset cut (j + 1)) (header ++ payload).length = header.length := by
  refine forall_congr' fun j => forall_congr' fun hj => forall_congr' fun hj' => ?_
  rw [List.length_append, boundary]
  split_ifs with h
  · simp only [h, hsize, and_self]
  · constructor
    · rintro ⟨-, heq⟩
      omega
    · intro heq
      exact absurd heq h

end Boundary

end Feed
end Haggle
