import Haggle.PutDataFeed

/-!
# Chunking of a reception

The state of an object after any number of calls of `putData`, in terms of the sizes of the pieces
it was offered. The call in which the header ends decides: it returns the number of payload bytes it
has written, without the header bytes it has put before them.
-/

namespace Haggle
namespace Feed

variable {pf : Platform} {fs : FileSystem} {o parsed : DataObject} {header body : Bytes}

/-- The state after the call that is offered the bytes of the stream from `a` to `e`, with the end
of the header among them. -/
def completed (fs : FileSystem) (o parsed : DataObject) (header body : Bytes) (a e : ℕ) : Feed :=
  if maxMetadataSize ≤ e then { collecting fs o header (header ++ body) a with failed := true }
  else if parsed.dataLen = 0 then ⟨⟨parsed, none⟩, fs, 0, body, header.length, false⟩
  else if e = header.length then writing fs (parsed.createFilePath fs) [] body header.length
  else if e - header.length < parsed.dataLen then
    writing fs (parsed.createFilePath fs) (body.take (e - header.length))
      ((header ++ body).drop (a + (e - header.length))) (a + (e - header.length))
  else
    written fs (parsed.createFilePath fs) (body.take parsed.dataLen)
      ((header ++ body).drop (a + parsed.dataLen)) (a + parsed.dataLen)

theorem step_collecting (hh : o.IsHeader pf fs header parsed) (ho : o.metadata = none) {a n : ℕ}
    (hn : 0 < n) (hlt : a + n < header.length) :
    (collecting fs o header (header ++ body) a).step pf n =
      collecting fs o header (header ++ body) (a + n) := by
  have hdata : ((header ++ body).drop a).take n = (header.drop a).take n := by
    rw [List.drop_append_of_le_length (by omega), List.take_append_of_le_length]
    rw [List.length_drop]
    omega
  have hcat : header.take a ++ (header.drop a).take n = header.take (a + n) := by
    rw [← List.take_add]
  have hlen : ((header.drop a).take n).length = n := by
    rw [List.length_take, List.length_drop]
    omega
  have hne : (header.drop a).take n ≠ [] := fun h => by rw [h] at hlen; simp at hlen; omega
  have hlt' : (header.take a ++ (header.drop a).take n).length < header.length := by
    rw [hcat, List.length_take]
    omega
  have hput := Incoming.putData_collecting hh ho metadataPending
    (hcat ▸ List.take_prefix _ _) hlt' hne
  rw [step, if_neg (by simp [finished, collecting, metadataPending])]
  simp only [collecting, hdata, hput, hcat, hlen, List.drop_drop]

/-- The piece in which the header ends is the rest of the header and a first part of the body. -/
theorem piece_of_crossing {a n e : ℕ} (ha : a < header.length) (hn : header.length ≤ a + n)
    (he : e = min (a + n) (header ++ body).length) :
    ((header ++ body).drop a).take n = header.drop a ++ body.take (e - header.length) ∧
      (body.take (e - header.length)).length = e - header.length ∧ header.length ≤ e := by
  rw [List.length_append] at he
  have hle : header.length ≤ e := by omega
  refine ⟨?_, ?_, hle⟩
  · have hdl : (header.drop a).length = header.length - a := List.length_drop
    rw [List.drop_append_of_le_length ha.le, List.take_append, List.take_of_length_le (by omega),
      hdl]
    congr 1
    rw [List.take_eq_take_iff]
    omega
  · rw [List.length_take]
    omega

/-- The storage opens the file that is chosen for the payload, and lets it reach the sizes that the
calls bring it to: the call in which the header ends, which has `first` bytes behind it, and those
that follow. -/
def Stores (fs : FileSystem) (parsed : DataObject) (first : ℕ) (cut : ℕ → ℕ) : Prop :=
  parsed.dataLen ≠ 0 → fs.accepts (parsed.createFilePath fs).filepath 0 = true ∧
    ∀ k, fs.accepts (parsed.createFilePath fs).filepath
      (min parsed.dataLen (first + offset cut k)) = true

/-- The first payload bytes, those that came with the end of the header: the file is opened, and the
number of bytes written is returned unless there are none. -/
theorem putPayload_opening (hD : parsed.dataLen ≠ 0) (putLen : ℕ) (data : Bytes)
    (hopen : fs.accepts (parsed.createFilePath fs).filepath 0 = true)
    (hsize : fs.accepts (parsed.createFilePath fs).filepath (min parsed.dataLen data.length) = true) :
    Incoming.putPayload fs parsed ⟨[], none, 0⟩ putLen data =
      if data = [] then
        ⟨some putLen, parsed.dataLen, (writing fs (parsed.createFilePath fs) [] [] 0).inc,
          fs.holding (parsed.createFilePath fs).filepath []⟩
      else if data.length < parsed.dataLen then
        ⟨some data.length, parsed.dataLen - data.length,
          (writing fs (parsed.createFilePath fs) data [] 0).inc,
          fs.holding (parsed.createFilePath fs).filepath data⟩
      else
        ⟨some parsed.dataLen, 0, ⟨parsed.createFilePath fs, none⟩,
          fs.holding (parsed.createFilePath fs).filepath (data.take parsed.dataLen)⟩ := by
  have hlen : (parsed.createFilePath fs).dataLen = parsed.dataLen := rfl
  simp only [Incoming.putPayload, if_neg hD, FileSystem.openWrite_eq, if_pos hopen,
    Incoming.putFile, hlen]
  split_ifs with hempty hlt hpos
  · rfl
  · rw [min_eq_right hlt.le] at hsize
    rw [FileSystem.write_holding, List.length_nil, Nat.zero_add, if_pos hsize]
    rfl
  · rw [min_eq_left (not_lt.mp hlt)] at hsize
    rw [FileSystem.write_holding, List.length_nil, Nat.zero_add, List.length_take,
      min_eq_left (not_lt.mp hlt), if_pos hsize]
    rfl
  · omega

/-- The file cannot be opened, or it cannot hold the first payload bytes. -/
theorem putPayload_refused (hD : parsed.dataLen ≠ 0) (putLen : ℕ) (data : Bytes)
    (hfs : ¬(fs.accepts (parsed.createFilePath fs).filepath 0 = true ∧
      fs.accepts (parsed.createFilePath fs).filepath (min parsed.dataLen data.length) = true)) :
    (Incoming.putPayload fs parsed ⟨[], none, 0⟩ putLen data).ret = none := by
  have hlen : (parsed.createFilePath fs).dataLen = parsed.dataLen := rfl
  simp only [Incoming.putPayload, if_neg hD, FileSystem.openWrite_eq]
  by_cases hopen : fs.accepts (parsed.createFilePath fs).filepath 0 = true
  · have hsize : ¬fs.accepts (parsed.createFilePath fs).filepath (min parsed.dataLen data.length) =
        true := fun h => hfs ⟨hopen, h⟩
    simp only [if_pos hopen, Incoming.putFile, hlen]
    split_ifs with hempty hlt hpos
    · rw [hempty, List.length_nil, Nat.min_zero] at hsize
      exact absurd hopen hsize
    · rw [min_eq_right hlt.le] at hsize
      rw [FileSystem.write_holding, List.length_nil, Nat.zero_add, if_neg hsize]
    · rw [min_eq_left (not_lt.mp hlt)] at hsize
      rw [FileSystem.write_holding, List.length_nil, Nat.zero_add, List.length_take,
        min_eq_left (not_lt.mp hlt), if_neg hsize]
    · omega
  · rw [if_neg hopen]

/-- The call in which the header ends is the one that sees to the payload. -/
theorem step_crossing (hh : o.IsHeader pf fs header parsed) (ho : o.metadata = none) {a n e : ℕ}
    (ha : a < header.length) (hn : header.length ≤ a + n)
    (he : e = min (a + n) (header ++ body).length) :
    (collecting fs o header (header ++ body) a).step pf n =
      if maxMetadataSize ≤ e then { collecting fs o header (header ++ body) a with failed := true }
      else after (Incoming.putPayload fs parsed ⟨[], none, 0⟩ (header.length - a)
        (body.take (e - header.length))) ((header ++ body).drop a) a := by
  obtain ⟨hdata, hbl, hle⟩ := piece_of_crossing ha hn he
  have hdl : (header.drop a).length = header.length - a := List.length_drop
  have hd : header.drop a ≠ [] := List.ne_nil_of_length_pos (by omega)
  have hne : header.drop a ++ body.take (e - header.length) ≠ [] := by
    simp [hd]
  have hput := DataObject.putHeader_done hh (header.take a) (header.drop a)
    (body.take (e - header.length)) (List.take_append_drop _ _) hd
  have hsize : (header.take a).length +
      (header.drop a ++ body.take (e - header.length)).length = e := by
    rw [List.length_append, hbl, hdl, List.length_take]
    omega
  have hput' : (header.drop a ++ body.take (e - header.length)).length -
      (body.take (e - header.length)).length = header.length - a := by
    rw [List.length_append, hdl]
    omega
  rw [step_of_not_finished (by simp [finished, collecting, metadataPending])]
  simp only [collecting, hdata, Incoming.putData, if_neg hne, ho, hsize]
  by_cases hbig : maxMetadataSize ≤ e
  · rw [if_pos hbig, if_pos hbig]
    rfl
  · rw [if_neg hbig, if_neg hbig, hput]
    simp only [hput']

theorem step_completed (hh : o.IsHeader pf fs header parsed) (ho : o.metadata = none) {a n e : ℕ}
    (ha : a < header.length) (hn : header.length ≤ a + n)
    (he : e = min (a + n) (header ++ body).length)
    (hfs : parsed.dataLen ≠ 0 → fs.accepts (parsed.createFilePath fs).filepath 0 = true ∧
      fs.accepts (parsed.createFilePath fs).filepath
        (min parsed.dataLen (e - header.length)) = true) :
    (collecting fs o header (header ++ body) a).step pf n =
      completed fs o parsed header body a e := by
  obtain ⟨-, hbl, hle⟩ := piece_of_crossing ha hn he
  have hheader : a + (header.length - a) = header.length := by omega
  have hbody : ((header ++ body).drop a).drop (header.length - a) = body := by
    rw [List.drop_drop, hheader, List.drop_left]
  rw [step_crossing hh ho ha hn he, completed]
  by_cases hbig : maxMetadataSize ≤ e
  · rw [if_pos hbig, if_pos hbig]
  rw [if_neg hbig, if_neg hbig]
  by_cases hD : parsed.dataLen = 0
  · rw [if_pos hD]
    simp only [Incoming.putPayload, if_pos hD, after, hbody, hheader]
  obtain ⟨hopen, hsize⟩ := hfs hD
  rw [if_neg hD, putPayload_opening hD _ _ hopen (by rw [hbl]; exact hsize), hbl]
  by_cases heq : e = header.length
  · rw [if_pos (by simp [heq]), if_pos heq]
    simp only [after, hbody, hheader, writing]
    rfl
  have hne' : body.take (e - header.length) ≠ [] := List.ne_nil_of_length_pos (by omega)
  rw [if_neg hne', if_neg heq]
  by_cases hlt : e - header.length < parsed.dataLen
  · rw [if_pos hlt, if_pos hlt]
    simp only [after, writing, hbl, List.drop_drop]
    rfl
  · rw [if_neg hlt, if_neg hlt, List.take_take, min_eq_left (by omega)]
    simp only [after, written, List.drop_drop]

/-- The storage refuses the file in the call in which the header ends. -/
theorem step_crossing_refused (hh : o.IsHeader pf fs header parsed) (ho : o.metadata = none)
    {a n e : ℕ} (ha : a < header.length) (hn : header.length ≤ a + n)
    (he : e = min (a + n) (header ++ body).length) (hroom : e < maxMetadataSize)
    (hD : parsed.dataLen ≠ 0)
    (hfs : ¬(fs.accepts (parsed.createFilePath fs).filepath 0 = true ∧
      fs.accepts (parsed.createFilePath fs).filepath
        (min parsed.dataLen (e - header.length)) = true)) :
    ((collecting fs o header (header ++ body) a).step pf n).failed = true ∧
      ((collecting fs o header (header ++ body) a).step pf n).consumed = a := by
  obtain ⟨-, hbl, -⟩ := piece_of_crossing ha hn he
  rw [step_crossing hh ho ha hn he, if_neg (by omega), after,
    putPayload_refused hD _ _ (by rw [hbl]; exact hfs)]
  exact ⟨rfl, rfl⟩

section Run

variable {cut : ℕ → ℕ}

theorem run_collecting (hh : o.IsHeader pf fs header parsed) (ho : o.metadata = none)
    (hcut : ∀ i, 0 < cut i) {i : ℕ} (hi : offset cut i < header.length) :
    run pf cut i (start fs ⟨o, some ⟨[], none, 0⟩⟩ (header ++ body)) =
      collecting fs o header (header ++ body) (offset cut i) := by
  induction i with
  | zero => rfl
  | succ i ih =>
    rw [offset] at hi
    rw [run, ih (by omega), step_collecting hh ho (hcut i) hi]
    rfl

theorem Stores.opens {first : ℕ} (h : Stores fs parsed first cut) (hD : parsed.dataLen ≠ 0) :
    fs.accepts (parsed.createFilePath fs).filepath 0 = true ∧
      fs.accepts (parsed.createFilePath fs).filepath (min parsed.dataLen first) = true :=
  ⟨(h hD).1, (h hD).2 0⟩

/-- A storage that takes the whole payload in any pieces. -/
theorem stores_of_forall (h : parsed.dataLen ≠ 0 → ∀ n ≤ parsed.dataLen,
    fs.accepts (parsed.createFilePath fs).filepath n = true) (first : ℕ) (cut : ℕ → ℕ) :
    Stores fs parsed first cut :=
  fun hD => ⟨h hD 0 (Nat.zero_le _), fun _ => h hD _ (Nat.min_le_left _ _)⟩

/-- From the call on in which the header ends, the rest of the calls runs on the payload. -/
theorem run_of_crossing (hh : o.IsHeader pf fs header parsed) (ho : o.metadata = none)
    (hcut : ∀ i, 0 < cut i) {j e : ℕ} (hj : offset cut j < header.length)
    (hj' : header.length ≤ offset cut (j + 1))
    (he : e = min (offset cut (j + 1)) (header ++ body).length)
    (hfs : parsed.dataLen ≠ 0 → fs.accepts (parsed.createFilePath fs).filepath 0 = true ∧
      fs.accepts (parsed.createFilePath fs).filepath
        (min parsed.dataLen (e - header.length)) = true) (k : ℕ) :
    run pf cut (j + 1 + k) (start fs ⟨o, some ⟨[], none, 0⟩⟩ (header ++ body)) =
      run pf (fun m => cut (j + 1 + m)) k
        (completed fs o parsed header body (offset cut j) e) := by
  rw [run_add, run, run_collecting hh ho hcut hj, step_completed hh ho hj hj' he hfs]

/-- The end of a reception that the header call has not spoilt: the payload is in the file, and the
bytes taken are the header and the payload. -/
def received (fs : FileSystem) (parsed : DataObject) (header body : Bytes) : Feed :=
  if parsed.dataLen = 0 then ⟨⟨parsed, none⟩, fs, 0, body, header.length, false⟩
  else written fs (parsed.createFilePath fs) (body.take parsed.dataLen) (body.drop parsed.dataLen)
    (header.length + parsed.dataLen)

theorem received_consumed (fs : FileSystem) (parsed : DataObject) (header body : Bytes) :
    (received fs parsed header body).consumed = header.length + parsed.dataLen := by
  unfold received
  split_ifs with h
  · rw [h]
    rfl
  · rfl

/-- The header ends with the call, or there is no payload: the reception is as it should be. -/
theorem run_of_clean (hh : o.IsHeader pf fs header parsed) (ho : o.metadata = none)
    (hcut : ∀ i, 0 < cut i) (hbody : parsed.dataLen ≤ body.length) {j e : ℕ}
    (hj : offset cut j < header.length) (hj' : header.length ≤ offset cut (j + 1))
    (he : e = min (offset cut (j + 1)) (header ++ body).length)
    (hfs : Stores fs parsed (e - header.length) fun m => cut (j + 1 + m))
    (hclean : e = header.length ∨ parsed.dataLen = 0 ∧ e < maxMetadataSize) {k : ℕ}
    (hk : parsed.dataLen ≤ k) :
    run pf cut (j + 1 + k) (start fs ⟨o, some ⟨[], none, 0⟩⟩ (header ++ body)) =
      received fs parsed header body := by
  have hsize := hh.size
  rw [run_of_crossing hh ho hcut hj hj' he hfs.opens, completed, received]
  by_cases hD : parsed.dataLen = 0
  · rw [if_neg (by omega), if_pos hD, if_pos hD]
    exact run_of_finished (by simp [finished]) _ _
  · have heq : e = header.length := by
      rcases hclean with h | h
      · exact h
      · exact absurd h.1 hD
    have hoff : parsed.dataLen ≤ offset (fun m => cut (j + 1 + m)) k :=
      hk.trans (le_offset (fun i => hcut _) k)
    have hlen1 : (parsed.createFilePath fs).dataLen = parsed.dataLen := rfl
    rw [if_neg (by omega), if_neg hD, if_neg hD, if_pos heq,
      run_writing hh.isSome_metadata _ (fun i => hcut _) (by simp [hlen1]; omega)
        (by simpa [hlen1] using hbody) fun i _ => by simpa [heq, hlen1] using (hfs hD).2 (i + 1),
      if_neg (by simp [hlen1]; omega)]
    simp [hlen1]

/-- A call that runs into the payload gets the number of bytes taken wrong. -/
theorem run_consumed_ne (hh : o.IsHeader pf fs header parsed) (ho : o.metadata = none)
    (hcut : ∀ i, 0 < cut i) (hbody : parsed.dataLen ≤ body.length) {j e : ℕ}
    (hj : offset cut j < header.length) (hj' : header.length ≤ offset cut (j + 1))
    (he : e = min (offset cut (j + 1)) (header ++ body).length)
    (hfs : Stores fs parsed (e - header.length) fun m => cut (j + 1 + m))
    (hspoilt : ¬(e = header.length ∨ parsed.dataLen = 0 ∧ e < maxMetadataSize)) {k : ℕ}
    (hk : parsed.dataLen ≤ k) :
    (run pf cut (j + 1 + k) (start fs ⟨o, some ⟨[], none, 0⟩⟩ (header ++ body))).consumed ≠
      header.length + parsed.dataLen := by
  rw [not_or, not_and_or, not_lt] at hspoilt
  obtain ⟨hne, hD⟩ := hspoilt
  rw [run_of_crossing hh ho hcut hj hj' he hfs.opens, completed]
  rw [List.length_append] at he
  have hlen1 : (parsed.createFilePath fs).dataLen = parsed.dataLen := rfl
  have hoff : parsed.dataLen ≤ offset (fun m => cut (j + 1 + m)) k :=
    hk.trans (le_offset (fun i => hcut _) k)
  by_cases hbig : maxMetadataSize ≤ e
  · rw [if_pos hbig, run_of_finished (by simp [finished])]
    simp only [collecting]
    omega
  have hD0 : parsed.dataLen ≠ 0 := by tauto
  rw [if_neg hbig, if_neg hD0, if_neg hne]
  by_cases hlt : e - header.length < parsed.dataLen
  · have hw : (body.take (e - header.length)).length = e - header.length := by
      rw [List.length_take]
      omega
    rw [if_pos hlt, run_writing hh.isSome_metadata _ (fun i => hcut _) (by omega)
      (by rw [hw, hlen1, List.length_drop, List.length_append]; omega)
      fun i _ => by rw [hw, hlen1]; exact (hfs hD0).2 (i + 1), if_neg (by omega)]
    simp only [written]
    omega
  · rw [if_neg hlt, run_of_finished (by simp [finished, written])]
    simp only [written]
    omega

section Bytewise

theorem offset_one (i : ℕ) : offset (fun _ => 1) i = i := by
  induction i with
  | zero => rfl
  | succ i ih => rw [offset, ih]

/-- Byte by byte, the header ends with a call. -/
theorem bytewise_crossing (hne : header ≠ []) :
    offset (fun _ => 1) (header.length - 1) < header.length ∧
      header.length ≤ offset (fun _ => 1) (header.length - 1 + 1) ∧
      header.length = min (offset (fun _ => 1) (header.length - 1 + 1)) (header ++ body).length ∧
      (header ++ body).length = header.length - 1 + 1 + body.length := by
  have hpos : 0 < header.length := List.length_pos_of_ne_nil hne
  rw [offset_one, offset_one, List.length_append]
  omega

/-- Feeding byte by byte is as it should be if the storage takes the payload. -/
theorem run_bytewise (hh : o.IsHeader pf fs header parsed) (ho : o.metadata = none)
    (hbody : parsed.dataLen ≤ body.length) (hfs : parsed.dataLen ≠ 0 → ∀ n ≤ parsed.dataLen,
      fs.accepts (parsed.createFilePath fs).filepath n = true) :
    run pf (fun _ => 1) (header ++ body).length
      (start fs ⟨o, some ⟨[], none, 0⟩⟩ (header ++ body)) = received fs parsed header body := by
  obtain ⟨hj, hj', he, hlen⟩ := @bytewise_crossing header body hh.ne_nil
  rw [hlen]
  exact run_of_clean hh ho (fun _ => Nat.one_pos) hbody hj hj' he (stores_of_forall hfs _ _)
    (Or.inl rfl) hbody

/-- Feeding byte by byte fails at the first size that the storage refuses. -/
theorem bytewise_refused (hh : o.IsHeader pf fs header parsed) (ho : o.metadata = none)
    (hbody : parsed.dataLen ≤ body.length) {n : ℕ} (hD : parsed.dataLen ≠ 0)
    (hn : n ≤ parsed.dataLen) (hfs : fs.accepts (parsed.createFilePath fs).filepath n = false) :
    (run pf (fun _ => 1) (header ++ body).length
      (start fs ⟨o, some ⟨[], none, 0⟩⟩ (header ++ body))).consumed ≠
        header.length + parsed.dataLen := by
  have hlen1 : (parsed.createFilePath fs).dataLen = parsed.dataLen := rfl
  have hpos : 0 < header.length := List.length_pos_of_ne_nil hh.ne_nil
  obtain ⟨hj, hj', he, hlen⟩ := @bytewise_crossing header body hh.ne_nil
  rw [hlen]
  by_cases hopen : fs.accepts (parsed.createFilePath fs).filepath 0 = true
  · -- the file is opened, and a write into it fails
    obtain ⟨m, rfl⟩ := Nat.exists_eq_succ_of_ne_zero (n := n) fun h0 => by
      rw [h0, hopen] at hfs
      cases hfs
    rw [run_of_crossing hh ho (fun _ => Nat.one_pos) hj hj' he
      (fun _ => ⟨hopen, by simpa using hopen⟩), completed, if_neg (by have := hh.size; omega),
      if_neg hD, if_pos rfl]
    obtain ⟨i, hi, hlt, hrun⟩ := @run_refused pf fs (parsed.createFilePath fs) [] body (fun _ => 1)
      hh.isSome_metadata header.length (fun _ => Nat.one_pos) (by simp [hlen1]; omega)
      (by simpa [hlen1] using hbody) m (by simpa [hlen1, offset_one, Nat.min_eq_right hn] using hfs)
    rw [List.length_nil, Nat.zero_add, hlen1, offset_one] at hlt
    have hfin : (run pf (fun _ => 1) (i + 1)
        (writing fs (parsed.createFilePath fs) [] body header.length)).finished = true := by
      rw [hrun]
      rfl
    rw [run_of_finished_at hfin (by omega), hrun]
    simp only [refused, offset_one]
    omega
  · obtain ⟨hfail, hcons⟩ := @step_crossing_refused pf fs o parsed header body hh ho _ 1 _ hj hj' he
      hh.size hD fun h => hopen h.1
    have hrun : run pf (fun _ => 1) (header.length - 1 + 1)
        (start fs ⟨o, some ⟨[], none, 0⟩⟩ (header ++ body)) =
          (collecting fs o header (header ++ body) (offset (fun _ => 1) (header.length - 1))).step
            pf 1 := by
      rw [run, run_collecting hh ho (fun _ => Nat.one_pos) hj]
    rw [run_of_finished_at (i := header.length - 1 + 1) (by rw [hrun]; simp [finished, hfail])
      (by omega), hrun, hcons, offset_one]
    omega

end Bytewise

/-- What the calls with pieces of the given sizes come to, for a new object. -/
def outcome (pf : Platform) (fs : FileSystem) (o : DataObject) (stream : Bytes) (cut : ℕ → ℕ) :
    Feed :=
  run pf cut stream.length (start fs ⟨o, some ⟨[], none, 0⟩⟩ stream)

/-- A reception does not depend on how the stream is cut, and takes the header and the payload,
exactly when the storage takes the payload byte by byte and no byte behind the header is offered in
the call in which it ends; without a payload such bytes do no harm as long as the header buffer has
room for them. -/
theorem outcome_eq_bytewise_iff (hh : o.IsHeader pf fs header parsed) (ho : o.metadata = none)
    (hcut : ∀ i, 0 < cut i) {payload : Bytes} (hpayload : payload.length = parsed.dataLen)
    (trailing : Bytes) :
    (outcome pf fs o (header ++ (payload ++ trailing)) cut =
        outcome pf fs o (header ++ (payload ++ trailing)) (fun _ => 1) ∧
      (outcome pf fs o (header ++ (payload ++ trailing)) cut).consumed =
        header.length + payload.length) ↔
    (payload ≠ [] → ∀ n ≤ payload.length,
      fs.accepts (parsed.createFilePath fs).filepath n = true) ∧
    ∀ j, offset cut j < header.length → header.length ≤ offset cut (j + 1) →
      min (offset cut (j + 1)) (header ++ (payload ++ trailing)).length = header.length ∨
        payload = [] ∧
          min (offset cut (j + 1)) (header ++ (payload ++ trailing)).length < maxMetadataSize := by
  have hnil : payload = [] ↔ parsed.dataLen = 0 := by
    rw [← hpayload, List.length_eq_zero_iff]
  have hbody : parsed.dataLen ≤ (payload ++ trailing).length := by
    rw [List.length_append]
    omega
  have hcalls : ∀ j, offset cut j < header.length → ∃ k, parsed.dataLen ≤ k ∧
      (header ++ (payload ++ trailing)).length = j + 1 + k := by
    intro j hj
    have := crossing_lt hcut hj
    rw [List.length_append]
    exact ⟨header.length - (j + 1) + (payload ++ trailing).length, by omega, by omega⟩
  unfold outcome
  rw [Ne, hnil, hpayload]
  constructor
  · rintro ⟨heq, hcons⟩
    have hfs : parsed.dataLen ≠ 0 → ∀ n ≤ parsed.dataLen,
        fs.accepts (parsed.createFilePath fs).filepath n = true := by
      intro hD n hn
      by_contra hrefused
      rw [heq] at hcons
      exact bytewise_refused hh ho hbody hD hn (by simpa using hrefused) hcons
    refine ⟨hfs, fun j hj hj' => ?_⟩
    by_contra hspoilt
    obtain ⟨k, hk, hlen⟩ := hcalls j hj
    rw [hlen] at hcons hspoilt
    exact run_consumed_ne hh ho hcut hbody hj hj' (by rw [hlen]) (stores_of_forall hfs _ _) hspoilt
      hk hcons
  · rintro ⟨hfs, h⟩
    obtain ⟨j, hj, hj'⟩ := exists_crossing hcut (List.length_pos_of_ne_nil hh.ne_nil)
    obtain ⟨k, hk, hlen⟩ := hcalls j hj
    have hrun := run_of_clean hh ho hcut hbody hj hj' rfl (stores_of_forall hfs _ _) (h j hj hj') hk
    rw [← hlen] at hrun
    rw [run_bytewise hh ho hbody hfs, hrun]
    exact ⟨rfl, received_consumed fs parsed header _⟩

end Run

/-- A small object that arrives in pieces of 65 bytes, the length of its header. -/
theorem outcome_eq_bytewise_sample :
    outcome (Sample.platform 2) Sample.storage Sample.object (Sample.header 2 ++ (lit "ab" ++ []))
        (fun _ => 65) =
      outcome (Sample.platform 2) Sample.storage Sample.object
        (Sample.header 2 ++ (lit "ab" ++ [])) (fun _ => 1) := by
  have hH : (Sample.header 2).length = 65 := by decide
  have hlen : (Sample.header 2 ++ (lit "ab" ++ [])).length = 67 := by decide
  refine ((outcome_eq_bytewise_iff Sample.isHeader_two rfl (fun _ => by norm_num)
    (by rw [Sample.dataLen_two]; rfl) []).mpr ⟨fun _ _ _ => rfl, ?_⟩).1
  intro j hj hj'
  have hj0 : j = 0 := by
    cases j with
    | zero => rfl
    | succ j =>
      rw [hH, offset] at hj
      omega
  subst hj0
  left
  rw [hlen, hH]
  decide

/-- The same object, offered as a whole in one call. -/
theorem outcome_ne_bytewise_sample :
    ¬(outcome (Sample.platform 2) Sample.storage Sample.object
          (Sample.header 2 ++ (lit "ab" ++ [])) (fun _ => 100) =
        outcome (Sample.platform 2) Sample.storage Sample.object
          (Sample.header 2 ++ (lit "ab" ++ [])) (fun _ => 1) ∧
      (outcome (Sample.platform 2) Sample.storage Sample.object
          (Sample.header 2 ++ (lit "ab" ++ [])) (fun _ => 100)).consumed =
        (Sample.header 2).length + (lit "ab").length) := by
  rintro ⟨-, hcons⟩
  have hlen : (Sample.header 2 ++ (lit "ab" ++ [])).length = 0 + 1 + 66 := by decide
  have hH : (Sample.header 2).length = 65 := by decide
  have hdata : (lit "ab").length = (Sample.parsed 2).dataLen := by rw [Sample.dataLen_two]; rfl
  rw [outcome, hlen, hdata] at hcons
  refine run_consumed_ne Sample.isHeader_two rfl (fun _ => by norm_num)
    (by rw [Sample.dataLen_two]; decide) (by rw [hH]; decide) (by rw [hH]; decide) rfl
    (fun _ => ⟨rfl, fun _ => rfl⟩) ?_ (by rw [Sample.dataLen_two]; norm_num) hcons
  rw [Sample.dataLen_two, hlen, hH]
  decide

end Feed
end Haggle
