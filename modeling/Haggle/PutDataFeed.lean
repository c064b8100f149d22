import Haggle.PutData

/-!
# Feeding a byte stream to a data object

A caller offers the stream piece by piece and, after each call, drops as many bytes as `putData`
says it has put. The sizes of the pieces are a sequence `cut`, and `offset cut i` is what the first
`i` calls would offer together.
-/

namespace Haggle

/-- The caller's side of a reception: the bytes not yet taken and how many were taken. -/
structure Feed where
  inc : Incoming
  fs : FileSystem
  remaining : ℕ
  rest : Bytes
  consumed : ℕ
  failed : Bool

namespace Feed

variable {pf : Platform}

def start (fs : FileSystem) (x : Incoming) (stream : Bytes) : Feed :=
  ⟨x, fs, metadataPending, stream, 0, false⟩

/-- The caller stops at an error and when no byte remains to be put. -/
def finished (f : Feed) : Bool := f.failed || decide (f.remaining = 0)

def step (pf : Platform) (n : ℕ) (f : Feed) : Feed :=
  if f.finished then f
  else
    let r := f.inc.putData pf f.fs f.remaining (f.rest.take n)
    match r.ret with
    | none => ⟨r.inc, r.fs, r.remaining, f.rest, f.consumed, true⟩
    | some k => ⟨r.inc, r.fs, r.remaining, f.rest.drop k, f.consumed + k, false⟩

/-- The state after `i` calls. -/
def run (pf : Platform) (cut : ℕ → ℕ) : ℕ → Feed → Feed
  | 0, f => f
  | i + 1, f => (run pf cut i f).step pf (cut i)

def offset (cut : ℕ → ℕ) : ℕ → ℕ
  | 0 => 0
  | i + 1 => offset cut i + cut i

theorem offset_mono (cut : ℕ → ℕ) {i j : ℕ} (h : i ≤ j) : offset cut i ≤ offset cut j := by
  induction j, h using Nat.le_induction with
  | base => exact le_rfl
  | succ j _ ih => exact ih.trans (Nat.le_add_right _ _)

theorem sub_le_offset_sub {cut : ℕ → ℕ} (hcut : ∀ i, 0 < cut i) {i j : ℕ} (h : i ≤ j) :
    offset cut i + (j - i) ≤ offset cut j := by
  induction j, h using Nat.le_induction with
  | base => simp
  | succ j hj ih =>
    have := hcut j
    rw [offset]
    omega

theorem le_offset {cut : ℕ → ℕ} (hcut : ∀ i, 0 < cut i) (i : ℕ) : i ≤ offset cut i := by
  simpa [offset] using sub_le_offset_sub hcut (Nat.zero_le i)

theorem exists_crossing {cut : ℕ → ℕ} (hcut : ∀ i, 0 < cut i) {n : ℕ} (hn : 0 < n) :
    ∃ j, offset cut j < n ∧ n ≤ offset cut (j + 1) := by
  have hex : ∃ j, n ≤ offset cut j := ⟨n, le_offset hcut n⟩
  obtain ⟨k, hk⟩ : ∃ k, Nat.find hex = k + 1 := by
    refine Nat.exists_eq_succ_of_ne_zero fun h0 => ?_
    have := Nat.find_spec hex
    rw [h0, offset] at this
    omega
  refine ⟨k, ?_, hk ▸ Nat.find_spec hex⟩
  exact not_le.mp (Nat.find_min hex (by omega))

theorem crossing_lt {cut : ℕ → ℕ} (hcut : ∀ i, 0 < cut i) {j n : ℕ} (hj : offset cut j < n) :
    j + 1 ≤ n := (Nat.lt_of_le_of_lt (le_offset hcut j) hj)

/-- What a caller makes of the result of a call. -/
def after (r : PutResult) (rest : Bytes) (consumed : ℕ) : Feed :=
  match r.ret with
  | none => ⟨r.inc, r.fs, r.remaining, rest, consumed, true⟩
  | some k => ⟨r.inc, r.fs, r.remaining, rest.drop k, consumed + k, false⟩

theorem step_of_not_finished {f : Feed} (h : f.finished = false) (n : ℕ) :
    f.step pf n = after (f.inc.putData pf f.fs f.remaining (f.rest.take n)) f.rest f.consumed := by
  rw [step, h, if_neg Bool.false_ne_true]
  rfl

theorem step_of_finished {f : Feed} (h : f.finished = true) (n : ℕ) : f.step pf n = f := by
  rw [step, if_pos h]

/-- `run` from a later call on. -/
theorem run_add (cut : ℕ → ℕ) (i k : ℕ) (f : Feed) :
    run pf cut (i + k) f = run pf (fun m => cut (i + m)) k (run pf cut i f) := by
  induction k with
  | zero => rfl
  | succ k ih => rw [← Nat.add_assoc, run, run, ih]

theorem offset_add (cut : ℕ → ℕ) (i k : ℕ) :
    offset cut (i + k) = offset cut i + offset (fun m => cut (i + m)) k := by
  induction k with
  | zero => rfl
  | succ k ih => rw [← Nat.add_assoc, offset, offset, ih, Nat.add_assoc]

theorem run_of_finished_at {cut : ℕ → ℕ} {f : Feed} {i k : ℕ}
    (h : (run pf cut i f).finished = true) (hk : i ≤ k) : run pf cut k f = run pf cut i f := by
  induction k, hk using Nat.le_induction with
  | base => rfl
  | succ k _ ih => rw [run, ih, step_of_finished h]

theorem run_of_finished {f : Feed} (h : f.finished = true) (cut : ℕ → ℕ) (i : ℕ) :
    run pf cut i f = f := run_of_finished_at (i := 0) h (Nat.zero_le i)

end Feed

/-- The file system while `written` is in the file opened at `path`. -/
def FileSystem.holding (fs : FileSystem) (path written : Bytes) : FileSystem :=
  { fs with
    files := AssocList.set path written fs.files
    log := fs.log ++ [.openWrite path] }

theorem FileSystem.openWrite_eq (fs : FileSystem) (path : Bytes) :
    fs.openWrite path = if fs.accepts path 0 then some (fs.holding path []) else none := rfl

theorem FileSystem.write_holding (fs : FileSystem) (path written data : Bytes) :
    (fs.holding path written).write path data =
      if fs.accepts path (written.length + data.length) then some (fs.holding path (written ++ data))
      else none := by
  have hc : (fs.holding path written).contents path = some written := by
    simp [FileSystem.contents, FileSystem.holding]
  rw [FileSystem.write]
  simp only [hc, Option.getD_some]
  rw [show (fs.holding path written).accepts = fs.accepts from rfl]
  simp [FileSystem.holding, AssocList.set_set]

namespace Feed

variable {pf : Platform}

/-- While the header is incomplete, all that was offered is in it. -/
def collecting (fs : FileSystem) (o : DataObject) (header stream : Bytes) (n : ℕ) : Feed where
  inc := ⟨o, some ⟨header.take n, none, 0⟩⟩
  fs := fs
  remaining := metadataPending
  rest := stream.drop n
  consumed := n
  failed := false

/-- While the payload is incomplete: `written` is in the file. -/
def writing (fs : FileSystem) (o : DataObject) (written rest : Bytes) (consumed : ℕ) : Feed where
  inc := ⟨o, some ⟨[], some o.filepath, o.dataLen - written.length⟩⟩
  fs := fs.holding o.filepath written
  remaining := o.dataLen - written.length
  rest := rest
  consumed := consumed
  failed := false

/-- The payload is complete. -/
def written (fs : FileSystem) (o : DataObject) (payload rest : Bytes) (consumed : ℕ) : Feed where
  inc := ⟨o, none⟩
  fs := fs.holding o.filepath payload
  remaining := 0
  rest := rest
  consumed := consumed
  failed := false

/-- The storage has refused to write the next piece; the number that is reported is that of an
incomplete header. -/
def refused (fs : FileSystem) (o : DataObject) (written rest : Bytes) (consumed : ℕ) : Feed where
  inc := ⟨o, none⟩
  fs := fs.holding o.filepath written
  remaining := metadataPending
  rest := rest
  consumed := consumed
  failed := true

variable {fs : FileSystem} {o : DataObject} {w q : Bytes}

/-- One call in the payload: it puts the piece it is offered, up to the end of the payload, if the
storage lets the file reach that size. -/
theorem step_writing (ho : o.metadata.isSome) (c : ℕ) {n : ℕ} (hn : 0 < n)
    (hw : w.length < o.dataLen) (hq : o.dataLen - w.length ≤ q.length) :
    (writing fs o w q c).step pf n =
      if fs.accepts o.filepath (min o.dataLen (w.length + n)) then
        if w.length + n < o.dataLen then writing fs o (w ++ q.take n) (q.drop n) (c + n)
        else written fs o (w ++ q.take (o.dataLen - w.length)) (q.drop (o.dataLen - w.length))
          (c + (o.dataLen - w.length))
      else refused fs o w q c := by
  obtain ⟨m, hm⟩ := Option.isSome_iff_exists.mp ho
  have hne : q.take n ≠ [] := by
    rw [Ne, List.take_eq_nil_iff, not_or]
    exact ⟨by omega, fun h => by rw [h, List.length_nil] at hq; omega⟩
  have hfin : (writing fs o w q c).finished = false := by
    have hpos : o.dataLen - w.length ≠ 0 := by omega
    simp [finished, writing, hpos]
  rw [step, hfin, if_neg Bool.false_ne_true]
  simp only [writing, Incoming.putData, if_neg hne, hm, Incoming.putPayload, Incoming.putFile,
    List.length_take]
  by_cases hlt : w.length + n < o.dataLen
  · have hmin : min n q.length = n := by omega
    rw [hmin, if_pos (by omega), FileSystem.write_holding, List.length_take, hmin, if_pos hlt,
      min_eq_right (by omega)]
    split_ifs
    · simp only [List.length_append, List.length_take, hmin, Nat.sub_add_eq]
    · rfl
  · have hsize : w.length + (o.dataLen - w.length) = o.dataLen := by omega
    rw [if_neg (by omega), if_pos (by omega), FileSystem.write_holding, List.take_take,
      min_eq_left (by omega), List.length_take, min_eq_left hq, hsize, if_neg hlt,
      min_eq_left (by omega)]
    split_ifs <;> rfl

section Calls

variable {cut : ℕ → ℕ}

/-- The calls in the payload, together. -/
theorem run_writing (ho : o.metadata.isSome) (c : ℕ) (hcut : ∀ i, 0 < cut i)
    (hw : w.length < o.dataLen) (hq : o.dataLen - w.length ≤ q.length) {k : ℕ}
    (hfs : ∀ i < k, fs.accepts o.filepath (min o.dataLen (w.length + offset cut (i + 1))) = true) :
    run pf cut k (writing fs o w q c) =
      if w.length + offset cut k < o.dataLen then
        writing fs o (w ++ q.take (offset cut k)) (q.drop (offset cut k)) (c + offset cut k)
      else written fs o (w ++ q.take (o.dataLen - w.length)) (q.drop (o.dataLen - w.length))
        (c + (o.dataLen - w.length)) := by
  induction k with
  | zero => simp [run, offset, hw]
  | succ k ih =>
    rw [run, ih fun i hi => hfs i (by omega), offset]
    by_cases hk : w.length + offset cut k < o.dataLen
    · have hlen : (w ++ q.take (offset cut k)).length = w.length + offset cut k := by
        rw [List.length_append, List.length_take, min_eq_left (by omega)]
      have hnext : fs.accepts o.filepath (min o.dataLen (w.length + (offset cut k + cut k))) = true :=
        hfs k (Nat.lt_succ_self k)
      rw [if_pos hk, step_writing ho _ (hcut k) (by omega)
        (by rw [hlen, List.length_drop]; omega), hlen, Nat.add_assoc, if_pos hnext]
      have hsplit : ∀ m, w ++ q.take (offset cut k) ++ (q.drop (offset cut k)).take m =
          w ++ q.take (offset cut k + m) := by
        intro m
        rw [List.append_assoc, ← List.take_add]
      rw [hsplit, hsplit, List.drop_drop, List.drop_drop, ← Nat.add_assoc, Nat.add_assoc c,
        Nat.add_assoc c]
      have hrest : offset cut k + (o.dataLen - (w.length + offset cut k)) =
          o.dataLen - w.length := by
        omega
      rw [hrest]
    · rw [if_neg hk, if_neg (by omega)]
      exact step_of_finished (by simp [finished, written]) _

/-- If the storage refuses one of the sizes that the file is to have, a call fails: the first one
that is to bring it to such a size. -/
theorem run_refused (ho : o.metadata.isSome) (c : ℕ) (hcut : ∀ i, 0 < cut i)
    (hw : w.length < o.dataLen) (hq : o.dataLen - w.length ≤ q.length) {k : ℕ}
    (hfs : fs.accepts o.filepath (min o.dataLen (w.length + offset cut (k + 1))) = false) :
    ∃ i ≤ k, w.length + offset cut i < o.dataLen ∧ run pf cut (i + 1) (writing fs o w q c) =
      refused fs o (w ++ q.take (offset cut i)) (q.drop (offset cut i)) (c + offset cut i) := by
  have hex : ∃ i, fs.accepts o.filepath (min o.dataLen (w.length + offset cut (i + 1))) = false :=
    ⟨k, hfs⟩
  set i := Nat.find hex with hi
  have hspec := Nat.find_spec hex
  rw [← hi] at hspec
  have hbefore : ∀ m < i,
      fs.accepts o.filepath (min o.dataLen (w.length + offset cut (m + 1))) = true :=
    fun m hm => by simpa using Nat.find_min hex hm
  -- otherwise the file is complete, and its size was accepted
  have hlt : w.length + offset cut i < o.dataLen := by
    by_contra hge
    cases hcases : i with
    | zero =>
      rw [hcases, offset] at hge
      omega
    | succ m =>
      have hm := hbefore m (by omega)
      have hmono := offset_mono cut (show i ≤ i + 1 by omega)
      rw [hcases] at hge hspec hmono
      rw [min_eq_left (by omega)] at hm
      rw [min_eq_left (by omega), hm] at hspec
      cases hspec
  have hlen : (w ++ q.take (offset cut i)).length = w.length + offset cut i := by
    rw [List.length_append, List.length_take, min_eq_left (by omega)]
  refine ⟨i, Nat.find_min' hex hfs, hlt, ?_⟩
  rw [offset] at hspec
  rw [run, run_writing ho c hcut hw hq hbefore, if_pos hlt, step_writing ho _ (hcut i) (by omega)
    (by rw [hlen, List.length_drop]; omega), hlen, Nat.add_assoc, hspec, if_neg Bool.false_ne_true]

end Calls

end Feed
end Haggle
