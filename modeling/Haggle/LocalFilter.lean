import Haggle.DataManager

/-!
# What the local filter reports

The ledger records which identifiers the handlers of the data manager have put into its filter and
taken out again. In a run that takes out only what is there, and in which no bin runs over, all that
is still in is reported, by the local filter and by the published one.
-/

namespace Haggle

/-- The events of the data manager. The filter that is read back from the repository comes with the
identifiers that it counts; a configuration may ask for a new filter. -/
inductive DataEvent where
  | incoming (o : DataObject)
  | verified (o : DataObject)
  | deleted (os : List DataObject) (keep : Bool)
  | aged
  | repository (bf : CountingBloomfilter) (ids : List Digest)
  | config (shape : Option FilterShape)

/-- `added` are the identifiers that INCOMING has put into a filter and no DELETED has removed.
`counted` are those in the present filter: it starts anew when the filter is replaced, and what is
removed is taken out. `published` says that the filter of this node is up to date. -/
structure Ledger where
  dm : DataManager
  added : List Digest
  counted : List Digest
  published : Bool

namespace Ledger

variable (sha1 : Bytes → Digest)

/-- The object is put into the filter by its INCOMING event. -/
def adds (s : Ledger) (o : DataObject) : Bool :=
  !o.controlMessage && !s.dm.localBF.has sha1 o.id

/-- The object is taken out of the filter by its VERIFIED event. -/
def rejects (s : Ledger) (o : DataObject) : Bool :=
  decide (o.signatureStatus = .invalid) ||
    (decide (o.dataState = .verifiedBad) && s.dm.localBF.has sha1 o.id)

def step (s : Ledger) : DataEvent → Ledger
  | .incoming o => { s with
      dm := (s.dm.onIncomingDataObject sha1 o).1
      added := if s.adds sha1 o then o.id :: s.added else s.added
      counted := if s.adds sha1 o then o.id :: s.counted else s.counted
      published := s.published || s.adds sha1 o }
  | .verified o => { s with
      dm := (s.dm.onVerifiedDataObject sha1 o).1
      counted := if s.rejects sha1 o then s.counted.erase o.id else s.counted
      published := s.published || s.rejects sha1 o }
  | .deleted os keep => { s with
      dm := s.dm.onDeletedDataObject sha1 os keep
      added := (DataManager.removedObjects os keep).foldl List.erase s.added
      counted := (DataManager.removedObjects os keep).foldl List.erase s.counted
      published := s.published || !(DataManager.removedObjects os keep).isEmpty }
  | .aged => s
  | .repository bf ids => { s with dm := s.dm.onGetLocalBF bf, counted := ids, published := true }
  | .config none => s
  | .config (some shape) => { s with
      dm := s.dm.onConfig (some shape)
      counted := []
      published := false }

def start (shape : FilterShape) : Ledger := ⟨DataManager.start shape, [], [], false⟩

/-- An event takes out only what is in the filter, no bin runs over, and the filter of the
repository counts what it is said to. -/
def Orderly (s : Ledger) : DataEvent → Prop
  | .incoming o => s.adds sha1 o = true → ∀ j < s.dm.localBF.bins.length,
      s.dm.localBF.bins.getD j 0 + (s.dm.localBF.indices sha1 o.id).count j <
        CountingBloomfilter.binValues
  | .verified o => s.rejects sha1 o = true → o.id ∈ s.counted
  | .deleted os keep => Trace.Guarded List.erase (fun l id => id ∈ l) s.counted
      (DataManager.removedObjects os keep)
  | .repository bf ids => bf.WF ∧ CountingFilter.Covers (bf.indices sha1) bf.bins ids
  | .aged | .config _ => True

/-- The filter counts all that is in it, and the published filter is the local one. -/
structure Inv (s : Ledger) : Prop where
  wf : s.dm.localBF.WF
  covers : CountingFilter.Covers (s.dm.localBF.indices sha1) s.dm.localBF.bins s.counted
  published : s.published = true → s.dm.thisNode = s.dm.localBF.toNoncounting

variable {sha1}

/-- Removals of identifiers that are in the filter. -/
theorem covers_foldl_remove {ids counted : List Digest} {bf : CountingBloomfilter} (hwf : bf.WF)
    (hcov : CountingFilter.Covers (bf.indices sha1) bf.bins counted)
    (hg : Trace.Guarded List.erase (fun l id => id ∈ l) counted ids) :
    (ids.foldl (fun bf id => bf.remove sha1 id) bf).WF ∧
      CountingFilter.Covers ((ids.foldl (fun bf id => bf.remove sha1 id) bf).indices sha1)
        (ids.foldl (fun bf id => bf.remove sha1 id) bf).bins (ids.foldl List.erase counted) := by
  induction ids generalizing counted bf with
  | nil => exact ⟨hwf, hcov⟩
  | cons id ids ih =>
    obtain ⟨hmem, hrest⟩ := hg
    have hrem : CountingFilter.Covers ((bf.remove sha1 id).indices sha1) (bf.remove sha1 id).bins
        (counted.erase id) := CountingFilter.covers_removeAll hcov hmem
    exact ih (CountingBloomfilter.wf_remove hwf id) hrem hrest

theorem Inv.incoming {s : Ledger} (h : Inv sha1 s) {o : DataObject}
    (he : Orderly sha1 s (.incoming o)) : Inv sha1 (step sha1 s (.incoming o)) := by
  obtain ⟨hwf, hcov, hpub⟩ := h
  rw [Ledger.step, DataManager.onIncomingDataObject]
  by_cases hadd : s.adds sha1 o = true
  · have hnew := hadd
    rw [adds, Bool.and_eq_true, Bool.not_eq_true', Bool.not_eq_true'] at hnew
    simp only [hadd, hnew.1, hnew.2, if_true, Bool.or_true, Bool.false_eq_true, if_false]
    refine ⟨CountingBloomfilter.wf_add hwf o.id, ?_, fun _ => rfl⟩
    exact CountingFilter.covers_addAll hcov o.id (he hadd)
  · have hsame : (if o.controlMessage = true then (s.dm, false)
        else if s.dm.localBF.has sha1 o.id = true then (s.dm, true)
        else (DataManager.setBloomfilter { s.dm with localBF := s.dm.localBF.add sha1 o.id },
          false)).1 = s.dm := by
      split_ifs with hc hh
      · rfl
      · rfl
      · simp [adds, hc, hh] at hadd
    rw [hsame, if_neg hadd, if_neg hadd, Bool.eq_false_iff.mpr hadd, Bool.or_false]
    exact ⟨hwf, hcov, hpub⟩

theorem Inv.verified {s : Ledger} (h : Inv sha1 s) {o : DataObject}
    (he : Orderly sha1 s (.verified o)) : Inv sha1 (step sha1 s (.verified o)) := by
  obtain ⟨hwf, hcov, hpub⟩ := h
  rw [Ledger.step]
  by_cases hrej : s.rejects sha1 o = true
  · have hdm : (s.dm.onVerifiedDataObject sha1 o).1 =
        DataManager.setBloomfilter { s.dm with localBF := s.dm.localBF.remove sha1 o.id } := by
      rw [DataManager.onVerifiedDataObject]
      simp only [rejects, Bool.or_eq_true, Bool.and_eq_true, decide_eq_true_eq] at hrej
      rcases hrej with hsig | ⟨hbad, hhas⟩
      · rw [if_pos hsig]
      · split_ifs <;> rfl
    rw [hdm, if_pos hrej]
    refine ⟨CountingBloomfilter.wf_remove hwf o.id, ?_, fun _ => rfl⟩
    exact CountingFilter.covers_removeAll hcov (he hrej)
  · have hdm : (s.dm.onVerifiedDataObject sha1 o).1 = s.dm := by
      rw [DataManager.onVerifiedDataObject]
      simp only [rejects, Bool.or_eq_true, Bool.and_eq_true, decide_eq_true_eq, not_or,
        not_and] at hrej
      rw [if_neg hrej.1]
      split_ifs with hbad hhas
      · exact absurd hhas (hrej.2 hbad)
      · rfl
      · rfl
      · rfl
    rw [hdm, if_neg hrej, Bool.eq_false_iff.mpr hrej, Bool.or_false]
    exact ⟨hwf, hcov, hpub⟩

theorem Inv.deleted {s : Ledger} (h : Inv sha1 s) {os : List DataObject} {keep : Bool}
    (he : Orderly sha1 s (.deleted os keep)) : Inv sha1 (step sha1 s (.deleted os keep)) := by
  obtain ⟨hwf, hcov, hpub⟩ := h
  rw [Ledger.step, DataManager.onDeletedDataObject]
  obtain ⟨hwf', hcov'⟩ := covers_foldl_remove hwf hcov he
  by_cases hnil : DataManager.removedObjects os keep = []
  · simp only [hnil, List.foldl_nil, if_true, List.isEmpty_nil, Bool.not_true, Bool.or_false]
    exact ⟨hwf, hcov, hpub⟩
  · rw [if_neg hnil]
    exact ⟨hwf', hcov', fun _ => rfl⟩

theorem Inv.step {s : Ledger} (h : Inv sha1 s) {e : DataEvent} (he : Orderly sha1 s e) :
    Inv sha1 (step sha1 s e) := by
  cases e with
  | incoming o => exact h.incoming he
  | verified o => exact h.verified he
  | deleted os keep => exact h.deleted he
  | aged => exact ⟨h.wf, h.covers, h.published⟩
  | repository bf ids => exact ⟨he.1, he.2, fun _ => rfl⟩
  | config shape =>
    cases shape with
    | none => exact ⟨h.wf, h.covers, h.published⟩
    | some shape =>
      exact ⟨CountingBloomfilter.wf_new shape, CountingFilter.covers_nil _,
        fun hp => absurd hp Bool.false_ne_true⟩

theorem inv_start (shape : FilterShape) : Inv sha1 (start shape) where
  wf := CountingBloomfilter.wf_new shape
  covers := CountingFilter.covers_nil _
  published hp := absurd hp Bool.false_ne_true

/-- In every orderly run, what is in the filter is reported by it, and by the filter of this node
once it is published. -/
theorem run_reports (shape : FilterShape) {events : List DataEvent}
    (hg : Trace.Guarded (step sha1) (Orderly sha1) (start shape) events) :
    let s := Trace.run (step sha1) (start shape) events
    (∀ id ∈ s.counted, s.dm.localBF.has sha1 id = true) ∧
      (s.published = true → ∀ id ∈ s.counted, s.dm.thisNode.has sha1 id = true) := by
  intro s
  have hstep : ∀ s e, Inv sha1 s → Orderly sha1 s e → Inv sha1 (step sha1 s e) :=
    fun _ _ h he => h.step he
  obtain ⟨hwf, hcov, hpub⟩ : Inv sha1 s :=
    Trace.invariant_of_guarded hstep (inv_start shape) hg
  have hhas : ∀ id ∈ s.counted, s.dm.localBF.has sha1 id = true := by
    intro id hid
    exact CountingFilter.hasAll_of_mem hcov hid fun j hj => hwf.index_lt hj
  refine ⟨hhas, fun hp id hid => ?_⟩
  rw [hpub hp, CountingBloomfilter.has_toNoncounting hwf]
  exact hhas id hid

end Ledger

namespace Sample

/-- A data object that is only an identifier. -/
def named (b : UInt8) : DataObject :=
  { DataObject.new (lit "/s") [] with id := .fill b }

/-- Two objects come in and one of them is deleted. -/
def dataRun : List DataEvent :=
  [.incoming (named 1), .incoming (named 2), .verified (named 1), .deleted [named 1] false]

end Sample

namespace Ledger

theorem run_reports_sample :
    (Trace.run (step Sample.firstBytes) (start Sample.shape) Sample.dataRun).counted =
        [(Sample.named 2).id] ∧
      (Trace.run (step Sample.firstBytes) (start Sample.shape) Sample.dataRun).dm.thisNode.has
        Sample.firstBytes (Sample.named 2).id = true := by
  have hcounted : (Trace.run (step Sample.firstBytes) (start Sample.shape)
      Sample.dataRun).counted = [(Sample.named 2).id] := by decide
  refine ⟨hcounted, (run_reports Sample.shape ?_).2 ?_ _ ?_⟩
  · refine ⟨fun _ => ?_, fun _ => ?_, fun hrej => ?_, ⟨?_, trivial⟩, trivial⟩
    · decide
    · decide
    · exact absurd hrej (by decide)
    · decide
  · decide
  · rw [hcounted]
    exact List.mem_singleton_self _

/-- A configuration that sets the capacity of the filters forgets the objects that are there. -/
theorem run_not_reports_sample :
    (Sample.named 1).id ∈ (Trace.run (step Sample.firstBytes) (start Sample.shape)
        [.incoming (Sample.named 1), .config (some Sample.shape)]).added ∧
      (Trace.run (step Sample.firstBytes) (start Sample.shape) [.incoming (Sample.named 1),
        .config (some Sample.shape)]).dm.localBF.has Sample.firstBytes (Sample.named 1).id =
          false := by
  decide

end Ledger
end Haggle
