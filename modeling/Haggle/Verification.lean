import Haggle.DataManager
import Haggle.SecurityManager

/-!
# Objects on their way into the data store

A data object of the network passes the INCOMING and RECEIVED events, the helper of the security
manager, the VERIFIED event and the helper of the data manager. The events and tasks of several
objects come in any order, and the helpers may find anything.
-/

namespace Haggle

inductive Discard where
  | duplicate
  | badSignature
  | badData
deriving DecidableEq

/-- The event or task that an object is waiting for, or how it ended. -/
inductive Stage where
  | incoming
  | received (duplicate : Bool)
  | verifySignature
  | securityTaskComplete
  | verified
  | verifyData
  | dataTaskComplete
  | inserted
  | discarded (why : Discard)
deriving DecidableEq

structure Arrival where
  obj : DataObject
  stage : Stage

structure Verification where
  level : SecurityLevel
  dm : DataManager
  arrivals : List Arrival

namespace Verification

variable (sha1 : Bytes → Digest)

/-- `handle i found state` is the next event or task of the `i`-th object; a helper finds the
signature or the data in the given state. -/
inductive Action where
  | arrive (o : NetworkObject)
  | handle (i : ℕ) (found : SignatureStatus) (state : DataState)

/-- The stage after the VERIFIED event. -/
def afterVerified (o : DataObject) : VerifiedResult → Stage
  | .discard => .discarded (if o.signatureStatus = .invalid then .badSignature else .badData)
  | .verifyData => .verifyData
  | .insert => .inserted

def handle (level : SecurityLevel) (dm : DataManager) (a : Arrival) (found : SignatureStatus)
    (state : DataState) : DataManager × Arrival :=
  match a.stage with
  | .incoming =>
    ((dm.onIncomingDataObject sha1 a.obj).1,
      { a with stage := .received (dm.onIncomingDataObject sha1 a.obj).2 })
  | .received dup =>
    (dm, { a with stage :=
      if dup then .discarded .duplicate
      else if level.verifies a.obj then .verifySignature else .verified })
  | .verifySignature =>
    (dm, ⟨{ a.obj with signatureStatus := found }, .securityTaskComplete⟩)
  | .securityTaskComplete =>
    (dm, { a with stage :=
      if a.obj.signatureStatus = .valid then .verified else .discarded .badSignature })
  | .verified =>
    ((dm.onVerifiedDataObject sha1 a.obj).1,
      { a with stage := afterVerified a.obj (dm.onVerifiedDataObject sha1 a.obj).2 })
  | .verifyData =>
    (dm, ⟨{ a.obj with dataState := state },
      if DataManager.doTask state = .discard then .discarded .badData else .dataTaskComplete⟩)
  | .dataTaskComplete => (dm, { a with stage := .inserted })
  | .inserted | .discarded _ => (dm, a)

def step (s : Verification) : Action → Verification
  | .arrive o => { s with arrivals := s.arrivals ++ [⟨o.obj, .incoming⟩] }
  | .handle i found state =>
    match s.arrivals[i]? with
    | none => s
    | some a => { s with
        dm := (handle sha1 s.level s.dm a found state).1
        arrivals := s.arrivals.set i (handle sha1 s.level s.dm a found state).2 }

/-- The object `i` has been announced by its INCOMING event. -/
def announced (s : Verification) (i : ℕ) : Bool :=
  match s.arrivals[i]? with
  | none => false
  | some a => decide (a.stage ≠ .incoming)

/-- As `step`, but nothing of the object `i` is handled after its INCOMING event. -/
def stepAnnounced (i : ℕ) (s : Verification) : Action → Verification
  | .arrive o => step sha1 s (.arrive o)
  | .handle j found state =>
    if j = i ∧ s.announced i then s else step sha1 s (.handle j found state)

def start (level : SecurityLevel) (dm : DataManager) : Verification := ⟨level, dm, []⟩

end Verification

namespace Arrival

/-- An object on the way to a rejection of its signature. -/
def Suspect (a : Arrival) : Prop :=
  match a.stage with
  | .received _ => a.obj.signatureStatus ≠ .invalid
  | .verifySignature | .securityTaskComplete | .discarded .badSignature => True
  | _ => False

/-- An object whose signature will not be rejected any more. -/
def Passed (a : Arrival) : Prop :=
  match a.stage with
  | .verified => a.obj.signatureStatus ≠ .invalid
  | .verifyData | .dataTaskComplete | .inserted | .discarded .duplicate
  | .discarded .badData => True
  | _ => False

/-- The task of the helper of the security manager that the object is waiting for. -/
def tasks (a : Arrival) : List SecurityTask :=
  if a.stage = .verifySignature then [.verifyDataObject a.obj true] else []

/-- The task that the helper has returned to the security manager. -/
def completed (a : Arrival) : List SecurityTask :=
  if a.stage = .securityTaskComplete then [.verifyDataObject a.obj true] else []

/-- The event that the security manager has posted. -/
def events (level : SecurityLevel) (a : Arrival) : List VerifiedEvent :=
  if a.stage = .verified then [⟨a.obj, true, level⟩] else []

end Arrival

namespace Verification

variable {sha1 : Bytes → Digest}

section Manager

variable (ssl : OpenSSL) (s : SecurityManager) (dm : DataManager) (state : DataState)

theorem handle_received (o : NetworkObject) (dup : Bool) (found : SignatureStatus) :
    let a := (handle sha1 s.securityLevel dm ⟨o.obj, .received dup⟩ found state).2
    s.step ssl (.received o dup) =
      { s with tasks := s.tasks ++ a.tasks, verified := s.verified ++ a.events s.securityLevel } := by
  simp only [SecurityManager.step, SecurityManager.onReceivedDataObject, handle, Arrival.tasks,
    Arrival.events]
  cases dup with
  | true => simp
  | false => cases s.securityLevel.verifies o.obj <;> simp

/-- The helper of the security manager finds the signature in some state. -/
theorem handle_verifySignature {i : ℕ} {o : DataObject}
    (hi : s.tasks[i]? = some (.verifyDataObject o true)) :
    ∃ found, let a := (handle sha1 s.securityLevel dm ⟨o, .verifySignature⟩ found state).2
      s.step ssl (.runTask i) =
        { s with tasks := s.tasks.eraseIdx i, completed := s.completed ++ a.completed } := by
  simp only [SecurityManager.step, hi, SecurityManager.doTask, SecurityManager.retrieveCertificate,
    handle, Arrival.completed]
  cases AssocList.get s.certStore o.signee with
  | none => exact ⟨o.signatureStatus, rfl⟩
  | some cert =>
    refine ⟨(SecurityManager.verifyDataObject ssl o cert).signatureStatus, ?_⟩
    have hsame : SecurityManager.verifyDataObject ssl o cert = { o with
        signatureStatus := (SecurityManager.verifyDataObject ssl o cert).signatureStatus } := by
      unfold SecurityManager.verifyDataObject
      split <;> rfl
    simp only [if_true, ← hsame]

/-- The task that the helper has returned, as the security manager handles it. -/
theorem handle_securityTaskComplete {i : ℕ} {o : DataObject} (found : SignatureStatus)
    (hi : s.completed[i]? = some (.verifyDataObject o true)) :
    let a := (handle sha1 s.securityLevel dm ⟨o, .securityTaskComplete⟩ found state).2
    s.step ssl (.taskComplete i) =
      { s with
        completed := s.completed.eraseIdx i
        verified := s.verified ++ a.events s.securityLevel } := by
  simp only [SecurityManager.step, hi, SecurityManager.onSecurityTaskComplete, handle,
    Arrival.events]
  split_ifs <;> simp_all

end Manager

/-- What is handled of a suspect object does not touch the filter. -/
theorem handle_suspect {a : Arrival} (ha : a.Suspect) (level : SecurityLevel) (dm : DataManager)
    (found : SignatureStatus) (state : DataState) :
    (handle sha1 level dm a found state).1 = dm ∧
      ((handle sha1 level dm a found state).2.Suspect ∨
        (handle sha1 level dm a found state).2.Passed) := by
  obtain ⟨o, stage⟩ := a
  cases stage with
  | received dup =>
    refine ⟨rfl, ?_⟩
    dsimp only [handle]
    split_ifs
    · exact Or.inr trivial
    · exact Or.inl trivial
    · exact Or.inr ha
  | verifySignature => exact ⟨rfl, Or.inl trivial⟩
  | securityTaskComplete =>
    refine ⟨rfl, ?_⟩
    dsimp only [handle]
    split_ifs with hv
    · refine Or.inr fun h => ?_
      rw [hv] at h
      cases h
    · exact Or.inl trivial
  | discarded why => exact ⟨rfl, Or.inl ha⟩
  | incoming | verified | verifyData | dataTaskComplete | inserted => exact absurd ha id

theorem handle_passed {a : Arrival} (ha : a.Passed) (level : SecurityLevel) (dm : DataManager)
    (found : SignatureStatus) (state : DataState) :
    (handle sha1 level dm a found state).2.Passed := by
  obtain ⟨o, stage⟩ := a
  cases stage with
  | verified =>
    have hne : o.signatureStatus ≠ .invalid := ha
    dsimp only [handle]
    generalize (dm.onVerifiedDataObject sha1 o).2 = r
    cases r with
    | discard =>
      rw [afterVerified, if_neg hne]
      trivial
    | verifyData => trivial
    | insert => trivial
  | verifyData =>
    dsimp only [handle]
    split_ifs <;> trivial
  | dataTaskComplete => trivial
  | inserted => trivial
  | discarded why => exact ha
  | incoming | received | verifySignature | securityTaskComplete => exact absurd ha id

/-- The object `i` in a run and in the run that stops with its INCOMING event. -/
inductive Halted : Option Arrival → Option Arrival → Prop
  | absent : Halted none none
  | waiting (a : Arrival) (hs : a.stage = .incoming) (ho : a.obj.signatureStatus ≠ .invalid) :
      Halted (some a) (some a)
  | announced {a b : Arrival} (ha : a.Suspect) (hb : b.stage ≠ .incoming) :
      Halted (some a) (some b)

/-- Both runs agree but for the object `i`. -/
structure Agrees (i : ℕ) (s t : Verification) : Prop where
  level : t.level = s.level
  dm : t.dm = s.dm
  length : t.arrivals.length = s.arrivals.length
  others : ∀ j, j ≠ i → t.arrivals[j]? = s.arrivals[j]?
  halted : Halted s.arrivals[i]? t.arrivals[i]?

/-- The signature of the object `i` has passed. -/
def HasPassed (i : ℕ) (s : Verification) : Prop := ∃ a, s.arrivals[i]? = some a ∧ a.Passed

theorem hasPassed_step {i : ℕ} {s : Verification} (h : HasPassed i s) (x : Action) :
    HasPassed i (step sha1 s x) := by
  obtain ⟨a, ha, hp⟩ := h
  have hi : i < s.arrivals.length := by
    by_contra hge
    rw [List.getElem?_eq_none (not_lt.mp hge)] at ha
    cases ha
  cases x with
  | arrive o =>
    refine ⟨a, ?_, hp⟩
    rw [step]
    dsimp only
    rw [List.getElem?_append_left hi, ha]
  | handle j found state =>
    rw [step]
    cases hj : s.arrivals[j]? with
    | none => exact ⟨a, ha, hp⟩
    | some b =>
      by_cases hij : j = i
      · subst hij
        obtain rfl : a = b := Option.some.inj (ha.symm.trans hj)
        exact ⟨_, List.getElem?_set_self hi, handle_passed hp _ _ _ _⟩
      · refine ⟨a, ?_, hp⟩
        dsimp only
        rw [List.getElem?_set_ne hij, ha]

theorem Agrees.arrive {i : ℕ} {s t : Verification} (h : Agrees i s t) (o : NetworkObject) :
    Agrees i (step sha1 s (.arrive o)) (stepAnnounced sha1 i t (.arrive o)) := by
  obtain ⟨hlevel, hdm, hlen, hothers, hhalt⟩ := h
  have hget : ∀ (u : Verification) j, (u.arrivals ++ [⟨o.obj, .incoming⟩])[j]? =
      if j = u.arrivals.length then some ⟨o.obj, .incoming⟩ else u.arrivals[j]? := by
    intro u j
    rw [List.getElem?_append]
    split_ifs with hlt heq heq
    · omega
    · rfl
    · simp [heq]
    · rw [List.getElem?_eq_none (by simp; omega), List.getElem?_eq_none (by omega)]
  refine ⟨hlevel, hdm, by simp [stepAnnounced, step, hlen], fun j hj => ?_, ?_⟩
  · simp only [stepAnnounced, step]
    rw [hget, hget, hlen, hothers j hj]
  · simp only [stepAnnounced, step]
    rw [hget, hget, hlen]
    split_ifs
    · refine .waiting _ rfl ?_
      rcases o.status with h | h <;>
      · dsimp only
        rw [h]
        simp
    · exact hhalt

/-- Another object is handled. -/
theorem Agrees.handle_other {i j : ℕ} (hij : j ≠ i) {s t : Verification} (h : Agrees i s t)
    (found : SignatureStatus) (state : DataState) :
    Agrees i (step sha1 s (.handle j found state))
      (stepAnnounced sha1 i t (.handle j found state)) := by
  obtain ⟨hlevel, hdm, hlen, hothers, hhalt⟩ := h
  rw [stepAnnounced, if_neg (fun h => hij h.1), step, step, hothers j hij]
  cases s.arrivals[j]? with
  | none => exact ⟨hlevel, hdm, hlen, hothers, hhalt⟩
  | some b =>
    dsimp only
    rw [hlevel, hdm]
    refine ⟨rfl, rfl, by simp [hlen], fun k hk => ?_, ?_⟩
    · dsimp only
      rw [List.getElem?_set, List.getElem?_set, hlen, hothers k hk]
    · dsimp only
      rw [List.getElem?_set_ne hij, List.getElem?_set_ne hij]
      exact hhalt

/-- The object itself is handled: first its INCOMING event, and then what only one run handles. -/
theorem Agrees.handle_self {i : ℕ} {s t : Verification} (h : Agrees i s t)
    (found : SignatureStatus) (state : DataState) :
    Agrees i (step sha1 s (.handle i found state))
        (stepAnnounced sha1 i t (.handle i found state)) ∨
      HasPassed i (step sha1 s (.handle i found state)) := by
  obtain ⟨hlevel, hdm, hlen, hothers, hhalt⟩ := h
  rw [stepAnnounced, announced, step, step]
  generalize hs : s.arrivals[i]? = x at hhalt
  generalize ht : t.arrivals[i]? = y at hhalt
  cases hhalt with
  | absent =>
    dsimp only
    rw [if_neg (fun h => Bool.false_ne_true h.2)]
    refine Or.inl ⟨hlevel, hdm, hlen, hothers, ?_⟩
    rw [hs, ht]
    exact .absent
  | waiting a hstage ho =>
    have hi : i < s.arrivals.length := (List.getElem?_eq_some_iff.mp hs).1
    have hnot : ¬(i = i ∧ decide (a.stage ≠ .incoming) = true) := by simp [hstage]
    dsimp only
    rw [if_neg hnot, hlevel, hdm]
    refine Or.inl ⟨rfl, rfl, by simp [hlen], fun k hk => ?_, ?_⟩
    · dsimp only
      rw [List.getElem?_set_ne hk.symm, List.getElem?_set_ne hk.symm, hothers k hk]
    · dsimp only
      rw [List.getElem?_set_self hi, List.getElem?_set_self (by omega)]
      obtain ⟨o, stage⟩ := a
      obtain rfl : stage = .incoming := hstage
      exact .announced ho (by simp [handle])
  | @announced a b ha hb =>
    have hi : i < s.arrivals.length := (List.getElem?_eq_some_iff.mp hs).1
    have hyes : i = i ∧ decide (b.stage ≠ .incoming) = true := ⟨rfl, decide_eq_true hb⟩
    dsimp only
    rw [if_pos hyes]
    obtain ⟨hsame, hsus | hpass⟩ : (handle sha1 s.level s.dm a found state).1 = _ ∧ _ :=
      handle_suspect ha s.level s.dm found state
    · refine Or.inl ⟨hlevel, ?_, by simp [hlen], fun k hk => ?_, ?_⟩
      · dsimp only
        rw [hsame, hdm]
      · dsimp only
        rw [List.getElem?_set_ne hk.symm, hothers k hk]
      · dsimp only
        rw [List.getElem?_set_self hi, ht]
        exact .announced hsus hb
    · exact Or.inr ⟨_, List.getElem?_set_self hi, hpass⟩

/-- Both runs, as long as the signature of the object `i` has not passed. -/
theorem run_agrees {i : ℕ} {s t : Verification} (h : Agrees i s t) (actions : List Action) :
    Agrees i (Trace.run (step sha1) s actions) (Trace.run (stepAnnounced sha1 i) t actions) ∨
      HasPassed i (Trace.run (step sha1) s actions) := by
  induction actions generalizing s t with
  | nil => exact Or.inl h
  | cons x actions ih =>
    have hstep : ∀ s x, HasPassed i s → HasPassed i (step sha1 s x) :=
      fun _ x hp => hasPassed_step hp x
    rw [Trace.run_cons, Trace.run_cons]
    cases x with
    | arrive o => exact ih (h.arrive o)
    | handle j found state =>
      by_cases hij : j = i
      · subst hij
        rcases h.handle_self found state with hag | hp
        · exact ih hag
        · exact Or.inr (Trace.invariant hstep hp actions)
      · exact ih (h.handle_other hij found state)

/-- When an object is discarded because of its signature, the local filter is what it would be if
only the INCOMING event of the object had been handled: what that has added stays. -/
theorem run_localBF_of_badSignature (level : SecurityLevel) (dm : DataManager)
    {actions : List Action} {i : ℕ} {a : Arrival}
    (ha : (Trace.run (step sha1) (start level dm) actions).arrivals[i]? = some a)
    (hbad : a.stage = .discarded .badSignature) :
    (Trace.run (step sha1) (start level dm) actions).dm.localBF =
      (Trace.run (stepAnnounced sha1 i) (start level dm) actions).dm.localBF := by
  have hstart : Agrees i (start level dm) (start level dm) :=
    ⟨rfl, rfl, rfl, fun _ _ => rfl, .absent⟩
  have hrun : _ ∨ HasPassed i (Trace.run (step sha1) _ actions) := run_agrees hstart actions
  rcases hrun with hag | ⟨b, hb, hp⟩
  · rw [hag.dm]
  · obtain rfl : a = b := Option.some.inj (ha.symm.trans hb)
    rw [Arrival.Passed, hbad] at hp
    exact absurd hp id

end Verification

namespace Sample

/-- A signed object comes in, and its signature is found to be invalid. -/
def rejectedRun : List Verification.Action :=
  [.arrive signed, .handle 0 .unverified .unknown, .handle 0 .unverified .unknown,
    .handle 0 .invalid .unknown, .handle 0 .unverified .unknown]

def verification : Verification := Verification.start .high (DataManager.start shape)

end Sample

namespace Verification

theorem run_localBF_of_badSignature_sample :
    (Trace.run (step Sample.firstBytes) Sample.verification Sample.rejectedRun).dm.localBF =
      (Trace.run (stepAnnounced Sample.firstBytes 0) Sample.verification
        Sample.rejectedRun).dm.localBF :=
  run_localBF_of_badSignature .high (DataManager.start Sample.shape) rfl rfl

/-- The object is discarded because of its signature, and the filter reports it. Without the object
the filter does not. -/
theorem run_localBF_traced_sample :
    (Trace.run (step Sample.firstBytes) Sample.verification Sample.rejectedRun).arrivals.map
        Arrival.stage = [.discarded .badSignature] ∧
      (Trace.run (step Sample.firstBytes) Sample.verification Sample.rejectedRun).dm.localBF.has
        Sample.firstBytes Sample.signed.obj.id = true ∧
      (Trace.run (step Sample.firstBytes) Sample.verification []).dm.localBF.has
        Sample.firstBytes Sample.signed.obj.id = false := by
  decide

end Verification
end Haggle
