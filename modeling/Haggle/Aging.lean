import Haggle.Metadata
import Haggle.Trace

/-!
# The aging timer

Aging goes on alternately: the aging event makes a request to the data store, and the callback of
the request posts the next aging event, or makes the next request at once when there may be more to
age. The first call at the start has no event, and a configuration that changes the aging makes a
request of its own.
-/

namespace Haggle
namespace Aging

/-- The values in the data manager, the delays of the aging events that are pending, the requests
in the data store, and its callbacks with the number of objects that were aged. -/
structure State where
  agingMaxAge : ℕ
  agingPeriod : ℕ
  keepInBloomfilterOnAging : Bool
  isShuttingDown : Bool
  agingEvents : List ℕ
  requests : List (ℕ × Bool)
  agedEvents : List ℕ
deriving DecidableEq

section Handlers

/-- `DATASTORE_MAX_DATAOBJECTS_AGED_AT_ONCE`. -/
def maxAgedAtOnce : ℕ := 3

def onAging (s : State) : State :=
  if s.isShuttingDown then s
  else { s with requests := s.requests ++ [(s.agingMaxAge, s.keepInBloomfilterOnAging)] }

/-- `onAgedDataObjects`, with the number of objects in the event. -/
def onAgedDataObjects (s : State) : Option ℕ → State
  | none => s
  | some n =>
    if s.isShuttingDown then s
    else if maxAgedAtOnce ≤ n then onAging s
    else { s with agingEvents := s.agingEvents ++ [s.agingPeriod] }

/-- `strtoul` finds a number: its end pointer is not the beginning. -/
def hasNumber (s : Bytes) : Bool :=
  let t := s.dropWhile isSpace
  let u := if t.head? = some 45 ∨ t.head? = some 43 then t.tail else t
  !(u.takeWhile isDigit).isEmpty

def number (m : Metadata) (k : Bytes) : Option ℕ :=
  (m.getParameter k).bind fun v => if hasNumber v then some (strtoul v) else none

def agingHasChanged (m : Metadata) : Bool :=
  (m.getMetadata (lit "Aging")).any fun dm =>
    (number dm (lit "period")).isSome || (number dm (lit "max_age")).isSome

def keepInBloomfilter (m : Metadata) (keep : Bool) : Bool :=
  match m.getParameter (lit "keep_in_bloomfilter") with
  | none => keep
  | some v => if v = lit "true" then true else if v = lit "false" then false else keep

def setAging (s : State) (dm : Metadata) : State :=
  { s with
    agingPeriod := (number dm (lit "period")).getD s.agingPeriod
    agingMaxAge := (number dm (lit "max_age")).getD s.agingMaxAge
    keepInBloomfilterOnAging := keepInBloomfilter dm s.keepInBloomfilterOnAging }

/-- The part of `onConfig` on the aging. -/
def onConfig (s : State) (m : Metadata) : State :=
  let t := (m.getMetadata (lit "Aging")).elim s (setAging s)
  if agingHasChanged m then onAging t else t

/-- `ageDataObjects` in the data store: it stops when it has enough objects, and it calls back also
after an error. -/
def ageDataObjects (s : State) (position objects : ℕ) : State :=
  (s.requests[position]?).elim s fun _ => { s with
    requests := s.requests.eraseIdx position
    agedEvents := s.agedEvents ++ [min objects maxAgedAtOnce] }

/-- `init_derived`. -/
def initDerived : State :=
  onAgedDataObjects ⟨24 * 3600, 3600, true, false, [], [], []⟩ none

inductive Act
  | config (m : Metadata)
  | aging (position : ℕ)
  | ageDataObjects (position objects : ℕ)
  | aged (position : ℕ)
  | shutdown

def step (s : State) : Act → State
  | .config m => onConfig s m
  | .aging position =>
    (s.agingEvents[position]?).elim s fun _ =>
      onAging { s with agingEvents := s.agingEvents.eraseIdx position }
  | .ageDataObjects position objects => ageDataObjects s position objects
  | .aged position =>
    (s.agedEvents[position]?).elim s fun n =>
      onAgedDataObjects { s with agedEvents := s.agedEvents.eraseIdx position } (some n)
  | .shutdown => { s with isShuttingDown := true }

end Handlers

section Chains

variable {s : State}

/-- The requests that the data store has not called back for, or whose callback is pending. -/
def State.outstanding (s : State) : ℕ := s.requests.length + s.agedEvents.length

/-- There is one aging event or one request, and not both. -/
def ExactlyOne (s : State) : Prop :=
  s.agingEvents.length = 1 ∧ s.outstanding = 0 ∨ s.agingEvents.length = 0 ∧ s.outstanding = 1

instance (s : State) : Decidable (ExactlyOne s) := inferInstanceAs (Decidable (_ ∨ _))

/-- The chains of events and requests that go on in parallel. -/
def State.chains (s : State) : ℕ := s.agingEvents.length + s.outstanding

theorem exactlyOne_iff_chains (s : State) : ExactlyOne s ↔ s.chains = 1 := by
  unfold ExactlyOne State.chains
  omega

/-- A configuration that changes the aging. -/
def Act.restarts : Act → Bool
  | .config m => agingHasChanged m
  | _ => false

theorem isShuttingDown_onAging (s : State) : (onAging s).isShuttingDown = s.isShuttingDown := by
  unfold onAging
  split_ifs <;> rfl

theorem isShuttingDown_onAgedDataObjects (s : State) (n : ℕ) :
    (onAgedDataObjects s (some n)).isShuttingDown = s.isShuttingDown := by
  unfold onAgedDataObjects
  simp only
  split_ifs
  · rfl
  · exact isShuttingDown_onAging s
  · rfl

theorem isShuttingDown_onConfig (s : State) (m : Metadata) :
    (onConfig s m).isShuttingDown = s.isShuttingDown := by
  have hset : ((m.getMetadata (lit "Aging")).elim s (setAging s)).isShuttingDown =
      s.isShuttingDown := by
    cases m.getMetadata (lit "Aging") <;> rfl
  unfold onConfig
  simp only
  split_ifs
  · exact (isShuttingDown_onAging _).trans hset
  · exact hset

theorem chains_onAging (h : s.isShuttingDown = false) : (onAging s).chains = s.chains + 1 := by
  simp only [onAging, h, State.chains, State.outstanding, List.length_append, List.length_singleton,
    Bool.false_eq_true, if_false]
  omega

theorem chains_onAgedDataObjects (h : s.isShuttingDown = false) (n : ℕ) :
    (onAgedDataObjects s (some n)).chains = s.chains + 1 := by
  unfold onAgedDataObjects
  simp only [h, Bool.false_eq_true, if_false]
  split_ifs
  · exact chains_onAging h
  · simp only [State.chains, State.outstanding, List.length_append, List.length_singleton]
    omega

theorem chains_onConfig (h : s.isShuttingDown = false) (m : Metadata) :
    (onConfig s m).chains = s.chains + (if agingHasChanged m then 1 else 0) := by
  have hset : ((m.getMetadata (lit "Aging")).elim s (setAging s)).isShuttingDown = false ∧
      ((m.getMetadata (lit "Aging")).elim s (setAging s)).chains = s.chains := by
    cases m.getMetadata (lit "Aging") <;> exact ⟨h, rfl⟩
  unfold onConfig
  simp only
  split_ifs
  · rw [chains_onAging hset.1, hset.2]
  · rw [hset.2, add_zero]

theorem isShuttingDown_step (s : State) (act : Act) (h : s.isShuttingDown = true) :
    (step s act).isShuttingDown = true := by
  cases act with
  | config m => exact (isShuttingDown_onConfig s m).trans h
  | aging position =>
    rw [step]
    cases s.agingEvents[position]? with
    | none => exact h
    | some n => exact (isShuttingDown_onAging _).trans h
  | ageDataObjects position objects =>
    rw [step, ageDataObjects]
    cases s.requests[position]? with
    | none => exact h
    | some r => exact h
  | aged position =>
    rw [step]
    cases s.agedEvents[position]? with
    | none => exact h
    | some n => exact (isShuttingDown_onAgedDataObjects _ n).trans h
  | shutdown => rfl

theorem chains_step (act : Act) (h : (step s act).isShuttingDown = false) :
    (step s act).chains = s.chains + (if act.restarts then 1 else 0) := by
  have hs : s.isShuttingDown = false := by
    by_contra hdown
    rw [Bool.not_eq_false] at hdown
    rw [isShuttingDown_step s act hdown] at h
    exact Bool.noConfusion h
  cases act with
  | config m => exact chains_onConfig hs m
  | aging position =>
    rw [step]
    cases hget : s.agingEvents[position]? with
    | none => rfl
    | some n =>
      have hlen := List.length_eraseIdx_add_one (List.getElem?_eq_some_iff.1 hget).1
      refine (chains_onAging (s := { s with agingEvents := s.agingEvents.eraseIdx position })
        hs).trans ?_
      simp only [State.chains, State.outstanding, Act.restarts, Bool.false_eq_true, if_false]
      omega
  | ageDataObjects position objects =>
    rw [step, ageDataObjects]
    cases hget : s.requests[position]? with
    | none => rfl
    | some r =>
      have hlen := List.length_eraseIdx_add_one (List.getElem?_eq_some_iff.1 hget).1
      simp only [State.chains, State.outstanding, Option.elim, Act.restarts, Bool.false_eq_true,
        if_false, List.length_append, List.length_singleton]
      omega
  | aged position =>
    rw [step]
    cases hget : s.agedEvents[position]? with
    | none => rfl
    | some n =>
      have hlen := List.length_eraseIdx_add_one (List.getElem?_eq_some_iff.1 hget).1
      refine (chains_onAgedDataObjects
        (s := { s with agedEvents := s.agedEvents.eraseIdx position }) hs n).trans ?_
      simp only [State.chains, State.outstanding, Act.restarts, Bool.false_eq_true, if_false]
      omega
  | shutdown => exact absurd h (by simp [step])

end Chains

section Runs

/-- The chains of a run are the configurations that changed the aging: there is none of the
start. -/
theorem chains_run (acts : List Act)
    (h : (Trace.run step initDerived acts).isShuttingDown = false) :
    (Trace.run step initDerived acts).chains = acts.countP Act.restarts := by
  induction acts using List.reverseRecOn with
  | nil => rfl
  | append_singleton acts act ih =>
    rw [Trace.run_append, Trace.run_cons, Trace.run_nil] at h ⊢
    have hbefore : (Trace.run step initDerived acts).isShuttingDown = false := by
      by_contra hdown
      rw [Bool.not_eq_false] at hdown
      rw [isShuttingDown_step _ act hdown] at h
      exact Bool.noConfusion h
    rw [chains_step act h, ih hbefore, List.countP_append, List.countP_singleton]

/-- Aging goes on in exactly one chain if and only if exactly one configuration so far changed
it. -/
theorem exactlyOne_run_iff (acts : List Act)
    (h : (Trace.run step initDerived acts).isShuttingDown = false) :
    ExactlyOne (Trace.run step initDerived acts) ↔ acts.countP Act.restarts = 1 := by
  rw [exactlyOne_iff_chains, chains_run acts h]

def Sample.agingPeriod (period : Bytes) : Metadata :=
  (((Metadata.new (lit "DataManager") [])).addMetadata
    ((Metadata.new (lit "Aging") []).setParameter (lit "period") period))

theorem Sample.exactlyOne_onceConfigured :
    ExactlyOne (Trace.run step initDerived [.config (Sample.agingPeriod (lit "10")),
      .ageDataObjects 0 3, .aged 0, .ageDataObjects 0 1, .aged 0]) := by
  refine (exactlyOne_run_iff _ ?_).mpr ?_
  · decide
  · decide

/-- There is no chain before the first configuration, and a second one begins a second chain. -/
theorem Sample.not_exactlyOne :
    ¬ExactlyOne (Trace.run step initDerived []) ∧
      (Trace.run step initDerived []).isShuttingDown = false ∧
      ¬ExactlyOne (Trace.run step initDerived [.config (Sample.agingPeriod (lit "10")),
        .config (Sample.agingPeriod (lit "20"))]) := by
  decide

end Runs

end Aging
end Haggle
