import Haggle.SendQueue
import Haggle.Timeval
import Haggle.Trace

/-!
# One consumer of a queue

`insert` is one section under the mutex of the queue, and `retrieve` goes through several steps: it
reads the signal without the mutex, looks whether the list is empty, waits, and pops in a last
section. A section is one step, and producers step in wherever the consumer stands. Since every
section ends before the next step, the mutex is free when the first overload of `retrieve` unlocks
it once more, and the unlocking does nothing.
-/

namespace Haggle

/-- `pipe` counts the bytes in the pipe that makes the signal watchable. -/
structure Signal where
  raised : Bool
  pipe : ℕ
deriving DecidableEq

namespace Signal

/-- The bytes that every pipe takes, `_POSIX_PIPE_BUF`. -/
def PIPE_BUF : ℕ := 512

def raise (s : Signal) : Signal :=
  if s.raised then s
  else if s.pipe < PIPE_BUF then ⟨true, s.pipe + 1⟩ else ⟨false, s.pipe⟩

def lower (s : Signal) : Signal :=
  if !s.raised then s
  else if s.pipe = 0 then ⟨true, 0⟩ else ⟨false, s.pipe - 1⟩

/-- The signal whose flag and pipe say the same. -/
def of (raised : Bool) : Signal := ⟨raised, raised.toNat⟩

theorem raise_of (b : Bool) : (of b).raise = of true := by
  cases b <;> rfl

theorem lower_of (b : Bool) : (of b).lower = of false := by
  cases b <;> rfl

end Signal

inductive Retrieved (T : Type)
  | watchError
  | error
  | timeout
  | empty
  | watchRead
  | watchWrite
  | watchAbandoned
  | element (qe : T)
deriving DecidableEq

def Retrieved.qe {T : Type} : Retrieved T → Option T
  | .element qe => some qe
  | _ => none

structure SignalQueue (T : Type) where
  lst : List T
  signal : Signal
  isClosed : Bool
deriving DecidableEq

namespace SignalQueue

variable {T : Type}

def new : SignalQueue T := ⟨[], Signal.of false, false⟩

def close (q : SignalQueue T) : SignalQueue T := { q with isClosed := true }

def pushBack (q : SignalQueue T) (qe : T) : SignalQueue T := { q with
  lst := q.lst ++ [qe]
  signal := if q.signal.raised then q.signal else q.signal.raise }

def insert [BEq T] (q : SignalQueue T) (qe : T) (unique : Bool) : SignalQueue T × Bool :=
  if q.isClosed then (q, false)
  else if unique && q.lst.any (qe == ·) then (q, false)
  else (q.pushBack qe, true)

/-- What `retrieve` does under the mutex. An empty list has no first element. -/
def take (q : SignalQueue T) : Option (T × SignalQueue T) :=
  match q.lst with
  | [] => none
  | qe :: l =>
    some (qe, { q with lst := l, signal := if l.isEmpty then q.signal.lower else q.signal })

/-- The signal is raised, and can be read from, if there is something in the list, and only then. -/
def Signalled (q : SignalQueue T) : Prop := q.signal = Signal.of (!q.lst.isEmpty)

variable {q q' : SignalQueue T} {qe : T} {unique : Bool}

theorem Signalled.raised_iff (h : q.Signalled) : q.signal.raised = true ↔ q.lst ≠ [] := by
  rw [h]
  cases q.lst <;> simp [Signal.of]

theorem Signalled.readable_iff (h : q.Signalled) : 0 < q.signal.pipe ↔ q.lst ≠ [] := by
  rw [h]
  cases q.lst <;> simp [Signal.of]

theorem insert_cases [BEq T] (q : SignalQueue T) (qe : T) (unique : Bool) :
    q.insert qe unique = (q, false) ∨
      q.isClosed = false ∧ q.insert qe unique = (q.pushBack qe, true) := by
  unfold insert
  by_cases hclosed : q.isClosed = true
  · exact .inl (if_pos hclosed)
  · rw [if_neg hclosed]
    by_cases hold : (unique && q.lst.any (qe == ·)) = true
    · exact .inl (if_pos hold)
    · exact .inr ⟨Bool.not_eq_true _ ▸ hclosed, if_neg hold⟩

theorem Signalled.pushBack (h : q.Signalled) (qe : T) : (q.pushBack qe).Signalled := by
  have hsome : (q.lst ++ [qe]).isEmpty = false := by simp
  simp only [Signalled, SignalQueue.pushBack, hsome, Bool.not_false]
  by_cases hup : q.signal.raised = true
  · have hempty : q.lst.isEmpty = false := by simpa using h.raised_iff.mp hup
    rw [if_pos hup, h, hempty, Bool.not_false]
  · rw [if_neg hup, h, Signal.raise_of]

theorem Signalled.insert [BEq T] (h : q.Signalled) (qe : T) (unique : Bool) :
    (q.insert qe unique).1.Signalled := by
  rcases insert_cases q qe unique with hi | ⟨-, hi⟩
  · rw [hi]
    exact h
  · rw [hi]
    exact h.pushBack qe

theorem Signalled.take (h : q.Signalled) (ht : q.take = some (qe, q')) :
    q.lst = qe :: q'.lst ∧ q'.isClosed = q.isClosed ∧ q'.Signalled := by
  unfold SignalQueue.take at ht
  cases hl : q.lst with
  | nil =>
    rw [hl] at ht
    cases ht
  | cons e l =>
    rw [hl] at ht
    cases ht
    have hsignal : q.signal = Signal.of true := by rw [h, hl]; rfl
    refine ⟨rfl, rfl, ?_⟩
    cases l with
    | nil => simp [Signalled, hsignal, Signal.lower_of]
    | cons e' l => simp [Signalled, hsignal]

/-- Without its pipe this is the queue that the protocols use. -/
def toGenericQueue (q : SignalQueue T) : GenericQueue T := ⟨q.lst, q.signal.raised, q.isClosed⟩

theorem Signalled.toGenericQueue_insert [DecidableEq T] (h : q.Signalled) (qe : T) :
    q.toGenericQueue.insert qe =
      if (q.insert qe true).2 then some (q.insert qe true).1.toGenericQueue else none := by
  have hraised : (q.pushBack qe).signal.raised = true :=
    (h.pushBack qe).raised_iff.mpr (by simp [SignalQueue.pushBack])
  have hmem : q.lst.any (qe == ·) = decide (qe ∈ q.lst) := by
    rw [List.any_beq, List.contains_eq_mem]
  simp only [GenericQueue.insert, toGenericQueue, SignalQueue.insert, hmem, Bool.true_and,
    decide_eq_true_eq]
  by_cases hclosed : q.isClosed = true
  · simp [hclosed]
  · by_cases hold : qe ∈ q.lst
    · simp [hclosed, hold]
    · simp only [hclosed, hold, Bool.false_eq_true, or_self, if_false, if_true, hraised]
      simp [SignalQueue.pushBack, hclosed]

theorem Signalled.toGenericQueue_take (h : q.Signalled) :
    q.toGenericQueue.take = q.take.map fun r => (r.1, r.2.toGenericQueue) := by
  simp only [GenericQueue.take, SignalQueue.take, toGenericQueue]
  cases hl : q.lst with
  | nil => rfl
  | cons e l =>
    have hsignal : q.signal = Signal.of true := by rw [h, hl]; rfl
    cases l with
    | nil => simp only [hsignal, Signal.lower_of]; rfl
    | cons e' l => simp [hsignal, Signal.of]

/-- The arguments of a `retrieve` (`retrieveTry` is the one with a zero timeout): whether `qe`
points somewhere, the timeout, and, in the second overload, the `writeevent` that comes with the
watchable. -/
structure Retrieve where
  qe : Bool
  timeout : Option Timeval
  watchable : Option Bool
deriving DecidableEq

/-- Where the consumer stands in a call. -/
inductive Consumer
  | idle
  | called (r : Retrieve)
  | lowered (r : Retrieve)
  | checked (r : Retrieve)
  | waiting (r : Retrieve)
  | unset
  | popping
deriving DecidableEq

/-- What `select` finds besides the signal of the queue. -/
inductive Select
  | failed
  | done (expired exitSignal ready : Bool)
deriving DecidableEq

inductive Watched
  | failed
  | timeout
  | abandoned
  | set (signal readable writeable : Bool)
deriving DecidableEq

/-- `Watch::wait`; it goes on if `select` finds nothing and the time is not over. -/
def wait (r : Retrieve) (signal : Signal) (found : Select) : Option Watched :=
  if r.timeout.any (· ≤ Timeval.zero) then some .timeout
  else
    match found with
    | .failed => some .failed
    | .done expired exitSignal ready =>
      let readable := ready && r.watchable == some false
      let writeable := ready && r.watchable == some true
      if exitSignal then some .abandoned
      else if 0 < signal.pipe ∨ readable = true ∨ writeable = true then
        some (.set (decide (0 < signal.pipe)) readable writeable)
      else if expired && r.timeout.isSome then some .timeout
      else none

structure State (T : Type) where
  queue : SignalQueue T
  consumer : Consumer
  /-- What the calls of `insert` were given and returned. -/
  inserts : List (T × Bool)
  /-- What the calls of `retrieve` returned. -/
  retrieves : List (Retrieved T)
  /-- The consumer has taken the front of an empty list. -/
  tookEmpty : Bool
deriving DecidableEq

inductive Act (T : Type)
  | insert (qe : T) (unique : Bool)
  | close
  | retrieve (r : Retrieve)
  | consumer (found : Select)
deriving DecidableEq

namespace State

def start : State T := ⟨new, .idle, [], [], false⟩

def leave (s : State T) (e : Retrieved T) : State T :=
  { s with consumer := .idle, retrieves := s.retrieves ++ [e] }

/-- The next step of the consumer. -/
def advance (s : State T) (found : Select) : State T :=
  match s.consumer with
  | .idle => s
  | .called r =>
    if !r.qe then s.leave .error
    else if !s.queue.signal.raised then { s with consumer := .lowered r }
    else { s with consumer := .popping }
  | .lowered r =>
    if s.queue.lst.isEmpty && decide (r.timeout = some Timeval.zero) then s.leave .empty
    else { s with consumer := .checked r }
  -- here the first overload unlocks the mutex, which is free; the items are added to the watch
  | .checked r => { s with consumer := .waiting r }
  | .waiting r =>
    match wait r s.queue.signal found with
    | none => s
    | some .failed => s.leave .watchError
    | some .timeout => s.leave .timeout
    | some .abandoned => s.leave .watchAbandoned
    | some (.set signal readable writeable) =>
      if r.watchable = none then { s with consumer := .popping }
      else if readable then s.leave .watchRead
      else if writeable then s.leave .watchWrite
      else if !signal then { s with consumer := .unset }
      else { s with consumer := .popping }
  | .unset =>
    if !s.queue.signal.raised then s.leave .error else { s with consumer := .popping }
  | .popping =>
    match s.queue.take with
    | none => { s with consumer := .idle, tookEmpty := true }
    | some (qe, queue) => { s.leave (.element qe) with queue }

/-- The elements whose `insert` returned true. -/
def accepted (s : State T) : List T := (s.inserts.filter Prod.snd).map Prod.fst

/-- The elements that were retrieved. -/
def retrieved (s : State T) : List T := s.retrieves.filterMap Retrieved.qe

/-- A consumer on its way to the last section finds something there; what was accepted and not
retrieved waits in the list. -/
structure Orderly (s : State T) : Prop where
  signalled : s.queue.Signalled
  popping : s.consumer = .popping → s.queue.lst ≠ []
  tookEmpty : s.tookEmpty = false
  accepted : s.accepted = s.retrieved ++ s.queue.lst

end State

namespace State

variable {s : State T}

theorem Orderly.start : (start : State T).Orderly where
  signalled := rfl
  popping := by rintro ⟨⟩
  tookEmpty := rfl
  accepted := rfl

theorem Orderly.leave (h : s.Orderly) {e : Retrieved T} (he : e.qe = none) :
    (s.leave e).Orderly where
  signalled := h.signalled
  popping := by rintro ⟨⟩
  tookEmpty := h.tookEmpty
  accepted := by
    have hret : (s.leave e).retrieved = s.retrieved := by simp [retrieved, State.leave, he]
    exact hret ▸ h.accepted

theorem Orderly.goTo (h : s.Orderly) {consumer : Consumer}
    (hp : consumer = .popping → s.queue.lst ≠ []) :
    ({ s with consumer } : State T).Orderly where
  signalled := h.signalled
  popping := hp
  tookEmpty := h.tookEmpty
  accepted := h.accepted

/-- A wait that is not for a second item ends with the signal. -/
theorem readable_of_wait {r : Retrieve} {signal : Signal} {found : Select}
    {set readable writeable : Bool} (h : wait r signal found = some (.set set readable writeable)) :
    set = decide (0 < signal.pipe) ∧ (r.watchable = none → 0 < signal.pipe) := by
  unfold wait at h
  by_cases htime : r.timeout.any (· ≤ Timeval.zero) = true
  · rw [if_pos htime] at h
    cases h
  rw [if_neg htime] at h
  cases found with
  | failed => cases h
  | done expired exitSignal ready =>
    dsimp only at h
    split_ifs at h with hexit hset hexpired
    · cases h
    · obtain ⟨rfl, -, -⟩ := Watched.set.inj (Option.some.inj h)
      refine ⟨rfl, fun hr => ?_⟩
      simpa [hr] using hset
    · cases h

theorem Orderly.advance (h : s.Orderly) (found : Select) : (s.advance found).Orderly := by
  unfold State.advance
  cases hc : s.consumer with
  | idle => exact h
  | called r =>
    simp only
    split_ifs with hqe hup
    · exact h.leave rfl
    · exact h.goTo (by rintro ⟨⟩)
    · exact h.goTo fun _ => h.signalled.raised_iff.mp (by simpa using hup)
  | lowered r =>
    simp only
    split_ifs
    · exact h.leave rfl
    · exact h.goTo (by rintro ⟨⟩)
  | checked r => exact h.goTo (by rintro ⟨⟩)
  | waiting r =>
    simp only
    cases hw : wait r s.queue.signal found with
    | none => exact h
    | some w =>
      cases w with
      | failed => exact h.leave rfl
      | timeout => exact h.leave rfl
      | abandoned => exact h.leave rfl
      | set signal readable writeable =>
        obtain ⟨hset, hnone⟩ := readable_of_wait hw
        simp only
        split_ifs with hr hread hwrite hsignal
        · exact h.goTo fun _ => h.signalled.readable_iff.mp (hnone hr)
        · exact h.leave rfl
        · exact h.leave rfl
        · exact h.goTo (by rintro ⟨⟩)
        · have hreadable : 0 < s.queue.signal.pipe := by
            simpa [hset, Nat.pos_iff_ne_zero] using hsignal
          exact h.goTo fun _ => h.signalled.readable_iff.mp hreadable
  | unset =>
    simp only
    split_ifs with hup
    · exact h.leave rfl
    · exact h.goTo fun _ => h.signalled.raised_iff.mp (by simpa using hup)
  | popping =>
    have hne := h.popping hc
    simp only
    cases ht : s.queue.take with
    | none =>
      unfold SignalQueue.take at ht
      split at ht
      next hl => exact absurd hl hne
      next => cases ht
    | some r =>
      obtain ⟨hlst, -, hsig⟩ := h.signalled.take ht
      refine ⟨hsig, by rintro ⟨⟩, h.tookEmpty, ?_⟩
      calc s.accepted = s.retrieved ++ s.queue.lst := h.accepted
        _ = s.retrieved ++ [r.1] ++ r.2.lst := by rw [hlst, List.append_assoc]; rfl
        _ = _ := by simp [retrieved, State.leave, Retrieved.qe]

theorem isClosed_advance (s : State T) (found : Select) :
    (s.advance found).queue.isClosed = s.queue.isClosed ∧
      (s.advance found).inserts = s.inserts := by
  unfold State.advance
  cases s.consumer with
  | popping =>
    simp only
    cases ht : s.queue.take with
    | none => exact ⟨rfl, rfl⟩
    | some r =>
      unfold SignalQueue.take at ht
      split at ht
      · cases ht
      · cases ht
        exact ⟨rfl, rfl⟩
  | waiting r =>
    dsimp only
    split
    all_goals try split_ifs
    all_goals exact ⟨rfl, rfl⟩
  | _ =>
    dsimp only
    try split_ifs
    all_goals exact ⟨rfl, rfl⟩

end State

variable [BEq T]

/-- A consumer that is in a call does not start another one. -/
def step (s : State T) : Act T → State T
  | .insert qe unique =>
    { s with
      queue := (s.queue.insert qe unique).1
      inserts := s.inserts ++ [(qe, (s.queue.insert qe unique).2)] }
  | .close => { s with queue := s.queue.close }
  | .retrieve r => if s.consumer = .idle then { s with consumer := .called r } else s
  | .consumer found => s.advance found

namespace State

variable {s : State T}

theorem Orderly.step (h : s.Orderly) (a : Act T) : (SignalQueue.step s a).Orderly := by
  cases a with
  | insert qe unique =>
    have hsig := h.signalled.insert qe unique
    rcases insert_cases s.queue qe unique with hi | ⟨-, hi⟩
    · refine ⟨hsig, fun hp => ?_, h.tookEmpty, ?_⟩
      · simpa only [SignalQueue.step, hi] using h.popping hp
      · simpa [SignalQueue.step, hi, State.accepted, retrieved] using h.accepted
    · refine ⟨hsig, fun _ => ?_, h.tookEmpty, ?_⟩
      · simp [SignalQueue.step, hi, pushBack]
      · have hacc := h.accepted
        simp only [State.accepted, retrieved] at hacc
        simp [SignalQueue.step, hi, State.accepted, retrieved, pushBack, hacc]
  | close => exact ⟨h.signalled, h.popping, h.tookEmpty, h.accepted⟩
  | retrieve r =>
    simp only [SignalQueue.step]
    split_ifs
    · exact h.goTo (by rintro ⟨⟩)
    · exact h
  | consumer found => exact h.advance found

theorem Orderly.run (as : List (Act T)) : (Trace.run SignalQueue.step State.start as).Orderly :=
  Trace.invariant (fun _ a h => h.step a) Orderly.start as

/-- A closed queue stays closed, and accepts nothing. -/
def ClosedAt (k : List T) (s : State T) : Prop := s.queue.isClosed = true ∧ s.accepted = k

theorem ClosedAt.step {k : List T} (h : ClosedAt k s) (a : Act T) :
    ClosedAt k (SignalQueue.step s a) := by
  cases a with
  | insert qe unique =>
    have hi : s.queue.insert qe unique = (s.queue, false) := if_pos h.1
    refine ⟨by simpa only [SignalQueue.step, hi] using h.1, ?_⟩
    simpa [SignalQueue.step, hi, accepted] using h.2
  | close => exact ⟨rfl, h.2⟩
  | retrieve r =>
    simp only [SignalQueue.step]
    split_ifs
    · exact h
    · exact h
  | consumer found =>
    obtain ⟨hclosed, hins⟩ := isClosed_advance s found
    refine ⟨hclosed.trans h.1, ?_⟩
    rw [← h.2]
    exact congrArg (fun i => (i.filter Prod.snd).map Prod.fst) hins

/-- Whatever the producers do and whenever the consumer looks: the signal and its pipe tell whether
there is something in the list, the consumer never takes from an empty list, what it retrieved is
the beginning of what was accepted, and after a `close` nothing is accepted. -/
theorem orderly_run (as bs : List (Act T)) :
    let s := Trace.run SignalQueue.step start as
    (s.queue.signal.raised = true ↔ s.queue.lst ≠ []) ∧
      (0 < s.queue.signal.pipe ↔ s.queue.lst ≠ []) ∧
      s.tookEmpty = false ∧ s.accepted = s.retrieved ++ s.queue.lst ∧
      (Trace.run SignalQueue.step start (as ++ .close :: bs)).accepted = s.accepted := by
  intro s
  have h : s.Orderly := Orderly.run as
  refine ⟨h.signalled.raised_iff, h.signalled.readable_iff, h.tookEmpty, h.accepted, ?_⟩
  rw [Trace.run_append, Trace.run_cons]
  have hclosed : ClosedAt s.accepted (SignalQueue.step s .close) := ⟨rfl, rfl⟩
  exact (Trace.invariant (fun _ a h => h.step a) hclosed bs).2

end State
end SignalQueue
end Haggle
