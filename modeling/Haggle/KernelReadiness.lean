import Haggle.EventQueue
import Haggle.Trace

/-!
# Announcing startup and shutdown

A manager that is ready says so once for startup and once for shutdown, or more often. The kernel
looks at the flags of all registered managers at each signal and announces when none is missing. It
does not remember that it has announced. The shutdown event is a flag of the event queue, so a
second announcement is lost as long as the first one has not been taken from the queue.
-/

namespace Haggle

inductive EventType
  | startup
  | prepareShutdown
  | shutdown
deriving DecidableEq

structure Kernel (M : Type) where
  readyForStartup : M → Bool
  readyForShutdown : M → Bool
  running : Bool
  shutdownCalled : Bool
  queue : EventQueue EventType
  dispatched : List EventType

/-- The calls on the kernel. A new event is due at the time `now` of its construction. -/
inductive KernelInput {M : Type} (registry : List M)
  | signalIsReadyForStartup (m : {m // m ∈ registry}) (now : ℤ)
  | signalIsReadyForShutdown (m : {m // m ∈ registry})
  | shutdown (now : ℤ)
  | getNextEvent

namespace Kernel

variable {M : Type}

def init : Kernel M := ⟨fun _ => false, fun _ => false, false, false, EventQueue.init, []⟩

def newEvent (type : EventType) (now : ℤ) : Event EventType :=
  ⟨type, Timeval.ofMicros now, Timeval.adjusted_ofMicros now⟩

section Signals

variable (registry : List M) [DecidableEq M]

/-- `HaggleKernel::signalIsReadyForStartup`. -/
def announceStartup (k : Kernel M) (now : ℤ) : Kernel M :=
  if registry.all k.readyForStartup then
    { k with running := true, queue := k.queue.addEvent (some (newEvent .startup now)) }
  else k

/-- `HaggleKernel::signalIsReadyForShutdown`. -/
def announceShutdown (k : Kernel M) : Kernel M :=
  if registry.all k.readyForShutdown then
    { k with running := false, queue := k.queue.enableShutdownEvent }
  else k

/-- `Manager::signalIsReadyForStartup`. -/
def signalIsReadyForStartup (k : Kernel M) (m : M) (now : ℤ) : Kernel M :=
  announceStartup registry
    { k with readyForStartup := Function.update k.readyForStartup m true } now

/-- `Manager::signalIsReadyForShutdown`. -/
def signalIsReadyForShutdown (k : Kernel M) (m : M) : Kernel M :=
  announceShutdown registry { k with readyForShutdown := Function.update k.readyForShutdown m true }

def shutdown (k : Kernel M) (now : ℤ) : Kernel M :=
  if !k.running || k.shutdownCalled then k
  else
    { k with shutdownCalled := true,
             queue := k.queue.addEvent (some (newEvent .prepareShutdown now)) }

/-- An empty queue has nothing to return. -/
def getNextEvent (k : Kernel M) : Kernel M :=
  match k.queue.takeShutdownEvent with
  | some q => { k with queue := q, dispatched := k.dispatched ++ [.shutdown] }
  | none =>
    match k.queue.extractEvent with
    | some (e, q) => { k with queue := q, dispatched := k.dispatched ++ [e.data] }
    | none => k

def step (k : Kernel M) : KernelInput registry → Kernel M
  | .signalIsReadyForStartup m now => k.signalIsReadyForStartup registry m now
  | .signalIsReadyForShutdown m => k.signalIsReadyForShutdown registry m
  | .shutdown now => k.shutdown now
  | .getNextEvent => k.getNextEvent

end Signals

/-! ## Announcements -/

/-- The events of a type that the kernel has put into its queue. -/
def issued (k : Kernel M) (type : EventType) : ℕ :=
  (k.dispatched ++ k.queue.heap.map Event.data).count type

/-- The shutdown events that have left the queue or are about to. -/
def shutdowns (k : Kernel M) : ℕ := k.issued .shutdown + k.queue.shutdownEvent.toNat

variable (registry : List M)

/-- Some manager is registered, and all that are registered are ready. -/
def Complete (ready : M → Bool) : Prop := registry ≠ [] ∧ registry.all ready = true

instance (ready : M → Bool) : Decidable (Complete registry ready) :=
  inferInstanceAs (Decidable (_ ∧ _))

/-- One event once all are ready, and none before. -/
structure Announced (k : Kernel M) : Prop where
  startup : k.issued .startup = if Complete registry k.readyForStartup then 1 else 0
  shutdown : k.shutdowns = if Complete registry k.readyForShutdown then 1 else 0

/-- The signals that find the announcement not made, or not yet taken from the queue. -/
def InTime (k : Kernel M) : KernelInput registry → Prop
  | .signalIsReadyForStartup _ _ => ¬ Complete registry k.readyForStartup
  | .signalIsReadyForShutdown _ =>
    ¬ Complete registry k.readyForShutdown ∨ k.queue.shutdownEvent = true
  | .shutdown _ => True
  | .getNextEvent => True

variable {registry} {k k' : Kernel M}

theorem complete_of_mem {m : M} (hm : m ∈ registry) {ready : M → Bool} :
    Complete registry ready ↔ registry.all ready = true := by
  simp [Complete, List.ne_nil_of_mem hm]

theorem issued_addEvent (k : Kernel M) (type : EventType) (e : Event EventType) :
    { k with queue := k.queue.addEvent (some e) }.issued type =
      k.issued type + if e.data = type then 1 else 0 := by
  have hperm := (EventQueue.addEvent_perm k.queue (some e)).map Event.data
  have hcount := (hperm.append_left k.dispatched).count_eq type
  simp only [issued, hcount, Option.toList_some, List.singleton_append, List.map_cons,
    List.count_append, List.count_cons, beq_iff_eq]
  omega

theorem Announced.shutdown_call (h : Announced registry k) (now : ℤ) :
    Announced registry (k.shutdown now) := by
  unfold Kernel.shutdown
  split
  · exact h
  · let k' : Kernel M := { k with shutdownCalled := true }
    have hstart := issued_addEvent k' .startup (newEvent .prepareShutdown now)
    have hshut := issued_addEvent k' .shutdown (newEvent .prepareShutdown now)
    rw [newEvent, if_neg (by simp), add_zero] at hstart hshut
    refine ⟨hstart.trans h.startup, ?_⟩
    rw [shutdowns]
    exact (congrArg (· + k.queue.shutdownEvent.toNat) hshut).trans h.shutdown

/-- The shutdown flag becomes an event, and every other event was in the queue. -/
theorem issued_getNextEvent (k : Kernel M) (type : EventType) :
    k.getNextEvent.issued type + (if type = .shutdown then k.getNextEvent.queue.shutdownEvent.toNat
        else 0) =
      k.issued type + if type = .shutdown then k.queue.shutdownEvent.toNat else 0 := by
  cases hflag : k.queue.shutdownEvent with
  | true =>
    have hnext : k.getNextEvent = { k with
        queue := { k.queue with shutdownEvent := false, signal := false },
        dispatched := k.dispatched ++ [EventType.shutdown] } := by
      simp [getNextEvent, EventQueue.takeShutdownEvent, hflag]
    rw [hnext]
    simp only [issued, List.count_append, List.count_singleton]
    cases type <;> simp
    omega
  | false =>
    cases hx : k.queue.extractEvent with
    | none =>
      have hnext : k.getNextEvent = k := by
        simp [getNextEvent, EventQueue.takeShutdownEvent, hflag, hx]
      rw [hnext, hflag]
    | some r =>
      have hnext : k.getNextEvent = { k with
          queue := r.2, dispatched := k.dispatched ++ [r.1.data] } := by
        simp [getNextEvent, EventQueue.takeShutdownEvent, hflag, hx]
      have hq : r.2.shutdownEvent = false := by
        rw [(EventQueue.extractEvent_eq_some hx).2]
        exact hflag
      have hperm := (EventQueue.extractEvent_perm hx).map Event.data
      have hcount := (hperm.append_left k.dispatched).count_eq type
      rw [hnext]
      simp only [hq, issued, List.append_assoc, List.singleton_append, List.map_cons] at hcount ⊢
      rw [hcount]

theorem Announced.getNextEvent (h : Announced registry k) :
    Announced registry k.getNextEvent := by
  have hready : k.getNextEvent.readyForStartup = k.readyForStartup ∧
      k.getNextEvent.readyForShutdown = k.readyForShutdown := by
    unfold Kernel.getNextEvent
    split
    · exact ⟨rfl, rfl⟩
    · split <;> exact ⟨rfl, rfl⟩
  refine ⟨?_, ?_⟩
  · rw [hready.1, ← h.startup]
    simpa using issued_getNextEvent k .startup
  · rw [hready.2, ← h.shutdown]
    simpa [shutdowns] using issued_getNextEvent k .shutdown

theorem Announced.init (registry : List M) : Announced registry (Kernel.init : Kernel M) := by
  have hnot : ¬ Complete registry fun _ : M => false := by
    rintro ⟨hne, hall⟩
    obtain ⟨m, hm⟩ := List.exists_mem_of_ne_nil _ hne
    simpa using List.all_eq_true.mp hall m hm
  refine ⟨?_, ?_⟩
  · rw [Kernel.init, if_neg hnot]
    rfl
  · rw [Kernel.init, if_neg hnot]
    rfl

variable [DecidableEq M]

theorem Complete.update {ready : M → Bool} (h : Complete registry ready) (m : M) :
    Complete registry (Function.update ready m true) := by
  refine ⟨h.1, List.all_eq_true.mpr fun x hx => ?_⟩
  by_cases hxm : x = m
  · rw [hxm, Function.update_self]
  · rw [Function.update_of_ne hxm]
    exact List.all_eq_true.mp h.2 x hx

@[simp] theorem readyForStartup_signal (k : Kernel M) (m : M) (now : ℤ) :
    (k.signalIsReadyForStartup registry m now).readyForStartup =
      Function.update k.readyForStartup m true := by
  simp only [signalIsReadyForStartup, announceStartup]
  split <;> rfl

@[simp] theorem readyForShutdown_signal (k : Kernel M) (m : M) (now : ℤ) :
    (k.signalIsReadyForStartup registry m now).readyForShutdown = k.readyForShutdown := by
  simp only [signalIsReadyForStartup, announceStartup]
  split <;> rfl

theorem issued_signalIsReadyForStartup (k : Kernel M) (m : M) (now : ℤ) (type : EventType) :
    (k.signalIsReadyForStartup registry m now).issued type = k.issued type +
      if registry.all (Function.update k.readyForStartup m true) = true ∧ type = .startup then 1
      else 0 := by
  simp only [signalIsReadyForStartup, announceStartup]
  split
  next hall =>
    simp only [hall, true_and]
    have hadd := issued_addEvent { k with
      readyForStartup := Function.update k.readyForStartup m true, running := true } type
      (newEvent .startup now)
    rw [newEvent] at hadd
    simp only [eq_comm] at hadd ⊢
    exact hadd
  next hall =>
    rw [if_neg fun h => hall h.1]
    rfl

theorem shutdowns_signalIsReadyForStartup (k : Kernel M) (m : M) (now : ℤ) :
    (k.signalIsReadyForStartup registry m now).shutdowns = k.shutdowns := by
  have hflag : (k.signalIsReadyForStartup registry m now).queue.shutdownEvent =
      k.queue.shutdownEvent := by
    simp only [signalIsReadyForStartup, announceStartup]
    split
    · exact EventQueue.addEvent_shutdownEvent _ _
    · rfl
  rw [shutdowns, shutdowns, hflag, issued_signalIsReadyForStartup, if_neg (by simp), add_zero]

theorem announced_signalIsReadyForStartup (h : Announced registry k) {m : M} (hm : m ∈ registry)
    (now : ℤ) : Announced registry (k.signalIsReadyForStartup registry m now) ↔
      ¬ Complete registry k.readyForStartup := by
  have hold := h.startup
  have hissued : (k.signalIsReadyForStartup registry m now).issued .startup =
      k.issued .startup +
        if Complete registry (Function.update k.readyForStartup m true) then 1 else 0 := by
    rw [issued_signalIsReadyForStartup]
    simp only [and_true, complete_of_mem hm]
  constructor
  · intro hann hk
    have hnew := hann.startup
    rw [readyForStartup_signal, hissued, hold, if_pos hk, if_pos (hk.update m)] at hnew
    omega
  · intro hk
    refine ⟨?_, ?_⟩
    · rw [readyForStartup_signal, hissued, hold, if_neg hk, zero_add]
    · rw [readyForShutdown_signal, shutdowns_signalIsReadyForStartup]
      exact h.shutdown

theorem announced_signalIsReadyForShutdown (h : Announced registry k) {m : M} (hm : m ∈ registry) :
    Announced registry (k.signalIsReadyForShutdown registry m) ↔
      ¬ Complete registry k.readyForShutdown ∨ k.queue.shutdownEvent = true := by
  simp only [signalIsReadyForShutdown, announceShutdown]
  have hold := h.shutdown
  rw [shutdowns] at hold
  split
  next hall =>
    have hc : Complete registry (Function.update k.readyForShutdown m true) :=
      (complete_of_mem hm).mpr hall
    -- The flag is set now: the announcement is the only one when no event has left the queue.
    have hann : Announced registry { k with
        readyForShutdown := Function.update k.readyForShutdown m true, running := false,
        queue := k.queue.enableShutdownEvent } ↔ k.issued .shutdown = 0 := by
      constructor
      · intro hann
        have hnew := hann.shutdown
        rw [if_pos hc] at hnew
        exact Nat.succ.inj hnew
      · intro hzero
        refine ⟨h.startup, ?_⟩
        rw [if_pos hc]
        exact congrArg Nat.succ hzero
    rw [hann]
    cases hflag : k.queue.shutdownEvent <;> split at hold <;> simp_all
  next hall =>
    have hc : ¬ Complete registry (Function.update k.readyForShutdown m true) :=
      fun hc => hall hc.2
    have hk : ¬ Complete registry k.readyForShutdown := fun hk => hc (hk.update m)
    rw [if_neg hk] at hold
    simp only [hk, not_false_eq_true, true_or, iff_true]
    refine ⟨h.startup, ?_⟩
    rw [if_neg hc]
    exact hold

theorem announced_step (h : Announced registry k) (a : KernelInput registry) :
    Announced registry (k.step registry a) ↔ InTime registry k a := by
  cases a with
  | signalIsReadyForStartup m now => exact announced_signalIsReadyForStartup h m.2 now
  | signalIsReadyForShutdown m => exact announced_signalIsReadyForShutdown h m.2
  | shutdown now => exact iff_of_true (h.shutdown_call now) trivial
  | getNextEvent => exact iff_of_true h.getNextEvent trivial

/-- A run announces once and in time exactly when no manager signals after the announcement. -/
theorem announced_run_iff (registry : List M) (inputs : List (KernelInput registry)) :
    (∀ pre, pre <+: inputs → Announced registry (Trace.run (step registry) Kernel.init pre)) ↔
      Trace.Guarded (step registry) (InTime registry) Kernel.init inputs := by
  have hstep : ∀ (k : Kernel M) (a : KernelInput registry), Announced registry k →
      (Announced registry (k.step registry a) ↔ InTime registry k a) :=
    fun _ a h => announced_step h a
  exact Trace.forall_prefix_iff_guarded hstep (Announced.init registry) inputs

/-! ## The call that is guarded -/

/-- `shutdown` remembers that it was called. -/
def PreparedOnce (k : Kernel M) : Prop := k.issued .prepareShutdown = k.shutdownCalled.toNat

theorem PreparedOnce.step (h : PreparedOnce k) (a : KernelInput registry) :
    PreparedOnce (k.step registry a) := by
  unfold PreparedOnce at *
  cases a with
  | signalIsReadyForStartup m now =>
    have hcalled : (k.signalIsReadyForStartup registry m now).shutdownCalled =
        k.shutdownCalled := by
      simp only [signalIsReadyForStartup, announceStartup]
      split <;> rfl
    simp only [Kernel.step, hcalled, issued_signalIsReadyForStartup]
    simpa using h
  | signalIsReadyForShutdown m =>
    simp only [Kernel.step, signalIsReadyForShutdown, announceShutdown]
    split <;> exact h
  | shutdown now =>
    simp only [Kernel.step, Kernel.shutdown]
    split
    · exact h
    next hguard =>
      have hnot : k.shutdownCalled = false := by
        simp only [Bool.or_eq_true, not_or, Bool.not_eq_true] at hguard
        exact hguard.2
      have hadd := issued_addEvent { k with shutdownCalled := true } .prepareShutdown
        (newEvent .prepareShutdown now)
      rw [newEvent, if_pos rfl] at hadd
      rw [hnot] at h
      exact hadd.trans (congrArg (· + 1) h)
  | getNextEvent =>
    have hcalled : k.getNextEvent.shutdownCalled = k.shutdownCalled := by
      unfold Kernel.getNextEvent
      split
      · rfl
      · split <;> rfl
    simp only [Kernel.step, hcalled]
    rw [← h]
    simpa using issued_getNextEvent k .prepareShutdown

/-- However often it is called, `shutdown` prepares the managers at most once. -/
theorem preparedOnce_run (registry : List M) (inputs : List (KernelInput registry)) :
    (Trace.run (step registry) Kernel.init inputs).issued .prepareShutdown ≤ 1 := by
  have hstep : ∀ (k : Kernel M) (a : KernelInput registry), PreparedOnce k →
      PreparedOnce (k.step registry a) := fun _ a h => h.step a
  have hinit : PreparedOnce (Kernel.init : Kernel M) := rfl
  have hrun := Trace.invariant hstep hinit inputs
  rw [PreparedOnce] at hrun
  rw [hrun]
  exact Bool.toNat_le _

namespace Sample

def managers : List ℕ := [0, 1]

theorem zero_mem_managers : 0 ∈ managers := by simp [managers]

theorem one_mem_managers : 1 ∈ managers := by simp [managers]

/-- The second manager's repository is read twice before the startup event is handled. -/
def signals : List (KernelInput managers) :=
  [.signalIsReadyForStartup ⟨0, zero_mem_managers⟩ 0,
    .signalIsReadyForStartup ⟨1, one_mem_managers⟩ 1,
    .signalIsReadyForStartup ⟨1, one_mem_managers⟩ 2]

theorem issued_signals :
    (Trace.run (step managers) Kernel.init signals).issued .startup = 2 ∧
      ¬ Announced managers (Trace.run (step managers) Kernel.init signals) := by
  have hissued : (Trace.run (step managers) Kernel.init signals).issued .startup = 2 := by
    simp only [signals, Trace.run_cons, Trace.run_nil, step, issued_signalIsReadyForStartup,
      readyForStartup_signal]
    rfl
  refine ⟨hissued, fun h => ?_⟩
  have hstart := h.startup
  rw [hissued] at hstart
  split at hstart <;> omega

end Sample
end Kernel
end Haggle
