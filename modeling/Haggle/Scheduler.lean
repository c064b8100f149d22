import Haggle.EventQueue
import Haggle.Trace

/-!
# The kernel's event loop

`HaggleKernel::run` is one thread that reads the clock, asks the queue for the next time, waits, and
takes an event when the wait timed out. Between any two of these other threads may add events, set
the shutdown flag, or let time pass. The loop counter `LoopPc` says what the loop does next.
-/

namespace Haggle

inductive LoopPc
  /-- Before `Timeval::now()`. -/
  | top
  /-- Before `getNextEventTime`. -/
  | timed (now : Timeval)
  /-- Before `wait`, with the time to wait for. -/
  | armed (timeout : Option Timeval)
  /-- In `wait`, which times out from the deadline on. -/
  | waiting (deadline : Option ℤ)
  /-- In `getNextEvent`, before its first locked section. -/
  | getNextEvent
  /-- In `getNextEvent`, before its second locked section. -/
  | extract
  /-- `extractFirst` returned `NULL`, which the loop does not expect. -/
  | fault
  | finished

/-- What the loop takes from the queue, with the moment it does. -/
structure Dispatch (τ : Type) where
  event : Event τ
  clock : ℤ
  shutdownSeen : Bool
  queued : List (Event τ)

/-- In time and in order. -/
structure Dispatch.Fair {τ : Type} (d : Dispatch τ) : Prop where
  due : d.event.timeout ≤ Timeval.ofMicros d.clock ∨ d.shutdownSeen = true
  mem : d.event ∈ d.queued
  least : ∀ e ∈ d.queued, d.event.timeout ≤ e.timeout

structure Scheduler (τ : Type) where
  queue : EventQueue τ
  clock : ℤ
  shutdownmode : Bool
  pc : LoopPc
  added : List (Event τ)
  dispatched : List (Dispatch τ)
  shutdowns : ℕ

inductive SchedulerInput (τ : Type)
  | tick (d : ℕ)
  | addEvent (e : Option (Event τ))
  | enableShutdownEvent
  /-- The loop takes its next step; a wait that has not reached its deadline goes on. -/
  | kernel
  /-- `wait` returns something other than `TIMEOUT`. -/
  | wake
  /-- The loop finds the registry empty. -/
  | unregistered

namespace Scheduler

variable {τ : Type}

def init (clock : ℤ) : Scheduler τ := ⟨EventQueue.init, clock, false, .top, [], [], 0⟩

/-- The switch of the loop: the shutdown mode and the time to wait for. -/
def relativeTime (shutdownmode : Bool) (now timeout : Timeval) : Timeval :=
  let timeout := if shutdownmode then Timeval.zero else timeout
  if timeout ≤ now then Timeval.zero else timeout.sub now

def switchEvent (shutdownmode : Bool) (now timeout : Timeval) : EQEvent → Bool × Option Timeval
  | .shutdown => (true, some (relativeTime true now timeout))
  | .event => (shutdownmode, some (relativeTime shutdownmode now timeout))
  | .empty => (shutdownmode, none)

def dispatch (s : Scheduler τ) : Scheduler τ :=
  match s.queue.extractEvent with
  | none => { s with pc := .fault }
  | some (e, q) =>
    { s with queue := q, pc := .top,
             dispatched := s.dispatched ++ [⟨e, s.clock, s.shutdownmode, s.queue.heap⟩] }

def kernelStep (s : Scheduler τ) : Scheduler τ :=
  match s.pc with
  | .top => { s with pc := .timed (Timeval.ofMicros s.clock) }
  | .timed now =>
    let r := s.queue.getNextEventTime Timeval.zero
    let w := switchEvent s.shutdownmode now r.2.2 r.2.1
    { s with queue := r.1, shutdownmode := w.1, pc := .armed w.2 }
  | .armed timeout => { s with pc := .waiting (timeout.map fun t => s.clock + t.micros) }
  | .waiting (some deadline) => if deadline ≤ s.clock then { s with pc := .getNextEvent } else s
  | .waiting none => s
  | .getNextEvent =>
    match s.queue.takeShutdownEvent with
    | some q => { s with queue := q, pc := .top, shutdowns := s.shutdowns + 1 }
    | none => { s with pc := .extract }
  | .extract => s.dispatch
  | .fault => s
  | .finished => s

def step (s : Scheduler τ) : SchedulerInput τ → Scheduler τ
  | .tick d => { s with clock := s.clock + d }
  | .addEvent e => { s with queue := s.queue.addEvent e, added := s.added ++ e.toList }
  | .enableShutdownEvent => { s with queue := s.queue.enableShutdownEvent }
  | .kernel => s.kernelStep
  | .wake =>
    match s.pc with
    | .waiting _ => { s with pc := .top }
    | _ => s
  | .unregistered =>
    match s.pc with
    | .top => { s with pc := .finished }
    | _ => s

/-! ## The invariant -/

/-- An event that may be dispatched once the clock reads `limit` is in the queue. -/
def Due (s : Scheduler τ) (limit : ℤ) : Prop :=
  (s.shutdownmode = true ∧ s.queue.heap ≠ []) ∨ ∃ e ∈ s.queue.heap, e.timeout.micros ≤ limit

/-- Or the shutdown flag is set, which only the loop clears. -/
def Pending (s : Scheduler τ) (limit : ℤ) : Prop := s.queue.shutdownEvent = true ∨ s.Due limit

def PcInv (s : Scheduler τ) : Prop :=
  match s.pc with
  | .timed now => now.Adjusted ∧ now.micros ≤ s.clock
  | .armed (some t) => s.Pending (s.clock + t.micros)
  | .waiting (some deadline) => s.Pending deadline
  | .getNextEvent => s.Pending s.clock
  | .extract => s.Due s.clock
  | .fault => False
  | _ => True

structure Inv (s : Scheduler τ) : Prop where
  ordered : s.queue.Ordered
  pc : s.PcInv
  entries : (s.dispatched.map Dispatch.event ++ s.queue.heap).Perm s.added
  fair : ∀ d ∈ s.dispatched, d.Fair

variable {s s' : Scheduler τ}

theorem Due.ne_nil {limit : ℤ} (h : s.Due limit) : s.queue.heap ≠ [] := by
  rcases h with ⟨-, hne⟩ | ⟨e, he, -⟩
  · exact hne
  · exact List.ne_nil_of_mem he

/-- What other threads do, and the passing of time, do not disturb the loop. -/
theorem PcInv.frame (h : s.PcInv) (hpc : s'.pc = s.pc) (hclock : s.clock ≤ s'.clock)
    (hflag : s.queue.shutdownEvent = true → s'.queue.shutdownEvent = true)
    (hmode : s'.shutdownmode = s.shutdownmode)
    (hheap : ∀ e ∈ s.queue.heap, e ∈ s'.queue.heap) : s'.PcInv := by
  have hdue : ∀ l l', l ≤ l' → s.Due l → s'.Due l' := by
    rintro l l' hl (⟨hm, hne⟩ | ⟨e, he, hle⟩)
    · obtain ⟨e, he⟩ := List.exists_mem_of_ne_nil _ hne
      exact .inl ⟨hmode.trans hm, List.ne_nil_of_mem (hheap e he)⟩
    · exact .inr ⟨e, hheap e he, hle.trans hl⟩
  have hpend : ∀ l l', l ≤ l' → s.Pending l → s'.Pending l' :=
    fun l l' hl => Or.imp hflag (hdue l l' hl)
  unfold PcInv at *
  rw [hpc]
  cases hs : s.pc with
  | timed now =>
    rw [hs] at h
    exact ⟨h.1, h.2.trans hclock⟩
  | armed timeout =>
    rw [hs] at h
    cases timeout with
    | none => trivial
    | some t => exact hpend _ _ (by omega) h
  | waiting deadline =>
    rw [hs] at h
    cases deadline with
    | none => trivial
    | some d => exact hpend _ _ le_rfl h
  | getNextEvent =>
    rw [hs] at h
    exact hpend _ _ hclock h
  | extract =>
    rw [hs] at h
    exact hdue _ _ hclock h
  | fault =>
    rw [hs] at h
    exact h
  | top => trivial
  | finished => trivial

/-- The time to wait for ends no earlier than the timeout it was computed from. -/
theorem micros_le_relativeTime {now timeout : Timeval} {clock : ℤ} (hnow : now.micros ≤ clock)
    (hadj : now.Adjusted) (hadj' : timeout.Adjusted) :
    timeout.micros ≤ clock + (relativeTime false now timeout).micros := by
  simp only [relativeTime, Bool.false_eq_true, if_false]
  split
  next hle =>
    have := (Timeval.le_iff_micros hadj' hadj).mp hle
    simp only [Timeval.micros_zero]
    omega
  · rw [Timeval.micros_sub]
    omega

/-- What the switch arms the wait with is pending. -/
theorem pcInv_timed {now : Timeval} (hadj : now.Adjusted) (hnow : now.micros ≤ s.clock)
    (hpc : s.pc = .timed now) : s.kernelStep.PcInv := by
  simp only [kernelStep, hpc, EventQueue.getNextEventTime]
  split
  next hflag => exact .inl hflag
  · split
    next e he =>
      have hmem : e ∈ s.queue.heap := List.mem_of_mem_head? he
      right
      cases hm : s.shutdownmode with
      | true => exact .inl ⟨by simp [switchEvent], List.ne_nil_of_mem hmem⟩
      | false =>
        refine .inr ⟨e, hmem, ?_⟩
        exact micros_le_relativeTime hnow hadj e.adjusted
    · trivial

theorem dispatch_eq (s : Scheduler τ) (h : s.Due s.clock) :
    ∃ e q, s.queue.extractEvent = some (e, q) ∧
      s.dispatch = { s with
        queue := q, pc := .top,
        dispatched := s.dispatched ++ [⟨e, s.clock, s.shutdownmode, s.queue.heap⟩] } := by
  cases hx : s.queue.extractEvent with
  | none => exact absurd (EventQueue.extractEvent_eq_none.mp hx) h.ne_nil
  | some r => exact ⟨r.1, r.2, rfl, by simp only [dispatch, hx]⟩

theorem Inv.fair_dispatch (h : s.Inv) (hdue : s.Due s.clock) {e : Event τ} {q : EventQueue τ}
    (hx : s.queue.extractEvent = some (e, q)) :
    (⟨e, s.clock, s.shutdownmode, s.queue.heap⟩ : Dispatch τ).Fair := by
  refine ⟨?_, (EventQueue.extractEvent_perm hx).subset List.mem_cons_self,
    fun x => h.ordered.le_of_extractEvent hx⟩
  rcases hdue with ⟨hm, -⟩ | ⟨x, hmem, hle⟩
  · exact .inr hm
  · left
    have hex := h.ordered.le_of_extractEvent hx hmem
    apply hex.trans
    rw [Timeval.le_iff_micros x.adjusted (Timeval.adjusted_ofMicros _), Timeval.micros_ofMicros]
    exact hle

theorem Inv.dispatch (h : s.Inv) (hdue : s.Due s.clock) : s.dispatch.Inv := by
  obtain ⟨e, q, hx, heq⟩ := dispatch_eq s hdue
  rw [heq]
  constructor
  · exact h.ordered.extractEvent hx
  · trivial
  · have hperm := EventQueue.extractEvent_perm hx
    simp only [List.map_append, List.map_cons, List.map_nil, List.append_assoc,
      List.singleton_append]
    exact (hperm.append_left _).trans h.entries
  · intro d hd
    rcases List.mem_append.mp hd with hd | hd
    · exact h.fair d hd
    · rw [List.mem_singleton.mp hd]
      exact h.fair_dispatch hdue hx

/-- A step of the loop that leaves the events alone. -/
theorem Inv.of_frame (h : s.Inv) (hheap : s'.queue.heap = s.queue.heap) (hpc : s'.PcInv)
    (hadded : s'.added = s.added) (hdisp : s'.dispatched = s.dispatched) : s'.Inv := by
  refine ⟨?_, hpc, ?_, ?_⟩
  · rw [EventQueue.Ordered, hheap]
    exact h.ordered
  · rw [hheap, hadded, hdisp]
    exact h.entries
  · rw [hdisp]
    exact h.fair

theorem getNextEventTime_heap (q : EventQueue τ) (tv : Timeval) :
    (q.getNextEventTime tv).1.heap = q.heap := by
  simp only [EventQueue.getNextEventTime]
  split
  · rfl
  · split <;> rfl

theorem Inv.kernelStep (h : s.Inv) : s.kernelStep.Inv := by
  have hpc := h.pc
  unfold PcInv at hpc
  cases hs : s.pc with
  | top =>
    simp only [Scheduler.kernelStep, hs]
    refine h.of_frame rfl ?_ rfl rfl
    exact ⟨Timeval.adjusted_ofMicros _, by simp⟩
  | timed now =>
    rw [hs] at hpc
    have hinv := pcInv_timed hpc.1 hpc.2 hs
    simp only [Scheduler.kernelStep, hs] at hinv ⊢
    exact h.of_frame (getNextEventTime_heap _ _) hinv rfl rfl
  | armed timeout =>
    simp only [Scheduler.kernelStep, hs]
    refine h.of_frame rfl ?_ rfl rfl
    cases timeout with
    | none => trivial
    | some t =>
      rw [hs] at hpc
      exact hpc
  | waiting deadline =>
    cases deadline with
    | none =>
      simp only [Scheduler.kernelStep, hs]
      exact h
    | some d =>
      rw [hs] at hpc
      simp only [Scheduler.kernelStep, hs]
      split
      next hle =>
        refine h.of_frame rfl ?_ rfl rfl
        rcases hpc with hflag | ⟨hm, hne⟩ | ⟨e, he, hed⟩
        · exact .inl hflag
        · exact .inr (.inl ⟨hm, hne⟩)
        · exact .inr (.inr ⟨e, he, hed.trans hle⟩)
      · exact h
  | getNextEvent =>
    rw [hs] at hpc
    simp only [Scheduler.kernelStep, hs, EventQueue.takeShutdownEvent]
    split
    next q hq =>
      split at hq
      · cases hq
        exact h.of_frame rfl trivial rfl rfl
      · cases hq
    next hq =>
      split at hq
      · cases hq
      next hflag => exact h.of_frame rfl (hpc.resolve_left hflag) rfl rfl
  | extract =>
    rw [hs] at hpc
    simp only [Scheduler.kernelStep, hs]
    exact h.dispatch hpc
  | fault =>
    simp only [Scheduler.kernelStep, hs]
    exact h
  | finished =>
    simp only [Scheduler.kernelStep, hs]
    exact h

theorem Inv.step (h : s.Inv) (a : SchedulerInput τ) : (s.step a).Inv := by
  cases a with
  | tick d =>
    refine h.of_frame rfl ?_ rfl rfl
    exact h.pc.frame rfl (by simp [Scheduler.step]) id rfl fun e he => he
  | addEvent e =>
    refine ⟨h.ordered.addEvent e, ?_, ?_, h.fair⟩
    · refine h.pc.frame rfl le_rfl ?_ rfl fun x => EventQueue.mem_addEvent e
      simp [Scheduler.step]
    · apply ((EventQueue.addEvent_perm s.queue e).append_left _).trans
      apply List.perm_append_comm_assoc _ _ _ |>.trans
      exact List.perm_append_comm.trans (h.entries.append_right _)
  | enableShutdownEvent =>
    refine h.of_frame rfl ?_ rfl rfl
    exact h.pc.frame rfl le_rfl (fun _ => rfl) rfl fun e he => he
  | kernel => exact h.kernelStep
  | wake =>
    simp only [Scheduler.step]
    split
    · exact h.of_frame rfl trivial rfl rfl
    · exact h
  | unregistered =>
    simp only [Scheduler.step]
    split
    · exact h.of_frame rfl trivial rfl rfl
    · exact h

theorem Inv.init (clock : ℤ) : (Scheduler.init clock : Scheduler τ).Inv :=
  ⟨EventQueue.Ordered.init, trivial, List.Perm.refl _, by simp [Scheduler.init]⟩

theorem inv_run (clock : ℤ) (inputs : List (SchedulerInput τ)) :
    (Trace.run step (Scheduler.init clock) inputs).Inv :=
  Trace.invariant (fun _ a h => h.step a) (Inv.init clock) inputs

/-- No event is lost or duplicated: it has been dispatched or it waits in the queue. -/
theorem entries_run (clock : ℤ) (inputs : List (SchedulerInput τ)) :
    let s := Trace.run step (Scheduler.init clock) inputs
    (s.dispatched.map Dispatch.event ++ s.queue.heap).Perm s.added :=
  (inv_run clock inputs).entries

theorem scheduler_run [DecidableEq τ] (clock : ℤ) (inputs : List (SchedulerInput τ)) :
    let s := Trace.run step (Scheduler.init clock) inputs
    (∀ d ∈ s.dispatched, d.event.timeout ≤ Timeval.ofMicros d.clock ∨ d.shutdownSeen = true) ∧
      (∀ e, (s.dispatched.map Dispatch.event).count e ≤ s.added.count e) ∧
      (s.pc = .getNextEvent → s.queue.heap ≠ [] ∨ s.queue.shutdownEvent = true) ∧
      (s.pc = .extract → s.queue.heap ≠ []) ∧ s.pc ≠ .fault ∧
      ∀ d ∈ s.dispatched, d.event ∈ d.queued ∧ ∀ e ∈ d.queued, d.event.timeout ≤ e.timeout := by
  intro s
  have h : s.Inv := inv_run clock inputs
  refine ⟨fun d hd => (h.fair d hd).due, ?_, ?_, ?_, ?_, fun d hd =>
    ⟨(h.fair d hd).mem, (h.fair d hd).least⟩⟩
  · intro e
    have hcount := h.entries.count_eq e
    rw [List.count_append] at hcount
    omega
  · intro hs
    have hpc := h.pc
    rw [PcInv, hs] at hpc
    exact hpc.symm.imp_left Due.ne_nil
  · intro hs
    have hpc := h.pc
    rw [PcInv, hs] at hpc
    exact Due.ne_nil hpc
  · intro hs
    have hpc := h.pc
    rw [PcInv, hs] at hpc
    exact hpc

end Scheduler
end Haggle
