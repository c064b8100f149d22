import Haggle.MinHeap
import Haggle.Timeval

/-!
# The event queue

Events wait in a min-heap ordered by their timeouts. The shutdown event is not one of them: it is a
flag of its own, which `getNextEvent` looks at first. The two mutexes of the queue make the locked
sections below the atomic steps: `getNextEvent` is `takeShutdownEvent` under one of them, followed
by `extractEvent` under the other.
-/

namespace Haggle

/-- The constructors of an event compute its timeout with `Timeval::operator+`. -/
structure Event (τ : Type) where
  data : τ
  timeout : Timeval
  adjusted : timeout.Adjusted
deriving DecidableEq

inductive EQEvent
  | empty
  | event
  | shutdown
deriving DecidableEq

structure EventQueue (τ : Type) where
  heap : List (Event τ)
  shutdownEvent : Bool
  signal : Bool

namespace EventQueue

variable {τ : Type}

def init : EventQueue τ := ⟨[], false, false⟩

/-- `tv` is the caller's variable, which an empty queue leaves alone. -/
def getNextEventTime (q : EventQueue τ) (tv : Timeval) : EventQueue τ × EQEvent × Timeval :=
  let q' := { q with signal := false }
  if q.shutdownEvent then (q', .shutdown, Timeval.zero)
  else
    match q.heap.head? with
    | some e => (q', .event, e.timeout)
    | none => (q', .empty, tv)

def takeShutdownEvent (q : EventQueue τ) : Option (EventQueue τ) :=
  if q.shutdownEvent then some { q with shutdownEvent := false, signal := false } else none

def extractEvent (q : EventQueue τ) : Option (Event τ × EventQueue τ) :=
  (MinHeap.extractFirst Event.timeout q.heap).map fun r => (r.1, { q with heap := r.2 })

def enableShutdownEvent (q : EventQueue τ) : EventQueue τ :=
  { q with shutdownEvent := true, signal := true }

/-- `Heap::insert` always finds room, as `increaseSize` does not fail. -/
def addEvent (q : EventQueue τ) : Option (Event τ) → EventQueue τ
  | none => q
  | some e => { q with heap := MinHeap.insert Event.timeout q.heap e, signal := true }

/-- The queue is a heap. -/
def Ordered (q : EventQueue τ) : Prop := MinHeap.Ordered Event.timeout q.heap

variable {q q' : EventQueue τ} {e : Event τ}

@[simp] theorem addEvent_shutdownEvent (q : EventQueue τ) (e : Option (Event τ)) :
    (q.addEvent e).shutdownEvent = q.shutdownEvent := by
  cases e <;> rfl

theorem addEvent_perm (q : EventQueue τ) (e : Option (Event τ)) :
    (q.addEvent e).heap.Perm (e.toList ++ q.heap) := by
  cases e with
  | none => exact List.Perm.refl _
  | some e => exact MinHeap.insert_perm _ _ _

theorem mem_addEvent {x : Event τ} (e : Option (Event τ)) (hx : x ∈ q.heap) :
    x ∈ (q.addEvent e).heap :=
  (addEvent_perm q e).mem_iff.mpr (List.mem_append_right _ hx)

theorem Ordered.init : (EventQueue.init : EventQueue τ).Ordered := by
  intro c _ a ha
  simp [EventQueue.init] at ha

theorem Ordered.addEvent (h : q.Ordered) (e : Option (Event τ)) : (q.addEvent e).Ordered := by
  cases e with
  | none => exact h
  | some e => exact MinHeap.insert_ordered h e

theorem extractEvent_eq_none : q.extractEvent = none ↔ q.heap = [] := by
  simp [extractEvent, MinHeap.extractFirst_eq_none]

theorem extractEvent_eq_some (h : q.extractEvent = some (e, q')) :
    MinHeap.extractFirst Event.timeout q.heap = some (e, q'.heap) ∧
      q' = { q with heap := q'.heap } := by
  simp only [extractEvent, Option.map_eq_some_iff, Prod.mk.injEq] at h
  obtain ⟨r, hr, rfl, rfl⟩ := h
  exact ⟨hr, rfl⟩

theorem extractEvent_perm (h : q.extractEvent = some (e, q')) : (e :: q'.heap).Perm q.heap :=
  MinHeap.extractFirst_perm (extractEvent_eq_some h).1

theorem Ordered.extractEvent (ho : q.Ordered) (h : q.extractEvent = some (e, q')) :
    q'.Ordered :=
  MinHeap.extractFirst_ordered ho (extractEvent_eq_some h).1

theorem Ordered.le_of_extractEvent (ho : q.Ordered) (h : q.extractEvent = some (e, q'))
    {x : Event τ} (hx : x ∈ q.heap) : e.timeout ≤ x.timeout :=
  MinHeap.extractFirst_le ho (extractEvent_eq_some h).1 hx

end EventQueue
end Haggle
