import Mathlib.Data.List.Basic

/-!
# The queue between the kernel and a protocol

A `GenericQueue` is a list with a signal that tells a waiting thread that there is something in the
list. Whether the signal is up is looked at without the lock, and the element is taken under the
lock afterwards. With a second thread that takes elements there may be none left by then.
-/

namespace Haggle

structure GenericQueue (T : Type) where
  lst : List T
  signal : Bool
  isClosed : Bool

namespace GenericQueue

variable {T : Type}

def new : GenericQueue T := ⟨[], false, false⟩

def close (q : GenericQueue T) : GenericQueue T := { q with isClosed := true }

/-- `insert(qe, true)`; `none` is the result `false`. -/
def insert [DecidableEq T] (q : GenericQueue T) (qe : T) : Option (GenericQueue T) :=
  if q.isClosed = true ∨ qe ∈ q.lst then none
  else some { q with lst := q.lst ++ [qe], signal := true }

/-- What `retrieve` does under the lock. An empty list has no first element. -/
def take (q : GenericQueue T) : Option (T × GenericQueue T) :=
  match q.lst with
  | [] => none
  | qe :: l => some (qe, { q with lst := l, signal := if l.isEmpty then false else q.signal })

/-- The signal is up when there is something in the list, and only then. -/
def Signalled (q : GenericQueue T) : Prop := q.signal = true ↔ q.lst ≠ []

variable {q q' : GenericQueue T} {e : T}

theorem signalled_new : (new : GenericQueue T).Signalled := by
  simp [Signalled, new]

theorem insert_eq_some [DecidableEq T] (h : q.insert e = some q') :
    q'.lst = q.lst ++ [e] ∧ q'.Signalled := by
  unfold insert at h
  split_ifs at h
  obtain rfl := Option.some.inj h
  exact ⟨rfl, by simp [Signalled]⟩

theorem take_eq_some (hq : q.Signalled) (h : q.take = some (e, q')) :
    q.lst = e :: q'.lst ∧ q'.Signalled := by
  unfold take at h
  split at h
  · cases h
  next l hl =>
    cases h
    refine ⟨hl, ?_⟩
    have hup : q.signal = true := hq.mpr (by rw [hl]; exact List.cons_ne_nil _ _)
    cases l <;> simp [Signalled, hup]

theorem exists_take (h : q.lst ≠ []) : ∃ e q', q.take = some (e, q') := by
  unfold take
  cases hl : q.lst with
  | nil => exact absurd hl h
  | cons e l => exact ⟨e, _, rfl⟩

end GenericQueue
end Haggle
