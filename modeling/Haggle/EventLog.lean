import Mathlib.Data.List.Basic

/-!
# Events kept apart in a log

A log has its last event first. `Separated` says that between any two events of a kind there is one
of another kind. It is kept when an event is added while none of its kind is open: an event is open
from its entry until the next separator.
-/

namespace EventLog

variable {E : Type*} {a sep e : E} {log : List E}

def Separated (a sep : E) (log : List E) : Prop :=
  ∀ after between before, log = after ++ a :: (between ++ a :: before) → sep ∈ between

def Open (a sep : E) (log : List E) : Prop :=
  ∃ after before, log = after ++ a :: before ∧ sep ∉ after

theorem separated_nil : Separated a sep [] := by
  intro after between before h
  simp at h

theorem not_open_nil : ¬ Open a sep [] := by
  rintro ⟨after, before, h, -⟩
  simp at h

theorem not_open_cons_sep (hne : a ≠ sep) (log : List E) : ¬ Open a sep (sep :: log) := by
  rintro ⟨after, before, h, hsep⟩
  cases after with
  | nil => exact hne (List.cons.inj h).1.symm
  | cons e after =>
    rw [List.cons_append] at h
    exact hsep ((List.cons.inj h).1 ▸ List.mem_cons_self)

theorem open_of_cons (hne : e ≠ a) (h : Open a sep (e :: log)) : Open a sep log := by
  obtain ⟨after, before, h, hsep⟩ := h
  cases after with
  | nil => exact absurd (List.cons.inj h).1 hne
  | cons e after =>
    rw [List.cons_append] at h
    exact ⟨after, before, (List.cons.inj h).2, fun hmem => hsep (List.mem_cons_of_mem e hmem)⟩

/-- What is no event of the kind opens none. -/
theorem open_of_append {es : List E} (hne : a ∉ es) (h : Open a sep (es ++ log)) :
    Open a sep log := by
  induction es with
  | nil => exact h
  | cons e es ih =>
    rw [List.mem_cons, not_or] at hne
    exact ih hne.2 (open_of_cons (Ne.symm hne.1) h)

/-- A separator among what is added closes the event. -/
theorem not_open_append {es : List E} (hne : a ∉ es) (hsep : sep ∈ es) :
    ¬ Open a sep (es ++ log) := by
  induction es with
  | nil => exact absurd hsep List.not_mem_nil
  | cons e es ih =>
    rw [List.mem_cons, not_or] at hne
    intro h
    rcases List.mem_cons.mp hsep with rfl | hsep
    · exact not_open_cons_sep hne.1 _ h
    · exact ih hne.2 hsep (open_of_cons (Ne.symm hne.1) h)

theorem Separated.cons (h : Separated a sep log) (hopen : e = a → ¬ Open a sep log) :
    Separated a sep (e :: log) := by
  intro after between before heq
  cases after with
  | nil =>
    obtain ⟨he, hlog⟩ := List.cons.inj heq
    by_contra hsep
    exact hopen he ⟨between, before, hlog, hsep⟩
  | cons e' after => exact h after between before (List.cons.inj heq).2

theorem Separated.append {es : List E} (h : Separated a sep log) (hne : a ∉ es) :
    Separated a sep (es ++ log) := by
  induction es with
  | nil => exact h
  | cons e es ih =>
    rw [List.mem_cons, not_or] at hne
    exact (ih hne.2).cons fun he => absurd he.symm hne.1

end EventLog
