import Mathlib.Data.List.Basic

/-!
# Runs of a transition function

A run applies a list of inputs to a state, one after the other. `Guarded` says that every input of a
run meets a condition on the state it is applied to.
-/

namespace Trace

variable {S A : Type} (step : S → A → S)

def run (s : S) (as : List A) : S := as.foldl step s

def Guarded (ok : S → A → Prop) : S → List A → Prop
  | _, [] => True
  | s, a :: as => ok s a ∧ Guarded ok (step s a) as

instance decidableGuarded (ok : S → A → Prop) [∀ s a, Decidable (ok s a)] :
    ∀ s as, Decidable (Guarded step ok s as)
  | _, [] => .isTrue trivial
  | s, a :: as =>
    have := decidableGuarded ok (step s a) as
    inferInstanceAs (Decidable (_ ∧ _))

variable {step}

@[simp] theorem run_nil (s : S) : run step s [] = s := rfl

@[simp] theorem run_cons (s : S) (a : A) (as : List A) :
    run step s (a :: as) = run step (step s a) as := rfl

@[simp] theorem guarded_nil (ok : S → A → Prop) (s : S) : Guarded step ok s [] := trivial

theorem run_append (s : S) (as bs : List A) : run step s (as ++ bs) = run step (run step s as) bs :=
  List.foldl_append

theorem guarded_append {ok : S → A → Prop} {s : S} {as bs : List A} :
    Guarded step ok s (as ++ bs) ↔ Guarded step ok s as ∧ Guarded step ok (run step s as) bs := by
  induction as generalizing s with
  | nil => simp
  | cons a as ih => simp only [List.cons_append, Guarded, run_cons, ih, and_assoc]

/-- What each guarded step preserves, a guarded run preserves. -/
theorem invariant_of_guarded {ok : S → A → Prop} {Inv : S → Prop}
    (hstep : ∀ s a, Inv s → ok s a → Inv (step s a)) {s : S} {as : List A} (hs : Inv s)
    (hg : Guarded step ok s as) : Inv (run step s as) := by
  induction as generalizing s with
  | nil => exact hs
  | cons a as ih => exact ih (hstep s a hs hg.1) hg.2

/-- What each step preserves, every run preserves. -/
theorem invariant {Inv : S → Prop} (hstep : ∀ s a, Inv s → Inv (step s a)) {s : S} (hs : Inv s)
    (as : List A) : Inv (run step s as) := by
  induction as generalizing s with
  | nil => exact hs
  | cons a as ih => exact ih (hstep s a hs)

/-- A run meets every condition that follows from its own in the states that it can reach. -/
theorem Guarded.imp {ok ok' : S → A → Prop} {Inv : S → Prop}
    (himp : ∀ s a, Inv s → ok s a → ok' s a) (hstep : ∀ s a, Inv s → ok s a → Inv (step s a))
    {s : S} {as : List A} (hs : Inv s) (h : Guarded step ok s as) : Guarded step ok' s as := by
  induction as generalizing s with
  | nil => trivial
  | cons a as ih => exact ⟨himp s a hs h.1, ih (hstep s a hs h.1) h.2⟩

/-- Two conditions on the steps say the same of a run if they do so in every state that the run can
reach under them. -/
theorem guarded_congr {ok ok' : S → A → Prop} {Inv : S → Prop}
    (hiff : ∀ s a, Inv s → (ok s a ↔ ok' s a)) (hstep : ∀ s a, Inv s → ok' s a → Inv (step s a))
    {s : S} (hs : Inv s) (as : List A) : Guarded step ok s as ↔ Guarded step ok' s as := by
  constructor
  · apply Guarded.imp (fun s a hs => (hiff s a hs).mp) _ hs
    exact fun s a hs hok => hstep s a hs ((hiff s a hs).mp hok)
  · exact Guarded.imp (fun s a hs => (hiff s a hs).mpr) hstep hs

/-- Where guarded steps keep an invariant with a property, and the others lose the property, a run
has the property throughout exactly when it is guarded. -/
theorem forall_prefix_iff_of_invariant {ok : S → A → Prop} {P Inv : S → Prop}
    (hP : ∀ s, Inv s → P s) (hok : ∀ s a, Inv s → ok s a → Inv (step s a))
    (hbad : ∀ s a, Inv s → ¬ok s a → ¬P (step s a)) {s : S} (hs : Inv s) (as : List A) :
    (∀ pre, pre <+: as → P (run step s pre)) ↔ Guarded step ok s as := by
  induction as generalizing s with
  | nil =>
    simp only [List.prefix_nil, forall_eq, run_nil, guarded_nil, iff_true]
    exact hP s hs
  | cons a as ih =>
    constructor
    · intro h
      have ha : ok s a := by
        by_contra hnot
        exact hbad s a hs hnot (h [a] ⟨as, rfl⟩)
      refine ⟨ha, (ih (hok s a hs ha)).mp fun pre hpre => ?_⟩
      exact h (a :: pre) ((List.prefix_cons_inj a).mpr hpre)
    · rintro ⟨ha, hg⟩ pre hpre
      cases pre with
      | nil => exact hP s hs
      | cons b pre =>
        obtain ⟨rfl, htail⟩ := List.cons_prefix_cons.mp hpre
        exact (ih (hok s b hs ha)).mpr hg pre htail

/-- Where a step keeps a property exactly when it is guarded, a run keeps it throughout exactly when
it is guarded. -/
theorem forall_prefix_iff_guarded {ok : S → A → Prop} {P : S → Prop}
    (hstep : ∀ s a, P s → (P (step s a) ↔ ok s a)) {s : S} (hs : P s) (as : List A) :
    (∀ pre, pre <+: as → P (run step s pre)) ↔ Guarded step ok s as :=
  forall_prefix_iff_of_invariant (fun _ h => h) (fun s a h ha => (hstep s a h).mpr ha)
    (fun s a h ha => (hstep s a h).not.mpr ha) hs as

end Trace
