import Mathlib.Data.List.Basic
import Mathlib.Tactic.SplitIfs

/-!
# Requests that are tried again

Requests are on a list until they are done. Attempts are made for them, and an attempt is open until
its outcome is known; which request it belongs to is found out by comparing it with all of them.
-/

namespace OpenRequests

variable {α β : Type}

/-- Each attempt fits one request, one attempt for each request is open, and the requests know how
many there have been. -/
structure Matched (fits : α → β → Bool) (tries : α → ℕ) (requests : List α)
    (opened made : List β) : Prop where
  owner : ∀ o ∈ made, requests.countP (fits · o) = 1
  made_of_open : ∀ o ∈ opened, o ∈ made
  one_open : ∀ e ∈ requests, opened.countP (fits e) = 1
  tried : ∀ e ∈ requests, made.countP (fits e) = tries e

/-- The attempts that fit a request on the list. -/
def current (fits : α → β → Bool) (requests : List α) (made : List β) : List β :=
  made.filter fun o => requests.any (fits · o)

variable {fits : α → β → Bool} {tries : α → ℕ} {requests l₁ l₂ : List α} {opened made rest : List β}
  {e e' : α} {o o' : β}

theorem matched_nil : Matched fits tries [] [] [] := ⟨nofun, nofun, nofun, nofun⟩

theorem countP_append_singleton_of_neg {γ : Type} {p : γ → Bool} {x : γ} (hx : p x = false)
    (l : List γ) : (l ++ [x]).countP p = l.countP p := by
  rw [List.countP_append, List.countP_cons, List.countP_nil, hx]
  rfl

theorem countP_append_singleton_of_pos {γ : Type} {p : γ → Bool} {x : γ} (hx : p x = true)
    (l : List γ) : (l ++ [x]).countP p = l.countP p + 1 := by
  rw [List.countP_append, List.countP_cons, List.countP_nil, hx]
  rfl

theorem countP_eq_zero_of_forall {γ : Type} {p : γ → Bool} {l : List γ}
    (h : ∀ x ∈ l, p x = false) : l.countP p = 0 :=
  List.countP_eq_zero.mpr fun x hx => by rw [h x hx]; exact Bool.false_ne_true

/-- Only how attempts and requests fit together matters. -/
theorem Matched.congr {fits' : α → β → Bool} (h : Matched fits tries requests opened made)
    (heq : ∀ e ∈ requests, ∀ o ∈ made, fits' e o = fits e o) :
    Matched fits' tries requests opened made where
  owner o ho := by
    rw [← h.owner o ho]
    exact List.countP_congr fun e he => by rw [heq e he o ho]
  made_of_open := h.made_of_open
  one_open e he := by
    rw [← h.one_open e he]
    exact List.countP_congr fun o ho => by rw [heq e he o (h.made_of_open o ho)]
  tried e he := by
    rw [← h.tried e he]
    exact List.countP_congr fun o ho => by rw [heq e he o ho]

/-- A new request with a first attempt. -/
theorem Matched.request (h : Matched fits tries requests opened made) (hself : fits e o = true)
    (hother : ∀ e' ∈ requests, fits e' o = false) (hnew : ∀ o' ∈ made, fits e o' = false)
    (htries : tries e = 1) :
    Matched fits tries (requests ++ [e]) (opened ++ [o]) (made ++ [o]) := by
  refine ⟨fun o' ho' => ?_, fun o' ho' => ?_, fun e' he' => ?_, fun e' he' => ?_⟩
  · rcases List.mem_append.mp ho' with ho' | ho'
    · rw [countP_append_singleton_of_neg (p := (fits · o')) (hnew o' ho')]
      exact h.owner o' ho'
    · rw [List.mem_singleton.mp ho', countP_append_singleton_of_pos (p := (fits · o)) hself,
        countP_eq_zero_of_forall hother]
  · rcases List.mem_append.mp ho' with ho' | ho'
    · exact List.mem_append_left _ (h.made_of_open o' ho')
    · exact List.mem_append_right _ ho'
  · rcases List.mem_append.mp he' with he' | he'
    · rw [countP_append_singleton_of_neg (hother e' he')]
      exact h.one_open e' he'
    · rw [List.mem_singleton.mp he', countP_append_singleton_of_pos hself,
        countP_eq_zero_of_forall fun o' ho' => hnew o' (h.made_of_open o' ho')]
  · rcases List.mem_append.mp he' with he' | he'
    · rw [countP_append_singleton_of_neg (hother e' he')]
      exact h.tried e' he'
    · rw [List.mem_singleton.mp he', countP_append_singleton_of_pos hself,
        countP_eq_zero_of_forall hnew, htries]

/-- As long as no request goes, no attempt does. -/
theorem Matched.current_eq (h : Matched fits tries requests opened made) :
    current fits requests made = made := by
  apply List.filter_eq_self.mpr
  intro o ho
  obtain ⟨e, he, hfits⟩ := List.countP_pos_iff.mp (by rw [h.owner o ho]; exact Nat.one_pos)
  exact List.any_eq_true.mpr ⟨e, he, hfits⟩

section Outcome

variable (h : Matched fits tries (l₁ ++ e :: l₂) opened made) (hopen : opened.Perm (o :: rest))
  (hfits : fits e o = true)

include h

theorem Matched.others_not_fit (ho : o ∈ made) (hfits : fits e o = true) :
    ∀ e' ∈ l₁ ++ l₂, fits e' o = false := by
  have howner := h.owner o ho
  rw [List.countP_append, List.countP_cons, if_pos hfits] at howner
  have hnone : (l₁ ++ l₂).countP (fits · o) = 0 := by
    rw [List.countP_append]
    omega
  exact fun e' he' => Bool.eq_false_iff.mpr (List.countP_eq_zero.mp hnone e' he')

theorem Matched.mem_of_mem_rest (hopen : opened.Perm (o :: rest)) : ∀ o' ∈ rest, o' ∈ made :=
  fun o' ho' => h.made_of_open o' (hopen.mem_iff.mpr (List.mem_cons_of_mem _ ho'))

include hopen hfits

theorem Matched.open_others : ∀ e' ∈ l₁ ++ l₂, rest.countP (fits e') = 1 := by
  intro e' he'
  have ho : o ∈ made := h.made_of_open o (hopen.mem_iff.mpr List.mem_cons_self)
  have hone := h.one_open e' (List.mem_append.mpr ((List.mem_append.mp he').imp_right
    (List.mem_cons_of_mem _)))
  rw [hopen.countP_eq, List.countP_cons, h.others_not_fit ho hfits e' he'] at hone
  exact hone

theorem Matched.open_self : rest.countP (fits e) = 0 := by
  have hone := h.one_open e (List.mem_append_right _ List.mem_cons_self)
  rw [hopen.countP_eq, List.countP_cons, if_pos hfits] at hone
  omega

/-- A request is done: it goes, and so do the attempts that were made for it. -/
theorem Matched.done : Matched fits tries (l₁ ++ l₂) rest (current fits (l₁ ++ l₂) made) := by
  have hmem : ∀ e' ∈ l₁ ++ l₂, e' ∈ l₁ ++ e :: l₂ := fun e' he' =>
    List.mem_append.mpr ((List.mem_append.mp he').imp_right (List.mem_cons_of_mem _))
  refine ⟨fun o' ho' => ?_, fun o' ho' => ?_, h.open_others hopen hfits, fun e' he' => ?_⟩
  · obtain ⟨hmade, hany⟩ := List.mem_filter.mp ho'
    obtain ⟨e', he', hfits'⟩ := List.any_eq_true.mp hany
    have hno : ¬ fits e o' = true := by
      intro hself
      rw [h.others_not_fit hmade hself e' he'] at hfits'
      cases hfits'
    have howner := h.owner o' hmade
    rwa [List.countP_append, List.countP_cons, if_neg hno, Nat.add_zero,
      ← List.countP_append] at howner
  · have hmade := h.mem_of_mem_rest hopen o' ho'
    have hnot := List.countP_eq_zero.mp (h.open_self hopen hfits) o' ho'
    have howner := h.owner o' hmade
    rw [List.countP_append, List.countP_cons, if_neg hnot, Nat.add_zero,
      ← List.countP_append] at howner
    obtain ⟨e', he', hfits'⟩ := List.countP_pos_iff.mp (by rw [howner]; exact Nat.one_pos)
    exact List.mem_filter.mpr ⟨hmade, List.any_eq_true.mpr ⟨e', he', hfits'⟩⟩
  · rw [← h.tried e' (hmem e' he'), current, List.countP_filter]
    apply List.countP_congr
    intro o' ho'
    simp only [Bool.and_eq_true, and_iff_left_iff_imp]
    exact fun hfits' => List.any_eq_true.mpr ⟨e', he', hfits'⟩

/-- A request is tried once more, by an attempt that the same requests fit. -/
theorem Matched.again (hsame : ∀ o, fits e' o = fits e o)
    (hlike : ∀ x ∈ l₁ ++ e :: l₂, fits x o' = fits x o)
    (htries : tries e' = tries e + 1) :
    Matched fits tries (l₁ ++ e' :: l₂) (rest ++ [o']) (made ++ [o']) := by
  have ho : o ∈ made := h.made_of_open o (hopen.mem_iff.mpr List.mem_cons_self)
  have hothers := h.others_not_fit ho hfits
  have hcount : ∀ x, (l₁ ++ e' :: l₂).countP (fits · x) = (l₁ ++ e :: l₂).countP (fits · x) := by
    intro x
    rw [List.countP_append, List.countP_append, List.countP_cons, List.countP_cons, hsame]
  have hcases : ∀ x ∈ l₁ ++ e' :: l₂, x = e' ∨ x ∈ l₁ ++ l₂ := by
    intro x hx
    rcases List.mem_append.mp hx with hx | hx
    · exact .inr (List.mem_append_left _ hx)
    · exact (List.mem_cons.mp hx).imp_right (List.mem_append_right _)
  have hself : fits e' o' = true := by
    rw [hsame, hlike e (List.mem_append_right _ List.mem_cons_self), hfits]
  have hmem : ∀ x ∈ l₁ ++ l₂, x ∈ l₁ ++ e :: l₂ := fun x hx =>
    List.mem_append.mpr ((List.mem_append.mp hx).imp_right (List.mem_cons_of_mem _))
  have hnot : ∀ x ∈ l₁ ++ l₂, fits x o' = false := fun x hx => by
    rw [hlike x (hmem x hx), hothers x hx]
  refine ⟨fun x hx => ?_, fun x hx => ?_, fun x hx => ?_, fun x hx => ?_⟩
  · rw [hcount]
    rcases List.mem_append.mp hx with hx | hx
    · exact h.owner x hx
    · rw [List.mem_singleton.mp hx]
      rw [← h.owner o ho]
      exact List.countP_congr fun x hx => by rw [hlike x hx]
  · exact List.mem_append.mpr ((List.mem_append.mp hx).imp_left (h.mem_of_mem_rest hopen x))
  · rcases hcases x hx with rfl | hx
    · rw [countP_append_singleton_of_pos hself, funext hsame, h.open_self hopen hfits]
    · rw [countP_append_singleton_of_neg (hnot x hx)]
      exact h.open_others hopen hfits x hx
  · rcases hcases x hx with rfl | hx
    · rw [countP_append_singleton_of_pos hself, funext hsame, htries,
        h.tried e (List.mem_append_right _ List.mem_cons_self)]
    · rw [countP_append_singleton_of_neg (hnot x hx)]
      exact h.tried x (hmem x hx)

end Outcome

end OpenRequests
