import Mathlib.Data.List.Basic

/-!
# Tokens of a list

The tokens of a list are the pieces between its separators, without the empty ones. A list is either
nothing but separators, or separators, a first token and the rest.
-/

namespace Tokens

variable {α : Type*} [DecidableEq α]

def tokens (d : α) (s : List α) : List (List α) := (s.splitOn d).filter (· ≠ [])

variable {d : α} {s t : List α}

@[simp] theorem tokens_nil : tokens d [] = [] := rfl

theorem tokens_cons_self (d : α) (s : List α) : tokens d (d :: s) = tokens d s := by
  unfold tokens
  rw [List.splitOn_cons_eq_if_modifyHead, if_pos (beq_self_eq_true d)]
  rfl

theorem tokens_of_notMem (ht : t ≠ []) (hd : d ∉ t) : tokens d t = [t] := by
  unfold tokens
  rw [List.splitOn_eq_singleton hd]
  simp [ht]

theorem tokens_append_cons (ht : t ≠ []) (hd : d ∉ t) (s : List α) :
    tokens d (t ++ d :: s) = t :: tokens d s := by
  unfold tokens
  rw [List.splitOn_append_cons_self_of_not_mem hd]
  simp [ht]

/-- Items with one separator between any two are the tokens of the whole. -/
theorem tokens_intercalate {items : List (List α)} (hitems : ∀ t ∈ items, t ≠ [] ∧ d ∉ t) :
    tokens d ([d].intercalate items) = items := by
  by_cases hne : items = []
  · rw [hne]
    rfl
  · unfold tokens
    rw [List.splitOn_intercalate d (fun t ht => (hitems t ht).2) hne, List.filter_eq_self]
    intro t ht
    exact decide_eq_true (hitems t ht).1

/-- How a list starts: separators first, then the token up to the next separator or to the end. -/
theorem tokens_cases (d : α) (s : List α) :
    (tokens d s = [] ∧ ∀ c ∈ s, c = d) ∨
      ∃ pre t, (∀ c ∈ pre, c = d) ∧ t ≠ [] ∧ d ∉ t ∧
        (s = pre ++ t ∧ tokens d s = [t] ∨
          ∃ s', s = pre ++ (t ++ d :: s') ∧ tokens d s = t :: tokens d s') := by
  induction s with
  | nil => exact .inl ⟨rfl, nofun⟩
  | cons c s ih =>
    by_cases hc : c = d
    · subst hc
      rw [tokens_cons_self]
      obtain ⟨hnil, hall⟩ | ⟨pre, t, hpre, ht, hd, hs⟩ := ih
      · refine .inl ⟨hnil, ?_⟩
        rintro b (_ | ⟨_, hb⟩)
        · rfl
        · exact hall b hb
      · refine .inr ⟨c :: pre, t, ?_, ht, hd, ?_⟩
        · rintro b (_ | ⟨_, hb⟩)
          · rfl
          · exact hpre b hb
        · obtain ⟨rfl, htok⟩ | ⟨s', rfl, htok⟩ := hs
          · exact .inl ⟨rfl, htok⟩
          · exact .inr ⟨s', rfl, htok⟩
    · -- the first element begins a token, which ends at the first separator
      by_cases hd : d ∈ c :: s
      · obtain ⟨t, s', hs, hnot⟩ := List.eq_append_cons_of_mem hd
        have ht : t ≠ [] := by
          rintro rfl
          exact hc (List.cons.inj hs).1
        refine .inr ⟨[], t, nofun, ht, hnot, .inr ⟨s', hs, ?_⟩⟩
        rw [hs, tokens_append_cons ht hnot]
      · exact .inr ⟨[], c :: s, nofun, List.cons_ne_nil c s, hd,
          .inl ⟨rfl, tokens_of_notMem (List.cons_ne_nil c s) hd⟩⟩

theorem length_tokens_le (d : α) (s : List α) : (tokens d s).length ≤ s.length := by
  induction hn : s.length using Nat.strongRecOn generalizing s with
  | ind n ih =>
    obtain ⟨hnil, -⟩ | ⟨pre, t, -, ht, -, ⟨rfl, htok⟩ | ⟨s', rfl, htok⟩⟩ := tokens_cases d s
    · rw [hnil]
      exact Nat.zero_le n
    · have hpos := List.length_pos_iff.mpr ht
      rw [List.length_append] at hn
      rw [htok, List.length_singleton]
      omega
    · rw [List.length_append, List.length_append, List.length_cons] at hn
      have hrest := ih s'.length (by omega) s' rfl
      rw [htok, List.length_cons]
      omega

end Tokens
