import Haggle.MemoryCompare
import Haggle.Node
import Mathlib.Order.Defs.Unbundled

/-!
# The order of interfaces

Interfaces are compared by their type, then by the length of their identifiers and then by the
bytes. The order has a case for the shorter identifier but none for the longer one, of which as many
bytes are compared as it has.
-/

namespace Haggle

/-- The place of a type in `Interface::Type_t`. -/
def InterfaceType.number : InterfaceType → ℕ
  | undefined => 0
  | applicationPort => 1
  | applicationLocal => 2
  | ethernet => 3
  | wifi => 4
  | bluetooth => 5
  | media => 6

namespace Interface

/-- `operator==`; none where it reads beyond an identifier. -/
def eq (i₁ i₂ : Interface) : Option Bool :=
  if i₁.type ≠ i₂.type ∨ i₁.identifier.length ≠ i₂.identifier.length then some false
  else (memcmp i₁.identifier.length i₁.identifier i₂.identifier).map (· == .eq)

/-- `operator<`. -/
def lt (i₁ i₂ : Interface) : Option Bool :=
  if i₁.type.number < i₂.type.number then some true
  else if i₁.type.number > i₂.type.number then some false
  else if i₁.identifier.length < i₂.identifier.length then some true
  else (memcmp i₁.identifier.length i₁.identifier i₂.identifier).map (· == .lt)

/-- What is expected of the order on a set of interfaces. -/
structure IsOrder (S : Set Interface) : Prop where
  inBounds : ∀ a ∈ S, ∀ b ∈ S, (eq a b).isSome ∧ (lt a b).isSome
  irrefl : ∀ a ∈ S, lt a a ≠ some true
  asymm : ∀ a ∈ S, ∀ b ∈ S, lt a b = some true → lt b a ≠ some true
  trans : ∀ a ∈ S, ∀ b ∈ S, ∀ c ∈ S, lt a b = some true → lt b c = some true → lt a c = some true
  incomparable : ∀ a ∈ S, ∀ b ∈ S,
    (lt a b ≠ some true ∧ lt b a ≠ some true) ↔ eq a b = some true

section Order

variable {a b c : Interface} {S : Set Interface}

theorem number_injective : Function.Injective InterfaceType.number := by
  intro s t h
  cases s <;> cases t <;> first | rfl | cases h

theorem memcmp_self_length (h : a.identifier.length = b.identifier.length) :
    memcmp a.identifier.length a.identifier b.identifier =
      some (lexCompare a.identifier b.identifier) := by
  rw [memcmp, if_pos ⟨le_rfl, h.le⟩, List.take_length, h, List.take_length]

theorem eq_eq_same (a b : Interface) : eq a b = some (a.same b) := by
  rw [eq]
  split_ifs with h
  · have hsame : ¬ a.same b = true := by
      rw [same_iff]
      rintro ⟨htype, hid⟩
      exact h.elim (fun h => h htype) fun h => h (congrArg List.length hid)
    simp [hsame]
  · rw [not_or, not_not, not_not] at h
    rw [memcmp_self_length h.2, Option.map_some, Option.some.injEq, Bool.eq_iff_iff, same_iff]
    simp [h.1]

/-- Where no two identifiers of a type differ in length, an interface is less than another one if
its type or, for the same type, its identifier is. -/
theorem lt_iff (hlen : a.type = b.type → a.identifier.length = b.identifier.length) :
    (lt a b).isSome ∧ (lt a b = some true ↔ a.type.number < b.type.number ∨
      a.type.number = b.type.number ∧ a.identifier < b.identifier) := by
  rw [lt]
  by_cases hlow : a.type.number < b.type.number
  · simp [hlow]
  by_cases hhigh : a.type.number > b.type.number
  · have hne : a.type.number ≠ b.type.number := hhigh.ne'
    simp [hlow, hhigh, hne]
  · have heq : a.type.number = b.type.number := by omega
    have hlen' := hlen (number_injective heq)
    have hshort : ¬ a.identifier.length < b.identifier.length := by omega
    rw [if_neg hlow, if_neg hhigh, if_neg hshort, memcmp_self_length hlen']
    simp [heq]

theorem lt_eq_none (htype : a.type = b.type)
    (hlen : b.identifier.length < a.identifier.length) : lt a b = none := by
  have hirrefl : ¬ a.type.number < a.type.number := lt_irrefl _
  have hover : ¬ (a.identifier.length ≤ a.identifier.length ∧
      a.identifier.length ≤ b.identifier.length) := by omega
  rw [lt, ← htype, if_neg hirrefl, if_neg hirrefl, if_neg (by omega), memcmp, if_neg hover]
  rfl

/-- On a set of interfaces the order is a strict weak one without a reading beyond an identifier,
and incomparable means equal, exactly if identifiers of the same type have the same length. -/
theorem isOrder_iff (S : Set Interface) :
    IsOrder S ↔ ∀ a ∈ S, ∀ b ∈ S, a.type = b.type →
      a.identifier.length = b.identifier.length := by
  constructor
  · intro h a ha b hb htype
    by_contra hne
    rcases Nat.lt_or_gt_of_ne hne with hshort | hlong
    · have hread := (h.inBounds b hb a ha).2
      rw [lt_eq_none htype.symm hshort] at hread
      exact absurd hread (by decide)
    · have hread := (h.inBounds a ha b hb).2
      rw [lt_eq_none htype hlong] at hread
      exact absurd hread (by decide)
  · intro h
    refine ⟨fun a ha b hb => ⟨by rw [eq_eq_same]; rfl, (lt_iff (h a ha b hb)).1⟩, ?_, ?_, ?_, ?_⟩
    · intro a ha hlt
      rcases (lt_iff (h a ha a ha)).2.mp hlt with hnumber | ⟨-, hid⟩
      · exact lt_irrefl _ hnumber
      · exact List.lt_irrefl _ hid
    · intro a ha b hb hab hba
      rw [(lt_iff (h a ha b hb)).2] at hab
      rw [(lt_iff (h b hb a ha)).2] at hba
      rcases hab with hab | ⟨heq, hab⟩
      · omega
      · rcases hba with hba | ⟨-, hba⟩
        · omega
        · exact List.lt_irrefl _ (List.lt_trans hab hba)
    · intro a ha b hb c hc hab hbc
      rw [(lt_iff (h a ha b hb)).2] at hab
      rw [(lt_iff (h b hb c hc)).2] at hbc
      rw [(lt_iff (h a ha c hc)).2]
      rcases hab with hab | ⟨heq, hab⟩
      · left
        omega
      · rcases hbc with hbc | ⟨heq', hbc⟩
        · left
          omega
        · exact .inr ⟨heq.trans heq', List.lt_trans hab hbc⟩
    · intro a ha b hb
      rw [Ne, Ne, (lt_iff (h a ha b hb)).2, (lt_iff (h b hb a ha)).2, eq_eq_same,
        Option.some.injEq, same_iff]
      constructor
      · rintro ⟨hab, hba⟩
        rw [not_or, not_and] at hab hba
        have hnumber : a.type.number = b.type.number := by omega
        refine ⟨number_injective hnumber, ?_⟩
        exact Std.Trichotomous.trichotomous (r := (· < ·)) a.identifier b.identifier
          (hab.2 hnumber) (hba.2 hnumber.symm)
      · rintro ⟨htype, hid⟩
        rw [htype, hid]
        simp [List.lt_irrefl]

/-- Two paths of applications on the device, of which one is longer. -/
theorem not_isOrder : ¬ IsOrder Set.univ := by
  intro h
  have hread := (h.inBounds ⟨.applicationLocal, lit "/b", [], true⟩ trivial
    ⟨.applicationLocal, lit "/", [], true⟩ trivial).2
  exact absurd hread (by decide)

end Order

end Interface
end Haggle
