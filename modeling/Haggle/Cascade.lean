import Haggle.Trace
import Mathlib.Algebra.BigOperators.Group.List.Basic
import Mathlib.Algebra.Order.BigOperators.Group.List
import Mathlib.Tactic.Linarith
import Mathlib.Tactic.Ring

/-!
# Cascades of messages

A message that is delivered is answered by further messages. If the answers have a smaller rank than
the message, and there is a bound for how many there are, a cascade ends in whatever order its
messages are delivered.
-/

namespace Cascade

variable {M A : Type} (answer : M → A → List M)

/-- One message of those in flight is delivered, with an input from outside. -/
def deliver (s : List M) (d : ℕ × A) : List M :=
  match s[d.1]? with
  | none => s
  | some m => s.eraseIdx d.1 ++ answer m d.2

/-- The delivery is one of a message in flight. -/
def InFlight (s : List M) (d : ℕ × A) : Prop := d.1 < s.length

def weight (width : ℕ) (rank : M → ℕ) (s : List M) : ℕ :=
  (s.map fun m => (width + 1) ^ (rank m + 1)).sum

variable {answer} {width : ℕ} {rank : M → ℕ} {s : List M}

theorem deliver_of_inFlight {d : ℕ × A} (h : InFlight s d) :
    ∃ m ∈ s, (m :: s.eraseIdx d.1).Perm s ∧
      deliver answer s d = s.eraseIdx d.1 ++ answer m d.2 := by
  refine ⟨s.get ⟨d.1, h⟩, List.get_mem _ _, List.getElem_cons_eraseIdx_perm h, ?_⟩
  unfold deliver
  rw [List.getElem?_eq_getElem h]
  rfl

theorem weight_append (s t : List M) :
    weight width rank (s ++ t) = weight width rank s + weight width rank t := by
  simp [weight]

theorem weight_perm {t : List M} (h : s.Perm t) : weight width rank s = weight width rank t :=
  (h.map _).sum_eq

/-- The answers to a message weigh less than the message. -/
theorem weight_lt_of_rank_lt {m : M} (hlen : s.length ≤ width)
    (hrank : ∀ m' ∈ s, rank m' < rank m) :
    weight width rank s < (width + 1) ^ (rank m + 1) := by
  have hsum : weight width rank s ≤ s.length * (width + 1) ^ rank m := by
    have hle := List.sum_le_card_nsmul (s.map fun m => (width + 1) ^ (rank m + 1))
      ((width + 1) ^ rank m) (fun w hw => by
        obtain ⟨m', hm', rfl⟩ := List.mem_map.mp hw
        exact Nat.pow_le_pow_right (Nat.succ_pos width) (hrank m' hm'))
    rwa [List.length_map, nsmul_eq_mul, Nat.cast_id] at hle
  calc weight width rank s ≤ s.length * (width + 1) ^ rank m := hsum
    _ ≤ width * (width + 1) ^ rank m := Nat.mul_le_mul_right _ hlen
    _ < (width + 1) * (width + 1) ^ rank m :=
        Nat.mul_lt_mul_of_pos_right (Nat.lt_succ_self width) (Nat.pow_pos (Nat.succ_pos width))
    _ = (width + 1) ^ (rank m + 1) := (pow_succ' _ _).symm

section Bound

variable {Inv : M → Prop} (hinv : ∀ m, Inv m → ∀ a, ∀ m' ∈ answer m a, Inv m' ∧ rank m' < rank m)

include hinv in
theorem forall_deliver (hs : ∀ m ∈ s, Inv m) (d : ℕ × A) : ∀ m ∈ deliver answer s d, Inv m := by
  intro m hm
  unfold deliver at hm
  cases hget : s[d.1]? with
  | none =>
    rw [hget] at hm
    exact hs m hm
  | some m₀ =>
    simp only [hget] at hm
    rcases List.mem_append.mp hm with hm | hm
    · exact hs m (List.mem_of_mem_eraseIdx hm)
    · exact (hinv m₀ (hs m₀ (List.mem_of_getElem? hget)) d.2 m hm).1

variable (hwidth : ∀ m, Inv m → ∀ a, (answer m a).length ≤ width)

include hinv hwidth in
theorem weight_deliver_lt (hs : ∀ m ∈ s, Inv m) {d : ℕ × A} (hd : InFlight s d) :
    weight width rank (deliver answer s d) < weight width rank s := by
  obtain ⟨m, hm, hperm, heq⟩ := @deliver_of_inFlight M A answer s d hd
  have hlt := @weight_lt_of_rank_lt M width rank (answer m d.2) m (hwidth m (hs m hm) d.2)
    fun m' hm' => (hinv m (hs m hm) d.2 m' hm').2
  rw [heq, weight_append, ← weight_perm hperm]
  simp only [weight, List.map_cons, List.sum_cons] at hlt ⊢
  omega

include hinv hwidth in
/-- No more messages can be delivered, in any order, than the first ones weigh. -/
theorem length_le_weight (hs : ∀ m ∈ s, Inv m) {ds : List (ℕ × A)}
    (hds : Trace.Guarded (deliver answer) InFlight s ds) : ds.length ≤ weight width rank s := by
  induction ds generalizing s with
  | nil => exact Nat.zero_le _
  | cons d ds ih =>
    have hrest := ih (forall_deliver hinv hs d) hds.2
    have hlt := weight_deliver_lt hinv hwidth hs hds.1
    rw [List.length_cons]
    omega

end Bound

end Cascade
