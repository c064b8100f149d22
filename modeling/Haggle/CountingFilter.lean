import Mathlib.Data.List.Count
import Mathlib.Data.List.Basic
import Mathlib.Data.List.Flatten

/-!
# Counting filters

A counting filter keeps a row of bins. Each key has a list of positions; adding the key increments
the bins there, removing it decrements those that are not zero, and the key is reported when none of
them is zero. Bins wrap around at `cap`.
-/

namespace CountingFilter

def addAll (cap : ℕ) (bins positions : List ℕ) : List ℕ :=
  positions.foldl (fun b j => b.modify j (fun c => (c + 1) % cap)) bins

def removeAll (bins positions : List ℕ) : List ℕ :=
  positions.foldl (fun b j => b.modify j (fun c => c - 1)) bins

def hasAll (bins positions : List ℕ) : Bool := positions.all (fun j => bins.getD j 0 ≠ 0)

theorem getD_modify (bins : List ℕ) (f : ℕ → ℕ) (i j : ℕ) (hj : j < bins.length) :
    (bins.modify i f).getD j 0 = if i = j then f (bins.getD j 0) else bins.getD j 0 := by
  rw [List.getD_eq_getElem?_getD, List.getElem?_modify, List.getElem?_eq_getElem hj,
    List.getD_eq_getElem?_getD, List.getElem?_eq_getElem hj]
  by_cases hij : i = j <;> simp [hij]

@[simp] theorem length_addAll (cap : ℕ) (bins positions : List ℕ) :
    (addAll cap bins positions).length = bins.length := by
  induction positions generalizing bins with
  | nil => rfl
  | cons i l ih =>
    rw [addAll, List.foldl_cons, ← addAll, ih, List.length_modify]

@[simp] theorem length_removeAll (bins positions : List ℕ) :
    (removeAll bins positions).length = bins.length := by
  induction positions generalizing bins with
  | nil => rfl
  | cons i l ih =>
    rw [removeAll, List.foldl_cons, ← removeAll, ih, List.length_modify]

/-- A bin that does not run over counts the positions that were added. -/
theorem getD_addAll {cap : ℕ} (bins positions : List ℕ) {j : ℕ} (hj : j < bins.length)
    (hcap : bins.getD j 0 + positions.count j < cap) :
    (addAll cap bins positions).getD j 0 = bins.getD j 0 + positions.count j := by
  induction positions generalizing bins with
  | nil => rfl
  | cons i l ih =>
    have hstep := getD_modify bins (fun c => (c + 1) % cap) i j hj
    by_cases hij : i = j
    · subst hij
      rw [List.count_cons_self] at hcap ⊢
      rw [if_pos rfl, Nat.mod_eq_of_lt (by omega)] at hstep
      rw [addAll, List.foldl_cons, ← addAll, ih _ (by simpa using hj) (by rw [hstep]; omega), hstep]
      omega
    · rw [List.count_cons_of_ne hij] at hcap ⊢
      rw [if_neg hij] at hstep
      rw [addAll, List.foldl_cons, ← addAll, ih _ (by simpa using hj) (by rw [hstep]; exact hcap),
        hstep]

theorem getD_removeAll (bins positions : List ℕ) {j : ℕ} (hj : j < bins.length) :
    (removeAll bins positions).getD j 0 = bins.getD j 0 - positions.count j := by
  induction positions generalizing bins with
  | nil => rfl
  | cons i l ih =>
    have hstep := getD_modify bins (fun c => c - 1) i j hj
    rw [removeAll, List.foldl_cons, ← removeAll, ih _ (by simpa using hj), hstep]
    by_cases hij : i = j
    · subst hij
      rw [if_pos rfl, List.count_cons_self]
      omega
    · rw [if_neg hij, List.count_cons_of_ne hij]

section Covers

variable {K : Type} (positions : K → List ℕ)

/-- Every bin counts at least the keys of the list. -/
def Covers (bins : List ℕ) (keys : List K) : Prop :=
  ∀ j < bins.length, (keys.flatMap positions).count j ≤ bins.getD j 0

variable {positions}

theorem covers_nil (bins : List ℕ) : Covers positions bins ([] : List K) :=
  fun _ _ => Nat.zero_le _

theorem covers_addAll {cap : ℕ} {bins : List ℕ} {keys : List K} (h : Covers positions bins keys)
    (k : K) (hcap : ∀ j < bins.length, bins.getD j 0 + (positions k).count j < cap) :
    Covers positions (addAll cap bins (positions k)) (k :: keys) := by
  intro j hj
  rw [length_addAll] at hj
  have hj' := h j hj
  rw [List.flatMap_cons, List.count_append, getD_addAll bins _ hj (hcap j hj)]
  omega

theorem covers_removeAll [BEq K] [LawfulBEq K] {bins : List ℕ} {keys : List K}
    (h : Covers positions bins keys) {k : K} (hk : k ∈ keys) :
    Covers positions (removeAll bins (positions k)) (keys.erase k) := by
  intro j hj
  rw [length_removeAll] at hj
  have hperm := ((List.perm_cons_erase hk).flatMap_right positions).count_eq j
  have hj' := h j hj
  rw [List.flatMap_cons, List.count_append] at hperm
  rw [getD_removeAll bins _ hj]
  omega

theorem covers_erase [BEq K] {bins : List ℕ} {keys : List K} (h : Covers positions bins keys)
    (k : K) : Covers positions bins (keys.erase k) := by
  intro j hj
  refine Nat.le_trans (List.Sublist.count_le j ?_) (h j hj)
  exact List.erase_sublist.flatMap positions

/-- A key that is counted is reported. -/
theorem hasAll_of_mem {bins : List ℕ} {keys : List K} (h : Covers positions bins keys) {k : K}
    (hk : k ∈ keys) (hpos : ∀ j ∈ positions k, j < bins.length) :
    hasAll bins (positions k) = true := by
  rw [hasAll, List.all_eq_true]
  intro j hj
  have hmem : j ∈ keys.flatMap positions := List.mem_flatMap.mpr ⟨k, hk, hj⟩
  have hcount := List.count_pos_iff.mpr hmem
  have hj' := h j (hpos j hj)
  simp only [ne_eq, decide_eq_true_eq]
  omega

end Covers

end CountingFilter
