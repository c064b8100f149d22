import Haggle.Bytes

/-!
# Comparing memory

`memcmp` compares two blocks of one length, and `strcmp` and `strncmp` two strings up to their
terminators, byte by byte. A block is what lies from the pointer to the end of the object it points
into, and a comparison that reads beyond is undefined.
-/

namespace Haggle

/-- The order of a dictionary, on bytes. -/
def lexCompare : Bytes → Bytes → Ordering
  | [], [] => .eq
  | [], _ :: _ => .lt
  | _ :: _, [] => .gt
  | b :: s, c :: t => if b < c then .lt else if c < b then .gt else lexCompare s t

/-- All `n` bytes of both blocks have to be there, also where an earlier one decides. -/
def memcmp (n : ℕ) (s t : Bytes) : Option Ordering :=
  if n ≤ s.length ∧ n ≤ t.length then some (lexCompare (s.take n) (t.take n)) else none

def strncmp : ℕ → Bytes → Bytes → Option Ordering
  | 0, _, _ => some .eq
  | _ + 1, [], _ => none
  | _ + 1, _ :: _, [] => none
  | n + 1, b :: s, c :: t =>
    if b < c then some .lt
    else if c < b then some .gt
    else if b = 0 then some .eq
    else strncmp n s t

def strcmp : Bytes → Bytes → Option Ordering
  | [], _ => none
  | _ :: _, [] => none
  | b :: s, c :: t =>
    if b < c then some .lt
    else if c < b then some .gt
    else if b = 0 then some .eq
    else strcmp s t

section Lex

variable {b c : UInt8} {s t u v : Bytes}

theorem byte_eq (h : ¬ b < c) (h' : ¬ c < b) : b = c :=
  Std.Trichotomous.trichotomous (r := (· < ·)) b c h h'

theorem lexCompare_cons_self (b : UInt8) (s t : Bytes) :
    lexCompare (b :: s) (b :: t) = lexCompare s t := by
  have hirrefl : ¬ b < b := UInt8.lt_irrefl b
  rw [lexCompare, if_neg hirrefl, if_neg hirrefl]

@[simp] theorem lexCompare_self (s : Bytes) : lexCompare s s = .eq := by
  induction s with
  | nil => rfl
  | cons b s ih => rw [lexCompare_cons_self, ih]

@[simp] theorem lexCompare_eq_lt : lexCompare s t = .lt ↔ s < t := by
  induction s generalizing t with
  | nil => cases t <;> simp [lexCompare]
  | cons b s ih =>
    cases t with
    | nil => simp [lexCompare]
    | cons c t =>
      rw [List.cons_lt_cons_iff, lexCompare]
      split_ifs with hlt hgt
      · simp [hlt]
      · have hne : b ≠ c := by
          rintro rfl
          exact hlt hgt
        simp [hlt, hne]
      · rw [ih]
        simp [byte_eq hlt hgt]

theorem lexCompare_swap (s t : Bytes) : (lexCompare s t).swap = lexCompare t s := by
  induction s generalizing t with
  | nil => cases t <;> rfl
  | cons b s ih =>
    cases t with
    | nil => rfl
    | cons c t =>
      rw [lexCompare, lexCompare]
      split_ifs with hlt hgt
      · exact absurd (UInt8.lt_trans hlt hgt) (UInt8.lt_irrefl b)
      · rfl
      · rfl
      · exact ih t

@[simp] theorem lexCompare_eq_gt : lexCompare s t = .gt ↔ t < s := by
  rw [← lexCompare_eq_lt, ← lexCompare_swap s t]
  cases lexCompare s t <;> simp

@[simp] theorem lexCompare_eq_eq : lexCompare s t = .eq ↔ s = t := by
  constructor
  · intro h
    have hlt : ¬ s < t := fun hlt => by simp [lexCompare_eq_lt.mpr hlt] at h
    have hgt : ¬ t < s := fun hgt => by simp [lexCompare_eq_gt.mpr hgt] at h
    exact Std.Trichotomous.trichotomous (r := (· < ·)) s t hlt hgt
  · rintro rfl
    exact lexCompare_self s

theorem strncmp_text (hs : 0 ∉ s) (ht : 0 ∉ t) (n : ℕ) :
    strncmp n (s ++ 0 :: u) (t ++ 0 :: v) = some (lexCompare (s.take n) (t.take n)) := by
  induction n generalizing s t with
  | zero => simp [strncmp]
  | succ n ih =>
    cases s with
    | nil =>
      cases t with
      | nil => rfl
      | cons c t =>
        have hpos : 0 < c := UInt8.pos_iff_ne_zero.mpr fun h => ht (h ▸ List.mem_cons_self)
        simp [strncmp, lexCompare, hpos]
    | cons b s =>
      have hb : b ≠ 0 := fun h => hs (h ▸ List.mem_cons_self)
      have hpos : 0 < b := UInt8.pos_iff_ne_zero.mpr hb
      cases t with
      | nil =>
        simp [strncmp, lexCompare, hpos]
      | cons c t =>
        simp only [List.cons_append, strncmp, List.take_succ_cons, lexCompare, if_neg hb]
        rw [ih (fun h => hs (List.mem_cons_of_mem _ h)) fun h => ht (List.mem_cons_of_mem _ h)]
        split_ifs <;> rfl

theorem strcmp_text (hs : 0 ∉ s) (ht : 0 ∉ t) :
    strcmp (s ++ 0 :: u) (t ++ 0 :: v) = some (lexCompare s t) := by
  induction s generalizing t with
  | nil =>
    cases t with
    | nil => rfl
    | cons c t =>
      have hpos : 0 < c := UInt8.pos_iff_ne_zero.mpr fun h => ht (h ▸ List.mem_cons_self)
      simp [strcmp, lexCompare, hpos]
  | cons b s ih =>
    have hb : b ≠ 0 := fun h => hs (h ▸ List.mem_cons_self)
    have hpos : 0 < b := UInt8.pos_iff_ne_zero.mpr hb
    cases t with
    | nil => simp [strcmp, lexCompare, hpos]
    | cons c t =>
      simp only [List.cons_append, strcmp, lexCompare, if_neg hb]
      rw [ih (fun h => hs (List.mem_cons_of_mem _ h)) fun h => ht (List.mem_cons_of_mem _ h)]
      split_ifs <;> rfl

end Lex

end Haggle
