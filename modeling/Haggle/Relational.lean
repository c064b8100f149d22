import Mathlib.Algebra.GroupWithZero.Nat
import Mathlib.Data.List.Dedup
import Mathlib.Data.List.Perm.Basic
import Mathlib.Data.List.Sort

/-!
# Joins and groups

Relations are lists of rows. An inner join pairs the rows of two relations that belong together, in
the order of a nested loop, and a left join keeps the rows that have no partner; `GROUP BY` cuts a
relation into the rows of each key. What an aggregate sees of a group is settled up to the order of
its rows. `ORDER BY` sorts by columns that may have no value.
-/

namespace Relational

variable {α β κ : Type}

def innerJoin (on : α → β → Bool) (l : List α) (r : List β) : List (α × β) :=
  l.flatMap fun a => (r.filter (on a)).map fun b => (a, b)

theorem innerJoin_cons (on : α → β → Bool) (a : α) (l : List α) (r : List β) :
    innerJoin on (a :: l) r = ((r.filter (on a)).map fun b => (a, b)) ++ innerJoin on l r := rfl

theorem mem_innerJoin {on : α → β → Bool} {l : List α} {r : List β} {a : α} {b : β} :
    (a, b) ∈ innerJoin on l r ↔ a ∈ l ∧ b ∈ r ∧ on a b = true := by
  simp only [innerJoin, List.mem_flatMap, List.mem_map, List.mem_filter, Prod.mk.injEq]
  constructor
  · rintro ⟨a', ha, b', ⟨hb, hon⟩, rfl, rfl⟩
    exact ⟨ha, hb, hon⟩
  · rintro ⟨ha, hb, hon⟩
    exact ⟨a, ha, b, ⟨hb, hon⟩, rfl, rfl⟩

theorem innerJoin_filter_left (on : α → β → Bool) (p : α → Bool) (l : List α) (r : List β) :
    innerJoin on (l.filter p) r = (innerJoin on l r).filter fun x => p x.1 := by
  induction l with
  | nil => rfl
  | cons a l ih =>
    rw [innerJoin_cons, List.filter_append, ← ih, List.filter_map]
    by_cases ha : p a = true
    · have hall : (r.filter (on a)).filter ((fun x : α × β => p x.1) ∘ fun b => (a, b)) =
          r.filter (on a) := List.filter_eq_self.mpr fun _ _ => ha
      rw [List.filter_cons_of_pos ha, innerJoin_cons, hall]
    · have hnone : (r.filter (on a)).filter ((fun x : α × β => p x.1) ∘ fun b => (a, b)) = [] :=
        List.filter_eq_nil_iff.mpr fun _ _ => ha
      rw [List.filter_cons_of_neg ha, hnone]
      rfl

/-- A row more on the right adds its partners. -/
theorem innerJoin_cons_right (on : α → β → Bool) (l : List α) (b : β) (r : List β) :
    (innerJoin on l (b :: r)).Perm
      (((l.filter fun a => on a b).map fun a => (a, b)) ++ innerJoin on l r) := by
  induction l with
  | nil => exact List.Perm.refl _
  | cons a l ih =>
    rw [innerJoin_cons, innerJoin_cons]
    by_cases hab : on a b = true
    · have hl : (a :: l).filter (fun a => on a b) = a :: l.filter fun a => on a b :=
        List.filter_cons_of_pos hab
      rw [List.filter_cons_of_pos hab, hl, List.map_cons, List.map_cons, List.cons_append,
        List.cons_append]
      refine List.Perm.cons _ ((List.Perm.append_left _ ih).trans ?_)
      rw [← List.append_assoc, ← List.append_assoc]
      exact List.perm_append_comm.append_right _
    · have hl : (a :: l).filter (fun a => on a b) = l.filter fun a => on a b :=
        List.filter_cons_of_neg hab
      rw [List.filter_cons_of_neg hab, hl]
      refine (List.Perm.append_left _ ih).trans ?_
      rw [← List.append_assoc, ← List.append_assoc]
      exact List.perm_append_comm.append_right _

/-- The two nested loops of a join give the same rows. -/
theorem innerJoin_swap (on : α → β → Bool) (l : List α) (r : List β) :
    (innerJoin on l r).Perm ((innerJoin (fun b a => on a b) r l).map Prod.swap) := by
  induction r with
  | nil =>
    have hnil : innerJoin on l [] = [] := List.flatMap_eq_nil_iff.mpr fun _ _ => rfl
    rw [hnil]
    exact List.Perm.refl _
  | cons b r ih =>
    rw [innerJoin_cons, List.map_append, List.map_map]
    exact (innerJoin_cons_right on l b r).trans (List.Perm.append_left _ ih)

def leftJoin (on : α → β → Bool) (l : List α) (r : List β) : List (α × Option β) :=
  l.flatMap fun a =>
    match r.filter (on a) with
    | [] => [(a, none)]
    | bs => bs.map fun b => (a, some b)

/-- Rows that belong together are paired in a left join too. -/
theorem mem_leftJoin {on : α → β → Bool} {l : List α} {r : List β} {a : α} {b : β} (ha : a ∈ l)
    (hb : b ∈ r) (hon : on a b = true) : (a, some b) ∈ leftJoin on l r := by
  have hmem : b ∈ r.filter (on a) := List.mem_filter.mpr ⟨hb, hon⟩
  refine List.mem_flatMap.mpr ⟨a, ha, ?_⟩
  split
  · next hnil =>
    rw [hnil] at hmem
    exact absurd hmem List.not_mem_nil
  · exact List.mem_map_of_mem hmem

/-- A row of a left join without a partner. -/
theorem filter_of_mem_leftJoin_none {on : α → β → Bool} {l : List α} {r : List β} {a : α}
    (h : (a, none) ∈ leftJoin on l r) : a ∈ l ∧ r.filter (on a) = [] := by
  obtain ⟨a', ha', hmem⟩ := List.mem_flatMap.mp h
  split at hmem
  · next hnil =>
    obtain ⟨rfl, -⟩ := Prod.mk.injEq _ _ _ _ ▸ List.mem_singleton.mp hmem
    exact ⟨ha', hnil⟩
  · obtain ⟨b, -, hb⟩ := List.mem_map.mp hmem
    cases hb

theorem mem_leftJoin_some {on : α → β → Bool} {l : List α} {r : List β} {a : α} {b : β}
    (h : (a, some b) ∈ leftJoin on l r) : a ∈ l ∧ b ∈ r ∧ on a b = true := by
  obtain ⟨a', ha', hmem⟩ := List.mem_flatMap.mp h
  split at hmem
  · cases List.mem_singleton.mp hmem
  · obtain ⟨b', hb', heq⟩ := List.mem_map.mp hmem
    cases heq
    exact ⟨ha', List.mem_of_mem_filter hb', (List.mem_filter.mp hb').2⟩

section Counts

/-- The rows of a join are counted row by row on the left. -/
theorem countP_innerJoin (on : α → β → Bool) (l : List α) (r : List β) (p : α × β → Bool) :
    (innerJoin on l r).countP p = (l.map fun a => r.countP fun b => on a b && p (a, b)).sum := by
  induction l with
  | nil => rfl
  | cons a l ih =>
    rw [innerJoin_cons, List.countP_append, List.countP_map, List.countP_filter, ih, List.map_cons,
      List.sum_cons]
    congr 2
    funext b
    exact Bool.and_comm _ _

/-- Rows that have no partner are not counted. -/
theorem countP_leftJoin (on : α → β → Bool) (l : List α) (r : List β) {p : α × Option β → Bool}
    (hp : ∀ a, p (a, none) = false) :
    (leftJoin on l r).countP p =
      (l.map fun a => r.countP fun b => on a b && p (a, some b)).sum := by
  induction l with
  | nil => rfl
  | cons a l ih =>
    have hcons : leftJoin on (a :: l) r = (match r.filter (on a) with
        | [] => [(a, none)]
        | bs => bs.map fun b => (a, some b)) ++ leftJoin on l r := rfl
    rw [hcons, List.countP_append, ih, List.map_cons, List.sum_cons]
    congr 1
    have hcount : (r.countP fun b => on a b && p (a, some b)) =
        (r.filter (on a)).countP fun b => p (a, some b) := by
      rw [List.countP_filter]
      congr 1
      funext b
      exact Bool.and_comm _ _
    rw [hcount]
    split
    · next hnil => rw [hnil, List.countP_singleton, if_neg (by rw [hp]; exact Bool.false_ne_true),
        List.countP_nil]
    · exact List.countP_map

theorem sum_indicator (l : List α) (c : α → Bool) :
    (l.map fun a => if c a then 1 else 0).sum = l.countP c := by
  induction l with
  | nil => rfl
  | cons a l ih => rw [List.map_cons, List.sum_cons, ih, List.countP_cons, Nat.add_comm]

theorem sum_ite_const (l : List α) (p : α → Bool) (c : ℕ) :
    (l.map fun a => if p a then c else 0).sum = l.countP p * c := by
  induction l with
  | nil => exact (Nat.zero_mul c).symm
  | cons a l ih =>
    rw [List.map_cons, List.sum_cons, ih, List.countP_cons, Nat.add_mul, Nat.add_comm]
    split_ifs <;> simp

/-- A sum of at least one for each row with a property is their number just if it is one for them and
nothing for the others. -/
theorem sum_eq_countP_iff {l : List α} {p : α → Bool} {g : α → ℕ}
    (h : ∀ a ∈ l, (if p a then 1 else 0) ≤ g a) :
    l.countP p ≤ (l.map g).sum ∧
      ((l.map g).sum = l.countP p ↔ ∀ a ∈ l, g a = if p a then 1 else 0) := by
  induction l with
  | nil => exact ⟨le_rfl, fun _ _ ha => absurd ha List.not_mem_nil, fun _ => rfl⟩
  | cons a l ih =>
    rw [List.forall_mem_cons] at h ⊢
    obtain ⟨hle, hiff⟩ := ih h.2
    rw [List.map_cons, List.sum_cons, List.countP_cons, ← hiff]
    have ha := h.1
    constructor
    · omega
    · omega

theorem sum_filter (l : List α) (p : α → Bool) (g : α → ℕ) :
    ((l.filter p).map g).sum = (l.map fun a => if p a then g a else 0).sum := by
  induction l with
  | nil => rfl
  | cons a l ih =>
    rw [List.map_cons, List.sum_cons, ← ih]
    by_cases ha : p a = true
    · rw [List.filter_cons_of_pos ha, if_pos ha, List.map_cons, List.sum_cons]
    · rw [List.filter_cons_of_neg ha, if_neg ha, Nat.zero_add]

theorem sum_map_add (l : List α) (f g : α → ℕ) :
    (l.map fun a => f a + g a).sum = (l.map f).sum + (l.map g).sum := by
  induction l with
  | nil => rfl
  | cons a l ih =>
    simp only [List.map_cons, List.sum_cons, ih]
    omega

theorem sum_swap (l : List α) (r : List β) (g : α → β → ℕ) :
    (l.map fun a => (r.map fun b => g a b).sum).sum =
      (r.map fun b => (l.map fun a => g a b).sum).sum := by
  induction l with
  | nil => simp
  | cons a l ih =>
    simp only [List.map_cons, List.sum_cons, ih]
    exact (sum_map_add r _ _).symm

/-- With a key there is one row of the key or none. -/
theorem filter_eq_toList_find? [DecidableEq κ] (key : α → κ) {l : List α}
    (h : (l.map key).Nodup) (k : κ) :
    l.filter (fun a => key a = k) = (l.find? fun a => key a = k).toList := by
  induction l with
  | nil => rfl
  | cons a l ih =>
    rw [List.map_cons, List.nodup_cons] at h
    by_cases ha : key a = k
    · have hrest : l.filter (fun a => key a = k) = [] := by
        rw [List.filter_eq_nil_iff]
        intro b hb hbk
        exact h.1 (ha.trans (of_decide_eq_true hbk).symm ▸ List.mem_map_of_mem hb)
      rw [List.filter_cons_of_pos (by simpa using ha), List.find?_cons_of_pos (by simpa using ha),
        hrest]
      rfl
    · rw [List.filter_cons_of_neg (by simpa using ha), List.find?_cons_of_neg (by simpa using ha),
        ih h.2]

theorem find?_key [DecidableEq κ] (key : α → κ) {l : List α} (h : (l.map key).Nodup) {a : α}
    (ha : a ∈ l) : l.find? (fun b => key b = key a) = some a := by
  induction l with
  | nil => exact absurd ha List.not_mem_nil
  | cons b l ih =>
    rw [List.map_cons, List.nodup_cons] at h
    rcases List.mem_cons.mp ha with rfl | ha
    · rw [List.find?_cons_of_pos (by simp)]
    · have hb : key b ≠ key a := fun hb => h.1 (hb ▸ List.mem_map_of_mem ha)
      rw [List.find?_cons_of_neg (by simpa using hb), ih h.2 ha]

theorem countP_key [DecidableEq κ] (key : α → κ) {l : List α} (h : (l.map key).Nodup) (k : κ)
    (p : α → Bool) :
    l.countP (fun a => p a && key a = k) =
      if (l.find? fun a => key a = k).any p then 1 else 0 := by
  have hfilter : l.countP (fun a => p a && key a = k) =
      (l.filter fun a => key a = k).countP p := List.countP_filter.symm
  rw [hfilter, filter_eq_toList_find? key h]
  cases l.find? fun a => key a = k with
  | none => rfl
  | some a => exact List.countP_singleton

end Counts

section Order

/-- A column without a value comes behind all others in a descending order. -/
def before : List (Option ℤ) → List (Option ℤ) → Bool
  | x :: xs, y :: ys =>
    if x = y then before xs ys
    else
      match x, y with
      | some x, some y => y < x
      | some _, none => true
      | none, _ => false
  | _, _ => true

/-- `ORDER BY` the columns, each of them descending. -/
def orderByDesc (columns : α → List (Option ℤ)) (l : List α) : List α :=
  l.insertionSort fun a b => before (columns a) (columns b) = true

theorem orderByDesc_perm (columns : α → List (Option ℤ)) (l : List α) :
    (orderByDesc columns l).Perm l := List.perm_insertionSort _ l

end Order

section Groups

variable [DecidableEq κ] (key : α → κ)

def groupKeys (l : List α) : List κ := (l.map key).dedup

def group (l : List α) (k : κ) : List α := l.filter fun a => key a = k

theorem mem_groupKeys {l : List α} {k : κ} : k ∈ groupKeys key l ↔ group key l k ≠ [] := by
  simp [groupKeys, group, List.filter_eq_nil_iff]

theorem group_perm {l l' : List α} (h : l.Perm l') (k : κ) :
    (group key l k).Perm (group key l' k) := h.filter _

/-- A condition that the key decides does not change the groups it keeps. -/
theorem group_filter {l : List α} {p : α → Bool} {k : κ} (h : ∀ a ∈ l, key a = k → p a = true) :
    group key (l.filter p) k = group key l k := by
  rw [group, List.filter_filter]
  refine List.filter_congr fun a ha => ?_
  by_cases hk : key a = k
  · simp [hk, h a ha hk]
  · simp [hk]

end Groups

end Relational
