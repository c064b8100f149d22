import Mathlib.Data.List.Basic
import Mathlib.Data.List.Perm.Basic
import Mathlib.Algebra.Order.Group.Nat

/-!
# Binary min-heaps in an array

The entries of a heap, in array order, are a list. `parent` is the position above a position. A heap
is ordered when no entry is below its parent. `heapify` sifts an entry down, `insert` lets a hole
climb from the end to the place of a new entry, and `extractFirst` takes the root away.
-/

namespace MinHeap

variable {α κ : Type} [LinearOrder κ] (key : α → κ)

def parent (i : ℕ) : ℕ := (i - 1) / 2

/-- The entry at `j` exists and is below the entry at `i`. -/
def below (h : List α) (j i : ℕ) : Bool :=
  match h[j]?, h[i]? with
  | some b, some a => decide (key b < key a)
  | _, _ => false

def smallest (h : List α) (i : ℕ) : ℕ :=
  let l := 2 * i + 1
  let s := if below key h l i then l else i
  if below key h (l + 1) s then l + 1 else s

def swap (h : List α) (i j : ℕ) : List α :=
  match h[i]?, h[j]? with
  | some a, some b => (h.set i b).set j a
  | _, _ => h

variable {key} {h : List α} {i j k : ℕ}

theorem below_eq_true : below key h j i = true ↔
    ∃ b a, h[j]? = some b ∧ h[i]? = some a ∧ key b < key a := by
  unfold below
  split
  · simp_all
  · simp_all

theorem lt_length_of_below (hb : below key h j i = true) : j < h.length := by
  obtain ⟨b, -, hj, -⟩ := below_eq_true.mp hb
  exact (List.getElem?_eq_some_iff.mp hj).1

theorem length_swap (h : List α) (i j : ℕ) : (swap h i j).length = h.length := by
  unfold swap
  split <;> simp

theorem getElem?_swap (hi : i < h.length) (hj : j < h.length) (k : ℕ) :
    (swap h i j)[k]? = if k = j then h[i]? else if k = i then h[j]? else h[k]? := by
  have hi' := List.getElem?_eq_getElem hi
  have hj' := List.getElem?_eq_getElem hj
  simp only [swap, hi', hj', List.getElem?_set, List.length_set]
  grind

theorem swap_perm (h : List α) (i j : ℕ) : (swap h i j).Perm h := by
  unfold swap
  split
  next a b hi hj =>
    obtain ⟨hi, rfl⟩ := List.getElem?_eq_some_iff.mp hi
    obtain ⟨hj, rfl⟩ := List.getElem?_eq_some_iff.mp hj
    apply List.set_set_perm
  · exact List.Perm.refl h

theorem smallest_cases (key : α → κ) (h : List α) (i : ℕ) : smallest key h i = i ∨
    (smallest key h i < h.length ∧
      (smallest key h i = 2 * i + 1 ∨ smallest key h i = 2 * i + 2)) := by
  by_cases hl : below key h (2 * i + 1) i = true
  · have hlen := lt_length_of_below hl
    by_cases hr : below key h (2 * i + 1 + 1) (2 * i + 1) = true
    · exact .inr (by simp [smallest, hl, hr, lt_length_of_below hr])
    · exact .inr (by simp [smallest, hl, hr, hlen])
  · by_cases hr : below key h (2 * i + 1 + 1) i = true
    · exact .inr (by simp [smallest, hl, hr, lt_length_of_below hr])
    · exact .inl (by simp [smallest, hl, hr])

/-- The recursion ends because the place it goes on from is further down the array. -/
def heapify (key : α → κ) (h : List α) (i : ℕ) : List α :=
  if smallest key h i = i then h
  else heapify key (swap h i (smallest key h i)) (smallest key h i)
termination_by h.length - i
decreasing_by
  rw [length_swap]
  have := smallest_cases key h i
  omega

/-- `h` has a hole at `i`: what stands there is overwritten before it is read. -/
def climb (key : α → κ) (item : α) (h : List α) (i : ℕ) : List α :=
  if 0 < i then
    match h[parent i]? with
    | some p => if key item < key p then climb key item (h.set i p) (parent i) else h.set i item
    | none => h.set i item
  else h.set i item
termination_by i
decreasing_by
  simp only [parent]
  omega

/-- The hole starts behind the last entry. -/
def insert (key : α → κ) (h : List α) (item : α) : List α := climb key item (h ++ [item]) h.length

def extractFirst (key : α → κ) : List α → Option (α × List α)
  | [] => none
  | first :: rest =>
    some (first, heapify key (((first :: rest).set 0 (rest.getLastD first)).dropLast) 0)

/-! ## The entries -/

theorem heapify_perm (key : α → κ) (h : List α) (i : ℕ) : (heapify key h i).Perm h := by
  induction h, i using heapify.induct key with
  | case1 h i hs =>
    rw [heapify, if_pos hs]
  | case2 h i hs ih =>
    rw [heapify, if_neg hs]
    exact ih.trans (swap_perm h i _)

/-- One move of the hole exchanges the new entry with its parent. -/
theorem set_set_eq_swap {item p : α} (hi : i < h.length) (hne : j ≠ i) (hp : h[j]? = some p) :
    (h.set i p).set j item = swap (h.set i item) i j := by
  simp only [swap, List.getElem?_set_self hi, List.getElem?_set_ne hne.symm, hp, List.set_set]

theorem parent_lt (hi : 0 < i) : parent i < i := by
  simp only [parent]
  omega

theorem climb_perm (key : α → κ) (item : α) (h : List α) (i : ℕ) (hi : i < h.length) :
    (climb key item h i).Perm (h.set i item) := by
  induction h, i using climb.induct key item with
  | case1 h i hi0 p hp hlt ih =>
    have hq : parent i < (h.set i p).length := by simpa using (parent_lt hi0).trans hi
    rw [climb, if_pos hi0, hp]
    simp only [if_pos hlt]
    apply (ih hq).trans
    rw [set_set_eq_swap hi (parent_lt hi0).ne hp]
    exact swap_perm _ _ _
  | case2 h i hi0 p hp hlt =>
    rw [climb, if_pos hi0, hp]
    simp only [if_neg hlt]
    exact List.Perm.refl _
  | case3 h i hi0 hp =>
    rw [climb, if_pos hi0, hp]
  | case4 h i hi0 =>
    rw [climb, if_neg hi0]

theorem insert_perm (key : α → κ) (h : List α) (item : α) :
    (insert key h item).Perm (item :: h) := by
  have hp := climb_perm key item (h ++ [item]) h.length (by simp)
  rw [List.set_append_right _ _ (Nat.le_refl _)] at hp
  exact hp.trans (by simp)

theorem dropLast_getLastD_perm (a : α) (t : List α) : ((t.getLastD a :: t).dropLast).Perm t := by
  rcases List.eq_nil_or_concat t with rfl | ⟨t, z, rfl⟩
  · exact List.Perm.refl _
  · rw [List.concat_eq_append, List.getLastD_concat, ← List.cons_append, List.dropLast_concat]
    exact (List.perm_append_singleton z t).symm

theorem extractFirst_eq_none {key : α → κ} {h : List α} : extractFirst key h = none ↔ h = [] := by
  cases h <;> simp [extractFirst]

theorem extractFirst_perm {key : α → κ} {h rest : List α} {e : α}
    (he : extractFirst key h = some (e, rest)) : (e :: rest).Perm h := by
  cases h with
  | nil => simp [extractFirst] at he
  | cons a t =>
    simp only [extractFirst, Option.some.injEq, Prod.mk.injEq] at he
    obtain ⟨rfl, rfl⟩ := he
    apply List.Perm.cons
    apply (heapify_perm key _ 0).trans
    exact dropLast_getLastD_perm a t

/-! ## The order -/

/-- The entry at `c` is not below the entry at `p`. -/
def Above (key : α → κ) (h : List α) (p c : ℕ) : Prop :=
  ∀ a ∈ h[p]?, ∀ b ∈ h[c]?, key a ≤ key b

def Ordered (key : α → κ) (h : List α) : Prop := ∀ c, 0 < c → Above key h (parent c) c

/-- In order but for the entry at `i` and its parent. -/
structure UpOrder (key : α → κ) (h : List α) (i : ℕ) : Prop where
  off : ∀ c, 0 < c → c ≠ i → Above key h (parent c) c
  across : 0 < i → ∀ c, 0 < c → parent c = i → Above key h (parent i) c

/-- In order but for the entry at `i` and its children. -/
structure DownOrder (key : α → κ) (h : List α) (i : ℕ) : Prop where
  off : ∀ c, 0 < c → parent c ≠ i → Above key h (parent c) c
  across : 0 < i → ∀ c, 0 < c → parent c = i → Above key h (parent i) c

theorem parent_eq_iff (hk : 0 < k) : parent k = i ↔ k = 2 * i + 1 ∨ k = 2 * i + 2 := by
  simp only [parent]
  omega

theorem Above.trans {p m c : ℕ} (h₁ : Above key h p m) (h₂ : Above key h m c)
    (hm : m < h.length) : Above key h p c := by
  intro a ha b hb
  have hmem := List.getElem?_eq_getElem hm
  exact (h₁ a ha _ hmem).trans (h₂ _ hmem b hb)

/-- The exchanged list compares like the old one at exchanged places. -/
theorem above_swap (hi : i < h.length) (hj : j < h.length) (p c : ℕ) :
    Above key (swap h i j) p c ↔ Above key h (if p = j then i else if p = i then j else p)
      (if c = j then i else if c = i then j else c) := by
  simp only [Above, getElem?_swap hi hj]
  constructor <;> intro hab a ha b hb <;> apply hab a _ b _ <;> grind

theorem UpOrder.swap_parent (ho : UpOrder key h i) (hi : i < h.length) (hi0 : 0 < i)
    (hlt : Above key h i (parent i)) : UpOrder key (swap h i (parent i)) (parent i) := by
  have hq := parent_lt hi0
  have hql := hq.trans hi
  constructor
  · intro c hc hcq
    rw [above_swap hi hql, if_neg hcq]
    by_cases hci : c = i
    · subst hci
      simpa using hlt
    · rw [if_neg hci]
      by_cases hpc : parent c = parent i
      · rw [if_pos hpc]
        exact hlt.trans (hpc ▸ ho.off c hc hci) hql
      · rw [if_neg hpc]
        split
        next hpi => exact ho.across hi0 c hc hpi
        · exact ho.off c hc hci
  · intro hq0 c hc hpc
    have hcq : c ≠ parent i := by
      have := parent_lt hc
      omega
    have hqq := parent_lt hq0
    have hup := ho.off (parent i) hq0 hq.ne
    rw [above_swap hi hql, if_neg hqq.ne, if_neg (hqq.trans hq).ne, if_neg hcq]
    split
    · exact hup
    next hci => exact hup.trans (hpc ▸ ho.off c hc hci) hql

theorem UpOrder.ordered (ho : UpOrder key h i) (htop : 0 < i → Above key h (parent i) i) :
    Ordered key h := by
  intro c hc
  by_cases hci : c = i
  · subst hci
    exact htop hc
  · exact ho.off c hc hci

theorem above_of_not_below (hb : ¬ below key h j i = true) : Above key h i j := by
  intro a ha b hb'
  by_contra hlt
  exact hb (below_eq_true.mpr ⟨b, a, hb', ha, not_le.mp hlt⟩)

theorem above_of_below (hb : below key h j i = true) : Above key h j i := by
  obtain ⟨b, a, hj, hi, hlt⟩ := below_eq_true.mp hb
  intro b' hb' a' ha'
  rw [Option.mem_def, hj, Option.some.injEq] at hb'
  rw [Option.mem_def, hi, Option.some.injEq] at ha'
  subst b' a'
  exact hlt.le

theorem Above.refl (h : List α) (i : ℕ) : Above key h i i := by
  intro a ha b hb
  rw [Option.mem_unique ha hb]

/-- `smallest` is not above the entry it starts from nor above its children. -/
theorem smallest_above (hi : i < h.length) {c : ℕ} (hc : c = i ∨ c = 2 * i + 1 ∨ c = 2 * i + 2) :
    Above key h (smallest key h i) c := by
  by_cases hl : below key h (2 * i + 1) i = true
  · have hll := lt_length_of_below hl
    by_cases hr : below key h (2 * i + 1 + 1) (2 * i + 1) = true
    · have hs : smallest key h i = 2 * i + 2 := by simp [smallest, hl, hr]
      have hrl : Above key h (2 * i + 2) (2 * i + 1) := above_of_below hr
      rw [hs]
      rcases hc with rfl | rfl | rfl
      · exact hrl.trans (above_of_below hl) hll
      · exact hrl
      · exact Above.refl h _
    · have hs : smallest key h i = 2 * i + 1 := by simp [smallest, hl, hr]
      rw [hs]
      rcases hc with rfl | rfl | rfl
      · exact above_of_below hl
      · exact Above.refl h _
      · exact above_of_not_below hr
  · have hil := above_of_not_below hl
    by_cases hr : below key h (2 * i + 1 + 1) i = true
    · have hs : smallest key h i = 2 * i + 2 := by simp [smallest, hl, hr]
      have hri : Above key h (2 * i + 2) i := above_of_below hr
      rw [hs]
      rcases hc with rfl | rfl | rfl
      · exact hri
      · exact hri.trans hil hi
      · exact Above.refl h _
    · have hs : smallest key h i = i := by simp [smallest, hl, hr]
      rw [hs]
      rcases hc with rfl | rfl | rfl
      · exact Above.refl h _
      · exact hil
      · exact above_of_not_below hr

theorem DownOrder.swap_smallest (ho : DownOrder key h i) (hi : i < h.length)
    (hs : smallest key h i ≠ i) :
    DownOrder key (swap h i (smallest key h i)) (smallest key h i) := by
  obtain ⟨hsl, hchild⟩ := (smallest_cases key h i).resolve_left hs
  have habove := fun c hc => @smallest_above α κ _ key h i hi c hc
  generalize smallest key h i = s at *
  have hs0 : 0 < s := by omega
  have hps : parent s = i := (parent_eq_iff hs0).mpr hchild
  constructor
  · intro c hc hpc
    rw [above_swap hi hsl, if_neg hpc]
    by_cases hcs : c = s
    · rw [if_pos hcs, hcs, if_pos hps]
      exact habove i (.inl rfl)
    · rw [if_neg hcs]
      by_cases hpi : parent c = i
      · have hci : c ≠ i := by
          have := parent_lt hc
          omega
        rw [if_pos hpi, if_neg hci]
        exact habove c (.inr ((parent_eq_iff hc).mp hpi))
      · rw [if_neg hpi]
        split
        next hci =>
          subst hci
          exact ho.across hc s hs0 hps
        · exact ho.off c hc hpi
  · intro _ c hc hpc
    have hcs : s < c := by
      have := parent_lt hc
      omega
    rw [hps, above_swap hi hsl, if_neg (by omega), if_pos rfl, if_neg (by omega),
      if_neg (by omega)]
    have := ho.off c hc (by omega)
    rwa [hpc] at this

theorem heapify_ordered (ho : DownOrder key h i) (hi : i < h.length ∨ h = []) :
    Ordered key (heapify key h i) := by
  induction h, i using heapify.induct key with
  | case1 h i hs =>
    rw [heapify, if_pos hs]
    intro c hc
    by_cases hpc : parent c = i
    · rcases hi with hi | rfl
      · have hle : Above key h (smallest key h i) c :=
          smallest_above hi (.inr ((parent_eq_iff hc).mp hpc))
        rwa [hs, ← hpc] at hle
      · intro a ha
        simp at ha
    · exact ho.off c hc hpc
  | case2 h i hs ih =>
    rw [heapify, if_neg hs]
    have hsl := ((smallest_cases key h i).resolve_left hs).1
    have hi : i < h.length := by
      rcases hi with hi | rfl
      · exact hi
      · simp at hsl
    apply ih (ho.swap_smallest hi hs)
    exact .inl (by rwa [length_swap])

theorem climb_ordered {item : α} (ho : UpOrder key (h.set i item) i) (hi : i < h.length) :
    Ordered key (climb key item h i) := by
  induction h, i using climb.induct key item with
  | case1 h i hi0 p hp hlt ih =>
    have hne := (parent_lt hi0).ne
    have hswap : (h.set i p).set (parent i) item = swap (h.set i item) i (parent i) :=
      set_set_eq_swap hi hne hp
    rw [climb, if_pos hi0, hp]
    simp only [if_pos hlt]
    apply ih
    · rw [hswap]
      apply ho.swap_parent (by simpa using hi) hi0
      intro a ha b hb
      rw [Option.mem_def, List.getElem?_set_self hi, Option.some.injEq] at ha
      rw [Option.mem_def, List.getElem?_set_ne hne.symm, hp, Option.some.injEq] at hb
      subst a b
      exact hlt.le
    · simpa using (parent_lt hi0).trans hi
  | case2 h i hi0 p hp hlt =>
    rw [climb, if_pos hi0, hp]
    simp only [if_neg hlt]
    apply ho.ordered
    intro _ a ha b hb
    rw [Option.mem_def, List.getElem?_set_ne (parent_lt hi0).ne.symm, hp, Option.some.injEq] at ha
    rw [Option.mem_def, List.getElem?_set_self hi, Option.some.injEq] at hb
    subst a b
    exact not_lt.mp hlt
  | case3 h i hi0 hp =>
    rw [climb, if_pos hi0, hp]
    apply ho.ordered
    intro _ a ha
    rw [Option.mem_def, List.getElem?_set_ne (parent_lt hi0).ne.symm, hp] at ha
    cases ha
  | case4 h i hi0 =>
    rw [climb, if_neg hi0]
    apply ho.ordered
    intro hi0'
    exact absurd hi0' hi0

theorem insert_ordered (ho : Ordered key h) (item : α) : Ordered key (insert key h item) := by
  apply climb_ordered _ (by simp)
  rw [List.set_append_right _ _ (Nat.le_refl _)]
  simp only [Nat.sub_self, List.set_cons_zero]
  constructor
  · intro c hc hcl a ha b hb
    have hb' := (List.getElem?_eq_some_iff.mp hb).1
    have hpc := parent_lt hc
    simp only [List.length_append, List.length_singleton] at hb'
    rw [List.getElem?_append_left (by omega)] at ha hb
    exact ho c hc a ha b hb
  · intro hl c hc hpc a ha b hb
    have hb' := (List.getElem?_eq_some_iff.mp hb).1
    have hpc' := parent_lt hc
    simp only [List.length_append, List.length_singleton] at hb'
    omega

theorem mem_of_mem_dropLast_set {z x : α} (hk : k ≠ 0) (hx : x ∈ ((h.set 0 z).dropLast)[k]?) :
    x ∈ h[k]? := by
  rw [Option.mem_def, List.getElem?_dropLast] at hx
  split at hx
  · rwa [List.getElem?_set_ne hk.symm] at hx
  · cases hx

theorem extractFirst_ordered {rest : List α} {e : α} (ho : Ordered key h)
    (he : extractFirst key h = some (e, rest)) : Ordered key rest := by
  cases h with
  | nil => simp [extractFirst] at he
  | cons a t =>
    simp only [extractFirst, Option.some.injEq, Prod.mk.injEq] at he
    obtain ⟨rfl, rfl⟩ := he
    apply heapify_ordered
    · constructor
      · intro c hc hpc x hx y hy
        apply ho c hc
        · exact mem_of_mem_dropLast_set hpc hx
        · exact mem_of_mem_dropLast_set hc.ne' hy
      · intro h0
        exact absurd h0 (lt_irrefl 0)
    · cases t with
      | nil => exact .inr rfl
      | cons b t => exact .inl (by simp)

theorem above_root (ho : Ordered key h) (i : ℕ) (hi : i < h.length) : Above key h 0 i := by
  induction i using Nat.strong_induction_on with
  | h i ih =>
    rcases Nat.eq_zero_or_pos i with rfl | hi0
    · exact Above.refl h 0
    · have hq := parent_lt hi0
      exact (ih (parent i) hq (hq.trans hi)).trans (ho i hi0) (hq.trans hi)

/-- What `extractFirst` takes away is below nothing that was there. -/
theorem extractFirst_le {rest : List α} {e b : α} (ho : Ordered key h)
    (he : extractFirst key h = some (e, rest)) (hb : b ∈ h) : key e ≤ key b := by
  cases h with
  | nil => simp [extractFirst] at he
  | cons a t =>
    simp only [extractFirst, Option.some.injEq, Prod.mk.injEq] at he
    obtain ⟨rfl, -⟩ := he
    obtain ⟨i, hi, rfl⟩ := List.getElem_of_mem hb
    exact above_root ho i hi a rfl _ (List.getElem?_eq_getElem hi)

end MinHeap
