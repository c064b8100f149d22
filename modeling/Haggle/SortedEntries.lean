import Mathlib.Algebra.Group.Nat.Defs
import Mathlib.Order.Lattice
import Mathlib.Data.List.Basic
import Mathlib.Logic.Function.Basic

/-!
# Entries in the order of their keys

A list of pairs of a key and a value that is sorted by the keys is cut by any key into the entries
below it, those at it and those above it. What goes in between leaves it sorted.
-/

namespace SortedEntries

variable {K V : Type} [LinearOrder K]

def Sorted (es : List (K × V)) : Prop := es.Pairwise fun a b => a.1 ≤ b.1

def StrictlySorted (es : List (K × V)) : Prop := es.Pairwise fun a b => a.1 < b.1

/-- The entries below a key, at the key and above it. -/
structure Cut (k : K) (es a b c : List (K × V)) : Prop where
  eq : es = a ++ (b ++ c)
  below : ∀ e ∈ a, e.1 < k
  equal : ∀ e ∈ b, e.1 = k
  above : ∀ e ∈ c, k < e.1

variable {k : K} {e x : K × V} {es a b c : List (K × V)}

theorem StrictlySorted.sorted (h : StrictlySorted es) : Sorted es :=
  List.Pairwise.imp (fun hlt => le_of_lt hlt) h

theorem exists_cut (h : Sorted es) (k : K) : ∃ a b c, Cut k es a b c := by
  induction es with
  | nil => exact ⟨[], [], [], rfl, nofun, nofun, nofun⟩
  | cons e es ih =>
    obtain ⟨hle, hes⟩ := List.pairwise_cons.mp h
    obtain ⟨a, b, c, heq, hbelow, hequal, habove⟩ := ih hes
    obtain hlt | rfl | hgt := lt_trichotomy e.1 k
    · exact ⟨e :: a, b, c, congrArg (e :: ·) heq, List.forall_mem_cons.mpr ⟨hlt, hbelow⟩, hequal,
        habove⟩
    · -- nothing behind the entry is below it
      have hnil : a = [] := List.eq_nil_iff_forall_not_mem.mpr fun x hx =>
        not_lt_of_ge (hle x (heq ▸ List.mem_append_left _ hx)) (hbelow x hx)
      subst hnil
      exact ⟨[], e :: b, c, congrArg (e :: ·) heq, nofun, List.forall_mem_cons.mpr ⟨rfl, hequal⟩,
        habove⟩
    · exact ⟨[], [], e :: es, rfl, nofun, nofun,
        List.forall_mem_cons.mpr ⟨hgt, fun x hx => lt_of_lt_of_le hgt (hle x hx)⟩⟩

/-- The part in the middle has all entries of the key. -/
theorem Cut.filter_eq (h : Cut k es a b c) : es.filter (fun e => e.1 = k) = b := by
  obtain ⟨rfl, hbelow, hequal, habove⟩ := h
  have ha : a.filter (fun e => e.1 = k) = [] := List.filter_eq_nil_iff.mpr fun e he =>
    by simpa using ne_of_lt (hbelow e he)
  have hb : b.filter (fun e => e.1 = k) = b := List.filter_eq_self.mpr fun e he =>
    by simpa using hequal e he
  have hc : c.filter (fun e => e.1 = k) = [] := List.filter_eq_nil_iff.mpr fun e he =>
    by simpa using ne_of_gt (habove e he)
  rw [List.filter_append, List.filter_append, ha, hb, hc, List.nil_append, List.append_nil]

theorem Cut.filter_ne (h : Cut k es a b c) : es.filter (fun e => e.1 ≠ k) = a ++ c := by
  obtain ⟨rfl, hbelow, hequal, habove⟩ := h
  have ha : a.filter (fun e => e.1 ≠ k) = a := List.filter_eq_self.mpr fun e he =>
    by simpa using ne_of_lt (hbelow e he)
  have hb : b.filter (fun e => e.1 ≠ k) = [] := List.filter_eq_nil_iff.mpr fun e he =>
    by simpa using hequal e he
  have hc : c.filter (fun e => e.1 ≠ k) = c := List.filter_eq_self.mpr fun e he =>
    by simpa using ne_of_gt (habove e he)
  rw [List.filter_append, List.filter_append, ha, hb, hc, List.nil_append]

/-- With strictly increasing keys there is at most one entry of a key. -/
theorem Cut.length_le_one (h : Cut k es a b c) (hs : StrictlySorted es) : b.length ≤ 1 := by
  obtain ⟨rfl, -, hequal, -⟩ := h
  match b with
  | [] => exact Nat.zero_le 1
  | [_] => exact Nat.le_refl 1
  | e :: e' :: b =>
    have hb := List.Pairwise.sublist ((List.sublist_append_left _ c).trans
      (List.sublist_append_right a _)) hs
    have hlt := (List.pairwise_cons.mp hb).1 e' (List.mem_cons_self)
    rw [hequal e (by simp), hequal e' (by simp)] at hlt
    exact absurd hlt (lt_irrefl k)

/-- Where the keys strictly increase, an entry is alone between those below it and above it. -/
theorem cut_of_strictlySorted (h : StrictlySorted (a ++ x :: b)) :
    Cut x.1 (a ++ x :: b) a [x] b := by
  obtain ⟨-, hxb, hab⟩ := List.pairwise_append.mp h
  refine ⟨rfl, fun e he => hab e he x List.mem_cons_self, ?_, (List.pairwise_cons.mp hxb).1⟩
  intro e he
  rw [List.mem_singleton.mp he]

theorem Cut.length_eq (h : Cut k es a b c) : es.length = a.length + b.length + c.length := by
  rw [h.eq, List.length_append, List.length_append, Nat.add_assoc]

theorem Cut.getElem_lt_iff (h : Cut k es a b c) {i : ℕ} (hi : i < es.length) :
    es[i].1 < k ↔ i < a.length := by
  obtain ⟨rfl, hbelow, hequal, habove⟩ := h
  by_cases hlt : i < a.length
  · rw [List.getElem_append_left hlt]
    exact iff_of_true (hbelow _ (List.getElem_mem hlt)) hlt
  · rw [List.getElem_append_right (Nat.le_of_not_lt hlt)]
    refine iff_of_false (not_lt_of_ge ?_) hlt
    obtain hmem | hmem := List.mem_append.mp (List.getElem_mem (l := b ++ c) _)
    · exact ge_of_eq (hequal _ hmem)
    · exact le_of_lt (habove _ hmem)

theorem Cut.lt_getElem_iff (h : Cut k es a b c) {i : ℕ} (hi : i < es.length) :
    k < es[i].1 ↔ a.length + b.length ≤ i := by
  obtain ⟨rfl, hbelow, hequal, habove⟩ := h
  by_cases hlt : i < (a ++ b).length
  · simp only [← List.append_assoc]
    rw [List.getElem_append_left hlt]
    rw [List.length_append] at hlt
    refine iff_of_false (not_lt_of_ge ?_) (Nat.not_le_of_lt hlt)
    obtain hmem | hmem := List.mem_append.mp (List.getElem_mem (l := a ++ b) _)
    · exact le_of_lt (hbelow _ hmem)
    · exact le_of_eq (hequal _ hmem)
  · simp only [← List.append_assoc]
    rw [List.getElem_append_right (Nat.le_of_not_lt hlt)]
    rw [List.length_append] at hlt
    exact iff_of_true (habove _ (List.getElem_mem _)) (Nat.le_of_not_lt hlt)

/-- An entry goes where those before it are not above it and those behind it not below. -/
theorem sorted_insert (h : Sorted (a ++ b)) (ha : ∀ e ∈ a, e.1 ≤ x.1) (hb : ∀ e ∈ b, x.1 ≤ e.1) :
    Sorted (a ++ x :: b) := by
  obtain ⟨hsa, hsb, hab⟩ := List.pairwise_append.mp h
  refine List.pairwise_append.mpr ⟨hsa, List.pairwise_cons.mpr ⟨hb, hsb⟩, ?_⟩
  intro e he f hf
  obtain rfl | hf := List.mem_cons.mp hf
  · exact ha e he
  · exact hab e he f hf

theorem strictlySorted_insert (h : StrictlySorted (a ++ b)) (ha : ∀ e ∈ a, e.1 < x.1)
    (hb : ∀ e ∈ b, x.1 < e.1) : StrictlySorted (a ++ x :: b) := by
  obtain ⟨hsa, hsb, hab⟩ := List.pairwise_append.mp h
  refine List.pairwise_append.mpr ⟨hsa, List.pairwise_cons.mpr ⟨hb, hsb⟩, ?_⟩
  intro e he f hf
  obtain rfl | hf := List.mem_cons.mp hf
  · exact ha e he
  · exact hab e he f hf

theorem sorted_erase (h : Sorted (a ++ x :: b)) : Sorted (a ++ b) :=
  List.Pairwise.sublist ((List.sublist_cons_self x b).append_left a) h

theorem strictlySorted_erase (h : StrictlySorted (a ++ x :: b)) : StrictlySorted (a ++ b) :=
  List.Pairwise.sublist ((List.sublist_cons_self x b).append_left a) h

section Functions

variable {f : K → Option V} {v w : V}

/-- The entries are those of a function from the keys. -/
structure Represents (es : List (K × V)) (f : K → Option V) : Prop where
  sorted : StrictlySorted es
  mem_iff : ∀ k v, (k, v) ∈ es ↔ f k = some v

theorem represents_nil : Represents ([] : List (K × V)) fun _ => none :=
  ⟨List.Pairwise.nil, fun _ _ => iff_of_false List.not_mem_nil nofun⟩

/-- The function says what is in the middle of the cut. -/
theorem Cut.eq_of_represents (h : Cut k es a b c) (hf : Represents es f) :
    b = ((f k).map (k, ·)).toList := by
  have hmem : ∀ e, e ∈ b ↔ f k = some e.2 ∧ e.1 = k := by
    intro e
    rw [← h.filter_eq, List.mem_filter, decide_eq_true_eq]
    constructor
    · rintro ⟨he, rfl⟩
      exact ⟨(hf.mem_iff _ _).mp he, rfl⟩
    · rintro ⟨he, rfl⟩
      exact ⟨(hf.mem_iff _ _).mpr he, rfl⟩
  have hlen := h.length_le_one hf.sorted
  cases hk : f k with
  | none =>
    refine List.eq_nil_iff_forall_not_mem.mpr fun e he => ?_
    rw [hmem, hk] at he
    cases he.1
  | some v =>
    have hv : (k, v) ∈ b := (hmem (k, v)).mpr ⟨hk, rfl⟩
    obtain ⟨e, rfl⟩ := List.length_eq_one_iff.mp
      (Nat.le_antisymm hlen (List.length_pos_of_mem hv))
    obtain rfl := List.mem_singleton.mp hv
    rfl

/-- Where the key has at most one entry, another one takes its place. -/
theorem represents_update (h : Cut k es a b c) (hf : Represents es f) (v : V) :
    Represents (a ++ (k, v) :: c) (Function.update f k (some v)) := by
  have hsub : StrictlySorted (a ++ c) := by
    have hs := hf.sorted
    rw [h.eq] at hs
    exact List.Pairwise.sublist ((List.sublist_append_right b c).append_left a) hs
  refine ⟨strictlySorted_insert hsub h.below h.above, fun k' w => ?_⟩
  by_cases hk : k' = k
  · subst hk
    rw [Function.update_self]
    have ha : (k', w) ∉ a := fun hmem => lt_irrefl k' (h.below _ hmem)
    have hc : (k', w) ∉ c := fun hmem => lt_irrefl k' (h.above _ hmem)
    simp [ha, hc, eq_comm]
  · rw [Function.update_of_ne hk, ← hf.mem_iff, h.eq]
    have hb : (k', w) ∉ b := fun hmem => hk (h.equal _ hmem)
    simp [hk, hb]

theorem represents_erase (hf : Represents (a ++ x :: b) f) :
    Represents (a ++ b) (Function.update f x.1 none) := by
  refine ⟨strictlySorted_erase hf.sorted, fun k v => ?_⟩
  obtain ⟨-, hxb, hab⟩ := List.pairwise_append.mp hf.sorted
  by_cases hk : k = x.1
  · subst hk
    have ha : (x.1, v) ∉ a := fun hmem => lt_irrefl x.1 (hab _ hmem x List.mem_cons_self)
    have hb : (x.1, v) ∉ b := fun hmem =>
      lt_irrefl x.1 ((List.pairwise_cons.mp hxb).1 (x.1, v) hmem)
    simp [ha, hb]
  · have hx : (k, v) ≠ x := fun heq => hk (congrArg Prod.fst heq)
    rw [Function.update_of_ne hk, ← hf.mem_iff]
    simp [hx]

end Functions

end SortedEntries
