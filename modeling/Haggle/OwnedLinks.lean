import Mathlib.Algebra.BigOperators.Group.List.Basic
import Mathlib.Algebra.Group.Basic
import Mathlib.Algebra.Order.Group.Int
import Mathlib.Data.List.Nodup
import Mathlib.Data.List.Pairwise

/-!
# Owners with counters over their links

Each row of one table owns rows of another one. Triggers add what a link is worth to a counter in
the row of its owner when the link is inserted, subtract it when the link is deleted, and delete the
links of an owner behind the owner.
-/

namespace OwnedLinks

structure Owner (K C : Type) where
  rowid : ℤ
  key : K
  counter : C
deriving DecidableEq

structure Link (V : Type) where
  owner : ℤ
  attr : ℤ
  value : V
deriving DecidableEq

/-- Both tables. `sequence` is the greatest number that a row of the first one was ever given, if
numbers are not given twice. -/
structure Tables (K V C : Type) where
  owners : List (Owner K C)
  links : List (Link V)
  sequence : ℤ
deriving DecidableEq

def Link.same {V : Type} (l m : Link V) : Bool := l.owner = m.owner && l.attr = m.attr

section Statements

variable {K V C : Type} [AddCommGroup C] (worth : V → C)

/-- `UPDATE`, as the triggers of the links make it. -/
def count (rowid : ℤ) (c : C) (t : Tables K V C) : Tables K V C :=
  { t with owners := t.owners.map fun o =>
      if o.rowid = rowid then { o with counter := o.counter + c } else o }

def newRowid (t : Tables K V C) : ℤ := (t.owners.map Owner.rowid).foldr max t.sequence + 1

/-- A row with a key that is there already is in conflict. -/
def insertOwner [DecidableEq K] (autoincrement : Bool) (key : K) (t : Tables K V C) :
    Option (ℤ × Tables K V C) :=
  if t.owners.any (·.key = key) then none
  else some (newRowid t, { t with
    owners := t.owners ++ [⟨newRowid t, key, 0⟩]
    sequence := if autoincrement then newRowid t else t.sequence })

def insertLink (l : Link V) (t : Tables K V C) : Option (Tables K V C) :=
  if t.links.any l.same then none
  else some (count l.owner (worth l.value) { t with links := t.links ++ [l] })

def deleteLink (t : Tables K V C) (l : Link V) : Tables K V C :=
  count l.owner (-worth l.value) { t with links := t.links.filter fun m => !l.same m }

/-- The trigger on owners. -/
def deleteLinks (rowid : ℤ) (t : Tables K V C) : Tables K V C :=
  (t.links.filter (·.owner = rowid)).foldl (deleteLink worth) t

def deleteOwner (t : Tables K V C) (rowid : ℤ) : Tables K V C :=
  deleteLinks worth rowid { t with owners := t.owners.filter (·.rowid ≠ rowid) }

/-- The numbers of the rows that a condition selects. -/
def rowidsOf (p : K → Bool) (t : Tables K V C) : List ℤ :=
  (t.owners.filter (p ·.key)).map Owner.rowid

def deleteWhere (p : K → Bool) (t : Tables K V C) : Tables K V C :=
  (rowidsOf p t).foldl (deleteOwner worth) t

end Statements

section Totals

variable {K V C : Type} [AddCommGroup C] (worth : V → C)

/-- What the links of an owner are worth. -/
def total (rowid : ℤ) (ls : List (Link V)) : C :=
  ((ls.filter (·.owner = rowid)).map fun l => worth l.value).sum

/-- Counters are what they count, keys and links are there once, and no link is without an owner. -/
structure Exact (t : Tables K V C) : Prop where
  rowids : (t.owners.map Owner.rowid).Nodup
  keys : (t.owners.map Owner.key).Nodup
  links : t.links.Pairwise fun l m => l.same m = false
  owned : ∀ l ∈ t.links, ∃ o ∈ t.owners, o.rowid = l.owner
  counted : ∀ o ∈ t.owners, o.counter = total worth o.rowid t.links

variable {worth} {rowid : ℤ} {l m : Link V} {ls : List (Link V)}

theorem Link.same_iff : l.same m = true ↔ l.owner = m.owner ∧ l.attr = m.attr := by
  simp [Link.same]

theorem Link.same_comm (l m : Link V) : l.same m = m.same l := by
  rw [Bool.eq_iff_iff, same_iff, same_iff]
  exact and_congr eq_comm eq_comm

theorem total_nil (rowid : ℤ) : total worth rowid [] = 0 := rfl

theorem total_cons (rowid : ℤ) (l : Link V) (ls : List (Link V)) :
    total worth rowid (l :: ls) =
      (if l.owner = rowid then worth l.value else 0) + total worth rowid ls := by
  by_cases h : l.owner = rowid
  · simp [total, h]
  · simp [total, h]

theorem total_snoc (rowid : ℤ) (ls : List (Link V)) (l : Link V) :
    total worth rowid (ls ++ [l]) =
      total worth rowid ls + if l.owner = rowid then worth l.value else 0 := by
  induction ls with
  | nil => rw [List.nil_append, total_cons, total_nil, add_zero, zero_add]
  | cons m ls ih => rw [List.cons_append, total_cons, total_cons, ih, add_assoc]

theorem total_eq_zero (h : ∀ l ∈ ls, l.owner ≠ rowid) : total worth rowid ls = 0 := by
  have hnil : ls.filter (·.owner = rowid) = [] := by
    rw [List.filter_eq_nil_iff]
    intro l hl
    simpa using h l hl
  rw [total, hnil]
  rfl

/-- A link that is there once is worth the difference. -/
theorem total_erase (hls : ls.Pairwise fun l m => l.same m = false) (hl : l ∈ ls) (rowid : ℤ) :
    total worth rowid (ls.filter fun m => !l.same m) =
      total worth rowid ls + if l.owner = rowid then -worth l.value else 0 := by
  induction ls with
  | nil => exact absurd hl List.not_mem_nil
  | cons x ls ih =>
    obtain ⟨hx, hls⟩ := List.pairwise_cons.mp hls
    rcases List.mem_cons.mp hl with rfl | hl
    · have hself : l.same l = true := Link.same_iff.mpr ⟨rfl, rfl⟩
      have hrest : (ls.filter fun m => !l.same m) = ls := by
        rw [List.filter_eq_self]
        intro m hm
        rw [hx m hm, Bool.not_false]
      rw [List.filter_cons_of_neg (by simp [hself]), hrest, total_cons]
      by_cases hown : l.owner = rowid
      · rw [if_pos hown, if_pos hown, add_right_comm, add_neg_cancel, zero_add]
      · rw [if_neg hown, if_neg hown, zero_add, add_zero]
    · have hnot : l.same x = false := by
        rw [Link.same_comm]
        exact hx l hl
      rw [List.filter_cons_of_pos (by simp [hnot]), total_cons, total_cons, ih hls hl, add_assoc]

end Totals

section Counted

variable {K V C : Type} [AddCommGroup C] {worth : V → C} {t : Tables K V C} {rowid : ℤ}

/-- What holds while the links of an owner are deleted behind it. -/
structure Counted (worth : V → C) (t : Tables K V C) : Prop where
  links : t.links.Pairwise fun l m => l.same m = false
  counted : ∀ o ∈ t.owners, o.counter = total worth o.rowid t.links

theorem Exact.toCounted (h : Exact worth t) : Counted worth t := ⟨h.links, h.counted⟩

theorem keys_count (rowid : ℤ) (c : C) (t : Tables K V C) :
    (count rowid c t).owners.map (fun o => (o.rowid, o.key)) =
      t.owners.map fun o => (o.rowid, o.key) := by
  rw [count, List.map_map]
  refine List.map_congr_left fun o _ => ?_
  rw [Function.comp_apply]
  split_ifs <;> rfl

/-- A counter follows the links if what is counted is what they change by. -/
theorem counted_count {c : C} {ls : List (Link V)} (h : Counted worth t)
    (htotal : ∀ r, total worth r ls = total worth r t.links + if rowid = r then c else 0) :
    ∀ o ∈ (count rowid c { t with links := ls }).owners, o.counter = total worth o.rowid ls := by
  intro o ho
  obtain ⟨o', ho', rfl⟩ := List.mem_map.mp ho
  by_cases hrow : o'.rowid = rowid
  · rw [if_pos hrow, htotal, if_pos hrow.symm, h.counted o' ho']
  · rw [if_neg hrow, htotal, if_neg (Ne.symm hrow), add_zero, h.counted o' ho']

theorem Counted.deleteLink (h : Counted worth t) {l : Link V} (hl : l ∈ t.links) :
    Counted worth (deleteLink worth t l) where
  links := h.links.filter _
  counted := counted_count h fun r => total_erase h.links hl r

theorem links_deleteAll (ls : List (Link V)) (t : Tables K V C) :
    (ls.foldl (deleteLink worth) t).links = t.links.filter fun m => !ls.any (Link.same · m) := by
  induction ls generalizing t with
  | nil => simp
  | cons l ls ih =>
    rw [List.foldl_cons, ih]
    change ((t.links.filter fun m => !l.same m).filter fun m => !ls.any (Link.same · m)) = _
    rw [List.filter_filter]
    refine List.filter_congr fun m _ => ?_
    rw [List.any_cons, Bool.not_or, Bool.and_comm]

theorem keys_deleteAll (ls : List (Link V)) (t : Tables K V C) :
    (ls.foldl (deleteLink worth) t).owners.map (fun o => (o.rowid, o.key)) =
      t.owners.map fun o => (o.rowid, o.key) := by
  induction ls generalizing t with
  | nil => rfl
  | cons l ls ih =>
    rw [List.foldl_cons, ih]
    exact keys_count l.owner (-worth l.value) _

theorem Counted.deleteAll {ls : List (Link V)} (h : Counted worth t) (hsub : ∀ l ∈ ls, l ∈ t.links)
    (hls : ls.Pairwise fun l m => l.same m = false) :
    Counted worth (ls.foldl (OwnedLinks.deleteLink worth) t) := by
  induction ls generalizing t with
  | nil => exact h
  | cons l ls ih =>
    obtain ⟨hl, hls⟩ := List.pairwise_cons.mp hls
    rw [List.forall_mem_cons] at hsub
    refine ih (h.deleteLink hsub.1) (fun m hm => ?_) hls
    refine List.mem_filter.mpr ⟨hsub.2 m hm, ?_⟩
    rw [hl m hm, Bool.not_false]

/-- The links that are left behind an owner are those of the others. -/
theorem links_deleteLinks (rowid : ℤ) (t : Tables K V C) :
    (deleteLinks worth rowid t).links = t.links.filter (·.owner ≠ rowid) := by
  rw [deleteLinks, links_deleteAll]
  refine List.filter_congr fun m hm => ?_
  rw [Bool.eq_iff_iff, Bool.not_eq_true', List.any_eq_false, decide_eq_true_eq]
  constructor
  · intro h hown
    have hmem : m ∈ t.links.filter (·.owner = rowid) :=
      List.mem_filter.mpr ⟨hm, decide_eq_true hown⟩
    exact h m hmem (Link.same_iff.mpr ⟨rfl, rfl⟩)
  · intro h l hl hsame
    have hown := of_decide_eq_true (List.mem_filter.mp hl).2
    exact h ((Link.same_iff.mp hsame).1.symm.trans hown)

end Counted

section Changes

variable {K V C : Type} [AddCommGroup C] {worth : V → C} {t : Tables K V C} {rowid : ℤ}

omit [AddCommGroup C] in
theorem rowids_eq {t t' : Tables K V C} (h : t'.owners.map (fun o => (o.rowid, o.key)) =
    t.owners.map fun o => (o.rowid, o.key)) :
    t'.owners.map Owner.rowid = t.owners.map Owner.rowid ∧
      t'.owners.map Owner.key = t.owners.map Owner.key := by
  have hfst := congrArg (List.map Prod.fst) h
  have hsnd := congrArg (List.map Prod.snd) h
  rw [List.map_map, List.map_map] at hfst hsnd
  exact ⟨hfst, hsnd⟩

/-- An owner is deleted with its links, and nothing else. -/
theorem deleteOwner_rows (t : Tables K V C) (rowid : ℤ) :
    (deleteOwner worth t rowid).links = t.links.filter (·.owner ≠ rowid) ∧
      (deleteOwner worth t rowid).owners.map (fun o => (o.rowid, o.key)) =
        (t.owners.filter (·.rowid ≠ rowid)).map fun o => (o.rowid, o.key) :=
  ⟨links_deleteLinks rowid _, keys_deleteAll _ _⟩

theorem rowids_deleteOwner (t : Tables K V C) (rowid : ℤ) :
    (deleteOwner worth t rowid).owners.map Owner.rowid =
      (t.owners.filter (·.rowid ≠ rowid)).map Owner.rowid :=
  (@rowids_eq K V C { t with owners := t.owners.filter (·.rowid ≠ rowid) } _
    (@deleteOwner_rows _ _ _ _ worth t rowid).2).1

theorem Exact.deleteOwner (h : Exact worth t) (rowid : ℤ) :
    Exact worth (deleteOwner worth t rowid) := by
  obtain ⟨hlinks, hkeys⟩ := @deleteOwner_rows _ _ _ _ worth t rowid
  obtain ⟨hrowids, hkeys⟩ := @rowids_eq K V C { t with
    owners := t.owners.filter (·.rowid ≠ rowid) } _ hkeys
  have hsub : (t.owners.filter (·.rowid ≠ rowid)).Sublist t.owners := List.filter_sublist
  have hcounted : Counted worth (OwnedLinks.deleteOwner worth t rowid) := by
    have hrest : Counted worth { t with owners := t.owners.filter (·.rowid ≠ rowid) } :=
      ⟨h.links, fun o ho => h.counted o (List.mem_of_mem_filter ho)⟩
    exact hrest.deleteAll (fun l hl => List.mem_of_mem_filter hl) (h.links.filter _)
  refine ⟨?_, ?_, hcounted.links, fun l hl => ?_, hcounted.counted⟩
  · rw [hrowids]
    exact h.rowids.sublist (hsub.map _)
  · rw [hkeys]
    exact h.keys.sublist (hsub.map _)
  · rw [hlinks] at hl
    obtain ⟨hl, hne⟩ := List.mem_filter.mp hl
    obtain ⟨o, ho, hown⟩ := h.owned l hl
    have hmem : o.rowid ∈ (OwnedLinks.deleteOwner worth t rowid).owners.map Owner.rowid := by
      rw [hrowids]
      refine List.mem_map_of_mem (List.mem_filter.mpr ⟨ho, ?_⟩)
      rw [hown]
      exact hne
    obtain ⟨o', ho', heq⟩ := List.mem_map.mp hmem
    exact ⟨o', ho', heq.trans hown⟩

theorem Exact.deleteWhere (h : Exact worth t) (p : K → Bool) :
    Exact worth (deleteWhere worth p t) := by
  unfold OwnedLinks.deleteWhere
  induction rowidsOf p t generalizing t with
  | nil => exact h
  | cons r rs ih => exact ih (h.deleteOwner r)

omit [AddCommGroup C] in
theorem lt_newRowid {o : Owner K C} (ho : o ∈ t.owners) : o.rowid < newRowid t := by
  have hle : ∀ ls : List ℤ, ∀ r ∈ ls, r ≤ ls.foldr max t.sequence := by
    intro ls
    induction ls with
    | nil => exact fun r hr => absurd hr List.not_mem_nil
    | cons a ls ih =>
      rw [List.forall_mem_cons]
      exact ⟨le_max_left _ _, fun r hr => (ih r hr).trans (le_max_right _ _)⟩
  exact Int.lt_add_one_of_le (hle _ _ (List.mem_map_of_mem ho))

theorem mem_insertOwner [DecidableEq K] {autoincrement : Bool} {key : K}
    {r : ℤ × Tables K V C} (hins : insertOwner autoincrement key t = some r) {o : Owner K C}
    (ho : o ∈ t.owners) : o ∈ r.2.owners := by
  unfold OwnedLinks.insertOwner at hins
  by_cases hany : t.owners.any (·.key = key) = true
  · rw [if_pos hany] at hins
    cases hins
  · rw [if_neg hany] at hins
    obtain rfl := Option.some.inj hins
    exact List.mem_append_left _ ho

theorem Exact.insertOwner [DecidableEq K] (h : Exact worth t) {autoincrement : Bool} {key : K}
    {t' : Tables K V C} (hins : insertOwner autoincrement key t = some (rowid, t')) :
    Exact worth t' ∧ ∃ o ∈ t'.owners, o.rowid = rowid := by
  unfold OwnedLinks.insertOwner at hins
  by_cases hany : t.owners.any (·.key = key) = true
  · rw [if_pos hany] at hins
    cases hins
  rw [if_neg hany] at hins
  obtain ⟨rfl, rfl⟩ := Prod.ext_iff.mp (Option.some.inj hins)
  have hkey : key ∉ t.owners.map Owner.key := by
    intro hmem
    obtain ⟨o, ho, hkey⟩ := List.mem_map.mp hmem
    exact hany (List.any_eq_true.mpr ⟨o, ho, decide_eq_true hkey⟩)
  have hrowid : newRowid t ∉ t.owners.map Owner.rowid := by
    intro hmem
    obtain ⟨o, ho, heq⟩ := List.mem_map.mp hmem
    exact absurd heq (lt_newRowid ho).ne
  refine ⟨⟨?_, ?_, h.links, fun l hl => ?_, fun o ho => ?_⟩,
    ⟨newRowid t, key, 0⟩, List.mem_append_right _ (List.mem_singleton_self _), rfl⟩
  · rw [List.map_append, List.map_singleton, ← List.concat_eq_append]
    exact h.rowids.concat hrowid
  · rw [List.map_append, List.map_singleton, ← List.concat_eq_append]
    exact h.keys.concat hkey
  · obtain ⟨o, ho, hown⟩ := h.owned l hl
    exact ⟨o, List.mem_append_left _ ho, hown⟩
  · rcases List.mem_append.mp ho with ho | ho
    · exact h.counted o ho
    · rw [List.mem_singleton.mp ho]
      refine (total_eq_zero fun l hl hown => ?_).symm
      obtain ⟨o, ho, hrow⟩ := h.owned l hl
      exact absurd (hrow.trans hown) (lt_newRowid ho).ne

theorem Exact.insertLink (h : Exact worth t) {l : Link V} (hown : ∃ o ∈ t.owners, o.rowid = l.owner)
    {t' : Tables K V C} (hins : insertLink worth l t = some t') :
    Exact worth t' ∧ t'.owners.map Owner.rowid = t.owners.map Owner.rowid := by
  unfold OwnedLinks.insertLink at hins
  split_ifs at hins with hany
  obtain rfl := Option.some.inj hins
  obtain ⟨hrowids, hkeys⟩ := @rowids_eq K V C { t with links := t.links ++ [l] } _
    (keys_count l.owner (worth l.value) _)
  have howner : ∀ r, (∃ o ∈ t.owners, o.rowid = r) → ∃ o ∈ (count l.owner (worth l.value)
      { t with links := t.links ++ [l] }).owners, o.rowid = r := by
    rintro r ⟨o, ho, rfl⟩
    have hmem : o.rowid ∈ (count l.owner (worth l.value)
        { t with links := t.links ++ [l] }).owners.map Owner.rowid := by
      rw [hrowids]
      exact List.mem_map_of_mem ho
    exact List.mem_map.mp hmem
  refine ⟨⟨by rw [hrowids]; exact h.rowids, by rw [hkeys]; exact h.keys, ?_, fun m hm => ?_, ?_⟩,
    hrowids⟩
  · refine List.pairwise_append.mpr ⟨h.links, List.pairwise_singleton _ _, fun x hx y hy => ?_⟩
    rw [List.mem_singleton.mp hy, Link.same_comm]
    by_contra hsame
    exact hany (List.any_eq_true.mpr ⟨x, hx, by simpa using hsame⟩)
  · rcases List.mem_append.mp hm with hm | hm
    · exact howner m.owner (h.owned m hm)
    · rw [List.mem_singleton.mp hm]
      exact howner l.owner hown
  · exact counted_count h.toCounted fun r => total_snoc r t.links l

end Changes

end OwnedLinks
