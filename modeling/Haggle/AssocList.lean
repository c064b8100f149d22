import Mathlib.Data.List.Nodup

/-!
# Association lists

A finite map as a list of pairs: `get` returns the first value of a key, and `set` replaces it in
place or appends a new pair.
-/

namespace AssocList

variable {K V : Type} [DecidableEq K]

def get (l : List (K × V)) (k : K) : Option V := (l.find? (fun p => p.1 = k)).map Prod.snd

def set (k : K) (v : V) : List (K × V) → List (K × V)
  | [] => [(k, v)]
  | p :: l => if p.1 = k then (k, v) :: l else p :: set k v l

def remove (k : K) (l : List (K × V)) : List (K × V) := l.filter (fun p => p.1 ≠ k)

@[simp] theorem get_nil (k : K) : get ([] : List (K × V)) k = none := rfl

theorem get_cons (p : K × V) (l : List (K × V)) (k : K) :
    get (p :: l) k = if p.1 = k then some p.2 else get l k := by
  by_cases hp : p.1 = k <;> simp [get, hp]

theorem get_eq_none_iff {l : List (K × V)} {k : K} : get l k = none ↔ k ∉ l.map Prod.fst := by
  induction l with
  | nil => simp
  | cons p l ih =>
    rw [get_cons, List.map_cons, List.mem_cons, not_or]
    by_cases hp : p.1 = k
    · simp [hp]
    · rw [if_neg hp, ih]
      exact ⟨fun h => ⟨fun h' => hp h'.symm, h⟩, fun h => h.2⟩

@[simp] theorem get_set_self (k : K) (v : V) (l : List (K × V)) : get (set k v l) k = some v := by
  induction l with
  | nil => simp [set, get_cons]
  | cons p l ih => by_cases hp : p.1 = k <;> simp [set, hp, get_cons, ih]

theorem set_set (k : K) (v w : V) (l : List (K × V)) : set k w (set k v l) = set k w l := by
  induction l with
  | nil => simp [set]
  | cons p l ih => by_cases hp : p.1 = k <;> simp [set, hp, ih]

/-- Setting the value that a key has changes nothing. -/
theorem set_eq_self {k : K} {v : V} {l : List (K × V)} (h : get l k = some v) : set k v l = l := by
  induction l with
  | nil => simp at h
  | cons p l ih =>
    rw [get_cons] at h
    rw [set]
    split_ifs at h ⊢ with hp
    · obtain rfl := Option.some.inj h
      subst hp
      rfl
    · rw [ih h]

theorem get_set_of_ne {k k' : K} (hk : k ≠ k') (v : V) (l : List (K × V)) :
    get (set k v l) k' = get l k' := by
  induction l with
  | nil => simp [set, get_cons, hk]
  | cons p l ih =>
    by_cases hp : p.1 = k
    · simp [set, hp, get_cons, hk]
    · simp [set, hp, get_cons, ih]

theorem mem_set {k : K} {v : V} {l : List (K × V)} {p : K × V}
    (h : p ∈ set k v l) : p = (k, v) ∨ p ∈ l := by
  induction l with
  | nil => simpa [set] using h
  | cons q l ih =>
    rw [set] at h
    split_ifs at h
    · rcases List.mem_cons.mp h with rfl | h
      · exact Or.inl rfl
      · exact Or.inr (List.mem_cons_of_mem _ h)
    · rcases List.mem_cons.mp h with rfl | h
      · exact Or.inr List.mem_cons_self
      · rcases ih h with h | h
        · exact Or.inl h
        · exact Or.inr (List.mem_cons_of_mem _ h)

theorem mem_of_get {k : K} {v : V} {l : List (K × V)}
    (h : get l k = some v) : (k, v) ∈ l := by
  induction l with
  | nil => simp at h
  | cons q l ih =>
    rw [get_cons] at h
    split_ifs at h with hq
    · obtain rfl := Option.some.inj h
      subst hq
      exact List.mem_cons_self
    · exact List.mem_cons_of_mem _ (ih h)

theorem get_of_mem {l : List (K × V)} (hl : (l.map Prod.fst).Nodup) {p : K × V} (hp : p ∈ l) :
    get l p.1 = some p.2 := by
  induction l with
  | nil => cases hp
  | cons q l ih =>
    rw [List.map_cons, List.nodup_cons] at hl
    rw [get_cons]
    rcases List.mem_cons.mp hp with rfl | hp
    · rw [if_pos rfl]
    · have hne : q.1 ≠ p.1 := by
        intro h
        exact hl.1 (h ▸ List.mem_map_of_mem hp)
      rw [if_neg hne, ih hl.2 hp]

theorem mem_keys_set {k : K} {v : V} {l : List (K × V)} {x : K}
    (hx : x ∈ (set k v l).map Prod.fst) : x ∈ l.map Prod.fst ∨ x = k := by
  induction l with
  | nil => simpa [set] using hx
  | cons p l ih =>
    by_cases hp : p.1 = k
    · simp only [set, if_pos hp, List.map_cons, List.mem_cons] at hx ⊢
      tauto
    · simp only [set, if_neg hp, List.map_cons, List.mem_cons] at hx ⊢
      tauto

theorem nodup_set (k : K) (v : V) {l : List (K × V)} (hl : (l.map Prod.fst).Nodup) :
    ((set k v l).map Prod.fst).Nodup := by
  induction l with
  | nil => simp [set]
  | cons p l ih =>
    simp only [List.map_cons, List.nodup_cons] at hl
    by_cases hp : p.1 = k
    · simp only [set, if_pos hp, List.map_cons, List.nodup_cons]
      exact ⟨hp ▸ hl.1, hl.2⟩
    · simp only [set, if_neg hp, List.map_cons, List.nodup_cons]
      refine ⟨fun h => ?_, ih hl.2⟩
      rcases mem_keys_set h with h | h
      · exact hl.1 h
      · exact hp h

theorem set_of_not_mem {k : K} (v : V) {l : List (K × V)} (hk : k ∉ l.map Prod.fst) :
    set k v l = l ++ [(k, v)] := by
  induction l with
  | nil => rfl
  | cons p l ih =>
    rw [List.map_cons, List.mem_cons, not_or] at hk
    rw [set, if_neg fun h => hk.1 h.symm, ih hk.2, List.cons_append]

/-- In a list without repeated keys, setting a key that is there replaces its pair. -/
theorem set_of_mem {k : K} (v : V) {l : List (K × V)} (hl : (l.map Prod.fst).Nodup)
    (hk : k ∈ l.map Prod.fst) : set k v l = l.map fun p => if p.1 = k then (k, v) else p := by
  induction l with
  | nil => simp at hk
  | cons p l ih =>
    rw [List.map_cons, List.nodup_cons] at hl
    by_cases hp : p.1 = k
    · have hrest : l.map (fun p => if p.1 = k then (k, v) else p) = l := by
        refine (List.map_congr_left fun q hq => if_neg fun h => ?_).trans l.map_id
        exact hl.1 (hp.trans h.symm ▸ List.mem_map_of_mem hq)
      rw [set, if_pos hp, List.map_cons, if_pos hp, hrest]
    · have hk' : k ∈ l.map Prod.fst := by
        rcases List.mem_cons.mp hk with h | h
        · exact absurd h.symm hp
        · exact h
      rw [set, if_neg hp, List.map_cons, if_neg hp, ih hl.2 hk']

theorem filter_key {l : List (K × V)} (hl : (l.map Prod.fst).Nodup) (k : K) :
    l.filter (fun p => p.1 = k) = (get l k).toList.map fun v => (k, v) := by
  induction l with
  | nil => rfl
  | cons p l ih =>
    rw [List.map_cons, List.nodup_cons] at hl
    rw [List.filter_cons, get_cons, ih hl.2]
    by_cases hp : p.1 = k
    · have hnone : get l k = none := get_eq_none_iff.mpr (hp ▸ hl.1)
      subst hp
      simp [hnone]
    · simp [hp]

/-- Setting the pairs of a list without repeated keys makes each of them readable. -/
theorem get_foldl_set (ps : List (K × V)) (hps : (ps.map Prod.fst).Nodup) (k : K)
    (l : List (K × V)) :
    get (ps.foldl (fun l p => set p.1 p.2 l) l) k = (get ps k).or (get l k) := by
  induction ps generalizing l with
  | nil => rfl
  | cons p ps ih =>
    simp only [List.map_cons, List.nodup_cons] at hps
    rw [List.foldl_cons, ih hps.2, get_cons]
    by_cases hp : p.1 = k
    · subst hp
      simp [get_eq_none_iff.mpr hps.1]
    · rw [get_set_of_ne hp, if_neg hp]

end AssocList
