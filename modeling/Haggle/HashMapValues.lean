import Haggle.HashMapBuckets

/-!
# The values of a key in a hash multimap

In a well-formed map the entries of a key are all in its bucket, so every operation can be described
by what it does to the values of each key.
-/

namespace Haggle
namespace HashMap

variable {K V : Type}

section Map

variable [DecidableEq K] [Hash K]

/-- The bucket a key belongs to. -/
def bucket (m : HashMap K V) (k : K) : List (K × V) := m.table.getD (m.getIndex k) []

structure WF (m : HashMap K V) : Prop where
  sizes : m.table.length ∈ tableSizes
  placed : ∀ i b, m.table[i]? = some b → ∀ e ∈ b, m.getIndex e.1 = i
  grouped : ∀ b ∈ m.table, Grouped b

theorem pos_of_mem_tableSizes {n : ℕ} (hn : n ∈ tableSizes) : 0 < n := by
  revert n
  decide

omit [DecidableEq K] in
theorem WF.getElem?_bucket {m : HashMap K V} (hm : m.WF) (k : K) :
    m.table[m.getIndex k]? = some (m.bucket k) := by
  have hlt : m.getIndex k < m.table.length := Nat.mod_lt _ (pos_of_mem_tableSizes hm.sizes)
  simp [bucket, List.getD_eq_getElem?_getD, List.getElem?_eq_getElem hlt]

omit [DecidableEq K] in
theorem WF.grouped_bucket {m : HashMap K V} (hm : m.WF) (k : K) : Grouped (m.bucket k) :=
  hm.grouped _ (List.mem_of_getElem? (hm.getElem?_bucket k))

theorem filter_toList {m : HashMap K V} (hm : m.WF) (k : K) :
    m.toList.filter (fun e => e.1 = k) = (m.bucket k).filter (fun e => e.1 = k) := by
  unfold toList
  rw [List.filter_flatten, flatten_eq_getD _ (m.getIndex k)]
  · simp [List.getD_eq_getElem?_getD, List.getElem?_map, hm.getElem?_bucket k]
  · intro j b hj hne
    rw [List.getElem?_map, Option.map_eq_some_iff] at hj
    obtain ⟨b', hb', rfl⟩ := hj
    apply filter_eq_nil_of_not_mem
    rintro hmem
    obtain ⟨e, he, rfl⟩ := List.mem_map.mp hmem
    exact hne (hm.placed j b' hb' e he).symm

theorem equalRange_eq_filter {m : HashMap K V} (hm : m.WF) (k : K) :
    m.equalRange k = m.toList.filter (fun e => e.1 = k) := by
  have hbucket : m.table.getD (m.getIndex k) [] = m.bucket k := rfl
  rw [filter_toList hm k, ← takeWhile_dropWhile_eq_filter k _ (hm.grouped_bucket k), equalRange,
    findFrom, hbucket]
  cases hd : (m.bucket k).dropWhile (fun e : K × V => decide (e.1 ≠ k)) with
  | nil => rfl
  | cons e l =>
    -- no later bucket holds the key, so the walk ends with the run
    have hrest : (m.table.drop (m.getIndex k + 1)).flatten.takeWhile (fun e => e.1 = k) = [] := by
      cases ht : (m.table.drop (m.getIndex k + 1)).flatten with
      | nil => rfl
      | cons x t =>
        apply List.takeWhile_cons_of_neg
        have hx : x ∈ (m.table.drop (m.getIndex k + 1)).flatten := by simp [ht]
        obtain ⟨b, hb, hxb⟩ := List.mem_flatten.mp hx
        obtain ⟨j, hj⟩ := List.getElem?_of_mem hb
        rw [List.getElem?_drop] at hj
        have hplaced := hm.placed _ b hj x hxb
        simp only [decide_eq_true_eq]
        rintro rfl
        omega
    dsimp only
    rw [List.takeWhile_append, hrest, List.append_nil]
    split_ifs with hall
    · exact (List.IsPrefix.eq_of_length (List.takeWhile_prefix _) hall).symm
    · rfl

theorem equalRange_values {m : HashMap K V} (hm : m.WF) (k : K) :
    (m.equalRange k).map Prod.snd = m.values k := by
  rw [equalRange_eq_filter hm, values]

omit [DecidableEq K] in
theorem wf_ofTableSize {n : ℕ} {c : PlainChar} (hn : n ∈ tableSizes) :
    (ofTableSize n c : HashMap K V).WF where
  sizes := by simpa [ofTableSize] using hn
  placed i b hb e he := by
    simp only [ofTableSize, List.getElem?_replicate] at hb
    split_ifs at hb
    cases hb
    simp at he
  grouped b hb := by
    rw [(List.mem_replicate.mp hb).2]
    trivial

omit [DecidableEq K] [Hash K] in
theorem getElem?_modify_eq_some {m : HashMap K V} {i j : ℕ} {f : List (K × V) → List (K × V)}
    {b : List (K × V)} (hb : (m.table.modify i f)[j]? = some b) :
    ∃ b', m.table[j]? = some b' ∧ b = if i = j then f b' else b' := by
  rw [List.getElem?_modify] at hb
  cases hj : m.table[j]? with
  | none => simp [hj] at hb
  | some b' => exact ⟨b', rfl, by simpa [hj] using hb.symm⟩

omit [DecidableEq K] in
theorem wf_modify {m : HashMap K V} (hm : m.WF) (k : K) (n : ℕ)
    (f : List (K × V) → List (K × V)) (hf : ∀ b, Grouped b → Grouped (f b))
    (hmem : ∀ b, ∀ e ∈ f b, e ∈ b ∨ e.1 = k) :
    WF ⟨n, m.table.modify (m.getIndex k) f, m.plainChar⟩ where
  sizes := by simpa using hm.sizes
  placed i b hb e he := by
    obtain ⟨b', hb', rfl⟩ := getElem?_modify_eq_some hb
    have hlen : getIndex ⟨n, m.table.modify (m.getIndex k) f, m.plainChar⟩ e.1 = m.getIndex e.1 := by
      simp [getIndex]
    rw [hlen]
    split_ifs at he with hi
    · rcases hmem b' e he with he | rfl
      · exact hm.placed i b' hb' e he
      · exact hi
    · exact hm.placed i b' hb' e he
  grouped b hb := by
    obtain ⟨i, hi⟩ := List.getElem?_of_mem hb
    obtain ⟨b', hb', rfl⟩ := getElem?_modify_eq_some hi
    have hg := hm.grouped b' (List.mem_of_getElem? hb')
    split_ifs
    · exact hf b' hg
    · exact hg

omit [DecidableEq K] in
theorem bucket_modify {m : HashMap K V} (hm : m.WF) (k k' : K) (n : ℕ)
    (f : List (K × V) → List (K × V)) :
    bucket ⟨n, m.table.modify (m.getIndex k) f, m.plainChar⟩ k' =
      if m.getIndex k = m.getIndex k' then f (m.bucket k') else m.bucket k' := by
  have hlen : getIndex ⟨n, m.table.modify (m.getIndex k) f, m.plainChar⟩ k' = m.getIndex k' := by
    simp [getIndex]
  unfold bucket
  rw [hlen, List.getD_eq_getElem?_getD, List.getElem?_modify, hm.getElem?_bucket k']
  simp [List.getD_eq_getElem?_getD, hm.getElem?_bucket k']

theorem wf_insertNoGrow {m : HashMap K V} (hm : m.WF) (p : K × V) : (m.insertNoGrow p).WF := by
  apply wf_modify hm p.1 _ _ (fun b => grouped_insertBucket p b)
  intro b e he
  rcases (mem_insertBucket p e b).mp he with rfl | he
  · exact Or.inr rfl
  · exact Or.inl he

theorem values_insertNoGrow {m : HashMap K V} (hm : m.WF) (p : K × V) (k : K) :
    (m.insertNoGrow p).values k = m.values k ++ if p.1 = k then [p.2] else [] := by
  have hb : bucket (m.insertNoGrow p) k =
      if m.getIndex p.1 = m.getIndex k then insertBucket p (m.bucket k) else m.bucket k :=
    bucket_modify hm p.1 k _ _
  unfold values
  rw [filter_toList (wf_insertNoGrow hm p), filter_toList hm, hb]
  by_cases hi : m.getIndex p.1 = m.getIndex k
  · rw [if_pos hi, filter_insertBucket p k _ (hm.grouped_bucket k), List.map_append]
    split_ifs <;> rfl
  · have hk : p.1 ≠ k := fun h => hi (by rw [h])
    simp [if_neg hi, if_neg hk]

theorem foldl_insertNoGrow (l : List (K × V)) {m : HashMap K V} (hm : m.WF) :
    (l.foldl insertNoGrow m).WF ∧ ∀ k, (l.foldl insertNoGrow m).values k =
      m.values k ++ (l.filter (fun e => e.1 = k)).map Prod.snd := by
  induction l generalizing m with
  | nil => exact ⟨hm, by simp⟩
  | cons p l ih =>
    obtain ⟨hwf, hval⟩ := ih (wf_insertNoGrow hm p)
    refine ⟨hwf, fun k => ?_⟩
    rw [List.foldl_cons, hval k, values_insertNoGrow hm p k, List.append_assoc, List.filter_cons]
    by_cases hk : p.1 = k <;> simp [hk]

omit [DecidableEq K] [Hash K] in
theorem toList_ofTableSize (n : ℕ) {c : PlainChar} :
    (ofTableSize n c : HashMap K V).toList = [] := by
  simp [toList, ofTableSize]

theorem grow_cases {m : HashMap K V} (hm : m.WF) :
    m.grow = m ∨
      ∃ n ∈ tableSizes, m.grow = m.toList.foldl insertNoGrow (ofTableSize n m.plainChar) := by
  have hnext : ∀ n ∈ tableSizes, getPrime (n + 1) = 0 ∨ getPrime (n + 1) ≤ n ∨
      getPrime (getPrime (n + 1)) ∈ tableSizes := by decide
  unfold grow
  dsimp only
  split_ifs with hsmall
  · exact Or.inl rfl
  · refine Or.inr ⟨_, ?_, rfl⟩
    rcases hnext _ hm.sizes with h | h | h
    · exact absurd (Or.inl h) hsmall
    · exact absurd (Or.inr h) hsmall
    · exact h

theorem grow_spec {m : HashMap K V} (hm : m.WF) :
    m.grow.WF ∧ ∀ k, m.grow.values k = m.values k := by
  rcases grow_cases hm with h | ⟨n, hn, h⟩
  · rw [h]
    exact ⟨hm, fun _ => rfl⟩
  · obtain ⟨hwf, hval⟩ := foldl_insertNoGrow m.toList (wf_ofTableSize (V := V) hn)
    rw [h]
    refine ⟨hwf, fun k => ?_⟩
    rw [hval k]
    simp [values, toList_ofTableSize]

theorem plainChar_foldl (l : List (K × V)) (m : HashMap K V) :
    (l.foldl insertNoGrow m).plainChar = m.plainChar := by
  induction l generalizing m with
  | nil => rfl
  | cons p l ih => exact ih _

theorem plainChar_insert (m : HashMap K V) (p : K × V) :
    (m.insert p).plainChar = m.plainChar := by
  unfold insert grow
  dsimp only
  split_ifs
  · rfl
  · exact plainChar_foldl m.toList _
  · rfl

theorem wf_insert {m : HashMap K V} (hm : m.WF) (p : K × V) : (m.insert p).WF := by
  unfold insert
  split_ifs
  · exact wf_insertNoGrow (grow_spec hm).1 p
  · exact wf_insertNoGrow hm p

theorem values_insert {m : HashMap K V} (hm : m.WF) (p : K × V) (k : K) :
    (m.insert p).values k = m.values k ++ if p.1 = k then [p.2] else [] := by
  unfold insert
  split_ifs
  all_goals first
    | rw [values_insertNoGrow (grow_spec hm).1, (grow_spec hm).2]
    | rw [values_insertNoGrow hm]
  all_goals simp_all

omit [DecidableEq K] in
theorem wf_empty {c : PlainChar} : (empty c : HashMap K V).WF := wf_ofTableSize (by decide)

theorem wf_updateFirst {m : HashMap K V} (hm : m.WF) (k : K) (f : V → V) :
    (m.updateFirst k f).WF := by
  apply wf_modify hm
  · exact fun b => grouped_of_map_fst (map_fst_updateBucket k f b)
  · intro b e he
    rcases mem_updateBucket he with h | ⟨v, -, rfl⟩
    · exact Or.inl h
    · exact Or.inr rfl

theorem values_updateFirst {m : HashMap K V} (hm : m.WF) (k k' : K) (f : V → V) :
    (m.updateFirst k f).values k' =
      if k = k' then (m.values k').modifyHead f else m.values k' := by
  have hb : bucket (m.updateFirst k f) k' =
      if m.getIndex k = m.getIndex k' then updateBucket k f (m.bucket k') else m.bucket k' :=
    bucket_modify hm k k' _ _
  unfold values
  rw [filter_toList (wf_updateFirst hm k f), filter_toList hm, hb]
  by_cases hi : m.getIndex k = m.getIndex k'
  · rw [if_pos hi, filter_updateBucket]
  · have hk : k ≠ k' := fun h => hi (by rw [h])
    rw [if_neg hi, if_neg hk]

theorem wf_updateAll {m : HashMap K V} (hm : m.WF) (k : K) (f : V → V) : (m.updateAll k f).WF := by
  apply wf_modify hm
  · intro b
    apply grouped_of_map_fst
    rw [List.map_map]
    apply List.map_congr_left
    intro e _
    by_cases he : e.1 = k <;> simp [he]
  · intro b e he
    obtain ⟨e', he', rfl⟩ := List.mem_map.mp he
    by_cases hk : e'.1 = k
    · exact Or.inr (by simp [hk])
    · exact Or.inl (by simpa [hk] using he')

theorem values_updateAll {m : HashMap K V} (hm : m.WF) (k k' : K) (f : V → V) :
    (m.updateAll k f).values k' = if k = k' then (m.values k').map f else m.values k' := by
  have hb : bucket (m.updateAll k f) k' = if m.getIndex k = m.getIndex k' then
      (m.bucket k').map (fun e => if e.1 = k then (e.1, f e.2) else e) else m.bucket k' :=
    bucket_modify hm k k' _ _
  have hfilter : ∀ l : List (K × V),
      ((l.map fun e => if e.1 = k then (e.1, f e.2) else e).filter (fun e => e.1 = k')).map Prod.snd =
        if k = k' then ((l.filter fun e => e.1 = k').map Prod.snd).map f
        else (l.filter fun e => e.1 = k').map Prod.snd := by
    intro l
    induction l with
    | nil => simp
    | cons e l ih =>
      by_cases he : e.1 = k
      · by_cases hk : k = k'
        · simp_all
        · simp_all
      · by_cases hk : e.1 = k' <;> by_cases hkk : k = k' <;> simp_all
  unfold values
  rw [filter_toList (wf_updateAll hm k f), filter_toList hm, hb]
  by_cases hi : m.getIndex k = m.getIndex k'
  · rw [if_pos hi, hfilter]
  · have hk : k ≠ k' := fun h => hi (by rw [h])
    rw [if_neg hi, if_neg hk]

theorem mem_toList_updateAll {m : HashMap K V} {k : K} {f : V → V} {e : K × V}
    (he : e ∈ (m.updateAll k f).toList) : e ∈ m.toList ∨ ∃ v, (k, v) ∈ m.toList ∧ e = (k, f v) := by
  obtain ⟨b, hb, heb⟩ := List.mem_flatten.mp he
  obtain ⟨i, hi, rfl⟩ := List.mem_iff_getElem.mp hb
  obtain ⟨b', hb', hmod⟩ := getElem?_modify_eq_some (List.getElem?_eq_getElem hi)
  have hmem : ∀ e' ∈ b', e' ∈ m.toList :=
    fun e' he' => List.mem_flatten.mpr ⟨b', List.mem_of_getElem? hb', he'⟩
  rw [hmod] at heb
  split_ifs at heb
  · obtain ⟨e', he', rfl⟩ := List.mem_map.mp heb
    by_cases hk : e'.1 = k
    · subst hk
      exact Or.inr ⟨e'.2, hmem e' he', by simp⟩
    · exact Or.inl (by simpa [hk] using hmem e' he')
  · exact Or.inl (hmem e heb)

theorem wf_erase {m : HashMap K V} (hm : m.WF) (k : K) : (m.erase k).WF := by
  apply wf_modify hm k _ _ (fun b => grouped_filter_ne k b)
  exact fun b e he => Or.inl (List.mem_filter.mp he).1

theorem values_erase {m : HashMap K V} (hm : m.WF) (k k' : K) :
    (m.erase k).values k' = if k = k' then [] else m.values k' := by
  have hb : bucket (m.erase k) k' = if m.getIndex k = m.getIndex k' then
      (m.bucket k').filter (fun e => e.1 ≠ k) else m.bucket k' := bucket_modify hm k k' _ _
  unfold values
  rw [filter_toList (wf_erase hm k), filter_toList hm, hb]
  by_cases hk : k = k'
  · subst hk
    simp [List.filter_filter]
  · rw [if_neg hk]
    split_ifs
    · rw [List.filter_filter]
      congr 2
      funext e
      by_cases he : e.1 = k' <;> simp [he, Ne.symm hk]
    · rfl

theorem wf_eraseFirst {m : HashMap K V} (hm : m.WF) (k : K) (q : V → Bool) :
    (m.eraseFirst k q).WF := by
  apply wf_modify hm k _ _ (fun b => grouped_eraseP _ b)
  exact fun b e he => Or.inl (List.mem_of_mem_eraseP he)

end Map

end HashMap
end Haggle
