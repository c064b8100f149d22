import Haggle.HashMapValues

/-!
# The entries of a hash multimap

What the operations do to the entries of a map as a whole: an insertion adds one, in whatever order,
and the others add none.
-/

namespace Haggle
namespace HashMap

variable {K V : Type}

section Map

variable [DecidableEq K] [Hash K]

omit [DecidableEq K] in
/-- A change of the bucket of a key leaves the entries before and behind it alone. -/
theorem toList_modify {m : HashMap K V} (hm : m.WF) (k : K) :
    ∃ pre post, m.toList = pre ++ (m.bucket k ++ post) ∧
      ∀ n f, toList ⟨n, m.table.modify (m.getIndex k) f, m.plainChar⟩ =
        pre ++ (f (m.bucket k) ++ post) := by
  have hlt : m.getIndex k < m.table.length := Nat.mod_lt _ (pos_of_mem_tableSizes hm.sizes)
  have hbucket : m.bucket k = m.table[m.getIndex k] := by
    simp [bucket, List.getD_eq_getElem?_getD, List.getElem?_eq_getElem hlt]
  refine ⟨(m.table.take (m.getIndex k)).flatten, (m.table.drop (m.getIndex k + 1)).flatten, ?_, ?_⟩
  · rw [toList, hbucket, ← List.flatten_cons, ← List.drop_eq_getElem_cons hlt,
      ← List.flatten_append, List.take_append_drop]
  · intro n f
    rw [toList, List.modify_eq_take_cons_drop hlt, hbucket, List.flatten_append, List.flatten_cons]

omit [Hash K] in
theorem insertAfterRun_perm (p : K × V) (l : List (K × V)) :
    (insertAfterRun p l).Perm (p :: l) := by
  induction l with
  | nil => rfl
  | cons q l ih =>
    by_cases hq : q.1 = p.1
    · simp only [insertAfterRun, if_pos hq]
      exact (ih.cons q).trans (List.Perm.swap p q l)
    · simp [insertAfterRun, hq]

omit [Hash K] in
theorem insertBucket_perm (p : K × V) (l : List (K × V)) :
    (insertBucket p l).Perm (p :: l) := by
  induction l with
  | nil => rfl
  | cons q l ih =>
    by_cases hq : q.1 = p.1
    · simp only [insertBucket, if_pos hq]
      exact ((insertAfterRun_perm p l).cons q).trans (List.Perm.swap p q l)
    · simp only [insertBucket, if_neg hq]
      exact (ih.cons q).trans (List.Perm.swap p q l)

theorem toList_insertNoGrow_perm {m : HashMap K V} (hm : m.WF) (p : K × V) :
    (m.insertNoGrow p).toList.Perm (p :: m.toList) := by
  obtain ⟨pre, post, hold, hnew⟩ := toList_modify hm p.1
  rw [insertNoGrow, hnew, hold]
  refine (((insertBucket_perm p _).append_right _).append_left _).trans ?_
  exact List.perm_middle

theorem foldl_insertNoGrow_perm (l : List (K × V)) {m : HashMap K V} (hm : m.WF) :
    (l.foldl insertNoGrow m).toList.Perm (l ++ m.toList) := by
  induction l generalizing m with
  | nil => rfl
  | cons p l ih =>
    refine (ih (wf_insertNoGrow hm p)).trans ?_
    exact ((toList_insertNoGrow_perm hm p).append_left l).trans List.perm_middle

theorem toList_grow_perm {m : HashMap K V} (hm : m.WF) : m.grow.toList.Perm m.toList := by
  rcases grow_cases hm with h | ⟨n, hn, h⟩
  · rw [h]
  · rw [h]
    simpa [toList_ofTableSize] using foldl_insertNoGrow_perm m.toList (wf_ofTableSize (V := V) hn)

theorem toList_insert_perm {m : HashMap K V} (hm : m.WF) (p : K × V) :
    (m.insert p).toList.Perm (p :: m.toList) := by
  unfold insert
  split_ifs
  · exact (toList_insertNoGrow_perm (grow_spec hm).1 p).trans ((toList_grow_perm hm).cons p)
  · exact toList_insertNoGrow_perm hm p

omit [DecidableEq K] in
theorem mem_toList_modify {m : HashMap K V} {k : K} {n : ℕ} {f : List (K × V) → List (K × V)}
    {e : K × V} (he : e ∈ toList ⟨n, m.table.modify (m.getIndex k) f, m.plainChar⟩) :
    ∃ b ∈ m.table, e ∈ b ∨ e ∈ f b := by
  obtain ⟨b, hb, heb⟩ := List.mem_flatten.mp he
  obtain ⟨i, hi⟩ := List.getElem?_of_mem hb
  obtain ⟨b', hb', rfl⟩ := getElem?_modify_eq_some hi
  refine ⟨b', List.mem_of_getElem? hb', ?_⟩
  split_ifs at heb
  · exact Or.inr heb
  · exact Or.inl heb

theorem mem_toList_updateFirst {m : HashMap K V} {k : K} {f : V → V} {e : K × V}
    (he : e ∈ (m.updateFirst k f).toList) :
    e ∈ m.toList ∨ ∃ v, (k, v) ∈ m.toList ∧ e = (k, f v) := by
  obtain ⟨b, hb, heb⟩ := mem_toList_modify he
  rcases heb with heb | heb
  · exact Or.inl (List.mem_flatten.mpr ⟨b, hb, heb⟩)
  · rcases mem_updateBucket heb with h | ⟨v, hv, rfl⟩
    · exact Or.inl (List.mem_flatten.mpr ⟨b, hb, h⟩)
    · exact Or.inr ⟨v, List.mem_flatten.mpr ⟨b, hb, hv⟩, rfl⟩

theorem mem_toList_erase {m : HashMap K V} {k : K} {e : K × V} (he : e ∈ (m.erase k).toList) :
    e ∈ m.toList := by
  obtain ⟨b, hb, heb⟩ := mem_toList_modify he
  rcases heb with heb | heb
  · exact List.mem_flatten.mpr ⟨b, hb, heb⟩
  · exact List.mem_flatten.mpr ⟨b, hb, (List.mem_filter.mp heb).1⟩

theorem toList_eraseFirst_sublist {m : HashMap K V} (hm : m.WF) (k : K) (q : V → Bool) :
    (m.eraseFirst k q).toList.Sublist m.toList := by
  obtain ⟨pre, post, hold, hnew⟩ := toList_modify hm k
  rw [eraseFirst, hnew, hold]
  exact ((List.eraseP_sublist.append (List.Sublist.refl _)).append_left _)

/-- If an entry of the key satisfies the condition, the first one is taken out. -/
theorem toList_eraseFirst_perm {m : HashMap K V} (hm : m.WF) {k : K} {q : V → Bool} {e : K × V}
    (he : e ∈ m.toList) (hk : e.1 = k) (hq : q e.2 = true) :
    ∃ x, q x.2 = true ∧ m.toList.Perm (x :: (m.eraseFirst k q).toList) := by
  have hbucket : e ∈ m.bucket k := by
    have hin : e ∈ m.toList.filter fun e => e.1 = k := by simp [he, hk]
    rw [filter_toList hm] at hin
    exact (List.mem_filter.mp hin).1
  obtain ⟨x, l₁, l₂, -, hx, hsplit, herase⟩ := List.exists_of_eraseP
    (p := fun e : K × V => e.1 = k && q e.2) hbucket (by simp [hk, hq])
  obtain ⟨pre, post, hold, hnew⟩ := toList_modify hm k
  refine ⟨x, (Bool.and_eq_true _ _ ▸ hx).2, ?_⟩
  rw [eraseFirst, hnew, hold, herase, hsplit, List.append_assoc, List.cons_append]
  refine List.Perm.trans ?_ List.perm_middle
  rw [List.append_assoc]
  exact List.perm_middle.append_left pre

end Map

end HashMap
end Haggle
