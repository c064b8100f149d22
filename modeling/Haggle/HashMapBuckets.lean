import Haggle.HashMap

/-!
# The buckets of a hash multimap

A bucket is a list in which equal keys stand next to each other. The operations on buckets keep it
so, and change the entries of one key only.
-/

namespace Haggle
namespace HashMap

variable {K V : Type}

section Buckets

variable [DecidableEq K]

/-- Equal keys stand next to each other. -/
def Grouped : List (K × V) → Prop
  | [] => True
  | e :: l => Grouped l ∧ (e.1 ∈ l.map Prod.fst → l.head?.map Prod.fst = some e.1)

theorem insertAfterRun_head (p : K × V) (l : List (K × V)) :
    (insertAfterRun p l).head?.map Prod.fst = some p.1 := by
  cases l with
  | nil => rfl
  | cons q l => by_cases hq : q.1 = p.1 <;> simp [insertAfterRun, hq]

theorem mem_insertAfterRun (p e : K × V) (l : List (K × V)) :
    e ∈ insertAfterRun p l ↔ e = p ∨ e ∈ l := by
  induction l with
  | nil => simp [insertAfterRun]
  | cons q l ih =>
    by_cases hq : q.1 = p.1
    · simp only [insertAfterRun, if_pos hq, List.mem_cons, ih]
      tauto
    · simp [insertAfterRun, hq]

theorem mem_insertBucket (p e : K × V) (l : List (K × V)) :
    e ∈ insertBucket p l ↔ e = p ∨ e ∈ l := by
  induction l with
  | nil => simp [insertBucket]
  | cons q l ih =>
    by_cases hq : q.1 = p.1
    · simp only [insertBucket, if_pos hq, List.mem_cons, mem_insertAfterRun]
      tauto
    · simp only [insertBucket, if_neg hq, List.mem_cons, ih]
      tauto

theorem grouped_insertAfterRun (p : K × V) (l : List (K × V)) (hl : Grouped l)
    (hrun : p.1 ∈ l.map Prod.fst → l.head?.map Prod.fst = some p.1) :
    Grouped (insertAfterRun p l) := by
  induction l with
  | nil => simp [insertAfterRun, Grouped]
  | cons q l ih =>
    by_cases hq : q.1 = p.1
    · simp only [insertAfterRun, if_pos hq]
      refine ⟨ih hl.1 (fun h => hq ▸ hl.2 (hq ▸ h)), fun _ => ?_⟩
      rw [insertAfterRun_head, hq]
    · simp only [insertAfterRun, if_neg hq]
      exact ⟨hl, hrun⟩

theorem grouped_insertBucket (p : K × V) (l : List (K × V)) (hl : Grouped l) :
    Grouped (insertBucket p l) := by
  induction l with
  | nil => simp [insertBucket, Grouped]
  | cons q l ih =>
    by_cases hq : q.1 = p.1
    · simp only [insertBucket, if_pos hq]
      refine ⟨grouped_insertAfterRun p l hl.1 (fun h => hq ▸ hl.2 (hq ▸ h)), fun _ => ?_⟩
      rw [insertAfterRun_head, hq]
    · simp only [insertBucket, if_neg hq]
      refine ⟨ih hl.1, fun h => ?_⟩
      have hmem : q.1 ∈ l.map Prod.fst := by
        obtain ⟨e, he, hek⟩ := List.mem_map.mp h
        rcases (mem_insertBucket p e l).mp he with rfl | he
        · exact absurd hek.symm hq
        · exact List.mem_map.mpr ⟨e, he, hek⟩
      -- the run of `q` goes on in `l`, so the insertion point is further back
      obtain ⟨q', l, rfl⟩ :=
        List.exists_cons_of_ne_nil (List.ne_nil_of_mem (List.mem_map.mp hmem).choose_spec.1)
      have hq' : q'.1 = q.1 := by simpa using hl.2 hmem
      by_cases hqp : q'.1 = p.1
      · exact absurd (hq'.symm.trans hqp) hq
      · simpa [insertBucket, hqp] using hq'

omit [DecidableEq K] in
theorem not_mem_of_grouped {e q : K × V} {l : List (K × V)} (hl : Grouped (e :: q :: l))
    (hq : q.1 ≠ e.1) : e.1 ∉ (q :: l).map Prod.fst := by
  intro h
  exact hq (by simpa using hl.2 h)

theorem filter_eq_nil_of_not_mem {k : K} {l : List (K × V)} (hk : k ∉ l.map Prod.fst) :
    l.filter (fun e => e.1 = k) = [] := by
  rw [List.filter_eq_nil_iff]
  intro e he hek
  exact hk (List.mem_map.mpr ⟨e, he, by simpa using hek⟩)

theorem filter_insertAfterRun (p : K × V) (k : K) (l : List (K × V))
    (hl : Grouped (p :: l)) :
    (insertAfterRun p l).filter (fun e => e.1 = k) =
      l.filter (fun e => e.1 = k) ++ if p.1 = k then [p] else [] := by
  induction l with
  | nil => by_cases hk : p.1 = k <;> simp [insertAfterRun, hk]
  | cons q l ih =>
    by_cases hq : q.1 = p.1
    · have hg : Grouped (p :: l) := ⟨hl.1.1, fun h => hq ▸ hl.1.2 (hq ▸ h)⟩
      simp only [insertAfterRun, if_pos hq, List.filter_cons, ih hg]
      split_ifs <;> simp
    · simp only [insertAfterRun, if_neg hq]
      by_cases hk : p.1 = k
      · have hnone : (q :: l).filter (fun e => e.1 = k) = [] :=
          filter_eq_nil_of_not_mem (hk ▸ not_mem_of_grouped hl hq)
        rw [List.filter_cons_of_pos (by simpa using hk), hnone, if_pos hk]
        rfl
      · rw [List.filter_cons_of_neg (by simpa using hk), if_neg hk, List.append_nil]

theorem filter_insertBucket (p : K × V) (k : K) (l : List (K × V)) (hl : Grouped l) :
    (insertBucket p l).filter (fun e => e.1 = k) =
      l.filter (fun e => e.1 = k) ++ if p.1 = k then [p] else [] := by
  induction l with
  | nil => by_cases hk : p.1 = k <;> simp [insertBucket, hk]
  | cons q l ih =>
    by_cases hq : q.1 = p.1
    · have hg : Grouped (p :: l) := ⟨hl.1, fun h => hq ▸ hl.2 (hq ▸ h)⟩
      simp only [insertBucket, if_pos hq, List.filter_cons, filter_insertAfterRun p k l hg]
      split_ifs <;> simp
    · simp only [insertBucket, if_neg hq, List.filter_cons, ih hl.1]
      split_ifs <;> simp

omit [DecidableEq K] in
theorem grouped_eraseP (q : K × V → Bool) (l : List (K × V)) (hl : Grouped l) :
    Grouped (l.eraseP q) := by
  induction l with
  | nil => exact hl
  | cons e l ih =>
    by_cases he : q e = true
    · simpa [List.eraseP_cons_of_pos he] using hl.1
    rw [List.eraseP_cons_of_neg he]
    refine ⟨ih hl.1, fun h => ?_⟩
    have hsub : (l.eraseP q).map Prod.fst ⊆ l.map Prod.fst :=
      ((List.eraseP_sublist (p := q) (l := l)).map Prod.fst).subset
    have hhead := hl.2 (hsub h)
    cases l with
    | nil => simp at h
    | cons e' l =>
      have he' : e'.1 = e.1 := by simpa using hhead
      by_cases hq : q e' = true
      · rw [List.eraseP_cons_of_pos hq] at h ⊢
        rw [← he'] at h ⊢
        exact hl.1.2 h
      · rw [List.eraseP_cons_of_neg hq]
        simpa using he'

theorem grouped_filter_ne (k : K) (l : List (K × V)) (hl : Grouped l) :
    Grouped (l.filter (fun e => e.1 ≠ k)) := by
  induction l with
  | nil => exact hl
  | cons e l ih =>
    by_cases he : e.1 = k
    · simpa [he] using ih hl.1
    rw [List.filter_cons_of_pos (by simpa using he)]
    refine ⟨ih hl.1, fun h => ?_⟩
    have hsub : (l.filter (fun e => e.1 ≠ k)).map Prod.fst ⊆ l.map Prod.fst :=
      (List.filter_sublist.map Prod.fst).subset
    have hhead := hl.2 (hsub h)
    cases l with
    | nil => simp at h
    | cons e' l =>
      have he' : e'.1 = e.1 := by simpa using hhead
      have hk' : e'.1 ≠ k := fun h => he (he'.symm.trans h)
      rw [List.filter_cons_of_pos (by simpa using hk')]
      simpa using he'

theorem map_fst_updateBucket (k : K) (f : V → V) (l : List (K × V)) :
    (updateBucket k f l).map Prod.fst = l.map Prod.fst := by
  induction l with
  | nil => rfl
  | cons e l ih => by_cases he : e.1 = k <;> simp [updateBucket, he, ih]

omit [DecidableEq K] in
theorem grouped_of_map_fst {W : Type} {l : List (K × V)} {l' : List (K × W)}
    (h : l'.map Prod.fst = l.map Prod.fst) (hl : Grouped l) : Grouped l' := by
  induction l' generalizing l with
  | nil => trivial
  | cons e' l' ih =>
    cases l with
    | nil => simp at h
    | cons e l =>
      simp only [List.map_cons, List.cons.injEq] at h
      refine ⟨ih h.2 hl.1, ?_⟩
      rw [h.2, h.1, ← List.head?_map, h.2, List.head?_map]
      exact hl.2

theorem filter_updateBucket (k k' : K) (f : V → V) (l : List (K × V)) :
    ((updateBucket k f l).filter (fun e => e.1 = k')).map Prod.snd =
      if k = k' then ((l.filter (fun e => e.1 = k')).map Prod.snd).modifyHead f
      else (l.filter (fun e => e.1 = k')).map Prod.snd := by
  induction l with
  | nil => simp [updateBucket]
  | cons e l ih =>
    by_cases he : e.1 = k
    · subst he
      by_cases hk : e.1 = k' <;> simp [updateBucket, hk]
    · by_cases hk : e.1 = k'
      · subst hk
        simp [updateBucket, he, Ne.symm he, ih]
      · simp [updateBucket, he, hk, ih]

theorem mem_updateBucket {k : K} {f : V → V} {l : List (K × V)} {e : K × V}
    (he : e ∈ updateBucket k f l) : e ∈ l ∨ ∃ v, (k, v) ∈ l ∧ e = (k, f v) := by
  induction l with
  | nil => simp [updateBucket] at he
  | cons q l ih =>
    by_cases hq : q.1 = k
    · simp only [updateBucket, if_pos hq, List.mem_cons] at he
      rcases he with rfl | he
      · exact Or.inr ⟨q.2, by simp [← hq], by rw [hq]⟩
      · exact Or.inl (by simp [he])
    · simp only [updateBucket, if_neg hq, List.mem_cons] at he
      rcases he with rfl | he
      · exact Or.inl (by simp)
      · rcases ih he with h | ⟨v, hv, rfl⟩
        · exact Or.inl (by simp [h])
        · exact Or.inr ⟨v, by simp [hv], rfl⟩

theorem takeWhile_eq_filter_of_grouped (e : K × V) (l : List (K × V)) (hl : Grouped (e :: l)) :
    l.takeWhile (fun x => x.1 = e.1) = l.filter (fun x => x.1 = e.1) := by
  induction l generalizing e with
  | nil => rfl
  | cons q l ih =>
    by_cases hq : q.1 = e.1
    · have ht := ih q hl.1
      rw [hq] at ht
      rw [List.takeWhile_cons_of_pos (by simpa using hq),
        List.filter_cons_of_pos (by simpa using hq), ht]
    · rw [List.takeWhile_cons_of_neg (by simpa using hq),
        filter_eq_nil_of_not_mem (not_mem_of_grouped hl hq)]

/-- On a grouped bucket, the run that `equal_range` walks holds all entries of the key. -/
theorem takeWhile_dropWhile_eq_filter (k : K) (l : List (K × V)) (hl : Grouped l) :
    (l.dropWhile (fun e => e.1 ≠ k)).takeWhile (fun e => e.1 = k) =
      l.filter (fun e => e.1 = k) := by
  induction l with
  | nil => rfl
  | cons e l ih =>
    by_cases he : e.1 = k
    · subst he
      rw [List.dropWhile_cons_of_neg (by simp), List.takeWhile_cons_of_pos (by simp),
        List.filter_cons_of_pos (by simp), takeWhile_eq_filter_of_grouped e l hl]
    · rw [List.dropWhile_cons_of_pos (by simpa using he),
        List.filter_cons_of_neg (by simpa using he), ih hl.1]

end Buckets

theorem flatten_eq_getD {α : Type} (L : List (List α)) (i : ℕ)
    (h : ∀ j b, L[j]? = some b → j ≠ i → b = []) : L.flatten = L.getD i [] := by
  induction L generalizing i with
  | nil => simp
  | cons b L ih =>
    cases i with
    | zero =>
      have hL : L.flatten = [] := by
        rw [List.flatten_eq_nil_iff]
        intro b' hb'
        obtain ⟨j, hj⟩ := List.getElem?_of_mem hb'
        exact h (j + 1) b' (by simpa using hj) (by omega)
      simp [hL]
    | succ i =>
      have hb : b = [] := h 0 b rfl (by omega)
      rw [List.flatten_cons, hb, List.nil_append, List.getD_cons_succ]
      exact ih i (fun j b' hj hne => h (j + 1) b' (by simpa using hj) (by omega))

end HashMap
end Haggle
