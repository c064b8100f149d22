import Haggle.HashMapEntries
import Mathlib.Data.List.Pairwise

/-!
# The iteration order of a hash multimap

Iteration goes through the buckets in the order of the table and through each bucket in the order of
its chain. Which bucket a key is in depends on how large the table has become, and the chain on the
order of the insertions, so maps with the same entries need not iterate alike.
-/

namespace Haggle
namespace HashMap

variable {K V : Type} [Hash K]

/-- `e` comes before `f` in the table. -/
def Before (m : HashMap K V) (e f : K × V) : Prop :=
  m.getIndex e.1 < m.getIndex f.1 ∨ m.getIndex e.1 = m.getIndex f.1 ∧ [e, f].Sublist (m.bucket e.1)

/-- The tables put their entries into the same order. -/
def SameOrder (m m' : HashMap K V) : Prop :=
  ∀ e ∈ m.toList, ∀ f ∈ m.toList, e ≠ f → (m.Before e f ↔ m'.Before e f)

variable {m m' : HashMap K V}

theorem not_pair_sublist_swap {α : Type} {l : List α} (hl : l.Nodup) {a b : α}
    (hab : [a, b].Sublist l) (hba : [b, a].Sublist l) : False := by
  induction l with
  | nil => simp at hab
  | cons c l ih =>
    obtain ⟨hc, hl⟩ := List.nodup_cons.mp hl
    rcases List.sublist_cons_iff.mp hab with htail | ⟨r, hr, hsub⟩
    · rcases List.sublist_cons_iff.mp hba with htail' | ⟨r, hr, -⟩
      · exact ih hl htail htail'
      · obtain ⟨rfl, rfl⟩ := List.cons.inj hr
        exact hc (htail.subset (by simp))
    · obtain ⟨rfl, rfl⟩ := List.cons.inj hr
      rcases List.sublist_cons_iff.mp hba with htail | ⟨r, hr', -⟩
      · exact hc (htail.subset (by simp))
      · obtain ⟨rfl, rfl⟩ := List.cons.inj hr'
        exact hc (hsub.subset (by simp))

theorem pairwise_before (hm : m.WF) : m.toList.Pairwise m.Before := by
  rw [toList, List.pairwise_flatten]
  constructor
  · intro b hb
    obtain ⟨i, hi⟩ := List.getElem?_of_mem hb
    rw [List.pairwise_iff_forall_sublist]
    intro e f hsub
    have he := hm.placed i b hi e (hsub.subset (by simp))
    have hf := hm.placed i b hi f (hsub.subset (by simp))
    refine .inr ⟨he.trans hf.symm, ?_⟩
    rw [bucket, he, List.getD_eq_getElem?_getD, hi]
    exact hsub
  · rw [List.pairwise_iff_getElem]
    intro i j hi hj hij e he f hf
    left
    rw [hm.placed i _ (List.getElem?_eq_getElem hi) e he,
      hm.placed j _ (List.getElem?_eq_getElem hj) f hf]
    exact hij

theorem nodup_bucket (hd : m.toList.Nodup) (k : K) : (m.bucket k).Nodup := by
  rw [bucket, List.getD_eq_getElem?_getD]
  cases hb : m.table[m.getIndex k]? with
  | none => exact List.nodup_nil
  | some b =>
    rw [toList, List.Nodup, List.pairwise_flatten] at hd
    exact hd.1 b (List.mem_of_getElem? hb)

theorem before_asymm (hd : m.toList.Nodup) {e f : K × V} (hef : m.Before e f)
    (hfe : m.Before f e) : False := by
  rcases hef with hlt | ⟨heq, hsub⟩ <;> rcases hfe with hlt' | ⟨heq', hsub'⟩
  · omega
  · omega
  · omega
  · have hbucket : m.bucket f.1 = m.bucket e.1 := by rw [bucket, bucket, heq]
    rw [hbucket] at hsub'
    exact not_pair_sublist_swap (nodup_bucket hd e.1) hsub hsub'

theorem pair_sublist_or {α : Type} {l : List α} {a b : α} (ha : a ∈ l) (hb : b ∈ l) (hne : a ≠ b) :
    [a, b].Sublist l ∨ [b, a].Sublist l := by
  induction l with
  | nil => simp at ha
  | cons c l ih =>
    rcases List.mem_cons.mp ha with rfl | ha'
    · have hb' : b ∈ l := (List.mem_cons.mp hb).resolve_left hne.symm
      exact .inl ((List.singleton_sublist.mpr hb').cons_cons a)
    · rcases List.mem_cons.mp hb with rfl | hb'
      · exact .inr ((List.singleton_sublist.mpr ha').cons_cons b)
      · exact (ih ha' hb').imp (List.Sublist.cons c) (List.Sublist.cons c)

/-- The order of the table is the order of the iteration. -/
theorem before_iff_sublist (hm : m.WF) (hd : m.toList.Nodup) {e f : K × V} (he : e ∈ m.toList)
    (hf : f ∈ m.toList) (hne : e ≠ f) : m.Before e f ↔ [e, f].Sublist m.toList := by
  have hpair : ∀ {e f}, [e, f].Sublist m.toList → m.Before e f :=
    List.pairwise_iff_forall_sublist.mp (pairwise_before hm)
  constructor
  · intro hef
    apply (pair_sublist_or he hf hne).resolve_right
    intro hsub
    exact before_asymm hd hef (hpair hsub)
  · exact hpair

/-- Tables with the same entries iterate alike exactly when they put them into the same order. -/
theorem sameOrder_iff (hm : m.WF) (hm' : m'.WF) (hd : m.toList.Nodup)
    (hperm : m.toList.Perm m'.toList) : SameOrder m m' ↔ m.toList = m'.toList := by
  have hd' : m'.toList.Nodup := hperm.nodup_iff.mp hd
  constructor
  · intro ho
    apply List.Perm.eq_of_pairwise _ (pairwise_before hm) _ hperm
    · intro e f _ _ hef hfe
      exact (before_asymm hd hef hfe).elim
    · apply ((pairwise_before hm').and hd').imp_of_mem
      intro e f he hf hef
      exact (ho e (hperm.mem_iff.mpr he) f (hperm.mem_iff.mpr hf) hef.2).mpr hef.1
  · intro heq e he f hf hne
    rw [before_iff_sublist hm hd he hf hne,
      before_iff_sublist hm' hd' (heq ▸ he) (heq ▸ hf) hne, heq]

/-- Where no two entries share a bucket, only the number of buckets counts. -/
theorem sameOrder_of_spread (hchar : m'.plainChar = m.plainChar)
    (hlen : m'.table.length = m.table.length)
    (hspread : m.toList.Pairwise fun e f => m.getIndex e.1 ≠ m.getIndex f.1) :
    SameOrder m m' := by
  intro e he f hf hne
  have hindex : ∀ k, m'.getIndex k = m.getIndex k := fun k => by rw [getIndex, getIndex, hchar, hlen]
  have hsymm : Std.Symm fun e f : K × V => m.getIndex e.1 ≠ m.getIndex f.1 := ⟨fun _ _ h => h.symm⟩
  have hef : m.getIndex e.1 ≠ m.getIndex f.1 := hspread.forall he hf hne
  simp only [Before, hindex, hef, false_and, or_false]

end HashMap
end Haggle
