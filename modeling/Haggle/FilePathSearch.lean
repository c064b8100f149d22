import Haggle.PutData
import Mathlib.Data.List.Perm.Subperm

/-!
# The path of a received file

`createFilePath` tries the file name and then numbered variants of it. The search ends at a path
that cannot be opened for reading, since it can try more paths than there are files. Such a path can
still be that of a file or a directory without the permission to read it.
-/

namespace Haggle

theorem decimal_injective : Function.Injective decimal := by
  intro i j h
  rw [← digitsValue_decimal i, ← digitsValue_decimal j, h]

namespace DataObject

variable {fs : FileSystem} {o : DataObject}

theorem numberedPath_injective (o : DataObject) : Function.Injective o.numberedPath := by
  intro i j h
  unfold numberedPath at h
  exact decimal_injective (List.append_cancel_left
    (List.append_cancel_right (List.append_cancel_right h)))

/-- The number `i` is tried: all numbers before it are taken. -/
def Tried (fs : FileSystem) (o : DataObject) (i : ℕ) : Prop :=
  1 ≤ i ∧ ∀ k, 1 ≤ k → k < i → fs.canRead (o.numberedPath k) = true

theorem searchPath_spec (fs : FileSystem) (o : DataObject) (fuel i : ℕ) :
    i ≤ searchPath fs o fuel i ∧
      (∀ k, i ≤ k → k < searchPath fs o fuel i → fs.canRead (o.numberedPath k) = true) ∧
      (fs.canRead (o.numberedPath (searchPath fs o fuel i)) = true →
        searchPath fs o fuel i = i + fuel) := by
  induction fuel generalizing i with
  | zero => exact ⟨le_rfl, fun k hk hlt => absurd hlt (by rw [searchPath]; omega), fun _ => rfl⟩
  | succ fuel ih =>
    rw [searchPath]
    split_ifs with hi
    · obtain ⟨hle, htaken, hend⟩ := ih (i + 1)
      refine ⟨by omega, fun k hk hlt => ?_, fun h => by rw [hend h]; omega⟩
      rcases Nat.eq_or_lt_of_le hk with rfl | hk
      · exact hi
      · exact htaken k hk hlt
    · exact ⟨le_rfl, fun k hk hlt => absurd hlt (by omega), fun h => absurd h hi⟩

theorem exists_free (fs : FileSystem) (o : DataObject) :
    ∃ k, 1 ≤ k ∧ k ≤ fs.files.length + 1 ∧ fs.canRead (o.numberedPath k) = false := by
  by_contra hall
  push Not at hall
  have hsub : (List.range' 1 (fs.files.length + 1)).map o.numberedPath ⊆ fs.files.map Prod.fst := by
    intro path hpath
    obtain ⟨k, hk, rfl⟩ := List.mem_map.mp hpath
    rw [List.mem_range'_1] at hk
    have hread := hall k hk.1 (by omega)
    by_contra hnot
    exact FileSystem.taken_of_canRead (by simpa using hread) (AssocList.get_eq_none_iff.mpr hnot)
  have hnodup : ((List.range' 1 (fs.files.length + 1)).map o.numberedPath).Nodup :=
    List.Nodup.map o.numberedPath_injective List.nodup_range'
  have hlen := (List.subperm_of_subset hnodup hsub).length_le
  rw [List.length_map, List.length_range', List.length_map] at hlen
  omega

/-- The search ends at the first free number. -/
theorem searchPath_free (fs : FileSystem) (o : DataObject) :
    Tried fs o (searchPath fs o fs.files.length 1) ∧
      fs.canRead (o.numberedPath (searchPath fs o fs.files.length 1)) = false := by
  obtain ⟨hle, htaken, hend⟩ := searchPath_spec fs o fs.files.length 1
  refine ⟨⟨hle, htaken⟩, ?_⟩
  by_contra hread
  rw [Bool.not_eq_false] at hread
  have hmax := hend hread
  obtain ⟨k, hk, hk', hfree⟩ := exists_free fs o
  rcases Nat.eq_or_lt_of_le (show k ≤ searchPath fs o fs.files.length 1 by omega) with rfl | hlt
  · rw [hread] at hfree
    cases hfree
  · rw [htaken k hk hlt] at hfree
    cases hfree

end DataObject
end Haggle
