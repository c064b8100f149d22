import Haggle.FilePathSearch

/-!
# Paths of received files

The paths that `createFilePath` composes from the storage directory and the name in a header, and
which headers make it leave the directory.
-/

namespace Haggle

/-- A name of a directory entry. -/
def SafeName (name : Bytes) : Prop :=
  name ≠ [] ∧ 47 ∉ name ∧ name ≠ lit "." ∧ name ≠ lit ".."

/-- A path directly inside a directory. -/
def Inside (dir path : Bytes) : Prop := ∃ name, SafeName name ∧ path = dir ++ lit "/" ++ name

namespace DataObject

/-- The paths that `createFilePath` composes. -/
def Composed (fs : FileSystem) (o : DataObject) (path : Bytes) : Prop :=
  path = o.firstPath ∨
    (fs.canRead o.firstPath = true ∧ ∃ i, Tried fs o i ∧ path = o.numberedPath i)

/-- The destructor takes nothing away that was there before. -/
def Spared (fs : FileSystem) (path : Bytes) : Prop := fs.Taken path → fs.removable path = false

/-- A path that may be chosen: it is new and `plain`, if it can be opened for writing; otherwise
what is there stays. -/
def Choosable (fs : FileSystem) (path : Bytes) (plain : Prop) : Prop :=
  if fs.accepts path 0 then plain ∧ ¬fs.Taken path else Spared fs path

/-- What a header may say. Without a payload it names no file that would be removed. With a payload,
if there is no file to be read under the file name, it is the path that is chosen; otherwise the
numbered paths that are tried fit into the buffer, and the last of them is chosen. -/
def Harmless (fs : FileSystem) (o : DataObject) : Prop :=
  if o.dataLen = 0 then o.filepath = [] ∨ Spared fs o.filepath
  else if fs.canRead o.firstPath then
    ∀ i, Tried fs o i → (o.numberedPath i).length < pathLength ∧
      (fs.canRead (o.numberedPath i) = false → Choosable fs (o.numberedPath i) (47 ∉ o.filename))
  else
    Choosable fs o.firstPath (SafeName (o.filename.take (pathLength - 2 - o.storagepath.length)))

theorem not_spared_iff {fs : FileSystem} {path : Bytes} :
    ¬Spared fs path ↔ fs.Taken path ∧ fs.removable path = true := by
  rw [Spared, Classical.not_imp, Bool.not_eq_false]

theorem Spared.log_remove {fs : FileSystem} {path : Bytes} (h : Spared fs path) :
    (fs.remove path).log = fs.log := by
  rw [FileSystem.log_remove, if_neg]
  rintro ⟨htaken, hremovable⟩
  rw [h htaken] at hremovable
  cases hremovable

theorem inside_iff {dir name : Bytes} : Inside dir (dir ++ lit "/" ++ name) ↔ SafeName name := by
  constructor
  · rintro ⟨name', hsafe, heq⟩
    rwa [List.append_cancel_left heq]
  · exact fun h => ⟨name, h, rfl⟩

theorem not_inside_of_length {dir path : Bytes} (h : path.length ≤ dir.length + 1) :
    ¬Inside dir path := by
  rintro ⟨name, ⟨hne, -⟩, rfl⟩
  have hpos := List.length_pos_of_ne_nil hne
  have hslash : (lit "/").length = 1 := by decide
  simp only [List.length_append] at h
  omega

/-- The first path is inside the storage directory if what is left of the name is a plain name. -/
theorem inside_firstPath_iff (o : DataObject) :
    Inside o.storagepath o.firstPath ↔
      SafeName (o.filename.take (pathLength - 2 - o.storagepath.length)) := by
  have hslash : (o.storagepath ++ lit "/").length = o.storagepath.length + 1 := by
    rw [List.length_append]
    rfl
  rw [firstPath, List.take_append, hslash]
  by_cases hroom : o.storagepath.length + 1 ≤ pathLength - 1
  · rw [List.take_of_length_le (by omega), inside_iff]
    rw [show pathLength - 1 - (o.storagepath.length + 1) = pathLength - 2 - o.storagepath.length by
      omega]
  · have hzero : pathLength - 2 - o.storagepath.length = 0 := by omega
    have hzero' : pathLength - 1 - (o.storagepath.length + 1) = 0 := by omega
    rw [hzero, hzero', List.take_zero, List.append_nil]
    constructor
    · intro h
      refine absurd h (not_inside_of_length ?_)
      rw [List.length_take]
      omega
    · rintro ⟨hne, -⟩
      exact absurd rfl hne

/-- A numbered path is inside if the file name has no separator. -/
theorem inside_numberedPath_iff (o : DataObject) (i : ℕ) :
    Inside o.storagepath (o.numberedPath i) ↔ 47 ∉ o.filename := by
  have hassoc : o.numberedPath i =
      o.storagepath ++ lit "/" ++ (decimal i ++ (lit "-" ++ o.filename)) := by
    simp [numberedPath]
  have hdash : (45 : UInt8) ∈ decimal i ++ (lit "-" ++ o.filename) :=
    List.mem_append_right _ (List.mem_append_left _ (by decide))
  have hdigit : (47 : UInt8) ∉ decimal i := by
    intro h
    exact absurd (isDigit_of_mem_decimal h) (by decide)
  rw [hassoc, inside_iff]
  constructor
  · rintro ⟨-, hsep, -⟩ hmem
    exact hsep (List.mem_append_right _ (List.mem_append_right _ hmem))
  · intro hname
    refine ⟨List.ne_nil_of_mem hdash, fun hmem => ?_, fun h => ?_, fun h => ?_⟩
    · rcases List.mem_append.mp hmem with h | h
      · exact hdigit h
      · rcases List.mem_append.mp h with h | h
        · exact absurd h (by decide)
        · exact hname h
    · rw [h] at hdash
      exact absurd hdash (by decide)
    · rw [h] at hdash
      exact absurd hdash (by decide)

theorem length_firstPath_lt (o : DataObject) : o.firstPath.length < pathLength := by
  have := List.length_take_le (pathLength - 1) (o.storagepath ++ lit "/" ++ o.filename)
  have hpos : 0 < pathLength := by decide
  rw [firstPath]
  omega

/-- The first free number is the only one that is tried and free. -/
theorem Tried.eq_of_free {fs : FileSystem} {o : DataObject} {i j : ℕ} (hi : Tried fs o i)
    (hj : Tried fs o j) (hi' : fs.canRead (o.numberedPath i) = false)
    (hj' : fs.canRead (o.numberedPath j) = false) : i = j := by
  rcases Nat.lt_trichotomy i j with hlt | heq | hlt
  · rw [hj.2 i hi.1 hlt] at hi'
    cases hi'
  · exact heq
  · rw [hi.2 j hj.1 hlt] at hj'
    cases hj'

/-- In terms of the path that is chosen. -/
theorem harmless_iff (fs : FileSystem) {o : DataObject} (h0 : o.dataLen ≠ 0) :
    Harmless fs o ↔ (∀ path, o.Composed fs path → path.length < pathLength) ∧
      Choosable fs (o.createFilePath fs).filepath
        (Inside o.storagepath (o.createFilePath fs).filepath) := by
  rw [Harmless, if_neg h0, createFilePath]
  dsimp only
  by_cases hread : fs.canRead o.firstPath = true
  · simp only [if_pos hread, inside_numberedPath_iff]
    obtain ⟨htried, hfree⟩ := searchPath_free fs o
    constructor
    · intro h
      refine ⟨?_, (h _ htried).2 hfree⟩
      rintro path (rfl | ⟨-, i, hi, rfl⟩)
      · exact o.length_firstPath_lt
      · exact (h i hi).1
    · rintro ⟨hpaths, hsafe⟩ i hi
      refine ⟨hpaths _ (Or.inr ⟨hread, i, hi, rfl⟩), fun hi' => ?_⟩
      rwa [hi.eq_of_free htried hi' hfree]
  · simp only [if_neg hread, inside_firstPath_iff]
    constructor
    · intro h
      refine ⟨?_, h⟩
      rintro path (rfl | ⟨h, -⟩)
      · exact o.length_firstPath_lt
      · exact absurd h hread
    · exact fun h => h.2

theorem filepath_ne_nil (fs : FileSystem) (o : DataObject) :
    (o.createFilePath fs).filepath ≠ [] := by
  have hslash : (47 : UInt8) ∈ o.storagepath ++ lit "/" := List.mem_append_right _ (by decide)
  rw [createFilePath]
  dsimp only
  split_ifs
  · rw [numberedPath, List.append_assoc, List.append_assoc]
    exact List.append_ne_nil_of_left_ne_nil (List.ne_nil_of_mem hslash) _
  · rw [firstPath, Ne, List.take_eq_nil_iff, not_or]
    exact ⟨by decide, List.append_ne_nil_of_left_ne_nil (List.ne_nil_of_mem hslash) _⟩

end DataObject
end Haggle
