import Haggle.AssocList
import Haggle.Bytes

/-!
# Files

What the kernel does with files: it looks whether a path can be opened for reading, opens a path for
writing, appends to it and removes it. Paths are compared as the strings they are. The log records
every file that was opened for writing or removed.
-/

namespace Haggle

inductive FileOp where
  | openWrite (path : Bytes)
  | remove (path : Bytes)
deriving DecidableEq

def FileOp.path : FileOp → Bytes
  | openWrite p => p
  | remove p => p

/-- `files` lists the paths that name something, each in the spelling it is used in, with the bytes
that are there; a directory is listed as well, with no bytes. What a path names can be opened for
reading if it is `readable`, and removed if it is `removable` (a directory that is not empty is
not). `accepts path n` says that the medium lets the file at `path` be opened for writing and reach
the size `n`. -/
structure FileSystem where
  files : List (Bytes × Bytes)
  readable : Bytes → Bool
  removable : Bytes → Bool
  accepts : Bytes → ℕ → Bool
  log : List FileOp

namespace FileSystem

def contents (fs : FileSystem) (path : Bytes) : Option Bytes := AssocList.get fs.files path

/-- Something has this path, whether it can be read or not. -/
def Taken (fs : FileSystem) (path : Bytes) : Prop := fs.contents path ≠ none

instance (fs : FileSystem) (path : Bytes) : Decidable (fs.Taken path) :=
  inferInstanceAs (Decidable (_ ≠ none))

/-- `fopen(path, "rb")`, with the bytes that can be read. -/
def read (fs : FileSystem) (path : Bytes) : Option Bytes :=
  if fs.readable path then fs.contents path else none

/-- `fopen(path, "rb") != NULL`. -/
def canRead (fs : FileSystem) (path : Bytes) : Bool := (fs.read path).isSome

/-- `fopen(path, "wb")`. -/
def openWrite (fs : FileSystem) (path : Bytes) : Option FileSystem :=
  if fs.accepts path 0 then
    some { fs with files := AssocList.set path [] fs.files, log := fs.log ++ [.openWrite path] }
  else none

/-- `fwrite(data, len, 1, fp) == 1` on a file opened at `path`. -/
def write (fs : FileSystem) (path data : Bytes) : Option FileSystem :=
  let old := (fs.contents path).getD []
  if fs.accepts path (old.length + data.length) then
    some { fs with files := AssocList.set path (old ++ data) fs.files }
  else none

/-- `remove(path)`, which does not ask whether the file can be read. -/
def remove (fs : FileSystem) (path : Bytes) : FileSystem :=
  if fs.Taken path ∧ fs.removable path = true then
    { fs with files := AssocList.remove path fs.files, log := fs.log ++ [.remove path] }
  else fs

theorem taken_of_canRead {fs : FileSystem} {path : Bytes} (h : fs.canRead path = true) :
    fs.Taken path := by
  unfold canRead read at h
  split_ifs at h
  · exact Option.isSome_iff_ne_none.mp h
  · cases h

theorem read_eq_some {fs : FileSystem} {path c : Bytes} (h : fs.read path = some c) :
    fs.contents path = some c := by
  unfold read at h
  split_ifs at h
  exact h

theorem openWrite_eq_some {fs fs' : FileSystem} {path : Bytes} (h : fs.openWrite path = some fs') :
    fs' = { fs with
      files := AssocList.set path [] fs.files, log := fs.log ++ [FileOp.openWrite path] } := by
  unfold openWrite at h
  split_ifs at h
  simpa using h.symm

theorem write_eq_some {fs fs' : FileSystem} {path data : Bytes}
    (h : fs.write path data = some fs') :
    fs' = { fs with
      files := AssocList.set path ((fs.contents path).getD [] ++ data) fs.files } := by
  unfold write at h
  dsimp only at h
  split_ifs at h
  simpa using h.symm

theorem log_remove (fs : FileSystem) (path : Bytes) :
    (fs.remove path).log =
      if fs.Taken path ∧ fs.removable path = true then fs.log ++ [FileOp.remove path]
      else fs.log := by
  unfold remove
  split_ifs <;> rfl

end FileSystem
end Haggle
