import Haggle.MemoryCompare
import Haggle.Printed

/-!
# The buffer of a string

A `haggle::String` points to a block of memory and knows how large it is and how many characters of
it are in use. Shortening a string leaves the old characters where they are, behind the terminator.
-/

namespace Haggle

structure StringBuffer where
  /-- The memory from the pointer to the end of its block. -/
  s : Bytes
  allocLen : ℕ
  slen : ℕ
deriving DecidableEq

/-- `strlen`; none where no terminator is in the block. -/
def strlen (m : Bytes) : Option ℕ := if 0 ∈ m then some (cStr m).length else none

namespace StringBuffer

/-- A number in a `size_t`. -/
def size (n : ℕ) : ℕ := n % 2 ^ 64

/-- The largest position, which stands for none. -/
def npos : ℕ := 2 ^ 64 - 1

/-- The string that all empty strings share before something is assigned to them: the pointer is
that of a static character. -/
def shared : StringBuffer := ⟨[0], 0, 0⟩

/-- The representation of a sequence of characters. -/
structure Represents (t : StringBuffer) (b : Bytes) : Prop where
  noNul : 0 ∉ b
  slen : t.slen = b.length
  chars : ∃ rest, t.s = b ++ 0 :: rest
  capacity : t = shared ∨ b.length + 1 ≤ t.allocLen ∧ t.s.length = t.allocLen
  small : t.allocLen < 2 ^ 64

section Represents

variable {t : StringBuffer} {b c m rest : Bytes}

theorem represents_shared : Represents shared [] where
  noNul := List.not_mem_nil
  slen := rfl
  chars := ⟨[], rfl⟩
  capacity := .inl rfl
  small := by norm_num [shared]

theorem Represents.length_lt (h : t.Represents b) : b.length + 1 < 2 ^ 64 := by
  rcases h.capacity with rfl | ⟨hle, -⟩
  · have hlen : b.length = 0 := h.slen.symm
    omega
  · exact lt_of_le_of_lt hle h.small

theorem cStr_text (hb : 0 ∉ b) (rest : Bytes) : cStr (b ++ 0 :: rest) = b := by
  rw [cStr, List.takeWhile_append_of_pos]
  · simp
  · intro a ha
    have hne : a ≠ 0 := fun h => hb (h ▸ ha)
    simpa using hne

theorem strlen_text (hb : 0 ∉ b) (rest : Bytes) : strlen (b ++ 0 :: rest) = some b.length := by
  rw [strlen, if_pos (by simp), cStr_text hb]

theorem Represents.strlen_eq (h : t.Represents b) : strlen t.s = some b.length := by
  obtain ⟨rest, hrest⟩ := h.chars
  rw [hrest, strlen_text h.noNul]

theorem Represents.unique (h : t.Represents b) (h' : t.Represents c) : b = c := by
  obtain ⟨rest, hrest⟩ := h.chars
  obtain ⟨rest', hrest'⟩ := h'.chars
  rw [← cStr_text h.noNul rest, ← hrest, hrest', cStr_text h'.noNul]

end Represents

end StringBuffer
end Haggle
