import Haggle.StringBuffer

/-!
# Writing to the buffer of a string

A buffer only grows, and what is new of it is zero. The functions of the C library copy into it: one
of them with the terminator, the other one without if the source is longer than what is asked for.
Where the two ranges overlap what they do is not defined.
-/

namespace Haggle
namespace StringBuffer

section Model

/-- A `const char *`: to memory of something else, or into the buffer of the string itself. -/
inductive Pointer
  | elsewhere (m : Bytes)
  | own (pos : ℕ)

/-- `alloc`, in which `realloc` does not fail. -/
def alloc (t : StringBuffer) (len : ℕ) : StringBuffer :=
  if len ≤ t.allocLen ∨ len = 0 then t
  else ⟨t.s.take t.slen ++ List.replicate (len - t.slen) 0, len, t.slen⟩

def Pointer.memory (t : StringBuffer) : Pointer → Bytes
  | .elsewhere m => m
  | .own pos => t.s.drop pos

/-- The shared empty string is not in a buffer. -/
def Pointer.resolve (t : StringBuffer) : Pointer → Pointer
  | .own pos => if t.allocLen = 0 then .elsewhere (t.s.drop pos) else .own pos
  | p => p

/-- The ranges of so many bytes from an offset of the buffer and from the pointer on. -/
def Pointer.Overlaps (off written read : ℕ) : Pointer → Prop
  | .elsewhere _ => False
  | .own pos => pos < off + written ∧ off < pos + read

instance (off written read : ℕ) : (p : Pointer) → Decidable (p.Overlaps off written read)
  | .elsewhere _ => inferInstanceAs (Decidable False)
  | .own _ => inferInstanceAs (Decidable (_ ∧ _))

/-- `alloc`, where a pointer is used afterwards, which may be to the buffer before. -/
def allocFor (t : StringBuffer) (p : Pointer) (len : ℕ) : Option StringBuffer :=
  match p with
  | .elsewhere _ => some (t.alloc len)
  | .own _ => if len ≤ t.allocLen ∨ len = 0 then some t else none

/-- Bytes are written from an offset on, which must be in the block. -/
def write (t : StringBuffer) (off : ℕ) (x : Bytes) : Option StringBuffer :=
  if off + x.length ≤ t.s.length then
    some { t with s := t.s.take off ++ x ++ t.s.drop (off + x.length) }
  else none

def strcpy (t : StringBuffer) (off : ℕ) (p : Pointer) : Option StringBuffer := do
  let n ← strlen (p.memory t)
  if p.Overlaps off (n + 1) (n + 1) then none
  else t.write off ((p.memory t).take (n + 1))

/-- What comes before a terminator is copied, and zeros to the full number. -/
def strncpy (t : StringBuffer) (off : ℕ) (p : Pointer) (n : ℕ) : Option StringBuffer :=
  let m := (p.memory t).take n
  let x := cStr m
  if m.length < n ∧ 0 ∉ m ∨ p.Overlaps off n (min n (x.length + 1)) then none
  else t.write off (x ++ List.replicate (n - x.length) 0)

/-- `String(const char *)`. -/
def new : Option Bytes → Option StringBuffer
  | none => some shared
  | some m => do
    let n ← strlen m
    let t ← strcpy (shared.alloc (size (n + 1))) 0 (.elsewhere m)
    let slen ← strlen t.s
    some { t with slen }

/-- `String(const char *, size_t)`. -/
def newUpTo : Option Bytes → ℕ → Option StringBuffer
  | none, _ => some shared
  | some m, n => do
    let len ← strlen m
    let n := if len < n then len else n
    let t ← strncpy (shared.alloc (size (n + 1))) 0 (.elsewhere m) n
    some { t with slen := n }

/-- `String(const String&)`. -/
def copy (str : StringBuffer) : Option StringBuffer := do
  let t ← strcpy (shared.alloc (size (str.slen + 1))) 0 (.elsewhere str.s)
  some { t with slen := str.slen }

/-- `operator=(char)`. -/
def assignChar (t : StringBuffer) (c : UInt8) : Option StringBuffer :=
  if c ≠ 0 then do
    let t ← (t.alloc 2).write 0 [c, 0]
    some { t with slen := 1 }
  else do
    let t ← (t.alloc 1).write 0 [0]
    some { t with slen := 0 }

/-- `String(char)`. -/
def newChar (c : UInt8) : Option StringBuffer := shared.assignChar c

/-- The pointer of a string that is an argument, which may be the string itself. -/
def pointer (self : Bool) (str : StringBuffer) : Pointer :=
  if self then .own 0 else .elsewhere str.s

/-- `operator=(const String&)`. -/
def assign (t : StringBuffer) (self : Bool) (str : StringBuffer) : Option StringBuffer := do
  let t ← strcpy (t.alloc (size (str.slen + 1))) 0 (pointer self str)
  some { t with slen := str.slen }

/-- `operator=(const char *)`. -/
def assignText (t : StringBuffer) : Option Pointer → Option StringBuffer
  | none => some t
  | some p => do
    let p := p.resolve t
    let n ← strlen (p.memory t)
    let t ← t.allocFor p (size (n + 1))
    let t ← strcpy t 0 p
    let slen ← strlen t.s
    some { t with slen }

/-- `append(const String&)`. -/
def append (t : StringBuffer) (self : Bool) (str : StringBuffer) : Option StringBuffer :=
  if str.slen = 0 then some t
  else do
    let t' ← strcpy (t.alloc (size (t.slen + str.slen + 1))) t.slen (pointer self str)
    some { t' with slen := size (t.slen + str.slen) }

/-- `append(const String&, size_t, size_t)`. -/
def appendRange (t : StringBuffer) (self : Bool) (str : StringBuffer) (pos n : ℕ) :
    Option StringBuffer :=
  if n = 0 ∨ str.slen = 0 ∨ str.slen ≤ size (pos + n) then some t
  else do
    let p : Pointer := if self then .own pos else .elsewhere (str.s.drop pos)
    let t' ← strncpy (t.alloc (size (t.slen + n + 1))) t.slen p n
    some { t' with slen := size (t.slen + n) }

/-- `append(const char *, size_t)`. -/
def appendUpTo (t : StringBuffer) : Option Pointer → ℕ → Option StringBuffer
  | none, _ => some t
  | some p, n =>
    if n = 0 then some t
    else do
      let p := p.resolve t
      let len ← strlen (p.memory t)
      if len < n then some t
      else do
        let t' ← t.allocFor p (size (t.slen + n + 1))
        let t' ← strncpy t' t.slen p n
        some { t' with slen := size (t.slen + n) }

/-- `append(const char *)`. -/
def appendText (t : StringBuffer) : Option Pointer → Option StringBuffer
  | none => some t
  | some p => do
    let p := p.resolve t
    let len ← strlen (p.memory t)
    if len = 0 then some t
    else do
      let t' ← t.allocFor p (size (t.slen + len + 1))
      let t' ← strcpy t' t.slen p
      let len ← strlen (p.memory t')
      some { t' with slen := size (t.slen + len) }

/-- The loop of `append(size_t, char)`, with the terminator behind it. -/
def fill (c : UInt8) : ℕ → StringBuffer → Option StringBuffer
  | 0, t => t.write t.slen [0]
  | n + 1, t => do
    let t ← t.write t.slen [c]
    fill c n { t with slen := size (t.slen + 1) }

/-- `append(size_t, char)`. -/
def appendChars (t : StringBuffer) (n : ℕ) (c : UInt8) : Option StringBuffer :=
  fill c n (t.alloc (size (t.slen + n + 1)))

def clear (t : StringBuffer) : Option StringBuffer :=
  if t.slen = 0 then some t
  else do
    let t ← t.write 0 [0]
    some { t with slen := 0 }

/-- The number of characters that `erase` moves, a difference of sizes in a `long`. -/
def cplen (slen pos n : ℕ) : ℕ :=
  let d := size (slen + 2 ^ 65 - pos - n)
  if d < 2 ^ 63 then d else 0

/-- `erase` inside the string. -/
def eraseInside (t : StringBuffer) (pos n : ℕ) : Option StringBuffer := do
  let k := cplen t.slen pos n
  let slen := size (t.slen + 2 ^ 64 - n)
  let t ← if 0 < k then strncpy t pos (.own (size (pos + n))) k else some t
  let t ← t.write slen [0]
  some { t with slen }

/-- `erase`. -/
def erase (t : StringBuffer) (pos n : ℕ) : Option StringBuffer :=
  if pos = 0 ∧ n = npos then t.clear
  else if t.slen ≤ pos then some t
  else if n = npos ∨ t.slen < size (pos + n) then do
    let t ← t.write pos [0]
    some { t with slen := pos }
  else t.eraseInside pos n

end Model

/-! ## What is in the buffer -/

section Buffers

variable {t t' : StringBuffer} {b c u v x y m rest : Bytes} {p : Pointer} {len n off : ℕ}

/-- The string has a buffer of its own, for at least so many bytes. -/
structure Room (t : StringBuffer) (b : Bytes) (len : ℕ) : Prop where
  noNul : 0 ∉ b
  slen : t.slen = b.length
  chars : ∃ rest, t.s = b ++ 0 :: rest
  block : t.s.length = t.allocLen
  room : len ≤ t.allocLen
  small : t.allocLen < 2 ^ 64

theorem represents_of_block (rest : Bytes) (hb : 0 ∉ b) (hslen : t.slen = b.length)
    (hs : t.s = b ++ 0 :: rest) (hblock : t.s.length = t.allocLen)
    (hsmall : t.allocLen < 2 ^ 64) : t.Represents b where
  noNul := hb
  slen := hslen
  chars := ⟨rest, hs⟩
  capacity := by
    refine .inr ⟨?_, hblock⟩
    rw [← hblock, hs, List.length_append, List.length_cons]
    omega
  small := hsmall

theorem Represents.room (h : t.Represents b) (hlen : len ≤ t.allocLen) (hpos : 0 < len) :
    Room t b len := by
  obtain rfl | ⟨-, hblock⟩ := h.capacity
  · exact absurd hlen (by simp [shared]; omega)
  · exact ⟨h.noNul, h.slen, h.chars, hblock, hlen, h.small⟩

theorem size_of_lt (hn : n < 2 ^ 64) : size n = n := Nat.mod_eq_of_lt hn

theorem alloc_of_le (hlen : len ≤ t.allocLen) : t.alloc len = t := if_pos (.inl hlen)

theorem alloc_of_lt (h : t.Represents b) (hlen : t.allocLen < len) : t.alloc len =
    ⟨b ++ List.replicate (len - b.length) 0, len, b.length⟩ := by
  obtain ⟨rest, hrest⟩ := h.chars
  unfold alloc
  rw [if_neg (by omega), h.slen, hrest, List.take_left]

theorem alloc_room (h : t.Represents b) (hpos : 0 < len) (hsmall : len < 2 ^ 64) :
    Room (t.alloc len) b len := by
  obtain hlen | hlen := Nat.lt_or_ge t.allocLen len
  · have hb : b.length < len := by
      obtain rfl | ⟨hle, -⟩ := h.capacity
      · exact h.slen ▸ hpos
      · omega
    rw [alloc_of_lt h hlen]
    refine ⟨h.noNul, rfl, ⟨List.replicate (len - b.length - 1) 0, ?_⟩, ?_, le_rfl, hsmall⟩
    · obtain ⟨k, hk⟩ : ∃ k, len - b.length = k + 1 := ⟨len - b.length - 1, by omega⟩
      simp only [hk, Nat.add_sub_cancel, List.replicate_succ]
    · simp only [List.length_append, List.length_replicate]
      omega
  · rw [alloc_of_le hlen]
    exact h.room hlen hpos

theorem write_eq (hs : t.s = u ++ v ++ y) (hx : x.length = v.length) :
    t.write u.length x = some { t with s := u ++ x ++ y } := by
  have htake : t.s.take u.length = u := by rw [hs, List.append_assoc, List.take_left]
  have hdrop : t.s.drop (u.length + x.length) = y := by
    rw [hs, hx, ← List.length_append, List.drop_left]
  unfold write
  rw [if_pos (by rw [hs, hx]; simp), htake, hdrop]

theorem strlen_memory (hc : 0 ∉ c) (hp : p.memory t = c ++ 0 :: rest) :
    strlen (p.memory t) = some c.length := by
  rw [hp, strlen_text hc]

theorem strcpy_eq (hc : 0 ∉ c) (hp : p.memory t = c ++ 0 :: rest)
    (hover : ¬ p.Overlaps off (c.length + 1) (c.length + 1)) :
    strcpy t off p = t.write off (c ++ [0]) := by
  unfold strcpy
  rw [strlen_memory hc hp, Option.bind_eq_bind, Option.bind_some, if_neg hover, hp,
    List.take_length_add_append]
  rfl

theorem strncpy_eq (hc : 0 ∉ c) (hp : p.memory t = c ++ rest)
    (hover : ¬ p.Overlaps off c.length c.length) :
    strncpy t off p c.length = t.write off c := by
  have htake : (p.memory t).take c.length = c := by rw [hp, List.take_left]
  have hstr : cStr c = c := cStr_eq hc
  have hmin : min c.length (c.length + 1) = c.length := min_eq_left (Nat.le_succ _)
  simp only [strncpy, htake, hstr, hmin, lt_irrefl, false_and, false_or, if_neg hover,
    Nat.sub_self, List.replicate_zero, List.append_nil]

/-- The characters with their terminator go behind those of the string. -/
theorem Room.append (h : Room t b (b.length + c.length + 1)) (hc : 0 ∉ c) :
    ∃ t', t.write b.length (c ++ [0]) = some t' ∧
      Represents { t' with slen := b.length + c.length } (b ++ c) := by
  obtain ⟨rest, hrest⟩ := h.chars
  have hlength : c.length ≤ rest.length := by
    have hroom := h.room
    rw [← h.block, hrest, List.length_append, List.length_cons] at hroom
    omega
  have hs : t.s = b ++ (0 :: rest.take c.length) ++ rest.drop c.length := by
    rw [hrest, List.append_assoc, List.cons_append, List.take_append_drop]
  have hwrite := write_eq (x := c ++ [0]) hs (by simp [List.length_take_of_le hlength])
  refine ⟨_, hwrite, represents_of_block (rest.drop c.length) ?_ ?_ ?_ ?_ h.small⟩
  · rw [List.mem_append, not_or]
    exact ⟨h.noNul, hc⟩
  · rw [List.length_append]
  · simp
  · rw [← h.block, hrest]
    simp only [List.length_append, List.length_cons, List.length_nil, List.length_drop]
    omega

/-- Without a terminator they do so where a zero is behind them. -/
theorem Room.append_chars (h : Room t b (b.length + c.length + 1)) (hc : 0 ∉ c)
    (hzero : t.s[b.length + c.length]? = some 0) :
    ∃ t', t.write b.length c = some t' ∧
      Represents { t' with slen := b.length + c.length } (b ++ c) := by
  obtain ⟨rest, hrest⟩ := h.chars
  obtain ⟨hlt, hget⟩ := List.getElem?_eq_some_iff.mp hzero
  have hdrop : t.s.drop (b.length + c.length) = 0 :: t.s.drop (b.length + c.length + 1) := by
    rw [List.drop_eq_getElem_cons hlt, hget]
  have hs : t.s = b ++ (t.s.drop b.length).take c.length ++
      0 :: t.s.drop (b.length + c.length + 1) := by
    rw [← hdrop, ← List.drop_drop, List.append_assoc, List.take_append_drop, hrest,
      List.drop_left]
  have hwrite := write_eq (x := c) hs (by
    rw [List.length_take_of_le]
    rw [List.length_drop]
    omega)
  refine ⟨_, hwrite, represents_of_block (t.s.drop (b.length + c.length + 1)) ?_ ?_ rfl ?_
    h.small⟩
  · rw [List.mem_append, not_or]
    exact ⟨h.noNul, hc⟩
  · rw [List.length_append]
  · simp only [List.length_append, List.length_cons, List.length_drop, ← h.block]
    omega

/-- The characters come in place of those of the string. -/
theorem Room.replace (h : Room t b (c.length + 1)) (hc : 0 ∉ c) :
    ∃ t' rest, t.write 0 (c ++ [0]) = some t' ∧ t'.s = c ++ 0 :: rest ∧
      Represents { t' with slen := c.length } c := by
  have hroom := h.room
  rw [← h.block] at hroom
  have hs : t.s = [] ++ t.s.take (c.length + 1) ++ t.s.drop (c.length + 1) := by
    rw [List.nil_append, List.take_append_drop]
  have hwrite := write_eq (x := c ++ [0]) hs (by simp [hroom])
  refine ⟨_, t.s.drop (c.length + 1), hwrite, by simp, represents_of_block
    (t.s.drop (c.length + 1)) hc rfl (by simp) ?_ h.small⟩
  simp only [List.length_append, List.length_cons, List.length_nil, List.length_drop, ← h.block]
  omega

/-- A zero is where the terminator comes to be when `n` characters are put behind the others. -/
def ZeroBehind (t : StringBuffer) (n : ℕ) : Prop :=
  t.allocLen < t.slen + n + 1 ∨ t.s[t.slen + n]? = some 0

theorem alloc_zero (h : t.Represents b) (hzero : t.ZeroBehind n) :
    (t.alloc (b.length + n + 1)).s[b.length + n]? = some 0 := by
  unfold ZeroBehind at hzero
  rw [h.slen] at hzero
  obtain hlen | hlen := Nat.lt_or_ge t.allocLen (b.length + n + 1)
  · rw [alloc_of_lt h hlen, List.getElem?_append_right (Nat.le_add_right _ _)]
    simp only [Nat.add_sub_cancel_left]
    exact List.getElem?_replicate_of_lt (by omega)
  · rw [alloc_of_le hlen]
    exact hzero.resolve_left (not_lt.mpr hlen)

/-- The characters behind a pointer. -/
def Pointer.chars (b : Bytes) : Pointer → Bytes
  | .elsewhere m => cStr m
  | .own pos => b.drop pos

/-- It points to a text in memory. -/
def Pointer.Valid (t : StringBuffer) : Pointer → Prop
  | .elsewhere m => 0 ∈ m ∧ m.length < 2 ^ 64
  | .own pos => pos ≤ t.slen

theorem text_split (hm : 0 ∈ m) : ∃ rest, m = cStr m ++ 0 :: rest ∧ 0 ∉ cStr m := by
  obtain ⟨a, rest, rfl, ha⟩ := List.eq_append_cons_of_mem hm
  rw [cStr_text ha]
  exact ⟨rest, rfl, ha⟩

theorem length_cStr_lt (hm : 0 ∈ m) : (cStr m).length < m.length := by
  obtain ⟨rest, hrest, -⟩ := text_split hm
  have hlen := congrArg List.length hrest
  rw [List.length_append, List.length_cons] at hlen
  omega

theorem memory_resolve (t : StringBuffer) (p : Pointer) :
    (p.resolve t).memory t = p.memory t := by
  cases p with
  | elsewhere m => rfl
  | own pos =>
    unfold Pointer.resolve
    split_ifs <;> rfl

theorem memory_text (h : t.Represents b) (hp : p.Valid t) :
    ∃ rest, p.memory t = p.chars b ++ 0 :: rest ∧ 0 ∉ p.chars b := by
  cases p with
  | elsewhere m => exact text_split hp.1
  | own pos =>
    obtain ⟨rest, hrest⟩ := h.chars
    have hpos : pos ≤ b.length := h.slen ▸ hp
    refine ⟨rest, ?_, fun hmem => h.noNul (List.mem_of_mem_drop hmem)⟩
    change t.s.drop pos = b.drop pos ++ _
    rw [hrest, List.drop_append_of_le_length hpos]

/-- The text behind a pointer. -/
def Pointer.text (t : StringBuffer) (p : Pointer) : Bytes := cStr (p.memory t)

theorem text_eq (h : t.Represents b) (hp : p.Valid t) : p.text t = p.chars b := by
  obtain ⟨rest, hmemory, hc⟩ := memory_text h hp
  rw [Pointer.text, hmemory, cStr_text hc]

/-- The pointer is still one after the buffer has grown to so many bytes. -/
def Pointer.Stays (t : StringBuffer) (len : ℕ) (p : Pointer) : Prop :=
  t.allocLen = 0 ∨ len ≤ t.allocLen ∨ ∃ m, p = .elsewhere m

theorem allocFor_eq (hp : p.Stays t len) : t.allocFor (p.resolve t) len = some (t.alloc len) ∧
    (p.resolve t).memory (t.alloc len) = p.memory t := by
  obtain hzero | hle | ⟨m, rfl⟩ := hp
  · have hresolve : p.resolve t = .elsewhere (p.memory t) := by
      cases p with
      | elsewhere m => rfl
      | own pos => exact if_pos hzero
    rw [hresolve]
    exact ⟨rfl, rfl⟩
  · rw [alloc_of_le hle, memory_resolve]
    refine ⟨?_, rfl⟩
    cases p.resolve t with
    | elsewhere m => exact congrArg some (alloc_of_le hle)
    | own pos => exact if_pos (.inl hle)
  · exact ⟨rfl, rfl⟩

end Buffers

/-! ## The operations -/

section Operations

variable {t t' str : StringBuffer} {b c d m rest : Bytes} {p : Pointer} {n pos : ℕ}

/-- A text is copied to the start of the buffer. -/
theorem replace_spec (h : t.Represents b) (hc : 0 ∉ c) (hlen : c.length + 1 < 2 ^ 64)
    (hp : p.memory (t.alloc (c.length + 1)) = c ++ 0 :: rest)
    (hover : ¬ p.Overlaps 0 (c.length + 1) (c.length + 1)) :
    ∃ t', strcpy (t.alloc (size (c.length + 1))) 0 p = some t' ∧ strlen t'.s = some c.length ∧
      Represents { t' with slen := c.length } c := by
  obtain ⟨t', rest', hwrite, hs, hrep⟩ := (alloc_room h (Nat.succ_pos _) hlen).replace hc
  refine ⟨t', ?_, ?_, hrep⟩
  · rw [size_of_lt hlen, strcpy_eq hc hp hover, hwrite]
  · rw [hs, strlen_text hc]

/-- A text is copied behind the characters. -/
theorem append_spec (h : t.Represents b) (hc : 0 ∉ c) (hlen : b.length + c.length + 1 < 2 ^ 64)
    (hp : p.memory (t.alloc (b.length + c.length + 1)) = c ++ 0 :: rest)
    (hover : ¬ p.Overlaps b.length (c.length + 1) (c.length + 1)) :
    ∃ t', strcpy (t.alloc (size (t.slen + c.length + 1))) t.slen p = some t' ∧
      Represents { t' with slen := size (t.slen + c.length) } (b ++ c) := by
  obtain ⟨t', hwrite, hrep⟩ := (alloc_room h (Nat.succ_pos _) hlen).append hc
  rw [h.slen, size_of_lt hlen, size_of_lt (by omega)]
  exact ⟨t', (strcpy_eq hc hp hover).trans hwrite, hrep⟩

/-- Characters are copied behind the others, where the terminator is there already. -/
theorem appendChars_spec (h : t.Represents b) (hc : 0 ∉ c)
    (hlen : b.length + c.length + 1 < 2 ^ 64) (hzero : t.ZeroBehind c.length)
    (hp : p.memory (t.alloc (b.length + c.length + 1)) = c ++ rest)
    (hover : ¬ p.Overlaps b.length c.length c.length) :
    ∃ t', strncpy (t.alloc (size (t.slen + c.length + 1))) t.slen p c.length = some t' ∧
      Represents { t' with slen := size (t.slen + c.length) } (b ++ c) := by
  obtain ⟨t', hwrite, hrep⟩ :=
    (alloc_room h (Nat.succ_pos _) hlen).append_chars hc (alloc_zero h hzero)
  rw [h.slen, size_of_lt hlen, size_of_lt (by omega)]
  exact ⟨t', (strncpy_eq hc hp hover).trans hwrite, hrep⟩

theorem new_eq (hm : 0 ∈ m) (hsmall : m.length < 2 ^ 64) :
    ∃ t, new (some m) = some t ∧ t.Represents (cStr m) := by
  obtain ⟨rest, hrest, hc⟩ := text_split hm
  have hlt := length_cStr_lt hm
  obtain ⟨t, hcopy, hlen, hrep⟩ := replace_spec (p := .elsewhere m) represents_shared hc (by omega)
    hrest not_false
  have hstrlen : strlen m = some (cStr m).length := if_pos hm
  refine ⟨_, ?_, hrep⟩
  simp only [new, hstrlen, hcopy, hlen, Option.bind_eq_bind, Option.bind_some]

theorem newUpTo_eq (hm : 0 ∈ m) (hsmall : m.length < 2 ^ 64) (n : ℕ) :
    ∃ t, newUpTo (some m) n = some t ∧ t.Represents ((cStr m).take n) := by
  obtain ⟨rest, hrest, hc⟩ := text_split hm
  have hlt := length_cStr_lt hm
  have hlen : (if (cStr m).length < n then (cStr m).length else n) = ((cStr m).take n).length := by
    rw [List.length_take]
    split_ifs <;> omega
  have hle : ((cStr m).take n).length ≤ (cStr m).length := List.length_take_le' ..
  have hmemory : m = (cStr m).take n ++ ((cStr m).drop n ++ 0 :: rest) := by
    rw [← List.append_assoc, List.take_append_drop, ← hrest]
  obtain ⟨t, hcopy, hrep⟩ := appendChars_spec (c := (cStr m).take n) (p := .elsewhere m)
    represents_shared (fun hmem => hc (List.mem_of_mem_take hmem))
    (by rw [List.length_nil]; omega) (.inl (Nat.succ_pos _)) hmemory not_false
  have hstrlen : strlen m = some (cStr m).length := if_pos hm
  have hslen : shared.slen + ((cStr m).take n).length = ((cStr m).take n).length := Nat.zero_add _
  rw [hslen] at hcopy hrep
  rw [size_of_lt (n := ((cStr m).take n).length) (by omega)] at hrep
  refine ⟨_, ?_, hrep⟩
  simp only [newUpTo, hstrlen, hlen, Option.bind_eq_bind, Option.bind_some]
  rw [show strncpy _ 0 _ _ = some t from hcopy]
  rfl

theorem copy_eq (h : str.Represents c) : ∃ t, copy str = some t ∧ t.Represents c := by
  obtain ⟨rest, hrest⟩ := h.chars
  obtain ⟨t, hcopy, -, hrep⟩ := replace_spec (p := .elsewhere str.s) represents_shared h.noNul
    h.length_lt hrest not_false
  rw [← h.slen] at hcopy hrep
  refine ⟨_, ?_, hrep⟩
  simp only [copy, hcopy, Option.bind_eq_bind, Option.bind_some]

theorem assign_eq (h : t.Represents b) (hstr : str.Represents c) :
    ∃ t', t.assign false str = some t' ∧ t'.Represents c := by
  obtain ⟨rest, hrest⟩ := hstr.chars
  obtain ⟨t', hcopy, -, hrep⟩ := replace_spec (p := pointer false str) h hstr.noNul
    hstr.length_lt hrest not_false
  rw [← hstr.slen] at hcopy hrep
  refine ⟨_, ?_, hrep⟩
  simp only [assign, hcopy, Option.bind_eq_bind, Option.bind_some]

theorem assignChar_eq (h : t.Represents b) (a : UInt8) :
    ∃ t', t.assignChar a = some t' ∧ t'.Represents (if a = 0 then [] else [a]) := by
  by_cases ha : a = 0
  · obtain ⟨t', rest, hwrite, -, hrep⟩ := (alloc_room h Nat.one_pos (by norm_num)).replace
      (c := []) List.not_mem_nil
    rw [if_pos ha]
    refine ⟨_, ?_, hrep⟩
    have hwrite' : (t.alloc 1).write 0 [0] = some t' := hwrite
    simp only [assignChar, ha, ne_eq, not_true, if_false, hwrite', Option.bind_eq_bind,
      Option.bind_some]
    rfl
  · obtain ⟨t', rest, hwrite, -, hrep⟩ := (alloc_room h Nat.two_pos (by norm_num)).replace
      (c := [a]) (by simpa using Ne.symm ha)
    rw [if_neg ha]
    refine ⟨_, ?_, hrep⟩
    have hwrite' : (t.alloc 2).write 0 [a, 0] = some t' := hwrite
    simp only [assignChar, ne_eq, ha, not_false_eq_true, if_true, hwrite', Option.bind_eq_bind,
      Option.bind_some]
    rfl

theorem append_eq (h : t.Represents b) (hstr : str.Represents c)
    (hlen : t.slen + str.slen + 1 < 2 ^ 64) :
    ∃ t', t.append false str = some t' ∧ t'.Represents (b ++ c) := by
  by_cases hzero : str.slen = 0
  · obtain rfl : c = [] := List.length_eq_zero_iff.mp (hstr.slen.symm.trans hzero)
    rw [List.append_nil]
    exact ⟨t, if_pos hzero, h⟩
  · obtain ⟨rest, hrest⟩ := hstr.chars
    rw [h.slen, hstr.slen] at hlen
    obtain ⟨t', hcopy, hrep⟩ := append_spec (p := pointer false str) h hstr.noNul hlen hrest
      not_false
    rw [← hstr.slen] at hcopy hrep
    refine ⟨_, ?_, hrep⟩
    simp only [append, if_neg hzero, hcopy, Option.bind_eq_bind, Option.bind_some]

/-- The terminator is written behind characters that are in the buffer. -/
theorem terminate_spec {y : Bytes} (hc : 0 ∉ c) (hs : t.s = c ++ y) (hy : y ≠ [])
    (hblock : t.s.length = t.allocLen) (hsmall : t.allocLen < 2 ^ 64) :
    ∃ t', t.write c.length [0] = some t' ∧ Represents { t' with slen := c.length } c := by
  obtain ⟨a, y, rfl⟩ := List.exists_cons_of_ne_nil hy
  have hwrite := write_eq (t := t) (u := c) (v := [a]) (x := [0]) (y := y) (by simp [hs]) rfl
  refine ⟨_, hwrite, represents_of_block y hc rfl (by simp) ?_ hsmall⟩
  rw [← hblock, hs]
  simp

theorem clear_eq (h : t.Represents b) : ∃ t', t.clear = some t' ∧ t'.Represents [] := by
  by_cases hzero : t.slen = 0
  · obtain rfl : b = [] := List.length_eq_zero_iff.mp (h.slen.symm.trans hzero)
    exact ⟨t, if_pos hzero, h⟩
  · obtain rfl | ⟨hle, hblock⟩ := h.capacity
    · exact absurd rfl hzero
    obtain ⟨rest, hrest⟩ := h.chars
    obtain ⟨t', hwrite, hrep⟩ := terminate_spec (c := []) (y := t.s) List.not_mem_nil rfl
      (by rw [hrest]; simp) hblock h.small
    refine ⟨_, ?_, hrep⟩
    have hwrite' : t.write 0 [0] = some t' := hwrite
    simp only [clear, if_neg hzero, hwrite', Option.bind_eq_bind, Option.bind_some]
    rfl

/-- Where the source may be in the buffer, it must not reach into what is written. -/
theorem assignText_eq (h : t.Represents b) (hp : p.Valid t)
    (hover : ∀ pos, p = .own pos → t.allocLen = 0 ∨ t.slen + 1 ≤ 2 * pos) :
    ∃ t', t.assignText (some p) = some t' ∧ t'.Represents (p.chars b) := by
  obtain ⟨rest, hmemory, hc⟩ := memory_text h hp
  have hlen : (p.chars b).length + 1 < 2 ^ 64 := by
    cases p with
    | elsewhere m =>
      have hlt := length_cStr_lt hp.1
      have hsmall := hp.2
      change (cStr m).length + 1 < _
      omega
    | own pos =>
      have hlt := h.length_lt
      change (b.drop pos).length + 1 < _
      rw [List.length_drop]
      omega
  have hstays : p.Stays t ((p.chars b).length + 1) := by
    cases p with
    | elsewhere m => exact .inr (.inr ⟨m, rfl⟩)
    | own pos =>
      obtain rfl | ⟨hle, -⟩ := h.capacity
      · exact .inl rfl
      · refine .inr (.inl ?_)
        change (b.drop pos).length + 1 ≤ _
        rw [List.length_drop]
        omega
  have hno : ¬ (p.resolve t).Overlaps 0 ((p.chars b).length + 1) ((p.chars b).length + 1) := by
    cases p with
    | elsewhere m => exact not_false
    | own pos =>
      unfold Pointer.resolve
      by_cases hzero : t.allocLen = 0
      · simp only [if_pos hzero]
        exact not_false
      · have hpos := (hover pos rfl).resolve_left hzero
        have hlength : ((Pointer.own pos).chars b).length = b.length - pos := List.length_drop
        simp only [if_neg hzero, hlength]
        rintro ⟨hlt, -⟩
        rw [h.slen] at hpos
        omega
  obtain ⟨hfor, hsame⟩ := allocFor_eq hstays
  have hmemory' := hsame.trans hmemory
  obtain ⟨t', hcopy, hstrlen, hrep⟩ := replace_spec h hc hlen hmemory' hno
  rw [size_of_lt hlen] at hcopy
  refine ⟨_, ?_, hrep⟩
  have hlength : strlen ((p.resolve t).memory t) = some (p.chars b).length := by
    rw [memory_resolve, hmemory, strlen_text hc]
  simp only [assignText, hlength, size_of_lt hlen, hfor, hcopy, hstrlen, Option.bind_eq_bind,
    Option.bind_some]

theorem appendText_eq (h : t.Represents b) (hp : p.Valid t) (hproper : p.chars b = [] ∨
    t.slen + (p.chars b).length + 1 < 2 ^ 64 ∧ ∃ m, p = .elsewhere m) :
    ∃ t', t.appendText (some p) = some t' ∧ t'.Represents (b ++ p.chars b) := by
  obtain ⟨rest, hmemory, hc⟩ := memory_text h hp
  have hlength : strlen ((p.resolve t).memory t) = some (p.chars b).length := by
    rw [memory_resolve, hmemory, strlen_text hc]
  by_cases hnil : p.chars b = []
  · refine ⟨t, ?_, by rwa [hnil, List.append_nil]⟩
    rw [hnil] at hlength
    simp only [appendText, hlength, Option.bind_eq_bind, Option.bind_some]
    rfl
  · obtain ⟨hlen, m, rfl⟩ := hproper.resolve_left hnil
    rw [h.slen] at hlen
    obtain ⟨t', hcopy, hrep⟩ := append_spec (p := .elsewhere m) h hc hlen hmemory not_false
    refine ⟨_, ?_, hrep⟩
    have hpos : ¬ (Pointer.chars b (.elsewhere m)).length = 0 :=
      fun hzero => hnil (List.length_eq_zero_iff.mp hzero)
    have hfor : ∀ len, t.allocFor ((Pointer.elsewhere m).resolve t) len = some (t.alloc len) :=
      fun len => rfl
    have hlength' : strlen (((Pointer.elsewhere m).resolve t).memory t') =
      some (Pointer.chars b (.elsewhere m)).length := hlength
    have hcopy' : strcpy (t.alloc (size (t.slen + (Pointer.chars b (.elsewhere m)).length + 1)))
      t.slen ((Pointer.elsewhere m).resolve t) = some t' := hcopy
    simp only [appendText, hlength, if_neg hpos, hfor, hcopy', hlength', Option.bind_eq_bind,
      Option.bind_some]

/-- So many of the characters behind the pointer are appended. -/
theorem appendUpTo_eq (h : t.Represents b) (hp : p.Valid t) (hproper : n = 0 ∨
    (p.chars b).length < n ∨ t.slen + n + 1 < 2 ^ 64 ∧ t.ZeroBehind n ∧
      p.Stays t (t.slen + n + 1)) :
    ∃ t', t.appendUpTo (some p) n = some t' ∧
      t'.Represents (if n ≤ (p.chars b).length then b ++ (p.chars b).take n else b) := by
  obtain ⟨rest, hmemory, hc⟩ := memory_text h hp
  have hlength : strlen ((p.resolve t).memory t) = some (p.chars b).length := by
    rw [memory_resolve, hmemory, strlen_text hc]
  by_cases hzero : n = 0
  · refine ⟨t, if_pos hzero, ?_⟩
    rw [hzero, if_pos (Nat.zero_le _), List.take_zero, List.append_nil]
    exact h
  by_cases hlong : (p.chars b).length < n
  · refine ⟨t, ?_, by rwa [if_neg (not_le.mpr hlong)]⟩
    simp only [appendUpTo, if_neg hzero, hlength, if_pos hlong, Option.bind_eq_bind,
      Option.bind_some]
  · obtain ⟨hlen, hbehind, hstays⟩ := (hproper.resolve_left hzero).resolve_left hlong
    have hle := not_lt.mp hlong
    have htake : ((p.chars b).take n).length = n := List.length_take_of_le hle
    obtain ⟨hfor, hsame⟩ := allocFor_eq hstays
    have hmemory' : (p.resolve t).memory (t.alloc (b.length + ((p.chars b).take n).length + 1)) =
        (p.chars b).take n ++ ((p.chars b).drop n ++ 0 :: rest) := by
      rw [htake, ← h.slen, hsame, ← List.append_assoc, List.take_append_drop, hmemory]
    have hno : ¬ (p.resolve t).Overlaps b.length ((p.chars b).take n).length
        ((p.chars b).take n).length := by
      rw [htake]
      cases p with
      | elsewhere m => exact not_false
      | own pos =>
        unfold Pointer.resolve
        have hdrop : ((Pointer.own pos).chars b).length = b.length - pos := List.length_drop
        by_cases halloc : t.allocLen = 0
        · simp only [if_pos halloc]
          exact not_false
        · simp only [if_neg halloc]
          rintro ⟨-, hlt⟩
          omega
    have hlen' := hlen
    rw [h.slen] at hlen'
    obtain ⟨t', hcopy, hrep⟩ := appendChars_spec h (fun hmem => hc (List.mem_of_mem_take hmem))
      (htake.symm ▸ hlen') (htake.symm ▸ hbehind) hmemory' hno
    rw [htake, size_of_lt hlen] at hcopy
    rw [htake] at hrep
    rw [if_pos hle]
    refine ⟨_, ?_, hrep⟩
    simp only [appendUpTo, if_neg hzero, hlength, if_neg hlong, size_of_lt hlen, hfor, hcopy,
      Option.bind_eq_bind, Option.bind_some]

/-- The range may end before the end of the source, or be outside of it. -/
theorem appendRange_eq {self : Bool} (h : t.Represents b) (hstr : str.Represents c)
    (hself : self = true → str = t) (hproper : n = 0 ∨ str.slen = 0 ∨
      str.slen ≤ size (pos + n) ∧ pos + n ≠ str.slen ∨
      pos + n < str.slen ∧ t.slen + n + 1 < 2 ^ 64 ∧ t.ZeroBehind n) (hpos : n < 2 ^ 64) :
    ∃ t', t.appendRange self str pos n = some t' ∧
      t'.Represents (if pos + n ≤ c.length then b ++ (c.drop pos).take n else b) := by
  have hslen := hstr.slen
  have hsmall := hstr.length_lt
  have hstay : n = 0 ∨ str.slen = 0 ∨ str.slen ≤ size (pos + n) ∧ pos + n ≠ str.slen →
      ∃ t', t.appendRange self str pos n = some t' ∧
        t'.Represents (if pos + n ≤ c.length then b ++ (c.drop pos).take n else b) := by
    intro hstay
    have heffect : (if pos + n ≤ c.length then b ++ (c.drop pos).take n else b) = b := by
      split_ifs with hle
      · have hzero : n = 0 ∨ c.length = 0 := by
          obtain hn | hzero | ⟨hsize, hne⟩ := hstay
          · exact .inl hn
          · exact .inr (hslen ▸ hzero)
          · rw [size_of_lt (by omega)] at hsize
            omega
        obtain rfl | hc := hzero
        · rw [List.take_zero, List.append_nil]
        · rw [List.length_eq_zero_iff.mp hc, List.drop_nil, List.take_nil, List.append_nil]
      · rfl
    rw [heffect]
    exact ⟨t, if_pos (hstay.imp_right (·.imp_right And.left)), h⟩
  obtain hn | hzero | hout | ⟨hlt, hlen, hbehind⟩ := hproper
  · exact hstay (.inl hn)
  · exact hstay (.inr (.inl hzero))
  · exact hstay (.inr (.inr hout))
  by_cases hn : n = 0
  · exact hstay (.inl hn)
  have hle : pos + n ≤ c.length := by omega
  have hsize : size (pos + n) = pos + n := size_of_lt (by omega)
  have hgoes : ¬ (n = 0 ∨ str.slen = 0 ∨ str.slen ≤ size (pos + n)) := by
    rw [hsize]
    omega
  have htake : ((c.drop pos).take n).length = n :=
    List.length_take_of_le (by rw [List.length_drop]; omega)
  have hdrop : ∀ rest : Bytes, (c ++ 0 :: rest).drop pos =
      (c.drop pos).take n ++ ((c.drop pos).drop n ++ 0 :: rest) := by
    intro rest
    rw [List.drop_append_of_le_length (by omega), ← List.append_assoc, List.take_append_drop]
  have hc : 0 ∉ (c.drop pos).take n := fun hmem =>
    hstr.noNul (List.mem_of_mem_drop (List.mem_of_mem_take hmem))
  have hlen' := hlen
  rw [h.slen] at hlen'
  have hcopied : ∀ p : Pointer, (∃ rest, p.memory (t.alloc (b.length + n + 1)) =
      (c.drop pos).take n ++ rest) → ¬ p.Overlaps b.length n n → ∃ t',
        strncpy (t.alloc (size (t.slen + n + 1))) t.slen p n = some t' ∧
          Represents { t' with slen := size (t.slen + n) } (b ++ (c.drop pos).take n) := by
    rintro p ⟨rest, hmemory⟩ hno
    have hspec := @appendChars_spec t b ((c.drop pos).take n) rest p h hc
    rw [htake] at hspec
    exact hspec hlen' hbehind hmemory hno
  rw [if_pos hle]
  cases self with
  | false =>
    obtain ⟨rest, hrest⟩ := hstr.chars
    obtain ⟨t', hcopy, hrep⟩ := hcopied (.elsewhere (str.s.drop pos))
      ⟨_, (congrArg (List.drop pos) hrest).trans (hdrop rest)⟩ not_false
    refine ⟨_, ?_, hrep⟩
    simp only [appendRange, if_neg hgoes, Bool.false_eq_true, if_false, hcopy, Option.bind_eq_bind,
      Option.bind_some]
  | true =>
    obtain rfl := hself rfl
    obtain rfl := h.unique hstr
    obtain ⟨rest, hrest⟩ := (alloc_room h (Nat.succ_pos _) hlen').chars
    obtain ⟨t', hcopy, hrep⟩ := hcopied (.own pos)
      ⟨_, (congrArg (List.drop pos) hrest).trans (hdrop rest)⟩ (fun hover => by
        obtain ⟨-, hover⟩ := hover
        omega)
    refine ⟨_, ?_, hrep⟩
    simp only [appendRange, if_neg hgoes, if_true, hcopy, Option.bind_eq_bind, Option.bind_some]

/-- The loop writes over what is behind the characters, byte by byte. -/
theorem fill_spec {a : UInt8} {y : Bytes} (hb : 0 ∉ b) (ha : a ≠ 0) (hs : t.s = b ++ y)
    (hslen : t.slen = b.length) (hy : n < y.length) (hblock : t.s.length = t.allocLen)
    (hsmall : t.allocLen < 2 ^ 64) :
    ∃ t', fill a n t = some t' ∧ t'.Represents (b ++ List.replicate n a) := by
  induction n generalizing t b y with
  | zero =>
    obtain ⟨t', hwrite, hrep⟩ := terminate_spec hb hs (List.ne_nil_of_length_pos hy) hblock hsmall
    have hfill : fill a 0 t = some t' := by
      unfold fill
      rw [hslen, hwrite]
    have hslen' : t'.slen = b.length := by
      unfold write at hwrite
      split_ifs at hwrite
      rw [← Option.some.inj hwrite, hslen]
    refine ⟨t', hfill, ?_⟩
    rw [List.replicate_zero, List.append_nil]
    rwa [← hslen'] at hrep
  | succ n ih =>
    obtain ⟨x, y, rfl⟩ := List.exists_cons_of_ne_nil
      (List.ne_nil_of_length_pos (Nat.zero_lt_of_lt hy))
    rw [List.length_cons] at hy
    have hwrite := write_eq (t := t) (u := b) (v := [x]) (x := [a]) (y := y) (by simp [hs]) rfl
    have hlength := congrArg List.length hs
    rw [List.length_append, List.length_cons, hblock] at hlength
    obtain ⟨t', hfill, hrep⟩ := ih (t := ⟨b ++ [a] ++ y, t.allocLen, size (t.slen + 1)⟩)
      (b := b ++ [a]) (y := y) (by simpa using ⟨hb, ha.symm⟩) rfl
      (by rw [size_of_lt (by omega), hslen, List.length_append, List.length_singleton])
      (Nat.lt_of_succ_lt_succ hy)
      (by simp only [List.length_append, List.length_cons, List.length_nil]; omega) hsmall
    refine ⟨t', ?_, ?_⟩
    · unfold fill
      rw [hslen, hwrite, Option.bind_eq_bind, Option.bind_some]
      exact hfill
    · rwa [List.append_assoc, List.singleton_append] at hrep

theorem appendChars_eq {a : UInt8} (h : t.Represents b) (ha : a ≠ 0)
    (hlen : t.slen + n + 1 < 2 ^ 64) :
    ∃ t', t.appendChars n a = some t' ∧ t'.Represents (b ++ List.replicate n a) := by
  have hroom := alloc_room h (Nat.succ_pos _) hlen
  obtain ⟨rest, hrest⟩ := hroom.chars
  have hlength := congrArg List.length hrest
  have hfits := hroom.room
  rw [hroom.block, List.length_append] at hlength
  rw [h.slen] at hfits hlength
  unfold appendChars
  rw [size_of_lt hlen]
  refine fill_spec h.noNul ha hrest hroom.slen ?_ hroom.block hroom.small
  rw [h.slen] at *
  omega

/-- The end of the string is cut off. -/
theorem truncate_spec (h : t.Represents b) (hpos : pos < b.length) :
    ∃ t', t.write pos [0] = some t' ∧ Represents { t' with slen := pos } (b.take pos) := by
  have htake : (b.take pos).length = pos := List.length_take_of_le hpos.le
  obtain ⟨rest, hrest⟩ := h.chars
  obtain rfl | ⟨hroom, hblock⟩ := h.capacity
  · exact absurd h.slen (Nat.ne_of_lt (Nat.zero_lt_of_lt hpos))
  have hs : t.s = b.take pos ++ t.s.drop pos := by
    conv_lhs => rw [← List.take_append_drop pos t.s]
    rw [hrest, List.take_append_of_le_length hpos.le]
  have hne : t.s.drop pos ≠ [] := by
    apply List.ne_nil_of_length_pos
    rw [List.length_drop]
    omega
  obtain ⟨t', hwrite, hrep⟩ := terminate_spec (fun hmem => h.noNul (List.mem_of_mem_take hmem)) hs
    hne hblock h.small
  rw [htake] at hwrite hrep
  exact ⟨t', hwrite, hrep⟩

theorem cplen_eq {slen : ℕ} (hslen : slen < 2 ^ 64) (hle : pos + n ≤ slen)
    (hhalf : slen ≤ pos + n + n) : cplen slen pos n = slen - pos - n := by
  have hsize : size (slen + 2 ^ 65 - pos - n) = slen - pos - n := by
    unfold size
    omega
  unfold cplen
  simp only [hsize]
  exact if_pos (by omega)

/-- Characters and a terminator are written inside the string. -/
theorem move_spec (h : t.Represents b) (hc : 0 ∉ c) (hlen : pos + c.length < b.length) :
    ∃ t₁ t', t.write pos c = some t₁ ∧ t₁.write (pos + c.length) [0] = some t' ∧
      Represents { t' with slen := pos + c.length } (b.take pos ++ c) := by
  have htake : (b.take pos).length = pos := List.length_take_of_le (by omega)
  obtain ⟨rest, hrest⟩ := h.chars
  obtain rfl | ⟨hroom, hblock⟩ := h.capacity
  · exact absurd h.slen (Nat.ne_of_lt (Nat.zero_lt_of_lt hlen))
  have hstart : t.s.take pos = b.take pos := by
    rw [hrest, List.take_append_of_le_length (by omega)]
  have hs : t.s = b.take pos ++ (t.s.drop pos).take c.length ++ t.s.drop (pos + c.length) := by
    rw [← hstart, ← List.drop_drop, List.append_assoc, List.take_append_drop,
      List.take_append_drop]
  have hlength : c.length = ((t.s.drop pos).take c.length).length := by
    rw [List.length_take_of_le]
    rw [List.length_drop]
    omega
  have hwrite := write_eq (x := c) hs hlength
  rw [htake] at hwrite
  have hend : pos + c.length = (b.take pos ++ c).length := by rw [List.length_append, htake]
  have hne : t.s.drop (pos + c.length) ≠ [] := by
    apply List.ne_nil_of_length_pos
    rw [List.length_drop]
    omega
  have hchars : 0 ∉ b.take pos ++ c := by
    rw [List.mem_append, not_or]
    exact ⟨fun hmem => h.noNul (List.mem_of_mem_take hmem), hc⟩
  have hblock' : (b.take pos ++ c ++ t.s.drop (pos + c.length)).length = t.allocLen := by
    simp only [List.length_append, htake, List.length_drop]
    omega
  obtain ⟨t', hwrite', hrep⟩ := terminate_spec (t := ⟨_, t.allocLen, t.slen⟩) hchars rfl hne hblock'
    h.small
  rw [← hend] at hwrite' hrep
  exact ⟨_, t', hwrite, hwrite', hrep⟩

theorem eraseInside_spec (h : t.Represents b) (hpos : pos < b.length) (hle : pos + n ≤ b.length)
    (hhalf : b.length ≤ pos + n + n) :
    ∃ t', t.eraseInside pos n = some t' ∧ t'.Represents (b.take pos ++ b.drop (pos + n)) := by
  have hlt := h.length_lt
  have hlength : (b.drop (pos + n)).length = b.length - (pos + n) := List.length_drop
  have hk : cplen t.slen pos n = (b.drop (pos + n)).length := by
    rw [h.slen, cplen_eq (by omega) hle hhalf, hlength, Nat.sub_sub]
  have hslen : size (t.slen + 2 ^ 64 - n) = pos + (b.drop (pos + n)).length := by
    rw [h.slen]
    unfold size
    omega
  simp only [eraseInside, hk, hslen, Option.bind_eq_bind]
  by_cases hzero : 0 < (b.drop (pos + n)).length
  · have hc : 0 ∉ b.drop (pos + n) := fun hmem => h.noNul (List.mem_of_mem_drop hmem)
    obtain ⟨rest, hrest⟩ := h.chars
    have hmemory : (Pointer.own (size (pos + n))).memory t = b.drop (pos + n) ++ 0 :: rest := by
      rw [size_of_lt (by omega)]
      change t.s.drop (pos + n) = _
      rw [hrest, List.drop_append_of_le_length hle]
    have hno : ¬ (Pointer.own (size (pos + n))).Overlaps pos (b.drop (pos + n)).length
        (b.drop (pos + n)).length := by
      rw [size_of_lt (by omega)]
      rintro ⟨hover, -⟩
      omega
    have hroom : pos + (b.drop (pos + n)).length < b.length := by omega
    obtain ⟨t₁, t', hwrite, hwrite', hrep⟩ := move_spec h hc hroom
    rw [if_pos hzero, strncpy_eq hc hmemory hno, hwrite, Option.bind_some, hwrite']
    exact ⟨_, rfl, hrep⟩
  · have hnil := List.length_eq_zero_iff.mp (Nat.eq_zero_of_not_pos hzero)
    obtain ⟨t', hwrite, hrep⟩ := truncate_spec h hpos
    rw [if_neg hzero, Option.bind_some, hnil, List.append_nil, List.length_nil, Nat.add_zero,
      hwrite]
    exact ⟨_, rfl, hrep⟩

/-- What is behind the erased characters moves to their place, if it is not longer than they are. -/
theorem erase_eq (h : t.Represents b) (hproper : pos = 0 ∧ n = npos ∨ t.slen ≤ pos ∨ n = npos ∨
      t.slen < size (pos + n) ∨ pos + n < 2 ^ 64 ∧ t.slen ≤ pos + n + n) :
    ∃ t', t.erase pos n = some t' ∧ t'.Represents (b.take pos ++ b.drop (pos + n)) := by
  have hslen := h.slen
  have hlt := h.length_lt
  have hlong : ∀ {k}, npos ≤ k → b.drop k = [] := by
    intro k hk
    unfold npos at hk
    exact List.drop_of_length_le (by omega)
  unfold erase
  by_cases hall : pos = 0 ∧ n = npos
  · rw [if_pos hall, hlong (hall.2 ▸ Nat.le_add_left _ _), hall.1, List.take_zero,
      List.append_nil]
    exact clear_eq h
  rw [if_neg hall]
  by_cases hend : t.slen ≤ pos
  · rw [if_pos hend, List.take_of_length_le (by omega), List.drop_of_length_le (by omega),
      List.append_nil]
    exact ⟨t, rfl, h⟩
  rw [if_neg hend]
  by_cases htail : n = npos ∨ t.slen < size (pos + n)
  · have hdrop : b.drop (pos + n) = [] := by
      obtain rfl | hsize := htail
      · exact hlong (Nat.le_add_left _ _)
      · have hle : size (pos + n) ≤ pos + n := Nat.mod_le _ _
        exact List.drop_of_length_le (by omega)
    have hpos : pos < b.length := by omega
    obtain ⟨t', hwrite, hrep⟩ := truncate_spec h hpos
    rw [if_pos htail, hdrop, List.append_nil, hwrite]
    exact ⟨_, rfl, hrep⟩
  · obtain ⟨hsmall, hhalf⟩ :=
      ((((hproper.resolve_left hall).resolve_left hend).resolve_left
        (fun hn => htail (.inl hn))).resolve_left fun hsize => htail (.inr hsize))
    have hsize : size (pos + n) = pos + n := size_of_lt hsmall
    rw [if_neg htail]
    have hle : pos + n ≤ t.slen := not_lt.mp (hsize ▸ fun hsize => htail (.inr hsize))
    exact eraseInside_spec h (by omega) (by omega) (by omega)

end Operations

end StringBuffer
end Haggle
