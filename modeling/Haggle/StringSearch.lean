import Haggle.FilterString
import Haggle.StringOrder

/-!
# Searching in strings

`find` leaves out the last position at which there is room for what is searched, `find_last_of` does
not search at all from a position behind the end, and `compare` cuts both parts of strings to the
larger one of their two lengths. The results are compared with what they are expected to be.
-/

namespace Haggle
namespace StringBuffer

section Model

/-- The loop of `find`, for as many turns as there are positions left. -/
def findLoop (s m : Bytes) (n : ℕ) : ℕ → ℕ → Option ℕ
  | 0, _ => some npos
  | turns + 1, pos => do
    let r ← strncmp n (s.drop pos) m
    if r = .eq then some pos else findLoop s m n turns (pos + 1)

/-- `find(const char *, size_t, size_t)`. -/
def findChars (t : StringBuffer) (s : Option Bytes) (pos n : ℕ) : Option ℕ :=
  match s with
  | none => some npos
  | some m => do
    let len ← strlen m
    if len < n ∨ n > t.slen ∨ pos ≥ t.slen - n then some npos
    else findLoop t.s m n (t.slen - n + 1 - pos) pos

/-- `find(const String&, size_t)`. -/
def find (t str : StringBuffer) (pos : ℕ) : Option ℕ := t.findChars (some str.s) pos str.slen

/-- `find(const char *, size_t)`; the length of a null pointer is undefined. -/
def findText (t : StringBuffer) (s : Option Bytes) (pos : ℕ) : Option ℕ := do
  let m ← s
  let n ← strlen m
  t.findChars (some m) pos n

/-- The loops over the characters of a string up to one that is accepted. -/
def scanLoop (s : Bytes) (accept : UInt8 → Bool) : ℕ → ℕ → Option ℕ
  | 0, _ => some npos
  | turns + 1, pos => do
    let b ← s[pos]?
    if accept b then some pos else scanLoop s accept turns (pos + 1)

/-- `find(char, size_t)`. -/
def findChar (t : StringBuffer) (c : UInt8) (pos : ℕ) : Option ℕ :=
  if pos ≥ t.slen then some npos else scanLoop t.s (· == c) (t.slen - pos) pos

/-- `find_first_of(const char *, size_t, size_t)`. -/
def findFirstOfChars (t : StringBuffer) (s : Option Bytes) (pos n : ℕ) : Option ℕ :=
  match s with
  | none => some npos
  | some m =>
    if pos ≥ t.slen then some npos
    else do
      let len ← strlen m
      if len < n then some npos
      else scanLoop t.s (fun b => (m.take n).contains b) (t.slen - pos) pos

/-- `find_first_of(const String&, size_t)`. -/
def findFirstOf (t str : StringBuffer) (pos : ℕ) : Option ℕ :=
  t.findFirstOfChars (some str.s) pos str.slen

/-- `find_first_of(const char *, size_t)`. -/
def findFirstOfText (t : StringBuffer) (s : Option Bytes) (pos : ℕ) : Option ℕ :=
  match s with
  | none => some npos
  | some m => do
    let n ← strlen m
    t.findFirstOfChars (some m) pos n

/-- `find_first_of(char, size_t)`: the character is taken for a string, which goes on with what is
behind it in memory. -/
def findFirstOfChar (t : StringBuffer) (c : UInt8) (behind : Bytes) (pos : ℕ) : Option ℕ :=
  t.findFirstOfChars (some (c :: behind)) pos 1

/-- The loop of `find_last_of`; the argument is the next position and one. -/
def scanBack (s : Bytes) (accept : UInt8 → Bool) : ℕ → Option ℕ
  | 0 => some npos
  | k + 1 => do
    let b ← s[k]?
    if accept b then some k else scanBack s accept k

/-- `find_last_of(const char *, size_t, size_t)`. -/
def findLastOfChars (t : StringBuffer) (s : Option Bytes) (pos n : ℕ) : Option ℕ :=
  match s with
  | none => some npos
  | some m =>
    let pos := if pos = npos then size (t.slen + npos) else pos
    if pos > t.slen then some npos
    else do
      let len ← strlen m
      if len < n then some npos
      else scanBack t.s (fun b => (m.take n).contains b) (size (pos + 1))

/-- `find_last_of(const String&, size_t)`. -/
def findLastOf (t str : StringBuffer) (pos : ℕ) : Option ℕ :=
  t.findLastOfChars (some str.s) pos str.slen

/-- `find_last_of(const char *, size_t)`. -/
def findLastOfText (t : StringBuffer) (s : Option Bytes) (pos : ℕ) : Option ℕ :=
  match s with
  | none => some npos
  | some m => do
    let n ← strlen m
    t.findLastOfChars (some m) pos n

/-- `find_last_of(char, size_t)`. -/
def findLastOfChar (t : StringBuffer) (c : UInt8) (behind : Bytes) (pos : ℕ) : Option ℕ :=
  t.findLastOfChars (some (c :: behind)) pos 1

/-- What is searched, in the forms that there are overloads for. -/
inductive Needle
  | string (str : StringBuffer)
  | chars (s : Option Bytes) (n : ℕ)
  | text (s : Option Bytes)
  | char (c : UInt8) (behind : Bytes)

namespace Needle

def find (t : StringBuffer) (pos : ℕ) : Needle → Option ℕ
  | string str => t.find str pos
  | chars s n => t.findChars s pos n
  | text s => t.findText s pos
  | char c _ => t.findChar c pos

def findFirstOf (t : StringBuffer) (pos : ℕ) : Needle → Option ℕ
  | string str => t.findFirstOf str pos
  | chars s n => t.findFirstOfChars s pos n
  | text s => t.findFirstOfText s pos
  | char c behind => t.findFirstOfChar c behind pos

def findLastOf (t : StringBuffer) (pos : ℕ) : Needle → Option ℕ
  | string str => t.findLastOf str pos
  | chars s n => t.findLastOfChars s pos n
  | text s => t.findLastOfText s pos
  | char c behind => t.findLastOfChar c behind pos

/-- The characters of a needle. -/
def Holds : Needle → Bytes → Prop
  | string str, c => str.Represents c
  | chars s n, c => ∃ d, IsText s d ∧ n ≤ d.length ∧ c = d.take n
  | text s, c => IsText s c
  | char a _, c => c = [a]

/-- The zero byte that ends the needle is there. -/
def Terminated : Needle → Prop
  | char c behind => c = 0 ∨ 0 ∈ behind
  | _ => True

def IsChar : Needle → Prop
  | char _ _ => True
  | _ => False

end Needle

/-- `compare(size_t, size_t, const String&)`. -/
def compareFrom (t : StringBuffer) (pos1 n1 : ℕ) (str : StringBuffer) : Option Ordering :=
  compareAt (some t.s) t.slen pos1 n1 (some str.s) str.slen 0 str.slen

/-- `compare(size_t, size_t, const char *)`. -/
def compareFromChars (t : StringBuffer) (pos1 n1 : ℕ) (s : Option Bytes) : Option Ordering := do
  let m ← s
  let n ← strlen m
  compareAt (some t.s) t.slen pos1 n1 (some m) n 0 n

/-- `compare(size_t, size_t, const String&, size_t, size_t)`. -/
def compareParts (t : StringBuffer) (pos1 n1 : ℕ) (str : StringBuffer) (pos2 n2 : ℕ) :
    Option Ordering :=
  compareAt (some t.s) t.slen pos1 n1 (some str.s) str.slen pos2 n2

/-- `compare(size_t, size_t, const char *, size_t)`. -/
def compareFromCharsN (t : StringBuffer) (pos1 n1 : ℕ) (s : Option Bytes) (n2 : ℕ) :
    Option Ordering := do
  let m ← s
  let n ← strlen m
  compareAt (some t.s) t.slen pos1 n1 (some m) n 0 n2

/-- The ranges of the two strings that are to be compared. -/
structure Ranges where
  pos1 : ℕ
  n1 : ℕ
  pos2 : ℕ
  n2 : ℕ

/-- A call of `compare`. -/
inductive CompareCall
  | string (str : StringBuffer)
  | chars (s : Option Bytes)
  | fromString (pos1 n1 : ℕ) (str : StringBuffer)
  | fromChars (pos1 n1 : ℕ) (s : Option Bytes)
  | parts (pos1 n1 : ℕ) (str : StringBuffer) (pos2 n2 : ℕ)
  | fromCharsN (pos1 n1 : ℕ) (s : Option Bytes) (n2 : ℕ)

namespace CompareCall

def result (t : StringBuffer) : CompareCall → Option Ordering
  | string str => t.compare str
  | chars s => t.compareChars s
  | fromString pos1 n1 str => t.compareFrom pos1 n1 str
  | fromChars pos1 n1 s => t.compareFromChars pos1 n1 s
  | parts pos1 n1 str pos2 n2 => t.compareParts pos1 n1 str pos2 n2
  | fromCharsN pos1 n1 s n2 => t.compareFromCharsN pos1 n1 s n2

/-- The second string has these characters, in this memory. -/
def Holds : CompareCall → Bytes → Bytes → Prop
  | string str, c, m | fromString _ _ str, c, m | parts _ _ str _ _, c, m =>
    str.Represents c ∧ m = str.s
  | chars s, c, m | fromChars _ _ s, c, m | fromCharsN _ _ s _, c, m => IsText s c ∧ s = some m

/-- The ranges, where `b` is the first string and `c` the second one. -/
def ranges (b c : Bytes) : CompareCall → Ranges
  | string _ | chars _ => ⟨0, b.length, 0, c.length⟩
  | fromString pos1 n1 _ | fromChars pos1 n1 _ => ⟨pos1, n1, 0, c.length⟩
  | parts pos1 n1 _ pos2 n2 => ⟨pos1, n1, pos2, n2⟩
  | fromCharsN pos1 n1 _ n2 => ⟨pos1, n1, 0, n2⟩

end CompareCall

end Model

/-! ## Searching -/

section Search

variable {t str : StringBuffer} {b c d rest : Bytes} {pos n turns k : ℕ} {P : ℕ → Prop}
  {accept : UInt8 → Bool}

/-- The result of a search: the least position with the property that is not before `pos`, or
`npos`. -/
def IsFirst (P : ℕ → Prop) (pos r : ℕ) : Prop :=
  (pos ≤ r ∧ r < npos ∧ P r ∧ ∀ q, pos ≤ q → P q → r ≤ q) ∨ r = npos ∧ ∀ q, pos ≤ q → ¬ P q

/-- The greatest position with the property that is not behind `pos`, or `npos`. -/
def IsLast (P : ℕ → Prop) (pos r : ℕ) : Prop :=
  (r ≤ pos ∧ r < npos ∧ P r ∧ ∀ q, q ≤ pos → P q → q ≤ r) ∨ r = npos ∧ ∀ q, q ≤ pos → ¬ P q

/-- The second string stands in the first one. -/
def MatchesAt (b c : Bytes) (q : ℕ) : Prop := q + c.length ≤ b.length ∧ (b.drop q).take c.length = c

instance (b c : Bytes) (q : ℕ) : Decidable (MatchesAt b c q) := inferInstanceAs (Decidable (_ ∧ _))

def HoldsOneOf (b c : Bytes) (q : ℕ) : Prop := ∃ a ∈ c, b[q]? = some a

theorem HoldsOneOf.lt {q : ℕ} (h : HoldsOneOf b c q) : q < b.length := by
  obtain ⟨a, -, ha⟩ := h
  exact (List.getElem?_eq_some_iff.mp ha).1

theorem isFirst_of_none (h : ∀ q, pos ≤ q → ¬ P q) : IsFirst P pos npos := .inr ⟨rfl, h⟩

theorem IsFirst.step {r : ℕ} (h : IsFirst P (pos + 1) r) (hpos : ¬ P pos) : IsFirst P pos r := by
  have hle : ∀ q, pos ≤ q → P q → pos + 1 ≤ q := by
    intro q hq hP
    rcases hq.eq_or_lt with rfl | hlt
    · exact absurd hP hpos
    · exact hlt
  rcases h with ⟨hr, hlt, hP, hmin⟩ | ⟨hr, hnone⟩
  · exact .inl ⟨by omega, hlt, hP, fun q hq hPq => hmin q (hle q hq hPq) hPq⟩
  · exact .inr ⟨hr, fun q hq hPq => hnone q (hle q hq hPq) hPq⟩

/-- The loop over the buffer is the one over the characters. -/
theorem findLoop_eq (hb : 0 ∉ b) (hd : 0 ∉ d) (rest rest' : Bytes)
    (h : pos + turns ≤ b.length + 1) :
    findLoop (b ++ 0 :: rest) (d ++ 0 :: rest') n turns pos =
      some (FilterString.findLoop b d n turns pos) := by
  induction turns generalizing pos with
  | zero => rfl
  | succ turns ih =>
    have hdrop : (b ++ 0 :: rest).drop pos = b.drop pos ++ 0 :: rest :=
      List.drop_append_of_le_length (by omega)
    have hsub : 0 ∉ b.drop pos := fun h => hb (List.mem_of_mem_drop h)
    rw [findLoop, hdrop, strncmp_text hsub hd, Option.bind_eq_bind, Option.bind_some,
      FilterString.findLoop]
    simp only [lexCompare_eq_eq]
    split_ifs
    · rfl
    · exact ih (by omega)

theorem findChars_eq (ht : t.Represents b) (hd : 0 ∉ d) (rest' : Bytes) (pos n : ℕ) :
    t.findChars (some (d ++ 0 :: rest')) pos n = some (FilterString.find b d pos n) := by
  obtain ⟨rest, hrest⟩ := ht.chars
  simp only [findChars, strlen_text hd, Option.bind_eq_bind, Option.bind_some, ht.slen, hrest,
    FilterString.find]
  split_ifs with h
  · rfl
  · exact findLoop_eq ht.noNul hd rest rest' (by omega)

theorem isFirst_filterLoop (hlen : b.length < npos) (hn : n ≤ b.length) (hd : n ≤ d.length)
    (hturns : pos + turns = b.length - n + 1) :
    IsFirst (MatchesAt b (d.take n)) pos (FilterString.findLoop b d n turns pos) := by
  have hlength : (d.take n).length = n := List.length_take_of_le hd
  induction turns generalizing pos with
  | zero =>
    refine isFirst_of_none fun q hq hmatch => ?_
    have hroom := hmatch.1
    omega
  | succ turns ih =>
    have hmatch : MatchesAt b (d.take n) pos ↔ (b.drop pos).take n = d.take n := by
      rw [MatchesAt, hlength]
      exact and_iff_right (by omega)
    rw [FilterString.findLoop]
    split_ifs with h
    · exact .inl ⟨le_rfl, by omega, hmatch.mpr h, fun q hq _ => hq⟩
    · exact (ih (by omega)).step fun hP => h (hmatch.mp hP)

/-- The guard of `find` also refuses the last position with room for the needle. -/
theorem isFirst_filterFind_iff (hlen : b.length < npos) (hd : n ≤ d.length) :
    IsFirst (MatchesAt b (d.take n)) pos (FilterString.find b d pos n) ↔
      ¬ (pos ≤ b.length ∧ b.drop pos = d.take n) := by
  have hlength : (d.take n).length = n := List.length_take_of_le hd
  have hlast : ∀ q, pos ≤ q → b.length - n ≤ pos → MatchesAt b (d.take n) q →
      q = pos ∧ b.drop pos = d.take n := by
    intro q hq hpos hmatch
    have hroom := hmatch.1
    rw [hlength] at hroom
    obtain rfl : q = pos := by omega
    have hwhole := hmatch.2
    rw [hlength, List.take_of_length_le (by rw [List.length_drop]; omega)] at hwhole
    exact ⟨rfl, hwhole⟩
  rw [FilterString.find]
  split_ifs with h
  · constructor
    · rintro (⟨-, hlt, -⟩ | ⟨-, hnone⟩) ⟨hle, hdrop⟩
      · exact absurd hlt (lt_irrefl _)
      · have hlen' := congrArg List.length hdrop
        rw [hlength, List.length_drop] at hlen'
        refine hnone pos le_rfl ⟨by omega, ?_⟩
        rw [hlength, hdrop, List.take_of_length_le hlength.le]
    · intro hdrop
      refine isFirst_of_none fun q hq hmatch => ?_
      have hroom := hmatch.1
      rw [hlength] at hroom
      obtain ⟨rfl, heq⟩ := hlast q hq (by omega) hmatch
      exact hdrop ⟨by omega, heq⟩
  · rw [not_or, not_or] at h
    refine iff_of_true (isFirst_filterLoop hlen (by omega) hd (by omega)) ?_
    rintro ⟨-, hdrop⟩
    have hlen' := congrArg List.length hdrop
    rw [hlength, List.length_drop] at hlen'
    omega

theorem getElem?_text {q : ℕ} (hq : q < b.length) (rest : Bytes) :
    (b ++ 0 :: rest)[q]? = some b[q] := by
  rw [List.getElem?_append_left hq, List.getElem?_eq_getElem hq]

theorem scanLoop_spec (hlen : b.length < npos) (rest : Bytes) (hturns : pos + turns = b.length) :
    ∃ r, scanLoop (b ++ 0 :: rest) accept turns pos = some r ∧
      IsFirst (fun q => ∃ a, b[q]? = some a ∧ accept a = true) pos r := by
  induction turns generalizing pos with
  | zero =>
    refine ⟨npos, rfl, isFirst_of_none ?_⟩
    rintro q hq ⟨a, ha, -⟩
    have hlt := (List.getElem?_eq_some_iff.mp ha).1
    omega
  | succ turns ih =>
    have hpos : pos < b.length := by omega
    have hget : b[pos]? = some b[pos] := List.getElem?_eq_getElem hpos
    simp only [scanLoop, getElem?_text hpos, Option.bind_eq_bind, Option.bind_some]
    by_cases h : accept b[pos] = true
    · exact ⟨pos, if_pos h, .inl ⟨le_rfl, by omega, ⟨_, hget, h⟩, fun q hq _ => hq⟩⟩
    · obtain ⟨r, hr, hfirst⟩ := @ih (pos + 1) (by omega)
      refine ⟨r, by rw [if_neg h, hr], hfirst.step ?_⟩
      rintro ⟨a, ha, haccept⟩
      rw [hget] at ha
      exact h (Option.some.inj ha ▸ haccept)

theorem scanBack_spec (accept : UInt8 → Bool) (rest : Bytes) (hk : k ≤ b.length) :
    ∃ r, scanBack (b ++ 0 :: rest) accept k = some r ∧
      ((r < k ∧ (∃ a, b[r]? = some a ∧ accept a = true) ∧
          ∀ q < k, (∃ a, b[q]? = some a ∧ accept a = true) → q ≤ r) ∨
        r = npos ∧ ∀ q < k, ¬ ∃ a, b[q]? = some a ∧ accept a = true) := by
  induction k with
  | zero => exact ⟨npos, rfl, .inr ⟨rfl, fun q hq => absurd hq (Nat.not_lt_zero q)⟩⟩
  | succ k ih =>
    have hget : b[k]? = some b[k] := List.getElem?_eq_getElem hk
    simp only [scanBack, getElem?_text (Nat.lt_of_succ_le hk), Option.bind_eq_bind,
      Option.bind_some]
    by_cases h : accept b[k] = true
    · exact ⟨k, if_pos h, .inl ⟨Nat.lt_succ_self k, ⟨_, hget, h⟩,
        fun q hq _ => Nat.le_of_lt_succ hq⟩⟩
    · have hlower : ∀ q < k + 1, (∃ a, b[q]? = some a ∧ accept a = true) → q < k := by
        rintro q hq ⟨a, ha, haccept⟩
        rcases (Nat.le_of_lt_succ hq).eq_or_lt with rfl | hlt
        · rw [hget] at ha
          exact absurd (Option.some.inj ha ▸ haccept) h
        · exact hlt
      obtain ⟨r, hr, hlast⟩ := ih (by omega)
      refine ⟨r, by rw [if_neg h, hr], ?_⟩
      rcases hlast with ⟨hrk, hP, hmax⟩ | ⟨hrn, hnone⟩
      · exact .inl ⟨by omega, hP, fun q hq hPq => hmax q (hlower q hq hPq) hPq⟩
      · exact .inr ⟨hrn, fun q hq hPq => hnone q (hlower q hq hPq) hPq⟩

/-- The set of characters that is compared with in the loops. -/
theorem holdsOneOf_iff (hd : n ≤ d.length) (rest' : Bytes) {q : ℕ} :
    (∃ a, b[q]? = some a ∧ (((d ++ 0 :: rest').take n).contains a) = true) ↔
      HoldsOneOf b (d.take n) q := by
  rw [List.take_append_of_le_length hd]
  simp only [HoldsOneOf, List.contains_iff_mem]
  exact ⟨fun ⟨a, ha, hmem⟩ => ⟨a, hmem, ha⟩, fun ⟨a, hmem, ha⟩ => ⟨a, ha, hmem⟩⟩

theorem findFirstOfChars_spec (ht : t.Represents b) (hd : 0 ∉ d) (hn : n ≤ d.length)
    (rest' : Bytes) (pos : ℕ) :
    ∃ r, t.findFirstOfChars (some (d ++ 0 :: rest')) pos n = some r ∧
      IsFirst (HoldsOneOf b (d.take n)) pos r := by
  obtain ⟨rest, hrest⟩ := ht.chars
  have hlen := ht.length_lt
  simp only [findFirstOfChars, ht.slen, hrest, strlen_text hd, Option.bind_eq_bind,
    Option.bind_some]
  split_ifs with hpos hlong
  · refine ⟨npos, rfl, isFirst_of_none fun q hq h => ?_⟩
    have hlt := h.lt
    omega
  · omega
  · have hset : HoldsOneOf b (d.take n) = fun q => ∃ a, b[q]? = some a ∧
        ((d ++ 0 :: rest').take n).contains a = true :=
      funext fun q => propext (holdsOneOf_iff hn rest').symm
    rw [hset]
    exact scanLoop_spec (by unfold npos; omega) rest (by omega)

/-- A search from the back that starts inside the string or is for the whole of it. -/
theorem findLastOfChars_spec (ht : t.Represents b) (hd : 0 ∉ d) (hn : n ≤ d.length)
    (rest' : Bytes) (hpos : pos ≤ b.length ∨ pos = npos) :
    ∃ r, t.findLastOfChars (some (d ++ 0 :: rest')) pos n = some r ∧
      IsLast (HoldsOneOf b (d.take n)) pos r := by
  obtain ⟨rest, hrest⟩ := ht.chars
  have hlen := ht.length_lt
  have hnone : ∀ q, b.length ≤ q → ¬ HoldsOneOf b (d.take n) q :=
    fun q hq h => absurd h.lt (not_lt.mpr hq)
  have hzero : ((d ++ 0 :: rest').take n).contains 0 = false := by
    rw [List.take_append_of_le_length hn, Bool.eq_false_iff, Ne, List.contains_iff_mem]
    exact fun h => hd (List.mem_of_mem_take h)
  -- the terminator is not one of the characters, so that a start behind the last one is no other
  have hscan : ∀ k ≤ b.length + 1, ∃ r,
      scanBack (b ++ 0 :: rest) (fun a => ((d ++ 0 :: rest').take n).contains a) k = some r ∧
      ((r < k ∧ HoldsOneOf b (d.take n) r ∧ ∀ q < k, HoldsOneOf b (d.take n) q → q ≤ r) ∨
        r = npos ∧ ∀ q < k, ¬ HoldsOneOf b (d.take n) q) := by
    intro k hk
    simp only [← holdsOneOf_iff hn rest']
    rcases hk.eq_or_lt with rfl | hlt
    · obtain ⟨r, hr, hlast⟩ := scanBack_spec
        (fun a => ((d ++ 0 :: rest').take n).contains a) rest (le_refl b.length)
      refine ⟨r, ?_, ?_⟩
      · rw [scanBack, List.getElem?_append_right le_rfl, Nat.sub_self, List.getElem?_cons_zero,
          Option.bind_eq_bind, Option.bind_some, hzero, if_neg (by decide), hr]
      · have hlower : ∀ q < b.length + 1, (∃ a, b[q]? = some a ∧
            ((d ++ 0 :: rest').take n).contains a = true) → q < b.length := by
          rintro q - ⟨a, ha, -⟩
          exact (List.getElem?_eq_some_iff.mp ha).1
        rcases hlast with ⟨hrk, hP, hmax⟩ | ⟨hrn, hno⟩
        · exact .inl ⟨by omega, hP, fun q hq hPq => hmax q (hlower q hq hPq) hPq⟩
        · exact .inr ⟨hrn, fun q hq hPq => hno q (hlower q hq hPq) hPq⟩
    · exact scanBack_spec _ rest (Nat.le_of_lt_succ hlt)
  have hbound : ∀ {k r}, k ≤ b.length + 1 → r < k → r < npos := by
    intro k r hk hr
    unfold npos
    omega
  simp only [findLastOfChars, ht.slen, hrest, strlen_text hd, Option.bind_eq_bind,
    Option.bind_some, if_neg (not_lt.mpr hn)]
  by_cases hwhole : pos = npos
  · subst hwhole
    rw [if_pos rfl]
    by_cases hempty : b.length = 0
    · have hbehind : size (b.length + npos) > b.length := by
        rw [hempty]
        decide
      rw [if_pos hbehind]
      exact ⟨npos, rfl, .inr ⟨rfl, fun q _ => hnone q (by omega)⟩⟩
    · have hlast : size (b.length + npos) = b.length - 1 := by
        unfold size npos
        omega
      have hnext : size (b.length - 1 + 1) = b.length := by
        unfold size
        omega
      rw [hlast, if_neg (by omega), hnext]
      obtain ⟨r, hr, hspec⟩ := hscan b.length (by omega)
      refine ⟨r, hr, ?_⟩
      rcases hspec with ⟨hrk, hP, hmax⟩ | ⟨hrn, hno⟩
      · have hlt := hbound (Nat.le_succ _) hrk
        exact .inl ⟨hlt.le, hlt, hP, fun q _ hPq => hmax q hPq.lt hPq⟩
      · exact .inr ⟨hrn, fun q _ hPq => hno q hPq.lt hPq⟩
  · have hle : pos ≤ b.length := hpos.resolve_right hwhole
    have hnext : size (pos + 1) = pos + 1 := by
      unfold size
      omega
    rw [if_neg hwhole, if_neg (by omega), hnext]
    obtain ⟨r, hr, hspec⟩ := hscan (pos + 1) (by omega)
    refine ⟨r, hr, ?_⟩
    rcases hspec with ⟨hrk, hP, hmax⟩ | ⟨hrn, hno⟩
    · exact .inl ⟨by omega, hbound (by omega) hrk, hP,
        fun q hq hPq => hmax q (by omega) hPq⟩
    · exact .inr ⟨hrn, fun q hq hPq => hno q (by omega) hPq⟩

theorem findLastOfChars_behind (ht : t.Represents b) (hpos : b.length < pos) (hne : pos ≠ npos)
    (m : Bytes) : t.findLastOfChars (some m) pos n = some npos := by
  simp only [findLastOfChars, if_neg hne, ht.slen, if_pos hpos]

end Search

section Needles

variable {t : StringBuffer} {b c behind : Bytes} {pos : ℕ} {a : UInt8} {x : Needle}

/-- Every needle but a character is the beginning of a text, and is searched as such. -/
theorem Needle.Holds.form (hx : x.Holds c) (hchar : ¬ x.IsChar) :
    ∃ d rest n, 0 ∉ d ∧ n ≤ d.length ∧ c = d.take n ∧ ∀ t pos,
      x.find t pos = t.findChars (some (d ++ 0 :: rest)) pos n ∧
      x.findFirstOf t pos = t.findFirstOfChars (some (d ++ 0 :: rest)) pos n ∧
      x.findLastOf t pos = t.findLastOfChars (some (d ++ 0 :: rest)) pos n := by
  cases x with
  | string str =>
    obtain ⟨rest, hrest⟩ := Represents.chars hx
    refine ⟨c, rest, c.length, hx.noNul, le_rfl, List.take_length.symm, fun t pos => ?_⟩
    rw [← hrest, ← Represents.slen hx]
    exact ⟨rfl, rfl, rfl⟩
  | chars s n =>
    obtain ⟨d, ⟨hd, rest, rfl⟩, hn, rfl⟩ := hx
    exact ⟨d, rest, n, hd, hn, rfl, fun t pos => ⟨rfl, rfl, rfl⟩⟩
  | text s =>
    obtain ⟨hc, rest, rfl⟩ := hx
    refine ⟨c, rest, c.length, hc, le_rfl, List.take_length.symm, fun t pos => ?_⟩
    simp only [Needle.find, Needle.findFirstOf, Needle.findLastOf, findText, findFirstOfText,
      findLastOfText, strlen_text hc, Option.bind_eq_bind, Option.bind_some, and_self]
  | char a behind => exact absurd trivial hchar

theorem char_form (ha : a ≠ 0) (h : 0 ∈ behind) :
    ∃ d rest, 0 ∉ d ∧ 1 ≤ d.length ∧ [a] = d.take 1 ∧ a :: behind = d ++ 0 :: rest := by
  obtain ⟨pre, rest, hsplit, hpre⟩ := List.eq_append_cons_of_mem h
  refine ⟨a :: pre, rest, ?_, by simp, rfl, by rw [hsplit, List.cons_append]⟩
  rw [List.mem_cons, not_or]
  exact ⟨ha.symm, hpre⟩

theorem matchesAt_singleton {q : ℕ} :
    MatchesAt b [a] q ↔ ∃ e, b[q]? = some e ∧ (e == a) = true := by
  rw [MatchesAt, List.length_singleton, List.take_one, List.head?_drop]
  constructor
  · rintro ⟨hroom, hhead⟩
    rw [List.getElem?_eq_getElem hroom, Option.toList_some, List.singleton_inj] at hhead
    exact ⟨a, by rw [List.getElem?_eq_getElem hroom, hhead], beq_self_eq_true a⟩
  · rintro ⟨e, he, heq⟩
    rw [he, beq_iff_eq.mp heq]
    exact ⟨(List.getElem?_eq_some_iff.mp he).1, rfl⟩

theorem Needle.find_iff (ht : t.Represents b) (hx : x.Holds c) :
    (∃ r, x.find t pos = some r ∧ IsFirst (MatchesAt b c) pos r) ↔
      x.IsChar ∨ ¬ (pos ≤ b.length ∧ b.drop pos = c) := by
  have hlen := ht.length_lt
  by_cases hchar : x.IsChar
  · refine iff_of_true ?_ (.inl hchar)
    cases x with
    | char a behind =>
      obtain rfl := hx
      obtain ⟨rest, hrest⟩ := ht.chars
      simp only [Needle.find, findChar, ht.slen, hrest]
      have hset : MatchesAt b [a] = fun q => ∃ e, b[q]? = some e ∧ (e == a) = true :=
        funext fun q => propext matchesAt_singleton
      rw [hset]
      split_ifs with hpos
      · refine ⟨npos, rfl, isFirst_of_none ?_⟩
        rintro q hq ⟨e, he, -⟩
        have hlt := (List.getElem?_eq_some_iff.mp he).1
        omega
      · exact scanLoop_spec (by unfold npos; omega) rest (by omega)
    | string _ => exact hchar.elim
    | chars _ _ => exact hchar.elim
    | text _ => exact hchar.elim
  · obtain ⟨d, rest, n, hd, hn, rfl, hcalls⟩ := hx.form hchar
    simp only [(hcalls t pos).1, findChars_eq ht hd, Option.some.injEq, exists_eq_left', hchar,
      false_or]
    exact isFirst_filterFind_iff (by unfold npos; omega) hn

theorem not_holdsOneOf_zero (hb : 0 ∉ b) {q : ℕ} : ¬ HoldsOneOf b [0] q := by
  rintro ⟨a, ha, hget⟩
  obtain rfl := List.mem_singleton.mp ha
  exact hb (List.mem_of_getElem? hget)

theorem Needle.findFirstOf_iff (ht : t.Represents b) (hx : x.Holds c) :
    (∃ r, x.findFirstOf t pos = some r ∧ IsFirst (HoldsOneOf b c) pos r) ↔
      b.length ≤ pos ∨ x.Terminated := by
  by_cases hchar : x.IsChar
  · cases x with
    | char a behind =>
      obtain rfl := hx
      by_cases hpos : b.length ≤ pos
      · refine iff_of_true ⟨npos, ?_, isFirst_of_none fun q hq h => ?_⟩ (.inl hpos)
        · simp only [Needle.findFirstOf, findFirstOfChar, findFirstOfChars, ht.slen, hpos,
            if_true]
        · have hlt := h.lt
          omega
      · by_cases ha : a = 0
        · subst ha
          refine iff_of_true ⟨npos, ?_, isFirst_of_none fun q _ => not_holdsOneOf_zero ht.noNul⟩
            (.inr (.inl rfl))
          simp [Needle.findFirstOf, findFirstOfChar, findFirstOfChars, ht.slen, hpos, strlen, cStr]
        · by_cases h0 : 0 ∈ behind
          · obtain ⟨d, rest, hd, hone, htake, heq⟩ := char_form ha h0
            refine iff_of_true ?_ (.inr (.inr h0))
            rw [Needle.findFirstOf, findFirstOfChar, heq, htake]
            exact findFirstOfChars_spec ht hd hone rest pos
          · have hunterminated : strlen (a :: behind) = none :=
              if_neg (by simp [Ne.symm ha, h0])
            simp [Needle.findFirstOf, findFirstOfChar, findFirstOfChars, ht.slen, hpos,
              hunterminated, Needle.Terminated, ha, h0]
    | string _ => exact hchar.elim
    | chars _ _ => exact hchar.elim
    | text _ => exact hchar.elim
  · obtain ⟨d, rest, n, hd, hn, rfl, hcalls⟩ := hx.form hchar
    have hterminated : x.Terminated := by
      cases x <;> first | trivial | exact absurd trivial hchar
    refine iff_of_true ?_ (.inr hterminated)
    rw [(hcalls t pos).2.1]
    exact findFirstOfChars_spec ht hd hn rest pos

/-- Where a search from the back has a result as it should be. -/
def LastOfHolds (x : Needle) (b c : Bytes) (pos : ℕ) : Prop :=
  if b.length < pos ∧ pos ≠ npos then ∀ a ∈ c, a ∉ b else b = [] ∧ pos = npos ∨ x.Terminated

theorem isLast_npos_iff (hlt : b.length < pos) :
    IsLast (HoldsOneOf b c) pos npos ↔ ∀ a ∈ c, a ∉ b := by
  constructor
  · rintro (⟨-, hlt, -⟩ | ⟨-, hnone⟩) a ha hb
    · exact absurd hlt (lt_irrefl _)
    · obtain ⟨q, hq, hget⟩ := List.getElem_of_mem hb
      exact hnone q (by omega) ⟨a, ha, by rw [List.getElem?_eq_getElem hq, hget]⟩
  · intro h
    refine .inr ⟨rfl, ?_⟩
    rintro q - ⟨a, ha, hget⟩
    exact h a ha (List.mem_of_getElem? hget)

theorem Needle.findLastOf_iff (ht : t.Represents b) (hx : x.Holds c) :
    (∃ r, x.findLastOf t pos = some r ∧ IsLast (HoldsOneOf b c) pos r) ↔
      LastOfHolds x b c pos := by
  rw [LastOfHolds]
  by_cases hchar : x.IsChar
  · cases x with
    | char a behind =>
      obtain rfl := hx
      simp only [Needle.findLastOf, findLastOfChar]
      split_ifs with hpos
      · simp only [findLastOfChars_behind ht hpos.1 hpos.2, Option.some.injEq, exists_eq_left']
        exact isLast_npos_iff hpos.1
      · have hin : pos ≤ b.length ∨ pos = npos := by
          by_cases hle : pos ≤ b.length
          · exact .inl hle
          · exact .inr (by_contra fun hne => hpos ⟨not_le.mp hle, hne⟩)
        by_cases hwhole : b = [] ∧ pos = npos
        · obtain ⟨rfl, rfl⟩ := hwhole
          refine iff_of_true ⟨npos, ?_, .inr ⟨rfl, fun q _ h => absurd h.lt (by simp)⟩⟩
            (.inl ⟨rfl, rfl⟩)
          have hslen : t.slen = 0 := ht.slen
          simp only [findLastOfChars, hslen, if_true]
          exact if_pos (by decide)
        · -- here the length of the needle is taken
          have hguard : ¬ (if pos = npos then size (b.length + npos) else pos) > b.length := by
            have hlen := ht.length_lt
            split_ifs with h
            · have hne : b.length ≠ 0 := fun h0 => hwhole ⟨List.length_eq_zero_iff.mp h0, h⟩
              unfold size npos
              omega
            · exact not_lt.mpr (hin.resolve_right h)
          by_cases ha : a = 0
          · subst ha
            refine iff_of_true ⟨npos, ?_, .inr ⟨rfl, fun q _ => not_holdsOneOf_zero ht.noNul⟩⟩
              (.inr (.inl rfl))
            have hzero : strlen (0 :: behind) = some 0 := by simp [strlen, cStr]
            simp only [findLastOfChars, ht.slen, if_neg hguard, hzero, Option.bind_eq_bind,
              Option.bind_some, Nat.zero_lt_one, if_true]
          · by_cases h0 : 0 ∈ behind
            · obtain ⟨d, rest, hd, hone, htake, heq⟩ := char_form ha h0
              refine iff_of_true ?_ (.inr (.inr h0))
              rw [heq, htake]
              exact findLastOfChars_spec ht hd hone rest hin
            · have hunterminated : strlen (a :: behind) = none :=
                if_neg (by simp [Ne.symm ha, h0])
              have hundefined : t.findLastOfChars (some (a :: behind)) pos 1 = none := by
                simp only [findLastOfChars, ht.slen, if_neg hguard, hunterminated,
                  Option.bind_eq_bind, Option.bind_none]
              refine iff_of_false ?_ ?_
              · rintro ⟨r, hr, -⟩
                rw [hundefined] at hr
                exact absurd hr (by simp)
              · rintro (h | h | h)
                · exact hwhole h
                · exact ha h
                · exact h0 h
    | string _ => exact hchar.elim
    | chars _ _ => exact hchar.elim
    | text _ => exact hchar.elim
  · obtain ⟨d, rest, n, hd, hn, rfl, hcalls⟩ := hx.form hchar
    have hterminated : x.Terminated := by
      cases x <;> first | trivial | exact absurd trivial hchar
    rw [(hcalls t pos).2.2]
    split_ifs with hpos
    · simp only [findLastOfChars_behind ht hpos.1 hpos.2, Option.some.injEq, exists_eq_left']
      exact isLast_npos_iff hpos.1
    · refine iff_of_true (findLastOfChars_spec ht hd hn rest ?_) (.inr hterminated)
      by_cases hle : pos ≤ b.length
      · exact .inl hle
      · exact .inr (by_contra fun hne => hpos ⟨not_le.mp hle, hne⟩)

end Needles

/-! ## Comparing parts -/

section Parts

variable {t : StringBuffer} {b c u v m rest : Bytes} {n n1 n2 pos1 pos2 k : ℕ}

/-- Cutting the second sequence does not change a comparison unless what is left of it is the
beginning of the first one. -/
theorem lexCompare_take_right (u v : Bytes) (k : ℕ) :
    lexCompare u v = lexCompare u (v.take k) ↔
      v.take k = v ∨ ¬ v.take k <+: u ∨ v < u := by
  induction k generalizing u v with
  | zero =>
    rw [List.take_zero]
    cases v with
    | nil => simp
    | cons c v =>
      cases u with
      | nil => simp [lexCompare]
      | cons a u =>
        have hempty : lexCompare (a :: u) [] = .gt := rfl
        simp [hempty]
  | succ k ih =>
    cases v with
    | nil => simp
    | cons c v =>
      rw [List.take_succ_cons]
      cases u with
      | nil => simp [lexCompare]
      | cons a u =>
        rw [lexCompare, lexCompare, List.cons_prefix_cons, List.cons_lt_cons_iff]
        split_ifs with hlt hgt
        · have hne : c ≠ a := by
            rintro rfl
            exact UInt8.lt_irrefl c hlt
          simp [hne]
        · simp [hgt]
        · obtain rfl := byte_eq hlt hgt
          rw [ih]
          simp [hlt]

theorem lexCompare_take_left (u v : Bytes) (k : ℕ) :
    lexCompare u v = lexCompare (u.take k) v ↔
      u.take k = u ∨ ¬ u.take k <+: v ∨ u < v := by
  rw [← lexCompare_take_right, ← lexCompare_swap v u, ← lexCompare_swap v (u.take k)]
  exact ⟨fun h => by simpa using congrArg Ordering.swap h, fun h => by rw [h]⟩

/-- The larger one of the two numbers of characters may stand for both: the smaller one does not
cut, or what it leaves is not the beginning of the other part, or the rest goes the same way. -/
def OneCut (u v : Bytes) (n1 n2 : ℕ) : Prop :=
  if n2 ≤ n1 then v.take n2 = v.take n1 ∨ ¬ v.take n2 <+: u.take n1 ∨ v.take n1 < u.take n1
  else u.take n1 = u.take n2 ∨ ¬ u.take n1 <+: v.take n2 ∨ u.take n2 < v.take n2

theorem lexCompare_max_iff (u v : Bytes) (n1 n2 : ℕ) :
    lexCompare (u.take (if n1 > n2 then n1 else n2)) (v.take (if n1 > n2 then n1 else n2)) =
      lexCompare (u.take n1) (v.take n2) ↔ OneCut u v n1 n2 := by
  rw [OneCut]
  rcases lt_trichotomy n1 n2 with hlt | rfl | hgt
  · have hcut : u.take n1 = (u.take n2).take n1 := by rw [List.take_take, min_eq_left hlt.le]
    rw [if_neg (not_lt.mpr hlt.le), if_neg (not_le.mpr hlt), hcut]
    exact lexCompare_take_left _ _ _
  · simp
  · have hcut : v.take n2 = (v.take n1).take n2 := by rw [List.take_take, min_eq_left hgt.le]
    rw [if_pos hgt, if_pos hgt.le, hcut]
    exact lexCompare_take_right _ _ _

/-- Where they differ first, among `n` characters, the memory has the smaller one. -/
def MemoryBelow (n : ℕ) (u m : Bytes) : Prop :=
  ∃ i < n, ∃ a c, m.take i = u.take i ∧ u[i]? = some a ∧ m[i]? = some c ∧ c < a

theorem strncmp_eq_gt (hu : 0 ∉ u) (rest m : Bytes) (n : ℕ) :
    strncmp n (u ++ 0 :: rest) m = some .gt ↔ MemoryBelow n u m := by
  induction n generalizing u m with
  | zero => simp [strncmp, MemoryBelow]
  | succ n ih =>
    cases m with
    | nil =>
      have hnone : ¬ MemoryBelow (n + 1) u [] := by
        rintro ⟨i, -, a, c, -, -, hget, -⟩
        simp at hget
      refine iff_of_false ?_ hnone
      cases u <;> simp [strncmp]
    | cons c m =>
      cases u with
      | nil =>
        have hnone : ¬ MemoryBelow (n + 1) [] (c :: m) := by
          rintro ⟨i, -, a, e, -, hget, -⟩
          simp at hget
        refine iff_of_false ?_ hnone
        have hnot : ¬ c < 0 := UInt8.not_lt.mpr UInt8.zero_le
        simp only [List.nil_append, strncmp, hnot, if_false, if_true]
        split_ifs <;> simp
      | cons a u =>
        have ha : a ≠ 0 := fun h => hu (h ▸ List.mem_cons_self)
        have hu' : 0 ∉ u := fun h => hu (List.mem_cons_of_mem _ h)
        simp only [List.cons_append, strncmp, if_neg ha]
        split_ifs with hlt hgt
        · refine iff_of_false (by simp) ?_
          rintro ⟨i, -, a', c', htake, hget, hget', hless⟩
          cases i with
          | zero =>
            simp only [List.getElem?_cons_zero, Option.some.injEq] at hget hget'
            exact UInt8.lt_irrefl a (UInt8.lt_trans hlt (hget ▸ hget' ▸ hless))
          | succ i =>
            rw [List.take_succ_cons, List.take_succ_cons, List.cons.injEq] at htake
            exact UInt8.lt_irrefl a (htake.1 ▸ hlt)
        · exact iff_of_true rfl ⟨0, Nat.succ_pos n, a, c, rfl, rfl, rfl, hgt⟩
        · obtain rfl := byte_eq hlt hgt
          rw [ih hu']
          constructor
          · rintro ⟨i, hi, a', c', htake, hget, hget', hless⟩
            exact ⟨i + 1, by omega, a', c', by rw [List.take_succ_cons, htake, List.take_succ_cons],
              hget, hget', hless⟩
          · rintro ⟨i, hi, a', c', htake, hget, hget', hless⟩
            cases i with
            | zero =>
              simp only [List.getElem?_cons_zero, Option.some.injEq] at hget hget'
              rw [← hget, ← hget'] at hless
              exact absurd hless (UInt8.lt_irrefl a)
            | succ i =>
              rw [List.take_succ_cons, List.take_succ_cons, List.cons.injEq] at htake
              exact ⟨i, by omega, a', c', htake.2, hget, hget', hless⟩

/-- Where `compare` has the sign of the comparison of the two parts. -/
def PartsHold (b c m : Bytes) (r : Ranges) : Prop :=
  if (b.drop r.pos1).take r.n1 = [] then (c.drop r.pos2).take r.n2 ≠ [] ∨ b = [] ∧ c = []
  else if c = [] then r.pos2 = 0 ∨
    MemoryBelow (if r.n1 > r.n2 then r.n1 else r.n2) (b.drop r.pos1) (m.drop r.pos2)
  else r.pos2 < c.length ∧ OneCut (b.drop r.pos1) (c.drop r.pos2) r.n1 r.n2

theorem compareAt_iff (hb : 0 ∉ b) (hc : 0 ∉ c) (hblen : b.length < 2 ^ 64)
    (hclen : c.length < 2 ^ 64) (rest rest' : Bytes) (r : Ranges) (hpos : r.pos2 < 2 ^ 64) :
    compareAt (some (b ++ 0 :: rest)) b.length r.pos1 r.n1 (some (c ++ 0 :: rest')) c.length r.pos2
        r.n2 = some (lexCompare ((b.drop r.pos1).take r.n1) ((c.drop r.pos2).take r.n2)) ↔
      PartsHold b c (c ++ 0 :: rest') r := by
  obtain ⟨pos1, n1, pos2, n2⟩ := r
  simp only at hpos
  simp only [compareAt, PartsHold]
  have hlt_nil : ∀ w : Bytes, some Ordering.lt = some (lexCompare [] w) ↔ w ≠ [] := by
    intro w
    cases w <;> simp [lexCompare]
  by_cases hempty : b.length = 0
  · obtain rfl := List.length_eq_zero_iff.mp hempty
    simp only [List.drop_nil, List.take_nil, List.length_nil, true_and, if_true]
    by_cases hc0 : c.length = 0
    · obtain rfl := List.length_eq_zero_iff.mp hc0
      simp
    · have hcne : c ≠ [] := fun h => hc0 (by rw [h]; rfl)
      rw [if_neg hc0, hlt_nil]
      simp [hcne]
  · have hbne : b ≠ [] := fun h => hempty (by rw [h]; rfl)
    have hsize : size (b.length + npos) = b.length - 1 := by
      unfold size npos
      omega
    rw [if_neg (fun h => hempty h.1), if_neg hempty, if_neg hempty, hsize]
    by_cases hfirst : (b.drop pos1).take n1 = []
    · have hguard : n1 = 0 ∨ pos1 > b.length - 1 := by
        rw [List.take_eq_nil_iff, List.drop_eq_nil_iff] at hfirst
        omega
      rw [if_pos (hguard.imp_right Or.inl), if_pos hfirst, hfirst, hlt_nil]
      simp [hbne]
    · have hn1 : n1 ≠ 0 := fun h => hfirst (by rw [h, List.take_zero])
      have hpos1 : ¬ pos1 > b.length - 1 := by
        intro h
        exact hfirst (by rw [List.drop_eq_nil_of_le (by omega), List.take_nil])
      have hdrop : (b ++ 0 :: rest).drop pos1 = b.drop pos1 ++ 0 :: rest :=
        List.drop_append_of_le_length (by omega)
      have hsub : 0 ∉ b.drop pos1 := fun h => hb (List.mem_of_mem_drop h)
      have hgt_nil : lexCompare ((b.drop pos1).take n1) [] = .gt := by
        cases hw : (b.drop pos1).take n1 with
        | nil => exact absurd hw hfirst
        | cons a w => rfl
      rw [if_neg hfirst]
      by_cases hc0 : c = []
      · subst hc0
        have hwrap : ¬ pos2 > size (List.length ([] : Bytes) + npos) := by
          have hmax : size (List.length ([] : Bytes) + npos) = 2 ^ 64 - 1 := by decide
          omega
        have hguard : ¬ (n1 = 0 ∨ pos1 > b.length - 1 ∨
            pos2 > size (List.length ([] : Bytes) + npos)) := by
          rintro (h | h | h)
          · exact hn1 h
          · exact hpos1 h
          · exact hwrap h
        rw [if_neg hguard, if_pos rfl, List.drop_nil, List.take_nil, hgt_nil, hdrop,
          strncmp_eq_gt hsub]
        constructor
        · exact .inr
        · rintro (rfl | h)
          · -- the terminator of the empty string is below the first character
            obtain ⟨a, w, hw⟩ : ∃ a w, b.drop pos1 = a :: w :=
              List.exists_cons_of_ne_nil fun h => hfirst (by rw [h, List.take_nil])
            have ha : 0 < a := UInt8.pos_iff_ne_zero.mpr
              fun h0 => hsub (by rw [hw, h0]; exact List.mem_cons_self)
            refine ⟨0, by split_ifs <;> omega, a, 0, rfl, ?_, rfl, ha⟩
            rw [hw]
            rfl
          · exact h
      · have hclen0 : c.length ≠ 0 := fun h => hc0 (List.length_eq_zero_iff.mp h)
        have hsize2 : size (c.length + npos) = c.length - 1 := by
          unfold size npos
          omega
        rw [hsize2, if_neg hc0]
        by_cases hpos2 : pos2 < c.length
        · have hguard : ¬ (n1 = 0 ∨ pos1 > b.length - 1 ∨ pos2 > c.length - 1) := by omega
          have hdrop2 : (c ++ 0 :: rest').drop pos2 = c.drop pos2 ++ 0 :: rest' :=
            List.drop_append_of_le_length hpos2.le
          have hsub2 : 0 ∉ c.drop pos2 := fun h => hc (List.mem_of_mem_drop h)
          rw [if_neg hguard, hdrop, hdrop2, strncmp_text hsub hsub2, Option.some.injEq,
            lexCompare_max_iff, and_iff_right hpos2]
        · have hnil : c.drop pos2 = [] := List.drop_eq_nil_of_le (not_lt.mp hpos2)
          rw [if_pos (.inr (.inr (by omega))), hnil, List.take_nil, hgt_nil]
          simp [hpos2]

/-- Every call of `compare` is the comparison of its ranges. -/
theorem CompareCall.Holds.result {x : CompareCall} (ht : t.Represents b) (hx : x.Holds c m) :
    0 ∉ c ∧ ∃ rest rest', m = c ++ 0 :: rest' ∧
      x.result t = compareAt (some (b ++ 0 :: rest)) b.length (x.ranges b c).pos1
        (x.ranges b c).n1 (some m) c.length (x.ranges b c).pos2 (x.ranges b c).n2 := by
  obtain ⟨rest, hrest⟩ := ht.chars
  have hstring : ∀ {str : StringBuffer}, str.Represents c ∧ m = str.s →
      0 ∉ c ∧ (∃ rest', m = c ++ 0 :: rest') ∧ str.slen = c.length := by
    rintro str ⟨hstr, rfl⟩
    exact ⟨hstr.noNul, hstr.chars, hstr.slen⟩
  have htext : ∀ {s : Option Bytes}, IsText s c ∧ s = some m →
      0 ∉ c ∧ (∃ rest', m = c ++ 0 :: rest') ∧ strlen m = some c.length := by
    rintro s ⟨⟨hc, rest', rfl⟩, hm⟩
    obtain rfl := Option.some.inj hm
    exact ⟨hc, ⟨rest', rfl⟩, strlen_text hc rest'⟩
  cases x with
  | string str | fromString _ _ str | parts _ _ str _ _ =>
    obtain ⟨hc, ⟨rest', hm⟩, hslen⟩ := hstring hx
    refine ⟨hc, rest, rest', hm, ?_⟩
    simp only [CompareCall.result, compare, compareFrom, compareParts, CompareCall.ranges, ht.slen,
      hslen, hrest, hx.2]
  | chars s | fromChars _ _ s | fromCharsN _ _ s _ =>
    obtain ⟨hc, ⟨rest', hm⟩, hlen⟩ := htext hx
    refine ⟨hc, rest, rest', hm, ?_⟩
    simp only [CompareCall.result, compareChars, compareFromChars, compareFromCharsN,
      CompareCall.ranges, ht.slen, hrest, hx.2, hlen, Option.bind_eq_bind, Option.bind_some]

theorem CompareCall.result_iff {x : CompareCall} (ht : t.Represents b) (hx : x.Holds c m)
    (hclen : c.length < 2 ^ 64) (hpos : (x.ranges b c).pos2 < 2 ^ 64) :
    x.result t = some (lexCompare ((b.drop (x.ranges b c).pos1).take (x.ranges b c).n1)
        ((c.drop (x.ranges b c).pos2).take (x.ranges b c).n2)) ↔
      PartsHold b c m (x.ranges b c) := by
  obtain ⟨hc, rest, rest', rfl, hresult⟩ := CompareCall.Holds.result ht hx
  have hlen := ht.length_lt
  rw [hresult]
  exact compareAt_iff ht.noNul hc (by omega) hclen rest rest' _ hpos

end Parts

section Searches

variable {t : StringBuffer} {b : Bytes}

/-- Where the searches in a string and its comparisons have the results that they should have: the
least or greatest position with what is searched, and the order of the two parts. -/
structure SearchesIff (t : StringBuffer) (b : Bytes) : Prop where
  find : ∀ (x : Needle) c pos, x.Holds c →
    ((∃ r, x.find t pos = some r ∧ IsFirst (MatchesAt b c) pos r) ↔
      x.IsChar ∨ ¬ (pos ≤ b.length ∧ b.drop pos = c))
  findFirstOf : ∀ (x : Needle) c pos, x.Holds c →
    ((∃ r, x.findFirstOf t pos = some r ∧ IsFirst (HoldsOneOf b c) pos r) ↔
      b.length ≤ pos ∨ x.Terminated)
  findLastOf : ∀ (x : Needle) c pos, x.Holds c →
    ((∃ r, x.findLastOf t pos = some r ∧ IsLast (HoldsOneOf b c) pos r) ↔ LastOfHolds x b c pos)
  compare : ∀ (x : CompareCall) c m, x.Holds c m → c.length < 2 ^ 64 →
    (x.ranges b c).pos2 < 2 ^ 64 →
    (x.result t = some (lexCompare ((b.drop (x.ranges b c).pos1).take (x.ranges b c).n1)
        ((c.drop (x.ranges b c).pos2).take (x.ranges b c).n2)) ↔
      PartsHold b c m (x.ranges b c))

theorem searches_iff (ht : t.Represents b) : SearchesIff t b where
  find _ _ _ hx := Needle.find_iff ht hx
  findFirstOf _ _ _ hx := Needle.findFirstOf_iff ht hx
  findLastOf _ _ _ hx := Needle.findLastOf_iff ht hx
  compare _ _ _ hx hclen hpos := CompareCall.result_iff ht hx hclen hpos

end Searches

namespace Sample

/-- A string of one character, in a block of two bytes. -/
def letter : StringBuffer := ⟨[97, 0], 2, 1⟩

theorem represents_letter : letter.Represents [97] where
  noNul := by decide
  slen := rfl
  chars := ⟨[], rfl⟩
  capacity := .inr ⟨by decide, rfl⟩
  small := by decide

theorem searches_iff_letter : SearchesIff letter [97] := searches_iff represents_letter

/-- A string is not found in itself. -/
theorem not_found_letter :
    ¬ ∀ (t : StringBuffer) (b : Bytes), t.Represents b → ∀ (x : Needle) c, x.Holds c →
      ∀ pos < 2 ^ 64, ∃ r, x.find t pos = some r ∧ IsFirst (MatchesAt b c) pos r := by
  intro h
  obtain ⟨r, hr, hfirst⟩ := h letter [97] represents_letter (.string letter) [97]
    represents_letter 0 (by norm_num)
  have hnone : Needle.find letter 0 (.string letter) = some npos := by decide
  rw [hnone] at hr
  obtain rfl := Option.some.inj hr
  rcases hfirst with ⟨-, hlt, -⟩ | ⟨-, hno⟩
  · exact absurd hlt (lt_irrefl _)
  · exact hno 0 le_rfl (by decide)

end Sample

end StringBuffer
end Haggle
