import Haggle.PutData

/-!
# Where a header ends

`putData` takes a header to end where the text `</haggle>` ends for the first time. That text stands
between two others only if it is inside one of them, unless they meet in the middle of it.
-/

namespace Haggle

/-- Whether the end tag stands somewhere in a text. -/
def hasEndTag : Bytes → Bool
  | [] => false
  | b :: l => isEndTag ((b :: l).take 9) || hasEndTag l

/-- The root element has this name, in upper or lower case. -/
def isHaggle (name : Bytes) : Bool := isEndTag (lit "</" ++ name ++ lit ">")

/-- The search finds the end of the header, and finds it nowhere before. -/
def Detected (header : Bytes) : Prop :=
  endsHeader header = true ∧ ∀ i < header.length, endsHeader (header.take i) = false

instance (header : Bytes) : Decidable (Detected header) :=
  inferInstanceAs (Decidable (endsHeader header = true ∧ ∀ i < header.length, _))

/-- What the end tag looks like to a text around it. -/
structure EndTag (w : Bytes) : Prop where
  length : w.length = 9
  opens : w.head? = some 60
  closes : w.getLast? = some 62
  inside : 60 ∉ w.tail ∧ 62 ∉ w.dropLast
  noSemicolon : 59 ∉ w

theorem EndTag.of_isEndTag {w : Bytes} (h : isEndTag w = true) : EndTag w := by
  unfold isEndTag at h
  split at h
  · rename_i a b c d e f g i j
    simp only [Bool.and_eq_true, Bool.or_eq_true, decide_eq_true_eq] at h
    obtain ⟨⟨⟨⟨⟨⟨⟨⟨rfl, rfl⟩, hc⟩, hd⟩, he⟩, hf⟩, hg⟩, hi⟩, rfl⟩ := h
    have hletter : ∀ x y z : UInt8, z = x ∨ z = y → (x ≠ 59 ∧ x ≠ 60 ∧ x ≠ 62) →
        (y ≠ 59 ∧ y ≠ 60 ∧ y ≠ 62) → z ≠ 59 ∧ z ≠ 60 ∧ z ≠ 62 := by
      rintro x y z (rfl | rfl) hx hy
      · exact hx
      · exact hy
    have hc := hletter _ _ _ hc (by decide) (by decide)
    have hd := hletter _ _ _ hd (by decide) (by decide)
    have he := hletter _ _ _ he (by decide) (by decide)
    have hf := hletter _ _ _ hf (by decide) (by decide)
    have hg := hletter _ _ _ hg (by decide) (by decide)
    have hi := hletter _ _ _ hi (by decide) (by decide)
    refine ⟨rfl, rfl, rfl, ⟨?_, ?_⟩, ?_⟩
    · simp [hc.2.1.symm, hd.2.1.symm, he.2.1.symm, hf.2.1.symm, hg.2.1.symm, hi.2.1.symm]
    · simp [hc.2.2.symm, hd.2.2.symm, he.2.2.symm, hf.2.2.symm, hg.2.2.symm, hi.2.2.symm]
    · simp [hc.1.symm, hd.1.symm, he.1.symm, hf.1.symm, hg.1.symm, hi.1.symm]
  · cases h

theorem hasEndTag_iff (l : Bytes) :
    hasEndTag l = true ↔ ∃ a w b, l = a ++ (w ++ b) ∧ isEndTag w = true := by
  induction l with
  | nil =>
    refine ⟨nofun, ?_⟩
    rintro ⟨a, w, b, hl, hw⟩
    have hlen := congrArg List.length hl
    simp only [List.length_nil, List.length_append, (EndTag.of_isEndTag hw).length] at hlen
    omega
  | cons x l ih =>
    rw [hasEndTag, Bool.or_eq_true, ih]
    constructor
    · rintro (hw | ⟨a, w, b, rfl, hw⟩)
      · exact ⟨[], _, _, (List.take_append_drop 9 (x :: l)).symm, hw⟩
      · exact ⟨x :: a, w, b, rfl, hw⟩
    · rintro ⟨a, w, b, hl, hw⟩
      cases a with
      | nil =>
        left
        rw [hl, List.nil_append, ← (EndTag.of_isEndTag hw).length, List.take_left]
        exact hw
      | cons y a =>
        obtain ⟨-, rfl⟩ := List.cons.inj hl
        exact .inr ⟨a, w, b, rfl, hw⟩

theorem hasEndTag_append {s t : Bytes} (h : ∀ x y, x ≠ [] → y ≠ [] → x <:+ s → y <+: t →
    isEndTag (x ++ y) = false) : hasEndTag (s ++ t) = (hasEndTag s || hasEndTag t) := by
  rw [Bool.eq_iff_iff, Bool.or_eq_true, hasEndTag_iff, hasEndTag_iff, hasEndTag_iff]
  constructor
  · rintro ⟨a, w, b, hl, hw⟩
    rcases List.append_eq_append_iff.mp hl with ⟨a', rfl, ht⟩ | ⟨s', rfl, hwb⟩
    · exact .inr ⟨a', w, b, ht, hw⟩
    · rcases List.append_eq_append_iff.mp hwb with ⟨s'', rfl, ht⟩ | ⟨y, rfl, ht⟩
      · exact .inl ⟨a, w, s'', rfl, hw⟩
      · by_cases hs' : s' = []
        · subst hs'
          exact .inr ⟨[], _, b, by simpa using ht, hw⟩
        · by_cases hy : y = []
          · subst hy
            exact .inl ⟨a, s', [], by simp, by simpa using hw⟩
          · have hcut := h s' y hs' hy ⟨a, rfl⟩ ⟨b, ht.symm⟩
            rw [hcut] at hw
            cases hw
  · rintro (⟨a, w, b, rfl, hw⟩ | ⟨a, w, b, rfl, hw⟩)
    · exact ⟨a, w, b ++ t, by simp, hw⟩
    · exact ⟨s ++ a, w, b, by simp, hw⟩

section Separators

theorem hasEndTag_text {s : Bytes} (hs : 60 ∉ s) (t : Bytes) :
    hasEndTag (s ++ t) = hasEndTag t := by
  induction s with
  | nil => rfl
  | cons b s ih =>
    have hb : isEndTag ((b :: (s ++ t)).take 9) = false := by
      rw [← Bool.not_eq_true]
      intro hw
      have hhead := (EndTag.of_isEndTag hw).opens
      simp only [List.take_succ_cons, List.head?_cons, Option.some.injEq] at hhead
      exact hs (by simp [hhead])
    rw [List.cons_append, hasEndTag, hb, Bool.false_or]
    exact ih fun h => hs (List.mem_cons_of_mem b h)

theorem hasEndTag_of_gt {s : Bytes} (hs : 62 ∉ s) : hasEndTag s = false := by
  rw [← Bool.not_eq_true, hasEndTag_iff]
  rintro ⟨a, w, b, rfl, hw⟩
  have hmem := List.mem_of_getLast? (EndTag.of_isEndTag hw).closes
  exact hs (List.mem_append_right a (List.mem_append_left b hmem))

theorem hasEndTag_single {s : Bytes} (hlt : 60 ∉ s) (hgt : 62 ∉ s) :
    hasEndTag (60 :: s ++ [62]) = isEndTag (60 :: s ++ [62]) := by
  rw [Bool.eq_iff_iff, hasEndTag_iff]
  constructor
  · rintro ⟨a, w, b, hl, hw⟩
    have hopen := List.mem_of_head? (EndTag.of_isEndTag hw).opens
    have hclose := List.mem_of_getLast? (EndTag.of_isEndTag hw).closes
    cases a with
    | cons x a =>
      have htail : s ++ [62] = a ++ (w ++ b) := (List.cons.inj hl).2
      have hmem : 60 ∈ s ++ [62] := by
        rw [htail]
        exact List.mem_append_right a (List.mem_append_left b hopen)
      exact absurd hmem (by simp [hlt])
    | nil =>
      rcases List.eq_nil_or_concat b with rfl | ⟨b, c, rfl⟩
      · rw [hl]
        simpa using hw
      · have hinit : 60 :: s = w ++ b := by
          have hcat : 60 :: s ++ [62] = (w ++ b) ++ [c] := by simpa using hl
          exact (List.append_inj' hcat rfl).1
        have hmem : 62 ∈ 60 :: s := by
          rw [hinit]
          exact List.mem_append_left b hclose
        exact absurd hmem (by simp [hgt])
  · exact fun hw => ⟨[], _, [], by simp, hw⟩

theorem hasEndTag_semicolon (s t : Bytes) :
    hasEndTag (s ++ 59 :: t) = (hasEndTag s || hasEndTag t) := by
  rw [hasEndTag_append, ← List.singleton_append, hasEndTag_text (by decide)]
  intro x y _ hy _ hpre
  rw [← Bool.not_eq_true]
  intro hw
  obtain ⟨c, y, rfl⟩ := List.exists_cons_of_ne_nil hy
  obtain ⟨rfl, -⟩ := List.cons_prefix_cons.mp hpre
  exact (EndTag.of_isEndTag hw).noSemicolon (by simp)

theorem hasEndTag_gt (s t : Bytes) :
    hasEndTag (s ++ [62] ++ t) = (hasEndTag (s ++ [62]) || hasEndTag t) := by
  refine hasEndTag_append fun x y hx hy hsuf _ => ?_
  rw [← Bool.not_eq_true]
  intro hw
  have hx62 : 62 ∈ x := by
    obtain ⟨x, c, rfl⟩ := List.eq_nil_or_concat x |>.resolve_left hx
    obtain ⟨a, ha⟩ := hsuf
    have hlast := congrArg List.getLast? ha
    simp at hlast
    simp [hlast]
  refine (EndTag.of_isEndTag hw).inside.2 ?_
  rw [List.dropLast_append_of_ne_nil hy]
  exact List.mem_append_left _ hx62

end Separators

section Detection

theorem endsHeader_append {w : Bytes} (hw : isEndTag w = true) (a : Bytes) :
    endsHeader (a ++ w) = true := by
  have hlen := (EndTag.of_isEndTag hw).length
  rw [endsHeader, List.length_append, hlen, Nat.add_sub_cancel, List.drop_left]
  exact hw

theorem hasEndTag_iff_take (l : Bytes) :
    hasEndTag l = true ↔ ∃ i ≤ l.length, endsHeader (l.take i) = true := by
  rw [hasEndTag_iff]
  constructor
  · rintro ⟨a, w, b, rfl, hw⟩
    refine ⟨(a ++ w).length, by simp, ?_⟩
    rw [← List.append_assoc, List.take_left]
    exact endsHeader_append hw a
  · rintro ⟨i, -, hi⟩
    refine ⟨(l.take i).take ((l.take i).length - 9), _, l.drop i, ?_, hi⟩
    rw [← List.append_assoc, List.take_append_drop, List.take_append_drop]

/-- The end of a header is found where it is if the end tag is there only with the last byte. -/
theorem detected_iff (header : Bytes) :
    Detected header ↔ hasEndTag header = true ∧ hasEndTag header.dropLast = false := by
  have htake : ∀ i ≤ header.dropLast.length, header.dropLast.take i = header.take i := by
    intro i hi
    rw [List.dropLast_eq_take, List.take_take, Nat.min_eq_left]
    simpa using hi
  constructor
  · rintro ⟨hend, hfirst⟩
    have hpos : 0 < header.length := by
      by_contra hnil
      have heq := List.length_eq_zero_iff.mp (Nat.le_zero.mp (Nat.not_lt.mp hnil))
      rw [heq] at hend
      exact absurd hend (by decide)
    refine ⟨(hasEndTag_iff_take header).mpr ⟨_, le_rfl, by rwa [List.take_length]⟩, ?_⟩
    rw [← Bool.not_eq_true, hasEndTag_iff_take]
    rintro ⟨i, hi, hi'⟩
    rw [htake i hi, hfirst i (by rw [List.length_dropLast] at hi; omega)] at hi'
    cases hi'
  · rintro ⟨hhas, hnone⟩
    have hfirst : ∀ i < header.length, endsHeader (header.take i) = false := by
      intro i hi
      have hle : i ≤ header.dropLast.length := by
        rw [List.length_dropLast]
        omega
      rw [← Bool.not_eq_true]
      intro hend
      have hdrop := (hasEndTag_iff_take header.dropLast).mpr ⟨i, hle, by rwa [htake i hle]⟩
      rw [hnone] at hdrop
      cases hdrop
    obtain ⟨i, hi, hend⟩ := (hasEndTag_iff_take header).mp hhas
    rcases Nat.lt_or_eq_of_le hi with hlt | rfl
    · rw [hfirst i hlt] at hend
      cases hend
    · rw [List.take_length] at hend
      exact ⟨hend, hfirst⟩

end Detection

end Haggle
