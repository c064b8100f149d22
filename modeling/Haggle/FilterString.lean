import Haggle.Attribute
import Haggle.Printed

/-!
# Filters from strings

The constructor `Filter(const char *, long)` takes name-value pairs that are separated by spaces. Its
loop cuts the string at the spaces and does nothing with the pieces; it ends when the position that
stands for no match wraps around, so that the last piece is the whole string.
-/

namespace Haggle
namespace FilterString

section Strings

/-- `String::npos`, the largest number of a `size_t`. -/
def npos : ℕ := 2 ^ 64 - 1

/-- The loop of `String::find`, for as many turns as there are positions left. -/
def findLoop (s pattern : Bytes) (n : ℕ) : ℕ → ℕ → ℕ
  | 0, _ => npos
  | turns + 1, pos =>
    if (s.drop pos).take n = pattern.take n then pos else findLoop s pattern n turns (pos + 1)

/-- `String::find(const char *, size_t, size_t)`. -/
def find (s pattern : Bytes) (pos n : ℕ) : ℕ :=
  if pattern.length < n ∨ s.length < n ∨ s.length - n ≤ pos then npos
  else findLoop s pattern n (s.length - n + 1 - pos) pos

/-- `String::substr`, where no string is the empty one. -/
def substr (s : Bytes) (pos n : ℕ) : Bytes :=
  if s.length ≤ pos then []
  else
    let n := if n = npos ∨ s.length - pos < n then s.length - pos else n
    if pos + n ≤ s.length then (s.drop pos).take n else []

end Strings

section Constructor

/-- `class Filter`. -/
structure Filter where
  etype : ℤ
  attrs : Attributes

/-- The loop of the constructor, which leaves the `start` of the last piece. -/
def splitLoop (filter : Bytes) : ℕ → ℕ → Option ℕ
  | 0, _ => none
  | fuel + 1, start =>
    let end' := find filter (lit " ") start 1
    -- the piece `substr(start, end - start)` is overwritten in the next turn or behind the loop
    let start := (end' + 1) % 2 ^ 64
    if end' = npos then some start else splitLoop filter fuel start

/-- The constructor `Filter(const char *, long)`. -/
def ofString (filterString : Bytes) (etype : ℤ) : Option Filter := do
  let filter := cStr filterString
  let start ← splitLoop filter (filter.length + 1) 0
  let namevalue := substr filter start npos
  let start := find namevalue (lit "=") 0 1
  let value := substr namevalue ((start + 1) % 2 ^ 64) npos
  let name := substr namevalue 0 start
  return ⟨etype, Attributes.add HashMap.empty ⟨name, value, 1⟩⟩

end Constructor

section Pairs

/-- A name or a value: it is not empty and has no separator. -/
structure Word (separator : UInt8) (s : Bytes) : Prop where
  ne_nil : s ≠ []
  separator : separator ∉ s
  equals : 61 ∉ s
  terminator : 0 ∉ s

def pairText (p : Bytes × Bytes) : Bytes := p.1 ++ 61 :: p.2

/-- Pairs with a separator between them. -/
def pairsText (separator : UInt8) (pairs : List (Bytes × Bytes)) : Bytes :=
  [separator].intercalate (pairs.map pairText)

/-- The attributes of the filter are the pairs. -/
def HasPairs (f : Filter) (pairs : List (Bytes × Bytes)) : Prop :=
  ∀ name value, (∃ a ∈ f.attrs.toList, a.2.name = name ∧ a.2.value = value) ↔
    (name, value) ∈ pairs

theorem pairsText_cons (separator : UInt8) (p : Bytes × Bytes) (pairs : List (Bytes × Bytes)) :
    pairsText separator (p :: pairs) =
      pairText p ++ pairs.flatMap fun q => separator :: pairText q := by
  induction pairs generalizing p with
  | nil => simp [pairsText]
  | cons q pairs ih =>
    rw [List.flatMap_cons, List.cons_append, ← ih q]
    simp [pairsText, List.intercalate]

end Pairs

section Search

theorem findLoop_cases (s pattern : Bytes) (n turns pos : ℕ) :
    findLoop s pattern n turns pos = npos ∨
      pos ≤ findLoop s pattern n turns pos ∧ findLoop s pattern n turns pos < pos + turns := by
  induction turns generalizing pos with
  | zero => exact .inl rfl
  | succ turns ih =>
    rw [findLoop]
    split_ifs with h
    · exact .inr ⟨le_rfl, by omega⟩
    · obtain hn | ⟨hle, hlt⟩ := ih (pos + 1)
      · exact .inl hn
      · exact .inr ⟨by omega, by omega⟩

theorem find_cases (s pattern : Bytes) (pos : ℕ) :
    find s pattern pos 1 = npos ∨
      pos ≤ find s pattern pos 1 ∧ find s pattern pos 1 < s.length := by
  unfold find
  split_ifs with h
  · exact .inl rfl
  · obtain hn | ⟨hle, hlt⟩ := findLoop_cases s pattern 1 (s.length - 1 + 1 - pos) pos
    · exact .inl hn
    · exact .inr ⟨hle, by omega⟩

/-- The loop stops at the first place of a character. -/
theorem findLoop_eq {s pre post : Bytes} {c : UInt8} (hs : s = pre ++ c :: post) (hc : c ∉ pre)
    {turns pos : ℕ} (hpos : pos ≤ pre.length) (hturns : pre.length < pos + turns) :
    findLoop s [c] 1 turns pos = pre.length := by
  induction turns generalizing pos with
  | zero => omega
  | succ turns ih =>
    have htake : (s.drop pos).take 1 = [c] ↔ pos = pre.length := by
      subst hs
      constructor
      · intro h
        by_contra hne
        rw [List.drop_append_of_le_length hpos,
          List.take_append_of_le_length (by rw [List.length_drop]; omega)] at h
        have hmem : c ∈ (pre.drop pos).take 1 := by rw [h]; exact List.mem_singleton_self c
        exact hc (List.drop_subset _ _ (List.take_subset _ _ hmem))
      · rintro rfl
        rw [List.drop_left]
        rfl
    rw [findLoop]
    split_ifs with h
    · exact htake.mp h
    · have hne : pos ≠ pre.length := fun h' => h (htake.mpr h')
      exact ih (by omega) (by omega)

/-- Whatever the string is, the loop ends, and the position has wrapped around. -/
theorem splitLoop_eq {filter : Bytes} (hlen : filter.length < npos) {fuel start : ℕ}
    (hstart : start ≤ filter.length) (hfuel : filter.length < start + fuel) :
    splitLoop filter fuel start = some 0 := by
  induction fuel generalizing start with
  | zero => omega
  | succ fuel ih =>
    rw [splitLoop]
    obtain hn | ⟨hle, hlt⟩ := find_cases filter (lit " ") start
    · simp only [hn, if_true]
      rfl
    · have hmod : (find filter (lit " ") start 1 + 1) % 2 ^ 64 =
          find filter (lit " ") start 1 + 1 := by
        apply Nat.mod_eq_of_lt
        unfold npos at hlen
        omega
      simp only [hmod]
      rw [if_neg (by omega)]
      exact ih (by omega) (by omega)

theorem substr_npos (s : Bytes) (pos : ℕ) : substr s pos npos = s.drop pos := by
  unfold substr
  by_cases h : s.length ≤ pos
  · rw [if_pos h, List.drop_eq_nil_of_le h]
  · simp only [h, if_false, true_or, if_true]
    rw [if_pos (by omega), List.take_of_length_le (by rw [List.length_drop])]

theorem substr_zero {pre post : Bytes} (hlen : (pre ++ post).length < npos) (hpost : post ≠ []) :
    substr (pre ++ post) 0 pre.length = pre := by
  have hpos := List.length_pos_iff.mpr hpost
  rw [List.length_append] at hlen
  have hlen' : (pre ++ post).length = pre.length + post.length := List.length_append
  have hin : ¬ (pre.length = npos ∨ (pre ++ post).length - 0 < pre.length) := by omega
  unfold substr
  simp only [hin, if_false]
  rw [if_neg (by omega), if_pos (by omega), List.drop_zero, List.take_left]

/-- The filter has one attribute: its name ends at the first `=`, and its value is all the rest. -/
theorem ofString_eq {name value : Bytes} (hvalue : value ≠ []) (hequals : 61 ∉ name)
    (hzero : 0 ∉ name ++ 61 :: value) (hlen : (name ++ 61 :: value).length < npos) (etype : ℤ) :
    ofString (name ++ 61 :: value) etype =
      some ⟨etype, Attributes.add HashMap.empty ⟨name, value, 1⟩⟩ := by
  have hcstr : cStr (name ++ 61 :: value) = name ++ 61 :: value := by
    apply List.takeWhile_eq_self_iff.mpr
    intro c hc
    apply decide_eq_true
    rintro rfl
    exact hzero hc
  have hpos := List.length_pos_iff.mpr hvalue
  have hlength : (name ++ 61 :: value).length = name.length + (value.length + 1) := by
    rw [List.length_append, List.length_cons]
  have hfind : find (name ++ 61 :: value) (lit "=") 0 1 = name.length := by
    unfold find
    rw [if_neg]
    · exact findLoop_eq rfl hequals (Nat.zero_le _) (by omega)
    · have hone : (lit "=").length = 1 := rfl
      omega
  have hmod : (name.length + 1) % 2 ^ 64 = name.length + 1 := by
    apply Nat.mod_eq_of_lt
    unfold npos at hlen
    omega
  have hdrop : (name ++ 61 :: value).drop (name.length + 1) = value := by
    rw [← List.drop_drop, List.drop_left]
    rfl
  have hloop : splitLoop (name ++ 61 :: value) ((name ++ 61 :: value).length + 1) 0 = some 0 :=
    splitLoop_eq hlen (Nat.zero_le _) (by omega)
  unfold ofString
  simp only [hcstr, hloop, Option.bind_eq_bind,
    Option.bind_some, substr_npos, List.drop_zero, hfind, hmod, hdrop,
    substr_zero hlen (List.cons_ne_nil 61 value)]
  rfl

theorem toList_single (a : Attribute) :
    (Attributes.add HashMap.empty a).toList = [(a.name, a)] := by
  have hempty : (HashMap.empty : Attributes).toList = [] := rfl
  have hperm := HashMap.toList_insert_perm (m := (HashMap.empty : Attributes)) HashMap.wf_empty
    (a.name, a)
  rw [hempty] at hperm
  exact List.perm_singleton.mp hperm

end Search

section Trip

theorem zero_notMem_pairsText {separator : UInt8} (hseparator : separator ≠ 0)
    {pairs : List (Bytes × Bytes)}
    (hpairs : ∀ p ∈ pairs, Word separator p.1 ∧ Word separator p.2) :
    0 ∉ pairsText separator pairs := by
  have hpair : ∀ p ∈ pairs, 0 ∉ pairText p := by
    intro p hp h
    obtain ⟨hname, hvalue⟩ := hpairs p hp
    obtain h | h := List.mem_append.mp h
    · exact hname.terminator h
    · obtain h | h := List.mem_cons.mp h
      · cases h
      · exact hvalue.terminator h
  cases pairs with
  | nil => nofun
  | cons p ps =>
    rw [pairsText_cons]
    intro h
    obtain h | h := List.mem_append.mp h
    · exact hpair p List.mem_cons_self h
    · obtain ⟨q, hq, h⟩ := List.mem_flatMap.mp h
      obtain h | h := List.mem_cons.mp h
      · exact hseparator h.symm
      · exact hpair q (List.mem_cons_of_mem p hq) h

/-- The pairs of a string are the attributes of its filter exactly when there is one pair. -/
theorem hasPairs_iff {pairs : List (Bytes × Bytes)} (hne : pairs ≠ [])
    (hpairs : ∀ p ∈ pairs, Word 32 p.1 ∧ Word 32 p.2)
    (hlen : (pairsText 32 pairs).length < npos) (etype : ℤ) :
    (∃ f, ofString (pairsText 32 pairs) etype = some f ∧ f.etype = etype ∧ HasPairs f pairs) ↔
      pairs.length = 1 := by
  obtain ⟨p, ps, rfl⟩ := List.exists_cons_of_ne_nil hne
  obtain ⟨hname, hvalue⟩ := hpairs p List.mem_cons_self
  have hps : ∀ q ∈ ps, Word 32 q.1 ∧ Word 32 q.2 := fun q hq => hpairs q (List.mem_cons_of_mem p hq)
  have htext : pairsText 32 (p :: ps) =
      p.1 ++ 61 :: (p.2 ++ ps.flatMap fun q => 32 :: pairText q) := by
    rw [pairsText_cons, pairText, List.append_assoc, List.cons_append]
  have hzero := zero_notMem_pairsText (by decide) hpairs
  rw [htext] at hlen hzero ⊢
  rw [ofString_eq (by simp [hvalue.ne_nil]) hname.equals hzero hlen]
  constructor
  · rintro ⟨f, hf, -, hpairs⟩
    obtain rfl := Option.some.inj hf
    -- the one attribute has to be a pair, and its value must have no space
    have hmem := (hpairs p.1 (p.2 ++ ps.flatMap fun q => 32 :: pairText q)).mp
      ⟨(p.1, ⟨p.1, _, 1⟩), by rw [toList_single]; exact List.mem_singleton_self _, rfl, rfl⟩
    match ps with
    | [] => rfl
    | q :: ps =>
      have hword : Word 32 (p.2 ++ (q :: ps).flatMap fun q => 32 :: pairText q) := by
        obtain h | h := List.mem_cons.mp hmem
        · have hlen' := congrArg (fun r : Bytes × Bytes => r.2.length) h
          simp only [List.flatMap_cons, List.length_append, List.length_cons] at hlen'
          omega
        · exact (hps _ h).2
      exact absurd (by simp) hword.separator
  · intro hone
    obtain rfl : ps = [] := by
      apply List.length_eq_zero_iff.mp
      rw [List.length_cons] at hone
      omega
    refine ⟨_, rfl, rfl, fun name value => ?_⟩
    rw [toList_single, List.flatMap_nil, List.append_nil]
    constructor
    · rintro ⟨a, ha, rfl, rfl⟩
      rw [List.mem_singleton.mp ha]
      exact List.mem_singleton_self p
    · intro h
      rw [← List.mem_singleton.mp h]
      exact ⟨_, List.mem_singleton_self _, rfl, rfl⟩

end Trip

end FilterString

namespace Sample

/-- `Picture=London Year=2009`. -/
def twoPairs : List (Bytes × Bytes) :=
  [(lit "Picture", lit "London"), (lit "Year", lit "2009")]

theorem word_of_twoPairs : ∀ p ∈ twoPairs, FilterString.Word 32 p.1 ∧ FilterString.Word 32 p.2 := by
  intro p hp
  simp only [twoPairs, List.mem_cons, List.not_mem_nil, or_false] at hp
  rcases hp with rfl | rfl <;> exact ⟨⟨by decide, by decide, by decide, by decide⟩,
    ⟨by decide, by decide, by decide, by decide⟩⟩

theorem hasPairs_picture :
    ∃ f, FilterString.ofString (FilterString.pairsText 32 [(lit "Picture", lit "London")]) 7 =
        some f ∧ f.etype = 7 ∧ FilterString.HasPairs f [(lit "Picture", lit "London")] :=
  (FilterString.hasPairs_iff (List.cons_ne_nil _ _)
    (fun p hp => word_of_twoPairs p (by rw [List.mem_singleton.mp hp]; exact List.mem_cons_self))
    (by decide) 7).mpr rfl

/-- Of two pairs one attribute is made, whose value is `London Year=2009`. -/
theorem not_hasPairs_twoPairs :
    (∀ p ∈ twoPairs, FilterString.Word 32 p.1 ∧ FilterString.Word 32 p.2) ∧
      FilterString.ofString (FilterString.pairsText 32 twoPairs) 7 =
        some ⟨7, Attributes.add HashMap.empty ⟨lit "Picture", lit "London Year=2009", 1⟩⟩ ∧
      ∀ f, FilterString.ofString (FilterString.pairsText 32 twoPairs) 7 = some f →
        ¬ FilterString.HasPairs f twoPairs := by
  have hread : FilterString.ofString (FilterString.pairsText 32 twoPairs) 7 =
      some ⟨7, Attributes.add HashMap.empty ⟨lit "Picture", lit "London Year=2009", 1⟩⟩ :=
    @FilterString.ofString_eq (lit "Picture") (lit "London Year=2009") (by decide) (by decide)
      (by decide) (by decide) 7
  refine ⟨word_of_twoPairs, hread, ?_⟩
  intro f hf hpairs
  rw [hread] at hf
  obtain rfl := Option.some.inj hf
  have hmem := (hpairs (lit "Picture") (lit "London Year=2009")).mp
    ⟨_, by rw [FilterString.toList_single]; exact List.mem_singleton_self _, rfl, rfl⟩
  revert hmem
  decide

end Sample
end Haggle
