import Haggle.Bytes
import Haggle.HashMapEntries

/-!
# Attributes of a data object

An attribute is a weighted name-value pair, and `Attributes` is a hash multimap from names to
attributes. Equality of attributes ignores the weight and treats the value `*` as a wildcard, so a
data object never holds two attributes that are equal in this sense.
-/

namespace Haggle

/-- One round of `generic_hash`, which adds a plain `char`: the four high bits are folded back
in. -/
def genericHashStep (plainChar : PlainChar) (h : ℕ) (b : UInt8) : ℕ :=
  let c : ℕ :=
    if b.toNat < 128 ∨ plainChar = .unsigned then b.toNat else 2 ^ 32 - 256 + b.toNat
  let h := (h * 16 + c) % 2 ^ 32
  let i := h &&& 0xF0000000
  if i ≠ 0 then (h ^^^ (i >>> 24)) &&& 0x0FFFFFFF else h

def genericHash (plainChar : PlainChar) (s : Bytes) : ℕ := s.foldl (genericHashStep plainChar) 0

instance : Hash Bytes := ⟨genericHash⟩

structure Attribute where
  name : Bytes
  value : Bytes
  weight : ℕ
deriving DecidableEq

/-- `operator==`: the weight does not count, and `*` matches every value. -/
def Attribute.eq (a b : Attribute) : Bool :=
  a.name = b.name && (a.value = lit "*" || b.value = lit "*" || a.value = b.value)

abbrev Attributes := HashMap Bytes Attribute

namespace Attributes

def find (m : Attributes) (a : Attribute) : Option Attribute :=
  ((m.equalRange a.name).find? (fun e => a.eq e.2)).map Prod.snd

def add (m : Attributes) (a : Attribute) : Attributes := m.insert (a.name, a)

/-- `Attributes::erase(const Attribute&)`, which hides the `erase` of a key. -/
def erase (m : Attributes) (a : Attribute) : Attributes × ℕ :=
  match m.find a with
  | none => (m, 0)
  | some _ => (m.eraseFirst a.name (a.eq ·), 1)

/-- What a history of additions and removals can build: no attribute matches a later one. -/
def Distinct (l : List (Bytes × Attribute)) : Prop :=
  (∀ e ∈ l, e.1 = e.2.name) ∧ l.Pairwise (fun e f => e.2.eq f.2 = false)

end Attributes

theorem Attribute.eq_symm (a b : Attribute) : a.eq b = b.eq a := by
  rw [Bool.eq_iff_iff]
  simp only [Attribute.eq, Bool.and_eq_true, Bool.or_eq_true, decide_eq_true_eq,
    @eq_comm _ b.name, @eq_comm _ b.value a.value]
  tauto

namespace Attributes

theorem Distinct.perm {l l' : List (Bytes × Attribute)} (hp : l.Perm l') (h : Distinct l) :
    Distinct l' := by
  refine ⟨fun e he => h.1 e (hp.symm.subset he), ?_⟩
  exact (hp.pairwise_iff (fun {e f} hef => by rw [Attribute.eq_symm]; exact hef)).mp h.2

theorem Distinct.sublist {l l' : List (Bytes × Attribute)} (hs : l'.Sublist l) (h : Distinct l) :
    Distinct l' :=
  ⟨fun e he => h.1 e (hs.subset he), h.2.sublist hs⟩

/-- Searching the range of a name finds an attribute exactly when the container has a match. -/
theorem find_eq_none_iff {m : Attributes} (hm : m.WF) (hd : Distinct m.toList) (a : Attribute) :
    m.find a = none ↔ ∀ e ∈ m.toList, a.eq e.2 = false := by
  unfold find
  rw [HashMap.equalRange_eq_filter hm, Option.map_eq_none_iff, List.find?_eq_none]
  constructor
  · intro h e he
    by_cases hk : e.1 = a.name
    · simpa using h e (List.mem_filter.mpr ⟨he, by simpa using hk⟩)
    · have hn : a.name ≠ e.2.name := fun h => hk ((hd.1 e he).trans h.symm)
      simp [Attribute.eq, hn]
  · intro h e he
    simp [h e (List.mem_filter.mp he).1]

theorem distinct_add {m : Attributes} (hm : m.WF) (hd : Distinct m.toList) {a : Attribute}
    (ha : m.find a = none) : Distinct (m.add a).toList := by
  have hnone := (find_eq_none_iff hm hd a).mp ha
  refine Distinct.perm (HashMap.toList_insert_perm hm (a.name, a)).symm ⟨?_, ?_⟩
  · intro e he
    rcases List.mem_cons.mp he with rfl | he
    · rfl
    · exact hd.1 e he
  · exact List.pairwise_cons.mpr ⟨hnone, hd.2⟩

end Attributes
end Haggle
