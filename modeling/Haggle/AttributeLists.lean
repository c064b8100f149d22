import Haggle.FilterString
import Haggle.LinkedRing

/-!
# Attribute lists of the library

A list of `libhaggle` is a ring through the attributes themselves, with a count beside it. What
takes an attribute out decrements the count of the list that is named, wherever the attribute is
linked: `pop` does so of an empty list, whose head it then takes out of the ring, and
`detach_attribute` if the list has some attribute with the same name and value.
-/

namespace Haggle
namespace AttributeLists

open LinkedRing

section Model

/-- The attributes and the lists that were allocated, by number. -/
structure World where
  links : Links Cell
  attributes : List Attribute
  numAttributes : List UInt64

def World.start : World := ⟨⟨fun _ => none, fun _ => none⟩, [], []⟩

/-- `listelm_detach`; a null pointer is dereferenced where there is no result. -/
def listelmDetach (m : Links Cell) : Option Cell → Option Cell → Option (Links Cell)
  | some prev, some next => some (m.join prev next)
  | _, _ => none

/-- `listelm_add`. -/
def listelmAdd (m : Links Cell) (le : Cell) : Option Cell → Option Cell → Option (Links Cell)
  | some prev, some next => some ((m.join prev le).join le next)
  | _, _ => none

/-- `list_add_tail`. -/
def listAddTail (m : Links Cell) (le head : Cell) : Option (Links Cell) :=
  listelmAdd m le (m.prev head) (some head)

/-- `list_detach`. -/
def listDetach (m : Links Cell) (le : Cell) : Option (Links Cell) :=
  (listelmDetach m (m.prev le) (m.next le)).map fun m => m.set le none none

/-- `list_unattached`. -/
def listUnattached (m : Links Cell) (le : Cell) : Prop := m.next le = some le ∧ m.prev le = some le

instance (m : Links Cell) (le : Cell) : Decidable (listUnattached m le) :=
  inferInstanceAs (Decidable (_ ∧ _))

/-- `haggle_attributelist_new`. -/
def new (w : World) : World × ℕ :=
  let al := w.numAttributes.length
  ({ w with
      links := w.links.set (.head al) (some (.head al)) (some (.head al))
      numAttributes := w.numAttributes ++ [0] }, al)

/-- `haggle_attribute_new_weighted`. -/
def attributeNew (w : World) (attr : Attribute) : World × ℕ :=
  let a := w.attributes.length
  ({ w with
      links := w.links.set (.elem a) (some (.elem a)) (some (.elem a))
      attributes := w.attributes ++ [⟨cStr attr.name, cStr attr.value, attr.weight⟩] }, a)

/-- `haggle_attributelist_add_attribute`: the number of attributes, or zero. A pointer that is
neither null nor of something allocated has no result. -/
def addAttribute (w : World) : Option ℕ → Option ℕ → Option (World × UInt64)
  | some al, some a =>
    if a < w.attributes.length then
      w.numAttributes[al]?.bind fun n =>
        if listUnattached w.links (.elem a) then
          (listAddTail w.links (.elem a) (.head al)).map fun links =>
            ({ w with links, numAttributes := w.numAttributes.set al (n + 1) }, n + 1)
        else some (w, 0)
    else none
  | _, _ => some (w, 0)

/-- `strcmp` of both strings of an attribute. -/
def looksLike (name value : Bytes) (attr : Attribute) : Bool :=
  attr.name = cStr name && attr.value = cStr value

/-- The loop of `haggle_attributelist_get_attribute_by_name_value`. -/
def getLoop (w : World) (al : ℕ) (name value : Bytes) : ℕ → Option Cell → Option (Option ℕ)
  | fuel + 1, some (.elem a) =>
    w.attributes[a]?.bind fun attr =>
      if looksLike name value attr then some (some a)
      else getLoop w al name value fuel (w.links.next (.elem a))
  | _ + 1, some (.head l) => if l = al then some none else none
  | _, _ => none

/-- `haggle_attributelist_get_attribute_by_name_value`. -/
def getByNameValue (w : World) (al : ℕ) (name value : Bytes) : Option (Option ℕ) :=
  getLoop w al name value (w.attributes.length + 1) (w.links.next (.head al))

/-- `list_detach` of something and `num_attributes--` of the list. -/
def detachFrom (w : World) (al : ℕ) (le : Cell) : Option World :=
  w.numAttributes[al]?.bind fun n =>
    (listDetach w.links le).map fun links =>
      { w with links, numAttributes := w.numAttributes.set al (n - 1) }

/-- `haggle_attributelist_remove_attribute`. -/
def removeAttribute (w : World) : Option ℕ → Option Bytes → Option Bytes →
    Option (World × Option ℕ)
  | some al, some name, some value =>
    (getByNameValue w al name value).bind fun
      | none => some (w, none)
      | some a => (detachFrom w al (.elem a)).map (·, some a)
  | _, _, _ => some (w, none)

/-- `haggle_attributelist_detach_attribute`: whether it returns one and no error. -/
def detachAttribute (w : World) : Option ℕ → Option ℕ → Option (World × Bool)
  | some al, some a =>
    w.attributes[a]?.bind fun attr =>
      (getByNameValue w al attr.name attr.value).bind fun
        | none => some (w, false)
        | some _ => (detachFrom w al (.elem a)).map (·, true)
  | _, _ => some (w, false)

/-- `haggle_attributelist_pop`: what comes first, be it an attribute or not. -/
def pop (w : World) : Option ℕ → Option (World × Option Cell)
  | some al =>
    if al < w.numAttributes.length then
      match w.links.next (.head al) with
      | none => some (w, none)
      | some first => (detachFrom w al first).map (·, some first)
    else none
  | none => some (w, none)

/-- The loop of `haggle_attributelist_copy`. -/
def copyLoop (al alc : ℕ) : ℕ → World → Option Cell → Option (World × Option ℕ)
  | fuel + 1, w, some (.elem a) =>
    w.attributes[a]?.bind fun attr =>
      let (w, b) := attributeNew w attr
      (addAttribute w (some alc) (some b)).bind fun (w, n) =>
        if n = 0 then some (w, none) else copyLoop al alc fuel w (w.links.next (.elem a))
  | _ + 1, w, some (.head l) => if l = al then some (w, some alc) else none
  | _, _, _ => none

/-- `haggle_attributelist_copy`. -/
def copy (w : World) : Option ℕ → Option (World × Option ℕ)
  | some al =>
    if al < w.numAttributes.length then
      let (w, alc) := new w
      copyLoop al alc (w.attributes.length + 1) w (w.links.next (.head al))
    else none
  | none => some (w, none)

inductive Op
  | new
  | attributeNew (attr : Attribute)
  | add (al a : Option ℕ)
  | remove (al : Option ℕ) (name value : Option Bytes)
  | detach (al a : Option ℕ)
  | pop (al : Option ℕ)
  | copy (al : Option ℕ)

def step (w : World) : Op → Option World
  | .new => some (AttributeLists.new w).1
  | .attributeNew attr => some (AttributeLists.attributeNew w attr).1
  | .add al a => (addAttribute w al a).map (·.1)
  | .remove al name value => (removeAttribute w al name value).map (·.1)
  | .detach al a => (detachAttribute w al a).map (·.1)
  | .pop al => (AttributeLists.pop w al).map (·.1)
  | .copy al => (AttributeLists.copy w al).map (·.1)

def run (w : World) (ops : List Op) : Option World := ops.foldlM step w

end Model

section Meaning

/-- `list_for_each` comes to the attribute. -/
def LinkedIn (w : World) (l a : ℕ) : Prop := ∃ as, Holds w.links l as ∧ a ∈ as

structure Counted (w : World) : Prop where
  counted : ∀ l < w.numAttributes.length, ∃ as, Holds w.links l as ∧
    w.numAttributes[l]? = some (.ofNat as.length)
  oneList : ∀ l l' a, LinkedIn w l a → LinkedIn w l' a → l = l'

/-- The list that an operation may change. -/
def Op.named : Op → Option ℕ
  | .add al _ | .remove al _ _ | .detach al _ | .pop al => al
  | .new | .attributeNew _ | .copy _ => none

/-- Every other list has the attributes and the count that it had; nothing that was allocated goes
away. -/
structure OnlyNamed (w : World) (named : Option ℕ) (w' : World) : Prop where
  others : ∀ l < w.numAttributes.length, named ≠ some l →
    w'.numAttributes[l]? = w.numAttributes[l]? ∧ Kept w.links w'.links l
  attributes : w.attributes <+: w'.attributes
  lists : w.numAttributes.length ≤ w'.numAttributes.length

/-- The pointers are null or of something that was allocated. -/
def Valid (w : World) : Op → Prop
  | .new | .attributeNew _ => True
  | .add al a | .detach al a =>
    (∀ l ∈ al, l < w.numAttributes.length) ∧ ∀ b ∈ a, b < w.attributes.length
  | .remove al _ _ | .pop al | .copy al => ∀ l ∈ al, l < w.numAttributes.length

/-- `detach_attribute` is of an attribute that the list has, or of one that nothing in the list
looks like, and `pop` of a list that is not empty. -/
def Proper (w : World) : Op → Prop
  | .detach (some l) (some a) => LinkedIn w l a ∨
    ∀ b, LinkedIn w l b → ∀ attr ∈ w.attributes[a]?, ∀ attr' ∈ w.attributes[b]?,
      ¬ looksLike attr.name attr.value attr'
  | .pop (some l) => w.links.next (.head l) ≠ some (.head l)
  | _ => True

/-- Every operation is proper in the state that it comes to. -/
def Allowed : World → List Op → Prop
  | _, [] => True
  | w, op :: ops => Valid w op ∧ Proper w op ∧ ∀ w', step w op = some w' → Allowed w' ops

end Meaning

section Links

variable {m : Links Cell} {l a : ℕ} {as as₁ as₂ : List ℕ}

theorem listDetach_spec (hring : Holds m l (as₁ ++ a :: as₂)) :
    ∃ m', listDetach m (.elem a) = some m' ∧ Holds m' l (as₁ ++ as₂) ∧ ∀ l' ≠ l, Kept m m' l' := by
  obtain ⟨p, q, hprev, hnext, herased, hkept⟩ := hring.erase
  refine ⟨(m.join p q).set (.elem a) none none, ?_, herased.set ?_ none none, ?_⟩
  · unfold listDetach
    rw [hprev, hnext]
    rfl
  · have hnodup := hring.nodup
    rw [List.nodup_middle, List.nodup_cons] at hnodup
    exact notMem_ring hnodup.1 l
  · intro l' hne as' hring'
    exact (hkept l' hne as' hring').set
      (hring.disjoint hring' hne (mem_ring (by simp) l)) none none

theorem listAddTail_spec (hring : Holds m l as) (hun : listUnattached m (.elem a)) :
    ∃ m', listAddTail m (.elem a) (.head l) = some m' ∧ Holds m' l (as ++ [a]) ∧
      ∀ l' ≠ l, Kept m m' l' := by
  rw [← List.append_nil as] at hring
  obtain ⟨p, hprev, hinserted⟩ :=
    hring.insert (fun l' as' hring' => hring'.notMem_of_self hun.1) rfl
  refine ⟨_, ?_, hinserted⟩
  unfold listAddTail
  rw [hprev]
  rfl

end Links

section Steps

variable {w w' w'' : World} {l a : ℕ} {n : UInt64} {as as₁ as₂ : List ℕ} {named : Option ℕ}
  {name value : Bytes}

/-- Every list has a ring of attributes that were allocated, and counts them. -/
def Inv (w : World) : Prop :=
  ∀ l < w.numAttributes.length, ∃ as, Holds w.links l as ∧
    w.numAttributes[l]? = some (.ofNat as.length) ∧ ∀ a ∈ as, a < w.attributes.length

theorem Inv.counted (hw : Inv w) : Counted w where
  counted l hl := by
    obtain ⟨as, hring, hnum, -⟩ := hw l hl
    exact ⟨as, hring, hnum⟩
  oneList := by
    rintro l l' a ⟨as, hring, ha⟩ ⟨as', hring', ha'⟩
    exact hring.eq_of_mem hring' ha ha'

/-- Two operations, the second of which may change a list that was not there before. -/
theorem OnlyNamed.trans (h : OnlyNamed w none w') (h' : OnlyNamed w' named w'')
    (hnew : ∀ l ∈ named, w.numAttributes.length ≤ l) : OnlyNamed w none w'' where
  others l hl _ := by
    obtain ⟨hnum, hkept⟩ := h.others l hl nofun
    have hold : named ≠ some l := fun heq => absurd (hnew l heq) (Nat.not_le_of_lt hl)
    obtain ⟨hnum', hkept'⟩ := h'.others l (hl.trans_le h.lists) hold
    exact ⟨hnum'.trans hnum, hkept.trans hkept'⟩
  attributes := h.attributes.trans h'.attributes
  lists := h.lists.trans h'.lists

theorem OnlyNamed.refl (w : World) (named : Option ℕ) : OnlyNamed w named w :=
  ⟨fun _ _ _ => ⟨rfl, fun _ hring => hring⟩, List.prefix_rfl, le_rfl⟩

/-- One list gets another ring and the count for it. -/
theorem Inv.relink {m : Links Cell} (hw : Inv w) (hl : l < w.numAttributes.length)
    (hring : Holds m l as) (hknown : ∀ a ∈ as, a < w.attributes.length)
    (hkept : ∀ l' ≠ l, Kept w.links m l') (hn : n = .ofNat as.length) :
    Inv { w with links := m, numAttributes := w.numAttributes.set l n } ∧
      OnlyNamed w (some l) { w with links := m, numAttributes := w.numAttributes.set l n } := by
  refine ⟨?_, ⟨?_, List.prefix_rfl, List.length_set.ge⟩⟩
  · intro l' hl'
    rw [List.length_set] at hl'
    by_cases heq : l' = l
    · subst heq
      exact ⟨as, hring, by rw [List.getElem?_set_self hl, hn], hknown⟩
    · obtain ⟨as', hring', hnum', hknown'⟩ := hw l' hl'
      refine ⟨as', hkept l' heq as' hring', ?_, hknown'⟩
      exact (List.getElem?_set_ne (Ne.symm heq)).trans hnum'
  · intro l' _ hne
    have heq : l' ≠ l := fun heq => hne (congrArg some heq.symm)
    exact ⟨List.getElem?_set_ne heq.symm, hkept l' heq⟩

theorem new_spec (hw : Inv w) : Inv (new w).1 ∧ OnlyNamed w none (new w).1 := by
  have hkept : ∀ l < w.numAttributes.length, Kept w.links (new w).1.links l := by
    intro l hl as hring
    exact hring.set (by simp [hl.ne']) _ _
  have hlen : (new w).1.numAttributes.length = w.numAttributes.length + 1 :=
    List.length_append
  refine ⟨?_, ⟨fun l hl _ => ⟨List.getElem?_append_left hl, hkept l hl⟩, List.prefix_rfl,
    by omega⟩⟩
  intro l hl
  obtain hl | rfl : l < w.numAttributes.length ∨ l = w.numAttributes.length := by omega
  · obtain ⟨as, hring, hnum, hknown⟩ := hw l hl
    exact ⟨as, hkept l hl as hring, (List.getElem?_append_left hl).trans hnum, hknown⟩
  · exact ⟨[], isRing_set_self w.links _, List.getElem?_concat_length, nofun⟩

theorem attributeNew_spec (hw : Inv w) (attr : Attribute) :
    Inv (attributeNew w attr).1 ∧ OnlyNamed w none (attributeNew w attr).1 := by
  have hkept : ∀ l < w.numAttributes.length, Kept w.links (attributeNew w attr).1.links l := by
    intro l hl as hring
    obtain ⟨as', hring', -, hknown⟩ := hw l hl
    obtain rfl := hring.unique hring'
    exact hring.set (notMem_ring (fun hmem => absurd (hknown _ hmem) (lt_irrefl _)) l) _ _
  refine ⟨?_, ⟨fun l hl _ => ⟨rfl, hkept l hl⟩, List.prefix_append .., le_rfl⟩⟩
  intro l hl
  obtain ⟨as, hring, hnum, hknown⟩ := hw l hl
  refine ⟨as, hkept l hl as hring, hnum, fun a ha => ?_⟩
  have hlt := hknown a ha
  exact hlt.trans_le (List.prefix_append ..).length_le

theorem addAttribute_spec (hw : Inv w) (hl : l < w.numAttributes.length)
    (ha : a < w.attributes.length) : ∃ r, addAttribute w (some l) (some a) = some r ∧ Inv r.1 ∧
      OnlyNamed w (some l) r.1 := by
  obtain ⟨as, hring, hnum, hknown⟩ := hw l hl
  simp only [addAttribute]
  rw [if_pos ha, hnum, Option.bind_some]
  by_cases hun : listUnattached w.links (.elem a)
  · obtain ⟨m, hadd, hring', hkept⟩ := listAddTail_spec hring hun
    rw [if_pos hun, hadd]
    refine ⟨_, rfl, hw.relink hl hring' (fun b hb => ?_) hkept ?_⟩
    · obtain hb | hb := List.mem_append.mp hb
      · exact hknown b hb
      · exact List.mem_singleton.mp hb ▸ ha
    · rw [List.length_append, UInt64.ofNat_add]
      rfl
  · rw [if_neg hun]
    exact ⟨_, rfl, hw, .refl w _⟩

theorem detachFrom_spec (hw : Inv w) (hl : l < w.numAttributes.length)
    (hring : Holds w.links l (as₁ ++ a :: as₂)) :
    ∃ w', detachFrom w l (.elem a) = some w' ∧ Inv w' ∧ OnlyNamed w (some l) w' := by
  obtain ⟨as, hring', hnum, hknown⟩ := hw l hl
  obtain rfl := hring'.unique hring
  obtain ⟨m, hdetach, herased, hkept⟩ := listDetach_spec hring
  unfold detachFrom
  rw [hnum, hdetach]
  refine ⟨_, rfl, hw.relink hl herased (fun b hb => hknown b ?_) hkept ?_⟩
  · obtain hb | hb := List.mem_append.mp hb
    · exact List.mem_append_left _ hb
    · exact List.mem_append_right _ (List.mem_cons_of_mem a hb)
  · rw [List.length_append, List.length_cons, ← Nat.add_assoc, List.length_append,
      UInt64.ofNat_add]
    exact UInt64.add_sub_cancel ..

/-- What the loop finds is the first one that looks like this. -/
theorem getLoop_eq (hring : Holds w.links l as) (hknown : ∀ a ∈ as, a < w.attributes.length) :
    ∀ done rest fuel, as = done ++ rest → rest.length < fuel →
      getLoop w l name value fuel (rest.map Cell.elem ++ [Cell.head l]).head? =
        some (rest.find? fun a => (w.attributes[a]?).any (looksLike name value)) := by
  intro done rest
  induction rest generalizing done with
  | nil =>
    rintro (_ | fuel) - hfuel
    · exact absurd hfuel (Nat.not_lt_zero _)
    · exact if_pos rfl
  | cons a rest ih =>
    rintro (_ | fuel) rfl hfuel
    · exact absurd hfuel (Nat.not_lt_zero _)
    have ha := hknown a (List.mem_append_right _ List.mem_cons_self)
    have hnext := ih (done ++ [a]) fuel (by simp) (Nat.lt_of_succ_lt_succ hfuel)
    rw [List.map_cons, List.cons_append, List.head?_cons, List.find?_cons]
    simp only [getLoop]
    rw [List.getElem?_eq_getElem ha, Option.bind_some, Option.any_some, hring.next]
    by_cases hlook : looksLike name value w.attributes[a]
    · rw [if_pos hlook, hlook]
    · rw [if_neg hlook, hnext, Bool.eq_false_of_not_eq_true hlook]

theorem getByNameValue_eq (hring : Holds w.links l as)
    (hknown : ∀ a ∈ as, a < w.attributes.length) : getByNameValue w l name value =
      some (as.find? fun a => (w.attributes[a]?).any (looksLike name value)) := by
  unfold getByNameValue
  rw [hring.next_head]
  exact getLoop_eq hring hknown [] as _ rfl (Nat.lt_succ_of_le (hring.length_le hknown))

theorem removeAttribute_spec (hw : Inv w) (hl : l < w.numAttributes.length) :
    ∃ r, removeAttribute w (some l) (some name) (some value) = some r ∧ Inv r.1 ∧
      OnlyNamed w (some l) r.1 := by
  obtain ⟨as, hring, -, hknown⟩ := hw l hl
  simp only [removeAttribute]
  rw [getByNameValue_eq hring hknown, Option.bind_some]
  cases hfind : as.find? fun a => (w.attributes[a]?).any (looksLike name value) with
  | none => exact ⟨_, rfl, hw, .refl w _⟩
  | some a =>
    obtain ⟨as₁, as₂, rfl⟩ := List.append_of_mem (List.mem_of_find?_eq_some hfind)
    obtain ⟨w', hdetach, hw', honly⟩ := detachFrom_spec hw hl hring
    exact ⟨(w', some a), congrArg (Option.map (·, some a)) hdetach, hw', honly⟩

theorem detachAttribute_spec (hw : Inv w) (hl : l < w.numAttributes.length)
    (ha : a < w.attributes.length) (hproper : Proper w (.detach (some l) (some a))) :
    ∃ r, detachAttribute w (some l) (some a) = some r ∧ Inv r.1 ∧ OnlyNamed w (some l) r.1 := by
  obtain ⟨as, hring, -, hknown⟩ := hw l hl
  have hattr := List.getElem?_eq_getElem ha
  simp only [detachAttribute]
  rw [hattr, Option.bind_some, getByNameValue_eq hring hknown, Option.bind_some]
  cases hfind : as.find? fun b => (w.attributes[b]?).any
      (looksLike w.attributes[a].name w.attributes[a].value) with
  | none => exact ⟨_, rfl, hw, .refl w _⟩
  | some b =>
    -- something in the list looks like the attribute, so that the list has to have it
    have hmem : a ∈ as := by
      obtain ⟨as', hring', hmem⟩ | hnone := hproper
      · exact hring'.unique hring ▸ hmem
      · have hb := List.mem_of_find?_eq_some hfind
        have hlook := List.find?_some hfind
        rw [List.getElem?_eq_getElem (hknown b hb)] at hlook
        exact absurd hlook (hnone b ⟨as, hring, hb⟩ _ hattr _ (List.getElem?_eq_getElem _))
    obtain ⟨as₁, as₂, rfl⟩ := List.append_of_mem hmem
    obtain ⟨w', hdetach, hw', honly⟩ := detachFrom_spec hw hl hring
    exact ⟨(w', true), congrArg (Option.map (·, true)) hdetach, hw', honly⟩

theorem pop_spec (hw : Inv w) (hl : l < w.numAttributes.length)
    (hproper : Proper w (.pop (some l))) :
    ∃ r, pop w (some l) = some r ∧ Inv r.1 ∧ OnlyNamed w (some l) r.1 := by
  obtain ⟨as, hring, -, -⟩ := hw l hl
  have hfirst := hring.next_head
  cases as with
  | nil => exact absurd hfirst hproper
  | cons a as =>
    have hring₀ : Holds w.links l ([] ++ a :: as) := hring
    obtain ⟨w', hdetach, hw', honly⟩ := detachFrom_spec hw hl hring₀
    refine ⟨(w', some (.elem a)), ?_, hw', honly⟩
    simp only [pop]
    rw [if_pos hl, hfirst]
    simp only [List.map_cons, List.cons_append, List.head?_cons]
    rw [hdetach]
    rfl

/-- The source stays as it is while the copies go to the end of the new list. -/
theorem copyLoop_spec {w₀ : World} {alc : ℕ} (hl : l < w₀.numAttributes.length)
    (halc : w₀.numAttributes.length ≤ alc) (hring : Holds w₀.links l as)
    (hknown : ∀ a ∈ as, a < w₀.attributes.length) :
    ∀ done rest fuel w, as = done ++ rest → rest.length < fuel → Inv w → OnlyNamed w₀ none w →
      alc < w.numAttributes.length →
      ∃ r, copyLoop l alc fuel w (rest.map Cell.elem ++ [Cell.head l]).head? = some r ∧ Inv r.1 ∧
        OnlyNamed w₀ none r.1 := by
  intro done rest
  induction rest generalizing done with
  | nil =>
    rintro (_ | fuel) w - hfuel hw honly -
    · exact absurd hfuel (Nat.not_lt_zero _)
    · exact ⟨_, if_pos rfl, hw, honly⟩
  | cons a rest ih =>
    rintro (_ | fuel) w rfl hfuel hw honly hlt
    · exact absurd hfuel (Nat.not_lt_zero _)
    have ha := (hknown a (List.mem_append_right _ List.mem_cons_self)).trans_le
      honly.attributes.length_le
    rw [List.map_cons, List.cons_append, List.head?_cons]
    simp only [copyLoop]
    rw [List.getElem?_eq_getElem ha, Option.bind_some]
    obtain ⟨hnew, honlyNew⟩ := attributeNew_spec hw w.attributes[a]
    obtain ⟨⟨w', n⟩, hadd, hw', honlyAdd⟩ := addAttribute_spec hnew (hlt.trans_le honlyNew.lists)
      (a := (attributeNew w w.attributes[a]).2) (by simp [attributeNew])
    have honly' := (honly.trans honlyNew nofun).trans honlyAdd fun l' hl' =>
      Option.some.inj hl' ▸ halc
    rw [hadd, Option.bind_some]
    by_cases hn : n = 0
    · rw [if_pos hn]
      exact ⟨_, rfl, hw', honly'⟩
    · rw [if_neg hn, ((honly'.others l hl nofun).2 _ hring).next]
      refine ih (done ++ [a]) fuel w' (by simp) (Nat.lt_of_succ_lt_succ hfuel) hw' honly' ?_
      exact (hlt.trans_le honlyNew.lists).trans_le honlyAdd.lists

theorem copy_spec (hw : Inv w) (hl : l < w.numAttributes.length) :
    ∃ r, copy w (some l) = some r ∧ Inv r.1 ∧ OnlyNamed w none r.1 := by
  obtain ⟨as, hring, -, hknown⟩ := hw l hl
  obtain ⟨hnew, honly⟩ := new_spec hw
  simp only [copy]
  rw [if_pos hl, ((honly.others l hl nofun).2 _ hring).next_head]
  refine copyLoop_spec hl le_rfl hring hknown [] as _ _ rfl
    (Nat.lt_succ_of_le (hring.length_le hknown)) hnew honly ?_
  simp [AttributeLists.new]

theorem step_spec {op : Op} (hw : Inv w) (hvalid : Valid w op) (hproper : Proper w op) :
    ∃ w', step w op = some w' ∧ Inv w' ∧ OnlyNamed w op.named w' := by
  have hstep : ∀ {α : Type} {f : Option (World × α)} {named : Option ℕ},
      (∃ r, f = some r ∧ Inv r.1 ∧ OnlyNamed w named r.1) →
        ∃ w', f.map (·.1) = some w' ∧ Inv w' ∧ OnlyNamed w named w' := by
    rintro α f named ⟨r, rfl, hr⟩
    exact ⟨r.1, rfl, hr⟩
  have hsame : ∀ {named : Option ℕ}, ∃ w', some w = some w' ∧ Inv w' ∧ OnlyNamed w named w' :=
    ⟨w, rfl, hw, .refl w _⟩
  match op with
  | .new => exact ⟨_, rfl, new_spec hw⟩
  | .attributeNew attr => exact ⟨_, rfl, attributeNew_spec hw attr⟩
  | .add none _ | .add (some _) none => exact hsame
  | .add (some l) (some a) => exact hstep (addAttribute_spec hw (hvalid.1 l rfl) (hvalid.2 a rfl))
  | .remove none _ _ | .remove (some _) none _ | .remove (some _) (some _) none => exact hsame
  | .remove (some l) (some _) (some _) => exact hstep (removeAttribute_spec hw (hvalid l rfl))
  | .detach none _ | .detach (some _) none => exact hsame
  | .detach (some l) (some a) =>
    exact hstep (detachAttribute_spec hw (hvalid.1 l rfl) (hvalid.2 a rfl) hproper)
  | .pop none => exact hsame
  | .pop (some l) => exact hstep (pop_spec hw (hvalid l rfl) hproper)
  | .copy none => exact hsame
  | .copy (some l) => exact hstep (copy_spec hw (hvalid l rfl))

theorem run_spec {ops : List Op} (hw : Inv w) (hallowed : Allowed w ops) :
    ∃ w', run w ops = some w' ∧ Inv w' := by
  induction ops generalizing w with
  | nil => exact ⟨w, rfl, hw⟩
  | cons op ops ih =>
    obtain ⟨hvalid, hproper, hrest⟩ := hallowed
    obtain ⟨w₁, hstep, hw₁, -⟩ := step_spec hw hvalid hproper
    obtain ⟨w', hrun, hw'⟩ := ih hw₁ (hrest w₁ hstep)
    refine ⟨w', ?_, hw'⟩
    unfold run
    rw [List.foldlM_cons, hstep]
    exact hrun

end Steps

/-- In a run in which only attributes are detached that the list has or that nothing in it looks
like, and only lists are popped that are not empty, every list counts what is linked in it, no
attribute is in two lists, and the next operation of this kind changes only the list that it
names. -/
theorem listsCounted {ops : List Op} (hallowed : Allowed .start ops) :
    ∃ w, run .start ops = some w ∧ Counted w ∧ ∀ op, Valid w op → Proper w op →
      ∃ w', step w op = some w' ∧ Counted w' ∧ OnlyNamed w op.named w' := by
  have hstart : Inv .start := fun l hl => absurd hl (Nat.not_lt_zero l)
  obtain ⟨w, hrun, hw⟩ := run_spec hstart hallowed
  refine ⟨w, hrun, hw.counted, fun op hvalid hproper => ?_⟩
  obtain ⟨w', hstep, hw', honly⟩ := step_spec hw hvalid hproper
  exact ⟨w', hstep, hw'.counted, honly⟩

namespace Sample

def picture : Attribute := ⟨lit "a", lit "b", 1⟩

theorem listsCounted_added : ∃ w, run .start [.new, .attributeNew picture, .add (some 0) (some 0),
      .detach (some 0) (some 0)] = some w ∧ Counted w ∧ ∀ op, Valid w op → Proper w op →
      ∃ w', step w op = some w' ∧ Counted w' ∧ OnlyNamed w op.named w' := by
  refine listsCounted ⟨trivial, trivial, ?_⟩
  rintro _ ⟨⟩
  refine ⟨trivial, trivial, ?_⟩
  rintro _ ⟨⟩
  refine ⟨⟨?_, ?_⟩, trivial, ?_⟩
  · rintro _ ⟨⟩
    decide
  · rintro _ ⟨⟩
    decide
  rintro _ ⟨⟩
  refine ⟨⟨?_, ?_⟩, .inl ⟨[0], .singleton rfl rfl rfl rfl, List.mem_singleton.mpr rfl⟩,
    fun _ _ => trivial⟩
  · rintro _ ⟨⟩
    decide
  · rintro _ ⟨⟩
    decide

/-- The second attribute is in no list; to detach it takes one off the count of the first one's. -/
theorem not_counted_lookAlike : ∃ w, run .start [.new, .attributeNew picture,
      .attributeNew picture, .add (some 0) (some 0), .detach (some 0) (some 1)] = some w ∧
    ¬ Counted w := by
  refine ⟨_, rfl, fun h => ?_⟩
  obtain ⟨as, hring, hnum⟩ := h.counted 0 (by decide)
  obtain rfl := hring.unique (.singleton (a := 0) rfl rfl rfl rfl)
  exact absurd hnum (by decide)

end Sample

end AttributeLists
end Haggle
