import Haggle.LibMetadata
import Haggle.MetadataRoundTrip

/-!
# Two readers of one document

The kernel and the application library read documents with functions of their own. The kernel gives
an element the text of everything in it if a text comes first; the library gives it the last run of
text of its own. Names, parameters and the order of elements are the same, and the contents are for
the elements whose only text comes first.
-/

namespace Haggle

namespace XmlNode

/-- The content of a run of text. -/
def run : XmlNode → Option Bytes
  | text c => some c
  | cdata c => some c
  | _ => none

/-- The last run of text that is not blank. -/
def lastRun (cs : List XmlNode) : Option Bytes :=
  ((cs.filterMap run).filter fun c => !isBlank c).getLast?

/-- All runs of text are blank, or a text comes first and there is no other text. -/
def plainText : List XmlNode → Bool
  | text c :: cs =>
    if isBlank c then (cs.filterMap run).all isBlank else decide (getContents cs = [])
  | cs => (cs.filterMap run).all isBlank

mutual

def plain : XmlNode → Bool
  | elem _ _ cs => plainText cs && plainAll cs
  | _ => true

def plainAll : List XmlNode → Bool
  | [] => true
  | c :: cs => plain c && plainAll cs

end

theorem lastRun_eq_none_iff {cs : List XmlNode} :
    lastRun cs = none ↔ (cs.filterMap run).all isBlank = true := by
  rw [lastRun, List.getLast?_eq_none_iff, List.filter_eq_nil_iff, List.all_eq_true]
  exact forall₂_congr fun c _ => by simp

theorem isBlank_of_lastRun {cs : List XmlNode} {c : Bytes} (h : lastRun cs = some c) :
    isBlank c = false := by
  have hmem := List.mem_of_getLast? h
  simpa using (List.mem_filter.mp hmem).2

/-- A run is a part of the text. -/
theorem length_le_of_run {cs : List XmlNode} {c : Bytes} (h : c ∈ cs.filterMap run) :
    c.length ≤ (getContents cs).length := by
  induction cs with
  | nil => exact absurd h List.not_mem_nil
  | cons x cs ih =>
    rw [getContents, List.length_append]
    rcases List.mem_filterMap.mp h with ⟨y, hy, hrun⟩
    rcases List.mem_cons.mp hy with rfl | hy
    · cases y with
      | text d => cases hrun; exact Nat.le_add_right _ _
      | cdata d => cases hrun; exact Nat.le_add_right _ _
      | elem n ps gs => cases hrun
      | entityRef _ _ => cases hrun
      | other => cases hrun
    · exact (ih (List.mem_filterMap.mpr ⟨y, hy, hrun⟩)).trans (Nat.le_add_left _ _)

theorem ne_nil_of_not_blank {c : Bytes} (h : isBlank c = false) : c ≠ [] := by
  rintro rfl
  exact Bool.noConfusion h

/-- Behind a text that is not blank, the last run is the whole text if there is no other one. -/
theorem lastRun_getD_eq_iff {c : Bytes} (hc : isBlank c = false) (cs : List XmlNode) :
    (lastRun cs).getD c = c ++ getContents cs ↔ getContents cs = [] := by
  cases hlast : lastRun cs with
  | none => simp
  | some d =>
    have hd := ne_nil_of_not_blank (isBlank_of_lastRun hlast)
    have hlen : d.length ≤ (getContents cs).length :=
      length_le_of_run (List.mem_of_mem_filter (List.mem_of_getLast? hlast))
    have hdpos := List.length_pos_iff.mpr hd
    have hcpos := List.length_pos_iff.mpr (ne_nil_of_not_blank hc)
    constructor
    · intro h
      have heq := congrArg List.length h
      simp only [Option.getD_some, List.length_append] at heq
      omega
    · intro h
      rw [h, List.length_nil] at hlen
      omega

/-- The two contents of an element. -/
theorem lastRun_eq_elementContent_iff (cs : List XmlNode) :
    (lastRun cs).getD [] = elementContent cs ↔ plainText cs = true := by
  have hnone : (lastRun cs).getD [] = [] ↔ (cs.filterMap run).all isBlank = true := by
    rw [← lastRun_eq_none_iff]
    cases hlast : lastRun cs with
    | none => simp
    | some d =>
      simp only [Option.getD_some, reduceCtorEq, iff_false]
      exact ne_nil_of_not_blank (isBlank_of_lastRun hlast)
  match cs with
  | [] | .elem _ _ _ :: _ | .cdata _ :: _ | .entityRef _ _ :: _ | .other :: _ => exact hnone
  | .text c :: cs =>
    have hruns : (XmlNode.text c :: cs).filterMap run = c :: cs.filterMap run := rfl
    by_cases hc : isBlank c = true
    · rw [elementContent, if_pos hc, plainText, if_pos hc, hnone, hruns, List.all_cons, hc,
        Bool.true_and]
    · have hlast : lastRun (XmlNode.text c :: cs) = some ((lastRun cs).getD c) := by
        rw [lastRun, hruns, List.filter_cons_of_pos (by simpa using hc), List.getLast?_cons]
        rfl
      rw [elementContent, if_neg hc, plainText, if_neg hc, hlast, Option.getD_some, getContents,
        getContent, lastRun_getD_eq_iff (by simpa using hc), decide_eq_true_iff]

theorem lastRun_cons_of_not_run {x : XmlNode} (h : x.run = none) (cs : List XmlNode) :
    lastRun (x :: cs) = lastRun cs := by
  rw [lastRun, List.filterMap_cons_none h, lastRun]

theorem lastRun_cons_of_run {x : XmlNode} {c : Bytes} (h : x.run = some c) (cs : List XmlNode) :
    lastRun (x :: cs) = (lastRun cs).or (if isBlank c then none else some c) := by
  rw [lastRun, List.filterMap_cons_some h]
  by_cases hc : isBlank c = true
  · rw [List.filter_cons_of_neg (by simpa using hc), if_pos hc, Option.or_none, lastRun]
  · rw [List.filter_cons_of_pos (by simpa using hc), if_neg hc, List.getLast?_cons, lastRun]
    cases List.getLast? ((cs.filterMap run).filter fun c => !isBlank c) <;> rfl

end XmlNode

namespace LibMetadata

section Reader

mutual

/-- `metadata_xml_parse`, or `none` where it uses the node of an empty attribute. -/
def xmlParse (m : LibMetadata) : XmlNode → Option LibMetadata
  | .elem _ ps cs =>
    if ps.all (fun p => p.2 ≠ []) then
      xmlParseChildren (ps.foldl (fun m p => m.setParameter p.1 p.2) m) cs
    else none
  | _ => some m

def xmlParseChildren (m : LibMetadata) : List XmlNode → Option LibMetadata
  | [] => some m
  | .elem n ps gs :: cs =>
    (xmlParse (new n none) (.elem n ps gs)).bind fun c => xmlParseChildren (m.add c) cs
  | .text c :: cs => xmlParseChildren (if XmlNode.isBlank c then m else m.setContent c) cs
  | .cdata c :: cs => xmlParseChildren (if XmlNode.isBlank c then m else m.setContent c) cs
  | _ :: cs => xmlParseChildren m cs

end

/-- `metadata_xml_new_from_xml`. -/
def xmlNewFromXml (lib : LibXml) (raw : Bytes) : Reading LibMetadata :=
  match lib.parse raw with
  | some (.elem n ps cs) =>
    match xmlParse (new n none) (.elem n ps cs) with
    | none => .fault
    | some m => .tree (m.setContent (XmlNode.getContent (.elem n ps cs)))
  | _ => .failed

/-- What an element adds to the children of its parent. -/
def xmlElement : XmlNode → Option LibMetadata
  | .elem n ps gs => xmlParse (new n none) (.elem n ps gs)
  | _ => none

mutual

theorem isSome_xmlParse : ∀ (x : XmlNode) (m : LibMetadata), (xmlParse m x).isSome = x.valued
  | .elem n ps cs, m => by
    rw [xmlParse, XmlNode.valued]
    by_cases hps : ps.all (fun p => p.2 ≠ []) = true
    · rw [if_pos hps, hps, Bool.true_and, isSome_xmlParseChildren cs]
    · rw [if_neg hps, Bool.eq_false_iff.mpr hps, Bool.false_and, Option.isSome_none]
  | .text _, _ => rfl
  | .cdata _, _ => rfl
  | .entityRef _ _, _ => rfl
  | .other, _ => rfl

theorem isSome_xmlParseChildren : ∀ (cs : List XmlNode) (m : LibMetadata),
    (xmlParseChildren m cs).isSome = XmlNode.valuedAll cs
  | [], _ => rfl
  | .elem n ps gs :: cs, m => by
    have hx := isSome_xmlParse (.elem n ps gs) (new n none)
    rw [xmlParseChildren, XmlNode.valuedAll, ← hx]
    cases xmlParse (new n none) (.elem n ps gs) with
    | none => rfl
    | some c =>
      rw [Option.bind_some, Option.isSome_some, Bool.true_and, isSome_xmlParseChildren cs]
  | .text c :: cs, m => isSome_xmlParseChildren cs _
  | .cdata c :: cs, m => isSome_xmlParseChildren cs _
  | .entityRef _ _ :: cs, m => isSome_xmlParseChildren cs m
  | .other :: cs, m => isSome_xmlParseChildren cs m

end

/-- A run of text becomes the content until the next one that is not blank. -/
theorem content_run (m : LibMetadata) {x : XmlNode} {c : Bytes} (h : x.run = some c)
    (cs : List XmlNode) :
    (XmlNode.lastRun cs).or (if XmlNode.isBlank c then m else m.setContent c).content =
      (XmlNode.lastRun (x :: cs)).or m.content := by
  rw [XmlNode.lastRun_cons_of_run h, Option.or_assoc]
  split_ifs <;> rfl

theorem fields_run (m : LibMetadata) (c : Bytes) :
    (if XmlNode.isBlank c then m else m.setContent c).name = m.name ∧
      (if XmlNode.isBlank c then m else m.setContent c).parameters = m.parameters ∧
        (if XmlNode.isBlank c then m else m.setContent c).children = m.children := by
  split_ifs <;> exact ⟨rfl, rfl, rfl⟩

/-- What the children of a node do to its metadata. -/
theorem xmlParseChildren_fields (cs : List XmlNode) {m m' : LibMetadata}
    (h : xmlParseChildren m cs = some m') :
    m'.name = m.name ∧ m'.parameters = m.parameters ∧
      m'.content = (XmlNode.lastRun cs).or m.content ∧
        m'.children = m.children ++ cs.filterMap xmlElement := by
  induction cs generalizing m with
  | nil =>
    obtain rfl := Option.some.inj h
    exact ⟨rfl, rfl, rfl, (List.append_nil _).symm⟩
  | cons x cs ih =>
    cases x with
    | elem n ps gs =>
      rw [xmlParseChildren] at h
      obtain ⟨c, hc, hrest⟩ := Option.bind_eq_some_iff.mp h
      obtain ⟨hname, hparams, hcontent, hchildren⟩ := ih hrest
      refine ⟨hname, hparams, ?_, ?_⟩
      · rw [hcontent, XmlNode.lastRun_cons_of_not_run rfl]
        rfl
      · rw [hchildren, List.filterMap_cons_some (f := xmlElement) (a := .elem n ps gs) hc, add,
          List.append_assoc]
        rfl
    | text c =>
      obtain ⟨hname, hparams, hcontent, hchildren⟩ := ih h
      obtain ⟨hn, hp, hc⟩ := fields_run m c
      rw [content_run m (x := .text c) rfl] at hcontent
      exact ⟨hname.trans hn, hparams.trans hp, hcontent, hc ▸ hchildren⟩
    | cdata c =>
      obtain ⟨hname, hparams, hcontent, hchildren⟩ := ih h
      obtain ⟨hn, hp, hc⟩ := fields_run m c
      rw [content_run m (x := .cdata c) rfl] at hcontent
      exact ⟨hname.trans hn, hparams.trans hp, hcontent, hc ▸ hchildren⟩
    | entityRef _ _ => exact ih h
    | other => exact ih h

theorem foldl_setParameter_fields (ps : List (Bytes × Bytes)) (m : LibMetadata) :
    (ps.foldl (fun m p => m.setParameter p.1 p.2) m).name = m.name ∧
      (ps.foldl (fun m p => m.setParameter p.1 p.2) m).content = m.content ∧
      (ps.foldl (fun m p => m.setParameter p.1 p.2) m).children = m.children ∧
      (ps.foldl (fun m p => m.setParameter p.1 p.2) m).parameters =
        ps.foldl (fun l p => AssocList.set p.1 p.2 l) m.parameters := by
  induction ps generalizing m with
  | nil => exact ⟨rfl, rfl, rfl, rfl⟩
  | cons p ps ih => exact ih _

theorem xmlParse_fields {n name : Bytes} {ps : List (Bytes × Bytes)} {cs : List XmlNode}
    {m : LibMetadata} (h : xmlParse (new name none) (.elem n ps cs) = some m) :
    m.name = name ∧ m.parameters = ps.foldl (fun l p => AssocList.set p.1 p.2 l) [] ∧
      m.content = XmlNode.lastRun cs ∧ m.children = cs.filterMap xmlElement := by
  rw [xmlParse] at h
  split_ifs at h
  obtain ⟨hname, hparams, hcontent, hchildren⟩ := xmlParseChildren_fields cs h
  obtain ⟨hname', hcontent', hchildren', hparams'⟩ := foldl_setParameter_fields ps (new name none)
  rw [hcontent', new, Option.or_none] at hcontent
  rw [hchildren', new, List.nil_append] at hchildren
  exact ⟨hname.trans hname', hparams.trans hparams', hcontent, hchildren⟩

end Reader

end LibMetadata

namespace Metadata

section Agreement

variable {c : PlainChar}

/-- The trees of the kernel and of the library have the same names, parameters and contents, and the
elements of each name are in the same order. -/
inductive Agree : Metadata → LibMetadata → Prop
  | mk {m : Metadata} {l : LibMetadata} (name : l.name = m.name)
      (param : ∀ k, l.getParameter k = m.getParameter k) (content : l.content.getD [] = m.content)
      (children : ∀ k, List.Forall₂ Agree (m.getAll k) (l.getAll k)) : Agree m l

theorem agree_iff {m : Metadata} {l : LibMetadata} : Agree m l ↔ l.name = m.name ∧
    (∀ k, l.getParameter k = m.getParameter k) ∧ l.content.getD [] = m.content ∧
      ∀ k, List.Forall₂ Agree (m.getAll k) (l.getAll k) := by
  constructor
  · intro h
    cases h with | mk name param content children => exact ⟨name, param, content, children⟩
  · exact fun h => ⟨h.1, h.2.1, h.2.2.1, h.2.2.2⟩

/-- Lists with the same keys in the same order can be compared key by key. -/
theorem forall₂_filter_iff {α β κ : Type*} [DecidableEq κ] {f : α → κ} {g : β → κ}
    {R : α → β → Prop} {as : List α} {bs : List β}
    (hkeys : List.Forall₂ (fun a b => f a = g b) as bs) :
    (∀ k, List.Forall₂ R (as.filter fun a => f a = k) (bs.filter fun b => g b = k)) ↔
      List.Forall₂ R as bs := by
  induction hkeys with
  | nil => simp
  | @cons a b as bs hkey hkeys ih =>
    rw [List.forall₂_cons, ← ih]
    constructor
    · intro h
      have hhere := h (f a)
      rw [List.filter_cons_of_pos (by simp), List.filter_cons_of_pos (by simp [hkey]),
        List.forall₂_cons] at hhere
      refine ⟨hhere.1, fun k => ?_⟩
      by_cases hk : f a = k
      · exact hk ▸ hhere.2
      · have hother := h k
        rwa [List.filter_cons_of_neg (by simpa using hk),
          List.filter_cons_of_neg (by simpa [← hkey] using hk)] at hother
    · rintro ⟨hab, htail⟩ k
      by_cases hk : f a = k
      · rw [List.filter_cons_of_pos (by simpa using hk),
          List.filter_cons_of_pos (by simpa [← hkey] using hk)]
        exact .cons hab (htail k)
      · rw [List.filter_cons_of_neg (by simpa using hk),
          List.filter_cons_of_neg (by simpa [← hkey] using hk)]
        exact htail k

theorem getAll_parseElement (name content n : Bytes) (ps : List (Bytes × Bytes))
    (cs : List XmlNode) (k : Bytes) :
    (parseXML (new name content c) (.elem n ps cs)).getAll k =
      (cs.filterMap (parseElement c)).filter fun c => c.name = k := by
  have hreg := (foldl_setParameter_fields ps (new name content c)).2.2
  obtain ⟨hwf, hval⟩ := values_parseChildren cs
    (m := ps.foldl (fun m p => m.setParameter p.1 p.2) (new name content c))
    (by rw [hreg]; exact HashMap.wf_empty)
  have hempty : (new name content c).registry.values k = [] := by
    rw [← getAll_eq_values (valid_new name content).wf, getAll_new]
  have hchar : (ps.foldl (fun m p => m.setParameter p.1 p.2) (new name content c)).plainChar = c :=
    plainChar_foldl_setParameter ps _
  rw [parseXML, getAll_eq_values hwf, hval k, hreg, hempty, List.nil_append, hchar]

/-- The elements that the readers find have the same names. -/
theorem names_elements {cs : List XmlNode} (h : XmlNode.valuedAll cs = true) :
    List.Forall₂ (fun (a : Metadata) (b : LibMetadata) => a.name = b.name)
      (cs.filterMap (parseElement c)) (cs.filterMap LibMetadata.xmlElement) := by
  induction cs with
  | nil => exact .nil
  | cons x cs ih =>
    rw [XmlNode.valuedAll, Bool.and_eq_true] at h
    have htail := ih h.2
    cases x with
    | elem n ps gs =>
      have hsome := LibMetadata.isSome_xmlParse (.elem n ps gs) (.new n none)
      rw [h.1] at hsome
      obtain ⟨l, hl⟩ := Option.isSome_iff_exists.mp hsome
      rw [List.filterMap_cons_some (f := parseElement c) (a := .elem n ps gs) rfl,
        List.filterMap_cons_some (f := LibMetadata.xmlElement) (a := .elem n ps gs) hl]
      refine .cons ?_ htail
      rw [(LibMetadata.xmlParse_fields hl).1, (parseXML_fields _ n ps gs).1, new]
    | text c => exact htail
    | cdata c => exact htail
    | entityRef _ _ => exact htail
    | other => exact htail

/-- What the two readers make of an element, but for its content and what is in it. -/
theorem agree_iff_inside {n name content : Bytes} {ps : List (Bytes × Bytes)} {cs : List XmlNode}
    {m : Metadata} {l : LibMetadata} (hvalued : XmlNode.valuedAll cs = true)
    (hregistry : m.registry = (parseXML (new name content c) (.elem n ps cs)).registry)
    (hparams : m.params = ps.foldl (fun l p => AssocList.set p.1 p.2 l) [])
    (hname : l.name = m.name)
    (hlparams : l.parameters = ps.foldl (fun l p => AssocList.set p.1 p.2 l) [])
    (hchildren : l.children = cs.filterMap LibMetadata.xmlElement) :
    Agree m l ↔ l.content.getD [] = m.content ∧ List.Forall₂ Agree (cs.filterMap (parseElement c))
      (cs.filterMap LibMetadata.xmlElement) := by
  have hall : ∀ k, m.getAll k = (cs.filterMap (parseElement c)).filter fun c => c.name = k := by
    intro k
    rw [← getAll_parseElement name content n ps cs k, getAll, getAll, hregistry]
  have hlall : ∀ k, l.getAll k =
      (cs.filterMap LibMetadata.xmlElement).filter fun c => c.name = k := by
    intro k
    rw [LibMetadata.getAll, hchildren]
  have hget : ∀ k, l.getParameter k = m.getParameter k := by
    intro k
    rw [LibMetadata.getParameter, getParameter, hparams, hlparams]
  rw [agree_iff, ← forall₂_filter_iff (names_elements hvalued)]
  simp only [hall, hlall]
  exact ⟨fun h => h.2.2, fun h => ⟨hname, hget, h⟩⟩

theorem valuedAll_of_xmlParse {n : Bytes} {ps : List (Bytes × Bytes)} {cs : List XmlNode}
    {m l : LibMetadata} (h : LibMetadata.xmlParse m (.elem n ps cs) = some l) :
    XmlNode.valuedAll cs = true := by
  have hsome := LibMetadata.isSome_xmlParse (.elem n ps cs) m
  rw [h, Option.isSome_some, XmlNode.valued] at hsome
  exact (Bool.and_eq_true_iff.mp hsome.symm).2

theorem params_parseXML (name content n : Bytes) (ps : List (Bytes × Bytes)) (cs : List XmlNode) :
    (parseXML (new name content c) (.elem n ps cs)).params =
      ps.foldl (fun l p => AssocList.set p.1 p.2 l) [] := by
  rw [(parseXML_fields _ n ps cs).2.2, params_foldl]
  rfl

mutual

/-- The readers agree on an element if its text, and that of every element in it, is plain. -/
theorem agree_element : ∀ (x : XmlNode) {m : Metadata} {l : LibMetadata},
    parseElement c x = some m → LibMetadata.xmlElement x = some l → (Agree m l ↔ x.plain = true)
  | .elem n ps cs, m, l, hm, hl => by
    have hl : LibMetadata.xmlParse (.new n none) (.elem n ps cs) = some l := hl
    have hvalued := valuedAll_of_xmlParse hl
    obtain ⟨hname, hparams, hcontent, hchildren⟩ := LibMetadata.xmlParse_fields hl
    obtain rfl := Option.some.inj hm
    obtain ⟨hmname, hmcontent, -⟩ :=
      parseXML_fields (new n (XmlNode.elementContent cs) c) n ps cs
    rw [agree_iff_inside hvalued rfl (params_parseXML _ _ n ps cs)
      (by rw [hname, hmname, new]) hparams hchildren, hcontent, hmcontent, new,
      XmlNode.lastRun_eq_elementContent_iff, agree_elements cs hvalued, XmlNode.plain,
      Bool.and_eq_true]
  | .text _, _, _, hm, _ => absurd hm (by simp [parseElement])
  | .cdata _, _, _, hm, _ => absurd hm (by simp [parseElement])
  | .entityRef _ _, _, _, hm, _ => absurd hm (by simp [parseElement])
  | .other, _, _, hm, _ => absurd hm (by simp [parseElement])

theorem agree_elements : ∀ cs : List XmlNode, XmlNode.valuedAll cs = true →
    (List.Forall₂ Agree (cs.filterMap (parseElement c)) (cs.filterMap LibMetadata.xmlElement) ↔
      XmlNode.plainAll cs = true)
  | [], _ => by simp [XmlNode.plainAll]
  | .elem n ps gs :: cs, h => by
    rw [XmlNode.valuedAll, Bool.and_eq_true] at h
    have hsome := LibMetadata.isSome_xmlParse (.elem n ps gs) (.new n none)
    rw [h.1] at hsome
    obtain ⟨l, hl⟩ := Option.isSome_iff_exists.mp hsome
    rw [List.filterMap_cons_some (f := parseElement c) (a := .elem n ps gs) rfl,
      List.filterMap_cons_some (f := LibMetadata.xmlElement) (a := .elem n ps gs) hl,
      List.forall₂_cons, agree_elements cs h.2, agree_element (.elem n ps gs) rfl hl,
      XmlNode.plainAll, Bool.and_eq_true]
  | .text _ :: cs, h => agree_elements cs h
  | .cdata _ :: cs, h => agree_elements cs h
  | .entityRef _ _ :: cs, h => agree_elements cs h
  | .other :: cs, h => agree_elements cs h

end

end Agreement

end Metadata

namespace Sample

end Sample
end Haggle
