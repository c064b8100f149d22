import Haggle.ObjectWire

/-!
# Metadata that is written and read again

The reader takes the string of an attribute from the node behind it, and an attribute with an empty
value has none. Here the reader says when it goes wrong, and what is read of a document is compared
with the tree that was written.
-/

namespace Haggle

/-- What becomes of a document: the reader uses a pointer that is `NULL`, or it fails, or there is a
tree. -/
inductive Reading (α : Type)
  | fault
  | failed
  | tree (m : α)

namespace XmlNode

mutual

/-- All attributes have values. -/
def valued : XmlNode → Bool
  | elem _ ps cs => ps.all (fun p => p.2 ≠ []) && valuedAll cs
  | _ => true

def valuedAll : List XmlNode → Bool
  | [] => true
  | c :: cs => valued c && valuedAll cs

end

theorem valuedAll_eq (cs : List XmlNode) : valuedAll cs = cs.all valued := by
  induction cs with
  | nil => rfl
  | cons c cs ih => rw [valuedAll, ih, List.all_cons]

theorem valued_of_isText {x : XmlNode} (h : x.isText = true) : x.valued = true := by
  cases x <;> first | rfl | exact absurd h Bool.false_ne_true

theorem elementContent_eq (cs : List XmlNode) :
    elementContent cs = [] ∨ elementContent cs = getContents cs := by
  match cs with
  | [] | .elem _ _ _ :: _ | .cdata _ :: _ | .entityRef _ _ :: _ | .other :: _ => exact .inl rfl
  | .text c :: cs =>
    rw [elementContent]
    split_ifs
    · exact .inl rfl
    · exact .inr rfl

mutual

/-- The indentation has no attributes. -/
theorem valued_format (level : ℕ) : ∀ x : XmlNode, (format level x).valued = x.valued
  | .elem n ps cs => by
    rw [format]
    split_ifs
    · rfl
    · rw [valued, valued, valuedAll_format (level + 1) level cs]
  | .text _ => rfl
  | .cdata _ => rfl
  | .entityRef _ _ => rfl
  | .other => rfl

theorem valuedAll_format (level last : ℕ) : ∀ cs : List XmlNode,
    valuedAll (formatChildren level cs ++ [indent last]) = valuedAll cs
  | [] => rfl
  | c :: cs => by
    have hskip : ∀ l, valuedAll (indent level :: l) = valuedAll l := fun _ => rfl
    rw [formatChildren, List.cons_append, List.cons_append, hskip, valuedAll, valuedAll,
      valued_format level c, valuedAll_format level last cs]

end

end XmlNode

/-- What `xmlNewChild` makes of a content: a plain one becomes a text, and with references in it
there is less text than was written. No part of it is an element. -/
structure LibXml.Contents (lib : LibXml) : Prop where
  plain : ∀ s, s ≠ [] → 38 ∉ s → lib.contentNodes s = [.text s]
  references : ∀ s, 38 ∈ s → (XmlNode.getContents (lib.contentNodes s)).length < s.length
  texts : ∀ s, ∀ x ∈ lib.contentNodes s, x.isText = true

namespace Metadata

section Reader

mutual

/-- `parseXML`, or `none` where it uses the node of an empty attribute. -/
def readXML (m : Metadata) : XmlNode → Option Metadata
  | .elem _ ps cs =>
    if ps.all (fun p => p.2 ≠ []) then
      readChildren (ps.foldl (fun m p => m.setParameter p.1 p.2) m) cs
    else none
  | _ => some m

def readChildren (m : Metadata) : List XmlNode → Option Metadata
  | [] => some m
  | .elem n ps gs :: cs =>
    (readXML (new n (XmlNode.elementContent gs) m.plainChar) (.elem n ps gs)).bind fun c =>
      readChildren (m.addMetadata c) cs
  | _ :: cs => readChildren m cs

end

/-- `initFromRaw`. -/
def readRaw (lib : LibXml) (raw : Bytes) (c : PlainChar := .signed) : Reading Metadata :=
  match lib.parse raw with
  | some (.elem n ps cs) =>
    match readXML (new [] [] c) (.elem n ps cs) with
    | none => .fault
    | some m => .tree { m with name := n, content := XmlNode.getContent (.elem n ps cs) }
  | _ => .failed

mutual

theorem readXML_eq (m : Metadata) :
    ∀ x : XmlNode, readXML m x = if x.valued then some (parseXML m x) else none
  | .elem n ps cs => by
    rw [readXML, parseXML, XmlNode.valued, readChildren_eq]
    by_cases hps : ps.all (fun p => p.2 ≠ []) = true
    · rw [if_pos hps, hps, Bool.true_and]
    · rw [if_neg hps, Bool.eq_false_iff.mpr hps, Bool.false_and, if_neg Bool.false_ne_true]
  | .text _ => rfl
  | .cdata _ => rfl
  | .entityRef _ _ => rfl
  | .other => rfl

theorem readChildren_eq (m : Metadata) : ∀ cs : List XmlNode,
    readChildren m cs = if XmlNode.valuedAll cs then some (parseChildren m cs) else none
  | [] => rfl
  | .elem n ps gs :: cs => by
    rw [readChildren, readXML_eq, XmlNode.valuedAll]
    by_cases hx : (XmlNode.elem n ps gs).valued = true
    · rw [if_pos hx, hx, Bool.true_and, Option.bind_some, readChildren_eq, parseChildren]
    · rw [if_neg hx, Bool.eq_false_iff.mpr hx, Bool.false_and, if_neg Bool.false_ne_true]
      rfl
  | .text _ :: cs => readChildren_eq m cs
  | .cdata _ :: cs => readChildren_eq m cs
  | .entityRef _ _ :: cs => readChildren_eq m cs
  | .other :: cs => readChildren_eq m cs

end

theorem readRaw_of_parse {lib : LibXml} {raw n : Bytes} {ps : List (Bytes × Bytes)}
    {cs : List XmlNode} (h : lib.parse raw = some (.elem n ps cs)) (c : PlainChar) :
    readRaw lib raw c = if (XmlNode.elem n ps cs).valued then
      .tree { parseXML (new [] [] c) (.elem n ps cs) with
        name := n, content := XmlNode.getContent (.elem n ps cs) }
    else .fault := by
  simp only [readRaw, h, readXML_eq]
  split_ifs <;> rfl

/-- The reader goes wrong on the documents with an empty attribute. -/
theorem readRaw_ne_fault_iff (lib : LibXml) (raw : Bytes) (c : PlainChar) :
    readRaw lib raw c ≠ .fault ↔ ∀ x, lib.parse raw = some x → x.valued = true := by
  cases hx : lib.parse raw with
  | none => simp [readRaw, hx]
  | some x =>
    cases x with
    | elem n ps cs =>
      rw [readRaw_of_parse hx]
      split_ifs with hv <;> simp [hv]
    | text c => simp [readRaw, hx, XmlNode.valued]
    | cdata c => simp [readRaw, hx, XmlNode.valued]
    | entityRef _ _ => simp [readRaw, hx, XmlNode.valued]
    | other => simp [readRaw, hx, XmlNode.valued]

end Reader

section Trees

/-- What is to be the same behind the round trip. -/
inductive SameTree : Metadata → Metadata → Prop
  | mk {m m' : Metadata} (name : m'.name = m.name)
      (param : ∀ k, m'.getParameter k = m.getParameter k)
      (content : m.Leaf → m'.content = m.content)
      (children : ∀ k, List.Forall₂ SameTree (m.getAll k) (m'.getAll k)) : SameTree m m'

/-- A property of all elements of a tree. -/
inductive Everywhere (P : Metadata → Prop) : Metadata → Prop
  | mk {m : Metadata} (here : P m) (children : ∀ e ∈ m.registry.toList, Everywhere P e.2) :
      Everywhere P m

/-- A property of all elements below the root. -/
def Below (P : Metadata → Prop) (m : Metadata) : Prop :=
  ∀ e ∈ m.registry.toList, Everywhere P e.2

/-- The contents of leaves that the format can carry: it ignores blank ones. -/
def NotBlank (m : Metadata) : Prop :=
  m.Leaf → m.content = [] ∨ XmlNode.isBlank m.content = false

def NoReference (m : Metadata) : Prop := m.Leaf → 38 ∉ m.content

def ValuedParams (m : Metadata) : Prop := ∀ p ∈ m.params, p.2 ≠ []

def RoundTrips (lib : LibXml) (m : Metadata) : Prop :=
  ∃ m', readRaw lib (m.getRawAlloc lib) m.plainChar = .tree m' ∧ SameTree m m'

/-- No parameter is empty, no leaf below the root has an ampersand in its content, and the root has
elements or no content. -/
structure Restorable (m : Metadata) : Prop where
  params : Everywhere ValuedParams m
  leaves : Below NoReference m
  root : m.Leaf → m.content = []

theorem everywhere_iff {P : Metadata → Prop} {m : Metadata} :
    Everywhere P m ↔ P m ∧ Below P m := by
  constructor
  · intro h
    cases h with | mk here children => exact ⟨here, children⟩
  · exact fun h => ⟨h.1, h.2⟩

theorem sameTree_iff {m m' : Metadata} : SameTree m m' ↔ m'.name = m.name ∧
    (∀ k, m'.getParameter k = m.getParameter k) ∧ (m.Leaf → m'.content = m.content) ∧
      ∀ k, List.Forall₂ SameTree (m.getAll k) (m'.getAll k) := by
  constructor
  · intro h
    cases h with | mk name param content children => exact ⟨name, param, content, children⟩
  · exact fun h => ⟨h.1, h.2.1, h.2.2.1, h.2.2.2⟩

variable {lib : LibXml} {m : Metadata}

/-- The content of a leaf comes back unless there is an ampersand in it. -/
theorem content_reread_iff (hlib : lib.Contents) (hleaf : m.Leaf) (hblank : NotBlank m)
    {c : PlainChar} : (reread lib m c).content = m.content ↔ 38 ∉ m.content := by
  constructor
  · intro h hamp
    have hnil : createRegistry lib m.registry = [] := by
      rw [createRegistry_eq, show m.registry.toList = [] from hleaf, List.map_nil]
    have hne : m.content ≠ [] := List.ne_nil_of_mem hamp
    rw [reread, createNode_eq, (parseXML_fields _ _ _ _).2.1, hnil, List.append_nil,
      contentNodes, if_neg hne, new] at h
    have hshort := hlib.references _ hamp
    rcases XmlNode.elementContent_eq (lib.contentNodes m.content) with hc | hc
    · rw [hc] at h
      exact hne h.symm
    · rw [hc] at h
      exact (congrArg List.length h).not_lt hshort
  · intro hamp
    exact content_reread hlib.plain (textArrives_of_leaf hleaf
      ((hblank hleaf).imp_right fun h => ⟨h, hamp⟩))

theorem forall_getAll_iff (hm : m.Valid) {P : Metadata → Prop} :
    (∀ k, ∀ c ∈ m.getAll k, P c) ↔ ∀ e ∈ m.registry.toList, P e.2 := by
  constructor
  · intro h e he
    refine h e.1 e.2 ?_
    rw [getAll_eq_values hm.wf, HashMap.values]
    exact List.mem_map_of_mem (List.mem_filter.mpr ⟨he, by simp⟩)
  · intro h k c hc
    rw [getAll_eq_values hm.wf] at hc
    obtain ⟨e, he, rfl⟩ := List.mem_map.mp hc
    exact h e (List.mem_of_mem_filter he)

theorem forall₂_map_iff {α β : Type*} {R : α → β → Prop} {f : α → β} {l : List α} :
    List.Forall₂ R l (l.map f) ↔ ∀ a ∈ l, R a (f a) := by
  rw [List.forall₂_map_right_iff, List.forall₂_same]

/-- An element is the same behind its reading if no leaf in it has an ampersand. -/
theorem sameTree_reread_iff (hlib : lib.Contents) (hm : m.Valid) (hblank : Everywhere NotBlank m)
    {c : PlainChar} : SameTree m (reread lib m c) ↔ Everywhere NoReference m := by
  induction hm with
  | mk m params wf keys children ih =>
    have hm : m.Valid := ⟨m, params, wf, keys, children⟩
    rw [everywhere_iff] at hblank
    have hchildren : (∀ k, List.Forall₂ SameTree (m.getAll k) ((reread lib m c).getAll k)) ↔
        Below NoReference m := by
      simp only [getAll_reread hm (isText_contentNodes hlib.texts _), forall₂_map_iff]
      rw [forall_getAll_iff hm]
      exact forall₂_congr fun e he => ih e he (hblank.2 e he)
    rw [sameTree_iff, hchildren, everywhere_iff]
    constructor
    · rintro ⟨-, -, hcontent, hbelow⟩
      exact ⟨fun hleaf => (content_reread_iff hlib hleaf hblank.1).mp (hcontent hleaf), hbelow⟩
    · rintro ⟨hhere, hbelow⟩
      exact ⟨name_reread lib m, getParameter_reread hm,
        fun hleaf => (content_reread_iff hlib hleaf hblank.1).mpr (hhere hleaf), hbelow⟩

theorem valued_createNode (hlib : lib.Contents) (hm : m.Valid) :
    (createNode lib m).valued = true ↔ Everywhere ValuedParams m := by
  induction hm with
  | mk m params wf keys children ih =>
    have htexts : (contentNodes lib m.content).all XmlNode.valued = true := by
      rw [List.all_eq_true, contentNodes]
      intro x hx
      split_ifs at hx
      · exact absurd hx List.not_mem_nil
      · exact XmlNode.valued_of_isText (hlib.texts _ x hx)
    rw [createNode_eq, XmlNode.valued, XmlNode.valuedAll_eq, List.all_append, htexts, Bool.true_and,
      createRegistry_eq, List.all_map, Bool.and_eq_true, List.all_eq_true, List.all_eq_true,
      everywhere_iff]
    refine and_congr ?_ (forall₂_congr fun e he => ih e he)
    exact forall₂_congr fun p _ => decide_eq_true_iff

theorem valued_createXMLDoc (hlib : lib.Contents) (hm : m.Valid) :
    (m.createXMLDoc lib).valued = true ↔ Everywhere ValuedParams m := by
  rw [createXMLDoc, XmlNode.valued, XmlNode.valuedAll_eq, createRegistry_eq, List.all_map,
    Bool.and_eq_true, List.all_eq_true, List.all_eq_true, everywhere_iff]
  refine and_congr ?_ (forall₂_congr fun e he => valued_createNode hlib (hm.children e he).2)
  exact forall₂_congr fun p _ => decide_eq_true_iff

/-- A tree comes back from its document exactly if it is restorable. -/
theorem roundTrips_iff_restorable (hlib : lib.Contents) (hm : m.Valid)
    (hblank : Everywhere NotBlank m)
    (hparse : lib.parse (m.getRawAlloc lib) = some ((m.createXMLDoc lib).format 0)) :
    RoundTrips lib m ↔ Restorable m := by
  obtain ⟨cs, hcs⟩ : ∃ cs, (m.createXMLDoc lib).format 0 = .elem m.name m.params cs := by
    rw [createXMLDoc, XmlNode.format]
    split_ifs <;> exact ⟨_, rfl⟩
  have hvalued : (XmlNode.elem m.name m.params cs).valued = true ↔ Everywhere ValuedParams m := by
    rw [← hcs, XmlNode.valued_format, valued_createXMLDoc hlib hm]
  obtain ⟨m', hinit, hback, -⟩ := initFromRaw_readBack hm hparse m.plainChar
  rw [hcs] at hparse
  rw [initFromRaw, hparse] at hinit
  have hm' : _ = m' := Option.some.inj hinit
  have hcontent : m.Leaf → m'.content = [] := by
    intro hleaf
    have hnil : createRegistry lib m.registry = [] := by
      rw [createRegistry_eq, show m.registry.toList = [] from hleaf, List.map_nil]
    have hempty : cs = [] := by
      rw [createXMLDoc, hnil, XmlNode.format, if_pos (by rfl)] at hcs
      exact (XmlNode.elem.inj hcs).2.2.symm
    rw [← hm', hempty]
    rfl
  have hsame : SameTree m m' ↔ Below NoReference m ∧ (m.Leaf → m.content = []) := by
    have hchildren : (∀ k, List.Forall₂ SameTree (m.getAll k) (m'.getAll k)) ↔
        Below NoReference m := by
      simp only [hback.elements, forall₂_map_iff]
      rw [forall_getAll_iff hm]
      exact forall₂_congr fun e he => sameTree_reread_iff hlib (hm.children e he).2
        ((everywhere_iff.mp hblank).2 e he)
    rw [sameTree_iff, hchildren]
    constructor
    · rintro ⟨-, -, hroot, hbelow⟩
      exact ⟨hbelow, fun hleaf => (hroot hleaf).symm.trans (hcontent hleaf)⟩
    · rintro ⟨hbelow, hroot⟩
      exact ⟨hback.name, hback.param, fun hleaf => (hcontent hleaf).trans (hroot hleaf).symm,
        hbelow⟩
  unfold RoundTrips
  rw [readRaw_of_parse hparse, hm']
  constructor
  · rintro ⟨m'', heq, htree⟩
    split_ifs at heq with hv
    obtain rfl := Reading.tree.inj heq
    obtain ⟨hbelow, hroot⟩ := hsame.mp htree
    exact ⟨hvalued.mp hv, hbelow, hroot⟩
  · rintro ⟨hparams, hbelow, hroot⟩
    exact ⟨m', if_pos (hvalued.mpr hparams), hsame.mpr ⟨hbelow, hroot⟩⟩

/-- Of the trees with contents in leaves exactly the restorable ones come back from their documents,
and the reader gets through exactly the documents whose attributes have values. -/
theorem roundTrips_iff (hlib : lib.Contents) (hm : m.Valid) (hblank : Everywhere NotBlank m)
    (hparse : lib.parse (m.getRawAlloc lib) = some ((m.createXMLDoc lib).format 0)) (raw : Bytes)
    (c : PlainChar) :
    (RoundTrips lib m ↔ Restorable m) ∧
      (readRaw lib raw c ≠ .fault ↔ ∀ x, lib.parse raw = some x → x.valued = true) :=
  ⟨roundTrips_iff_restorable hlib hm hblank hparse, readRaw_ne_fault_iff lib raw c⟩

theorem below_addMetadata_iff {P : Metadata → Prop} (hm : m.Valid) (c : Metadata) :
    Below P (m.addMetadata c) ↔ Everywhere P c ∧ Below P m := by
  have hperm := HashMap.toList_insert_perm hm.wf (c.name, c)
  constructor
  · exact fun h => ⟨h (c.name, c) (hperm.mem_iff.mpr List.mem_cons_self),
      fun e he => h e (hperm.mem_iff.mpr (List.mem_cons_of_mem _ he))⟩
  · rintro ⟨hc, hbelow⟩ e he
    rcases List.mem_cons.mp (hperm.mem_iff.mp he) with rfl | he
    · exact hc
    · exact hbelow e he

theorem below_of_leaf {P : Metadata → Prop} (hleaf : m.Leaf) : Below P m := by
  intro e he
  rw [show m.registry.toList = [] from hleaf] at he
  exact absurd he List.not_mem_nil

end Trees

end Metadata

namespace Sample

open Metadata

/-- References to `&` are resolved, and other ones are dropped. -/
def resolve : Bytes → Bytes
  | 38 :: 97 :: 109 :: 112 :: 59 :: s => 38 :: resolve s
  | 38 :: s => resolve s
  | b :: s => b :: resolve s
  | [] => []

/-- A library that knows one document. -/
def libOf (x : XmlNode) : LibXml where
  parse raw := if raw = lit "<Haggle/>" then some (x.format 0) else none
  dump _ := lit "<Haggle/>"
  contentNodes c := [.text (resolve c)]

theorem resolve_of_notMem {s : Bytes} (h : 38 ∉ s) : resolve s = s := by
  fun_induction resolve s with
  | case1 s ih => exact absurd List.mem_cons_self h
  | case2 s _ ih => exact absurd List.mem_cons_self h
  | case3 b s _ _ ih => rw [ih fun hs => h (List.mem_cons_of_mem b hs)]
  | case4 => rfl

theorem length_resolve_le (s : Bytes) : (resolve s).length ≤ s.length := by
  fun_induction resolve s <;> simp only [List.length_cons, List.length_nil] <;> omega

theorem length_resolve_lt {s : Bytes} (h : 38 ∈ s) : (resolve s).length < s.length := by
  fun_induction resolve s with
  | case1 s ih =>
    have hle := length_resolve_le s
    simp only [List.length_cons]
    omega
  | case2 s _ ih =>
    have hle := length_resolve_le s
    simp only [List.length_cons]
    omega
  | case3 b s _ hb ih =>
    rcases List.mem_cons.mp h with heq | hs
    · exact absurd heq.symm hb
    · simpa only [List.length_cons, Nat.add_lt_add_iff_right] using ih hs
  | case4 => exact absurd h List.not_mem_nil

theorem contents_libOf (x : XmlNode) : (libOf x).Contents where
  plain s _ h := congrArg (fun c => [XmlNode.text c]) (resolve_of_notMem h)
  references s h := by
    simpa [libOf, XmlNode.getContents, XmlNode.getContent] using length_resolve_lt h
  texts s x hx := by
    obtain rfl := List.mem_singleton.mp hx
    rfl

/-- An attribute of a data object. -/
def attrElement (name value : Bytes) : Metadata :=
  (Metadata.new (lit "Attr") value).setParameter (lit "name") name

def attrDocument (name value : Bytes) : Metadata :=
  (Metadata.new (lit "Haggle") []).addMetadata (attrElement name value)

theorem valid_attrDocument (name value : Bytes) : (attrDocument name value).Valid :=
  valid_addMetadata (valid_new _ _) (valid_setParameter (valid_new _ _) _ _)

theorem below_attrDocument (P : Metadata → Prop) (name value : Bytes) :
    Below P (attrDocument name value) ↔ P (attrElement name value) := by
  have hleaf : (attrElement name value).Leaf := leaf_new (lit "Attr") value
  have hroot : (Metadata.new (lit "Haggle") []).Leaf := leaf_new _ _
  rw [attrDocument, below_addMetadata_iff (valid_new _ _), everywhere_iff]
  exact ⟨fun h => h.1.1, fun h => ⟨⟨h, below_of_leaf hleaf⟩, below_of_leaf hroot⟩⟩

theorem restorable_attrDocument_iff (name value : Bytes) :
    Restorable (attrDocument name value) ↔ name ≠ [] ∧ 38 ∉ value := by
  have hparams : ValuedParams (attrElement name value) ↔ name ≠ [] :=
    ⟨fun h => h (lit "name", name) List.mem_cons_self,
      fun h p hp => by rwa [List.mem_singleton.mp hp]⟩
  have hleaf : (attrElement name value).Leaf := leaf_new (lit "Attr") value
  constructor
  · rintro ⟨hvalued, hbelow, -⟩
    refine ⟨hparams.mp ((below_attrDocument _ name value).mp (everywhere_iff.mp hvalued).2), ?_⟩
    exact (below_attrDocument _ name value).mp hbelow hleaf
  · rintro ⟨hname, hamp⟩
    refine ⟨everywhere_iff.mpr ⟨fun p hp => absurd hp List.not_mem_nil, ?_⟩, ?_, fun _ => rfl⟩
    · exact (below_attrDocument _ name value).mpr (hparams.mpr hname)
    · exact (below_attrDocument _ name value).mpr fun _ => hamp

theorem notBlank_attrDocument {name value : Bytes} (h : XmlNode.isBlank value = false) :
    Everywhere NotBlank (attrDocument name value) :=
  everywhere_iff.mpr ⟨fun _ => .inl rfl, (below_attrDocument _ name value).mpr fun _ => .inr h⟩

def attrNode (name value : Bytes) : XmlNode :=
  .elem (lit "Haggle") [] [.elem (lit "Attr") [(lit "name", name)] [.text (resolve value)]]

theorem parse_libOf (name : Bytes) {value : Bytes} (h : value ≠ []) :
    (libOf (attrNode name value)).parse
      ((attrDocument name value).getRawAlloc (libOf (attrNode name value))) =
    some (((attrDocument name value).createXMLDoc (libOf (attrNode name value))).format 0) := by
  have hlist : (attrDocument name value).registry.toList =
      [(lit "Attr", attrElement name value)] := by
    have hperm := HashMap.toList_insert_perm (valid_new (lit "Haggle") [] (c := .signed)).wf
      (lit "Attr", attrElement name value)
    rw [show (Metadata.new (lit "Haggle") []).registry.toList = [] from leaf_new _ _] at hperm
    exact List.perm_singleton.mp hperm
  have hnil : (attrElement name value).registry.toList = [] := leaf_new (lit "Attr") value
  have hdoc : (attrDocument name value).createXMLDoc (libOf (attrNode name value)) =
      attrNode name value := by
    rw [createXMLDoc, createRegistry_eq, hlist, List.map_singleton, createNode_eq,
      createRegistry_eq, hnil, attrElement, setParameter, Metadata.new, contentNodes, if_neg h]
    rfl
  rw [getRawAlloc, hdoc]
  simp only [libOf, if_true]

theorem roundTrips_attrDocument :
    RoundTrips (libOf (attrNode (lit "a") (lit "v"))) (attrDocument (lit "a") (lit "v")) := by
  refine (roundTrips_iff (contents_libOf _) (valid_attrDocument _ _)
    (notBlank_attrDocument (by decide)) (parse_libOf _ (by decide)) [] .signed).1.mpr ?_
  exact (restorable_attrDocument_iff _ _).mpr ⟨by decide, by decide⟩

/-- An empty parameter, and a reference in a content. -/
theorem not_roundTrips_attrDocument :
    ¬ RoundTrips (libOf (attrNode [] (lit "v"))) (attrDocument [] (lit "v")) ∧
      ¬ RoundTrips (libOf (attrNode (lit "a") (lit "a&amp;b")))
        (attrDocument (lit "a") (lit "a&amp;b")) := by
  constructor
  · rw [roundTrips_iff_restorable (contents_libOf _) (valid_attrDocument _ _)
      (notBlank_attrDocument (by decide)) (parse_libOf _ (by decide)), restorable_attrDocument_iff]
    exact fun h => h.1 rfl
  · rw [roundTrips_iff_restorable (contents_libOf _) (valid_attrDocument _ _)
      (notBlank_attrDocument (by decide)) (parse_libOf _ (by decide)), restorable_attrDocument_iff]
    exact fun h => h.2 (by decide)

end Sample
end Haggle
