import Haggle.ObjectMetadata

/-!
# Reading metadata back

The retriever writes the metadata of an object as an XML document, and the receiver reads it. What
the receiver gets of an element is `reread`: its text is lost if it is blank, and the text of the
elements inside is taken for its own.
-/

namespace Haggle

/-- The retriever drops what stands behind the last `>`. -/
def trimHeader (raw : Bytes) : Bytes := (raw.reverse.dropWhile (· ≠ 62)).reverse

namespace XmlNode

mutual

/-- The names of the elements that are written with an end tag, those that are not empty. -/
def names : XmlNode → List Bytes
  | elem _ _ [] => []
  | elem n _ (c :: cs) => n :: (names c ++ namesOf cs)
  | _ => []

def namesOf : List XmlNode → List Bytes
  | [] => []
  | c :: cs => names c ++ namesOf cs

end

/-- No element inside is written with the end tag of the header. -/
def Unmistakable (cs : List XmlNode) : Prop :=
  ∀ n ∈ namesOf cs, isEndTag (lit "</" ++ n ++ lit ">") = false

instance (cs : List XmlNode) : Decidable (Unmistakable cs) :=
  inferInstanceAs (Decidable (∀ n ∈ namesOf cs, _))

end XmlNode

/-- The tree `t` goes through the libraries of two nodes as it should. A content becomes texts and
references, and one text if there is no `&` in it. A document ends with the end tag of its root if
there is anything inside, and has it nowhere else, since `<` is escaped in texts and parameters. -/
structure LibXml.Faithful (lib lib' : LibXml) (t : XmlNode) : Prop where
  text : ∀ s, s ≠ [] → 38 ∉ s → lib.contentNodes s = [.text s]
  texts : ∀ s, ∀ x ∈ lib.contentNodes s, x.isText = true
  parse : lib'.parse (trimHeader (lib.dump t)) = some (t.format 0)
  endTag : ∀ ps cs, t = .elem (lit "Haggle") ps cs → cs ≠ [] → XmlNode.Unmistakable cs →
    endsHeader (trimHeader (lib.dump t)) = true ∧
      ∀ i < (trimHeader (lib.dump t)).length, endsHeader ((trimHeader (lib.dump t)).take i) = false

/-- A text that an element can carry to another node. -/
def Readable (s : Bytes) : Prop := s = [] ∨ XmlNode.isBlank s = false ∧ 38 ∉ s

instance (s : Bytes) : Decidable (Readable s) :=
  inferInstanceAs (Decidable (s = [] ∨ XmlNode.isBlank s = false ∧ 38 ∉ s))

theorem readable_encode (s : Bytes) : Readable (Base64.encode s) := by
  have hall : (61 :: Base64.alphabet).all (fun b => !XmlNode.isBlankByte b && b != 38) = true := by
    simp only [Base64.alphabet, lit_ofList]
    decide
  have hletters : ∀ b ∈ 61 :: Base64.alphabet, XmlNode.isBlankByte b = false ∧ b ≠ 38 := by
    simpa only [List.all_eq_true, Bool.and_eq_true, Bool.not_eq_true', bne_iff_ne] using hall
  have hmem : ∀ b ∈ Base64.encode s, XmlNode.isBlankByte b = false ∧ b ≠ 38 :=
    fun b hb => hletters b (Base64.mem_alphabet_of_mem_encode hb)
  cases hs : Base64.encode s with
  | nil => exact Or.inl rfl
  | cons b l =>
    rw [hs] at hmem
    refine Or.inr ⟨?_, fun h => (hmem 38 h).2 rfl⟩
    rw [XmlNode.isBlank, List.all_cons, (hmem b List.mem_cons_self).1, Bool.false_and]

namespace Metadata

variable {lib : LibXml} {c : PlainChar}

theorem createNode_eq (lib : LibXml) (m : Metadata) : createNode lib m =
    .elem m.name m.params (contentNodes lib m.content ++ createRegistry lib m.registry) := by
  cases m
  rw [createNode]

/-- What reading makes of an element that was written. -/
def reread (lib : LibXml) (m : Metadata) (c : PlainChar := .signed) : Metadata :=
  parseXML (new m.name (XmlNode.elementContent
    (contentNodes lib m.content ++ createRegistry lib m.registry)) c) (createNode lib m)

theorem parseElement_createNode (lib : LibXml) (m : Metadata) (c : PlainChar) :
    parseElement c (createNode lib m) = some (reread lib m c) := by
  rw [reread, createNode_eq, parseElement]

theorem parseXML_fields (m : Metadata) (n : Bytes) (ps : List (Bytes × Bytes))
    (cs : List XmlNode) :
    (parseXML m (.elem n ps cs)).name = m.name ∧ (parseXML m (.elem n ps cs)).content = m.content ∧
      (parseXML m (.elem n ps cs)).params =
        (ps.foldl (fun m p => m.setParameter p.1 p.2) m).params := by
  obtain ⟨hname, hcontent, hparams⟩ :=
    parseChildren_fields cs (ps.foldl (fun m p => m.setParameter p.1 p.2) m)
  obtain ⟨hname', hcontent', -⟩ := foldl_setParameter_fields ps m
  rw [parseXML]
  exact ⟨hname.trans hname', hcontent.trans hcontent', hparams⟩

theorem getParameter_parseXML (name content n : Bytes) {ps : List (Bytes × Bytes)}
    (hps : (ps.map Prod.fst).Nodup) (cs : List XmlNode) (k : Bytes) :
    (parseXML (new name content c) (.elem n ps cs)).getParameter k = AssocList.get ps k := by
  have hget := getParameter_foldl ps hps k (new name content c)
  rw [getParameter] at hget ⊢
  rw [(parseXML_fields _ n ps cs).2.2, hget]
  simp [getParameter, new]

theorem name_reread (lib : LibXml) (m : Metadata) : (reread lib m c).name = m.name := by
  rw [reread, createNode_eq, (parseXML_fields _ _ _ _).1]
  rfl

theorem getParameter_reread {m : Metadata} (hm : m.Valid) (k : Bytes) :
    (reread lib m c).getParameter k = m.getParameter k := by
  rw [reread, createNode_eq, getParameter_parseXML _ _ _ hm.params]
  rfl

/-- A text that is readable arrives. -/
theorem elementContent_contentNodes
    (hlib : ∀ s, s ≠ [] → 38 ∉ s → lib.contentNodes s = [.text s]) {s : Bytes} (hs : Readable s) :
    XmlNode.elementContent (contentNodes lib s) = s := by
  rcases hs with rfl | ⟨hblank, hamp⟩
  · rfl
  · have hne : s ≠ [] := fun h => by simp [h, XmlNode.isBlank] at hblank
    rw [contentNodes, if_neg hne, hlib _ hne hamp, XmlNode.elementContent, hblank]
    simp [XmlNode.getContents, XmlNode.getContent]

/-- The elements inside have no text, which would be taken for that of `m`. -/
def Silent (lib : LibXml) (m : Metadata) : Prop :=
  XmlNode.getContents (createRegistry lib m.registry) = []

/-- Another node reads the text of `m` as it is. -/
def TextArrives (lib : LibXml) (m : Metadata) : Prop :=
  m.content = [] ∨ (XmlNode.isBlank m.content = false ∧ 38 ∉ m.content) ∧ Silent lib m

theorem silent_of_leaf {m : Metadata} (h : m.Leaf) : Silent lib m := by
  rw [Silent, createRegistry_eq, show m.registry.toList = [] from h]
  rfl

theorem textArrives_of_leaf {m : Metadata} (h : m.Leaf) (hread : Readable m.content) :
    TextArrives lib m := hread.imp_right fun hr => ⟨hr, silent_of_leaf h⟩

theorem content_reread (hlib : ∀ s, s ≠ [] → 38 ∉ s → lib.contentNodes s = [.text s])
    {m : Metadata} (h : TextArrives lib m) : (reread lib m c).content = m.content := by
  rw [reread, createNode_eq, (parseXML_fields _ _ _ _).2.1, contentNodes]
  change XmlNode.elementContent _ = _
  rcases h with hnil | ⟨⟨hblank, hamp⟩, hsilent⟩
  · rw [if_pos hnil, hnil, List.nil_append, createRegistry_eq]
    cases m.registry.toList with
    | nil => rfl
    | cons e l =>
      rw [List.map_cons, createNode_eq]
      rfl
  · have hne : m.content ≠ [] := fun h => by simp [h, XmlNode.isBlank] at hblank
    rw [if_neg hne, hlib _ hne hamp, List.singleton_append, XmlNode.elementContent, hblank,
      if_neg Bool.false_ne_true, XmlNode.getContents, hsilent, List.append_nil]
    rfl

theorem valid_foldl_setParameter (ps : List (Bytes × Bytes)) {m : Metadata} (hm : m.Valid) :
    (ps.foldl (fun m p => m.setParameter p.1 p.2) m).Valid := by
  induction ps generalizing m with
  | nil => exact hm
  | cons p ps ih => exact ih (valid_setParameter hm p.1 p.2)

mutual

theorem valid_parseXML {m : Metadata} (hm : m.Valid) : ∀ x : XmlNode, (parseXML m x).Valid
  | .elem _ ps cs => valid_parseChildren (valid_foldl_setParameter ps hm) cs
  | .text _ => hm
  | .cdata _ => hm
  | .entityRef _ _ => hm
  | .other => hm

theorem valid_parseChildren {m : Metadata} (hm : m.Valid) :
    ∀ cs : List XmlNode, (parseChildren m cs).Valid
  | [] => hm
  | .elem n ps gs :: cs =>
    valid_parseChildren (valid_addMetadata hm (valid_parseXML (valid_new n _) (.elem n ps gs))) cs
  | .text _ :: cs => valid_parseChildren hm cs
  | .cdata _ :: cs => valid_parseChildren hm cs
  | .entityRef _ _ :: cs => valid_parseChildren hm cs
  | .other :: cs => valid_parseChildren hm cs

end

theorem plainChar_foldl_setParameter (ps : List (Bytes × Bytes)) (m : Metadata) :
    (ps.foldl (fun m p => m.setParameter p.1 p.2) m).plainChar = m.plainChar := by
  rw [plainChar, (foldl_setParameter_fields ps m).2.2, plainChar]

theorem parseChildren_append_texts {ts : List XmlNode} (hts : ∀ x ∈ ts, x.isText = true)
    (m : Metadata) (cs : List XmlNode) : parseChildren m (ts ++ cs) = parseChildren m cs := by
  induction ts with
  | nil => rfl
  | cons t ts ih =>
    rw [List.forall_mem_cons] at hts
    cases t with
    | elem n ps gs => exact absurd hts.1 Bool.false_ne_true
    | other => exact absurd hts.1 Bool.false_ne_true
    | text c => exact ih hts.2
    | cdata c => exact ih hts.2
    | entityRef _ _ => exact ih hts.2

/-- The elements of a registry are read back in the order they have under their name, whatever text
stands before them. -/
theorem getAll_parseXML (name content n : Bytes) (ps : List (Bytes × Bytes)) {m : Metadata}
    (hm : m.Valid) {ts : List XmlNode} (hts : ∀ x ∈ ts, x.isText = true) (k : Bytes) :
    (parseXML (new name content c) (.elem n ps (ts ++ createRegistry lib m.registry))).getAll k =
      (m.getAll k).map (reread lib · c) := by
  have hreg := (foldl_setParameter_fields ps (new name content c)).2.2
  have hchar : (ps.foldl (fun m p => m.setParameter p.1 p.2) (new name content c)).plainChar = c :=
    plainChar_foldl_setParameter ps _
  obtain ⟨hwf, hval⟩ := values_parseChildren (createRegistry lib m.registry)
    (m := ps.foldl (fun m p => m.setParameter p.1 p.2) (new name content c))
    (by rw [hreg]; exact HashMap.wf_empty)
  rw [hchar] at hval
  rw [parseXML, parseChildren_append_texts hts]
  have hempty : (new name content c).registry.values k = [] := by
    rw [← getAll_eq_values (valid_new name content).wf, getAll_new]
  rw [getAll_eq_values hwf, hval k, hreg, hempty, List.nil_append, createRegistry_eq,
    getAll_eq_values hm.wf, HashMap.values, List.map_map, List.filterMap_map]
  have hread : m.registry.toList.filterMap (parseElement c ∘ fun e => createNode lib e.2) =
      m.registry.toList.map (fun e => reread lib e.2 c) := by
    rw [← List.filterMap_eq_map]
    apply List.filterMap_congr
    intro e _
    exact parseElement_createNode lib e.2 c
  rw [hread, List.filter_map]
  congr 1
  apply List.filter_congr
  intro e he
  simp only [Function.comp_apply, name_reread, (hm.children e he).1]

theorem isText_contentNodes (hlib : ∀ s, ∀ x ∈ lib.contentNodes s, x.isText = true) (s : Bytes) :
    ∀ x ∈ contentNodes lib s, x.isText = true := by
  intro x hx
  rw [contentNodes] at hx
  split_ifs at hx
  · exact absurd hx List.not_mem_nil
  · exact hlib _ x hx

theorem isText_of_nil {m : Metadata} (h : m.content = []) :
    ∀ x ∈ contentNodes lib m.content, x.isText = true := by
  rw [contentNodes, if_pos h]
  exact fun x hx => by cases hx

/-- The elements inside are read back, whatever texts stand in front of them. -/
theorem getAll_reread {m : Metadata} (hm : m.Valid)
    (ht : ∀ x ∈ contentNodes lib m.content, x.isText = true) (k : Bytes) :
    (reread lib m c).getAll k = (m.getAll k).map (reread lib · c) := by
  rw [reread, createNode_eq]
  exact getAll_parseXML _ _ _ _ hm ht k

theorem getMetadata_reread {m : Metadata} (hm : m.Valid)
    (ht : ∀ x ∈ contentNodes lib m.content, x.isText = true) (k : Bytes) :
    (reread lib m c).getMetadata k = (m.getMetadata k).map (reread lib · c) := by
  rw [getMetadata, getAll_reread hm ht, List.head?_map, getMetadata]

theorem valid_reread (lib : LibXml) (m : Metadata) : (reread lib m c).Valid :=
  valid_parseXML (valid_new _ _) _

/-- `m'` is what the receiver gets of the document of `m`. -/
structure ReadBack (lib : LibXml) (m m' : Metadata) : Prop where
  valid : m'.Valid
  name : m'.name = m.name
  param : ∀ k, m'.getParameter k = m.getParameter k
  elements : ∀ k, m'.getAll k = (m.getAll k).map (reread lib · m'.plainChar)

theorem ReadBack.getMetadata {m m' : Metadata} (h : ReadBack lib m m') (k : Bytes) :
    m'.getMetadata k = (m.getMetadata k).map (reread lib · m'.plainChar) := by
  rw [Metadata.getMetadata, h.elements, List.head?_map, Metadata.getMetadata]

theorem plainChar_parseChildren (cs : List XmlNode) (m : Metadata) :
    (parseChildren m cs).plainChar = m.plainChar := by
  induction cs generalizing m with
  | nil => rfl
  | cons x cs ih =>
    cases x with
    | elem n ps gs => exact (ih _).trans (plainChar_addMetadata m _)
    | text s => exact ih m
    | cdata s => exact ih m
    | entityRef e s => exact ih m
    | other => exact ih m

theorem initFromRaw_readBack {lib' : LibXml} {m : Metadata} (hm : m.Valid) {raw : Bytes}
    (hparse : lib'.parse raw = some ((m.createXMLDoc lib).format 0)) (c : PlainChar) :
    ∃ m', initFromRaw lib' raw c = some m' ∧ ReadBack lib m m' ∧ m'.plainChar = c := by
  obtain ⟨cs, hcs⟩ : ∃ cs, (m.createXMLDoc lib).format 0 = .elem m.name m.params cs := by
    rw [createXMLDoc, XmlNode.format]
    split_ifs <;> exact ⟨_, rfl⟩
  have hsame : parseXML (new [] [] c) (.elem m.name m.params cs) =
      parseXML (new [] [] c) (m.createXMLDoc lib) := by
    rw [← hcs, parseXML_format]
  have hchar : (parseXML (new [] [] c) (.elem m.name m.params cs)).plainChar = c := by
    rw [parseXML, plainChar_parseChildren, plainChar_foldl_setParameter]
    rfl
  have hv := valid_parseXML (valid_new [] [] (c := c)) (.elem m.name m.params cs)
  have hparam := getParameter_parseXML (c := c) [] [] m.name hm.params cs
  have hall := @getAll_parseXML lib c [] [] m.name m.params m hm []
    (fun x hx => by cases hx)
  rw [List.nil_append, ← createXMLDoc, ← hsame] at hall
  rw [hcs] at hparse
  simp only [initFromRaw, hparse]
  generalize parseXML (new [] [] c) (.elem m.name m.params cs) = x at hchar hv hparam hall ⊢
  subst hchar
  exact ⟨_, rfl, ⟨Valid.of_children hv.params hv.wf hv.children, rfl, hparam, hall⟩, rfl⟩

theorem valid_initFromRaw {raw : Bytes} {m : Metadata} (h : initFromRaw lib raw c = some m) :
    m.Valid := by
  unfold initFromRaw at h
  split at h
  · obtain rfl := Option.some.inj h
    have hv := valid_parseXML (valid_new [] [] (c := c)) (.elem ‹_› ‹_› ‹_›)
    exact Valid.of_children hv.params hv.wf hv.children
  · cases h

end Metadata
end Haggle
