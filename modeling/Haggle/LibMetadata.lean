import Haggle.ObjectWire

/-!
# Metadata of the application library

libhaggle has a metadata tree of its own, made of lists: parameters and children stay in the order
in which they were added. It writes the tree as the kernel does, and the kernel reads it into its
own.
-/

namespace Haggle

/-- `struct metadata`; a content that was never set is `none`. -/
structure LibMetadata where
  name : Bytes
  content : Option Bytes
  parameters : List (Bytes × Bytes)
  children : List LibMetadata

namespace LibMetadata

/-- `metadata_new` without a parent. -/
def new (name : Bytes) (content : Option Bytes) : LibMetadata := ⟨name, content, [], []⟩

def setParameter (m : LibMetadata) (k v : Bytes) : LibMetadata :=
  { m with parameters := AssocList.set k v m.parameters }

def getParameter (m : LibMetadata) (k : Bytes) : Option Bytes := AssocList.get m.parameters k

def setContent (m : LibMetadata) (c : Bytes) : LibMetadata := { m with content := some c }

def add (m c : LibMetadata) : LibMetadata := { m with children := m.children ++ [c] }

/-- The children of a name, in the order of `metadata_get` and `metadata_get_next`. -/
def getAll (m : LibMetadata) (k : Bytes) : List LibMetadata :=
  m.children.filter fun c => c.name = k

def get (m : LibMetadata) (k : Bytes) : Option LibMetadata := (m.getAll k).head?

/-- A change made through the pointer that `metadata_get` returns. -/
def updateFirst (k : Bytes) (f : LibMetadata → LibMetadata) : List LibMetadata → List LibMetadata
  | [] => []
  | c :: cs => if c.name = k then f c :: cs else c :: updateFirst k f cs

/-- The first child of a name is changed, or a new one is added. -/
def upsert (k : Bytes) (f : LibMetadata → LibMetadata) (m : LibMetadata) : LibMetadata :=
  match m.get k with
  | some _ => { m with children := updateFirst k f m.children }
  | none => m.add (f (new k none))

/-- Every child of the name is freed. -/
def removeAll (k : Bytes) (m : LibMetadata) : LibMetadata :=
  { m with children := m.children.filter fun c => c.name ≠ k }

mutual

/-- The node that `xmlNewChild` makes and `metadata_xml_create_xml` fills. -/
def createNode (lib : LibXml) : LibMetadata → XmlNode
  | ⟨n, c, ps, cs⟩ => .elem n ps (Metadata.contentNodes lib (c.getD []) ++ createNodes lib cs)

def createNodes (lib : LibXml) : List LibMetadata → List XmlNode
  | [] => []
  | c :: cs => createNode lib c :: createNodes lib cs

end

/-- `metadata_xml_create_doc`: the content of the root is not written. -/
def createDoc (lib : LibXml) (m : LibMetadata) : XmlNode :=
  .elem m.name m.parameters (createNodes lib m.children)

def getRaw (lib : LibXml) (m : LibMetadata) : Bytes := lib.dump (m.createDoc lib)

variable {lib : LibXml} {m : LibMetadata} {f : LibMetadata → LibMetadata}

theorem createNode_eq (lib : LibXml) (m : LibMetadata) :
    createNode lib m = .elem m.name m.parameters
      (Metadata.contentNodes lib (m.content.getD []) ++ createNodes lib m.children) := by
  cases m
  rw [createNode]

theorem createNodes_eq (lib : LibXml) (cs : List LibMetadata) :
    createNodes lib cs = cs.map (createNode lib) := by
  induction cs with
  | nil => rfl
  | cons c cs ih => rw [createNodes, ih, List.map_cons]

/-! ## Looking up what was changed -/

theorem getAll_add (m c : LibMetadata) (k : Bytes) :
    (m.add c).getAll k = m.getAll k ++ if c.name = k then [c] else [] := by
  simp only [getAll, add, List.filter_append]
  by_cases hc : c.name = k <;> simp [hc]

theorem getAll_removeAll (m : LibMetadata) (k k' : Bytes) :
    (m.removeAll k).getAll k' = if k = k' then [] else m.getAll k' := by
  simp only [getAll, removeAll, List.filter_filter]
  split
  next hk =>
    rw [List.filter_eq_nil_iff]
    simp [hk]
  next hk =>
    apply List.filter_congr
    intro c _
    by_cases hc : c.name = k'
    · simp [hc, Ne.symm hk]
    · simp [hc]

theorem filter_updateFirst_self {k : Bytes} (hf : ∀ c, (f c).name = c.name)
    (cs : List LibMetadata) : (updateFirst k f cs).filter (fun c => c.name = k) =
      (cs.filter fun c => c.name = k).modifyHead f := by
  induction cs with
  | nil => rfl
  | cons c cs ih => by_cases hc : c.name = k <;> simp [updateFirst, hc, hf, ih]

theorem filter_updateFirst_of_ne {k k' : Bytes} (hk : k ≠ k') (hf : ∀ c, (f c).name = c.name)
    (cs : List LibMetadata) :
    (updateFirst k f cs).filter (fun c => c.name = k') = cs.filter fun c => c.name = k' := by
  induction cs with
  | nil => rfl
  | cons c cs ih =>
    by_cases hc : c.name = k
    · simp [updateFirst, hc, hf, hk]
    · simp [updateFirst, hc, List.filter_cons, ih]

theorem getAll_upsert_self {k : Bytes} (hf : ∀ c, (f c).name = c.name) (m : LibMetadata) :
    (m.upsert k f).getAll k = f ((m.getAll k).headD (new k none)) :: (m.getAll k).tail := by
  unfold upsert get
  cases hall : m.getAll k with
  | nil =>
    have hname : (f (new k none)).name = k := hf _
    simp [getAll_add, hall, hname]
  | cons c cs =>
    have hmod := filter_updateFirst_self (f := f) (k := k) hf m.children
    have hall' : m.children.filter (fun c => c.name = k) = c :: cs := hall
    simp only [List.head?_cons]
    rw [getAll, hmod, hall']
    rfl

theorem getAll_upsert_of_ne {k k' : Bytes} (hk : k ≠ k') (hf : ∀ c, (f c).name = c.name)
    (m : LibMetadata) : (m.upsert k f).getAll k' = m.getAll k' := by
  unfold upsert
  split
  · exact filter_updateFirst_of_ne hk hf m.children
  · have hname : (f (new k none)).name ≠ k' := by
      rw [hf]
      exact hk
    rw [getAll_add, if_neg hname, List.append_nil]

theorem get_upsert_self {k : Bytes} (hf : ∀ c, (f c).name = c.name) (m : LibMetadata) :
    (m.upsert k f).get k = some (f ((m.get k).getD (new k none))) := by
  rw [get, getAll_upsert_self hf, List.head?_cons, get]
  cases m.getAll k <;> rfl

theorem get_upsert_of_ne {k k' : Bytes} (hk : k ≠ k') (hf : ∀ c, (f c).name = c.name)
    (m : LibMetadata) : (m.upsert k f).get k' = m.get k' := by
  rw [get, getAll_upsert_of_ne hk hf, get]

theorem parameters_upsert (k : Bytes) (f : LibMetadata → LibMetadata) (m : LibMetadata) :
    (m.upsert k f).parameters = m.parameters ∧ (m.upsert k f).name = m.name ∧
      (m.upsert k f).content = m.content := by
  unfold upsert
  split <;> exact ⟨rfl, rfl, rfl⟩

/-! ## What the kernel reads -/

/-- No parameter is there twice. -/
def Plain (m : LibMetadata) : Prop := (m.parameters.map Prod.fst).Nodup

/-- What the kernel's reader makes of an element. -/
def read (lib : LibXml) (m : LibMetadata) (c : PlainChar := .signed) : Metadata :=
  Metadata.parseXML (.new m.name (XmlNode.elementContent
    (Metadata.contentNodes lib (m.content.getD []) ++ createNodes lib m.children)) c)
    (createNode lib m)

theorem parseElement_createNode (lib : LibXml) (m : LibMetadata) (c : PlainChar) :
    Metadata.parseElement c (createNode lib m) = some (read lib m c) := by
  rw [read, createNode_eq, Metadata.parseElement]

theorem name_read (lib : LibXml) (m : LibMetadata) {c : PlainChar} :
    (read lib m c).name = m.name := by
  rw [read, createNode_eq, (Metadata.parseXML_fields _ _ _ _).1]
  rfl

theorem valid_read (lib : LibXml) (m : LibMetadata) {c : PlainChar} : (read lib m c).Valid :=
  Metadata.valid_parseXML (Metadata.valid_new _ _) _

theorem getParameter_read (hm : m.Plain) (k : Bytes) {c : PlainChar} :
    (read lib m c).getParameter k = m.getParameter k := by
  rw [read, createNode_eq, Metadata.getParameter_parseXML _ _ _ hm]
  rfl

/-- The text of an element without elements inside is read. -/
theorem content_read (hlib : ∀ s, s ≠ [] → 38 ∉ s → lib.contentNodes s = [.text s])
    (hleaf : m.children = []) (hread : Readable (m.content.getD [])) {c : PlainChar} :
    (read lib m c).content = m.content.getD [] := by
  rw [read, createNode_eq, (Metadata.parseXML_fields _ _ _ _).2.1, hleaf, createNodes_eq,
    List.map_nil, List.append_nil]
  exact Metadata.elementContent_contentNodes hlib hread

/-- The elements inside are read in the order they have under their name. -/
theorem getAll_parseXML (n : Bytes) (name content : Bytes) (ps : List (Bytes × Bytes))
    (cs : List LibMetadata) (k : Bytes) (c : PlainChar) :
    (Metadata.parseXML (.new name content c) (.elem n ps (createNodes lib cs))).getAll k =
      (cs.filter fun c => c.name = k).map (read lib · c) := by
  have hreg := (Metadata.foldl_setParameter_fields ps (.new name content c)).2.2
  have hwf : (ps.foldl (fun m p => m.setParameter p.1 p.2)
      (Metadata.new name content c)).registry.WF := by
    rw [hreg]
    exact HashMap.wf_empty
  have hchar : (ps.foldl (fun m p => m.setParameter p.1 p.2)
      (Metadata.new name content c)).plainChar = c := Metadata.plainChar_foldl_setParameter ps _
  obtain ⟨hwf', hval⟩ := Metadata.values_parseChildren (createNodes lib cs) hwf
  rw [hchar] at hval
  have hempty : (Metadata.new name content c).registry.values k = [] := by
    rw [← Metadata.getAll_eq_values (Metadata.valid_new name content).wf, Metadata.getAll_new]
  have helems : (createNodes lib cs).filterMap (Metadata.parseElement c) = cs.map (read lib · c) := by
    rw [createNodes_eq, List.filterMap_map, ← List.filterMap_eq_map]
    apply List.filterMap_congr
    intro x _
    exact parseElement_createNode lib x c
  rw [Metadata.parseXML, Metadata.getAll_eq_values hwf', hval k, hreg, hempty, List.nil_append,
    helems, List.filter_map]
  congr 1
  apply List.filter_congr
  intro c _
  simp only [Function.comp_apply, name_read]

theorem getAll_read (hc : m.content.getD [] = []) (k : Bytes) {c : PlainChar} :
    (read lib m c).getAll k = (m.getAll k).map (read lib · c) := by
  rw [read, createNode_eq, hc, Metadata.contentNodes, if_pos rfl, List.nil_append]
  exact getAll_parseXML _ _ _ _ _ k c

theorem getMetadata_read (hc : m.content.getD [] = []) (k : Bytes) {c : PlainChar} :
    (read lib m c).getMetadata k = (m.get k).map (read lib · c) := by
  rw [Metadata.getMetadata, getAll_read hc, List.head?_map, get]

/-- `m'` is what the kernel gets of the tree `m`. -/
structure IsRead (lib : LibXml) (m : LibMetadata) (m' : Metadata) : Prop where
  valid : m'.Valid
  name : m'.name = m.name
  param : ∀ k, m'.getParameter k = m.getParameter k
  elements : ∀ k, m'.getAll k = (m.getAll k).map (read lib · m'.plainChar)

theorem IsRead.getMetadata {m' : Metadata} (h : IsRead lib m m') (k : Bytes) :
    m'.getMetadata k = (m.get k).map (read lib · m'.plainChar) := by
  rw [Metadata.getMetadata, h.elements, List.head?_map, get]

theorem initFromRaw_getRaw (hm : m.Plain)
    (hparse : lib.parse (m.getRaw lib) = some ((m.createDoc lib).format 0)) (c : PlainChar) :
    ∃ m', Metadata.initFromRaw lib (m.getRaw lib) c = some m' ∧ IsRead lib m m' ∧
      m'.plainChar = c := by
  obtain ⟨cs, hcs⟩ : ∃ cs, (m.createDoc lib).format 0 = .elem m.name m.parameters cs := by
    rw [createDoc, XmlNode.format]
    split_ifs <;> exact ⟨_, rfl⟩
  have hsame : Metadata.parseXML (.new [] [] c) (.elem m.name m.parameters cs) =
      Metadata.parseXML (.new [] [] c) (m.createDoc lib) := by
    rw [← hcs, Metadata.parseXML_format]
  have hchar : (Metadata.parseXML (.new [] [] c) (.elem m.name m.parameters cs)).plainChar = c := by
    rw [Metadata.parseXML, Metadata.plainChar_parseChildren, Metadata.plainChar_foldl_setParameter]
    rfl
  have hv := Metadata.valid_parseXML (Metadata.valid_new [] [] (c := c))
    (.elem m.name m.parameters cs)
  have hparam := Metadata.getParameter_parseXML (c := c) [] [] m.name hm cs
  have hall := fun k => @getAll_parseXML lib m.name [] [] m.parameters m.children k c
  rw [← createDoc, ← hsame] at hall
  rw [hcs] at hparse
  simp only [Metadata.initFromRaw, hparse]
  generalize Metadata.parseXML (.new [] [] c) (.elem m.name m.parameters cs) = x
    at hchar hv hparam hall ⊢
  subst hchar
  exact ⟨_, rfl, ⟨Metadata.Valid.of_children hv.params hv.wf hv.children, rfl, hparam, hall⟩, rfl⟩

end LibMetadata
end Haggle
