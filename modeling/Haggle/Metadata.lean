import Haggle.AssocList
import Haggle.Attribute

/-!
# Metadata and its XML form

`Metadata` is a tree of named elements with parameters, kept in hash maps. `XMLMetadata` turns it
into an XML tree and back; the XML library itself is a parameter, `LibXml`. Writing a document
indents it, which adds blank text nodes that the reader has to ignore.
-/

namespace Haggle

/-- A node of a document; a reference to an entity has its name and what it stands for. -/
inductive XmlNode where
  | elem (name : Bytes) (props : List (Bytes × Bytes)) (children : List XmlNode)
  | text (content : Bytes)
  | cdata (content : Bytes)
  | entityRef (name content : Bytes)
  | other

/-- The part of libxml2 in use: `xmlReadMemory`, `xmlDocDumpFormatMemory`, and the content nodes
that `xmlNewChild` makes of a string, in which it resolves entity references. -/
structure LibXml where
  parse : Bytes → Option XmlNode
  dump : XmlNode → Bytes
  contentNodes : Bytes → List XmlNode

namespace XmlNode

def children : XmlNode → List XmlNode
  | elem _ _ cs => cs
  | _ => []

mutual

/-- `xmlNodeGetContent`. -/
def getContent : XmlNode → Bytes
  | elem _ _ cs => getContents cs
  | text c => c
  | cdata c => c
  | entityRef _ c => c
  | other => []

def getContents : List XmlNode → Bytes
  | [] => []
  | c :: cs => getContent c ++ getContents cs

end

def isBlankByte (b : UInt8) : Bool := b = 32 || b = 9 || b = 10 || b = 13

/-- `xmlIsBlankNode` on a text node. -/
def isBlank (s : Bytes) : Bool := s.all isBlankByte

def isText : XmlNode → Bool
  | text _ => true
  | cdata _ => true
  | entityRef _ _ => true
  | _ => false

/-- A line break and the indentation of a nesting level. -/
def indent (level : ℕ) : XmlNode := text (10 :: List.replicate (2 * level) 32)

mutual

/-- The tree a reader gets from a tree that was written with `format` set: an element without text
children has its children on lines of their own. -/
def format (level : ℕ) : XmlNode → XmlNode
  | elem n ps cs =>
    if cs.any isText || cs.isEmpty then elem n ps cs
    else elem n ps (formatChildren (level + 1) cs ++ [indent level])
  | x => x

def formatChildren (level : ℕ) : List XmlNode → List XmlNode
  | [] => []
  | c :: cs => indent level :: format level c :: formatChildren level cs

end

/-- The content that `parseXML` gives to the metadata of an element. -/
def elementContent : List XmlNode → Bytes
  | text c :: cs => if isBlank c then [] else getContents (text c :: cs)
  | _ => []

end XmlNode

structure Metadata where
  name : Bytes
  content : Bytes
  params : List (Bytes × Bytes)
  registry : HashMap Bytes Metadata

namespace Metadata

def new (name content : Bytes) (c : PlainChar := .signed) : Metadata :=
  ⟨name, content, [], HashMap.empty c⟩

/-- The sign of `char` on the node that the metadata is on. -/
def plainChar (m : Metadata) : PlainChar := m.registry.plainChar

def setParameter (m : Metadata) (k v : Bytes) : Metadata :=
  { m with params := AssocList.set k v m.params }

def getParameter (m : Metadata) (k : Bytes) : Option Bytes := AssocList.get m.params k

def setContent (m : Metadata) (c : Bytes) : Metadata := { m with content := c }

/-- All metadata of a name, in the order of `getMetadata` and `getNextMetadata`. -/
def getAll (m : Metadata) (k : Bytes) : List Metadata := (m.registry.equalRange k).map Prod.snd

def getMetadata (m : Metadata) (k : Bytes) : Option Metadata := (m.getAll k).head?

def addMetadata (m c : Metadata) : Metadata :=
  { m with registry := m.registry.insert (c.name, c) }

def removeMetadata (m : Metadata) (k : Bytes) : Metadata :=
  { m with registry := m.registry.erase k }

/-- A change made through the pointer that `getMetadata` returns. -/
def updateMetadata (m : Metadata) (k : Bytes) (f : Metadata → Metadata) : Metadata :=
  { m with registry := m.registry.updateFirst k f }

mutual

def parseXML (m : Metadata) : XmlNode → Metadata
  | .elem _ ps cs => parseChildren (ps.foldl (fun m p => m.setParameter p.1 p.2) m) cs
  | _ => m

def parseChildren (m : Metadata) : List XmlNode → Metadata
  | [] => m
  | .elem n ps gs :: cs =>
    parseChildren
      (m.addMetadata (parseXML (new n (XmlNode.elementContent gs) m.plainChar) (.elem n ps gs))) cs
  | _ :: cs => parseChildren m cs

end

/-- `initFromRaw`: the name and the content of the root are set after its children are parsed. -/
def initFromRaw (lib : LibXml) (raw : Bytes) (c : PlainChar := .signed) : Option Metadata :=
  match lib.parse raw with
  | some (.elem n ps cs) =>
    some { parseXML (new [] [] c) (.elem n ps cs) with
      name := n, content := XmlNode.getContent (.elem n ps cs) }
  | _ => none

def contentNodes (lib : LibXml) (c : Bytes) : List XmlNode :=
  if c = [] then [] else lib.contentNodes c

mutual

/-- The node of a child, made by `xmlNewChild` and filled by `createXML`. -/
def createNode (lib : LibXml) : Metadata → XmlNode
  | ⟨n, c, ps, r⟩ => .elem n ps (contentNodes lib c ++ createRegistry lib r)

def createRegistry (lib : LibXml) : HashMap Bytes Metadata → List XmlNode
  | ⟨_, t, _⟩ => createTable lib t

def createTable (lib : LibXml) : List (List (Bytes × Metadata)) → List XmlNode
  | [] => []
  | b :: t => createBucket lib b ++ createTable lib t

def createBucket (lib : LibXml) : List (Bytes × Metadata) → List XmlNode
  | [] => []
  | e :: b => createEntry lib e :: createBucket lib b

def createEntry (lib : LibXml) : Bytes × Metadata → XmlNode
  | (_, m) => createNode lib m

end

/-- `createXMLDoc`: the content of the root is not written. -/
def createXMLDoc (lib : LibXml) (m : Metadata) : XmlNode :=
  .elem m.name m.params (createRegistry lib m.registry)

def getRawAlloc (lib : LibXml) (m : Metadata) : Bytes := lib.dump (m.createXMLDoc lib)

theorem createRegistry_eq (lib : LibXml) (r : HashMap Bytes Metadata) :
    createRegistry lib r = r.toList.map (fun e => createNode lib e.2) := by
  have hbucket : ∀ b, createBucket lib b = b.map (fun e => createNode lib e.2) := by
    intro b
    induction b with
    | nil => rfl
    | cons e b ih => rw [createBucket, ih, List.map_cons, createEntry]
  have htable : ∀ t, createTable lib t = t.flatten.map (fun e => createNode lib e.2) := by
    intro t
    induction t with
    | nil => rfl
    | cons b t ih => rw [createTable, ih, hbucket, List.flatten_cons, List.map_append]
  cases r with
  | mk size table c => rw [createRegistry, htable, HashMap.toList]

@[simp] theorem getParameter_setParameter_self (m : Metadata) (k v : Bytes) :
    (m.setParameter k v).getParameter k = some v := AssocList.get_set_self k v m.params

theorem getParameter_setParameter_of_ne {k k' : Bytes} (m : Metadata) (hk : k ≠ k') (v : Bytes) :
    (m.setParameter k v).getParameter k' = m.getParameter k' :=
  AssocList.get_set_of_ne hk v m.params

theorem params_foldl (ps : List (Bytes × Bytes)) (m : Metadata) :
    (ps.foldl (fun m p => m.setParameter p.1 p.2) m).params =
      ps.foldl (fun l p => AssocList.set p.1 p.2 l) m.params := by
  induction ps generalizing m with
  | nil => rfl
  | cons p ps ih => exact ih _

theorem getParameter_foldl (ps : List (Bytes × Bytes)) (hps : (ps.map Prod.fst).Nodup) (k : Bytes)
    (m : Metadata) : (ps.foldl (fun m p => m.setParameter p.1 p.2) m).getParameter k =
      (AssocList.get ps k).or (m.getParameter k) := by
  rw [getParameter, params_foldl, AssocList.get_foldl_set ps hps]
  rfl

section Registry

/-- The registries are hash maps keyed by the names of their values, and no parameter is there
twice. -/
inductive Valid : Metadata → Prop
  | mk (m : Metadata) (params : (m.params.map Prod.fst).Nodup) (wf : m.registry.WF)
      (keys : ∀ e ∈ m.registry.toList, e.1 = e.2.name)
      (children : ∀ e ∈ m.registry.toList, Valid e.2) : Valid m

theorem Valid.wf {m : Metadata} (hm : m.Valid) : m.registry.WF := by
  cases hm with | mk _ _ h _ _ => exact h

theorem Valid.params {m : Metadata} (hm : m.Valid) : (m.params.map Prod.fst).Nodup := by
  cases hm with | mk _ h _ _ _ => exact h

theorem Valid.children {m : Metadata} (hm : m.Valid) :
    ∀ e ∈ m.registry.toList, e.1 = e.2.name ∧ e.2.Valid := by
  cases hm with | mk _ _ _ hk hv => exact fun e he => ⟨hk e he, hv e he⟩

theorem Valid.of_children {m : Metadata} (params : (m.params.map Prod.fst).Nodup)
    (wf : m.registry.WF) (h : ∀ e ∈ m.registry.toList, e.1 = e.2.name ∧ e.2.Valid) : m.Valid :=
  ⟨m, params, wf, fun e he => (h e he).1, fun e he => (h e he).2⟩

theorem getAll_eq_values {m : Metadata} (hm : m.registry.WF) (k : Bytes) :
    m.getAll k = m.registry.values k := HashMap.equalRange_values hm k

theorem Valid.of_mem_values {m c : Metadata} (hm : m.Valid) {k : Bytes}
    (hc : c ∈ m.registry.values k) : c.name = k ∧ c.Valid := by
  obtain ⟨e, he, rfl⟩ := List.mem_map.mp hc
  obtain ⟨hmem, hk⟩ := List.mem_filter.mp he
  obtain ⟨hname, hv⟩ := hm.children e hmem
  exact ⟨by rw [← hname]; simpa using hk, hv⟩

theorem valid_new (name content : Bytes) {c : PlainChar} : (new name content c).Valid := by
  refine Valid.of_children List.nodup_nil HashMap.wf_empty ?_
  intro e he
  simp [new, HashMap.empty, HashMap.toList_ofTableSize] at he

theorem valid_setParameter {m : Metadata} (hm : m.Valid) (k v : Bytes) :
    (m.setParameter k v).Valid :=
  Valid.of_children (AssocList.nodup_set k v hm.params) hm.wf hm.children

theorem valid_setContent {m : Metadata} (hm : m.Valid) (c : Bytes) : (m.setContent c).Valid :=
  Valid.of_children hm.params hm.wf hm.children

theorem valid_addMetadata {m c : Metadata} (hm : m.Valid) (hc : c.Valid) :
    (m.addMetadata c).Valid := by
  refine Valid.of_children hm.params (HashMap.wf_insert hm.wf _) ?_
  intro e he
  rcases List.mem_cons.mp ((HashMap.toList_insert_perm hm.wf _).subset he) with rfl | he
  · exact ⟨rfl, hc⟩
  · exact hm.children e he

theorem valid_removeMetadata {m : Metadata} (hm : m.Valid) (k : Bytes) :
    (m.removeMetadata k).Valid :=
  Valid.of_children hm.params (HashMap.wf_erase hm.wf k)
    (fun e he => hm.children e (HashMap.mem_toList_erase he))

theorem valid_updateMetadata_of_name {m : Metadata} (hm : m.Valid) {k : Bytes}
    {f : Metadata → Metadata} (hf : ∀ c, c.Valid → c.name = k → (f c).Valid ∧ (f c).name = k) :
    (m.updateMetadata k f).Valid := by
  refine Valid.of_children hm.params (HashMap.wf_updateFirst hm.wf k f) ?_
  intro e he
  rcases HashMap.mem_toList_updateFirst he with he | ⟨v, hv, rfl⟩
  · exact hm.children e he
  · obtain ⟨hname, hvv⟩ := hm.children _ hv
    obtain ⟨hvalid, hk⟩ := hf v hvv hname.symm
    exact ⟨hk.symm, hvalid⟩

theorem valid_updateMetadata {m : Metadata} (hm : m.Valid) (k : Bytes) {f : Metadata → Metadata}
    (hf : ∀ c, c.Valid → (f c).Valid ∧ (f c).name = c.name) : (m.updateMetadata k f).Valid :=
  valid_updateMetadata_of_name hm fun c hc hname => ⟨(hf c hc).1, (hf c hc).2.trans hname⟩

theorem getAll_addMetadata {m : Metadata} (hm : m.Valid) (c : Metadata) (k : Bytes) :
    (m.addMetadata c).getAll k = m.getAll k ++ if c.name = k then [c] else [] := by
  rw [getAll_eq_values hm.wf, getAll_eq_values (HashMap.wf_insert hm.wf _)]
  exact HashMap.values_insert hm.wf _ k

theorem getAll_removeMetadata {m : Metadata} (hm : m.Valid) (k k' : Bytes) :
    (m.removeMetadata k).getAll k' = if k = k' then [] else m.getAll k' := by
  rw [getAll_eq_values hm.wf, getAll_eq_values (HashMap.wf_erase hm.wf k)]
  exact HashMap.values_erase hm.wf k k'

theorem getAll_updateMetadata {m : Metadata} (hm : m.Valid) (k k' : Bytes)
    (f : Metadata → Metadata) :
    (m.updateMetadata k f).getAll k' =
      if k = k' then (m.getAll k').modifyHead f else m.getAll k' := by
  rw [getAll_eq_values hm.wf, getAll_eq_values (HashMap.wf_updateFirst hm.wf k f)]
  exact HashMap.values_updateFirst hm.wf k k' f

end Registry

section Reading

/-- What reading an element adds to the registry of its parent. -/
def parseElement (c : PlainChar) : XmlNode → Option Metadata
  | .elem n ps gs => some (parseXML (new n (XmlNode.elementContent gs) c) (.elem n ps gs))
  | _ => none

theorem plainChar_addMetadata (m c : Metadata) : (m.addMetadata c).plainChar = m.plainChar :=
  HashMap.plainChar_insert m.registry _

theorem foldl_setParameter_fields (ps : List (Bytes × Bytes)) (m : Metadata) :
    (ps.foldl (fun m p => m.setParameter p.1 p.2) m).name = m.name ∧
      (ps.foldl (fun m p => m.setParameter p.1 p.2) m).content = m.content ∧
      (ps.foldl (fun m p => m.setParameter p.1 p.2) m).registry = m.registry := by
  induction ps generalizing m with
  | nil => exact ⟨rfl, rfl, rfl⟩
  | cons p ps ih => exact ih _

theorem parseChildren_fields (cs : List XmlNode) (m : Metadata) :
    (parseChildren m cs).name = m.name ∧ (parseChildren m cs).content = m.content ∧
      (parseChildren m cs).params = m.params := by
  induction cs generalizing m with
  | nil => exact ⟨rfl, rfl, rfl⟩
  | cons c cs ih => cases c <;> exact ih _

/-- Reading the children appends each element to the metadata of its name. -/
theorem values_parseChildren (cs : List XmlNode) {m : Metadata} (hm : m.registry.WF) :
    (parseChildren m cs).registry.WF ∧ ∀ k, (parseChildren m cs).registry.values k =
      m.registry.values k ++
        (cs.filterMap (parseElement m.plainChar)).filter (fun c => c.name = k) := by
  induction cs generalizing m with
  | nil => exact ⟨hm, by simp [parseChildren]⟩
  | cons c cs ih =>
    cases c with
    | elem n ps gs =>
      have hc : parseElement m.plainChar (.elem n ps gs) =
          some (parseXML (new n (XmlNode.elementContent gs) m.plainChar) (.elem n ps gs)) := rfl
      obtain ⟨hwf, hval⟩ := ih (m := m.addMetadata
        (parseXML (new n (XmlNode.elementContent gs) m.plainChar) (.elem n ps gs)))
        (HashMap.wf_insert hm _)
      refine ⟨hwf, fun k => ?_⟩
      rw [parseChildren, hval k, plainChar_addMetadata, addMetadata, HashMap.values_insert hm,
        List.append_assoc, List.filterMap_cons_some hc, List.filter_cons]
      split_ifs <;> simp_all
    | text c =>
      have hc : parseElement m.plainChar (.text c) = none := rfl
      simpa only [parseChildren, List.filterMap_cons_none hc] using ih hm
    | cdata c =>
      have hc : parseElement m.plainChar (.cdata c) = none := rfl
      simpa only [parseChildren, List.filterMap_cons_none hc] using ih hm
    | entityRef e c =>
      have hc : parseElement m.plainChar (.entityRef e c) = none := rfl
      simpa only [parseChildren, List.filterMap_cons_none hc] using ih hm
    | other =>
      have hc : parseElement m.plainChar .other = none := rfl
      simpa only [parseChildren, List.filterMap_cons_none hc] using ih hm

theorem elementContent_format (level : ℕ) (n : Bytes) (ps : List (Bytes × Bytes))
    (cs : List XmlNode) :
    XmlNode.elementContent (XmlNode.format level (.elem n ps cs)).children =
      XmlNode.elementContent cs := by
  rw [XmlNode.format]
  split_ifs with h
  · rfl
  · simp only [Bool.or_eq_true, List.any_eq_true, List.isEmpty_iff, not_or, not_exists] at h
    cases cs with
    | nil => exact absurd rfl h.2
    | cons c cs =>
      have hblank : XmlNode.isBlank (10 :: List.replicate (2 * (level + 1)) 32) = true := by
        simp [XmlNode.isBlank, XmlNode.isBlankByte]
      have hc := h.1 c
      cases c <;>
        simp_all [XmlNode.children, XmlNode.formatChildren, XmlNode.indent, XmlNode.elementContent,
          XmlNode.isText]

mutual

/-- Indentation changes nothing for the reader. -/
theorem parseXML_format (m : Metadata) (level : ℕ) :
    ∀ x : XmlNode, parseXML m (XmlNode.format level x) = parseXML m x
  | .elem n ps cs => by
    rw [XmlNode.format]
    split_ifs
    · rfl
    · rw [parseXML, parseXML, parseChildren_format _ (level + 1) level cs]
  | .text _ => rfl
  | .cdata _ => rfl
  | .entityRef _ _ => rfl
  | .other => rfl

theorem parseChildren_format (m : Metadata) (level last : ℕ) :
    ∀ cs : List XmlNode, parseChildren m (XmlNode.formatChildren level cs ++
      [XmlNode.indent last]) = parseChildren m cs
  | [] => rfl
  | c :: cs => by
    have hc : ∀ m : Metadata, parseElement m.plainChar (XmlNode.format level c) =
        parseElement m.plainChar c ∧ parseXML m (XmlNode.format level c) = parseXML m c := by
      intro m
      refine ⟨?_, parseXML_format m level c⟩
      cases c with
      | elem n ps gs =>
        have hx := parseXML_format (new n (XmlNode.elementContent gs) m.plainChar) level
          (.elem n ps gs)
        have hcont := elementContent_format level n ps gs
        rw [XmlNode.format] at hx hcont ⊢
        split_ifs at hx hcont ⊢
        · rfl
        · rw [XmlNode.children] at hcont
          rw [parseElement, parseElement, hcont, hx]
      | _ => rfl
    have hskip : ∀ l, parseChildren m (XmlNode.indent level :: l) = parseChildren m l :=
      fun l => rfl
    rw [XmlNode.formatChildren, List.cons_append, List.cons_append, hskip]
    cases c with
    | elem n ps gs =>
      have he := (hc m).1
      rw [XmlNode.format] at he ⊢
      split_ifs at he ⊢
      · rw [parseChildren, parseChildren, parseChildren_format _ level last cs]
      · simp only [parseElement, Option.some.injEq] at he
        rw [parseChildren, he, parseChildren, parseChildren_format _ level last cs]
    | text _ => exact parseChildren_format m level last cs
    | cdata _ => exact parseChildren_format m level last cs
    | entityRef _ _ => exact parseChildren_format m level last cs
    | other => exact parseChildren_format m level last cs

end

end Reading

end Metadata
end Haggle
