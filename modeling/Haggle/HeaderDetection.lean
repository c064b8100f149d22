import Haggle.ObjectIdentity
import Haggle.XmlWriter

/-!
# The end of the header of a data object

The receiver finds the end of a header where the sender ended it, unless the root has nothing inside,
an element inside has the name of the root and is written with an end tag, or the name of an entity
in some content has that tag.
-/

namespace Haggle
namespace Metadata

/-- The registries are hash maps, and elements and parameters have names of XML. -/
inductive Named : Metadata → Prop
  | mk (m : Metadata) (wf : m.registry.WF) (name : IsXmlName m.name)
      (params : ∀ p ∈ m.params, IsXmlName p.1) (children : ∀ e ∈ m.registry.toList, Named e.2) :
      Named m

/-- The elements inside an element. -/
inductive Inside : Metadata → Metadata → Prop
  | child {m : Metadata} {e : Bytes × Metadata} (h : e ∈ m.registry.toList) : Inside e.2 m
  | deeper {d m : Metadata} {e : Bytes × Metadata} (h : e ∈ m.registry.toList)
      (hd : Inside d e.2) : Inside d m

/-- An element that is written with the end tag of a header: as its own, or as the name of an entity
in its content. -/
def Mistakable (lib : LibXml) (d : Metadata) : Prop :=
  isHaggle d.name = true ∧ (createNode lib d).children ≠ [] ∨
    ∃ n c, .entityRef n c ∈ contentNodes lib d.content ∧ hasEndTag n = true

section Names

variable {m c : Metadata}

theorem Named.fields (h : m.Named) : m.registry.WF ∧ IsXmlName m.name ∧
    (∀ p ∈ m.params, IsXmlName p.1) ∧ ∀ e ∈ m.registry.toList, e.2.Named := by
  cases h with
  | mk _ wf name params children => exact ⟨wf, name, params, children⟩

theorem named_new {name : Bytes} (hname : IsXmlName name) (content : Bytes) {c : PlainChar} :
    (new name content c).Named := by
  refine ⟨_, HashMap.wf_empty, hname, nofun, ?_⟩
  intro e he
  simp [new, HashMap.empty, HashMap.toList_ofTableSize] at he

theorem Named.setParameter (h : m.Named) {k : Bytes} (hk : IsXmlName k) (v : Bytes) :
    (m.setParameter k v).Named := by
  obtain ⟨wf, name, params, children⟩ := h.fields
  refine ⟨_, wf, name, fun p hp => ?_, children⟩
  rcases AssocList.mem_set hp with rfl | hp
  · exact hk
  · exact params p hp

theorem Named.setContent (h : m.Named) (c : Bytes) : (m.setContent c).Named := by
  obtain ⟨wf, name, params, children⟩ := h.fields
  exact ⟨_, wf, name, params, children⟩

theorem Named.addMetadata (h : m.Named) (hc : c.Named) : (m.addMetadata c).Named := by
  obtain ⟨wf, name, params, children⟩ := h.fields
  refine ⟨_, HashMap.wf_insert wf _, name, params, fun e he => ?_⟩
  rcases List.mem_cons.mp ((HashMap.toList_insert_perm wf _).subset he) with rfl | he
  · exact hc
  · exact children e he

theorem Named.removeMetadata (h : m.Named) (k : Bytes) : (m.removeMetadata k).Named := by
  obtain ⟨wf, name, params, children⟩ := h.fields
  exact ⟨_, HashMap.wf_erase wf k, name, params, fun e he => children e (HashMap.mem_toList_erase he)⟩

theorem Named.updateMetadata (h : m.Named) (k : Bytes) {f : Metadata → Metadata}
    (hf : ∀ c, c.Named → (f c).Named) : (m.updateMetadata k f).Named := by
  obtain ⟨wf, name, params, children⟩ := h.fields
  refine ⟨_, HashMap.wf_updateFirst wf k f, name, params, fun e he => ?_⟩
  rcases HashMap.mem_toList_updateFirst he with he | ⟨v, hv, rfl⟩
  · exact children e he
  · exact hf v (children _ hv)

theorem Named.foldl_setParameter (h : m.Named) {ps : List (Bytes × Bytes)}
    (hps : ∀ p ∈ ps, IsXmlName p.1) :
    (ps.foldl (fun m p => m.setParameter p.1 p.2) m).Named := by
  induction ps generalizing m with
  | nil => exact h
  | cons p ps ih =>
    exact ih (h.setParameter (hps p List.mem_cons_self) p.2)
      fun q hq => hps q (List.mem_cons_of_mem _ hq)

mutual

/-- What is read of a document has the names that the document has. -/
theorem named_parseXML : ∀ {x : XmlNode} {m : Metadata}, m.Named → x.Named → (parseXML m x).Named
  | .elem _ _ cs, _, h, hx => named_parseChildren cs (h.foldl_setParameter hx.2.1) hx.2.2
  | .text _, _, h, _ => h
  | .cdata _, _, h, _ => h
  | .entityRef _ _, _, h, _ => h
  | .other, _, h, _ => h

theorem named_parseChildren : ∀ (cs : List XmlNode) {m : Metadata}, m.Named →
    XmlNode.NamedAll cs → (parseChildren m cs).Named
  | [], _, h, _ => h
  | .elem _ _ _ :: cs, _, h, hcs =>
    named_parseChildren cs (h.addMetadata (named_parseXML (named_new hcs.1.1 _) hcs.1)) hcs.2
  | .text _ :: cs, _, h, hcs => named_parseChildren cs h hcs.2
  | .cdata _ :: cs, _, h, hcs => named_parseChildren cs h hcs.2
  | .entityRef _ _ :: cs, _, h, hcs => named_parseChildren cs h hcs.2
  | .other :: cs, _, h, hcs => named_parseChildren cs h hcs.2

end

theorem parseXML_rename (m : Metadata) (n : Bytes) (x : XmlNode) :
    parseXML { m with name := n } x = { parseXML m x with name := n } := by
  cases x with
  | elem k ps cs =>
    have hparams : ∀ (l : List (Bytes × Bytes)) (m : Metadata),
        l.foldl (fun m p => m.setParameter p.1 p.2) { m with name := n } =
          { l.foldl (fun m p => m.setParameter p.1 p.2) m with name := n } := by
      intro l
      induction l with
      | nil => exact fun _ => rfl
      | cons p l ih => exact fun m => ih (m.setParameter p.1 p.2)
    have hchildren : ∀ (cs : List XmlNode) (m : Metadata),
        parseChildren { m with name := n } cs = { parseChildren m cs with name := n } := by
      intro cs
      induction cs with
      | nil => exact fun _ => rfl
      | cons c cs ih =>
        intro m
        cases c with
        | elem j qs gs =>
          exact ih (m.addMetadata
            (parseXML (new j (XmlNode.elementContent gs) m.plainChar) (.elem j qs gs)))
        | _ => exact ih m
    rw [parseXML, parseXML, hparams, hchildren]
  | _ => rfl

/-- If the library reads names where there have to be names, so does `initFromRaw`. -/
theorem named_initFromRaw {lib : LibXml} {raw : Bytes}
    (hlib : ∀ x, lib.parse raw = some x → x.Named) {c : PlainChar}
    (h : initFromRaw lib raw c = some m) :
    m.Named := by
  unfold initFromRaw at h
  split at h
  · rename_i n ps cs hparse
    obtain rfl := Option.some.inj h
    have hx := hlib _ hparse
    have hread := (named_parseXML (named_new hx.1 [] (c := c)) hx).setContent
      (XmlNode.getContent (.elem n ps cs))
    have hrename := parseXML_rename (new [] [] c) n (.elem n ps cs)
    change ({ parseXML (new n [] c) (.elem n ps cs) with
      content := XmlNode.getContent (.elem n ps cs) } : Metadata).Named at hread
    rw [show new n [] c = { new [] [] c with name := n } from rfl, hrename] at hread
    exact hread
  · cases h

end Names

section Writing

variable {e : XmlEscape} {parse : Bytes → Option XmlNode} {m : Metadata}

theorem isContent_contentNodes {c : Bytes} {x : XmlNode}
    (hx : x ∈ contentNodes (e.lib parse) c) : x.IsContent := by
  unfold contentNodes at hx
  split_ifs at hx
  · cases hx
  · exact XmlNode.isContent_stringGetNodeList hx

theorem named_createRegistry {m : Metadata} (children : ∀ n ∈ m.registry.toList,
    (createNode (e.lib parse) n.2).Named) :
    XmlNode.NamedAll (createRegistry (e.lib parse) m.registry) := by
  rw [createRegistry_eq, XmlNode.namedAll_iff]
  intro x hx
  obtain ⟨n, hn, rfl⟩ := List.mem_map.mp hx
  exact children n hn

theorem named_createNode (h : m.Named) : (createNode (e.lib parse) m).Named := by
  induction h with
  | mk m _ name params _ ih =>
    rw [createNode_eq]
    refine ⟨name, params, XmlNode.namedAll_iff.mpr fun x hx => ?_⟩
    rcases List.mem_append.mp hx with hx | hx
    · rcases isContent_contentNodes hx with ⟨t, rfl⟩ | ⟨n, rfl⟩
      · trivial
      · trivial
    · exact XmlNode.namedAll_iff.mp (named_createRegistry ih) x hx

theorem tagInList_contentNodes (c : Bytes) :
    XmlNode.tagInList (contentNodes (e.lib parse) c) = true ↔
      ∃ n d, .entityRef n d ∈ contentNodes (e.lib parse) c ∧ hasEndTag n = true := by
  rw [XmlNode.tagInList_eq_any, List.any_eq_true]
  constructor
  · rintro ⟨x, hx, htag⟩
    rcases isContent_contentNodes hx with ⟨t, rfl⟩ | ⟨n, rfl⟩
    · cases htag
    · exact ⟨n, [], hx, htag⟩
  · rintro ⟨n, d, hx, htag⟩
    exact ⟨_, hx, htag⟩

/-- The end tag is written for an element or for one inside. -/
theorem tagIn_createNode (m : Metadata) : (createNode (e.lib parse) m).tagIn = true ↔
    Mistakable (e.lib parse) m ∨
      XmlNode.tagInList (createRegistry (e.lib parse) m.registry) = true := by
  rw [Mistakable, ← tagInList_contentNodes, createNode_eq, XmlNode.tagIn,
    XmlNode.tagInList_append]
  simp only [XmlNode.children, Bool.or_eq_true, Bool.and_eq_true, Bool.not_eq_true',
    List.isEmpty_eq_false_iff]
  tauto

theorem tagInList_createRegistry (h : m.Named) :
    XmlNode.tagInList (createRegistry (e.lib parse) m.registry) = true ↔
      ∃ d, Inside d m ∧ Mistakable (e.lib parse) d := by
  induction h with
  | mk m _ _ _ _ ih =>
    rw [createRegistry_eq, XmlNode.tagInList_eq_any, List.any_map, List.any_eq_true]
    constructor
    · rintro ⟨n, hn, htag⟩
      rcases (tagIn_createNode n.2).mp htag with hself | hinside
      · exact ⟨n.2, .child hn, hself⟩
      · obtain ⟨d, hd, hmis⟩ := (ih n hn).mp hinside
        exact ⟨d, .deeper hn hd, hmis⟩
    · rintro ⟨d, hd, hmis⟩
      cases hd with
      | child hn => exact ⟨_, hn, (tagIn_createNode _).mpr (.inl hmis)⟩
      | deeper hn hd =>
        exact ⟨_, hn, (tagIn_createNode _).mpr (.inr ((ih _ hn).mpr ⟨d, hd, hmis⟩))⟩

end Writing

end Metadata

namespace DataObject

variable {o : DataObject} {m dm : Metadata}

theorem named_putContent (h : m.Named) {k : Bytes} (hk : IsXmlName k) (c : Bytes) :
    (putContent k c m).Named := by
  unfold putContent
  split
  · exact h.updateMetadata k fun _ hd => hd.setContent c
  · exact h.addMetadata (Metadata.named_new hk c)

theorem named_updateData (h : m.Named) {f : Metadata → Metadata}
    (hf : ∀ c, c.Named → (f c).Named) : (updateData f m).Named := by
  unfold updateData
  split
  · exact h.updateMetadata _ hf
  · have hdata : IsXmlName (lit "Data") := by decide
    exact h.addMetadata (hf _ (Metadata.named_new hdata []))

theorem named_fileMetadata (h : dm.Named) : (o.fileMetadata dm).Named := by
  have hlen := h.setParameter (k := lit "data_len") (by decide) ((decimal o.dataLen).take 19)
  unfold fileMetadata
  split_ifs
  · exact named_putContent (named_putContent hlen (by decide) _) (by decide) _
  · exact named_putContent hlen (by decide) _

theorem named_attributeMetadata (a : Attribute) (c : PlainChar) :
    (attributeMetadata a c).Named := by
  have hnew : (Metadata.new (lit "Attr") a.value c).Named := Metadata.named_new (by decide) a.value
  have hname := hnew.setParameter (k := lit "name") (by decide) a.name
  unfold attributeMetadata
  split_ifs
  · exact hname.setParameter (by decide) _
  · exact hname

theorem named_toMetadata {m' : Metadata} (hm : o.metadata = some m) (h : m.Named)
    (hm' : o.toMetadata.metadata = some m') : m'.Named := by
  have hpersistent := h.setParameter (k := lit "persistent") (by decide)
    (lit (if o.persistent then "yes" else "no"))
  have hfile : ∀ {x : Metadata}, x.Named → (o.toMetadataFile x).Named := by
    intro x hx
    unfold toMetadataFile
    split_ifs
    · exact named_updateData hx fun _ hd => named_fileMetadata hd
    · exact hx
  have hhash : ∀ {x : Metadata}, x.Named → (o.toMetadataHash x).Named := by
    intro x hx
    unfold toMetadataHash
    split_ifs
    · exact named_updateData hx fun _ hd => named_putContent hd (by decide) _
    · exact hx
  have hsignature : ∀ {x : Metadata}, x.Named → (o.toMetadataSignature x).Named := by
    intro x hx
    unfold toMetadataSignature
    split
    · exact hx
    · split_ifs
      · exact hx
      · exact (named_putContent hx (by decide) _).updateMetadata _
          fun _ hd => hd.setParameter (by decide) _
  have hattributes : ∀ (l : List (Bytes × Attribute)) {x : Metadata}, x.Named →
      (l.foldl (fun m e => m.addMetadata (attributeMetadata e.2 m.plainChar)) x).Named := by
    intro l
    induction l with
    | nil => exact fun hx => hx
    | cons e l ih => exact fun hx => ih (hx.addMetadata (named_attributeMetadata e.2 _))
  simp only [toMetadata, hm] at hm'
  obtain rfl := Option.some.inj hm'
  exact hattributes _ ((hsignature (hhash (hfile hpersistent))).removeMetadata _)

/-- The header of an object is the document of its metadata without the last line break. -/
theorem header_eq {e : XmlEscape} {parse : Bytes → Option XmlNode} {pf : Platform}
    (hlib : pf.lib = e.lib parse) (hm : o.toMetadata.metadata = some m) :
    o.header pf = lit "<?xml version=\"1.0\"?>\n" ++
      XmlNode.write e 0 true (.elem m.name m.params (Metadata.createRegistry pf.lib m.registry)) := by
  obtain ⟨s, hs, hdump⟩ := XmlNode.dumpFormat_eq e m.name m.params
    (Metadata.createRegistry pf.lib m.registry)
  have htrim : trimHeader (s ++ [62] ++ [10]) = s ++ [62] := by
    simp [trimHeader]
  rw [header, hm, hs, ← htrim, ← hdump, hlib]
  rfl

/-- The search for the end tag finds the end of the header that is sent for an object exactly if the
root has the name that is searched for and something inside, and nothing inside is mistakable. -/
theorem detected_header_iff {e : XmlEscape} {parse : Bytes → Option XmlNode} {pf : Platform}
    (hlib : pf.lib = e.lib parse) {m₀ : Metadata} (hm₀ : o.metadata = some m₀) (hnames : m₀.Named)
    (hm : o.toMetadata.metadata = some m) :
    Detected (o.header pf) ↔ isHaggle m.name = true ∧ m.registry.toList ≠ [] ∧
      ∀ d, Metadata.Inside d m → ¬Metadata.Mistakable pf.lib d := by
  have hnamed := named_toMetadata hm₀ hnames hm
  obtain ⟨-, hname, hparams, -⟩ := hnamed.fields
  have hinside : XmlNode.NamedAll (Metadata.createRegistry pf.lib m.registry) := by
    rw [hlib]
    exact Metadata.named_createRegistry fun n hn =>
      Metadata.named_createNode (hnamed.fields.2.2.2 n hn)
  have hempty : Metadata.createRegistry pf.lib m.registry ≠ [] ↔ m.registry.toList ≠ [] := by
    rw [Metadata.createRegistry_eq, Ne, List.map_eq_nil_iff]
  have htag : XmlNode.tagInList (Metadata.createRegistry pf.lib m.registry) = false ↔
      ∀ d, Metadata.Inside d m → ¬Metadata.Mistakable pf.lib d := by
    rw [← Bool.not_eq_true, hlib, Metadata.tagInList_createRegistry hnamed]
    simp only [not_exists, not_and]
  rw [header_eq hlib hm, XmlNode.detected_write e ⟨hname, hparams, hinside⟩, hempty, htag]
  tauto

end DataObject

namespace Sample

/-- The escaping of texts of printable ASCII characters. -/
def escapeByte (b : UInt8) : Bytes :=
  if b = 60 then lit "&lt;" else if b = 62 then lit "&gt;" else if b = 38 then lit "&amp;"
  else if b = 34 then lit "&quot;" else [b]

theorem escapeByte_lt (s : Bytes) : 60 ∉ s.flatMap escapeByte := by
  intro h
  obtain ⟨b, -, hb⟩ := List.mem_flatMap.mp h
  unfold escapeByte at hb
  split_ifs at hb with h1 h2 h3 h4
  · exact absurd hb (by decide)
  · exact absurd hb (by decide)
  · exact absurd hb (by decide)
  · exact absurd hb (by decide)
  · exact h1 (List.mem_singleton.mp hb).symm

def escape : XmlEscape :=
  ⟨fun s => s.flatMap escapeByte, fun s => s.flatMap escapeByte, escapeByte_lt, escapeByte_lt⟩

def writerPlatform : Platform where
  lib := escape.lib fun _ => none
  sha1 := firstBytes
  sizeBytes n := [n.toUInt8]
  uninit := ⟨0, 0⟩

/-- An object with one attribute. -/
def objectWith (value : Bytes) : DataObject :=
  (DataObject.create writerPlatform draft).addAttribute writerPlatform ⟨lit "a", value, 1⟩

theorem detected_header_sample : ∃ m, (objectWith (lit "<v>")).toMetadata.metadata = some m ∧
    (Detected ((objectWith (lit "<v>")).header writerPlatform) ↔
      isHaggle m.name = true ∧ m.registry.toList ≠ [] ∧
        ∀ d, Metadata.Inside d m → ¬Metadata.Mistakable writerPlatform.lib d) := by
  have hnames : ((Metadata.new (lit "Haggle") []).setParameter (lit "create_time")
      (lit "7.000000")).Named := (Metadata.named_new (by decide) []).setParameter (by decide) _
  have hm₀ : (objectWith (lit "<v>")).metadata = some ((Metadata.new (lit "Haggle") []).setParameter
      (lit "create_time") (lit "7.000000")) := rfl
  exact ⟨_, rfl, DataObject.detected_header_iff (e := escape) rfl hm₀ hnames rfl⟩

/-- A value with a reference that has the name of an end tag. -/
theorem not_detected_reference :
    (objectWith (lit "&</haggle>;")).header writerPlatform =
      lit "<?xml version=\"1.0\"?>\n<Haggle create_time=\"7.000000\" persistent=\"yes\">\n" ++
        lit "  <Attr name=\"a\">&</haggle>;</Attr>\n</Haggle>" ∧
      ¬Detected ((objectWith (lit "&</haggle>;")).header writerPlatform) := by
  decide +kernel

/-- An object without attributes and data has no end tag. -/
example : (DataObject.create writerPlatform draft).header writerPlatform =
    lit "<?xml version=\"1.0\"?>\n<Haggle create_time=\"7.000000\" persistent=\"yes\"/>" := by
  decide +kernel

end Sample
end Haggle
