import Haggle.LibObjectTree
import Haggle.MetadataAgreement

/-!
# Reading objects of the application library

`haggle_dataobject_new_from_raw` goes through the elements of a document from the first to the last
and fills the object with what it finds. Numbers are read with `atoi`, `strtoul` and `sscanf`, and
an element without content is used as a string that is `NULL`.
-/

namespace Haggle

/-! ## The tree of a document that was written -/

namespace LibMetadata

mutual

/-- The indentation is ignored. -/
theorem xmlParse_format (m : LibMetadata) (level : ℕ) :
    ∀ x : XmlNode, xmlParse m (XmlNode.format level x) = xmlParse m x
  | .elem n ps cs => by
    rw [XmlNode.format]
    split_ifs
    · rfl
    · rw [xmlParse, xmlParse, xmlParseChildren_format _ (level + 1) level cs]
  | .text _ => rfl
  | .cdata _ => rfl
  | .entityRef _ _ => rfl
  | .other => rfl

theorem xmlParseChildren_format (m : LibMetadata) (level last : ℕ) : ∀ cs : List XmlNode,
    xmlParseChildren m (XmlNode.formatChildren level cs ++ [XmlNode.indent last]) =
      xmlParseChildren m cs
  | [] => by
    simp [XmlNode.formatChildren, XmlNode.indent, xmlParseChildren, XmlNode.isBlank,
      XmlNode.isBlankByte]
  | c :: cs => by
    have hskip : ∀ l, xmlParseChildren m (XmlNode.indent level :: l) = xmlParseChildren m l := by
      intro l
      simp [XmlNode.indent, xmlParseChildren, XmlNode.isBlank, XmlNode.isBlankByte]
    have hrest := fun m => xmlParseChildren_format m level last cs
    rw [XmlNode.formatChildren, List.cons_append, List.cons_append, hskip]
    cases c with
    | elem n ps gs =>
      have hx := xmlParse_format (new n none) level (.elem n ps gs)
      rw [XmlNode.format] at hx ⊢
      split_ifs at hx ⊢
      · simp only [xmlParseChildren, hrest]
      · simp only [xmlParseChildren, hrest, hx]
    | text s => exact hrest _
    | cdata s => exact hrest _
    | entityRef _ _ => exact hrest m
    | other => exact hrest m

end

/-- What the reader makes of an element that was written. -/
def reread (lib : LibXml) (m : LibMetadata) : Option LibMetadata := xmlElement (createNode lib m)

mutual

/-- No parameter is empty, in no element of the tree. -/
def valued : LibMetadata → Bool
  | ⟨_, _, ps, cs⟩ => ps.all (fun p => p.2 ≠ []) && valuedAll cs

def valuedAll : List LibMetadata → Bool
  | [] => true
  | c :: cs => valued c && valuedAll cs

end

variable {lib : LibXml} {m m' : LibMetadata}

theorem valuedAll_eq (cs : List LibMetadata) : valuedAll cs = cs.all valued := by
  induction cs with
  | nil => rfl
  | cons c cs ih => rw [valuedAll, ih, List.all_cons]

theorem valued_iff : m.valued = true ↔
    (∀ p ∈ m.parameters, p.2 ≠ []) ∧ ∀ c ∈ m.children, c.valued = true := by
  cases m
  simp [valued, valuedAll_eq]

theorem isText_contentNodes (hlib : lib.Contents) {s : Bytes} :
    ∀ x ∈ Metadata.contentNodes lib s, x.isText = true := by
  intro x hx
  rw [Metadata.contentNodes] at hx
  split_ifs at hx
  · exact absurd hx List.not_mem_nil
  · exact hlib.texts _ x hx

theorem valuedAll_texts {xs : List XmlNode} (h : ∀ x ∈ xs, x.isText = true) :
    XmlNode.valuedAll xs = true := by
  rw [XmlNode.valuedAll_eq, List.all_eq_true]
  exact fun x hx => XmlNode.valued_of_isText (h x hx)

theorem valuedAll_append (xs ys : List XmlNode) :
    XmlNode.valuedAll (xs ++ ys) = (XmlNode.valuedAll xs && XmlNode.valuedAll ys) := by
  simp only [XmlNode.valuedAll_eq, List.all_append]

mutual

theorem valued_createNode (hlib : lib.Contents) :
    ∀ m : LibMetadata, (createNode lib m).valued = m.valued
  | ⟨n, c, ps, cs⟩ => by
    rw [createNode, XmlNode.valued, valuedAll_append, valuedAll_createNodes hlib cs,
      valuedAll_texts (isText_contentNodes hlib), Bool.true_and, valued]

theorem valuedAll_createNodes (hlib : lib.Contents) :
    ∀ cs : List LibMetadata, XmlNode.valuedAll (createNodes lib cs) = valuedAll cs
  | [] => rfl
  | c :: cs => by
    rw [createNodes, XmlNode.valuedAll, valuedAll, valued_createNode hlib c,
      valuedAll_createNodes hlib cs]

end

theorem isSome_reread (hlib : lib.Contents) (m : LibMetadata) :
    (reread lib m).isSome = m.valued := by
  rw [← valued_createNode hlib, reread, createNode_eq]
  exact isSome_xmlParse _ _

/-- The elements that were written are found again among the texts. -/
theorem elements_createNodes {xs : List XmlNode} (h : ∀ x ∈ xs, x.isText = true)
    (cs : List LibMetadata) :
    (xs ++ createNodes lib cs).filterMap xmlElement = cs.filterMap (reread lib) := by
  have hnone : xs.filterMap xmlElement = [] := by
    rw [List.filterMap_eq_nil_iff]
    intro x hx
    have htext := h x hx
    cases x <;> first | rfl | exact absurd htext Bool.false_ne_true
  rw [List.filterMap_append, hnone, List.nil_append, createNodes_eq, List.filterMap_map]
  rfl

/-- An element is found under the name that it had. -/
theorem filter_reread (cs : List LibMetadata) (k : Bytes) :
    (cs.filterMap (reread lib)).filter (fun c => c.name = k) =
      (cs.filter fun c => c.name = k).filterMap (reread lib) := by
  have hname : ∀ {c c' : LibMetadata}, reread lib c = some c' → c'.name = c.name := by
    intro c c' h
    rw [reread, createNode_eq, xmlElement] at h
    exact (xmlParse_fields h).1
  induction cs with
  | nil => rfl
  | cons c cs ih =>
    cases hc : reread lib c with
    | none =>
      rw [List.filterMap_cons_none hc, ih, List.filter_cons]
      split_ifs
      · rw [List.filterMap_cons_none hc]
      · rfl
    | some c' =>
      rw [List.filterMap_cons_some hc, List.filter_cons, List.filter_cons, hname hc, ih]
      split_ifs
      · rw [List.filterMap_cons_some hc]
      · rfl

theorem lastRun_append_createNodes (xs : List XmlNode) (cs : List LibMetadata) :
    XmlNode.lastRun (xs ++ createNodes lib cs) = XmlNode.lastRun xs := by
  have hnone : (createNodes lib cs).filterMap XmlNode.run = [] := by
    rw [createNodes_eq, List.filterMap_map, List.filterMap_eq_nil_iff]
    intro c _
    rw [Function.comp_apply, createNode_eq]
    rfl
  rw [XmlNode.lastRun, List.filterMap_append, hnone, List.append_nil, XmlNode.lastRun]

/-- An element that was written and read again. -/
structure Reread (lib : LibXml) (m m' : LibMetadata) : Prop where
  name : m'.name = m.name
  param : m.Plain → ∀ k, m'.getParameter k = m.getParameter k
  content : m'.content = XmlNode.lastRun (Metadata.contentNodes lib (m.content.getD []))
  elements : ∀ k, m'.getAll k = (m.getAll k).filterMap (reread lib)

theorem reread_fields (hlib : lib.Contents) (h : reread lib m = some m') :
    Reread lib m m' := by
  rw [reread, createNode_eq, xmlElement] at h
  obtain ⟨hname, hparams, hcontent, hchildren⟩ := xmlParse_fields h
  refine ⟨hname, fun hm k => ?_, ?_, fun k => ?_⟩
  · rw [getParameter, hparams, AssocList.get_foldl_set _ hm, AssocList.get_nil, Option.or_none,
      getParameter]
  · rw [hcontent, lastRun_append_createNodes]
  · rw [getAll, hchildren, elements_createNodes (isText_contentNodes hlib), filter_reread, getAll]

/-- A text that comes back from an element: the format ignores blank ones, and an ampersand starts a
reference. -/
def Legible (s : Bytes) : Prop := XmlNode.isBlank s = false ∧ 38 ∉ s

instance (s : Bytes) : Decidable (Legible s) := inferInstanceAs (Decidable (_ ∧ _))

theorem lastRun_contentNodes_iff (hlib : lib.Contents) (s : Bytes) :
    XmlNode.lastRun (Metadata.contentNodes lib s) = some s ↔ Legible s := by
  constructor
  · intro h
    refine ⟨XmlNode.isBlank_of_lastRun h, fun hamp => ?_⟩
    have hne : s ≠ [] := List.ne_nil_of_mem hamp
    rw [Metadata.contentNodes, if_neg hne] at h
    have hrun := XmlNode.length_le_of_run (List.mem_of_mem_filter (List.mem_of_getLast? h))
    exact absurd (hlib.references s hamp) (Nat.not_lt.mpr hrun)
  · rintro ⟨hblank, hamp⟩
    have hne := XmlNode.ne_nil_of_not_blank hblank
    rw [Metadata.contentNodes, if_neg hne, hlib.plain s hne hamp, XmlNode.lastRun]
    simp [XmlNode.run, hblank]

/-- The tree that is read of a document that was written, unless a parameter is empty. -/
theorem xmlNewFromXml_getRaw (hlib : lib.Contents) (hm : m.Plain)
    (hparse : lib.parse (m.getRaw lib) = some ((m.createDoc lib).format 0)) :
    if m.valued then
      ∃ m', xmlNewFromXml lib (m.getRaw lib) = .tree m' ∧ m'.name = m.name ∧
        (∀ k, m'.getParameter k = m.getParameter k) ∧
          m'.children = m.children.filterMap (reread lib)
    else xmlNewFromXml lib (m.getRaw lib) = .fault := by
  obtain ⟨cs, hcs⟩ : ∃ cs, (m.createDoc lib).format 0 = .elem m.name m.parameters cs := by
    rw [createDoc, XmlNode.format]
    split_ifs <;> exact ⟨_, rfl⟩
  have hsame : xmlParse (new m.name none) (.elem m.name m.parameters cs) =
      xmlParse (new m.name none) (m.createDoc lib) := by
    rw [← hcs, xmlParse_format]
  have hvalued : (xmlParse (new m.name none) (m.createDoc lib)).isSome = m.valued := by
    rw [isSome_xmlParse, createDoc, XmlNode.valued, valuedAll_createNodes hlib]
    cases m
    rw [valued]
  rw [hcs] at hparse
  split_ifs with hv
  · rw [hv] at hvalued
    obtain ⟨m', hm'⟩ := Option.isSome_iff_exists.mp hvalued
    rw [createDoc] at hm'
    obtain ⟨hname, hparams, -, hchildren⟩ := xmlParse_fields hm'
    rw [createDoc, hm'] at hsame
    refine ⟨m'.setContent (XmlNode.getContent (.elem m.name m.parameters cs)),
      by simp only [xmlNewFromXml, hparse, hsame], hname, fun k => ?_, ?_⟩
    · change AssocList.get m'.parameters k = _
      rw [hparams, AssocList.get_foldl_set _ hm, AssocList.get_nil, Option.or_none, getParameter]
    · have hnone : ∀ x ∈ ([] : List XmlNode), x.isText = true :=
        fun _ hx => absurd hx List.not_mem_nil
      exact hchildren.trans (elements_createNodes hnone m.children)
  · rw [Bool.not_eq_true] at hv
    rw [hv, Option.isSome_eq_false_iff, Option.isNone_iff_eq_none] at hvalued
    simp only [xmlNewFromXml, hparse, hsame, hvalued]

end LibMetadata

/-! ## Reading the object -/

namespace LibDataObject

/-- `atoi`: `strtol` cut to an `int`, which becomes a `size_t`. -/
def atoiSize (s : Bytes) : ℕ :=
  let v := ((Timeval.scanLong s.length s).map Prod.fst).getD 0
  (((v + 2 ^ 31) % 2 ^ 32 - 2 ^ 31) % 2 ^ 64).toNat

/-- `sscanf(_, "%ld.%ld", &tv_sec, &tv_usec)` with the variables that it is given. -/
def scanCreatetime (uninit : Timeval) (s : Bytes) : Timeval :=
  match Timeval.scanLong s.length s with
  | none => uninit
  | some (sec, rest) =>
    if rest.head? = some 46 then
      match Timeval.scanLong rest.tail.length rest.tail with
      | none => ⟨sec, uninit.usec⟩
      | some (usec, _) => ⟨sec, usec⟩
    else ⟨sec, uninit.usec⟩

/-- What is read of a file. The bytes of the hash are there without `hash_str` too. -/
structure Fields where
  datalen : ℕ
  filename : Option Bytes
  filepath : Option Bytes
  bytes : Digest
  hashStr : Bool

/-- `base64_decode` writes as many bytes as it decodes. -/
def overwrite (h : Digest) (w : Bytes) : Digest :=
  ⟨(w.take 20 ++ h.1.drop (w.take 20).length).take 20, by
    have hlen := h.2
    simp only [List.length_take, List.length_append, List.length_drop]
    omega⟩

def readHash (h : Digest × Bool) (s : Bytes) : Digest × Bool :=
  let r := Base64.decode s 20
  (overwrite h.1 r.2, r.1 || h.2)

/-- An element inside `Data`; `strlen` is called with its content. -/
def readDataChild (f : Fields) (mc : LibMetadata) : Option Fields :=
  if mc.name = lit "FilePath" then mc.content.map fun s => { f with filepath := some s }
  else if mc.name = lit "FileName" then mc.content.map fun s => { f with filename := some s }
  else if mc.name = lit "FileHash" then mc.content.map fun s =>
    let h := readHash (f.bytes, f.hashStr) s
    { f with bytes := h.1, hashStr := h.2 }
  else some f

/-- The attribute of an element; without a name or a value there is none. -/
def readAttribute (md : LibMetadata) : Option Attribute :=
  (md.getParameter (lit "name")).bind fun name => md.content.map fun value =>
    ⟨name, value, ((md.getParameter (lit "weight")).map strtoul).getD 1⟩

def readData (f : Fields) (md : LibMetadata) : Option Fields :=
  md.children.foldlM readDataChild
    { f with datalen := ((md.getParameter (lit "data_len")).map atoiSize).getD f.datalen }

/-- An element below the root. -/
def readElement (f : List Attribute × Fields) (md : LibMetadata) :
    Option (List Attribute × Fields) :=
  if md.name = lit "Data" then (readData f.2 md).map fun g => (f.1, g)
  else if md.name = lit "Attr" then some (f.1 ++ (readAttribute md).toList, f.2)
  else some f

def Fields.none : Fields :=
  ⟨0, Option.none, Option.none, .fill 0, false⟩

/-- The object has the flag from the start. -/
def readPersistent : Option Bytes → Bool
  | none => true
  | some s => !(decide (s = lit "no") || decide (s = lit "false"))

def ofFields (uninit : Timeval) (m : LibMetadata) (al : List Attribute) (f : Fields) :
    LibDataObject where
  createtime := ((m.getParameter (lit "create_time")).map (scanCreatetime uninit)).getD ⟨0, 0⟩
  al := al
  filename := f.filename
  filepath := f.filepath
  datalen := f.datalen
  hash := if f.hashStr then some f.bytes else none
  thumbnail := none
  persistent := readPersistent (m.getParameter (lit "persistent"))
  m := m

/-- `haggle_dataobject_new_from_raw`; the local variables for the create time start with the values
of `uninit`. -/
def newFromRaw (lib : LibXml) (uninit : Timeval) (raw : Bytes) : Reading LibDataObject :=
  match LibMetadata.xmlNewFromXml lib raw with
  | .fault => .fault
  | .failed => .failed
  | .tree m =>
    if m.name = lit "Haggle" then
      match m.children.foldlM readElement ([], Fields.none) with
      | none => .fault
      | some (al, f) => .tree (ofFields uninit m al f)
    else .failed

/-! ## What the elements of a name do -/

/-- The elements that are used as strings have contents. -/
def Filled (cs : List LibMetadata) : Prop :=
  ∀ c ∈ cs, c.name ∈ [lit "FilePath", lit "FileName", lit "FileHash"] → c.content ≠ none

/-- The strings of the elements of a name. -/
def strings (cs : List LibMetadata) (k : Bytes) : List Bytes :=
  (cs.filter fun c => c.name = k).filterMap LibMetadata.content

/-- The elements inside `Data` have been read: the last path and the last name are the ones that
count, and a hash is written over the one before. -/
structure ReadInside (cs : List LibMetadata) (f f' : Fields) : Prop where
  datalen : f'.datalen = f.datalen
  filepath : f'.filepath = (strings cs (lit "FilePath")).foldl (fun _ s => some s) f.filepath
  filename : f'.filename = (strings cs (lit "FileName")).foldl (fun _ s => some s) f.filename
  hash : (f'.bytes, f'.hashStr) = (strings cs (lit "FileHash")).foldl readHash (f.bytes, f.hashStr)

variable {f f' f'' : Fields} {c : LibMetadata} {cs : List LibMetadata}

theorem strings_cons (c : LibMetadata) (cs : List LibMetadata) (k : Bytes) :
    strings (c :: cs) k = strings [c] k ++ strings cs k := by
  rw [strings, strings, strings, ← List.filterMap_append, ← List.filter_append]
  rfl

theorem strings_singleton (c : LibMetadata) (k : Bytes) :
    strings [c] k = if c.name = k then c.content.toList else [] := by
  rw [strings, List.filter_cons, List.filter_nil]
  by_cases hk : c.name = k
  · rw [if_pos (decide_eq_true hk), if_pos hk]
    cases hc : c.content <;> simp [hc]
  · rw [if_neg (by simpa using hk), if_neg hk, List.filterMap_nil]

theorem ReadInside.trans (h : ReadInside [c] f f') (h' : ReadInside cs f' f'') :
    ReadInside (c :: cs) f f'' where
  datalen := h'.datalen.trans h.datalen
  filepath := by rw [h'.filepath, h.filepath, strings_cons c cs, List.foldl_append]
  filename := by rw [h'.filename, h.filename, strings_cons c cs, List.foldl_append]
  hash := by rw [h'.hash, h.hash, strings_cons c cs, List.foldl_append]

theorem readDataChild_fields (h : readDataChild f c = some f') : ReadInside [c] f f' := by
  have hpn : lit "FilePath" ≠ lit "FileName" := by decide
  have hph : lit "FilePath" ≠ lit "FileHash" := by decide
  have hnh : lit "FileName" ≠ lit "FileHash" := by decide
  unfold readDataChild at h
  split_ifs at h with hp hn hh
  · obtain ⟨s, hs, rfl⟩ := Option.map_eq_some_iff.mp h
    constructor <;> simp only [strings_singleton, hp, hs, if_true, if_neg hpn, if_neg hph] <;> rfl
  · obtain ⟨s, hs, rfl⟩ := Option.map_eq_some_iff.mp h
    constructor <;>
      simp only [strings_singleton, hn, hs, if_true, if_neg hpn.symm, if_neg hnh] <;> rfl
  · obtain ⟨s, hs, rfl⟩ := Option.map_eq_some_iff.mp h
    constructor <;>
      simp only [strings_singleton, hh, hs, if_true, if_neg hph.symm, if_neg hnh.symm] <;> rfl
  · obtain rfl := Option.some.inj h
    constructor <;> simp only [strings_singleton, if_neg hp, if_neg hn, if_neg hh] <;> rfl

theorem foldlM_readDataChild (h : cs.foldlM readDataChild f = some f') : ReadInside cs f f' := by
  induction cs generalizing f with
  | nil =>
    obtain rfl := Option.some.inj h
    exact ⟨rfl, rfl, rfl, rfl⟩
  | cons c cs ih =>
    rw [List.foldlM_cons] at h
    obtain ⟨f₁, hc, hcs⟩ := Option.bind_eq_some_iff.mp h
    exact (readDataChild_fields hc).trans (ih hcs)

theorem isSome_readDataChild (f : Fields) (c : LibMetadata) :
    (readDataChild f c).isSome = true ↔ Filled [c] := by
  unfold readDataChild Filled
  split_ifs with hp hn hh <;> simp_all [Option.isSome_iff_ne_none]

theorem isSome_foldlM_readDataChild (cs : List LibMetadata) (f : Fields) :
    (cs.foldlM readDataChild f).isSome = true ↔ Filled cs := by
  induction cs generalizing f with
  | nil => simp [Filled, pure]
  | cons c cs ih =>
    have hcons : Filled (c :: cs) ↔ Filled [c] ∧ Filled cs := by simp [Filled]
    rw [hcons, ← isSome_readDataChild f, List.foldlM_cons]
    cases hc : readDataChild f c with
    | none => simp
    | some f₁ => simpa using ih f₁

/-- Below the root only the elements of two names are read, each name by itself. -/
theorem foldlM_readElement (cs : List LibMetadata) (al : List Attribute) (f : Fields) :
    cs.foldlM readElement (al, f) =
      ((cs.filter fun c => c.name = lit "Data").foldlM readData f).map fun g =>
        (al ++ (cs.filter fun c => c.name = lit "Attr").filterMap readAttribute, g) := by
  have hne : lit "Data" ≠ lit "Attr" := by decide
  induction cs generalizing al f with
  | nil => simp [pure]
  | cons c cs ih =>
    rw [List.foldlM_cons, readElement]
    simp only [List.filter_cons, decide_eq_true_eq]
    by_cases hd : c.name = lit "Data"
    · have ha : c.name ≠ lit "Attr" := fun h => hne (hd.symm.trans h)
      rw [if_pos hd, if_pos hd, if_neg ha, List.foldlM_cons]
      cases hc : readData f c with
      | none => rfl
      | some g => exact ih al g
    · rw [if_neg hd, if_neg hd]
      by_cases ha : c.name = lit "Attr"
      · rw [if_pos ha, if_pos ha, List.filterMap_cons]
        cases hc : readAttribute c with
        | none => simpa using ih al f
        | some a => simpa [List.append_assoc] using ih (al ++ [a]) f
      · rw [if_neg ha, if_neg ha]
        exact ih al f

end LibDataObject
end Haggle
