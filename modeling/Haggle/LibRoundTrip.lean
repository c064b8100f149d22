import Haggle.LibNumbers
import Haggle.LibRewriting

/-!
# Objects that are written and read again by the library

An object comes back from its document unless a number does not fit where it is printed or read, a
string is one that the format does not carry, or something is left out because it is zero.
-/

namespace Haggle
namespace LibDataObject

/-! ## What is read -/

section Reading

variable {lib : LibXml} {d : LibDataObject} {m dm dm' : LibMetadata} {k : Bytes}

/-- The content that a text becomes. -/
def arrived (lib : LibXml) (s : Bytes) : Option Bytes :=
  XmlNode.lastRun (Metadata.contentNodes lib s)

theorem arrived_iff (hlib : lib.Contents) (s : Bytes) :
    arrived lib s = some s ↔ LibMetadata.Legible s :=
  LibMetadata.lastRun_contentNodes_iff hlib s

/-- A list is left as it is by a partial map that leaves all its members. -/
theorem filterMap_eq_self_iff {α : Type*} {f : α → Option α} {l : List α} :
    l.filterMap f = l ↔ ∀ a ∈ l, f a = some a := by
  induction l with
  | nil => simp
  | cons a l ih =>
    rw [List.forall_mem_cons, ← ih]
    cases hf : f a with
    | none =>
      rw [List.filterMap_cons_none hf]
      have hlen := List.length_filterMap_le f l
      constructor
      · intro h
        rw [h, List.length_cons] at hlen
        omega
      · exact fun h => by cases h.1
    | some b =>
      rw [List.filterMap_cons_some hf, List.cons.injEq, Option.some.injEq]

theorem parameters_attributeMetadata (a : Attribute) : (attributeMetadata a).Plain ∧
    (attributeMetadata a).getParameter (lit "name") = some a.name ∧
      (attributeMetadata a).getParameter (lit "weight") =
        (if a.weight ≠ 0 then some (decimal a.weight) else none) ∧
      (attributeMetadata a).content = some a.value ∧ (attributeMetadata a).children = [] := by
  have hne : lit "weight" ≠ lit "name" := by decide
  have hplain := AssocList.nodup_set (lit "name") a.name (l := []) List.nodup_nil
  by_cases hw : a.weight ≠ 0
  · simp only [attributeMetadata, if_pos hw]
    refine ⟨AssocList.nodup_set _ _ hplain, ?_, AssocList.get_set_self _ _ _, rfl, rfl⟩
    exact (AssocList.get_set_of_ne hne _ _).trans (AssocList.get_set_self _ _ _)
  · simp only [attributeMetadata, if_neg hw]
    refine ⟨hplain, AssocList.get_set_self _ _ _, ?_, rfl, rfl⟩
    exact AssocList.get_set_of_ne hne.symm _ _

theorem valued_attributeMetadata (a : Attribute) :
    (attributeMetadata a).valued = true ↔ a.name ≠ [] := by
  obtain ⟨-, hname, -, -, hchildren⟩ := parameters_attributeMetadata a
  have hchild : ∀ c ∈ (attributeMetadata a).children, c.valued = true := by simp [hchildren]
  rw [LibMetadata.valued_iff, and_iff_left hchild]
  constructor
  · exact fun h => h _ (AssocList.mem_of_get hname)
  · intro h p hp
    have hfirst : ∀ p ∈ AssocList.set (lit "name") a.name [], p.2 ≠ [] := by
      intro p hp
      rw [List.mem_singleton.mp hp]
      exact h
    unfold attributeMetadata at hp
    simp only at hp
    split_ifs at hp
    · rcases AssocList.mem_set hp with rfl | hp
      · exact decimal_ne_nil _
      · exact hfirst p hp
    · exact hfirst p hp

/-- An attribute comes back if its value does and its weight is not zero. -/
theorem readAttribute_iff (hlib : lib.Contents) {a : Attribute} (hname : a.name ≠ [])
    (hweight : a.weight ≠ 0 → (decimal a.weight).length < 8) :
    (LibMetadata.reread lib (attributeMetadata a)).bind readAttribute = some a ↔
      LibMetadata.Legible a.value ∧ a.weight ≠ 0 := by
  obtain ⟨hplain, hparam, hwparam, hcontent, -⟩ := parameters_attributeMetadata a
  have hsome := LibMetadata.isSome_reread hlib (attributeMetadata a)
  rw [(valued_attributeMetadata a).mpr hname] at hsome
  obtain ⟨c, hc⟩ := Option.isSome_iff_exists.mp hsome
  have hr := LibMetadata.reread_fields hlib hc
  have hread : readAttribute c = (arrived lib a.value).map fun value =>
      (⟨a.name, value, if a.weight ≠ 0 then a.weight else 1⟩ : Attribute) := by
    have hback : a.weight ≠ 0 → strtoul (decimal a.weight) = a.weight := by
      intro hw
      have hlen := hweight hw
      rw [length_decimal hw, Nat.lt_succ_iff, Nat.digits_length_le_iff (by norm_num)] at hlen
      exact strtoul_decimal (by rw [ulongMax]; omega)
    have hweightRead : ((c.getParameter (lit "weight")).map strtoul).getD 1 =
        if a.weight ≠ 0 then a.weight else 1 := by
      rw [hr.param hplain, hwparam]
      split_ifs with hw
      · rw [Option.map_some, Option.getD_some, hback hw]
      · rfl
    rw [readAttribute, hr.param hplain, hparam, Option.bind_some, hr.content, hcontent,
      Option.getD_some, hweightRead, arrived]
  rw [hc, Option.bind_some, hread, Option.map_eq_some_iff]
  constructor
  · rintro ⟨v, hv, heq⟩
    have hval : v = a.value := congrArg Attribute.value heq
    have hw : (if a.weight ≠ 0 then a.weight else 1) = a.weight := congrArg Attribute.weight heq
    refine ⟨(arrived_iff hlib _).mp (hval ▸ hv), fun h0 => ?_⟩
    rw [if_neg (by simpa using h0), h0] at hw
    omega
  · rintro ⟨hlegible, hw⟩
    refine ⟨a.value, (arrived_iff hlib _).mpr hlegible, ?_⟩
    rw [if_pos hw]

/-- The attributes come back in their order if each of them comes back. -/
theorem readAttributes_iff (hlib : lib.Contents) (hname : ∀ a ∈ d.al, a.name ≠ [])
    (hfits : d.Fits) :
    (((d.al.map attributeMetadata).filterMap (LibMetadata.reread lib)).filterMap readAttribute =
      d.al ↔ ∀ a ∈ d.al, LibMetadata.Legible a.value ∧ a.weight ≠ 0) := by
  rw [List.filterMap_filterMap, List.filterMap_map, filterMap_eq_self_iff]
  exact forall₂_congr fun a ha => readAttribute_iff hlib (hname a ha) (hfits.2 a ha)

/-- What is read of the one element of a name. -/
theorem contents_reread (hlib : lib.Contents) (hdm : SingleData dm)
    (hr : LibMetadata.Reread lib dm dm') (k : Bytes) :
    (dm'.getAll k).map LibMetadata.content = ((textOf dm k).map (arrived lib)).toList := by
  have hlen := hdm.2 k
  rw [hr.elements, textOf, LibMetadata.get]
  cases hall : dm.getAll k with
  | nil => rfl
  | cons e l =>
    rw [hall] at hlen
    obtain rfl : l = [] := List.length_eq_zero_iff.mp (by simpa using hlen)
    have hvalued : e.valued = true := valued_of_mem_getAll hdm.1 (by rw [hall]; simp)
    have hsome := LibMetadata.isSome_reread hlib e
    rw [hvalued] at hsome
    obtain ⟨e', he⟩ := Option.isSome_iff_exists.mp hsome
    have hcontent := (LibMetadata.reread_fields hlib he).content
    rw [List.filterMap_cons_some he]
    simp [hcontent, arrived]

theorem strings_reread (hlib : lib.Contents) (hdm : SingleData dm)
    (hr : LibMetadata.Reread lib dm dm') (k : Bytes) :
    strings dm'.children k = ((textOf dm k).bind (arrived lib)).toList := by
  have hcontents := contents_reread hlib hdm hr k
  have hstrings : strings dm'.children k =
      ((dm'.getAll k).map LibMetadata.content).filterMap id := by
    rw [strings, LibMetadata.getAll, List.filterMap_map, Function.id_comp]
  rw [hstrings, hcontents]
  cases textOf dm k with
  | none => rfl
  | some s => cases h : arrived lib s <;> simp [h]

/-- The reader gets through if every text becomes a content. -/
theorem filled_reread_iff (hlib : lib.Contents) (hdm : SingleData dm)
    (hr : LibMetadata.Reread lib dm dm') : Filled dm'.children ↔
      ∀ k ∈ [lit "FilePath", lit "FileName", lit "FileHash"], ∀ s, textOf dm k = some s →
        arrived lib s ≠ none := by
  have hmem : ∀ k, (∀ c ∈ dm'.getAll k, c.content ≠ none) ↔
      ∀ s, textOf dm k = some s → arrived lib s ≠ none := by
    intro k
    rw [← List.forall_mem_map (f := LibMetadata.content) (P := fun c => c ≠ none),
      contents_reread hlib hdm hr]
    cases textOf dm k <;> simp
  simp only [← hmem]
  constructor
  · intro h k hk c hc
    obtain ⟨hc, hname⟩ := List.mem_filter.mp hc
    exact h c hc (of_decide_eq_true hname ▸ hk)
  · exact fun h c hc hname => h c.name hname c (List.mem_filter.mpr ⟨hc, by simp⟩)

theorem bind_arrived_iff (hlib : lib.Contents) (x : Option Bytes) :
    x.bind (arrived lib) = x ↔ ∀ s, x = some s → LibMetadata.Legible s := by
  cases x with
  | none => simp
  | some s => simp [arrived_iff hlib]

theorem legible_encode (h : Digest) : LibMetadata.Legible (Base64.encode h.1) := by
  refine (readable_encode h.1).resolve_left fun hnil => ?_
  have hlen := Base64.length_encode h.1
  rw [hnil, h.2] at hlen
  cases hlen

theorem overwrite_eq (h h' : Digest) : overwrite h h'.1 = h' := by
  apply Subtype.ext
  have hlen := h.2
  have hlen' := h'.2
  rw [overwrite]
  simp only [List.take_of_length_le hlen'.le, hlen']
  rw [List.drop_of_length_le hlen.le, List.append_nil, List.take_of_length_le hlen'.le]

theorem foldl_readHash (h₀ : Digest) (hash : Option Digest) :
    let r := ((hash.map fun h => Base64.encode h.1).toList).foldl readHash (h₀, false)
    (if r.2 then some r.1 else none) = hash := by
  cases hash with
  | none => rfl
  | some h =>
    have hdecode := Base64.decode_encode h.1 h.2.le
    simp [readHash, hdecode, overwrite_eq]

/-- What has been read of a file is what the object has. -/
structure SameFile (d : LibDataObject) (f : Fields) : Prop where
  datalen : f.datalen = d.datalen
  filename : f.filename = d.filename
  filepath : f.filepath = d.filepath
  hash : (if f.hashStr then some f.bytes else none) = d.hash

/-- The strings of the file and its length come back. -/
structure FileRestorable (d : LibDataObject) : Prop where
  length : d.datalen < 2 ^ 31 ∨ d.datalen = luckyLength
  name : ∀ s, d.filename = some s → LibMetadata.Legible s
  path : ∀ s, d.filepath = some s → LibMetadata.Legible s

theorem foldl_some (x y : Option Bytes) :
    x.toList.foldl (fun _ s => some s) y = x.or y := by
  cases x <;> rfl

/-- The hash comes back whenever it is written. -/
theorem shown_hash (hlib : lib.Contents) (hdm : SingleData dm) (hdesc : d.Described dm)
    (hr : LibMetadata.Reread lib dm dm') {f : Fields}
    (hhash : (f.bytes, f.hashStr) = (strings dm'.children (lit "FileHash")).foldl readHash
      (Fields.none.bytes, Fields.none.hashStr)) :
    (if f.hashStr then some f.bytes else none) = d.hash := by
  have hencoded : (textOf dm (lit "FileHash")).bind (arrived lib) =
      d.hash.map fun h => Base64.encode h.1 := by
    rw [hdesc.hash]
    cases d.hash with
    | none => rfl
    | some h => exact (arrived_iff hlib _).mpr (legible_encode h)
  rw [strings_reread hlib hdm hr, hencoded] at hhash
  have hback := foldl_readHash Fields.none.bytes d.hash
  have hhash' : (f.bytes, f.hashStr) = ((d.hash.map fun h => Base64.encode h.1).toList).foldl
      readHash (Fields.none.bytes, false) := hhash
  simpa only [← hhash'] using hback

theorem FileRestorable.filled (h : d.FileRestorable) (hlib : lib.Contents) (hdm : SingleData dm)
    (hdesc : d.Described dm) (hr : LibMetadata.Reread lib dm dm') : Filled dm'.children := by
  rw [filled_reread_iff hlib hdm hr]
  intro k hk s hs
  have hlegible : LibMetadata.Legible s := by
    simp only [List.mem_cons, List.not_mem_nil, or_false] at hk
    rcases hk with rfl | rfl | rfl
    · exact h.path s (hdesc.path ▸ hs)
    · exact h.name s (hdesc.name ▸ hs)
    · rw [hdesc.hash] at hs
      obtain ⟨hash, -, rfl⟩ := Option.map_eq_some_iff.mp hs
      exact legible_encode hash
  rw [(arrived_iff hlib s).mpr hlegible]
  exact Option.some_ne_none s

/-- The file comes back from the `Data` element if its strings and its length do. -/
theorem readData_iff (hlib : lib.Contents) (hlen : d.datalen < 2 ^ 64) (hdm : SingleData dm)
    (hdesc : d.Described dm) (hc : LibMetadata.reread lib dm = some dm') :
    (∃ f, readData Fields.none dm' = some f ∧ SameFile d f) ↔ d.FileRestorable := by
  have hr := LibMetadata.reread_fields hlib hc
  have hstart : ((dm'.getParameter (lit "data_len")).map atoiSize).getD 0 =
      atoiSize ((decimal d.datalen).take 19) := by
    rw [hr.param hdesc.tidy.plain, hdesc.length, Option.map_some, Option.getD_some]
  have hfields : ∀ f, readData Fields.none dm' = some f → (SameFile d f ↔ d.FileRestorable) := by
    intro f hf
    obtain ⟨hdatalen, hpath, hname, hhash⟩ := foldlM_readDataChild hf
    have hshown := shown_hash hlib hdm hdesc hr hhash
    rw [strings_reread hlib hdm hr, hdesc.path, foldl_some] at hpath
    rw [strings_reread hlib hdm hr, hdesc.name, foldl_some] at hname
    have hpath' : f.filepath = d.filepath.bind (arrived lib) := hpath.trans (Option.or_none ..)
    have hname' : f.filename = d.filename.bind (arrived lib) := hname.trans (Option.or_none ..)
    have hdatalen' : f.datalen = atoiSize ((decimal d.datalen).take 19) := hdatalen.trans hstart
    constructor
    · rintro ⟨hlength, hfile, hdir, -⟩
      rw [hdatalen'] at hlength
      rw [hname'] at hfile
      rw [hpath'] at hdir
      exact ⟨(atoiSize_take_decimal_iff hlen).mp hlength, (bind_arrived_iff hlib _).mp hfile,
        (bind_arrived_iff hlib _).mp hdir⟩
    · rintro ⟨hlength, hfile, hdir⟩
      exact ⟨hdatalen'.trans ((atoiSize_take_decimal_iff hlen).mpr hlength),
        hname'.trans ((bind_arrived_iff hlib _).mpr hfile),
        hpath'.trans ((bind_arrived_iff hlib _).mpr hdir), hshown⟩
  constructor
  · rintro ⟨f, hf, hsame⟩
    exact (hfields f hf).mp hsame
  · intro h
    have hsome := (isSome_foldlM_readDataChild dm'.children { Fields.none with
      datalen := ((dm'.getParameter (lit "data_len")).map atoiSize).getD 0 }).mpr
        (h.filled hlib hdm hdesc hr)
    obtain ⟨f, hf⟩ := Option.isSome_iff_exists.mp hsome
    exact ⟨f, hf, (hfields f hf).mpr h⟩

end Reading

/-! ## The round trip -/

section RoundTrip

variable {lib : LibXml} {d d' : LibDataObject} {uninit : Timeval}

/-- What the round trip is to keep. -/
structure Same (d d' : LibDataObject) : Prop where
  al : d'.al = d.al
  createtime : d'.createtime = d.createtime
  file : d'.datalen = d.datalen ∧ d'.filename = d.filename ∧ d'.filepath = d.filepath
  hash : d'.hash = d.hash
  persistent : d'.persistent = d.persistent

/-- The object can be written without a buffer overflow, writing it again changes nothing, and what
is read of its document is the same. -/
def RoundTrips (lib : LibXml) (uninit : Timeval) (d : LibDataObject) : Prop :=
  ∃ d₁ d₂, d.toMetadata = some d₁ ∧ d₁.toMetadata = some d₁ ∧
    newFromRaw lib uninit (d₁.m.getRaw lib) = .tree d₂ ∧ d.Same d₂

/-- The buffers are long enough. A create time of zero seconds has none, and there is no older one
in the tree. Attributes have names and weights, and values that the format carries. A file name has
a `Data` element to stand in. No parameter of an annotation is empty. -/
structure Restorable (d : LibDataObject) : Prop where
  fits : d.Fits
  time : d.createtime.sec = 0 →
    d.createtime.usec = 0 ∧ d.m.getParameter (lit "create_time") = none
  attributes : ∀ a ∈ d.al, a.name ≠ [] ∧ LibMetadata.Legible a.value ∧ a.weight ≠ 0
  file : d.FileRestorable
  named : d.filename.isSome = true → d.hasData = true
  annotations : ∀ c ∈ d.m.children, c.name ≠ lit "Data" → c.name ≠ lit "Attr" → c.valued = true

theorem valued_metadata_iff (ht : d.Tidy) (hk : d.Kept) : d.metadata.valued = true ↔
    (∀ a ∈ d.al, a.name ≠ []) ∧
      ∀ c ∈ d.m.children, c.name ≠ lit "Data" → c.name ≠ lit "Attr" → c.valued = true := by
  have hattrs := ht.written.attrs
  have hk' := hk.toMetadata
  rw [LibMetadata.valued_iff, and_iff_right hk'.params]
  have hmem : ∀ {m : LibMetadata} {c : LibMetadata}, c ∈ m.children ↔ c ∈ m.getAll c.name := by
    intro m c
    simp [LibMetadata.getAll]
  constructor
  · intro h
    refine ⟨fun a ha => (valued_attributeMetadata a).mp (h _ ?_), fun c hc hd ha => h c ?_⟩
    · rw [hmem, name_attributeMetadata, hattrs]
      exact List.mem_map_of_mem ha
    · rw [hmem, getAll_metadata_of_ne d hd.symm ha.symm]
      exact hmem.mp hc
  · rintro ⟨hnames, hothers⟩ c hc
    rw [hmem] at hc
    by_cases hd : c.name = lit "Data"
    · rw [hd] at hc
      exact (hk'.data c hc).1
    by_cases ha : c.name = lit "Attr"
    · rw [ha, hattrs] at hc
      obtain ⟨a, hal, rfl⟩ := List.mem_map.mp hc
      exact (valued_attributeMetadata a).mpr (hnames a hal)
    · rw [getAll_metadata_of_ne d (Ne.symm hd) (Ne.symm ha)] at hc
      exact hothers c (hmem.mpr hc) hd ha

theorem persistent_metadata (d : LibDataObject) :
    readPersistent (d.metadata.getParameter (lit "persistent")) = d.persistent := by
  rw [getParameter_persistent]
  cases d.persistent <;> decide

/-- The create time comes back if there is one, or none is there. -/
theorem createtime_iff (hk : d.Kept) (hlong : IsLong d.createtime.sec ∧ IsLong d.createtime.usec) :
    ((d.metadata.getParameter (lit "create_time")).map (scanCreatetime uninit)).getD ⟨0, 0⟩ =
      d.createtime ↔ (d.createtime.sec = 0 →
        d.createtime.usec = 0 ∧ d.m.getParameter (lit "create_time") = none) := by
  rw [getParameter_createTime]
  by_cases ht : d.createtime.sec = 0
  · rw [if_neg (not_not.mpr ht)]
    simp only [ht, true_implies]
    cases hold : d.m.getParameter (lit "create_time") with
    | none =>
      rw [Option.map_none, Option.getD_none, and_iff_left rfl]
      cases hct : d.createtime with | mk sec usec => ?_
      rw [hct] at ht
      simp only at ht
      simp [ht, eq_comm]
    | some s =>
      obtain ⟨t, hsec, rfl⟩ := hk.time s hold
      rw [Option.map_some, Option.getD_some, scanCreatetime_createtimeText]
      constructor
      · intro h
        have hzero : clamp t.sec = 0 := (congrArg Timeval.sec h).trans ht
        exact absurd hzero (clamp_ne_zero hsec)
      · rintro ⟨-, hnone⟩
        cases hnone
  · rw [if_pos ht, Option.map_some, Option.getD_some, scanCreatetime_createtimeText,
      clamp_of_isLong hlong.1, clamp_of_isLong hlong.2]
    simp [ht]

/-- What is read of the elements below the root. -/
theorem foldlM_readElement_iff (hlib : lib.Contents) (ht : d.Tidy) (hk : d.Kept) (hfits : d.Fits)
    (hlen : d.datalen < 2 ^ 64) (hnames : ∀ a ∈ d.al, a.name ≠ []) :
    (∃ al f, (d.metadata.children.filterMap (LibMetadata.reread lib)).foldlM readElement
        ([], Fields.none) = some (al, f) ∧ al = d.al ∧ SameFile d f) ↔
      (∀ a ∈ d.al, LibMetadata.Legible a.value ∧ a.weight ≠ 0) ∧ d.FileRestorable ∧
        (d.filename.isSome = true → d.hasData = true) := by
  have hw := ht.written
  have hk' := hk.toMetadata
  have hattrs : (d.metadata.children.filterMap (LibMetadata.reread lib)).filter
      (fun c => c.name = lit "Attr") =
        (d.al.map attributeMetadata).filterMap (LibMetadata.reread lib) := by
    rw [LibMetadata.filter_reread, ← hw.attrs, LibMetadata.getAll]
  have hdata : (d.metadata.children.filterMap (LibMetadata.reread lib)).filter
      (fun c => c.name = lit "Data") =
        (d.metadata.getAll (lit "Data")).filterMap (LibMetadata.reread lib) := by
    rw [LibMetadata.filter_reread, LibMetadata.getAll]
  rw [foldlM_readElement, hattrs, hdata, List.nil_append]
  have hsplit : ∀ o : Option Fields, (∃ al f, o.map (fun g =>
      (((d.al.map attributeMetadata).filterMap (LibMetadata.reread lib)).filterMap readAttribute,
        g)) = some (al, f) ∧ al = d.al ∧ SameFile d f) ↔
      (∀ a ∈ d.al, LibMetadata.Legible a.value ∧ a.weight ≠ 0) ∧
        ∃ f, o = some f ∧ SameFile d f := by
    intro o
    rw [← readAttributes_iff hlib hnames hfits]
    cases o with
    | none => simp
    | some g => simp
  rw [hsplit]
  refine and_congr_right fun _ => ?_
  by_cases hd : d.hasData = true
  · obtain ⟨dm, hget, hdesc⟩ := hw.data hd
    have hall : d.metadata.getAll (lit "Data") = [dm] := by
      have hsingle : (d.metadata.getAll (lit "Data")).length ≤ 1 := hk'.single
      rw [LibMetadata.get] at hget
      cases hl : d.metadata.getAll (lit "Data") with
      | nil => simp [hl] at hget
      | cons x l =>
        rw [hl] at hget hsingle
        obtain rfl : l = [] := List.length_eq_zero_iff.mp (by simpa using hsingle)
        rw [Option.some.inj hget]
    have hdm : SingleData dm := hk'.data dm (by rw [hall]; exact List.mem_singleton_self dm)
    have hsome := LibMetadata.isSome_reread hlib dm
    rw [hdm.1] at hsome
    obtain ⟨dm', hc⟩ := Option.isSome_iff_exists.mp hsome
    rw [hall, List.filterMap_cons_some hc, List.filterMap_nil, List.foldlM_cons]
    have hone : (readData Fields.none dm').bind (fun f => List.foldlM readData f []) =
        readData Fields.none dm' := by
      cases readData Fields.none dm' <;> rfl
    rw [show (readData Fields.none dm' >>= fun f => List.foldlM readData f []) =
      readData Fields.none dm' from hone, readData_iff hlib hlen hdm hdesc hc]
    simp [hd]
  · have hnone : d.metadata.getAll (lit "Data") = [] := by
      rw [List.eq_nil_iff_forall_not_mem]
      exact fun dm hdm => hd (hw.tidy dm hdm).1
    have hempty : d.filepath = none ∧ d.datalen = 0 := by
      simpa [hasData, Option.isSome_iff_ne_none] using hd
    have hhash : d.hash = none := by
      by_contra hne
      have hpath := ht.hash (Option.isSome_iff_ne_none.mpr hne)
      rw [hempty.1] at hpath
      cases hpath
    rw [hnone, List.filterMap_nil]
    constructor
    · rintro ⟨f, hf, hsame⟩
      obtain rfl := Option.some.inj hf
      have hname : d.filename = none := hsame.filename.symm
      refine ⟨⟨.inl (by rw [hempty.2]; norm_num), ?_, ?_⟩, ?_⟩
      · simp [hname]
      · simp [hempty.1]
      · simp [hname]
    · rintro ⟨-, hnamed⟩
      have hname : d.filename = none := by
        by_contra hne
        exact hd (hnamed (Option.isSome_iff_ne_none.mpr hne))
      exact ⟨Fields.none, rfl, hempty.2.symm, hname.symm, hempty.1.symm, hhash.symm⟩

/-- The round trip succeeds for the objects that are restorable, and for no others. -/
theorem roundTrips_iff_restorable (hlib : lib.Contents) (hd : Built d)
    (hlong : IsLong d.createtime.sec ∧ IsLong d.createtime.usec) (hlen : d.datalen < 2 ^ 64)
    (hparse : lib.parse (d.metadata.getRaw lib) = some ((d.metadata.createDoc lib).format 0)) :
    RoundTrips lib uninit d ↔ d.Restorable := by
  have ht := hd.tidy
  have hk := hd.kept
  have hw := ht.written
  have hread := LibMetadata.xmlNewFromXml_getRaw hlib hw.plain hparse
  have hvalued := valued_metadata_iff ht hk
  constructor
  · rintro ⟨d₁, d₂, hwrite, -, hnew, hsame⟩
    rw [toMetadata] at hwrite
    split_ifs at hwrite with hfits
    obtain rfl := Option.some.inj hwrite
    by_cases hv : d.metadata.valued = true
    · obtain ⟨hnames, hothers⟩ := hvalued.mp hv
      rw [if_pos hv] at hread
      obtain ⟨m', hm', hname, hparam, hchildren⟩ := hread
      have hroot : m'.name = lit "Haggle" := hname.trans hw.name
      rw [newFromRaw] at hnew
      simp only [hm', if_pos hroot, hchildren] at hnew
      have hfold := foldlM_readElement_iff hlib ht hk hfits hlen hnames
      cases hres : (d.metadata.children.filterMap (LibMetadata.reread lib)).foldlM readElement
          ([], Fields.none) with
      | none =>
        rw [hres] at hnew
        cases hnew
      | some r =>
        obtain ⟨al, f⟩ := r
        rw [hres] at hnew
        obtain rfl := Reading.tree.inj hnew
        obtain ⟨hal, htime, ⟨hl, hn, hp⟩, hh, -⟩ := hsame
        have hfile : SameFile d f := ⟨hl, hn, hp, hh⟩
        obtain ⟨hvalues, hrest, hnamed⟩ := hfold.mp ⟨al, f, hres, hal, hfile⟩
        have htime' := htime
        simp only [ofFields, hparam] at htime'
        exact ⟨hfits, (createtime_iff hk hlong).mp htime',
          fun a ha => ⟨hnames a ha, hvalues a ha⟩, hrest, hnamed, hothers⟩
    · rw [if_neg hv] at hread
      rw [newFromRaw] at hnew
      simp only [hread] at hnew
      cases hnew
  · intro h
    have hnames : ∀ a ∈ d.al, a.name ≠ [] := fun a ha => (h.attributes a ha).1
    have hv : d.metadata.valued = true := hvalued.mpr ⟨hnames, h.annotations⟩
    rw [if_pos hv] at hread
    obtain ⟨m', hm', hname, hparam, hchildren⟩ := hread
    have hroot : m'.name = lit "Haggle" := hname.trans hw.name
    have hwrite : d.toMetadata = some { d with m := d.metadata } := by
      rw [toMetadata, if_pos h.fits]
    obtain ⟨al, f, hres, hal, hfile⟩ := (foldlM_readElement_iff hlib ht hk h.fits hlen hnames).mpr
      ⟨fun a ha => (h.attributes a ha).2, h.file, h.named⟩
    refine ⟨_, ofFields uninit m' al f, hwrite, toMetadata_idem hwrite, ?_, hal, ?_,
      ⟨hfile.datalen, hfile.filename, hfile.filepath⟩, hfile.hash, ?_⟩
    · rw [newFromRaw]
      simp only [hm', if_pos hroot, hchildren, hres]
    · simp only [ofFields, hparam]
      exact (createtime_iff hk hlong).mpr h.time
    · simp only [ofFields, hparam]
      exact persistent_metadata d

end RoundTrip

end LibDataObject

namespace Sample

open LibDataObject

end Sample
end Haggle
