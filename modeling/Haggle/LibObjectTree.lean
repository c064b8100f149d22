import Haggle.LibDataObject

/-!
# The tree of a data object of the library

The metadata tree of an object is kept from one call of `haggle_dataobject_to_metadata` to the next.
`Tidy` says what it can hold in between, and `Written` what it holds afterwards: all that the
kernel needs, apart from a create time that was given up.
-/

namespace Haggle
namespace LibDataObject

/-- The text of the first child of a name. -/
def textOf (m : LibMetadata) (k : Bytes) : Option Bytes := (m.get k).map fun c => c.content.getD []

/-- What a `Data` element can hold between two calls of `to_metadata`. -/
structure DataTidy (d : LibDataObject) (dm : LibMetadata) : Prop where
  plain : dm.Plain
  content : dm.content = none
  leaves : ∀ k, ∀ c ∈ dm.getAll k, c.children = []
  name : d.filename = none → textOf dm (lit "FileName") = none
  hash : d.hash = none → textOf dm (lit "FileHash") = none
  path : d.filepath = none → textOf dm (lit "FilePath") = none

structure Tidy (d : LibDataObject) : Prop where
  name : d.m.name = lit "Haggle"
  plain : d.m.Plain
  data : ∀ dm ∈ d.m.getAll (lit "Data"), d.hasData = true ∧ d.DataTidy dm
  signature : d.m.getAll (lit "Signature") = []
  hash : d.hash.isSome = true → d.filepath.isSome = true

variable {d d' : LibDataObject} {dm : LibMetadata}

theorem name_setContent (s : Bytes) : ∀ c : LibMetadata, (c.setContent s).name = c.name :=
  fun _ => rfl

theorem textOf_putContent_self (k : Bytes) (c : Option Bytes) (m : LibMetadata) :
    textOf (putContent k c m) k = c.or (textOf m k) := by
  cases c with
  | none => rfl
  | some c =>
    rw [textOf, putContent, LibMetadata.get_upsert_self (name_setContent c)]
    rfl

theorem textOf_putContent_of_ne {k k' : Bytes} (hk : k ≠ k') (c : Option Bytes) (m : LibMetadata) :
    textOf (putContent k c m) k' = textOf m k' := by
  cases c with
  | none => rfl
  | some c => rw [textOf, putContent, LibMetadata.get_upsert_of_ne hk (name_setContent c), textOf]

theorem putContent_fields (k : Bytes) (c : Option Bytes) (m : LibMetadata) :
    (putContent k c m).parameters = m.parameters ∧ (putContent k c m).name = m.name ∧
      (putContent k c m).content = m.content := by
  cases c with
  | none => exact ⟨rfl, rfl, rfl⟩
  | some c => exact LibMetadata.parameters_upsert _ _ _

theorem leaves_putContent {m : LibMetadata} (h : ∀ k, ∀ c ∈ m.getAll k, c.children = [])
    (k : Bytes) (t : Option Bytes) : ∀ k', ∀ c ∈ (putContent k t m).getAll k', c.children = [] := by
  cases t with
  | none => exact h
  | some t =>
    intro k' c hc
    rw [putContent] at hc
    by_cases hk : k = k'
    · subst hk
      rw [LibMetadata.getAll_upsert_self (name_setContent t)] at hc
      rcases List.mem_cons.mp hc with rfl | hc
      · cases hall : m.getAll k with
        | nil => rfl
        | cons x xs => exact h k x (by rw [hall]; exact List.mem_cons_self)
      · exact h k c (List.mem_of_mem_tail hc)
    · rw [LibMetadata.getAll_upsert_of_ne hk (name_setContent t)] at hc
      exact h k' c hc

theorem dataMetadata_fields (d : LibDataObject) (dm : LibMetadata) :
    (d.dataMetadata dm).name = dm.name ∧ (d.dataMetadata dm).content = dm.content ∧
      (d.dataMetadata dm).parameters =
        AssocList.set (lit "data_len") ((decimal d.datalen).take 19) dm.parameters := by
  simp [dataMetadata, putContent_fields, LibMetadata.setParameter]

theorem DataTidy.new (d : LibDataObject) : d.DataTidy (.new (lit "Data") none) where
  plain := List.nodup_nil
  content := rfl
  leaves k c hc := by simp [LibMetadata.getAll, LibMetadata.new] at hc
  name _ := rfl
  hash _ := rfl
  path _ := rfl

theorem textOf_dataMetadata (d : LibDataObject) (dm : LibMetadata) :
    textOf (d.dataMetadata dm) (lit "FileName") = d.filename.or (textOf dm (lit "FileName")) ∧
      textOf (d.dataMetadata dm) (lit "FileHash") =
        (d.hash.map fun h => Base64.encode h.1).or (textOf dm (lit "FileHash")) ∧
      textOf (d.dataMetadata dm) (lit "FilePath") = d.filepath.or (textOf dm (lit "FilePath")) := by
  have hpn : lit "FilePath" ≠ lit "FileName" := by decide
  have hph : lit "FilePath" ≠ lit "FileHash" := by decide
  have htn : lit "Thumbnail" ≠ lit "FileName" := by decide
  have hth : lit "Thumbnail" ≠ lit "FileHash" := by decide
  have htp : lit "Thumbnail" ≠ lit "FilePath" := by decide
  have hhn : lit "FileHash" ≠ lit "FileName" := by decide
  have hhp : lit "FileHash" ≠ lit "FilePath" := by decide
  have hnh : lit "FileName" ≠ lit "FileHash" := by decide
  have hnp : lit "FileName" ≠ lit "FilePath" := by decide
  unfold dataMetadata
  refine ⟨?_, ?_, ?_⟩
  · rw [textOf_putContent_of_ne hpn, textOf_putContent_of_ne htn, textOf_putContent_of_ne hhn,
      textOf_putContent_self]
    rfl
  · rw [textOf_putContent_of_ne hph, textOf_putContent_of_ne hth, textOf_putContent_self,
      textOf_putContent_of_ne hnh]
    rfl
  · rw [textOf_putContent_self, textOf_putContent_of_ne htp, textOf_putContent_of_ne hhp,
      textOf_putContent_of_ne hnp]
    rfl

/-- The `Data` element that `to_metadata` leaves behind. -/
structure Described (d : LibDataObject) (dm : LibMetadata) : Prop where
  tidy : d.DataTidy dm
  length : dm.getParameter (lit "data_len") = some ((decimal d.datalen).take 19)
  name : textOf dm (lit "FileName") = d.filename
  hash : textOf dm (lit "FileHash") = d.hash.map fun h => Base64.encode h.1
  path : textOf dm (lit "FilePath") = d.filepath

theorem DataTidy.described (h : d.DataTidy dm) : d.Described (d.dataMetadata dm) := by
  obtain ⟨-, hcontent, hparams⟩ := dataMetadata_fields d dm
  obtain ⟨hname, hhash, hpath⟩ := textOf_dataMetadata d dm
  have hname' : textOf (d.dataMetadata dm) (lit "FileName") = d.filename := by
    rw [hname]
    cases hf : d.filename with
    | none => exact h.name hf
    | some _ => rfl
  have hhash' : textOf (d.dataMetadata dm) (lit "FileHash") =
      d.hash.map fun h => Base64.encode h.1 := by
    rw [hhash]
    cases hf : d.hash with
    | none => exact h.hash hf
    | some _ => rfl
  have hpath' : textOf (d.dataMetadata dm) (lit "FilePath") = d.filepath := by
    rw [hpath]
    cases hf : d.filepath with
    | none => exact h.path hf
    | some _ => rfl
  have hleaves : ∀ k, ∀ c ∈ (d.dataMetadata dm).getAll k, c.children = [] := by
    unfold dataMetadata
    apply leaves_putContent
    apply leaves_putContent
    apply leaves_putContent
    apply leaves_putContent
    exact h.leaves
  refine ⟨⟨?_, hcontent.trans h.content, hleaves, ?_, ?_, ?_⟩, ?_, hname', hhash', hpath'⟩
  · rw [LibMetadata.Plain, hparams]
    exact AssocList.nodup_set _ _ h.plain
  · exact fun hf => hname'.trans hf
  · intro hf
    rw [hhash', hf]
    rfl
  · exact fun hf => hpath'.trans hf
  · rw [LibMetadata.getParameter, hparams, AssocList.get_set_self]

/-- The tree that `to_metadata` leaves behind. -/
structure Written (d : LibDataObject) (m : LibMetadata) : Prop where
  name : m.name = lit "Haggle"
  plain : m.Plain
  time : m.getParameter (lit "create_time") =
    if d.createtime.sec ≠ 0 then some (createtimeText d.createtime)
    else d.m.getParameter (lit "create_time")
  data : d.hasData = true → ∃ dm, m.get (lit "Data") = some dm ∧ d.Described dm
  tidy : ∀ dm ∈ m.getAll (lit "Data"), d.hasData = true ∧ d.DataTidy dm
  signature : m.getAll (lit "Signature") = []
  attrs : m.getAll (lit "Attr") = d.al.map attributeMetadata

theorem name_attributeMetadata (a : Attribute) : (attributeMetadata a).name = lit "Attr" := by
  unfold attributeMetadata
  split <;> rfl

theorem foldl_add_attributes (al : List Attribute) (m : LibMetadata) :
    let m' := al.foldl (fun m a => m.add (attributeMetadata a)) m
    m'.name = m.name ∧ m'.parameters = m.parameters ∧
      ∀ k, m'.getAll k = m.getAll k ++ if lit "Attr" = k then al.map attributeMetadata else [] := by
  induction al generalizing m with
  | nil => exact ⟨rfl, rfl, fun k => by simp⟩
  | cons a al ih =>
    obtain ⟨hname, hparams, hall⟩ := ih (m.add (attributeMetadata a))
    refine ⟨hname, hparams, fun k => ?_⟩
    rw [List.foldl_cons, hall k, LibMetadata.getAll_add, name_attributeMetadata]
    by_cases hk : lit "Attr" = k <;> simp [hk]

/-- The tree with the parameters of the root. -/
def stamped (d : LibDataObject) : LibMetadata :=
  let m := d.m.setParameter (lit "persistent") (lit (if d.persistent then "yes" else "no"))
  if d.createtime.sec ≠ 0 then
    m.setParameter (lit "create_time") (createtimeText d.createtime)
  else m

/-- The tree before the attributes are replaced. -/
def beforeAttributes (d : LibDataObject) : LibMetadata :=
  if d.hasData then d.stamped.upsert (lit "Data") d.dataMetadata else d.stamped

theorem metadata_eq (d : LibDataObject) : d.metadata =
    d.al.foldl (fun m a => m.add (attributeMetadata a))
      (d.beforeAttributes.removeAll (lit "Attr")) := rfl

theorem stamped_fields (d : LibDataObject) (h : d.m.Plain) :
    d.stamped.name = d.m.name ∧ d.stamped.Plain ∧ (∀ k, d.stamped.getAll k = d.m.getAll k) ∧
      d.stamped.getParameter (lit "create_time") =
        if d.createtime.sec ≠ 0 then some (createtimeText d.createtime)
        else d.m.getParameter (lit "create_time") := by
  have hne : lit "persistent" ≠ lit "create_time" := by decide
  by_cases ht : d.createtime.sec ≠ 0
  · simp only [stamped, if_pos ht]
    refine ⟨rfl, AssocList.nodup_set _ _ (AssocList.nodup_set _ _ h), fun _ => rfl, ?_⟩
    exact AssocList.get_set_self _ _ _
  · simp only [stamped, if_neg ht]
    exact ⟨rfl, AssocList.nodup_set _ _ h, fun _ => rfl, AssocList.get_set_of_ne hne _ _⟩

theorem beforeAttributes_fields (d : LibDataObject) (h : d.m.Plain) :
    d.beforeAttributes.name = d.m.name ∧ d.beforeAttributes.Plain ∧
      d.beforeAttributes.getParameter (lit "create_time") =
        if d.createtime.sec ≠ 0 then some (createtimeText d.createtime)
        else d.m.getParameter (lit "create_time") := by
  obtain ⟨hname, hplain, -, htime⟩ := stamped_fields d h
  unfold beforeAttributes
  split
  · obtain ⟨hparams, hname', -⟩ :=
      LibMetadata.parameters_upsert (lit "Data") d.dataMetadata d.stamped
    rw [LibMetadata.Plain, LibMetadata.getParameter, hparams, hname']
    exact ⟨hname, hplain, htime⟩
  · exact ⟨hname, hplain, htime⟩

theorem Tidy.beforeAttributes_data (h : d.Tidy) :
    (d.hasData = true → ∃ dm, d.beforeAttributes.get (lit "Data") = some dm ∧ d.Described dm) ∧
      (∀ dm ∈ d.beforeAttributes.getAll (lit "Data"), d.hasData = true ∧ d.DataTidy dm) ∧
      d.beforeAttributes.getAll (lit "Signature") = [] := by
  obtain ⟨-, -, hall, -⟩ := stamped_fields d h.plain
  have hkeep : ∀ c, (d.dataMetadata c).name = c.name := fun c => (dataMetadata_fields d c).1
  unfold beforeAttributes
  split
  next hd =>
    have hfirst : d.DataTidy ((d.stamped.getAll (lit "Data")).headD (.new (lit "Data") none)) := by
      rw [hall]
      cases hm : d.m.getAll (lit "Data") with
      | nil => exact DataTidy.new d
      | cons x xs => exact (h.data x (by rw [hm]; exact List.mem_cons_self)).2
    have hself := LibMetadata.getAll_upsert_self (k := lit "Data") hkeep d.stamped
    refine ⟨fun _ => ⟨_, by rw [LibMetadata.get, hself, List.head?_cons], hfirst.described⟩, ?_, ?_⟩
    · intro dm hdm
      rw [hself] at hdm
      rcases List.mem_cons.mp hdm with rfl | hdm
      · exact ⟨hd, hfirst.described.tidy⟩
      · rw [hall] at hdm
        exact h.data dm (List.mem_of_mem_tail hdm)
    · rw [LibMetadata.getAll_upsert_of_ne (by decide) hkeep, hall, h.signature]
  next hd =>
    rw [hall, hall]
    exact ⟨fun hd' => absurd hd' hd, h.data, h.signature⟩

theorem Tidy.written (h : d.Tidy) : d.Written d.metadata := by
  obtain ⟨hname, hplain, htime⟩ := beforeAttributes_fields d h.plain
  obtain ⟨hdata, htidy, hsig⟩ := h.beforeAttributes_data
  obtain ⟨hname', hparams', hall⟩ :=
    foldl_add_attributes d.al (d.beforeAttributes.removeAll (lit "Attr"))
  rw [← metadata_eq] at hname' hparams'
  have hkeep : ∀ k, lit "Attr" ≠ k → d.metadata.getAll k = d.beforeAttributes.getAll k := by
    intro k hk
    rw [metadata_eq, hall k, if_neg hk, List.append_nil, LibMetadata.getAll_removeAll, if_neg hk]
  have hdataAll := hkeep (lit "Data") (by decide)
  refine ⟨hname'.trans (hname.trans h.name), ?_, ?_, ?_, ?_, ?_, ?_⟩
  · rw [LibMetadata.Plain, hparams']
    exact hplain
  · rw [LibMetadata.getParameter, hparams']
    exact htime
  · rw [LibMetadata.get, hdataAll]
    exact hdata
  · rw [hdataAll]
    exact htidy
  · rw [hkeep _ (by decide), hsig]
  · rw [metadata_eq, hall, if_pos rfl, LibMetadata.getAll_removeAll, if_pos rfl, List.nil_append]

theorem Written.tidy_toMetadata (hw : d.Written d.metadata) (h : d.Tidy) :
    Tidy { d with m := d.metadata } where
  name := hw.name
  plain := hw.plain
  data dm hdm := by
    obtain ⟨hd, ht⟩ := hw.tidy dm hdm
    exact ⟨hd, ⟨ht.plain, ht.content, ht.leaves, ht.name, ht.hash, ht.path⟩⟩
  signature := hw.signature
  hash := h.hash

theorem Tidy.new : Tidy new where
  name := rfl
  plain := List.nodup_nil
  data dm hdm := by simp [LibDataObject.new, LibMetadata.getAll, LibMetadata.new] at hdm
  signature := rfl
  hash h := by simp [LibDataObject.new] at h

theorem Tidy.newFromFile (path : Bytes) (len : ℕ) : Tidy (newFromFile path len) where
  name := rfl
  plain := List.nodup_nil
  data dm hdm := by
    simp [LibDataObject.newFromFile, LibDataObject.new, LibMetadata.getAll, LibMetadata.new] at hdm
  signature := rfl
  hash _ := rfl

/-- What is in the tree stays known to an object that keeps the tree and forgets nothing. -/
theorem Tidy.frame (h : d.Tidy) (hm : d'.m = d.m) (hlen : d'.datalen = d.datalen)
    (hname : d'.filename = none → d.filename = none)
    (hpath : d'.filepath = none → d.filepath = none) (hhash : d'.hash = none → d.hash = none)
    (hfile : d'.hash.isSome = true → d'.filepath.isSome = true) : d'.Tidy := by
  refine ⟨by rw [hm, h.name], by rw [hm]; exact h.plain, ?_, by rw [hm, h.signature], hfile⟩
  intro dm hdm
  rw [hm] at hdm
  obtain ⟨hd, ht⟩ := h.data dm hdm
  refine ⟨?_, ht.plain, ht.content, ht.leaves, fun hn => ht.name (hname hn),
    fun hn => ht.hash (hhash hn), fun hn => ht.path (hpath hn)⟩
  simp only [hasData, Bool.or_eq_true, decide_eq_true_eq, hlen] at hd ⊢
  apply hd.imp_left
  intro hs
  by_contra hs'
  rw [Bool.not_eq_true, Option.isSome_eq_false_iff, Option.isNone_iff_eq_none] at hs'
  simp [hpath hs'] at hs

theorem Tidy.call (h : d.Tidy) {c : Call} (hc : d.call c = some d') : d'.Tidy := by
  cases c with
  | setCreatetime t =>
    cases hc
    exact h.frame rfl rfl id id id h.hash
  | addAttributeWeighted a =>
    cases hc
    exact h.frame rfl rfl id id id h.hash
  | removeAttribute name value =>
    cases hc
    exact h.frame rfl rfl id id id h.hash
  | setFilename name =>
    cases hc
    exact h.frame rfl rfl (fun hn => nomatch hn) id id h.hash
  | setFilepath path =>
    cases hc
    exact h.frame rfl rfl id (fun hn => nomatch hn) id fun _ => rfl
  | addHash hash =>
    cases hc
    split
    next hp => exact h.frame rfl rfl id id (fun hn => nomatch hn) fun _ => hp
    · exact h
  | setThumbnail data =>
    cases hc
    exact h.frame rfl rfl id id id h.hash
  | setPersistent val =>
    cases hc
    exact h.frame rfl rfl id id id h.hash
  | addMetadata a =>
    cases hc
    have hkeep : ∀ k ∈ [lit "Attr", lit "Data", lit "Signature"],
        (d.m.add a.element).getAll k = d.m.getAll k := by
      intro k hk
      have hne : a.element.name ≠ k := fun hn => a.foreign (hn ▸ hk)
      rw [LibMetadata.getAll_add, if_neg hne, List.append_nil]
    refine ⟨h.name, h.plain, ?_, ?_, h.hash⟩
    · rw [hkeep _ (by simp)]
      intro dm hdm
      obtain ⟨hd, ht⟩ := h.data dm hdm
      exact ⟨hd, ht.plain, ht.content, ht.leaves, ht.name, ht.hash, ht.path⟩
    · rw [hkeep _ (by simp)]
      exact h.signature
  | getRaw =>
    simp only [LibDataObject.call, toMetadata] at hc
    split at hc
    · cases hc
      exact h.written.tidy_toMetadata h
    · cases hc

theorem Built.tidy (h : Built d) : d.Tidy := by
  induction h with
  | new => exact Tidy.new
  | newFromFile path len => exact Tidy.newFromFile path len
  | call c _ hc ih => exact ih.call hc

end LibDataObject
end Haggle
