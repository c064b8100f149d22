import Haggle.LibReading

/-!
# Writing an object of the library again

`haggle_dataobject_to_metadata` changes the tree that it has built before: it sets parameters and
contents, and replaces the attributes. Doing it twice is the same as doing it once.
-/

namespace Haggle
namespace LibDataObject

section Trees

variable {d d' : LibDataObject} {m dm : LibMetadata} {k k' : Bytes}

/-- A `Data` element with one element of each name. -/
def SingleData (dm : LibMetadata) : Prop := dm.valued = true ∧ ∀ k, (dm.getAll k).length ≤ 1

/-- What else is known of the tree of an object: the only create time in it is one that was written,
and there is one `Data` element at most. -/
structure Kept (d : LibDataObject) : Prop where
  params : ∀ p ∈ d.m.parameters, p.2 ≠ []
  time : ∀ s, d.m.getParameter (lit "create_time") = some s →
    ∃ t : Timeval, t.sec ≠ 0 ∧ s = createtimeText t
  single : (d.m.getAll (lit "Data")).length ≤ 1
  data : ∀ dm ∈ d.m.getAll (lit "Data"), SingleData dm

theorem longText_ne_nil (n : ℤ) : longText n ≠ [] := by
  unfold longText
  split_ifs <;> simp [decimal_ne_nil]

theorem createtimeText_ne_nil (t : Timeval) : createtimeText t ≠ [] := by
  simp [createtimeText, longText_ne_nil]

theorem length_getAll_upsert {f : LibMetadata → LibMetadata} (hf : ∀ c, (f c).name = c.name)
    (h : (m.getAll k').length ≤ 1) : ((m.upsert k f).getAll k').length ≤ 1 := by
  by_cases hk : k = k'
  · subst hk
    rw [LibMetadata.getAll_upsert_self hf, List.length_cons, List.length_tail]
    omega
  · rwa [LibMetadata.getAll_upsert_of_ne hk hf]

theorem valued_of_mem_getAll {c : LibMetadata} (hm : m.valued = true) (hc : c ∈ m.getAll k) :
    c.valued = true :=
  (LibMetadata.valued_iff.mp hm).2 c (List.mem_of_mem_filter hc)

theorem valued_setParameter {k v : Bytes} (hv : v ≠ []) (hm : m.valued = true) :
    (m.setParameter k v).valued = true := by
  obtain ⟨hparams, hchildren⟩ := LibMetadata.valued_iff.mp hm
  refine LibMetadata.valued_iff.mpr ⟨fun p hp => ?_, hchildren⟩
  rcases AssocList.mem_set hp with rfl | hp
  · exact hv
  · exact hparams p hp

theorem mem_updateFirst {f : LibMetadata → LibMetadata} {c : LibMetadata} {cs : List LibMetadata}
    (h : c ∈ LibMetadata.updateFirst k f cs) : c ∈ cs ∨ ∃ e ∈ cs, c = f e := by
  induction cs with
  | nil => exact absurd h List.not_mem_nil
  | cons e cs ih =>
    rw [LibMetadata.updateFirst] at h
    split_ifs at h
    · rcases List.mem_cons.mp h with rfl | h
      · exact .inr ⟨e, List.mem_cons_self, rfl⟩
      · exact .inl (List.mem_cons_of_mem _ h)
    · rcases List.mem_cons.mp h with rfl | h
      · exact .inl List.mem_cons_self
      · rcases ih h with h | ⟨e', he', rfl⟩
        · exact .inl (List.mem_cons_of_mem _ h)
        · exact .inr ⟨e', List.mem_cons_of_mem _ he', rfl⟩

theorem valued_upsert {f : LibMetadata → LibMetadata}
    (hf : ∀ c : LibMetadata, c.valued = true → (f c).valued = true) (hm : m.valued = true) :
    (m.upsert k f).valued = true := by
  obtain ⟨hparams, hchildren⟩ := LibMetadata.valued_iff.mp hm
  unfold LibMetadata.upsert
  split
  · refine LibMetadata.valued_iff.mpr ⟨hparams, fun c hc => ?_⟩
    rcases mem_updateFirst hc with hc | ⟨e, he, rfl⟩
    · exact hchildren c hc
    · exact hf e (hchildren e he)
  · refine LibMetadata.valued_iff.mpr ⟨hparams, fun c hc => ?_⟩
    rcases List.mem_append.mp hc with hc | hc
    · exact hchildren c hc
    · rw [List.mem_singleton.mp hc]
      exact hf _ (by rfl)

theorem valued_setContent (s : Bytes) {c : LibMetadata} (h : c.valued = true) :
    (c.setContent s).valued = true := by
  obtain ⟨hparams, hchildren⟩ := LibMetadata.valued_iff.mp h
  exact LibMetadata.valued_iff.mpr ⟨hparams, hchildren⟩

theorem SingleData.putContent (h : SingleData dm) (k : Bytes) (c : Option Bytes) :
    SingleData (putContent k c dm) := by
  cases c with
  | none => exact h
  | some c =>
    exact ⟨valued_upsert (fun _ => valued_setContent c) h.1,
      fun k' => length_getAll_upsert (name_setContent c) (h.2 k')⟩

theorem take_decimal_ne_nil (n : ℕ) : (decimal n).take 19 ≠ [] := by
  intro h
  rcases List.take_eq_nil_iff.mp h with h | h
  · cases h
  · exact decimal_ne_nil n h

theorem SingleData.dataMetadata (h : SingleData dm) (d : LibDataObject) :
    SingleData (d.dataMetadata dm) := by
  have hlen : SingleData (dm.setParameter (lit "data_len") ((decimal d.datalen).take 19)) :=
    ⟨valued_setParameter (take_decimal_ne_nil _) h.1, h.2⟩
  exact (((hlen.putContent _ _).putContent _ _).putContent _ _).putContent _ _

theorem singleData_new : SingleData (.new (lit "Data") none) :=
  ⟨rfl, fun k => by simp [LibMetadata.getAll, LibMetadata.new]⟩

theorem params_stamped (d : LibDataObject) : d.stamped.parameters =
    let ps := AssocList.set (lit "persistent") (lit (if d.persistent then "yes" else "no"))
      d.m.parameters
    if d.createtime.sec ≠ 0 then
      AssocList.set (lit "create_time") (createtimeText d.createtime) ps else ps := by
  unfold stamped
  split_ifs <;> rfl

theorem mem_params_stamped {p : Bytes × Bytes} (hp : p ∈ d.stamped.parameters) :
    p.2 ≠ [] ∨ p ∈ d.m.parameters := by
  have hflag : lit (if d.persistent then "yes" else "no") ≠ [] := by
    cases d.persistent <;> decide
  have hset : ∀ {p : Bytes × Bytes}, p ∈ AssocList.set (lit "persistent")
      (lit (if d.persistent then "yes" else "no")) d.m.parameters →
        p.2 ≠ [] ∨ p ∈ d.m.parameters := by
    intro p hp
    rcases AssocList.mem_set hp with rfl | hp
    · exact .inl hflag
    · exact .inr hp
  rw [params_stamped] at hp
  by_cases ht : d.createtime.sec ≠ 0
  · simp only [if_pos ht] at hp
    rcases AssocList.mem_set hp with rfl | hp
    · exact .inl (createtimeText_ne_nil _)
    · exact hset hp
  · simp only [if_neg ht] at hp
    exact hset hp

/-- Writing leaves the root as it is after the stamp, but for the elements. -/
theorem metadata_fields (d : LibDataObject) : d.metadata.name = d.m.name ∧
    d.metadata.parameters = d.stamped.parameters ∧
      ∀ k, lit "Attr" ≠ k → d.metadata.getAll k = d.beforeAttributes.getAll k := by
  obtain ⟨hname, hparams, hall⟩ :=
    foldl_add_attributes d.al (d.beforeAttributes.removeAll (lit "Attr"))
  rw [← metadata_eq] at hname hparams
  have hroot : d.beforeAttributes.parameters = d.stamped.parameters ∧
      d.beforeAttributes.name = d.stamped.name := by
    unfold beforeAttributes
    split_ifs
    · obtain ⟨hp, hn, -⟩ := LibMetadata.parameters_upsert (lit "Data") d.dataMetadata d.stamped
      exact ⟨hp, hn⟩
    · exact ⟨rfl, rfl⟩
  have hstamped : d.stamped.name = d.m.name := by
    unfold stamped
    split_ifs <;> rfl
  refine ⟨hname.trans (hroot.2.trans hstamped), hparams.trans hroot.1, fun k hk => ?_⟩
  rw [metadata_eq, hall k, if_neg hk, List.append_nil, LibMetadata.getAll_removeAll, if_neg hk]

theorem getAll_stamped (d : LibDataObject) (k : Bytes) : d.stamped.getAll k = d.m.getAll k := by
  unfold stamped
  split_ifs <;> rfl

theorem getAll_metadata_of_ne (d : LibDataObject) (hd : lit "Data" ≠ k) (ha : lit "Attr" ≠ k) :
    d.metadata.getAll k = d.m.getAll k := by
  rw [(metadata_fields d).2.2 k ha, beforeAttributes]
  split_ifs
  · rw [LibMetadata.getAll_upsert_of_ne hd fun c => (dataMetadata_fields d c).1, getAll_stamped]
  · exact getAll_stamped d k

theorem Kept.stamped_time (h : d.Kept) {s : Bytes}
    (hs : d.stamped.getParameter (lit "create_time") = some s) :
    ∃ t : Timeval, t.sec ≠ 0 ∧ s = createtimeText t := by
  rw [LibMetadata.getParameter, params_stamped] at hs
  by_cases ht : d.createtime.sec ≠ 0
  · simp only [if_pos ht, AssocList.get_set_self] at hs
    exact ⟨d.createtime, ht, (Option.some.inj hs).symm⟩
  · simp only [if_neg ht] at hs
    rw [AssocList.get_set_of_ne (by decide)] at hs
    exact h.time s hs

theorem Kept.toMetadata (h : d.Kept) : Kept { d with m := d.metadata } := by
  obtain ⟨-, hparams, hall⟩ := metadata_fields d
  have hfirst : SingleData ((d.m.getAll (lit "Data")).headD (.new (lit "Data") none)) := by
    cases hm : d.m.getAll (lit "Data") with
    | nil => exact singleData_new
    | cons x xs => exact h.data x (by rw [hm]; exact List.mem_cons_self)
  have hkeep : ∀ c, (d.dataMetadata c).name = c.name := fun c => (dataMetadata_fields d c).1
  have hdata := hall (lit "Data") (by decide)
  refine ⟨fun p hp => ?_, fun s hs => ?_, ?_, ?_⟩
  · change p ∈ d.metadata.parameters at hp
    rw [hparams] at hp
    exact (mem_params_stamped hp).elim id (h.params p)
  · change AssocList.get d.metadata.parameters _ = _ at hs
    rw [hparams] at hs
    exact h.stamped_time hs
  · change (d.metadata.getAll (lit "Data")).length ≤ 1
    rw [hdata, beforeAttributes]
    split_ifs
    · exact length_getAll_upsert hkeep (by rw [getAll_stamped]; exact h.single)
    · rw [getAll_stamped]
      exact h.single
  · change ∀ dm ∈ d.metadata.getAll (lit "Data"), SingleData dm
    rw [hdata, beforeAttributes]
    split_ifs
    · intro dm hdm
      rw [LibMetadata.getAll_upsert_self hkeep, getAll_stamped] at hdm
      rcases List.mem_cons.mp hdm with rfl | hdm
      · exact hfirst.dataMetadata d
      · exact h.data dm (List.mem_of_mem_tail hdm)
    · rw [getAll_stamped]
      exact h.data

theorem Kept.new : Kept new where
  params p hp := absurd hp List.not_mem_nil
  time s hs := by cases hs
  single := Nat.zero_le _
  data dm hdm := by simp [LibDataObject.new, LibMetadata.getAll, LibMetadata.new] at hdm

theorem Kept.of_tree (h : d.Kept) (hm : d'.m = d.m) : d'.Kept :=
  ⟨hm ▸ h.params, hm ▸ h.time, hm ▸ h.single, hm ▸ h.data⟩

theorem Kept.call (h : d.Kept) {c : Call} (hc : d.call c = some d') : d'.Kept := by
  cases c with
  | addMetadata a =>
    cases hc
    have hne : a.element.name ≠ lit "Data" := fun hn => a.foreign (by simp [hn])
    have hall : (d.m.add a.element).getAll (lit "Data") = d.m.getAll (lit "Data") := by
      rw [LibMetadata.getAll_add, if_neg hne, List.append_nil]
    exact ⟨h.params, h.time, by rw [hall]; exact h.single, by rw [hall]; exact h.data⟩
  | addHash hash =>
    cases hc
    split_ifs
    · exact h.of_tree rfl
    · exact h
  | getRaw =>
    simp only [LibDataObject.call, LibDataObject.toMetadata] at hc
    split_ifs at hc
    cases hc
    exact h.toMetadata
  | _ =>
    cases hc
    exact h.of_tree rfl

theorem Built.kept (h : Built d) : d.Kept := by
  induction h with
  | new => exact Kept.new
  | newFromFile path len => exact Kept.new.of_tree rfl
  | call c _ hc ih => exact ih.call hc

/-! ## Writing again -/

theorem setParameter_eq_self {v : Bytes} (h : m.getParameter k = some v) :
    m.setParameter k v = m := by
  rw [LibMetadata.setParameter, AssocList.set_eq_self h]
  cases m
  rfl

theorem updateFirst_eq_self {f : LibMetadata → LibMetadata} {c : LibMetadata}
    {cs : List LibMetadata} (h : (cs.filter fun c => c.name = k).head? = some c) (hf : f c = c) :
    LibMetadata.updateFirst k f cs = cs := by
  induction cs with
  | nil => cases h
  | cons e cs ih =>
    rw [LibMetadata.updateFirst]
    by_cases he : e.name = k
    · rw [List.filter_cons_of_pos (by simpa using he), List.head?_cons] at h
      rw [if_pos he, Option.some.inj h, hf]
    · rw [List.filter_cons_of_neg (by simpa using he)] at h
      rw [if_neg he, ih h]

theorem upsert_eq_self {f : LibMetadata → LibMetadata} {c : LibMetadata} (h : m.get k = some c)
    (hf : f c = c) : m.upsert k f = m := by
  rw [LibMetadata.upsert, h]
  simp only
  rw [updateFirst_eq_self h hf]
  cases m
  rfl

/-- The first element of a name, if it is to have a content, has it. -/
def Holds (m : LibMetadata) (k : Bytes) (c : Option Bytes) : Prop :=
  ∀ s, c = some s → ∃ e, m.get k = some e ∧ e.content = some s

theorem holds_putContent_self (m : LibMetadata) (k : Bytes) (c : Option Bytes) :
    Holds (putContent k c m) k c := by
  rintro s rfl
  exact ⟨_, LibMetadata.get_upsert_self (name_setContent s) m, rfl⟩

theorem Holds.putContent_of_ne {c : Option Bytes} (h : Holds m k c) (hk : k' ≠ k)
    (c' : Option Bytes) : Holds (putContent k' c' m) k c := by
  cases c' with
  | none => exact h
  | some t =>
    intro s hs
    rw [LibDataObject.putContent, LibMetadata.get_upsert_of_ne hk (name_setContent t)]
    exact h s hs

theorem Holds.putContent_eq_self {c : Option Bytes} (h : Holds m k c) : putContent k c m = m := by
  cases c with
  | none => rfl
  | some s =>
    obtain ⟨e, he, hs⟩ := h s rfl
    apply upsert_eq_self he
    rw [LibMetadata.setContent, ← hs]
    cases e
    rfl

theorem dataMetadata_idem (d : LibDataObject) (dm : LibMetadata) :
    d.dataMetadata (d.dataMetadata dm) = d.dataMetadata dm := by
  have hhn : lit "FileHash" ≠ lit "FileName" := by decide
  have htn : lit "Thumbnail" ≠ lit "FileName" := by decide
  have hpn : lit "FilePath" ≠ lit "FileName" := by decide
  have hth : lit "Thumbnail" ≠ lit "FileHash" := by decide
  have hph : lit "FilePath" ≠ lit "FileHash" := by decide
  have hpt : lit "FilePath" ≠ lit "Thumbnail" := by decide
  have hlen : (d.dataMetadata dm).getParameter (lit "data_len") =
      some ((decimal d.datalen).take 19) := by
    rw [LibMetadata.getParameter, (dataMetadata_fields d dm).2.2, AssocList.get_set_self]
  have hname : Holds (d.dataMetadata dm) (lit "FileName") d.filename :=
    (((holds_putContent_self _ _ _).putContent_of_ne hhn _).putContent_of_ne htn _).putContent_of_ne
      hpn _
  have hhash : Holds (d.dataMetadata dm) (lit "FileHash")
      (d.hash.map fun h => Base64.encode h.1) :=
    ((holds_putContent_self _ _ _).putContent_of_ne hth _).putContent_of_ne hph _
  have hthumbnail : Holds (d.dataMetadata dm) (lit "Thumbnail") d.thumbnail :=
    (holds_putContent_self _ _ _).putContent_of_ne hpt _
  have hpath : Holds (d.dataMetadata dm) (lit "FilePath") d.filepath := holds_putContent_self _ _ _
  generalize d.dataMetadata dm = x at hlen hname hhash hthumbnail hpath
  rw [LibDataObject.dataMetadata, setParameter_eq_self hlen, hname.putContent_eq_self,
    hhash.putContent_eq_self, hthumbnail.putContent_eq_self, hpath.putContent_eq_self]

theorem foldl_add_eq (al : List Attribute) (m : LibMetadata) :
    al.foldl (fun m a => m.add (attributeMetadata a)) m =
      { m with children := m.children ++ al.map attributeMetadata } := by
  induction al generalizing m with
  | nil =>
    cases m
    simp
  | cons a al ih =>
    rw [List.foldl_cons, ih]
    simp [LibMetadata.add]

theorem removeAll_metadata (d : LibDataObject) :
    d.metadata.removeAll (lit "Attr") = d.beforeAttributes.removeAll (lit "Attr") := by
  have hattrs : (d.al.map attributeMetadata).filter (fun c => c.name ≠ lit "Attr") = [] := by
    rw [List.filter_eq_nil_iff]
    intro c hc
    obtain ⟨a, -, rfl⟩ := List.mem_map.mp hc
    simp [name_attributeMetadata]
  rw [metadata_eq, foldl_add_eq]
  simp only [LibMetadata.removeAll, List.filter_append, hattrs, List.append_nil,
    List.filter_filter, Bool.and_self]

theorem getParameter_persistent (d : LibDataObject) :
    d.metadata.getParameter (lit "persistent") =
      some (lit (if d.persistent then "yes" else "no")) := by
  have hne : lit "create_time" ≠ lit "persistent" := by decide
  rw [LibMetadata.getParameter, (metadata_fields d).2.1, params_stamped]
  by_cases ht : d.createtime.sec ≠ 0
  · simp only [if_pos ht]
    rw [AssocList.get_set_of_ne hne, AssocList.get_set_self]
  · simp only [if_neg ht]
    rw [AssocList.get_set_self]

theorem getParameter_createTime (d : LibDataObject) :
    d.metadata.getParameter (lit "create_time") =
      if d.createtime.sec ≠ 0 then some (createtimeText d.createtime)
      else d.m.getParameter (lit "create_time") := by
  rw [LibMetadata.getParameter, (metadata_fields d).2.1, params_stamped]
  by_cases ht : d.createtime.sec ≠ 0
  · simp only [if_pos ht]
    rw [AssocList.get_set_self]
  · simp only [if_neg ht]
    rw [AssocList.get_set_of_ne (by decide), LibMetadata.getParameter]

theorem stamped_idem (d : LibDataObject) :
    LibDataObject.stamped { d with m := d.metadata } = d.metadata := by
  rw [LibDataObject.stamped]
  simp only [setParameter_eq_self (getParameter_persistent d)]
  by_cases ht : d.createtime.sec ≠ 0
  · have htime := getParameter_createTime d
    rw [if_pos ht] at htime
    rw [if_pos ht, setParameter_eq_self htime]
  · rw [if_neg ht]

theorem metadata_idem (d : LibDataObject) :
    LibDataObject.metadata { d with m := d.metadata } = d.metadata := by
  have hkeep : ∀ c, (d.dataMetadata c).name = c.name := fun c => (dataMetadata_fields d c).1
  have hbefore : LibDataObject.beforeAttributes { d with m := d.metadata } = d.metadata := by
    rw [LibDataObject.beforeAttributes, stamped_idem]
    by_cases hd : d.hasData = true
    · have hget : d.metadata.get (lit "Data") =
          some (d.dataMetadata ((d.stamped.get (lit "Data")).getD (.new (lit "Data") none))) := by
        rw [LibMetadata.get, (metadata_fields d).2.2 _ (by decide), beforeAttributes, if_pos hd]
        exact LibMetadata.get_upsert_self hkeep d.stamped
      have hsame := upsert_eq_self hget (dataMetadata_idem d _)
      exact (if_pos hd).trans hsame
    · exact if_neg hd
  rw [metadata_eq, hbefore, removeAll_metadata, ← metadata_eq]

theorem toMetadata_idem {d₁ : LibDataObject} (h : d.toMetadata = some d₁) :
    d₁.toMetadata = some d₁ := by
  rw [toMetadata] at h
  split_ifs at h with hfits
  obtain rfl := Option.some.inj h
  have hfits' : Fits { d with m := d.metadata } := hfits
  rw [toMetadata, if_pos hfits', metadata_idem]

end Trees

end LibDataObject
end Haggle
