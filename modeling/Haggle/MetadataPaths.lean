import Haggle.ObjectSerialise

/-!
# File paths in metadata

A file path is an element of metadata, at any depth. What an operation does to the paths is said for
each key of the registry: whether an element of that name is a path or has one inside.
-/

namespace Haggle
namespace HashMap

variable {K V : Type} [DecidableEq K] [Hash K]

theorem foldl_insert (l : List (K × V)) {m : HashMap K V} (hm : m.WF) :
    (l.foldl insert m).WF ∧ ∀ k, (l.foldl insert m).values k =
      m.values k ++ (l.filter (fun e => e.1 = k)).map Prod.snd := by
  induction l generalizing m with
  | nil => exact ⟨hm, fun k => by simp⟩
  | cons p l ih =>
    obtain ⟨hwf, hval⟩ := ih (wf_insert hm p)
    refine ⟨hwf, fun k => ?_⟩
    rw [List.foldl_cons, hval k, values_insert hm p k, List.append_assoc, List.filter_cons]
    split_ifs <;> simp_all

theorem values_ofList (l : List (K × V)) (k : K) {c : PlainChar} :
    (ofList l c).values k = (l.filter (fun e => e.1 = k)).map Prod.snd := by
  have hnil : (empty c : HashMap K V).values k = [] := by
    simp [values, empty, toList_ofTableSize]
  rw [ofList, (foldl_insert l wf_empty).2 k, hnil, List.nil_append]

omit [Hash K] in
theorem mem_toList_iff {m : HashMap K V} {k : K} {v : V} :
    (k, v) ∈ m.toList ↔ v ∈ m.values k := by
  simp [values]

end HashMap

namespace Metadata

mutual

/-- The copy constructor: the copies of the children are put into a new registry. -/
def copy : Metadata → Metadata
  | ⟨n, c, ps, r⟩ => ⟨n, c, ps, HashMap.ofList (copyRegistry r) r.plainChar⟩

def copyRegistry : HashMap Bytes Metadata → List (Bytes × Metadata)
  | ⟨_, t, _⟩ => copyTable t

def copyTable : List (List (Bytes × Metadata)) → List (Bytes × Metadata)
  | [] => []
  | b :: t => copyBucket b ++ copyTable t

def copyBucket : List (Bytes × Metadata) → List (Bytes × Metadata)
  | [] => []
  | e :: b => copyEntry e :: copyBucket b

def copyEntry : Bytes × Metadata → Bytes × Metadata
  | (_, m) => (m.name, copy m)

end

theorem copyRegistry_eq (r : HashMap Bytes Metadata) :
    copyRegistry r = r.toList.map fun e => (e.2.name, copy e.2) := by
  have hbucket : ∀ b, copyBucket b = b.map fun e => (e.2.name, copy e.2) := by
    intro b
    induction b with
    | nil => rfl
    | cons e b ih => rw [copyBucket, ih, List.map_cons, copyEntry]
  have htable : ∀ t, copyTable t = t.flatten.map fun e => (e.2.name, copy e.2) := by
    intro t
    induction t with
    | nil => rfl
    | cons b t ih => rw [copyTable, ih, hbucket, List.flatten_cons, List.map_append]
  cases r with
  | mk size table c => rw [copyRegistry, htable, HashMap.toList]

theorem copy_fields (m : Metadata) : m.copy.name = m.name ∧ m.copy.params = m.params ∧
    m.copy.registry =
      HashMap.ofList (m.registry.toList.map fun e => (e.2.name, copy e.2)) m.plainChar := by
  cases m with
  | mk n c ps r => rw [← copyRegistry_eq, copy]; exact ⟨rfl, rfl, rfl⟩

theorem getAll_copy {m : Metadata} (hm : m.Valid) (k : Bytes) :
    m.copy.getAll k = (m.getAll k).map copy := by
  have hwf := (HashMap.foldl_insert (m.registry.toList.map fun e => (e.2.name, copy e.2))
    (HashMap.wf_empty (c := m.plainChar))).1
  have hreg := (copy_fields m).2.2
  rw [getAll_eq_values (by rw [hreg]; exact hwf), getAll_eq_values hm.wf, hreg,
    HashMap.values_ofList, List.filter_map, List.map_map, HashMap.values, List.map_map]
  have hkeys : m.registry.toList.filter
        ((fun e => decide (e.1 = k)) ∘ fun e => (e.2.name, copy e.2)) =
      m.registry.toList.filter fun e => decide (e.1 = k) := by
    apply List.filter_congr
    intro e he
    simp only [Function.comp_apply, (hm.children e he).1]
  rw [hkeys]
  rfl

theorem valid_copy {m : Metadata} (hm : m.Valid) : m.copy.Valid := by
  induction hm with
  | mk m params wf keys children ih =>
    obtain ⟨-, hparams, hreg⟩ := copy_fields m
    have hwf := (HashMap.foldl_insert (m.registry.toList.map fun e => (e.2.name, copy e.2))
      (HashMap.wf_empty (c := m.plainChar))).1
    refine Valid.of_children (hparams ▸ params) (hreg ▸ hwf) fun e he => ?_
    obtain ⟨k, c⟩ := e
    rw [hreg, HashMap.mem_toList_iff, HashMap.values_ofList] at he
    obtain ⟨⟨j, d⟩, hd, rfl⟩ := List.mem_map.mp he
    obtain ⟨hmem, hk⟩ := List.mem_filter.mp hd
    obtain ⟨x, hx, heq⟩ := List.mem_map.mp hmem
    obtain ⟨rfl, rfl⟩ := Prod.mk.inj heq
    exact ⟨(of_decide_eq_true hk).symm.trans (copy_fields x.2).1.symm, ih x hx⟩

/-- There is an element `FilePath` inside. -/
inductive HoldsPath : Metadata → Prop
  | here {m : Metadata} {e : Bytes × Metadata} (h : e ∈ m.registry.toList)
      (hname : e.2.name = lit "FilePath") : HoldsPath m
  | deeper {m : Metadata} {e : Bytes × Metadata} (h : e ∈ m.registry.toList)
      (hd : HoldsPath e.2) : HoldsPath m

/-- There is one in an element of this name, or that element is one. -/
def HoldsAt (m : Metadata) (k : Bytes) : Prop :=
  ∃ c ∈ m.getAll k, k = lit "FilePath" ∨ HoldsPath c

section Paths

variable {m c : Metadata} {k k' : Bytes} {f : Metadata → Metadata}

theorem holdsPath_iff (hm : m.Valid) : m.HoldsPath ↔ ∃ k, m.HoldsAt k := by
  have hmem : ∀ k c, (k, c) ∈ m.registry.toList ↔ c ∈ m.getAll k := by
    intro k c
    rw [getAll_eq_values hm.wf, HashMap.mem_toList_iff]
  constructor
  · intro h
    cases h with
    | @here _ e he hname =>
      exact ⟨e.1, e.2, (hmem _ _).mp he, .inl ((hm.children e he).1.trans hname)⟩
    | @deeper _ e he hd => exact ⟨e.1, e.2, (hmem _ _).mp he, .inr hd⟩
  · rintro ⟨k, c, hc, rfl | hd⟩
    · exact .here ((hmem _ c).mpr hc) (mem_getAll hm hc).1
    · exact .deeper ((hmem k c).mpr hc) hd

theorem holdsAt_of_getAll {cs : List Metadata} (h : m.getAll k = c :: cs)
    (hc : k = lit "FilePath" ∨ c.HoldsPath) : m.HoldsAt k :=
  ⟨c, h ▸ List.mem_cons_self, hc⟩

theorem holdsAt_of_registry {m' : Metadata} (h : m'.registry = m.registry) (k : Bytes) :
    m'.HoldsAt k ↔ m.HoldsAt k := by
  rw [HoldsAt, getAll, h]
  rfl

theorem holdsPath_of_registry {m' : Metadata} (hm : m.Valid) (hm' : m'.Valid)
    (h : m'.registry = m.registry) : m'.HoldsPath ↔ m.HoldsPath := by
  rw [holdsPath_iff hm, holdsPath_iff hm']
  exact exists_congr fun k => holdsAt_of_registry h k

theorem not_holdsAt_new (name content k : Bytes) {c : PlainChar} :
    ¬(new name content c).HoldsAt k := by
  rintro ⟨c, hc, -⟩
  rw [getAll_new] at hc
  cases hc

theorem not_holdsPath_new (name content : Bytes) {c : PlainChar} :
    ¬(new name content c).HoldsPath := fun h => by
  obtain ⟨k, hk⟩ := (holdsPath_iff (valid_new name content)).mp h
  exact not_holdsAt_new name content k hk

theorem holdsAt_addMetadata (hm : m.Valid) (c : Metadata) (k : Bytes) :
    (m.addMetadata c).HoldsAt k ↔
      m.HoldsAt k ∨ c.name = k ∧ (k = lit "FilePath" ∨ c.HoldsPath) := by
  rw [HoldsAt, getAll_addMetadata hm]
  by_cases hk : c.name = k
  · rw [if_pos hk]
    simp only [List.mem_append, List.mem_singleton, or_and_right, exists_or, exists_eq_left,
      HoldsAt, hk, true_and]
  · rw [if_neg hk, List.append_nil]
    simp only [HoldsAt, hk, false_and, or_false]

theorem holdsAt_removeMetadata (hm : m.Valid) (k k' : Bytes) :
    (m.removeMetadata k).HoldsAt k' ↔ k' ≠ k ∧ m.HoldsAt k' := by
  rw [HoldsAt, getAll_removeMetadata hm]
  by_cases hk : k = k'
  · simp [hk]
  · rw [if_neg hk, and_iff_right (Ne.symm hk)]
    rfl

/-- A change of an element that leaves its paths alone. -/
def KeepsPaths (f : Metadata → Metadata) : Prop :=
  Keeps f ∧ ∀ c, c.Valid → ((f c).HoldsPath ↔ c.HoldsPath)

theorem KeepsPaths.comp {g : Metadata → Metadata} (hg : KeepsPaths g) (hf : KeepsPaths f) :
    KeepsPaths fun c => g (f c) := by
  refine ⟨fun c hc => ?_, fun c hc => ?_⟩
  · have hfc := hf.1 c hc
    exact ⟨(hg.1 _ hfc.1).1, (hg.1 _ hfc.1).2.trans hfc.2⟩
  · exact (hg.2 _ (hf.1 c hc).1).trans (hf.2 c hc)

theorem keepsPaths_setContent (s : Bytes) : KeepsPaths (·.setContent s) :=
  ⟨keeps_setContent s, fun _ hc => holdsPath_of_registry hc (valid_setContent hc s) rfl⟩

theorem keepsPaths_setParameter (k v : Bytes) : KeepsPaths (·.setParameter k v) :=
  ⟨keeps_setParameter k v, fun _ hc => holdsPath_of_registry hc (valid_setParameter hc k v) rfl⟩

theorem holdsAt_updateMetadata (hm : m.Valid) (k k' : Bytes) (hf : KeepsPaths f) :
    (m.updateMetadata k f).HoldsAt k' ↔ m.HoldsAt k' := by
  rw [HoldsAt, getAll_updateMetadata hm]
  split_ifs with hk
  · have hvalid : ∀ c ∈ m.getAll k', c.Valid := fun c hc => (mem_getAll hm hc).2
    unfold HoldsAt
    cases hall : m.getAll k' with
    | nil => rfl
    | cons c cs =>
      rw [hall] at hvalid
      simp only [List.modifyHead_cons, List.exists_mem_cons_iff,
        hf.2 c (hvalid c List.mem_cons_self)]
  · rfl

theorem holdsAt_upsert (hm : m.Valid) (hk : k ≠ lit "FilePath") (hf : KeepsPaths f) (k' : Bytes) :
    (m.upsert k f).HoldsAt k' ↔ m.HoldsAt k' := by
  unfold upsert
  split
  · exact holdsAt_updateMetadata hm k k' hf
  · have hnew := (hf.2 _ (valid_new k [] (c := m.plainChar))).not.mpr (not_holdsPath_new k [])
    have hname : (f (new k [] m.plainChar)).name = k := (hf.1 _ (valid_new k [])).2
    rw [holdsAt_addMetadata hm, hname]
    constructor
    · rintro (h | ⟨rfl, h | h⟩)
      · exact h
      · exact absurd h hk
      · exact absurd h hnew
    · exact .inl

theorem keepsPaths_putContent {k : Bytes} (hk : k ≠ lit "FilePath") (c : Bytes) :
    KeepsPaths (DataObject.putContent k c) := by
  refine ⟨DataObject.keeps_putContent k c, fun m hm => ?_⟩
  rw [holdsPath_iff hm, holdsPath_iff (DataObject.keeps_putContent k c m hm).1,
    DataObject.putContent_eq]
  exact exists_congr fun k' => holdsAt_upsert hm hk (keepsPaths_setContent c) k'

theorem holdsAt_map (hm : m.Valid) {g : Metadata → Metadata}
    (hg : ∀ e ∈ m.registry.toList, (g e.2).HoldsPath ↔ e.2.HoldsPath)
    (hall : ∀ k, c.getAll k = (m.getAll k).map g) (k : Bytes) : c.HoldsAt k ↔ m.HoldsAt k := by
  have hmem : ∀ d ∈ m.getAll k, (k, d) ∈ m.registry.toList := by
    intro d hd
    rwa [getAll_eq_values hm.wf, ← HashMap.mem_toList_iff] at hd
  rw [HoldsAt, hall]
  simp only [List.mem_map, exists_exists_and_eq_and]
  refine exists_congr fun d => and_congr_right fun hd => ?_
  rw [hg _ (hmem d hd)]

theorem holdsPath_copy (hm : m.Valid) : m.copy.HoldsPath ↔ m.HoldsPath := by
  induction hm with
  | mk m params wf keys children ih =>
    have hm : m.Valid := ⟨m, params, wf, keys, children⟩
    rw [holdsPath_iff hm, holdsPath_iff (valid_copy hm)]
    exact exists_congr (holdsAt_map hm ih (getAll_copy hm))

theorem holdsAt_copy (hm : m.Valid) (k : Bytes) : m.copy.HoldsAt k ↔ m.HoldsAt k :=
  holdsAt_map hm (fun e he => holdsPath_copy (hm.children e he).2) (getAll_copy hm) k

end Paths

end Metadata
end Haggle
