import Haggle.ObjectReceive

/-!
# Objects that are parsed

An object that comes from an application, from another node or from the data store is parsed from
metadata. If the parsing is not left at the file path, the object ends with attributes that do not
match each other, and with the identifier of what it holds.
-/

namespace Haggle

open Metadata

namespace DataObject

/-- An object with metadata whose identifier is that of what it holds. -/
structure Identified (pf : Platform) (o : DataObject) : Prop where
  metadata : ∃ m, o.metadata = some m ∧ m.Valid ∧ m.name = lit "Haggle"
  attrs : o.attrs.Apart
  hash : o.dataHash.length = 20
  id : o.id = (calcId pf o).id

/-- An object with the metadata `m` and data of the length `n` that has no attributes yet. -/
structure Unparsed (c : PlainChar) (m : Metadata) (n : ℕ) (o : DataObject) : Prop where
  metadata : o.metadata = some m
  attrs : o.attrs = HashMap.empty c
  dataLen : o.dataLen = n
  hash : o.dataHash.length = 20

section Parse

variable {c : PlainChar} {m : Metadata} {n : ℕ} {o : DataObject}

theorem unparsed_head (pf : Platform) (h : Unparsed c m n o) :
    Unparsed c m n (parseKind m (parseCreateTime pf m (parsePersistent m o))) := by
  have hpersist : Unparsed c m n (parsePersistent m o) := by
    unfold parsePersistent
    split
    · exact h
    · split_ifs <;> exact ⟨h.metadata, h.attrs, h.dataLen, h.hash⟩
  have htime : Unparsed c m n (parseCreateTime pf m (parsePersistent m o)) := by
    unfold parseCreateTime
    split
    · exact hpersist
    · exact ⟨hpersist.metadata, hpersist.attrs, hpersist.dataLen, hpersist.hash⟩
  exact ⟨htime.metadata, htime.attrs, htime.dataLen, htime.hash⟩

theorem unparsed_parseSignature (h : Unparsed c m n o) : Unparsed c m n (parseSignature m o).1 := by
  unfold parseSignature
  split_ifs
  · exact h
  · split
    · exact h
    · dsimp only
      split <;> exact ⟨h.metadata, h.attrs, h.dataLen, h.hash⟩

theorem length_dataHash_parseFileHash {dm : Metadata} (h : o.dataHash.length = 20) :
    (parseFileHash dm o).dataHash.length = 20 := by
  unfold parseFileHash
  split_ifs
  · exact h
  · split
    · exact h
    · rename_i x _
      have hlen : (Base64.decode x.content 20).2.length ≤ 20 := List.length_take_le _ _
      dsimp only
      split_ifs <;>
      · rw [List.length_append, List.length_drop, h]
        omega

/-- The path takes the object and its element to others of the same kind. -/
theorem parseFilePath_fields (fs : FileSystem) (fromNetwork : Bool) {dm : Metadata}
    (hdm : dm.Valid) (o : DataObject) :
    (parseFilePath fs fromNetwork dm o).1.attrs = o.attrs ∧
      (parseFilePath fs fromNetwork dm o).1.dataHash = o.dataHash ∧
      (parseFilePath fs fromNetwork dm o).2.1.Valid ∧
      (parseFilePath fs fromNetwork dm o).2.1.name = dm.name := by
  have hset : ∀ p len, (setFilePath fs o p len fromNetwork).1.attrs = o.attrs ∧
      (setFilePath fs o p len fromNetwork).1.dataHash = o.dataHash := by
    intro p len
    unfold setFilePath
    cases fromNetwork with
    | true => exact ⟨rfl, rfl⟩
    | false => cases fs.read p <;> (dsimp only; split_ifs <;> exact ⟨rfl, rfl⟩)
  unfold parseFilePath
  split
  · exact ⟨rfl, rfl, hdm, rfl⟩
  · rename_i p _
    have h := hset p.content o.dataLen
    generalize setFilePath fs o p.content o.dataLen fromNetwork = r at h ⊢
    obtain ⟨o', ok⟩ := r
    cases ok with
    | false => exact ⟨h.1, h.2, hdm, rfl⟩
    | true =>
      dsimp only
      split_ifs
      · exact ⟨h.1, h.2, valid_removeMetadata (valid_addMetadata hdm (valid_new _ _)) _, rfl⟩
      · exact ⟨h.1, h.2, valid_removeMetadata hdm _, rfl⟩

/-- The path of the `Data` element is one that `setFilePath` accepts. -/
def PathAccepted (fs : FileSystem) (fromNetwork : Bool) (m : Metadata) (o : DataObject) : Prop :=
  ∀ dm p, m.getMetadata (lit "Data") = some dm → dm.getMetadata (lit "FilePath") = some p →
    (setFilePath fs o p.content (readLength dm o) fromNetwork).2 = true

theorem snd_setFilePath (fs : FileSystem) (o o' : DataObject) (p : Bytes) (len : ℕ)
    (fromNetwork : Bool) :
    (setFilePath fs o p len fromNetwork).2 = (setFilePath fs o' p len fromNetwork).2 := by
  unfold setFilePath
  cases fromNetwork with
  | true => rfl
  | false => cases fs.read p <;> (dsimp only; split_ifs <;> rfl)

/-- The `Data` element is parsed to its end, into metadata with the same attributes. -/
theorem parseData_end {fs : FileSystem} {fromNetwork : Bool} (hm : m.Valid)
    (hname : m.name = lit "Haggle") (h : Unparsed c m n o)
    (hpath : PathAccepted fs fromNetwork m o) :
    ∃ o' m' n', parseData fs fromNetwork m o = (o', true) ∧ Unparsed c m' n' o' ∧ m'.Valid ∧
      m'.name = lit "Haggle" := by
  unfold parseData
  cases hd : m.getMetadata (lit "Data") with
  | none => exact ⟨o, m, n, rfl, h, hm, hname⟩
  | some dm =>
    obtain ⟨hdname, hdm⟩ := mem_getAll hm (List.mem_of_mem_head? hd)
    have hlen : (parseFileName dm (parseDataLen dm o)).dataLen = readLength dm o := by
      unfold parseDataLen readLength
      rw [parseFileName_eq]
      cases dm.getParameter (lit "data_len") <;> rfl
    have hkept : (parseFileName dm (parseDataLen dm o)).attrs = o.attrs ∧
        (parseFileName dm (parseDataLen dm o)).dataHash = o.dataHash := by
      unfold parseDataLen
      rw [parseFileName_eq]
      cases dm.getParameter (lit "data_len") <;> exact ⟨rfl, rfl⟩
    have hok : (parseFilePath fs fromNetwork dm (parseFileName dm (parseDataLen dm o))).2.2 =
        true := by
      have hset : ∀ p, dm.getMetadata (lit "FilePath") = some p →
          (setFilePath fs (parseFileName dm (parseDataLen dm o)) p.content
            (parseFileName dm (parseDataLen dm o)).dataLen fromNetwork).2 = true := by
        intro p hp
        rw [hlen, snd_setFilePath fs _ o]
        exact hpath dm p hd hp
      unfold parseFilePath
      split
      · rfl
      · rename_i p hp
        have h := hset p hp
        generalize setFilePath fs (parseFileName dm (parseDataLen dm o)) p.content
          (parseFileName dm (parseDataLen dm o)).dataLen fromNetwork = r at h ⊢
        obtain ⟨o', ok⟩ := r
        obtain rfl : ok = true := h
        dsimp only
        split_ifs <;> rfl
    obtain ⟨hattrs, hhash, hvalid, hdname'⟩ :=
      parseFilePath_fields fs fromNetwork hdm (parseFileName dm (parseDataLen dm o))
    dsimp only
    generalize parseFilePath fs fromNetwork dm (parseFileName dm (parseDataLen dm o)) = r at *
    obtain ⟨o', dm', ok⟩ := r
    obtain rfl : ok = true := hok
    have hfields := parseFileHash_fields dm'
      { o' with metadata := some (m.updateMetadata (lit "Data") fun _ => dm') }
    have hhash' : o'.dataHash.length = 20 :=
      (congrArg List.length (hhash.trans hkept.2)).trans h.hash
    refine ⟨_, m.updateMetadata (lit "Data") fun _ => dm', _, rfl, ⟨hfields.2.2.1, ?_, rfl, ?_⟩, ?_,
      hname⟩
    · exact hfields.1.trans (hattrs.trans (hkept.1.trans h.attrs))
    · exact length_dataHash_parseFileHash hhash'
    · exact valid_updateMetadata_of_name hm fun _ _ _ => ⟨hvalid, hdname'.trans hdname⟩

theorem parseAttributes_fields (m : Metadata) (o : DataObject) :
    (parseAttributes m o).metadata = o.metadata ∧ (parseAttributes m o).dataHash = o.dataHash := by
  have hadd : ∀ (l : List Attribute) (x : DataObject), (l.foldl addParsed x).metadata = x.metadata ∧
      (l.foldl addParsed x).dataHash = x.dataHash := by
    intro l
    induction l with
    | nil => exact fun x => ⟨rfl, rfl⟩
    | cons a l ih =>
      intro x
      have hstep : (addParsed x a).metadata = x.metadata ∧
          (addParsed x a).dataHash = x.dataHash := by
        unfold addParsed
        dsimp only
        split_ifs <;> exact ⟨rfl, rfl⟩
      exact ⟨(ih _).1.trans hstep.1, (ih _).2.trans hstep.2⟩
  exact hadd _ o

/-- An object whose metadata is parsed to the end has the identifier of what it holds. -/
theorem identified_parseMetadata {pf : Platform} {fs : FileSystem} {fromNetwork : Bool}
    (hm : m.Valid) (hname : m.name = lit "Haggle") (h : Unparsed c m n o)
    (hpath : PathAccepted fs fromNetwork m o)
    (hok : (parseMetadata pf fs o fromNetwork).2 = true) :
    Identified pf (parseMetadata pf fs o fromNetwork).1 := by
  have hhead := unparsed_parseSignature (unparsed_head pf h)
  unfold parseMetadata at hok ⊢
  simp only [h.metadata] at hok ⊢
  generalize parseSignature m
    (parseKind m (parseCreateTime pf m (parsePersistent m o))) = r at *
  obtain ⟨o1, ok⟩ := r
  cases ok with
  | false => exact absurd hok Bool.false_ne_true
  | true =>
    have hpath1 : PathAccepted fs fromNetwork m o1 := by
      intro dm p hd hp
      have hread : readLength dm o1 = readLength dm o := by
        rw [readLength, readLength, hhead.dataLen, h.dataLen]
      rw [hread, snd_setFilePath fs o1 o]
      exact hpath dm p hd hp
    obtain ⟨o2, m2, n2, heq, hun, hvalid, hname2⟩ := parseData_end hm hname hhead hpath1
    simp only [heq, hun.metadata, Option.getD_some]
    obtain ⟨hmeta, hhash⟩ := parseAttributes_fields m2 o2
    refine ⟨⟨m2, hmeta.trans hun.metadata, hvalid, hname2⟩, ?_,
      (congrArg List.length hhash).trans hun.hash, rfl⟩
    obtain ⟨hwf, hdistinct, -⟩ := foldl_addParsed_distinct
      ((m2.getAll (lit "Attr")).map attributeOf) hun.attrs
    exact ⟨hwf, hdistinct⟩

end Parse

end DataObject
end Haggle
