import Haggle.DataObject

/-!
# What the parser leaves alone

The parser sets the fields of a data object one after the other. A property that survives each of
these assignments survives `parseMetadata`.
-/

namespace Haggle.DataObject

/-- A property that no part of the parser breaks, whatever it finds. -/
structure Stable (P : DataObject → Prop) : Prop where
  persistent : ∀ {o} b, P o → P { o with persistent := b }
  createTime : ∀ {o} t, P o → P { o with createTime := t }
  kind : ∀ {o} n c, P o → P { o with isNodeDesc := n, controlMessage := c }
  signature : ∀ {o} s sig, P o → P { o with signee := s, signature := sig }
  unverified : ∀ {o}, P o → P { o with signatureStatus := .unverified }
  file : ∀ {o} name path len, P o → P { o with filename := name, filepath := path, dataLen := len }
  metadata : ∀ {o} m, P o → P { o with metadata := some m }
  hash : ∀ {o} h st, P o → P { o with dataHash := h, dataState := st }
  attrs : ∀ {o} as, P o → P { o with attrs := as }
  id : ∀ {o} i, P o → P { o with id := i }

namespace Stable

variable {P : DataObject → Prop} (h : Stable P)
include h

theorem parseSignature (m : Metadata) {o : DataObject} (ho : P o) :
    P (parseSignature m o).1 := by
  unfold DataObject.parseSignature
  split_ifs
  · exact ho
  · split
    · exact ho
    · dsimp only
      split
      · exact h.signature _ _ ho
      · exact h.unverified (h.signature _ _ ho)

theorem parseHead (pf : Platform) (m : Metadata) {o : DataObject} (ho : P o) :
    P (parseKind m (parseCreateTime pf m (parsePersistent m o))) := by
  apply h.kind
  have hp : P (parsePersistent m o) := by
    unfold parsePersistent
    split
    · exact ho
    · split_ifs
      · exact h.persistent _ ho
      · exact h.persistent _ ho
      · exact ho
  unfold parseCreateTime
  split
  · exact hp
  · exact h.createTime _ hp

theorem parseFilePath (fs : FileSystem) (fromNetwork : Bool) (dm : Metadata) {o : DataObject}
    (ho : P o) : P (parseFilePath fs fromNetwork dm o).1 := by
  have hset : ∀ path len, P (setFilePath fs o path len fromNetwork).1 := by
    intro path len
    unfold setFilePath
    dsimp only
    split_ifs
    · exact h.file o.filename path len ho
    · split
      · exact h.file o.filename path len ho
      · exact h.file o.filename path _ ho
    · split
      · exact h.file o.filename path len ho
      · exact h.file o.filename path len ho
  unfold DataObject.parseFilePath
  split
  · exact ho
  · rename_i m _
    have hm := hset m.content o.dataLen
    split
    · rename_i heq
      rw [heq] at hm
      exact hm
    · rename_i o' heq
      rw [heq] at hm
      split_ifs
      · exact h.file _ o'.filepath o'.dataLen hm
      · exact hm

theorem parseDataLen (dm : Metadata) {o : DataObject} (ho : P o) : P (parseDataLen dm o) := by
  unfold DataObject.parseDataLen
  split
  · exact ho
  · exact h.file o.filename o.filepath _ ho

theorem parseFileName (dm : Metadata) {o : DataObject} (ho : P o) : P (parseFileName dm o) := by
  unfold DataObject.parseFileName
  split
  · exact ho
  · exact h.file _ o.filepath o.dataLen ho

theorem parseFileHash (dm : Metadata) {o : DataObject} (ho : P o) : P (parseFileHash dm o) := by
  unfold DataObject.parseFileHash
  split_ifs
  · exact ho
  · split
    · exact ho
    · dsimp only
      split_ifs
      · exact h.hash _ _ ho
      · exact h.hash _ (DataObject.dataState _) ho

theorem parseData (fs : FileSystem) (fromNetwork : Bool) (m : Metadata) {o : DataObject}
    (ho : P o) : P (parseData fs fromNetwork m o).1 := by
  unfold DataObject.parseData
  split
  · exact ho
  · rename_i dm _
    have hfile := h.parseFilePath fs fromNetwork dm (h.parseFileName dm (h.parseDataLen dm ho))
    dsimp only
    split_ifs
    · exact h.parseFileHash _ (h.metadata _ hfile)
    · exact h.metadata _ hfile

theorem parseAttributes (m : Metadata) {o : DataObject} (ho : P o) : P (parseAttributes m o) := by
  unfold DataObject.parseAttributes
  generalize (m.getAll (lit "Attr")).map attributeOf = as
  induction as generalizing o with
  | nil => exact ho
  | cons a as ih =>
    refine ih ?_
    have hkind : P { o with
        isNodeDesc := o.isNodeDesc || decide (a.name = lit "NodeDescription") } :=
      h.kind _ o.controlMessage ho
    rw [addParsed]
    dsimp only
    split_ifs
    · exact hkind
    · exact h.attrs _ hkind

theorem parseMetadata (pf : Platform) (fs : FileSystem) (fromNetwork : Bool) {o : DataObject}
    (ho : P o) : P (parseMetadata pf fs o fromNetwork).1 := by
  unfold DataObject.parseMetadata
  split
  · exact ho
  · rename_i m _
    have hsig := h.parseSignature m (h.parseHead pf m ho)
    split
    · rename_i heq
      rw [heq] at hsig
      exact hsig
    · rename_i heq
      rw [heq] at hsig
      have hdata := h.parseData fs fromNetwork m hsig
      split
      · rename_i heq'
        rw [heq'] at hdata
        exact hdata
      · rename_i heq'
        rw [heq'] at hdata
        exact h.id _ (h.parseAttributes _ hdata)

end Stable
end Haggle.DataObject
