import Haggle.ObjectIdentity
import Haggle.StoredObject

/-!
# Data objects that come back from the data store

The columns of a row restore the path, the length, the state and the signature of an object. Its
attributes, its time and its persistency come from the metadata, which is parsed behind them and can
change what the columns gave. A signature always comes back as one that is not verified.
-/

namespace Haggle
namespace StoredObject

open DataObject Metadata

section Restore

variable {pf : Platform} {fs : FileSystem} {o : DataObject} {i : Origin} {m : Metadata}

/-- The status of the signature and the signature. -/
def sign (o : DataObject) : SignatureStatus × Option Bytes := (o.signatureStatus, o.signature)

/-- The signature that the row of an object gives back. -/
def signOf (o : DataObject) : SignatureStatus × Option Bytes :=
  if signatureLength o ≠ 0 ∧ o.signatureStatus ≠ .missing then
    (.unverified, some (o.signature.getD []))
  else (o.signatureStatus, none)

/-- The object as the columns of its row give it back. -/
structure Restored (c : PlainChar) (o s : DataObject) : Prop where
  filepath : s.filepath = o.filepath
  filename : s.filename = o.filename
  dataLen : s.dataLen = o.dataLen
  dataState : s.dataState = o.dataState
  dataHash : o.dataIsVerifiable = true → s.dataHash = o.dataHash
  attrs : s.attrs = HashMap.empty c
  sign : sign s = signOf o

/-- A path that is empty, or at which there is a file of the length of the data. -/
def FileThere (fs : FileSystem) (o : DataObject) : Prop :=
  o.filepath = [] ∨ ∃ c, fs.read o.filepath = some c ∧ (o.dataLen = 0 ∨ c.length = o.dataLen)

end Restore

section Parse

variable {pf : Platform} {fs : FileSystem} {o s : DataObject} {i : Origin} {m m' dm : Metadata}

/-- What an object that is read keeps of the object that was stored. -/
structure Kept (o r : DataObject) : Prop where
  id : r.id = o.id
  attrs : r.attrs.toList = o.attrs.toList
  createTime : r.createTime = o.createTime
  filepath : r.filepath = o.filepath
  dataLen : r.dataLen = o.dataLen
  signature : r.signature.getD [] = o.signature.getD []
  signatureStatus : r.signatureStatus = o.signatureStatus
  persistent : r.persistent = o.persistent

/-- Written metadata that agree with the object: a length, a path or a name in them is that of the
object, also where `toMetadata` leaves them as they are; a hash or a signature that the object does
not know of is not taken from them. -/
structure Tidy (lib : LibXml) (fs : FileSystem) (o : DataObject) (m : Metadata) : Prop where
  length : o.hasFile = false → ∀ dm, m.getMetadata (lit "Data") = some dm →
    ((dm.getParameter (lit "data_len")).map strtoul).getD o.dataLen = o.dataLen
  path : ∀ dm c, m.getMetadata (lit "Data") = some dm → dm.getMetadata (lit "FilePath") = some c →
    c.content = o.filepath ∧ TextArrives lib c ∧
      ∃ d, fs.read o.filepath = some d ∧ d.length = o.dataLen
  name : o.dataIsVerifiable = false → o.dataLen ≠ 0 →
    ∀ dm, m.getMetadata (lit "Data") = some dm →
      (∀ c, dm.getMetadata (lit "FileName") = some c → c.content = o.filename ∧ TextArrives lib c) ∧
        (o.filename = [] → dm.getMetadata (lit "FilePath") = none)
  hash : o.dataState = .unknown → ∀ dm c, m.getMetadata (lit "Data") = some dm →
    dm.getMetadata (lit "FileHash") = some c →
      TextArrives lib c ∧ (Base64.decode c.content 20).1 = false
  signature : o.signatureStatus = .missing → m.getMetadata (lit "Signature") = none

/-- When the parts of an object that are in its metadata only can be read back. A time that is not
there is the one of the column. -/
structure Legible (pf : Platform) (o : DataObject) (m : Metadata) : Prop where
  order : (HashMap.ofList o.attrs.toList pf.plainChar).toList = o.attrs.toList
  values : ∀ e ∈ o.attrs.toList, Readable e.2.value ∧ e.2.weight < 10 ^ 19
  time : ((m.getParameter (lit "create_time")).map (Timeval.ofString pf.uninit)).getD
    (ofMilliseconds (milliseconds o.createTime)) = o.createTime

section Element

variable (htexts : ∀ s, ∀ x ∈ pf.lib.contentNodes s, x.isText = true) (hdm : dm.Valid)
  (ht : Tidy pf.lib fs o m) (hd : m.getMetadata (lit "Data") = some dm)
  (h : Restored pf.plainChar o s) {c : PlainChar}

include hdm ht hd h

include htexts

end Element

end Parse

section Retrieve

variable {pf : Platform} {fs : FileSystem} {o : DataObject} {i : Origin} {m : Metadata}
  {t : Sql.Table}

theorem length_signatureStatus (d : SignatureStatus) :
    (decimal (signatureStatusNumber d)).length = 1 := by
  cases d <;> rfl

theorem Pastable.signatureStatus {raw : Bytes} (hp : Pastable raw o i) (st : SignatureStatus) :
    Pastable raw { o with signatureStatus := st } i where
  strings := hp.strings
  nul := hp.nul
  numbers := hp.numbers
  fits := by
    have hfits := hp.fits
    simp only [insertValues, Sql.operandsText, Sql.Operand.text, List.length_append,
      List.length_cons, length_signatureStatus] at hfits ⊢
    exact hfits

section Insert

variable {beyond : Bytes → List Sql.Value → Sql.Table → Option (List Sql.Row × Sql.Table)}
  {linked : Bool}

theorem hasId_objectRow (n : ℕ) (raw : Bytes) (o : DataObject) (i : Origin) :
    hasId o.id (objectRow n raw o i) = true := decide_eq_true rfl

variable (beyond) in
theorem storeRow_eq (hm : o.toMetadata.metadata = some m) (hp : Pastable (m.getRawAlloc pf.lib) o i)
    (hname : t.name = emptyTable.name) (hcols : t.columns = emptyTable.columns) :
    storeRow beyond pf t o i = some { t with
      rows := t.rows ++ [objectRow t.rowid (m.getRawAlloc pf.lib) o i], rowid := t.rowid + 1 } := by
  obtain ⟨text, htext, hrun⟩ := run_insertCmd hp hname hcols beyond
  unfold storeRow
  -- the kernel is kept from computing the text when the match is reduced
  generalize insertCmd = cmd at htext ⊢
  simp only [hm, htext, hrun, Option.map_some]

theorem not_hasId_deleteRows (t : Sql.Table) (id : Digest) :
    ∀ r ∈ (deleteRows t id).rows, hasId id r = false := by
  intro r hr
  simpa using (List.mem_filter.mp hr).2

theorem linkRow_new {t' : Sql.Table} (h : (linkRow o linked t').1 = .new) :
    (linkRow o linked t').2 = if o.persistent then t' else deleteRows t' o.id := by
  unfold linkRow at h ⊢
  split_ifs at h ⊢ <;> rfl

theorem insertDataObject_persistent (hm : o.toMetadata.metadata = some m)
    (hp : Pastable (m.getRawAlloc pf.lib) o i) (hname : t.name = emptyTable.name)
    (hcols : t.columns = emptyTable.columns) (hpersist : o.persistent = true)
    (hnew : (insertDataObject beyond pf t o i linked).1 = .new) :
    (∀ r ∈ t.rows, hasId o.id r = false) ∧ (insertDataObject beyond pf t o i linked).2.rows =
      t.rows ++ [objectRow t.rowid (m.getRawAlloc pf.lib) o i] := by
  have hstore := storeRow_eq beyond hm hp hname hcols
  unfold insertDataObject at hnew ⊢
  simp only [hstore, hpersist, if_true] at hnew ⊢
  split_ifs at hnew ⊢ with hany
  refine ⟨?_, ?_⟩
  · simpa using hany
  · rw [linkRow_new hnew, hpersist, if_pos rfl]

end Insert

end Retrieve

end StoredObject

namespace Sample

open DataObject StoredObject

def signedRaw : Bytes :=
  lit "<?xml version=\"1.0\"?>\n<Haggle create_time=\"7.000000\" persistent=\"yes\">\n" ++
    lit "  <Attr name=\"a\">v</Attr>\n  <Signature signee=\"n\">AQ==</Signature>\n</Haggle>\n"

def signedTree : XmlNode :=
  .elem (lit "Haggle") [(lit "create_time", lit "7.000000"), (lit "persistent", lit "yes")]
    [attrTree "a",
      .elem (lit "Signature") [(lit "signee", lit "n")] [.text (lit "AQ==")]]

def storePlatform : Platform where
  lib := {
    parse := fun r => if r = signedRaw then some (signedTree.format 0) else none
    dump := fun _ => signedRaw
    contentNodes := fun c => [.text c] }
  sha1 := firstBytes
  sizeBytes n := [n.toUInt8]
  uninit := ⟨0, 0⟩

/-- An object with an attribute and a signature. -/
def stampedObject : DataObject :=
  DataObject.history storePlatform draft
    [.addAttribute (attr "a") (weight_attr "a"), .setSignature (lit "n") [1]]

/-- The object behind a verification of its signature. -/
def signedAs (st : SignatureStatus) : DataObject := { stampedObject with signatureStatus := st }

def origin : Origin := ⟨⟨8, 0⟩, 3, -1, []⟩

def signedMetadata : Metadata := stampedObject.toMetadata.metadata.getD (.new [] [])

theorem pastable_signedRaw {o : DataObject} {i : Origin} (hp : Pastable [] o i) :
    Pastable signedRaw o i :=
  hp.withMetadata (by simp only [signedRaw, lit_ofList]; decide)
    (by simp only [signedRaw, lit_ofList]; decide)

def emptyDisk : FileSystem := ⟨[], fun _ => true, fun _ => true, fun _ _ => true, []⟩

/-- The data store behind the insertion of the object. -/
def signedStore (st : SignatureStatus) : Insertion × Sql.Table :=
  insertDataObject (fun _ _ _ => none) storePlatform emptyTable (signedAs st) origin true

/-- What can be read of the object. -/
def Retrieved (st : SignatureStatus) : Prop :=
  ∃ row ∈ (signedStore st).2.rows, hasId (signedAs st).id row = true ∧
    ∃ r, createDataObject storePlatform emptyDisk
      (DataObject.new (lit "/s") digest.1 storePlatform.plainChar) row = some r ∧ Kept (signedAs st) r

end Sample
end Haggle
