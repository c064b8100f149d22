import Haggle.ObjectHistory
import Haggle.ObjectReceive
import Haggle.Printed

/-!
# Data objects in the data store

A data object is written as one row: its metadata as text, and some of its state in columns of their
own. The statement is printed with all strings pasted into it. An object that is read back starts
from the columns and then parses the metadata.
-/

namespace Haggle
namespace StoredObject

open DataObject

section Write

/-- What an insertion knows besides the object: the times of its reception, the row of the interface
it came from, and the node it describes. -/
structure Origin where
  receiveTime : Timeval
  rxTime : ℕ
  ifaceRowId : ℤ
  nodeId : Bytes

def dataStateNumber : DataState → ℕ
  | .unknown => 0
  | .noData => 1
  | .notVerified => 2
  | .verifiedOk => 3
  | .verifiedBad => 4

def signatureStatusNumber : SignatureStatus → ℕ
  | .missing => 0
  | .unverified => 1
  | .valid => 2
  | .invalid => 3

/-- `getTimeAsMilliSeconds`. -/
def milliseconds (t : Timeval) : ℤ := t.sec * 1000 + t.usec.tdiv 1000

def signatureLength (o : DataObject) : ℕ := (o.signature.getD []).length

def insertHead : Bytes :=
  lit "INSERT INTO table_dataobjects (id,xmlhdr,filepath,filename,datalen,datastate,datahash," ++
    lit "signaturestatus,signee,signature,siglen,createtime,receivetime,rxtime," ++
    lit "source_iface_rowid,node_id) VALUES("

def insertValues (metadata : Bytes) (o : DataObject) (i : Origin) : List Sql.Operand :=
  [.parameter 0, .string (cStr metadata), .string (cStr o.filepath), .string (cStr o.filename),
    .numeral (decimal o.dataLen), .numeral (decimal (dataStateNumber o.dataState)), .parameter 1,
    .numeral (decimal (signatureStatusNumber o.signatureStatus)), .string (cStr o.signee),
    .parameter 2, .numeral (decimal (signatureLength o)), printed (milliseconds o.createTime),
    printed (milliseconds i.receiveTime), .numeral (decimal i.rxTime), printed i.ifaceRowId,
    .string (cStr i.nodeId)]

/-- `sql_insert_dataobject_cmd_alloc`: only a text of exactly the size of the buffer is taken to be
too large. -/
def insertCmd (metadata : Bytes) (o : DataObject) (i : Origin) : Option Bytes :=
  let cmd_size := (cStr metadata).length + i.nodeId.length + 1024
  let text := insertHead ++ (Sql.operandsText (insertValues metadata o i) ++ lit ");")
  if text.length = cmd_size then none else some (text.take (cmd_size - 1))

/-- The blobs that are bound to the statement. -/
def bound (o : DataObject) : List Sql.Value :=
  [.blob o.id.1, if o.dataIsVerifiable then .blob o.dataHash else .null,
    if signatureLength o ≠ 0 ∧ o.signatureStatus ≠ .missing then .blob (o.signature.getD [])
    else .null]

/-- `SQL_CREATE_TABLE_DATAOBJECTS_CMD`. -/
def emptyTable : Sql.Table where
  name := lit "table_dataobjects"
  columns := [lit "rowid", lit "id", lit "xmlhdr", lit "filepath", lit "filename", lit "datalen",
    lit "datastate", lit "datahash", lit "num_attributes", lit "signaturestatus", lit "signee",
    lit "signature", lit "siglen", lit "createtime", lit "receivetime", lit "rxtime",
    lit "source_iface_rowid", lit "node_id", lit "timestamp"]
  rows := []
  rowid := 1

def hasId (id : Digest) (r : Sql.Row) : Bool := Sql.Row.value r (lit "id") = .blob id.1

inductive Insertion
  | failed
  | duplicate
  | new
deriving DecidableEq

section Insert

variable (beyond : Bytes → List Sql.Value → Sql.Table → Option (List Sql.Row × Sql.Table))
  (pf : Platform)

/-- The statement, up to the check of the identifier, which is unique in the table. -/
def storeRow (t : Sql.Table) (o : DataObject) (i : Origin) : Option Sql.Table :=
  match o.toMetadata.metadata with
  | none => none
  | some m =>
    match insertCmd (m.getRawAlloc pf.lib) o i with
    | none => none
    | some text => (Sql.run beyond text (bound o) t).map Prod.snd

/-- `_deleteDataObject`. -/
def deleteRows (t : Sql.Table) (id : Digest) : Sql.Table :=
  { t with rows := t.rows.filter fun r => !hasId id r }

/-- Behind the row come its links to the attributes, in other tables: `linked` says whether they can
be written. An object that is not persistent is removed again. -/
def linkRow (o : DataObject) (linked : Bool) (t : Sql.Table) : Insertion × Sql.Table :=
  if linked then (.new, if o.persistent then t else deleteRows t o.id) else (.failed, t)

/-- `_insertDataObject` behind the check of node descriptions: what becomes of the object, and the
table. -/
def insertDataObject (t : Sql.Table) (o : DataObject) (i : Origin) (linked : Bool) :
    Insertion × Sql.Table :=
  match storeRow beyond pf t o i with
  | none => (.failed, t)
  | some t' =>
    if t.rows.any (hasId o.id) then
      if o.persistent then (.duplicate, t)
      else
        match storeRow beyond pf (deleteRows t o.id) o i with
        | none => (.failed, deleteRows t o.id)
        | some t' => linkRow o linked t'
    else linkRow o linked t'

end Insert

end Write

section Read

def columnText (r : Sql.Row) (c : Bytes) : Bytes :=
  match Sql.Row.value r c with
  | .text s | .blob s => s
  | _ => []

/-- `sqlite3_column_blob`: no address for `NULL`. -/
def columnBlob (r : Sql.Row) (c : Bytes) : Option Bytes :=
  match Sql.Row.value r c with
  | .text s | .blob s => some s
  | _ => none

def columnInt (r : Sql.Row) (c : Bytes) : ℤ :=
  match Sql.Row.value r c with
  | .int i => i
  | _ => 0

def dataStateOf : ℤ → DataState
  | 1 => .noData
  | 2 => .notVerified
  | 3 => .verifiedOk
  | 4 => .verifiedBad
  | _ => .unknown

def signatureStatusOf : ℤ → SignatureStatus
  | 1 => .unverified
  | 2 => .valid
  | 3 => .invalid
  | _ => .missing

/-- A time that is stored in milliseconds. -/
def ofMilliseconds (ms : ℤ) : Timeval :=
  if ms = -1 then ⟨-1, 0⟩ else Timeval.adjust ⟨ms.tdiv 1000, (ms - ms.tdiv 1000 * 1000) * 1000⟩

/-- The signature that comes with a row. `setSignature` makes it one that is not verified. -/
def restoreSignature (r : Sql.Row) (o : DataObject) : DataObject :=
  let o := { o with signatureStatus := signatureStatusOf (columnInt r (lit "signaturestatus")) }
  let siglen := (columnInt r (lit "siglen")).toNat
  match columnBlob r (lit "signature") with
  | some s => if siglen ≠ 0 then o.setSignature (columnText r (lit "signee")) (s.take siglen) else o
  | none => o

def restoreData (r : Sql.Row) (o : DataObject) : DataObject :=
  let o := { o with
    createTime := ofMilliseconds (columnInt r (lit "createtime"))
    dataLen := (columnInt r (lit "datalen")).toNat
    dataState := dataStateOf (columnInt r (lit "datastate")) }
  match columnBlob r (lit "datahash") with
  | some h => if o.dataIsVerifiable then { o with dataHash := h.take 20 } else o
  | none => o

/-- The object before its metadata is parsed. -/
def restored (fs : FileSystem) (o : DataObject) (r : Sql.Row) : Option DataObject :=
  let path := columnText r (lit "filepath")
  let o := { o with filepath := path, filename := columnText r (lit "filename"), stored := true }
  if path = [] then some (restoreData r (restoreSignature r o))
  else
    match setFilePath fs o path (columnInt r (lit "datalen")).toNat false with
    | (_, false) => none
    | (o, true) => some (restoreData r (restoreSignature r o))

/-- `createDataObject`: `DataObject::create` with the columns of a row, on an object that the
constructor has made. -/
def createDataObject (pf : Platform) (fs : FileSystem) (o : DataObject) (r : Sql.Row) :
    Option DataObject :=
  match restored fs o r with
  | none => none
  | some o =>
    match Metadata.initFromRaw pf.lib (columnText r (lit "xmlhdr")) pf.plainChar with
    | none => none
    | some m =>
      if m.name ≠ lit "Haggle" then none
      else
        match parseMetadata pf fs { o with metadata := some m } false with
        | (_, false) => none
        | (o, true) => some o

end Read

section Row

variable {pf : Platform} {o : DataObject} {i : Origin} {m : Metadata}

def columns : List Bytes :=
  [lit "id", lit "xmlhdr", lit "filepath", lit "filename", lit "datalen", lit "datastate",
    lit "datahash", lit "signaturestatus", lit "signee", lit "signature", lit "siglen",
    lit "createtime", lit "receivetime", lit "rxtime", lit "source_iface_rowid", lit "node_id"]

/-- The row of an object whose strings arrive as they are. -/
def objectRow (rowid : ℕ) (metadata : Bytes) (o : DataObject) (i : Origin) : Sql.Row :=
  (lit "rowid", .int rowid) ::
    columns.zip ((insertValues metadata o i).map (Sql.Operand.eval (bound o)))

/-- Strings that can be pasted, numbers of 64 bits, and a text that fits. -/
structure Pastable (metadata : Bytes) (o : DataObject) (i : Origin) : Prop where
  strings : ∀ s ∈ [metadata, o.filepath, o.filename, o.signee, i.nodeId], 39 ∉ s
  nul : ∀ s ∈ [metadata, o.filepath, o.filename], 0 ∉ s
  numbers : ∀ n ∈ [o.dataLen, signatureLength o, (milliseconds o.createTime).natAbs,
    (milliseconds i.receiveTime).natAbs, i.rxTime, i.ifaceRowId.natAbs], n < 2 ^ 63
  fits : (insertHead ++ (Sql.operandsText (insertValues metadata o i) ++ lit ");")).length <
    (cStr metadata).length + i.nodeId.length + 1024

theorem length_insertValues (raw : Bytes) (o : DataObject) (i : Origin) :
    (Sql.operandsText (insertValues raw o i)).length =
      (cStr raw).length + (Sql.operandsText (insertValues [] o i)).length := by
  obtain ⟨values, hcons⟩ : ∃ values, ∀ raw, insertValues raw o i =
      .parameter 0 :: .string (cStr raw) :: values := ⟨_, fun _ => rfl⟩
  have hempty : cStr [] = [] := rfl
  have hnext : ∀ v u us, Sql.operandsText (v :: u :: us) =
      v.text ++ 44 :: Sql.operandsText (u :: us) := fun _ _ _ => rfl
  rw [hcons raw, hcons [], hempty]
  cases values with
  | nil =>
    simp only [Sql.operandsText, Sql.Operand.text, List.length_append, List.length_cons,
      List.length_nil]
    omega
  | cons v values =>
    simp only [hnext, Sql.Operand.text, List.length_append, List.length_cons, List.length_nil]
    omega

theorem length_insertHead : insertHead.length = 191 := by
  simp only [insertHead, lit_ofList]
  rfl

/-- The buffer grows with the metadata, so it is enough to look at an empty one. -/
theorem Pastable.withMetadata {raw : Bytes} (hp : Pastable [] o i) (hquote : 39 ∉ raw)
    (hnul : 0 ∉ raw) : Pastable raw o i where
  strings := by
    have hstrings := hp.strings
    rw [List.forall_mem_cons] at hstrings ⊢
    exact ⟨hquote, hstrings.2⟩
  nul := by
    have hnul' := hp.nul
    rw [List.forall_mem_cons] at hnul' ⊢
    exact ⟨hnul, hnul'.2⟩
  numbers := hp.numbers
  fits := by
    have hfits := hp.fits
    have hempty : (cStr []).length = 0 := rfl
    rw [List.length_append, List.length_append] at hfits ⊢
    rw [length_insertValues]
    rw [hempty] at hfits
    omega

theorem dataStateNumber_lt (d : DataState) : dataStateNumber d < 2 ^ 63 := by
  cases d <;> norm_num [dataStateNumber]

theorem signatureStatusNumber_lt (d : SignatureStatus) : signatureStatusNumber d < 2 ^ 63 := by
  cases d <;> norm_num [signatureStatusNumber]

theorem printable_insertValues {raw : Bytes} (hp : Pastable raw o i) :
    ∀ v ∈ insertValues raw o i, v.printable = true := by
  have hstring : ∀ s ∈ [raw, o.filepath, o.filename, o.signee, i.nodeId],
      (Sql.Operand.string (cStr s)).printable = true := by
    intro s hs
    simpa [Sql.Operand.printable] using quote_cStr (hp.strings s hs)
  have hparam : ∀ k, (Sql.Operand.parameter k).printable = true := fun k => rfl
  simp only [List.forall_mem_cons, List.not_mem_nil, false_implies, implies_true, and_true]
    at hstring
  simp only [insertValues, List.forall_mem_cons, List.not_mem_nil, false_implies, implies_true,
    hstring, hparam, printable_decimal, printable_printed, and_self]

theorem wellFormed_insertValues {raw : Bytes} (hp : Pastable raw o i) :
    ∀ v ∈ insertValues raw o i, v.wellFormed = true := by
  have hnum := hp.numbers
  simp only [List.forall_mem_cons, List.not_mem_nil, false_implies, implies_true, and_true] at hnum
  obtain ⟨hlen, hsig, hcreate, hreceive, hrx, hiface⟩ := hnum
  have hstring : ∀ s, (Sql.Operand.string s).wellFormed = true := fun s => rfl
  have hparam : ∀ k, (Sql.Operand.parameter k).wellFormed = true := fun k => rfl
  simp only [insertValues, List.forall_mem_cons, List.not_mem_nil, false_implies, implies_true,
    hstring, hparam, wellFormed_decimal hlen, wellFormed_decimal (dataStateNumber_lt _),
    wellFormed_decimal (signatureStatusNumber_lt _), wellFormed_decimal hsig,
    wellFormed_printed hcreate, wellFormed_printed hreceive, wellFormed_decimal hrx,
    wellFormed_printed hiface, and_self]

theorem numbered_insertValues (raw : Bytes) (o : DataObject) (i : Origin) :
    Sql.numbered 0 (insertValues raw o i) = true := by
  have hprinted : ∀ k z vs, Sql.numbered k (printed z :: vs) = Sql.numbered k vs := by
    intro k z vs
    rw [printed]
    split_ifs <;> rfl
  simp only [insertValues, Sql.numbered, hprinted, decide_true, Bool.and_self]

theorem run_insertCmd {raw : Bytes} (hp : Pastable raw o i) {t : Sql.Table}
    (hname : t.name = lit "table_dataobjects") (hcols : t.columns = emptyTable.columns)
    (beyond : Bytes → List Sql.Value → Sql.Table → Option (List Sql.Row × Sql.Table)) :
    ∃ text, insertCmd raw o i = some text ∧ Sql.run beyond text (bound o) t =
      some ([], { t with rows := t.rows ++ [objectRow t.rowid raw o i], rowid := t.rowid + 1 }) := by
  have hhead : Sql.feed .between insertHead =
      (Sql.insertTokens (lit "table_dataobjects") columns, .between) := by
    simp only [insertHead, columns, Sql.insertTokens, Sql.columnsTokens, lit_ofList,
      Sql.ascii_ofList]
    decide
  have hcompile := Sql.compile_printed hhead (by decide) (by simp [insertValues])
    (printable_insertValues hp) (wellFormed_insertValues hp) (numbered_insertValues raw o i)
  have hresolves : (Sql.Statement.insert (lit "table_dataobjects") columns
      (insertValues raw o i)).resolves t = true := by
    simp [Sql.Statement.resolves, hname, hcols, emptyTable, columns, insertValues]
  have hfits := hp.fits
  refine ⟨_, ?_, Sql.run_eq hcompile hresolves beyond (bound o)⟩
  rw [insertCmd, if_neg (by omega), List.take_of_length_le (by omega)]
  rfl

end Row

end StoredObject
end Haggle
