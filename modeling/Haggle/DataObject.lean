import Haggle.Base64
import Haggle.FileSystem
import Haggle.Metadata
import Haggle.Timeval

/-!
# Data objects

The state of a `DataObject`, the identifier computed from it, how it is filled from its metadata and
how it is turned back into metadata.
-/

namespace Haggle

/-- A SHA1 digest. -/
abbrev Digest := { b : Bytes // b.length = 20 }

/-- What `memset` leaves of an identifier. -/
def Digest.fill (b : UInt8) : Digest := ⟨List.replicate 20 b, List.length_replicate⟩

/-- What a node brings along: the XML library, SHA1, how a `size_t` lies in memory, the values that
the local variables of `Timeval(const string)` happen to hold, and the sign of `char`. -/
structure Platform where
  lib : LibXml
  sha1 : Bytes → Digest
  sizeBytes : ℕ → Bytes
  uninit : Timeval
  plainChar : PlainChar := .signed

inductive DataState where
  | unknown
  | noData
  | notVerified
  | verifiedOk
  | verifiedBad
deriving DecidableEq

inductive SignatureStatus where
  | missing
  | unverified
  | valid
  | invalid
deriving DecidableEq

structure DataObject where
  signatureStatus : SignatureStatus
  signee : Bytes
  signature : Option Bytes
  metadata : Option Metadata
  attrs : Attributes
  filename : Bytes
  filepath : Bytes
  isForLocalApp : Bool
  storagepath : Bytes
  dataLen : ℕ
  createTime : Timeval
  persistent : Bool
  stored : Bool
  isNodeDesc : Bool
  controlMessage : Bool
  dataState : DataState
  dataHash : Bytes
  id : Digest

namespace DataObject

/-- The constructor. The data hash is not initialised. -/
def new (storagepath hash : Bytes) (c : PlainChar := .signed) : DataObject where
  signatureStatus := .missing
  signee := []
  signature := none
  metadata := none
  attrs := HashMap.empty c
  filename := []
  filepath := []
  isForLocalApp := false
  storagepath := storagepath
  dataLen := 0
  createTime := ⟨-1, 0⟩
  persistent := true
  stored := false
  isNodeDesc := false
  controlMessage := false
  dataState := .unknown
  dataHash := hash
  id := .fill 0

def dataIsVerifiable (o : DataObject) : Bool :=
  match o.dataState with
  | .unknown | .noData => false
  | _ => true

/-- `htonl` of the low 32 bits. -/
def networkOrder (w : ℕ) : Bytes :=
  [(w / 2 ^ 24 % 256).toUInt8, (w / 2 ^ 16 % 256).toUInt8, (w / 2 ^ 8 % 256).toUInt8,
    (w % 256).toUInt8]

def attrBytes (e : Bytes × Attribute) : Bytes :=
  e.2.name ++ e.2.value ++ networkOrder e.2.weight

/-- The bytes that stand for the payload in the identifier. -/
def payloadBytes (pf : Platform) (o : DataObject) : Bytes :=
  if o.dataIsVerifiable then o.dataHash
  else if o.filename ≠ [] ∧ 0 < o.dataLen then o.filename ++ pf.sizeBytes o.dataLen
  else []

def timeBytes (o : DataObject) : Bytes :=
  if o.createTime.isValid then o.createTime.getAsString else []

def calcId (pf : Platform) (o : DataObject) : DataObject :=
  { o with id := pf.sha1 (o.attrs.toList.flatMap attrBytes ++ o.timeBytes ++ o.payloadBytes pf) }

/-- Everything behind the last `/`. -/
def baseName (path : Bytes) : Bytes := (path.reverse.takeWhile (· ≠ 47)).reverse

/-- `setFilePath`: for a local object the file has to be there, with the given size if that is not
zero. -/
def setFilePath (fs : FileSystem) (o : DataObject) (path : Bytes) (len : ℕ) (fromNetwork : Bool) :
    DataObject × Bool :=
  let o := { o with filepath := path, dataLen := len }
  if fromNetwork then (o, true)
  else
    match fs.read path with
    | none => (o, false)
    | some c =>
      if len = 0 then ({ o with dataLen := c.length }, true) else (o, decide (c.length = len))

def hasAttribute (o : DataObject) (a : Attribute) : Bool := (Attributes.find o.attrs a).isSome

section Parse

def parsePersistent (m : Metadata) (o : DataObject) : DataObject :=
  match m.getParameter (lit "persistent") with
  | none => o
  | some v =>
    if v = lit "no" ∨ v = lit "false" then { o with persistent := false }
    else if v = lit "yes" ∨ v = lit "true" then { o with persistent := true }
    else o

def parseCreateTime (pf : Platform) (m : Metadata) (o : DataObject) : DataObject :=
  match m.getParameter (lit "create_time") with
  | none => o
  | some v => { o with createTime := Timeval.ofString pf.uninit v }

/-- Node descriptions and control messages of applications. -/
def parseKind (m : Metadata) (o : DataObject) : DataObject :=
  { o with
    isNodeDesc := o.isNodeDesc || (m.getMetadata (lit "Node")).isSome
    controlMessage := o.controlMessage ||
      ((m.getMetadata (lit "Application")).bind (·.getMetadata (lit "Control"))).isSome }

/-- The signature of an object that has none yet; `false` when it is not valid base64. -/
def parseSignature (m : Metadata) (o : DataObject) : DataObject × Bool :=
  if o.signatureStatus ≠ .missing then (o, true)
  else
    match m.getMetadata (lit "Signature") with
    | none => (o, true)
    | some sm =>
      let o := { o with signee := (sm.getParameter (lit "signee")).getD o.signee }
      match Base64.decodeAlloc sm.content with
      | none => ({ o with signature := none }, false)
      | some s => ({ o with signature := some s, signatureStatus := .unverified }, true)

def parseDataLen (dm : Metadata) (o : DataObject) : DataObject :=
  match dm.getParameter (lit "data_len") with
  | none => o
  | some v => { o with dataLen := strtoul v }

def parseFileName (dm : Metadata) (o : DataObject) : DataObject :=
  match dm.getMetadata (lit "FileName") with
  | none => o
  | some m => { o with filename := m.content }

/-- The `FilePath` element: it names the payload of a local object and is not passed on. -/
def parseFilePath (fs : FileSystem) (fromNetwork : Bool) (dm : Metadata) (o : DataObject) :
    DataObject × Metadata × Bool :=
  match dm.getMetadata (lit "FilePath") with
  | none => (o, dm, true)
  | some m =>
    match setFilePath fs o m.content o.dataLen fromNetwork with
    | (o, false) => (o, dm, false)
    | (o, true) =>
      if o.filename = [] then
        ({ o with filename := baseName o.filepath },
          (dm.addMetadata (.new (lit "FileName") (baseName o.filepath) dm.plainChar)).removeMetadata
            (lit "FilePath"), true)
      else (o, dm.removeMetadata (lit "FilePath"), true)

/-- The hash is decoded over the 20 bytes that are there; their number is not checked. -/
def parseFileHash (dm : Metadata) (o : DataObject) : DataObject :=
  if o.dataState ≠ .unknown then o
  else
    match dm.getMetadata (lit "FileHash") with
    | none => o
    | some m =>
      let r := Base64.decode m.content 20
      let o := { o with dataHash := r.2 ++ o.dataHash.drop r.2.length }
      if r.1 then { o with dataState := .notVerified } else o

def parseData (fs : FileSystem) (fromNetwork : Bool) (m : Metadata) (o : DataObject) :
    DataObject × Bool :=
  match m.getMetadata (lit "Data") with
  | none => (o, true)
  | some dm =>
    match parseFilePath fs fromNetwork dm (parseFileName dm (parseDataLen dm o)) with
    | (o, dm, ok) =>
      let o := { o with metadata := some (m.updateMetadata (lit "Data") (fun _ => dm)) }
      if ok then (parseFileHash dm o, true) else (o, false)

def attributeOf (m : Metadata) : Attribute where
  name := (m.getParameter (lit "name")).getD []
  value := m.content
  weight := ((m.getParameter (lit "weight")).map strtoul).getD 1

def addParsed (o : DataObject) (a : Attribute) : DataObject :=
  let o := { o with isNodeDesc := o.isNodeDesc || decide (a.name = lit "NodeDescription") }
  if o.hasAttribute a then o else { o with attrs := Attributes.add o.attrs a }

def parseAttributes (m : Metadata) (o : DataObject) : DataObject :=
  ((m.getAll (lit "Attr")).map attributeOf).foldl addParsed o

/-- `parseMetadata`; `false` is the result `-1`. A local file that is missing ends the parsing with
the result 0. -/
def parseMetadata (pf : Platform) (fs : FileSystem) (o : DataObject) (fromNetwork : Bool) :
    DataObject × Bool :=
  match o.metadata with
  | none => (o, false)
  | some m =>
    match parseSignature m (parseKind m (parseCreateTime pf m (parsePersistent m o))) with
    | (o, false) => (o, false)
    | (o, true) =>
      match parseData fs fromNetwork m o with
      | (o, false) => (o, true)
      | (o, true) => (calcId pf (parseAttributes (o.metadata.getD m) o), true)

end Parse

section Serialise

/-- Sets the content of the first element of a name, or adds one. -/
def putContent (k c : Bytes) (m : Metadata) : Metadata :=
  match m.getMetadata k with
  | some _ => m.updateMetadata k (·.setContent c)
  | none => m.addMetadata (.new k c m.plainChar)

/-- A change of the `Data` element that `getOrCreateDataMetadata` returns. -/
def updateData (f : Metadata → Metadata) (m : Metadata) : Metadata :=
  match m.getMetadata (lit "Data") with
  | some _ => m.updateMetadata (lit "Data") f
  | none => m.addMetadata (f (.new (lit "Data") [] m.plainChar))

def fileMetadata (o : DataObject) (dm : Metadata) : Metadata :=
  let dm := dm.setParameter (lit "data_len") ((decimal o.dataLen).take 19)
  let dm := if o.isForLocalApp then putContent (lit "FilePath") o.filepath dm else dm
  putContent (lit "FileName") o.filename dm

def toMetadataFile (o : DataObject) (m : Metadata) : Metadata :=
  if o.dataLen ≠ 0 ∧ o.filename ≠ [] then
    updateData o.fileMetadata m
  else m

def toMetadataHash (o : DataObject) (m : Metadata) : Metadata :=
  if o.dataIsVerifiable then
    updateData (putContent (lit "FileHash") (Base64.encode o.dataHash)) m
  else m

def toMetadataSignature (o : DataObject) (m : Metadata) : Metadata :=
  match o.signature with
  | none => m
  | some s =>
    if s = [] then m
    else
      (putContent (lit "Signature") (Base64.encode s) m).updateMetadata (lit "Signature")
        (·.setParameter (lit "signee") o.signee)

def attributeMetadata (a : Attribute) (c : PlainChar := .signed) : Metadata :=
  let m := (Metadata.new (lit "Attr") a.value c).setParameter (lit "name") a.name
  if a.weight ≠ 1 then m.setParameter (lit "weight") ((decimal a.weight).take 19) else m

def toMetadataAttributes (o : DataObject) (m : Metadata) : Metadata :=
  o.attrs.toList.foldl (fun m e => m.addMetadata (attributeMetadata e.2 m.plainChar))
    (m.removeMetadata (lit "Attr"))

/-- `toMetadata`: the metadata is brought up to date and kept. -/
def toMetadata (o : DataObject) : DataObject :=
  match o.metadata with
  | none => o
  | some m =>
    let m := m.setParameter (lit "persistent") (lit (if o.persistent then "yes" else "no"))
    let m := o.toMetadataSignature (o.toMetadataHash (o.toMetadataFile m))
    { o with metadata := some (o.toMetadataAttributes m) }

theorem id_toMetadata (o : DataObject) : o.toMetadata.id = o.id := by
  unfold toMetadata
  split <;> rfl

end Serialise

section Update

def setCreateTime (pf : Platform) (o : DataObject) (t : Timeval) : DataObject :=
  match o.metadata with
  | none => o
  | some m =>
    calcId pf { o with
      createTime := t
      metadata := some (if t.isValid then m.setParameter (lit "create_time") t.getAsString else m) }

def addAttribute (pf : Platform) (o : DataObject) (a : Attribute) : DataObject :=
  if o.hasAttribute a then o else calcId pf { o with attrs := Attributes.add o.attrs a }

def eraseAttribute (pf : Platform) (o : DataObject) (a : Attribute) : DataObject :=
  let r := Attributes.erase o.attrs a
  if 0 < r.2 then calcId pf { o with attrs := r.1 } else { o with attrs := r.1 }

/-- `removeAttribute(name, value)`. For the value `*` the name alone is passed to `erase`, which
makes an attribute with an empty value of it. -/
def removeAttribute (pf : Platform) (o : DataObject) (name value : Bytes) : DataObject :=
  eraseAttribute pf o ⟨name, if value = lit "*" then [] else value, 1⟩

def setSignature (o : DataObject) (signee sig : Bytes) : DataObject :=
  { o with signee := signee, signature := some sig, signatureStatus := .unverified }

end Update

end DataObject
end Haggle
