import Haggle.LibMetadata
import Haggle.ObjectHistory

/-!
# Data objects of the application library

Applications build data objects with libhaggle, which computes their identifiers on its own and
writes them for the kernel. Numbers are printed into buffers of fixed size without a check, so that
writing an object can go wrong; it has no result then.
-/

namespace Haggle

/-- `%ld`. -/
def longText (n : ℤ) : Bytes := if n < 0 then lit "-" ++ decimal n.natAbs else decimal n.natAbs

/-- `%06ld`: the sign counts as one of the six characters. -/
def longText06 (n : ℤ) : Bytes :=
  if n < 0 then
    lit "-" ++ List.replicate (5 - (decimal n.natAbs).length) 48 ++ decimal n.natAbs
  else Timeval.padded n.natAbs

/-- The text of `CREATETIME_ASSTRING_FORMAT`. -/
def createtimeText (t : Timeval) : Bytes := longText t.sec ++ lit "." ++ longText06 t.usec

/-- `struct dataobject`. The hash is there when `hash_str` is, and strings are without their
terminator. -/
structure LibDataObject where
  createtime : Timeval
  al : List Attribute
  filename : Option Bytes
  filepath : Option Bytes
  datalen : ℕ
  hash : Option Digest
  thumbnail : Option Bytes
  persistent : Bool
  m : LibMetadata

namespace LibDataObject

def attrBytes (a : Attribute) : Bytes := a.name ++ a.value ++ DataObject.networkOrder a.weight

/-- What `haggle_dataobject_calculate_id` hashes. -/
def hashInput (pf : Platform) (d : LibDataObject) : Bytes :=
  d.al.flatMap attrBytes ++
    (if d.createtime.sec ≠ 0 then (createtimeText d.createtime).take 19 else []) ++
    match d.hash with
    | some h => h.1
    | none =>
      match d.filename with
      | some name => if 0 < d.datalen then name ++ pf.sizeBytes d.datalen else []
      | none => []

def calculateId (pf : Platform) (d : LibDataObject) : Digest := pf.sha1 (d.hashInput pf)

/-- Sets the content of the first child of a name, or adds one. -/
def putContent (k : Bytes) : Option Bytes → LibMetadata → LibMetadata
  | none, m => m
  | some c, m => m.upsert k (·.setContent c)

def dataMetadata (d : LibDataObject) (dm : LibMetadata) : LibMetadata :=
  putContent (lit "FilePath") d.filepath <|
    putContent (lit "Thumbnail") d.thumbnail <|
      putContent (lit "FileHash") (d.hash.map fun h => Base64.encode h.1) <|
        putContent (lit "FileName") d.filename <|
          dm.setParameter (lit "data_len") ((decimal d.datalen).take 19)

def hasData (d : LibDataObject) : Bool := d.filepath.isSome || decide (0 < d.datalen)

def attributeMetadata (a : Attribute) : LibMetadata :=
  let m := (LibMetadata.new (lit "Attr") (some a.value)).setParameter (lit "name") a.name
  if a.weight ≠ 0 then m.setParameter (lit "weight") (decimal a.weight) else m

/-- `char createtime[32]` and `char str_weight[8]` have room for what is printed into them. -/
def Fits (d : LibDataObject) : Prop :=
  (d.createtime.sec ≠ 0 → (createtimeText d.createtime).length < 32) ∧
    ∀ a ∈ d.al, a.weight ≠ 0 → (decimal a.weight).length < 8

instance (d : LibDataObject) : Decidable d.Fits := inferInstanceAs (Decidable (_ ∧ _))

/-- The tree that `haggle_dataobject_to_metadata` leaves in the object and returns. -/
def metadata (d : LibDataObject) : LibMetadata :=
  let m := d.m.setParameter (lit "persistent") (lit (if d.persistent then "yes" else "no"))
  let m := if d.createtime.sec ≠ 0 then
      m.setParameter (lit "create_time") (createtimeText d.createtime) else m
  let m := if d.hasData then m.upsert (lit "Data") d.dataMetadata else m
  d.al.foldl (fun m a => m.add (attributeMetadata a)) (m.removeAll (lit "Attr"))

def toMetadata (d : LibDataObject) : Option LibDataObject :=
  if d.Fits then some { d with m := d.metadata } else none

/-! ## Building an object -/

/-- Metadata that applications add to an object. -/
structure Annotation where
  element : LibMetadata
  foreign : element.name ∉ [lit "Attr", lit "Data", lit "Signature"]

inductive Call
  | setCreatetime (t : Timeval)
  | addAttributeWeighted (a : Attribute)
  | removeAttribute (name value : Bytes)
  | setFilename (name : Bytes)
  | setFilepath (path : Bytes)
  /-- The hash of the file is computed if there is a path to it. -/
  | addHash (h : Digest)
  | setThumbnail (data : Bytes)
  | setPersistent (val : Bool)
  | addMetadata (a : Annotation)
  | getRaw

/-- `haggle_dataobject_new`. -/
def new : LibDataObject where
  createtime := ⟨0, 0⟩
  al := []
  filename := none
  filepath := none
  datalen := 0
  hash := none
  thumbnail := none
  persistent := true
  m := .new (lit "Haggle") none

/-- Everything behind the last `/` or `\`. -/
def fileName (path : Bytes) : Bytes := (path.reverse.takeWhile fun b => b ≠ 47 ∧ b ≠ 92).reverse

/-- `haggle_dataobject_new_from_file`, for a file of the length `len`. -/
def newFromFile (path : Bytes) (len : ℕ) : LibDataObject :=
  { new with filepath := some path, filename := some (fileName path), datalen := len }

def call (d : LibDataObject) : Call → Option LibDataObject
  | .setCreatetime t => some { d with createtime := t }
  | .addAttributeWeighted a => some { d with al := d.al ++ [a] }
  | .removeAttribute name value =>
    some { d with al := d.al.eraseP fun a => a.name = name && a.value = value }
  | .setFilename name => some { d with filename := some name }
  | .setFilepath path => some { d with filepath := some path }
  | .addHash h => some (if d.filepath.isSome then { d with hash := some h } else d)
  | .setThumbnail data => some { d with thumbnail := some (Base64.encode data) }
  | .setPersistent val => some { d with persistent := val }
  | .addMetadata a => some { d with m := d.m.add a.element }
  | .getRaw => d.toMetadata

/-- The objects that applications can build. -/
inductive Built : LibDataObject → Prop
  | new : Built new
  | newFromFile (path : Bytes) (len : ℕ) : Built (newFromFile path len)
  | call {d d' : LibDataObject} (c : Call) (hd : Built d) (h : d.call c = some d') : Built d'

end LibDataObject
end Haggle
