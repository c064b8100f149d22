import Haggle.Attribute
import Haggle.DataObject
import Haggle.Printed
import Haggle.Timeval

/-!
# Nodes and interfaces in memory

A node is known by its identifier and an interface by its type and its identifier; what else they
hold does not count when two of them are compared. The node store and the interface store are lists
that are searched from the front.
-/

namespace Haggle

inductive InterfaceType
  | undefined
  | applicationPort
  | applicationLocal
  | ethernet
  | wifi
  | bluetooth
  | media
deriving DecidableEq

structure Interface where
  type : InterfaceType
  identifier : Bytes
  addresses : List Bytes
  isUp : Bool
deriving DecidableEq

/-- What the memory holds where the code reads beyond a blob, or does not write a buffer. -/
structure Memory where
  behind : Bytes
  junk : Bytes

namespace Interface

def hexDigit (n : ℕ) : UInt8 := if n < 10 then (48 + n).toUInt8 else (87 + n).toUInt8

def hexByte (b : UInt8) : Bytes := [hexDigit (b.toNat / 16), hexDigit (b.toNat % 16)]

def macStr : Bytes → Bytes
  | [] => []
  | [b] => hexByte b
  | b :: l => hexByte b ++ 58 :: macStr l

/-- `getIdentifierStr`. -/
def identifierStr (i : Interface) : Bytes :=
  match i.type with
  | .undefined => lit "Undefined"
  | .applicationPort => lit "Application on port " ++
      decimal (i.identifier.foldr (fun b n => b.toNat + 256 * n) 0)
  | .applicationLocal => lit "Application on local unix socket: " ++ i.identifier
  | .ethernet | .wifi | .bluetooth => macStr i.identifier
  | .media => i.identifier

/-- `operator==`. -/
def same (i j : Interface) : Bool := i.type = j.type && i.identifier = j.identifier

/-- `equal`: the length of the identifier is that of the interface. -/
def equal (i : Interface) (type : InterfaceType) (identifier : Bytes) : Bool :=
  type = i.type && i.identifier.isPrefixOf identifier

/-- `Interface::create` from a blob, whose length it is not told. -/
def create (mem : Memory) (type : InterfaceType) (identifier : Bytes) : Option Interface :=
  match type with
  | .undefined => none
  | .applicationPort => some ⟨type, (identifier ++ mem.behind).take 2, [], false⟩
  | .ethernet | .wifi | .bluetooth => some ⟨type, (identifier ++ mem.behind).take 6, [], false⟩
  | .applicationLocal =>
    let path := cStr (identifier ++ mem.behind)
    some ⟨type, if path.length < 108 then path else mem.junk.take path.length, [], false⟩
  | .media => some ⟨type, cStr (identifier ++ mem.behind), [], false⟩

theorem same_iff {i j : Interface} :
    i.same j = true ↔ i.type = j.type ∧ i.identifier = j.identifier := by
  simp [same]

theorem same_symm (i j : Interface) : i.same j = j.same i := by
  rw [Bool.eq_iff_iff, same_iff, same_iff]
  exact and_congr eq_comm eq_comm

end Interface

inductive NodeType
  | undefined
  | localDevice
  | application
  | peer
  | gateway
deriving DecidableEq

/-- A filter as it lies in memory. -/
structure NodeFilter where
  counting : Bool
  raw : Bytes
deriving DecidableEq

structure Node where
  type : NodeType
  id : Digest
  name : Bytes
  attrs : Attributes
  interfaces : List Interface
  nodeDescriptionCreateTime : Timeval
  matchThreshold : ℕ
  maxDataObjectsInMatch : ℕ
  bloomfilter : NodeFilter

namespace Node

/-- `setNodeDescriptionCreateTime`: only the node of the device itself is stamped. -/
def stamp (now : Timeval) (n : Node) : Node :=
  if n.type = .localDevice then { n with nodeDescriptionCreateTime := now } else n

def addAttribute (now : Timeval) (n : Node) (a : Attribute) : Node :=
  if (Attributes.find n.attrs a).isSome then n
  else stamp now { n with attrs := Attributes.add n.attrs a }

/-- An interface that is there already is replaced. -/
def putInterface (i : Interface) : List Interface → List Interface × Bool
  | [] => ([i], true)
  | j :: l =>
    if i.same j then (i :: l, false)
    else (j :: (putInterface i l).1, (putInterface i l).2)

def addInterface (now : Timeval) (n : Node) (i : Interface) : Node :=
  let r := putInterface i n.interfaces
  if r.2 then stamp now { n with interfaces := r.1 } else { n with interfaces := r.1 }

section Add

variable {now : Timeval} {n : Node}

end Add

end Node

end Haggle
