import Haggle.ObjectIdentity
import Haggle.StoredNodeWrite

/-!
# Nodes that come back from the data store

The tables give back the attributes of a node with weights of 32 bits, and its interfaces as far as
an interface can be made of its identifier. A node of the node store is returned in the place of the
one in the tables, and is itself changed by what the tables add to it.
-/

namespace Haggle
namespace StoredNode

open StoredObject (columnText columnBlob columnInt milliseconds)

section Attributes

variable {k : NodeKernel} {db : NodeTables} {R : ℤ} {n : Node}

/-- An attribute as it is read: with the weight of type `int`. -/
def asRead (a : Attribute) : Attribute := { a with weight := unsigned (int32 (signed a.weight)) }

def readAttribute (x : Option (Bytes × Bytes) × ℤ) : Option Attribute :=
  x.1.map fun nv => ⟨nv.1, nv.2, unsigned (int32 x.2)⟩

theorem Named.nodup {p : List Attribute} (h : Named db R p) (hd : (p.map nameAndValue).Nodup) :
    ((linksOf db R).map Prod.fst).Nodup := by
  have hmap : ((linksOf db R).map Prod.fst).map (nameValue db.attributes) =
      (p.map nameAndValue).map some := by
    have hfst := congrArg (List.map Prod.fst) h
    rw [List.map_map, List.map_map] at hfst
    rw [List.map_map, List.map_map]
    exact hfst
  apply List.Nodup.of_map (nameValue db.attributes)
  rw [hmap]
  exact hd.map (Option.some_injective _)

end Attributes

section Interfaces

variable {k : NodeKernel} {n : Node}

/-- The interface that the type and the identifier of an interface are read as. -/
def reread (k : NodeKernel) (i : Interface) : Option Interface :=
  match k.interfaceStore.find? (·.equal i.type i.identifier) with
  | some j => some j
  | none => Interface.create k.memory i.type i.identifier

end Interfaces

section Add

variable {now : Timeval} {n m : Node}

end Add

section Fill

variable {k : NodeKernel} {db : NodeTables} {n m : Node} {js : List Interface}

/-- What a node and the node that is returned for it have in common. -/
structure Same (n r : Node) : Prop where
  id : r.id = n.id
  type : r.type = n.type
  attrs : r.attrs.toList.Perm n.attrs.toList
  interfaces : r.interfaces.map interfaceKey = n.interfaces.map interfaceKey
  createTime : r.nodeDescriptionCreateTime = n.nodeDescriptionCreateTime
  threshold : r.matchThreshold = n.matchThreshold
  bloomfilter : r.bloomfilter = n.bloomfilter

/-- The time of a node that is made of the tables. -/
def readTime (k : NodeKernel) (n : Node) : Timeval :=
  if n.type = .localDevice ∧ (n.attrs.toList ≠ [] ∨ n.interfaces ≠ []) then k.now
  else storedTime (milliseconds n.nodeDescriptionCreateTime)

/-- When a node that is not in the node store comes back as it was. -/
structure Survives (k : NodeKernel) (n : Node) : Prop where
  id : n.type = .localDevice → k.deviceId = n.id
  weights : ∀ e ∈ n.attrs.toList, asRead e.2 = e.2
  time : readTime k n = n.nodeDescriptionCreateTime
  threshold : n.matchThreshold < 2 ^ 32
  filter : n.bloomfilter.counting = decide (n.type = .application) ∧ n.bloomfilter.raw ≠ []

/-- The node that is made of a row, before the other tables are read. -/
def fresh (k : NodeKernel) (n : Node) : Node where
  type := n.type
  id := if n.type = .localDevice then k.deviceId else n.id
  name := cStr n.name
  attrs := HashMap.empty
  interfaces := []
  nodeDescriptionCreateTime := storedTime (milliseconds n.nodeDescriptionCreateTime)
  matchThreshold := (int32 n.matchThreshold).toNat
  maxDataObjectsInMatch := (int32 n.maxDataObjectsInMatch).toNat
  bloomfilter := ⟨n.type = .application, n.bloomfilter.raw⟩

end Fill

section Retrieve

variable {k : NodeKernel} {db : NodeTables} {n m : Node}

/-- The interfaces of a node can be made of their types and identifiers. -/
def Recreated (k : NodeKernel) (n : Node) (js : List Interface) : Prop :=
  n.interfaces.map (reread k) = js.map some ∧ js.map interfaceKey = n.interfaces.map interfaceKey

theorem interfaceKey_eq_iff {i j : Interface} :
    interfaceKey i = interfaceKey j ↔ i.same j = true := by
  rw [Interface.same_iff, interfaceKey, interfaceKey, Prod.mk.injEq, Nat.cast_inj]
  exact and_congr_left fun _ => ⟨interfaceTypeNumber_inj, fun h => by rw [h]⟩

theorem pairwise_iff_nodup (l : List Interface) :
    (l.Pairwise fun i j => i.same j = false) ↔ (l.map interfaceKey).Nodup := by
  rw [List.Nodup, List.pairwise_map]
  refine ⟨fun h => h.imp fun hij => ?_, fun h => h.imp fun hij => ?_⟩
  · rw [Ne, interfaceKey_eq_iff, hij]
    exact Bool.false_ne_true
  · rw [Ne, interfaceKey_eq_iff] at hij
    simpa using hij

theorem Recreated.pairwise {js : List Interface} (h : Recreated k n js) (hd : Distinct n) :
    js.Pairwise fun i j => i.same j = false := by
  rw [pairwise_iff_nodup, h.2, ← pairwise_iff_nodup]
  exact hd.interfaces

end Retrieve

end StoredNode

namespace Sample

open StoredNode

def ethernet : Interface := ⟨.ethernet, [1, 2, 3, 4, 5, 6], [], false⟩

def weighted (w : ℕ) : Node where
  type := .peer
  id := digest
  name := lit "n"
  attrs := Attributes.add HashMap.empty ⟨lit "a", lit "v", w⟩
  interfaces := [ethernet]
  nodeDescriptionCreateTime := ⟨7, 500000⟩
  matchThreshold := 10
  maxDataObjectsInMatch := 10
  bloomfilter := ⟨false, [1]⟩

/-- A kernel with no nodes and no interfaces. -/
def bareKernel : NodeKernel := ⟨[], [], digest, ⟨9, 0⟩, ⟨[], []⟩⟩

end Sample
end Haggle
