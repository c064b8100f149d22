import Haggle.InterfaceStore

/-!
# Looking up the parent of a peer interface

`retrieve` goes through the records once and asks a criterion about each of them. It takes the
criterion by value, as the base class: whatever it is given, what it asks is a copy of the base
part, whose operator is always true. The operator of `PeerParentCriteria` is not constant besides,
and so it overrides nothing.
-/

namespace Haggle
namespace InterfaceStore

section Criteria

/-- An object of `Criteria` or of a class that is derived from it: what it holds, and its operator,
which may change that. -/
structure Criteria (σ : Type) where
  state : σ
  apply : σ → InterfaceRecord → Bool × σ

/-- `Criteria::operator()`. -/
def Criteria.base : Criteria Unit := ⟨(), fun _ _ => (true, ())⟩

/-- The copy that is made of an argument of type `const Criteria`. -/
def Criteria.sliced {σ : Type} (_ : Criteria σ) : Criteria Unit := base

/-- The records that a criterion accepts in one pass. -/
def accepted {σ : Type} (apply : σ → InterfaceRecord → Bool × σ) :
    σ → List InterfaceRecord → List InterfaceRecord
  | _, [] => []
  | c, ir :: l =>
    let (hit, c) := apply c ir
    if hit then ir :: accepted apply c l else accepted apply c l

/-- `retrieve(const Criteria, InterfaceRefList&)`: the interfaces it adds to the list. -/
def retrieveAll {σ : Type} (s : InterfaceStore) (crit : Criteria σ) : List ℕ :=
  (accepted crit.sliced.apply crit.sliced.state s.records).map (·.iface)

/-- `PeerParentCriteria`, with its parent. -/
def peerParentCriteria (s : InterfaceStore) (peerIface : Interface) : Criteria (Option ℕ) where
  state := none
  apply parent ir :=
    let isParent := (s.deref parent).any fun i =>
      s.points (fun o => sameAs i o && o.isUp) ir.iface
    if isParent then (true, parent)
    else (false, if s.points (sameAs peerIface) ir.iface then ir.parent else parent)

end Criteria

variable {s : InterfaceStore} {peerIface : Interface}

theorem accepted_base (l : List InterfaceRecord) :
    accepted Criteria.base.apply Criteria.base.state l = l := by
  induction l with
  | nil => rfl
  | cons ir l ih => exact congrArg (ir :: ·) ih

theorem retrieveAll_eq {σ : Type} (s : InterfaceStore) (crit : Criteria σ) :
    s.retrieveAll crit = s.records.map (·.iface) := by
  rw [retrieveAll, Criteria.sliced, accepted_base]

/-- The parent of a peer interface, which is stored and up. -/
structure HasParent (s : InterfaceStore) (peerIface : Interface) (parent : ℕ) : Prop where
  record : ∃ ir ∈ s.records, s.points (sameAs peerIface) ir.iface = true ∧ ir.parent = some parent
  stored : ∃ ir ∈ s.records, ir.iface = parent
  isUp : s.points (·.isUp) parent = true

/-- The parent is all that is retrieved exactly if its record is the only one, so that the peer is
its own parent. -/
theorem retrieveAll_peerParent_iff {parent : ℕ} (h : s.HasParent peerIface parent) :
    s.retrieveAll (s.peerParentCriteria peerIface) = [parent] ↔ s.records.length = 1 := by
  rw [retrieveAll_eq]
  constructor
  · intro heq
    have hlen := congrArg List.length heq
    rwa [List.length_map, List.length_singleton] at hlen
  · intro hlen
    obtain ⟨ir, hir⟩ := List.length_eq_one_iff.mp hlen
    obtain ⟨ir', hmem, rfl⟩ := h.stored
    rw [hir, List.mem_singleton] at hmem
    rw [hir, hmem]
    rfl

end InterfaceStore

namespace Sample

open InterfaceStore

def wirelessCard (mac : Bytes) (isLocal : Bool) : InterfaceObject :=
  { type := .wifi, identifier := mac, addresses := [], isUp := true, name := lit "wlan0"
    isLocal := isLocal, isSnooped := false, isStored := true }

/-- A local interface, and a peer that was discovered on it. -/
def localAndPeer : InterfaceStore where
  objects := [wirelessCard [0, 0, 0, 0, 0, 1] true, wirelessCard [0, 0, 0, 0, 0, 2] false]
  records := [⟨0, none, none⟩, ⟨1, some 0, none⟩]

/-- An interface that is recorded as its own parent. -/
def ownParent : InterfaceStore where
  objects := [wirelessCard [0, 0, 0, 0, 0, 1] true]
  records := [⟨0, some 0, none⟩]

theorem retrieveAll_ownParent :
    ownParent.HasParent (wirelessCard [0, 0, 0, 0, 0, 1] true).toInterface 0 ∧
    ownParent.retrieveAll (ownParent.peerParentCriteria
      (wirelessCard [0, 0, 0, 0, 0, 1] true).toInterface) = [0] := by
  have h : ownParent.HasParent (wirelessCard [0, 0, 0, 0, 0, 1] true).toInterface 0 :=
    ⟨⟨⟨0, some 0, none⟩, List.mem_singleton_self _, by decide, rfl⟩,
      ⟨⟨0, some 0, none⟩, List.mem_singleton_self _, rfl⟩, by decide⟩
  exact ⟨h, (retrieveAll_peerParent_iff h).mpr rfl⟩

/-- The peer is retrieved together with its parent. -/
theorem not_retrieveAll_parent :
    localAndPeer.HasParent (wirelessCard [0, 0, 0, 0, 0, 2] false).toInterface 0 ∧
      localAndPeer.retrieveAll (localAndPeer.peerParentCriteria
        (wirelessCard [0, 0, 0, 0, 0, 2] false).toInterface) ≠ [0] := by
  refine ⟨⟨⟨⟨1, some 0, none⟩, ?_, by decide, rfl⟩, ⟨⟨0, none, none⟩, ?_, rfl⟩, by decide⟩,
    by decide⟩
  · exact List.mem_cons_of_mem _ (List.mem_singleton_self _)
  · exact List.mem_cons_self

end Sample
end Haggle
