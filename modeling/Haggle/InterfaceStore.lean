import Haggle.Node
import Haggle.Trace

/-!
# The interface store

The store has a record for each interface that is known, with the interface that it was discovered
on and a policy that says when it is dead. Interfaces are objects that callers hold references to as
well; a reference is the position of its object here. Objects are never freed.
-/

namespace Haggle

/-- An interface with its name and its flags. -/
structure InterfaceObject extends Interface where
  name : Bytes
  isLocal : Bool
  isSnooped : Bool
  isStored : Bool

/-- `ConnectivityInterfacePolicy` and its subclasses. -/
inductive InterfacePolicy
  | ttl (base_ttl current_ttl : ℤ)
  | ageless
  | time (expiry : Timeval)

namespace InterfacePolicy

def update : InterfacePolicy → InterfacePolicy
  | .ttl base_ttl _ => .ttl base_ttl base_ttl
  | policy => policy

def age : InterfacePolicy → InterfacePolicy
  | .ttl base_ttl current_ttl =>
    .ttl base_ttl (if 0 < current_ttl then current_ttl - 1 else current_ttl)
  | policy => policy

def isDead (now : Timeval) : InterfacePolicy → Bool
  | .ttl _ current_ttl => current_ttl = 0
  | .ageless => false
  | .time expiry => decide (expiry.lt now)

def lifetime : InterfacePolicy → Timeval
  | .time expiry => expiry
  | _ => ⟨-1, 0⟩

end InterfacePolicy

structure InterfaceRecord where
  iface : ℕ
  parent : Option ℕ
  cip : Option InterfacePolicy

structure InterfaceStore where
  objects : List InterfaceObject
  records : List InterfaceRecord

namespace InterfaceStore

def empty : InterfaceStore := ⟨[], []⟩

/-- What a reference points to, and whether that meets a condition. -/
def deref (s : InterfaceStore) (ref : Option ℕ) : Option Interface :=
  (ref.bind (s.objects[·]?)).map (·.toInterface)

def points (s : InterfaceStore) (p : InterfaceObject → Bool) (ref : ℕ) : Bool :=
  (s.objects[ref]?).any p

/-- `operator==`. -/
def sameAs (i : Interface) (o : InterfaceObject) : Bool := o.toInterface.same i

/-- The flag `IFFLAG_STORED` of some objects is set or reset. -/
def setStored (s : InterfaceStore) (refs : List ℕ) (b : Bool) : InterfaceStore :=
  { s with objects := s.objects.mapIdx fun i o => if i ∈ refs then { o with isStored := b } else o }

/-- `retrieve`. -/
def retrieve (s : InterfaceStore) (p : InterfaceObject → Bool) : Option ℕ :=
  (s.records.find? fun ir => s.points p ir.iface).map (·.iface)

section Adding

/-- What `addupdate` returns, and what it writes to `was_added`. -/
structure Reply where
  iface : Option ℕ
  was_added : Option Bool

def given (was_added b : Bool) : Option Bool := if was_added then some b else none

/-- The loop of `addupdate`: a record that is there gets the new policy, and if its interface was
snooped, the parent. -/
def update (s : InterfaceStore) (i : Interface) (parent : Option ℕ)
    (policy : Option InterfacePolicy) : Option (ℕ × InterfaceStore) :=
  (s.records.find? fun ir => s.points (sameAs i) ir.iface).map fun ir =>
    let snooped := s.points (·.isSnooped) ir.iface
    (ir.iface,
      { objects := if snooped then s.objects.modify ir.iface fun o => { o with isSnooped := false }
          else s.objects
        records := s.records.modify (s.records.findIdx fun ir => s.points (sameAs i) ir.iface)
          fun ir => { ir with
            parent := if snooped then parent else ir.parent
            cip := policy.map (·.update) } })

def addRecord (s : InterfaceStore) (ir : InterfaceRecord) : InterfaceStore :=
  { s with records := s.records ++ [ir] }

/-- `copy`: the new object is not marked as stored. -/
def copy (s : InterfaceStore) (o : InterfaceObject) : InterfaceStore :=
  { s with objects := s.objects ++ [{ o with isStored := false }] }

/-- The reference to the parent that the store has. It is `none` if a parent is named that is not in
the store. -/
def parentStore (s : InterfaceStore) : Option Interface → Option (Option ℕ)
  | none => some none
  | some i => (s.retrieve (sameAs i)).map some

/-- `addupdate(InterfaceRef&, const InterfaceRef&, ...)`. -/
def addupdateRef (s : InterfaceStore) (iface parent : Option ℕ) (policy : Option InterfacePolicy)
    (was_added : Bool) : Reply × InterfaceStore :=
  match iface, s.deref iface with
  | some ref, some i =>
    match s.parentStore (s.deref parent) with
    | none => (⟨none, given was_added false⟩, s)
    | some parentStore =>
      match s.update i parentStore policy with
      | some (ifaceStore, s) => (⟨some ifaceStore, given was_added false⟩, s)
      | none =>
        let s := s.addRecord ⟨ref, parentStore, policy⟩
        (⟨some ref, given was_added true⟩, if was_added then s.setStored [ref] true else s)
  | _, _ => (⟨none, none⟩, s)

/-- `addupdate(Interface *, const InterfaceRef&, ...)`: a parent that is not in the store counts as
none, and the copy is marked whether or not the caller asks if it was added. -/
def addupdateFound (s : InterfaceStore) (iface : Option InterfaceObject) (parent : Option ℕ)
    (policy : Option InterfacePolicy) (was_added : Bool) : Reply × InterfaceStore :=
  match iface with
  | none => (⟨none, none⟩, s)
  | some o =>
    let parentRef := (s.deref parent).bind fun i => s.retrieve (sameAs i)
    match s.update o.toInterface parentRef policy with
    | some (ifaceInStore, s) => (⟨some ifaceInStore, given was_added false⟩, s)
    | none =>
      let ifaceRef := s.objects.length
      (⟨some ifaceRef, given was_added true⟩,
        ((s.copy o).setStored [ifaceRef] true).addRecord ⟨ifaceRef, parentRef, policy⟩)

/-- `addupdate(Interface *, const Interface *, ...)`. -/
def addupdatePtr (s : InterfaceStore) (iface : Option InterfaceObject) (parent : Option Interface)
    (policy : Option InterfacePolicy) (was_added : Bool) : Reply × InterfaceStore :=
  match iface with
  | none => (⟨none, none⟩, s)
  | some o =>
    match s.parentStore parent with
    | none => (⟨none, given was_added false⟩, s)
    | some parentStore =>
      match s.update o.toInterface parentStore policy with
      | some (ifaceStore, s) => (⟨some ifaceStore, given was_added false⟩, s)
      | none =>
        let ifaceRef := s.objects.length
        let s := (s.copy o).addRecord ⟨ifaceRef, parentStore, policy⟩
        (⟨some ifaceRef, given was_added true⟩,
          if was_added then s.setStored [ifaceRef] true else s)

end Adding

section Removing

/-- `remove_children`, with the interfaces that are removed. The fuel is more than the number of
records, each call that finds something has fewer of them left. -/
def removeChildren : ℕ → InterfaceStore → Option ℕ → InterfaceStore × List ℕ
  | 0, s, _ => (s, [])
  | fuel + 1, s, parent =>
    let isChild := fun ir : InterfaceRecord =>
      ir.parent.any fun q => (s.deref parent).any fun i => s.points (sameAs i) q
    let children := (s.records.filter isChild).map (·.iface)
    children.reverse.foldl
      (fun r c =>
        let (s, removed) := removeChildren fuel r.1 (some c)
        (s, r.2 ++ removed))
      ({ s.setStored children false with records := s.records.filter fun ir => !isChild ir },
        children)

/-- The record of the first interface that meets a condition is removed, with the interfaces that
were discovered on it and so on. -/
def removeRecord (s : InterfaceStore) (p : InterfaceObject → Bool) :
    Option (ℕ × InterfaceStore × List ℕ) :=
  (s.retrieve p).map fun iface =>
    let (s', removed) := removeChildren s.records.length
      { s with records := s.records.eraseP fun ir => s.points p ir.iface } (some iface)
    (iface, s'.setStored [iface] false, removed)

def removeFirst (s : InterfaceStore) (p : InterfaceObject → Bool) : InterfaceStore × List ℕ :=
  match s.removeRecord p with
  | none => (s, [])
  | some (iface, s, removed) => (s, iface :: removed)

/-- `remove(const string, ...)`. -/
def removeName (s : InterfaceStore) (name : Bytes) : InterfaceStore × List ℕ :=
  s.removeFirst fun o => cStr o.name = name

/-- `remove(const Interface *, ...)`. -/
def removePtr (s : InterfaceStore) : Option Interface → InterfaceStore × List ℕ
  | none => removeChildren (s.records.length + 1) s none
  | some i => s.removeFirst (sameAs i)

/-- `remove(const InterfaceRef&, ...)`. -/
def removeRef (s : InterfaceStore) (iface : Option ℕ) : InterfaceStore × List ℕ :=
  s.removePtr (s.deref iface)

/-- `remove(Interface::Type_t, const unsigned char *, ...)`: the interface comes after its children
in the list. -/
def removeIdentifier (s : InterfaceStore) (type : InterfaceType) :
    Option Bytes → InterfaceStore × List ℕ
  | none => removeChildren (s.records.length + 1) s none
  | some identifier =>
    match s.removeRecord fun o => o.toInterface.equal type identifier with
    | none => (s, [])
    | some (iface, s, removed) => (s, removed ++ [iface])

end Removing

section Aging

/-- The loop of `age`: the records that stay, the interfaces that are dead, and the time at which
the next one dies. It needs a policy for each record that it looks at. -/
def ageRecords (applies : InterfaceRecord → Bool) (clock : ℕ → Timeval) :
    List InterfaceRecord → Timeval → Option (List InterfaceRecord × List ℕ × Timeval)
  | [], lifetime => some ([], [], lifetime)
  | ir :: l, lifetime =>
    if applies ir then
      ir.cip.bind fun cip =>
        if cip.isDead (clock ir.iface) then
          (ageRecords applies clock l lifetime).map fun r => (r.1, ir.iface :: r.2.1, r.2.2)
        else
          let cip := cip.age
          let sooner := cip.lifetime.isValid &&
            (!lifetime.isValid || decide (cip.lifetime.lt lifetime))
          (ageRecords applies clock l (if sooner then cip.lifetime else lifetime)).map fun r =>
            ({ ir with cip := some cip } :: r.1, r.2)
    else (ageRecords applies clock l lifetime).map fun r => (ir :: r.1, r.2)

/-- `age`, for the interfaces that were discovered on one that meets a condition, or for the local
ones. -/
def age (s : InterfaceStore) (parent : Option (InterfaceObject → Bool)) (clock : ℕ → Timeval) :
    Option (InterfaceStore × List ℕ × Timeval) :=
  let applies := fun ir : InterfaceRecord =>
    s.points (·.isLocal) ir.iface && parent.isNone ||
      (parent.any fun p => ir.parent.any (s.points p)) && !s.points (·.isSnooped) ir.iface
  (ageRecords applies clock s.records ⟨-1, 0⟩).map fun (kept, dead, lifetime) =>
    let (s, removed) := dead.reverse.foldl
      (fun r c =>
        let (s, removed) := removeChildren (s.records.length + 1) r.1 (some c)
        (s, r.2 ++ removed))
      ({ s.setStored dead false with records := kept }, dead)
    (s, removed, lifetime)

/-- `age(const Interface *, ...)`. -/
def agePtr (s : InterfaceStore) (parent : Option Interface) :=
  s.age (parent.map sameAs)

/-- `age(const InterfaceRef&, ...)`. -/
def ageRef (s : InterfaceStore) (parent : Option ℕ) :=
  s.agePtr (s.deref parent)

/-- `age(Interface::Type_t, const unsigned char *, ...)`. -/
def ageIdentifier (s : InterfaceStore) (type : InterfaceType) (identifier : Option Bytes) :=
  s.age (identifier.map fun identifier o => o.toInterface.equal type identifier)

end Aging

section Calls

inductive AddCall
  | ref (iface parent : Option ℕ) (policy : Option InterfacePolicy) (was_added : Bool)
  | found (iface : Option InterfaceObject) (parent : Option ℕ) (policy : Option InterfacePolicy)
      (was_added : Bool)
  | ptr (iface : Option InterfaceObject) (parent : Option Interface)
      (policy : Option InterfacePolicy) (was_added : Bool)

def addupdate (s : InterfaceStore) : AddCall → Reply × InterfaceStore
  | .ref iface parent policy was_added => s.addupdateRef iface parent policy was_added
  | .found iface parent policy was_added => s.addupdateFound iface parent policy was_added
  | .ptr iface parent policy was_added => s.addupdatePtr iface parent policy was_added

/-- The calls of the store, and what callers do to the interfaces in between: they make new ones and
change the flags that are not the store's. -/
inductive Call
  | create (o : InterfaceObject)
  | setFlags (ref : ℕ) (isUp isLocal isSnooped : Bool)
  | addupdate (c : AddCall)
  | removeName (name : Bytes)
  | removePtr (iface : Option Interface)
  | removeRef (iface : Option ℕ)
  | removeIdentifier (type : InterfaceType) (identifier : Option Bytes)
  | agePtr (parent : Option Interface) (clock : ℕ → Timeval)
  | ageRef (parent : Option ℕ) (clock : ℕ → Timeval)
  | ageIdentifier (type : InterfaceType) (identifier : Option Bytes) (clock : ℕ → Timeval)

def setFlags (s : InterfaceStore) (ref : ℕ) (isUp isLocal isSnooped : Bool) : InterfaceStore :=
  { s with objects := s.objects.modify ref fun o =>
      { o with isUp := isUp, isLocal := isLocal, isSnooped := isSnooped } }

def step (s : InterfaceStore) : Call → Option InterfaceStore
  | .create o => some (s.copy o)
  | .setFlags ref isUp isLocal isSnooped => some (s.setFlags ref isUp isLocal isSnooped)
  | .addupdate c => some (s.addupdate c).2
  | .removeName name => some (s.removeName name).1
  | .removePtr iface => some (s.removePtr iface).1
  | .removeRef iface => some (s.removeRef iface).1
  | .removeIdentifier type identifier => some (s.removeIdentifier type identifier).1
  | .agePtr parent clock => (s.agePtr parent clock).map Prod.fst
  | .ageRef parent clock => (s.ageRef parent clock).map Prod.fst
  | .ageIdentifier type identifier clock => (s.ageIdentifier type identifier clock).map Prod.fst

end Calls

end InterfaceStore
end Haggle
