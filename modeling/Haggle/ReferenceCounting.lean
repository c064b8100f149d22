import Haggle.Pool
import Haggle.Trace
import Mathlib.Logic.Function.Basic

/-!
# Reference counting

References to one object share a counter, which is found through a table of all objects. A thread
executes the operations on references in steps: each locked section is one, and so is what stands
between two of them. Between the steps of one thread come steps of others, and the destructor of an
object, which ends the references that the object holds, is executed by the thread that has ended
the last reference to it. An assignment reads the counter of its source twice.
-/

namespace Haggle
namespace ReferenceCounting

section Model

abbrev Obj := ℕ

abbrev Counter := ℕ

/-- The counter of an object. -/
structure RefCounter where
  refcount : ℕ
  obj : Obj
deriving DecidableEq

/-- A reference in memory, `home` being the object it is a part of, if any. `live` says that it
counts for its counter: it does not while it is constructed, assigned or destroyed. -/
structure Reference where
  name : ℕ
  home : Option Obj
  refCount : Option Counter
  live : Bool
deriving DecidableEq

/-- Where a thread is in an operation. `counted` is the counter that the operation has counted for
its target, which no step reads. -/
inductive Frame
  | copyCount (r src : ℕ)
  | copyStore (r src : ℕ) (counted : Option Counter)
  | assignCount (r src : ℕ)
  | assignDrop (r src : ℕ) (counted : Option Counter)
  | assignStore (r src : ℕ) (counted : Option Counter)
  | destroyDrop (r : ℕ)
  | destroyEnd (r : ℕ)
  | erase (c : Counter)
  | free (c : Counter)
  | dealloc (o : Obj)
deriving DecidableEq

/-- The objects in memory with their addresses, the counters in memory, the table of objects by
their addresses, the number of counters made, the references and the threads; and which objects ever
had a reference, and which were deleted. -/
structure State where
  allocated : List Obj
  addr : Obj → ℕ
  counters : Counter → Option RefCounter
  objects : ℕ → Option Counter
  totNum : ℕ
  refs : List Reference
  threads : Pool Frame
  referenced : List Obj
  deleted : List Obj

/-- The steps: a new object at some address, a reference constructed from a pointer, the begin of an
operation by a thread, and a step of a thread. What is read of a reference that is gone is `junk`.
-/
inductive Action
  | new (o : Obj) (address : ℕ)
  | construct (r : ℕ) (home o : Option Obj)
  | copy (i r : ℕ) (home : Option Obj) (src : ℕ)
  | assign (i r src : ℕ)
  | destroy (i r : ℕ)
  | run (i : ℕ) (junk : Option Counter)

section Counters

def setCounter (c : Counter) (k : Option RefCounter) (s : State) : State :=
  { s with counters := Function.update s.counters c k }

/-- `inc_count`. A counter that has come to zero stays there. -/
def incCount (c : Counter) (s : State) : State :=
  match s.counters c with
  | none => s
  | some k =>
    if k.refcount = 0 then s
    else setCounter c (some { k with refcount := k.refcount + 1 }) s

/-- The locked section of `dec_count`, and whether the counter has come to zero in it. -/
def decCount (c : Counter) (s : State) : State × Bool :=
  match s.counters c with
  | none => (s, false)
  | some k =>
    if k.refcount = 0 then (s, false)
    else
      (setCounter c (some { k with refcount := k.refcount - 1 }) s, decide (k.refcount - 1 = 0))

/-- `RefCounter::create`: the counter in the table, or a new one. -/
def create (o : Option Obj) (s : State) : State × Option Counter :=
  match o with
  | none => (s, none)
  | some o =>
    match s.objects (s.addr o) with
    | some c =>
      match s.counters c with
      | none => (s, none)
      | some k => if k.refcount = 0 then (s, none) else (incCount c s, some c)
    | none =>
      ({ s with
        counters := Function.update s.counters s.totNum (some ⟨1, o⟩)
        objects := Function.update s.objects (s.addr o) (some s.totNum)
        totNum := s.totNum + 1
        referenced := o :: s.referenced }, some s.totNum)

end Counters

def setRef (r : ℕ) (f : Reference → Reference) (s : State) : State :=
  { s with refs := s.refs.map fun x => if x.name = r then f x else x }

/-- The frame on top of a thread is replaced. -/
def goto (i : ℕ) (fs : List Frame) (s : State) : State :=
  { s with threads := s.threads.replace i fs }

/-- The pointer of a reference to its counter. -/
def State.pointer (s : State) (r : ℕ) (junk : Option Counter) : Option Counter :=
  ((s.refs.find? (·.name = r)).map Reference.refCount).getD junk

/-- The counter that a reference points to is counted down. The thread goes on to `next`; before
that comes the deletion of the object if there is no other reference. -/
def drop (i r : ℕ) (next : Frame) (junk : Option Counter) (s : State) : State :=
  let s' := setRef r (fun x => { x with live := false }) s
  match s.pointer r junk with
  | none => goto i [next] s'
  | some c =>
    match decCount c s' with
    | (s', true) => goto i [.erase c, next] s'
    | (s', false) => goto i [next] s'

/-- The pointer of the source is read, now for the second time. -/
def store (i r src : ℕ) (junk : Option Counter) (s : State) : State :=
  goto i [] (setRef r (fun x => { x with refCount := s.pointer src junk, live := true }) s)

/-- The references that are parts of an object. -/
def State.members (s : State) (o : Obj) : List Reference := s.refs.filter (·.home = some o)

/-- A step of a thread. -/
def runFrame (i : ℕ) (junk : Option Counter) (s : State) : Frame → State
  | .copyCount r src =>
    match s.pointer src junk with
    | none => goto i [] (setRef r (fun x => { x with refCount := none, live := true }) s)
    | some c => goto i [.copyStore r src (some c)] (incCount c s)
  | .copyStore r src _ => store i r src junk s
  | .assignCount r src =>
    match s.pointer src junk with
    | none => goto i [.assignDrop r src none] s
    | some c => goto i [.assignDrop r src (some c)] (incCount c s)
  | .assignDrop r src counted => drop i r (.assignStore r src counted) junk s
  | .assignStore r src _ => store i r src junk s
  | .destroyDrop r => drop i r (.destroyEnd r) junk s
  | .destroyEnd r => goto i [] { s with refs := s.refs.filter (·.name ≠ r) }
  | .erase c =>
    match s.counters c with
    | none => goto i [.free c] s
    | some k =>
      goto i [.free c] { s with objects := Function.update s.objects (s.addr k.obj) none }
  | .free c =>
    match s.counters c with
    | none => goto i [] s
    | some k =>
      goto i ((s.members k.obj).map (fun x => .destroyDrop x.name) ++ [.dealloc k.obj])
        (setCounter c none s)
  | .dealloc o =>
    goto i [] { s with
      allocated := s.allocated.erase o
      refs := s.refs.filter (·.home ≠ some o)
      deleted := o :: s.deleted }

def step (s : State) : Action → State
  | .new o address =>
    { s with allocated := o :: s.allocated, addr := Function.update s.addr o address }
  | .construct r home o =>
    let (s, c) := create o s
    { s with refs := ⟨r, home, c, true⟩ :: s.refs }
  | .copy i r home src =>
    { s with
      refs := ⟨r, home, none, false⟩ :: s.refs
      threads := s.threads.push i [.copyCount r src] }
  | .assign i r src =>
    if r = src then s else { s with threads := s.threads.push i [.assignCount r src] }
  | .destroy i r => { s with threads := s.threads.push i [.destroyDrop r] }
  | .run i junk =>
    match s.threads.top i with
    | none => s
    | some f => runFrame i junk s f

/-- No objects, no references, and some number of threads that do nothing. -/
def start (n : ℕ) : State where
  allocated := []
  addr := fun _ => 0
  counters := fun _ => none
  objects := fun _ => none
  totNum := 0
  refs := []
  threads := Pool.idle n
  referenced := []
  deleted := []

end Model

section Property

/-- The references to the object of a counter. While one is constructed or assigned, it counts for
the object that it is going to refer to from the moment in which that is counted. -/
def Frame.counted : Frame → Option Counter
  | .copyStore _ _ c => c
  | .assignDrop _ _ c => c
  | .assignStore _ _ c => c
  | _ => none

def Reference.countsFor (x : Reference) (c : Counter) : Bool := x.live && x.refCount = some c

def Frame.countsFor (f : Frame) (c : Counter) : Bool := f.counted = some c

def live (s : State) (c : Counter) : ℕ :=
  s.refs.countP (·.countsFor c) + s.threads.frames.countP (·.countsFor c)

/-- The deletions of the object of a counter that have begun while the counter is in memory, and
those of an object behind that. -/
def ending (s : State) (c : Counter) : ℕ :=
  s.threads.frames.count (.erase c) + s.threads.frames.count (.free c)

def deallocating (s : State) (o : Obj) : ℕ := s.threads.frames.count (.dealloc o)

/-- A counter says how many references there are, and objects have one counter. As long as there are
references to an object it is in memory, and nobody deletes it; without them one thread does, so
that each object that has had references has some, or is being deleted once, or was deleted once. -/
structure Exact (s : State) : Prop where
  counted : ∀ c k, s.counters c = some k → k.refcount = live s c
  shared : ∀ c c' k k', s.counters c = some k → s.counters c' = some k' → k.obj = k'.obj → c = c'
  never : ∀ c, 0 < live s c → ending s c = 0 ∧
    ∃ k, s.counters c = some k ∧ k.obj ∈ s.allocated ∧ deallocating s k.obj = 0
  ends : ∀ c k, s.counters c = some k → live s c = 0 → ending s c = 1
  once : s.deleted.Nodup ∧ ∀ o ∈ s.deleted, o ∉ s.allocated
  accounted : ∀ o ∈ s.referenced, (∃ c k, s.counters c = some k ∧ k.obj = o) ∨
    deallocating s o = 1 ∨ o ∈ s.deleted

end Property

section Condition

/-- A reference refers to an object. -/
def State.refersTo (s : State) (x : Reference) (o : Obj) : Bool :=
  x.live && (x.refCount.bind s.counters).map RefCounter.obj = some o

/-- Where a reference can be constructed: its storage is not that of another one, and the object
that it is to be a part of is there and not being destroyed. -/
def Room (s : State) (r : ℕ) (home : Option Obj) : Prop :=
  (∀ x ∈ s.refs, x.name ≠ r) ∧ ∀ o ∈ home, o ∈ s.allocated ∧ .dealloc o ∉ s.threads.frames

/-- What a reference can be constructed from: no object, one that has not had a reference, or one to
which there is a reference. -/
def Referable (s : State) (o : Option Obj) : Prop :=
  ∀ o' ∈ o, o' ∈ s.allocated ∧ (o' ∈ s.referenced → ∃ x ∈ s.refs, s.refersTo x o' = true)

/-- A reference that is copied exists, and the object that it points to has a reference; and one
that is ended exists. -/
def Frame.Proper (s : State) : Frame → Prop
  | .copyCount _ src => ∃ x ∈ s.refs, x.name = src ∧ ∀ c ∈ x.refCount, 0 < live s c
  | .assignCount _ src => ∃ x ∈ s.refs, x.name = src ∧ ∀ c ∈ x.refCount, 0 < live s c
  | .assignDrop r _ _ => ∃ x ∈ s.refs, x.name = r
  | .destroyDrop r => ∃ x ∈ s.refs, x.name = r
  | _ => True

/-- What the code relies on: that memory is given to one object at a time; that a reference is made
in free storage and from an object to which there is a reference; and that references that are
copied or ended exist. -/
def Proper (s : State) : Action → Prop
  | .new o address => o ∉ s.allocated ∧ o ∉ s.deleted ∧ ∀ o' ∈ s.allocated, s.addr o' ≠ address
  | .construct r home o => Room s r home ∧ Referable s o
  | .copy i r home _ => i < s.threads.length ∧ Room s r home
  | .assign i _ _ => i < s.threads.length
  | .destroy i _ => i < s.threads.length
  | .run i _ => ∀ f ∈ s.threads.top i, f.Proper s

/-- When the source of a copy or an assignment is read for the second time it is there and points to
the counter that was counted, and a reference is not ended by two operations at once. -/
def Frame.Steady (s : State) : Frame → Prop
  | .copyStore _ src counted => ∃ x ∈ s.refs, x.name = src ∧ x.refCount = counted
  | .assignStore _ src counted => ∃ x ∈ s.refs, x.name = src ∧ x.refCount = counted
  | .assignDrop r _ _ => ∃ x ∈ s.refs, x.name = r ∧ x.live = true
  | .destroyDrop r => ∃ x ∈ s.refs, x.name = r ∧ x.live = true
  | _ => True

def Steady (s : State) : Action → Prop
  | .run i _ => ∀ f ∈ s.threads.top i, f.Steady s
  | _ => True

section Instances

variable (s : State)

instance (r : ℕ) (home : Option Obj) : Decidable (Room s r home) :=
  inferInstanceAs (Decidable (_ ∧ _))

instance (o : Option Obj) : Decidable (Referable s o) :=
  inferInstanceAs (Decidable (∀ o' ∈ o, _ ∧ (_ → _)))

instance : ∀ f : Frame, Decidable (f.Proper s)
  | .copyCount _ _ => inferInstanceAs (Decidable (∃ x ∈ s.refs, _ ∧ ∀ c ∈ x.refCount, _))
  | .assignCount _ _ => inferInstanceAs (Decidable (∃ x ∈ s.refs, _ ∧ ∀ c ∈ x.refCount, _))
  | .assignDrop _ _ _ => inferInstanceAs (Decidable (∃ x ∈ s.refs, _))
  | .destroyDrop _ => inferInstanceAs (Decidable (∃ x ∈ s.refs, _))
  | .copyStore _ _ _ => .isTrue trivial
  | .assignStore _ _ _ => .isTrue trivial
  | .destroyEnd _ => .isTrue trivial
  | .erase _ => .isTrue trivial
  | .free _ => .isTrue trivial
  | .dealloc _ => .isTrue trivial

instance : ∀ f : Frame, Decidable (f.Steady s)
  | .copyStore _ _ _ => inferInstanceAs (Decidable (∃ x ∈ s.refs, _ ∧ _))
  | .assignStore _ _ _ => inferInstanceAs (Decidable (∃ x ∈ s.refs, _ ∧ _))
  | .assignDrop _ _ _ => inferInstanceAs (Decidable (∃ x ∈ s.refs, _ ∧ _))
  | .destroyDrop _ => inferInstanceAs (Decidable (∃ x ∈ s.refs, _ ∧ _))
  | .copyCount _ _ => .isTrue trivial
  | .assignCount _ _ => .isTrue trivial
  | .destroyEnd _ => .isTrue trivial
  | .erase _ => .isTrue trivial
  | .free _ => .isTrue trivial
  | .dealloc _ => .isTrue trivial

instance : ∀ a, Decidable (Proper s a)
  | .new _ _ => inferInstanceAs (Decidable (_ ∧ _ ∧ ∀ o' ∈ s.allocated, _))
  | .construct _ _ _ => inferInstanceAs (Decidable (_ ∧ _))
  | .copy _ _ _ _ => inferInstanceAs (Decidable (_ ∧ _))
  | .assign _ _ _ => inferInstanceAs (Decidable (_ < _))
  | .destroy _ _ => inferInstanceAs (Decidable (_ < _))
  | .run i _ => inferInstanceAs (Decidable (∀ f ∈ s.threads.top i, _))

instance : ∀ a, Decidable (Steady s a)
  | .run i _ => inferInstanceAs (Decidable (∀ f ∈ s.threads.top i, _))
  | .new _ _ => .isTrue trivial
  | .construct _ _ _ => .isTrue trivial
  | .copy _ _ _ _ => .isTrue trivial
  | .assign _ _ _ => .isTrue trivial
  | .destroy _ _ => .isTrue trivial

end Instances

end Condition

end ReferenceCounting
end Haggle
