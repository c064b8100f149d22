import Haggle.InterfacePresence

/-!
# The blacklist of the connectivity manager

The kernel's thread changes the blacklist and the threads of the connectivities report interfaces.
The mutex of the blacklist covers each look at it, and the addition to it until the interface is
removed from the store, but not the way from the look of a report to its insertion into the store.
-/

namespace Haggle

open InterfaceStore

/-- What is reported: an interface that was found, or a reference to one. The caller always asks
whether it was added. -/
inductive Report
  | found (iface : Option InterfaceObject) (found_by : Option ℕ) (policy : Option InterfacePolicy)
  | ref (iface found_by : Option ℕ) (policy : Option InterfacePolicy)

namespace Report

def call : Report → AddCall
  | .found iface found_by policy => .found iface found_by policy true
  | .ref iface found_by policy => .ref iface found_by policy true

def iface (s : InterfaceStore) (r : Report) : Option Interface := r.call.iface s

end Report

/-- The overloads of `delete_interface`, and `age_interfaces`. -/
inductive Removal
  | ref (iface : Option ℕ)
  | ptr (iface : Option Interface)
  | identifier (type : InterfaceType) (id : Option Bytes)
  | name (ifname : Bytes)
  | age (whose : Option ℕ) (clock : ℕ → Timeval)

/-- The store and the dead interfaces; none if a record without a policy is aged. -/
def Removal.apply (s : InterfaceStore) : Removal → Option (InterfaceStore × List ℕ)
  | .ref iface => some (s.removeRef iface)
  | .ptr iface => some (s.removePtr iface)
  | .identifier type id => some (s.removeIdentifier type id)
  | .name ifname => some (s.removeName ifname)
  | .age whose clock => (s.ageRef whose clock).map fun r => (r.1, r.2.1)

inductive InterfaceEvent
  | localUp (iface : ℕ)
  | neighborUp (iface : ℕ)
  | localDown (iface : ℕ)
  | neighborDown (iface : ℕ)
deriving DecidableEq

/-- Where a thread stands: between two operations, or before the next step of one. -/
inductive Handler
  | idle
  -- an element of a blacklist data object, with the address that was read
  | entry (type : InterfaceType) (etha : Option Bytes) (action : Option Bytes)
  | adding (type : InterfaceType) (identifier : Bytes)
  | listing (type : InterfaceType) (identifier : Bytes)
  | listed (type : InterfaceType) (identifier : Bytes)
  | removing (type : InterfaceType) (identifier : Bytes)
  | reporting (r : Report)
  | cleared (r : Report)
  | added (iface : ℕ)
  | deleting (r : Removal)
  -- the dead interfaces that are left to report, and whether this is done under the mutex
  | reportDead (dead : List ℕ) (locked : Bool)

structure ConnectivityManager where
  store : InterfaceStore
  blacklist : List (InterfaceType × Bytes)
  blMutex : Bool
  handlers : List Handler
  events : List InterfaceEvent

namespace ConnectivityManager

def start (threads : ℕ) : ConnectivityManager :=
  ⟨InterfaceStore.empty, [], false, List.replicate threads .idle, []⟩

def isListed (type : InterfaceType) (identifier : Bytes) (entry : InterfaceType × Bytes) : Bool :=
  entry.1 = type && entry.2.isPrefixOf identifier

def isBlacklisted (s : ConnectivityManager) (type : InterfaceType) (identifier : Bytes) : Bool :=
  s.blacklist.any (isListed type identifier)

def goTo (s : ConnectivityManager) (t : ℕ) (h : Handler) : ConnectivityManager :=
  { s with handlers := s.handlers.set t h }

/-- `up` and `down` of an interface. -/
def setUp (s : ConnectivityManager) (iface : ℕ) (isUp : Bool) : ConnectivityManager :=
  { s with store := { s.store with
      objects := s.store.objects.modify iface fun o => { o with isUp } } }

def isLocal (s : ConnectivityManager) (iface : ℕ) : Bool := s.store.points (·.isLocal) iface

def post (s : ConnectivityManager) (e : InterfaceEvent) : ConnectivityManager :=
  { s with events := s.events ++ [e] }

def isMacType : InterfaceType → Bool
  | .ethernet | .bluetooth | .wifi => true
  | _ => false

/-- The next step of thread `t`. A thread that needs the mutex of the blacklist waits while another
one has it. -/
def advance (s : ConnectivityManager) (t : ℕ) : Handler → ConnectivityManager
  | .idle => s
  | .entry type etha action =>
    match etha with
    | none => s.goTo t .idle
    | some identifier =>
      if !isMacType type then s.goTo t .idle
      else if s.blMutex then s
      else if s.isBlacklisted type identifier then
        s.goTo t (if action = some (lit "add") then .idle else .removing type identifier)
      else s.goTo t (if action = some (lit "remove") then .idle else .adding type identifier)
  | .adding type identifier =>
    if s.blMutex then s
    else s.goTo t (if s.isBlacklisted type identifier then .idle else .listing type identifier)
  | .listing type identifier =>
    if s.blMutex then s
    else { s.goTo t (.listed type identifier) with
      blMutex := true
      blacklist := s.blacklist ++ [(type, identifier)] }
  | .listed type identifier =>
    let r := s.store.removePtr (some ⟨type, identifier, [], false⟩)
    { s.goTo t (.reportDead r.2 true) with store := r.1 }
  | .removing type identifier =>
    if s.blMutex then s
    else { s.goTo t .idle with blacklist := s.blacklist.eraseP (isListed type identifier) }
  | .reporting r =>
    match r.iface s.store with
    | none => s.goTo t .idle
    | some i =>
      if s.blMutex then s
      else s.goTo t (if s.isBlacklisted i.type i.identifier then .idle else .cleared r)
  | .cleared r =>
    let a := s.store.addupdate r.call
    { s.goTo t (if a.1.was_added = some true then (a.1.iface.elim .idle .added) else .idle) with
      store := a.2 }
  | .added iface =>
    ((s.goTo t .idle).setUp iface true).post
      (if s.isLocal iface then .localUp iface else .neighborUp iface)
  | .deleting r =>
    match r.apply s.store with
    | none => s
    | some a => { s.goTo t (.reportDead a.2 false) with store := a.1 }
  | .reportDead [] locked => { s.goTo t .idle with blMutex := !locked && s.blMutex }
  | .reportDead (iface :: dead) locked =>
    ((s.goTo t (.reportDead dead locked)).setUp iface false).post
      (if s.isLocal iface then .localDown iface else .neighborDown iface)

inductive Operation
  | blacklist (type : InterfaceType) (etha : Option Bytes) (action : Option Bytes)
  | report (r : Report)
  | delete (r : Removal)

def Operation.handler : Operation → Handler
  | .blacklist type etha action => .entry type etha action
  | .report r => .reporting r
  | .delete r => .deleting r

/-- A thread makes an interface, changes its flags, starts an operation, or does the next step of
the one it is in. -/
inductive Act
  | create (o : InterfaceObject)
  | setFlags (iface : ℕ) (isUp isLocal isSnooped : Bool)
  | call (t : ℕ) (op : Operation)
  | run (t : ℕ)

def step (s : ConnectivityManager) : Act → ConnectivityManager
  | .create o => { s with store := s.store.copy o }
  | .setFlags iface isUp isLocal isSnooped =>
    { s with store := s.store.setFlags iface isUp isLocal isSnooped }
  | .call t op =>
    match s.handlers[t]? with
    | some .idle => s.goTo t op.handler
    | _ => s
  | .run t =>
    match s.handlers[t]? with
    | some h => s.advance t h
    | none => s

/-- The addition of an interface to the blacklist is at the point where it removes the interface. -/
def Pending (s : ConnectivityManager) (k : InterfaceType × Bytes) : Prop :=
  ∃ t : ℕ, s.handlers[t]? = some (.listed k.1 k.2)

/-- What is on the blacklist is not in the store, or about to be removed from it. -/
structure Exclusive (s : ConnectivityManager) : Prop where
  wf : s.store.Wf
  apart : ∀ k ∈ s.blacklist, s.store.Present k → s.Pending k

/-- When a report inserts its interface, that is not on the blacklist, or it is about to be removed
again. -/
def Clear (s : ConnectivityManager) : Act → Prop
  | .run t => ∀ r i, s.handlers[t]? = some (.cleared r) → r.iface s.store = some i →
      (i.type, i.identifier) ∈ s.blacklist → s.Pending (i.type, i.identifier)
  | _ => True

variable {s : ConnectivityManager}

theorem Exclusive.start (threads : ℕ) : (start threads).Exclusive where
  wf := ⟨List.Pairwise.nil, nofun, fun ref => by simp [ConnectivityManager.start, points,
    InterfaceStore.empty, ifaces]⟩
  apart := nofun

theorem Pending.goTo {k : InterfaceType × Bytes} (hp : s.Pending k) {t : ℕ} {h h' : Handler}
    (ht : s.handlers[t]? = some h) (hne : h ≠ .listed k.1 k.2) : (s.goTo t h').Pending k := by
  obtain ⟨u, hu⟩ := hp
  refine ⟨u, ?_⟩
  have htu : t ≠ u := by
    rintro rfl
    exact hne (Option.some.inj (ht.symm.trans hu))
  exact (List.getElem?_set_ne htu).trans hu

/-- A step that takes nothing into the store and puts nothing on the blacklist. -/
theorem Exclusive.keeps (h : s.Exclusive) {s' : ConnectivityManager} (hwf : s'.store.Wf)
    (hstore : ∀ k, s'.store.Present k → s.store.Present k)
    (hlist : ∀ k ∈ s'.blacklist, k ∈ s.blacklist)
    (hpending : ∀ k, s'.store.Present k → s.Pending k → s'.Pending k) : s'.Exclusive :=
  ⟨hwf, fun k hk hp => hpending k hp (h.apart k (hlist k hk) (hstore k hp))⟩

theorem Exclusive.goTo (h : s.Exclusive) {t : ℕ} {hd hd' : Handler} (ht : s.handlers[t]? = some hd)
    (hne : ∀ type identifier, hd ≠ .listed type identifier) : (s.goTo t hd').Exclusive :=
  h.keeps h.wf (fun _ hp => hp) (fun _ hk => hk) fun _ _ hp => hp.goTo ht (hne _ _)

theorem Exclusive.setUp (h : s.Exclusive) (iface : ℕ) (isUp : Bool) :
    (s.setUp iface isUp).Exclusive := by
  refine h.keeps (h.wf.setFlags iface fun o => ⟨⟨rfl, rfl⟩, rfl⟩) (fun k hp => ?_)
    (fun _ hk => hk) fun _ _ hp => hp
  exact (shrinks_modify (f := fun o => { o with isUp }) iface fun _ => ⟨rfl, rfl⟩).present hp

theorem Exclusive.post (h : s.Exclusive) (e : InterfaceEvent) : (s.post e).Exclusive :=
  ⟨h.wf, h.apart⟩

/-- The interface goes onto the blacklist, and its removal is the next step. -/
theorem Exclusive.listing (h : s.Exclusive) {t : ℕ} {type : InterfaceType} {identifier : Bytes}
    (ht : s.handlers[t]? = some (.listing type identifier)) :
    Exclusive { s.goTo t (.listed type identifier) with
      blMutex := true
      blacklist := s.blacklist ++ [(type, identifier)] } := by
  refine ⟨h.wf, fun k hk hp => ?_⟩
  rcases List.mem_append.mp hk with hold | hnew
  · exact (h.apart k hold hp).goTo ht (by simp)
  · obtain rfl := List.mem_singleton.mp hnew
    obtain ⟨hlt, -⟩ := List.getElem?_eq_some_iff.mp ht
    exact ⟨t, List.getElem?_set_self hlt⟩

/-- The removal that an addition to the blacklist ends with. -/
theorem Exclusive.listed (h : s.Exclusive) {t : ℕ} {type : InterfaceType} {identifier : Bytes}
    (ht : s.handlers[t]? = some (.listed type identifier)) :
    (s.advance t (.listed type identifier)).Exclusive := by
  refine h.keeps (h.wf.removePtr _) (fun k hp => (shrinks_removePtr _).present hp)
    (fun _ hk => hk) fun k hp hpend => ?_
  have hne : k ≠ (type, identifier) := by
    rintro rfl
    exact h.wf.not_present_removePtr _ hp
  refine hpend.goTo ht fun heq => hne ?_
  obtain ⟨rfl, rfl⟩ := Handler.listed.inj heq
  rfl

theorem wf_addupdate (h : s.store.Wf) (r : Report) : (s.store.addupdate r.call).2.Wf := by
  cases r with
  | found iface found_by policy =>
    cases iface with
    | none => exact h
    | some o => exact (h.addupdateFound o found_by policy true).1
  | ref iface found_by policy => exact (h.answers_ref iface found_by policy true).1.mpr fun _ => rfl

theorem present_addupdate (h : s.store.Wf) {r : Report} {k : InterfaceType × Bytes}
    (hk : (s.store.addupdate r.call).2.Present k) :
    s.store.Present k ∨ ∃ i, r.iface s.store = some i ∧ k = (i.type, i.identifier) := by
  cases r with
  | found iface found_by policy =>
    cases iface with
    | none => exact .inl hk
    | some o =>
      rcases h.present_addupdateFound hk with hold | hnew
      · exact .inl hold
      · exact .inr ⟨o.toInterface, rfl, hnew⟩
  | ref iface found_by policy => exact present_addupdateRef hk

/-- The insertion of a report, where its interface is not on the blacklist. -/
theorem Exclusive.cleared (h : s.Exclusive) {t : ℕ} {r : Report}
    (ht : s.handlers[t]? = some (.cleared r)) (hok : s.Clear (.run t)) :
    (s.advance t (.cleared r)).Exclusive := by
  refine ⟨wf_addupdate h.wf r, fun k hk hp => ?_⟩
  have hpend : s.Pending k := by
    rcases present_addupdate h.wf hp with hold | ⟨i, hi, rfl⟩
    · exact h.apart k hk hold
    · exact hok r i ht hi hk
  exact hpend.goTo ht (by simp)

theorem shrinks_apply (h : s.store.Wf) {r : Removal} {a : InterfaceStore × List ℕ}
    (ha : r.apply s.store = some a) : a.1.Wf ∧ s.store.Shrinks a.1 := by
  cases r with
  | ref iface =>
    obtain rfl := Option.some.inj ha
    exact ⟨h.removeRef iface, shrinks_removePtr _⟩
  | ptr iface =>
    obtain rfl := Option.some.inj ha
    exact ⟨h.removePtr iface, shrinks_removePtr _⟩
  | identifier type id =>
    obtain rfl := Option.some.inj ha
    exact ⟨h.removeIdentifier type id, shrinks_removeIdentifier type id⟩
  | name ifname =>
    obtain rfl := Option.some.inj ha
    exact ⟨h.removeName ifname, shrinks_removeFirst _⟩
  | age whose clock =>
    obtain ⟨b, hb, rfl⟩ := Option.map_eq_some_iff.mp ha
    exact ⟨h.age hb, shrinks_age hb⟩

theorem Exclusive.advance (h : s.Exclusive) {t : ℕ} {hd : Handler} (ht : s.handlers[t]? = some hd)
    (hok : s.Clear (.run t)) : (s.advance t hd).Exclusive := by
  cases hd with
  | idle => exact h
  | entry type etha action =>
    have hgo : ∀ hd', (s.goTo t hd').Exclusive := fun hd' => h.goTo ht (by simp)
    simp only [ConnectivityManager.advance]
    cases etha with
    | none => exact hgo _
    | some identifier =>
      simp only
      split_ifs
      · exact hgo _
      · exact h
      · exact hgo _
      · exact hgo _
      · exact hgo _
      · exact hgo _
  | adding type identifier =>
    simp only [ConnectivityManager.advance]
    split_ifs
    · exact h
    · exact h.goTo ht (by simp)
    · exact h.goTo ht (by simp)
  | listing type identifier =>
    simp only [ConnectivityManager.advance]
    split_ifs
    · exact h
    · exact h.listing ht
  | listed type identifier => exact h.listed ht
  | removing type identifier =>
    simp only [ConnectivityManager.advance]
    split_ifs
    · exact h
    · exact h.keeps h.wf (fun _ hp => hp) (fun _ hk => List.mem_of_mem_eraseP hk)
        fun _ _ hp => hp.goTo ht (by simp)
  | reporting r =>
    have hgo : ∀ hd', (s.goTo t hd').Exclusive := fun hd' => h.goTo ht (by simp)
    simp only [ConnectivityManager.advance]
    cases r.iface s.store with
    | none => exact hgo _
    | some i =>
      simp only
      split_ifs
      · exact h
      · exact hgo _
      · exact hgo _
  | cleared r => exact h.cleared ht hok
  | added iface => exact ((h.goTo ht (by simp)).setUp iface true).post _
  | deleting r =>
    simp only [ConnectivityManager.advance]
    cases ha : r.apply s.store with
    | none => exact h
    | some a =>
      obtain ⟨hwf, hshrinks⟩ := shrinks_apply h.wf ha
      exact h.keeps hwf (fun _ hp => hshrinks.present hp) (fun _ hk => hk)
        fun _ _ hp => hp.goTo ht (by simp)
  | reportDead dead locked =>
    cases dead with
    | nil => exact h.keeps h.wf (fun _ hp => hp) (fun _ hk => hk) fun _ _ hp => hp.goTo ht (by simp)
    | cons iface dead => exact ((h.goTo ht (by simp)).setUp iface false).post _

theorem Exclusive.step (h : s.Exclusive) {a : Act} (hok : s.Clear a) :
    (ConnectivityManager.step s a).Exclusive := by
  cases a with
  | create o =>
    exact h.keeps (h.wf.copy o) (fun _ hp => h.wf.present_copy hp) (fun _ hk => hk) fun _ _ hp => hp
  | setFlags iface isUp isLocal isSnooped =>
    refine h.keeps (h.wf.setFlags iface fun o => ⟨⟨rfl, rfl⟩, rfl⟩) (fun k hp => ?_)
      (fun _ hk => hk) fun _ _ hp => hp
    exact (shrinks_modify (f := fun o => { o with isUp, isLocal, isSnooped }) iface
      fun _ => ⟨rfl, rfl⟩).present hp
  | call t op =>
    simp only [ConnectivityManager.step]
    split
    next ht => exact h.goTo ht (by simp)
    next => exact h
  | run t =>
    simp only [ConnectivityManager.step]
    cases ht : s.handlers[t]? with
    | none => exact h
    | some hd => exact h.advance ht hok

theorem Exclusive.run {threads : ℕ} {as : List Act}
    (hg : Trace.Guarded ConnectivityManager.step Clear (ConnectivityManager.start threads) as) :
    (Trace.run ConnectivityManager.step (ConnectivityManager.start threads) as).Exclusive :=
  Trace.invariant_of_guarded (fun _ _ h hok => h.step hok) (Exclusive.start threads) hg

/-- No handler is in progress. -/
def Quiet (s : ConnectivityManager) : Prop := ∀ (t : ℕ) h, s.handlers[t]? = some h → h = .idle

/-- Where no report inserts what was put on the blacklist behind its back, nothing that is on the
blacklist is in the store once no handler is in progress. -/
theorem exclusive_of_clear (threads : ℕ) (as : List Act)
    (hg : Trace.Guarded step Clear (start threads) as)
    (hquiet : (Trace.run step (start threads) as).Quiet) :
    ∀ k ∈ (Trace.run step (start threads) as).blacklist,
      ¬(Trace.run step (start threads) as).store.Present k := by
  intro k hk hp
  obtain ⟨t, ht⟩ := (Exclusive.run hg).apart k hk hp
  cases hquiet t _ ht

end ConnectivityManager

namespace Sample

open ConnectivityManager

def reportWired : Operation := .report (.found (some (wired [1, 2, 3, 4, 5, 6])) none none)

def blacklistWired : Operation := .blacklist .ethernet (some [1, 2, 3, 4, 5, 6]) (some (lit "add"))

/-- The report is over before the addition to the blacklist begins. -/
def oneByOne : List ConnectivityManager.Act :=
  [.call 0 reportWired, .run 0, .run 0, .run 0, .call 1 blacklistWired, .run 1, .run 1, .run 1,
    .run 1, .run 1, .run 1]

theorem exclusive_oneByOne : (Trace.run ConnectivityManager.step (start 2) oneByOne).Quiet ∧
    ∀ k ∈ (Trace.run ConnectivityManager.step (start 2) oneByOne).blacklist,
      ¬(Trace.run ConnectivityManager.step (start 2) oneByOne).store.Present k := by
  have hidle : (Trace.run ConnectivityManager.step (start 2) oneByOne).handlers =
      [.idle, .idle] := rfl
  have hquiet : (Trace.run ConnectivityManager.step (start 2) oneByOne).Quiet := by
    intro t h ht
    rw [hidle] at ht
    simpa using List.mem_of_getElem? ht
  refine ⟨hquiet, exclusive_of_clear 2 oneByOne ?_ hquiet⟩
  refine ⟨trivial, ?_, ?_, ?_, trivial, ?_, ?_, ?_, ?_, ?_, ?_, trivial⟩
  · rintro r i - - ⟨⟩
  · rintro r i - - ⟨⟩
  · rintro r i - - ⟨⟩
  · rintro r i ⟨⟩
  · rintro r i ⟨⟩
  · rintro r i ⟨⟩
  · rintro r i ⟨⟩
  · rintro r i ⟨⟩
  · rintro r i ⟨⟩

/-- The interface is put on the blacklist between the look of the report and its insertion. -/
def behindItsBack : List ConnectivityManager.Act :=
  [.call 0 reportWired, .run 0, .call 1 blacklistWired, .run 1, .run 1, .run 1, .run 1, .run 1,
    .run 0, .run 0]

theorem not_exclusive_behindItsBack :
    (Trace.run ConnectivityManager.step (start 2) behindItsBack).Quiet ∧
      ∃ k ∈ (Trace.run ConnectivityManager.step (start 2) behindItsBack).blacklist,
        (Trace.run ConnectivityManager.step (start 2) behindItsBack).store.Present k := by
  have hidle : (Trace.run ConnectivityManager.step (start 2) behindItsBack).handlers =
      [.idle, .idle] := rfl
  refine ⟨fun t h ht => ?_, (.ethernet, [1, 2, 3, 4, 5, 6]), List.mem_singleton_self _,
    0, List.mem_singleton_self _, rfl⟩
  rw [hidle] at ht
  simpa using List.mem_of_getElem? ht

end Sample
end Haggle
