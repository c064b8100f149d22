import Haggle.ApplicationControl

/-!
# Counting the clients

The counter goes up with every registration that the data store calls back for and down with every
deregistration, whether the node store takes the node or has it. The elements of one message are
all handled for the node that was there at its beginning.
-/

namespace Haggle
namespace ApplicationManager

variable {env : Surroundings} {s s' : State}

section Conditions

variable (env)

/-- An application that deregisters is registered. -/
def ClientControl (s : State) (m : Message) (appNode : Option ℕ) : Control → Prop
  | .deregistrationNotice => ∀ k, appNode = some k → s.records.any (s.hasId m.id) = true
  | _ => True

/-- A node that the data store calls back with is not in the node store, nor is another one with
its identifier, and the counter can take it. -/
def ClientAct (s : State) : Act → Prop
  | .receive messages => ReceiveMeets env ClientControl s messages
  | .callback position isOther => ∀ k, s.callbacks[position]? = some (.node k) →
      isOther = false ∧ (∀ a, s.app k = some a → s.records.any (s.hasId a.id) = false) ∧
        s.records.length + 1 < ulongValues
  | _ => True

end Conditions

section Counter

/-- The counter is the number of application nodes in the store, and these are objects. -/
structure Counted (s : State) : Prop where
  numClients : s.numClients = s.records.length
  small : s.numClients < ulongValues
  valid : ∀ k ∈ s.records, (s.app k).isSome

/-- A step that does not touch the clients. -/
structure SameClients (s s' : State) : Prop where
  records : s'.records = s.records
  numClients : s'.numClients = s.numClients

theorem SameClients.refl (s : State) : SameClients s s := ⟨rfl, rfl⟩

theorem SameClients.trans {s₁ s₂ s₃ : State} (h : SameClients s₁ s₂) (h' : SameClients s₂ s₃) :
    SameClients s₁ s₃ :=
  ⟨h'.records.trans h.records, h'.numClients.trans h.numClients⟩

theorem Extends.isSome (h : Extends s s') {k : ℕ} (hk : (s.app k).isSome) : (s'.app k).isSome := by
  obtain ⟨a, ha⟩ := Option.isSome_iff_exists.mp hk
  obtain ⟨b, hb, -⟩ := h k a ha
  rw [hb]
  rfl

theorem Counted.same (h : Counted s) (hsame : SameClients s s') (hext : Extends s s') :
    Counted s' := by
  refine ⟨?_, ?_, fun k hk => ?_⟩
  · rw [hsame.numClients, hsame.records]
    exact h.numClients
  · rw [hsame.numClients]
    exact h.small
  · rw [hsame.records] at hk
    exact hext.isSome (h.valid k hk)

theorem same_updateApplicationInterests (s : State) (k : ℕ) :
    SameClients s (updateApplicationInterests s k) := by
  unfold updateApplicationInterests
  cases s.app k with
  | none => exact .refl s
  | some a => exact ⟨rfl, rfl⟩

theorem same_foldl_pair {α : Type} {f : State × Bool → α → State × Bool}
    (hf : ∀ r x, SameClients r.1 (f r x).1) (l : List α) (r : State × Bool) :
    SameClients r.1 (l.foldl f r).1 := by
  induction l generalizing r with
  | nil => exact .refl r.1
  | cons x l ih => exact (hf r x).trans (ih _)

theorem same_addInterest (k : ℕ) (r : State × Bool) (i : Interest) :
    SameClients r.1 (addInterest k r i).1 := by
  unfold addInterest
  split
  · exact ⟨rfl, rfl⟩
  · exact .refl r.1

theorem same_dropInterest (k : ℕ) (r : State × Bool) (i : Interest) :
    SameClients r.1 (dropInterest k r i).1 := by
  unfold dropInterest
  split
  · exact ⟨rfl, rfl⟩
  · exact .refl r.1

theorem same_onNeighborStatusChange (s : State) (lastInterface : Bool) :
    SameClients s (onNeighborStatusChange env s lastInterface) := by
  obtain ⟨created, pendingDOs, log, heq⟩ := @onNeighborStatusChange_eq env s lastInterface
  rw [heq]
  exact ⟨rfl, rfl⟩

theorem same_addApplicationEventInterests (k : ℕ) (l : List EventInterest) (s : State) :
    SameClients s (l.foldl (addApplicationEventInterest env k) s) := by
  induction l generalizing s with
  | nil => exact .refl s
  | cons e l ih =>
    refine SameClients.trans ?_ (ih _)
    cases e with
    | shutdown => exact ⟨rfl, rfl⟩
    | neighborUpdate =>
      have hmodify : SameClients s (s.modifyApp k fun a =>
        (a.addEventInterest .contactNew).addEventInterest .contactEnd) := ⟨rfl, rfl⟩
      exact hmodify.trans (same_onNeighborStatusChange _ false)
    | other => exact .refl s

/-- Only a deregistration touches the clients. -/
theorem onControl_clients {m : Message} {appNode : Option ℕ} {c : Control}
    (h : onControl env m appNode s c = some s') :
    (c = .deregistrationNotice ∧ ∃ k, appNode = some k ∧ s' = deRegisterApplication s k) ∨
      SameClients s s' := by
  cases appNode with
  | none =>
    right
    cases c with
    | invalid => cases h
    | registrationRequest =>
      obtain rfl := Option.some.inj h
      split_ifs
      · exact .refl s
      · exact ⟨rfl, rfl⟩
    | deleteDataObject object keepInBloomfilter =>
      obtain rfl := Option.some.inj h
      split_ifs <;> exact .refl s
    | shutdown | sendNodeDescription =>
      obtain rfl := Option.some.inj h
      exact .refl s
    | _ =>
      obtain rfl := Option.some.inj h
      simp only [Option.elim_none, ite_self]
      exact .refl s
  | some k =>
    cases c with
    | invalid => cases h
    | deregistrationNotice => exact .inl ⟨rfl, k, rfl, (Option.some.inj h).symm⟩
    | shutdown | sendNodeDescription =>
      obtain rfl := Option.some.inj h
      exact .inr (.refl s)
    | registrationRequest | getInterests =>
      obtain rfl := Option.some.inj h
      right
      split_ifs
      · exact .refl s
      · exact ⟨rfl, rfl⟩
    | registerInterest interests =>
      obtain rfl := Option.some.inj h
      right
      have hfold := same_foldl_pair (same_addInterest k) interests (s, false)
      simp only [Option.elim_some]
      split_ifs
      · exact .refl s
      · exact hfold.trans (same_updateApplicationInterests _ k)
      · exact hfold
    | removeInterest interests =>
      obtain rfl := Option.some.inj h
      right
      have hfold := same_foldl_pair (same_dropInterest k) interests (s, false)
      have hupdate := hfold.trans (same_updateApplicationInterests _ k)
      simp only [Option.elim_some]
      split_ifs
      · exact .refl s
      · exact ⟨hupdate.records, hupdate.numClients⟩
      · exact hfold
    | registerEventInterest events =>
      obtain rfl := Option.some.inj h
      right
      split_ifs
      · exact .refl s
      · exact same_addApplicationEventInterests k events s
    | getDataObjects =>
      obtain rfl := Option.some.inj h
      right
      simp only [Option.elim_some]
      split_ifs
      · exact .refl s
      · have hupdate := same_updateApplicationInterests ({ s.modifyApp k (fun a =>
            { a with bloomfilter := .new env.shape }) with log := s.log ++ [Entry.reset m.id] }) k
        exact ⟨hupdate.records, hupdate.numClients⟩
    | deleteDataObject object keepInBloomfilter =>
      obtain rfl := Option.some.inj h
      right
      split_ifs
      · exact .refl s
      · cases object with
        | none => exact .refl s
        | some o => exact ⟨rfl, rfl⟩

theorem hasId_create {k : ℕ} (hk : (s.app k).isSome) (id : Digest) (b : App) :
    (s.create b).hasId id k = s.hasId id k := by
  obtain ⟨a, ha⟩ := Option.isSome_iff_exists.mp hk
  unfold State.hasId
  rw [app_create ha, ha]

/-- What a deregistration does to the clients. -/
theorem deRegisterApplication_clients {k : ℕ} {a : App} (ha : s.app k = some a)
    (hvalid : ∀ j ∈ s.records, (s.app j).isSome) :
    (deRegisterApplication s k).numClients = ulongPred s.numClients ∧
      (deRegisterApplication s k).records = s.records.eraseP (s.hasId a.id) := by
  have hid : ∀ j ∈ s.records, (s.create a).hasId a.id j = s.hasId a.id j :=
    fun j hj => hasId_create (hvalid j hj) a.id a
  have herase : s.records.eraseP ((s.create a).hasId a.id) = s.records.eraseP (s.hasId a.id) := by
    clear hvalid
    generalize s.records = l at hid
    induction l with
    | nil => rfl
    | cons j l ih =>
      rw [List.forall_mem_cons] at hid
      rw [List.eraseP_cons, List.eraseP_cons, hid.1, ih hid.2]
  unfold deRegisterApplication
  rw [ha]
  simp only [Option.elim_some]
  unfold State.remove
  split_ifs with hin
  · exact ⟨rfl, herase⟩
  · refine ⟨rfl, ?_⟩
    rw [← herase]
    refine (List.eraseP_of_forall_not fun j hj hjid => hin ?_).symm
    exact List.any_eq_true.mpr ⟨j, hj, hjid⟩

theorem Counted.deRegister (h : Counted s) {k : ℕ} {a : App} (ha : s.app k = some a)
    (hin : s.records.any (s.hasId a.id) = true) : Counted (deRegisterApplication s k) := by
  obtain ⟨hnum, hrecords⟩ := deRegisterApplication_clients ha h.valid
  obtain ⟨j, hj, hid⟩ := List.any_eq_true.mp hin
  have hlength := List.length_eraseP_of_mem hj hid
  have hpos : 0 < s.records.length := List.length_pos_of_mem hj
  have hsmall := h.small
  rw [h.numClients] at hsmall
  have hpred : ulongPred s.numClients = s.records.length - 1 := by
    rw [h.numClients]
    exact if_neg hpos.ne'
  refine ⟨?_, ?_, fun x hx => ?_⟩
  · rw [hnum, hrecords, hpred]
    exact hlength.symm
  · rw [hnum, hpred]
    omega
  · rw [hrecords] at hx
    exact (extends_deRegisterApplication s k).isSome (h.valid x (List.mem_of_mem_eraseP hx))

theorem Counted.deRegisterAll (h : Counted s) :
    Counted (s.records.foldl deRegisterApplication s) := by
  generalize hl : s.records = l
  induction l generalizing s with
  | nil => exact h
  | cons k l ih =>
    have hk : k ∈ s.records := by
      rw [hl]
      exact List.mem_cons_self
    obtain ⟨a, ha⟩ := Option.isSome_iff_exists.mp (h.valid k hk)
    have hself : s.hasId a.id k = true := by
      unfold State.hasId
      rw [ha]
      simp
    have hrecords := (deRegisterApplication_clients ha h.valid).2
    rw [hl, List.eraseP_cons_of_pos hself] at hrecords
    exact ih (h.deRegister ha (List.any_eq_true.mpr ⟨k, hk, hself⟩)) hrecords

end Counter

section Runs

theorem Counted.receive (h : Counted s) {messages : List (Option Message)}
    (hok : ReceiveMeets env ClientControl s messages) :
    Counted (onReceiveFromApplication env s messages) := by
  refine receive_invariant (fun s m appNode c s' hs hr hok hc => ?_) h hok
  rcases onControl_clients hc with ⟨rfl, k, rfl, rfl⟩ | hsame
  · obtain ⟨a, ha, hid⟩ := (Option.any_eq_true _ _).mp (hr k rfl)
    have hid : a.id = m.id := by simpa using hid
    refine hs.deRegister ha ?_
    rw [hid]
    exact hok k rfl
  · exact hs.same hsame (extends_onControl hc)

theorem add_eq {isOther : Bool} {k : ℕ} {a : App} (ha : s.app k = some a) (ho : isOther = false)
    (hnot : s.records.any (s.hasId a.id) = false) : s.add isOther k =
      { s with records := s.records ++ [k], log := s.log ++ [Entry.registered a.id] } := by
  unfold State.add
  rw [ha, Option.elim_some, ho, hnot]
  rfl

theorem hasId_modifyApp (s : State) (k : ℕ) {f : App → App} (hf : ∀ a, (f a).id = a.id)
    (id : Digest) (j : ℕ) : (s.modifyApp k f).hasId id j = s.hasId id j := by
  unfold State.hasId
  rw [app_modifyApp]
  split_ifs
  · cases s.app j with
    | none => rfl
    | some a => simp [hf a]
  · rfl

theorem extends_add (s : State) (isOther : Bool) (k : ℕ) : Extends s (s.add isOther k) := by
  unfold State.add
  cases s.app k with
  | none => exact .refl s
  | some a =>
    rw [Option.elim_some]
    split_ifs
    · exact .refl s
    · exact .of_heap rfl

theorem extends_onRetrieveNode (s : State) (isOther : Bool) (k : ℕ) :
    Extends s (onRetrieveNode env s isOther k) := by
  unfold onRetrieveNode
  cases s.app k with
  | none => exact .refl s
  | some a =>
    have hreset : Extends s (s.modifyApp k fun a => { a with bloomfilter := .new env.shape }) :=
      .of_modify rfl fun _ => rfl
    have hadd := hreset.trans (extends_add _ isOther k)
    exact (hadd.trans (extends_updateApplicationInterests _ k)).trans (.of_heap rfl)

theorem onRetrieveNode_clients {k : ℕ} {a : App} (ha : s.app k = some a)
    (hnot : s.records.any (s.hasId a.id) = false) :
    (onRetrieveNode env s false k).records = s.records ++ [k] ∧
      (onRetrieveNode env s false k).numClients = ulongSucc s.numClients := by
  let r := s.modifyApp k fun a => { a with bloomfilter := .new env.shape }
  have hr : r.app k = some { a with bloomfilter := .new env.shape } := by
    rw [app_modifyApp, if_pos rfl, ha]
    rfl
  have hnot' : r.records.any (r.hasId a.id) = false := by
    have hid : r.hasId a.id = s.hasId a.id := by
      funext j
      exact hasId_modifyApp (f := fun a => { a with bloomfilter := .new env.shape }) s k
        (fun _ => rfl) a.id j
    rw [hid]
    exact hnot
  have hsame := same_updateApplicationInterests (r.add false k) k
  have hadd := add_eq hr rfl hnot'
  unfold onRetrieveNode
  rw [ha]
  refine ⟨hsame.records.trans ?_, congrArg ulongSucc (hsame.numClients.trans ?_)⟩
  · rw [hadd]
    rfl
  · rw [hadd]
    rfl

theorem Counted.retrieved (h : Counted s) {k : ℕ} {a : App} (ha : s.app k = some a)
    (hnot : s.records.any (s.hasId a.id) = false) (hroom : s.records.length + 1 < ulongValues) :
    Counted (onRetrieveNode env s false k) := by
  obtain ⟨hrecords, hnum⟩ := @onRetrieveNode_clients env s k a ha hnot
  have hsucc : ulongSucc s.numClients = s.records.length + 1 := by
    rw [h.numClients]
    exact if_neg hroom.ne
  refine ⟨?_, ?_, fun j hj => ?_⟩
  · rw [hnum, hrecords, hsucc, List.length_append]
    rfl
  · rw [hnum, hsucc]
    exact hroom
  · apply (extends_onRetrieveNode s false k).isSome
    rw [hrecords] at hj
    rcases List.mem_append.mp hj with hj | hj
    · exact h.valid j hj
    · rw [List.mem_singleton.mp hj, ha]
      rfl

theorem Counted.callback (h : Counted s) {position : ℕ} {isOther : Bool}
    (hok : ClientAct env s (.callback position isOther)) :
    Counted (step env s (.callback position isOther)) := by
  cases hget : s.callbacks[position]? with
  | none =>
    rw [step_callback_none hget]
    exact h
  | some c =>
    have hless : Counted { s with callbacks := s.callbacks.eraseIdx position } :=
      h.same ⟨rfl, rfl⟩ (.of_heap rfl)
    rw [step_callback_some hget]
    cases c with
    | node k =>
      obtain ⟨rfl, hnot, hroom⟩ := hok k hget
      unfold onCallback
      cases ha : s.app k with
      | none =>
        have hnone : State.app { s with callbacks := s.callbacks.eraseIdx position } k = none := ha
        simp only [onRetrieveNode, hnone]
        exact hless
      | some a => exact hless.retrieved ha (hnot a ha) hroom
    | appNodes nodes => exact hless.same ⟨rfl, rfl⟩ (.of_heap rfl)
    | finishedProcessing =>
      obtain ⟨readySignals, heq⟩ := onDataStoreFinishedProcessing_eq
        { s with callbacks := s.callbacks.eraseIdx position }
      simp only [onCallback, heq]
      exact hless.same ⟨rfl, rfl⟩ (.of_heap rfl)

theorem Counted.prepareShutdown (h : Counted s) : Counted (onPrepareShutdown env s) := by
  unfold onPrepareShutdown
  rw [sendToAllApplications_eq]
  simp only
  split_ifs
  · exact h.same ⟨rfl, rfl⟩ (.of_heap rfl)
  · exact h.same ⟨rfl, rfl⟩ (.of_heap rfl)
  · have hsent : Counted { { s with inShutdown := true } with
        created := s.created + 1
        pendingDOs := s.pendingDOs ++ (State.interested { s with inShutdown := true } .shutdown).map
          fun a => (a.id, env.objectId s.created)
        log := s.log ++ (State.interested { s with inShutdown := true } .shutdown).map
          fun a => .sent a.id (env.objectId s.created) } :=
      h.same ⟨rfl, rfl⟩ (.of_heap rfl)
    exact hsent.deRegisterAll.same ⟨rfl, rfl⟩ (.of_heap rfl)

theorem Counted.step (h : Counted s) {act : Act} (hok : ClientAct env s act) :
    Counted (step env s act) := by
  cases act with
  | receive messages => exact h.receive hok
  | dataStore =>
    obtain ⟨heap, kept, tasks, queries, callbacks, heq, hext⟩ := runDataStore_eq s
    have hsame : SameClients s (runDataStore s) := by
      rw [heq]
      exact ⟨rfl, rfl⟩
    exact h.same hsame hext
  | callback position isOther => exact h.callback hok
  | neighborStatus lastInterface =>
    have hext : Extends s (onNeighborStatusChange env s lastInterface) := by
      obtain ⟨created, pendingDOs, log, heq⟩ := @onNeighborStatusChange_eq env s lastInterface
      rw [heq]
      exact .of_heap rfl
    exact h.same (same_onNeighborStatusChange s lastInterface) hext
  | filterMatch event objects =>
    obtain ⟨pendingDOs, log, heq⟩ := @onApplicationFilterMatchEvent_eq env s event objects
    have hmatch : Counted (onApplicationFilterMatchEvent env s event objects) := by
      rw [heq]
      exact h.same ⟨rfl, rfl⟩ (.of_heap rfl)
    exact hmatch
  | sendResult k object success =>
    obtain ⟨heap, pendingDOs, readySignals, log, heq, hext⟩ :=
      @onSendResult_eq env s k object success
    have hsame : SameClients s (onSendResult env s k object success) := by
      rw [heq]
      exact ⟨rfl, rfl⟩
    exact h.same hsame hext
  | prepareShutdown => exact h.prepareShutdown

theorem counted_init (kept : List App) : Counted (init kept) :=
  ⟨rfl, (by decide : 0 < ulongValues), nofun⟩

/-- In a run that keeps to the conditions, the counter is the number of application nodes in the
store. -/
theorem numClients_run {kept : List App} {acts : List Act}
    (h : Trace.Guarded (step env) (ClientAct env) (init kept) acts) :
    (Trace.run (step env) (init kept) acts).numClients =
      (Trace.run (step env) (init kept) acts).records.length :=
  (Trace.invariant_of_guarded (fun _ _ hs hok => hs.step hok) (counted_init kept) h).numClients

end Runs

end ApplicationManager

namespace Sample

open ApplicationManager

def applications : Surroundings := ⟨firstBytes, shape, fun _ => firstBytes []⟩

/-- A message of an application. -/
def messageOf (b : UInt8) (controls : List Control) : Act :=
  .receive [some ⟨firstBytes [b], [b], false, some controls⟩]

/-- A registration, until the data store has called back. -/
def registration (b : UInt8) : List Act :=
  [messageOf b [.registrationRequest], .dataStore, .callback 0 false]

theorem numClients_registration :
    (Trace.run (step applications) (init []) (registration 1)).numClients =
      (Trace.run (step applications) (init []) (registration 1)).records.length := by
  apply numClients_run
  refine ⟨fun _ controls hc => ?_, trivial, fun k hk => ?_, trivial⟩
  · obtain rfl := Option.some.inj hc
    exact ⟨⟨trivial, fun _ _ => trivial⟩, fun _ => trivial⟩
  · exact ⟨rfl, fun a _ => rfl, by decide⟩

/-- A registration, and then a message with two elements that deregister. -/
def deregisteredTwice : List Act :=
  registration 1 ++ [messageOf 1 [.deregistrationNotice, .deregistrationNotice]]

theorem numClients_deregisteredTwice :
    (Trace.run (step applications) (init []) deregisteredTwice).records = [] ∧
      (Trace.run (step applications) (init []) deregisteredTwice).numClients = 2 ^ 64 - 1 := by
  decide

end Sample
end Haggle
