import Haggle.ApplicationManager

/-!
# Control messages element by element

The node of an application is looked up once for a message, and all elements are handled for it,
also when an earlier one has taken it out of the store. Objects of nodes stay where they are and
keep their identifiers. What every element preserves under a condition, a whole event preserves.
-/

namespace Haggle
namespace ApplicationManager

variable {env : Surroundings} {s s' : State}

section Objects

theorem app_modifyApp (s : State) (k j : ℕ) (f : App → App) :
    (s.modifyApp k f).app j = if k = j then (s.app j).map f else s.app j := by
  unfold State.modifyApp State.app
  rw [List.getElem?_modify]
  cases s.heap[j]? with
  | none => simp
  | some a =>
    by_cases h : k = j
    · simp [h]
    · simp [h]

theorem app_create {k : ℕ} {a : App} (h : s.app k = some a) (b : App) :
    (s.create b).app k = some a := by
  unfold State.app at h
  unfold State.create State.app
  rw [List.getElem?_append_left, h]
  exact (List.getElem?_eq_some_iff.mp h).1

/-- Objects stay and keep their identifiers. -/
def Extends (s s' : State) : Prop :=
  ∀ k a, s.app k = some a → ∃ b, s'.app k = some b ∧ b.id = a.id

theorem Extends.refl (s : State) : Extends s s := fun _ a ha => ⟨a, ha, rfl⟩

theorem Extends.trans {s₁ s₂ s₃ : State} (h : Extends s₁ s₂) (h' : Extends s₂ s₃) :
    Extends s₁ s₃ := by
  intro k a ha
  obtain ⟨b, hb, hid⟩ := h k a ha
  obtain ⟨c, hc, hid'⟩ := h' k b hb
  exact ⟨c, hc, hid'.trans hid⟩

theorem Extends.of_heap (h : s'.heap = s.heap) : Extends s s' := by
  intro k a ha
  refine ⟨a, ?_, rfl⟩
  unfold State.app at ha ⊢
  rw [h]
  exact ha

theorem Extends.create (s : State) (b : App) : Extends s (s.create b) :=
  fun _ a ha => ⟨a, app_create ha b, rfl⟩

theorem Extends.of_modify {k : ℕ} {f : App → App} (h : s'.heap = s.heap.modify k f)
    (hf : ∀ a, (f a).id = a.id) : Extends s s' := by
  intro j a ha
  have hj : s'.app j = if k = j then some (f a) else some a := by
    have hmodify := app_modifyApp s k j f
    rw [ha] at hmodify
    unfold State.app
    rw [h]
    exact hmodify
  split_ifs at hj
  · exact ⟨f a, hj, hf a⟩
  · exact ⟨a, hj, rfl⟩

theorem Extends.hasId (h : Extends s s') {id : Digest} {k : ℕ} (hk : s.hasId id k = true) :
    s'.hasId id k = true := by
  obtain ⟨a, ha, hid⟩ := (Option.any_eq_true _ _).mp hk
  obtain ⟨b, hb, hb'⟩ := h k a ha
  refine (Option.any_eq_true _ _).mpr ⟨b, hb, ?_⟩
  simpa [hb'] using hid

theorem id_addEventInterest (a : App) (e : EventType) : (a.addEventInterest e).id = a.id := by
  unfold App.addEventInterest
  split_ifs <;> rfl

theorem extends_updateApplicationInterests (s : State) (k : ℕ) :
    Extends s (updateApplicationInterests s k) := by
  unfold updateApplicationInterests
  cases s.app k with
  | none => exact .refl s
  | some a =>
    exact .of_modify rfl fun a => id_addEventInterest _ _

end Objects

section Sends

/-- What is sent to several applications in a row. -/
theorem foldl_sendToApplication (l : List App) (object : Digest) (s : State) :
    l.foldl (fun s a => sendToApplication s a.id object) s =
      { s with
        pendingDOs := s.pendingDOs ++ l.map fun a => (a.id, object)
        log := s.log ++ l.map fun a => .sent a.id object } := by
  induction l generalizing s with
  | nil => simp
  | cons a l ih =>
    rw [List.foldl_cons, ih]
    simp [sendToApplication]

theorem sendToAllApplications_eq (s : State) (e : EventType) :
    sendToAllApplications env s e = { s with
      created := s.created + 1
      pendingDOs := s.pendingDOs ++ (s.interested e).map fun a => (a.id, env.objectId s.created)
      log := s.log ++ (s.interested e).map fun a => .sent a.id (env.objectId s.created) } :=
  foldl_sendToApplication _ _ _

theorem onNeighborStatusChange_eq (s : State) (lastInterface : Bool) :
    ∃ created pendingDOs log, onNeighborStatusChange env s lastInterface =
      { s with created := created, pendingDOs := pendingDOs, log := log } := by
  unfold onNeighborStatusChange
  split_ifs
  · exact ⟨s.created, s.pendingDOs, s.log, rfl⟩
  · rw [sendToAllApplications_eq]
    exact ⟨_, _, _, rfl⟩

end Sends

section Elements

theorem heap_remove (s : State) (id : Digest) : (s.remove id).heap = s.heap := by
  unfold State.remove
  split_ifs <;> rfl

theorem extends_deRegisterApplication (s : State) (k : ℕ) :
    Extends s (deRegisterApplication s k) := by
  unfold deRegisterApplication
  cases s.app k with
  | none => exact .refl s
  | some a =>
    refine Extends.trans (.create s a) (.of_heap ?_)
    simp only [Option.elim_some, heap_remove, State.create]

theorem extends_addInterest (k : ℕ) (r : State × Bool) (i : Interest) :
    Extends r.1 (addInterest k r i).1 := by
  unfold addInterest
  split
  · exact .of_modify rfl fun _ => rfl
  · exact .refl r.1

theorem extends_dropInterest (k : ℕ) (r : State × Bool) (i : Interest) :
    Extends r.1 (dropInterest k r i).1 := by
  unfold dropInterest
  split
  · exact .of_modify rfl fun _ => rfl
  · exact .refl r.1

theorem extends_addApplicationEventInterest (k : ℕ) (s : State) (e : EventInterest) :
    Extends s (addApplicationEventInterest env k s e) := by
  cases e with
  | shutdown => exact .of_modify rfl fun a => id_addEventInterest a _
  | neighborUpdate =>
    unfold addApplicationEventInterest
    obtain ⟨created, pendingDOs, log, heq⟩ := @onNeighborStatusChange_eq env
      (s.modifyApp k fun a => (a.addEventInterest .contactNew).addEventInterest .contactEnd) false
    rw [heq]
    refine .of_modify rfl fun a => ?_
    rw [id_addEventInterest, id_addEventInterest]
  | other => exact .refl s

theorem extends_foldl {α : Type} {f : State → α → State} (hf : ∀ s x, Extends s (f s x))
    (l : List α) (s : State) : Extends s (l.foldl f s) := by
  induction l generalizing s with
  | nil => exact .refl s
  | cons x l ih => exact (hf s x).trans (ih _)

theorem extends_foldl_pair {α : Type} {f : State × Bool → α → State × Bool}
    (hf : ∀ r x, Extends r.1 (f r x).1) (l : List α) (r : State × Bool) :
    Extends r.1 (l.foldl f r).1 := by
  induction l generalizing r with
  | nil => exact .refl r.1
  | cons x l ih => exact (hf r x).trans (ih _)

theorem extends_onControl {m : Message} {appNode : Option ℕ} {c : Control}
    (h : onControl env m appNode s c = some s') : Extends s s' := by
  cases c with
  | invalid => cases h
  | shutdown | sendNodeDescription =>
    obtain rfl := Option.some.inj h
    exact .refl s
  | registrationRequest =>
    obtain rfl := Option.some.inj h
    split_ifs
    · exact .refl s
    · cases appNode with
      | none => exact (Extends.create s _).trans (.of_heap rfl)
      | some k => exact .of_heap rfl
  | deregistrationNotice =>
    obtain rfl := Option.some.inj h
    cases appNode with
    | none => exact .refl s
    | some k => exact extends_deRegisterApplication s k
  | registerInterest interests =>
    obtain rfl := Option.some.inj h
    split_ifs
    · exact .refl s
    · cases appNode with
      | none => exact .refl s
      | some k =>
        have hfold := extends_foldl_pair (extends_addInterest k) interests (s, false)
        simp only [Option.elim_some]
        split_ifs
        · exact hfold.trans (extends_updateApplicationInterests _ k)
        · exact hfold
  | removeInterest interests =>
    obtain rfl := Option.some.inj h
    split_ifs
    · exact .refl s
    · cases appNode with
      | none => exact .refl s
      | some k =>
        have hfold := extends_foldl_pair (extends_dropInterest k) interests (s, false)
        simp only [Option.elim_some]
        split_ifs
        · exact (hfold.trans (extends_updateApplicationInterests _ k)).trans (.of_heap rfl)
        · exact hfold
  | getInterests =>
    obtain rfl := Option.some.inj h
    split_ifs
    · exact .refl s
    · cases appNode with
      | none => exact .refl s
      | some k => exact .of_heap rfl
  | registerEventInterest events =>
    obtain rfl := Option.some.inj h
    split_ifs
    · exact .refl s
    · cases appNode with
      | none => exact .refl s
      | some k => exact extends_foldl (extends_addApplicationEventInterest k) events s
  | getDataObjects =>
    obtain rfl := Option.some.inj h
    split_ifs
    · exact .refl s
    · cases appNode with
      | none => exact .refl s
      | some k =>
        have hreset : Extends s { s.modifyApp k (fun a =>
            { a with bloomfilter := .new env.shape }) with log := s.log ++ [Entry.reset m.id] } :=
          .of_modify rfl fun _ => rfl
        exact hreset.trans (extends_updateApplicationInterests _ k)
  | deleteDataObject object keepInBloomfilter =>
    obtain rfl := Option.some.inj h
    split_ifs
    · exact .refl s
    · cases appNode with
      | none => exact .refl s
      | some k =>
        cases object with
        | none => exact .refl s
        | some o => exact .of_modify rfl fun _ => rfl

end Elements

section Handlers

/-- What a task of the data store can change. -/
theorem runTask_eq (s : State) (t : Task) : ∃ heap kept callbacks,
    runTask s t = { s with heap := heap, kept := kept, callbacks := callbacks } ∧
      Extends s (runTask s t) := by
  cases t with
  | insertNode k =>
    rw [runTask]
    cases s.app k with
    | none => exact ⟨s.heap, s.kept, s.callbacks, rfl, .refl s⟩
    | some a => exact ⟨s.heap, _, s.callbacks, rfl, .of_heap rfl⟩
  | retrieveNode k =>
    rw [runTask]
    cases (s.app k).bind fun a => s.kept.find? (·.id = a.id) with
    | none => exact ⟨s.heap, s.kept, _, rfl, .of_heap rfl⟩
    | some b => exact ⟨_, s.kept, _, rfl, (Extends.create s b).trans (.of_heap rfl)⟩
  | deleteFilter event => exact ⟨s.heap, s.kept, s.callbacks, rfl, .refl s⟩
  | retrieveLast => exact ⟨s.heap, s.kept, _, rfl, .of_heap rfl⟩

theorem runDataStore_eq (s : State) : ∃ heap kept tasks queries callbacks,
    runDataStore s = { s with
      heap := heap, kept := kept, tasks := tasks, queries := queries, callbacks := callbacks } ∧
        Extends s (runDataStore s) := by
  unfold runDataStore
  cases s.tasks with
  | nil =>
    simp only
    split_ifs
    · exact ⟨s.heap, s.kept, s.tasks, s.queries, s.callbacks, rfl, .refl s⟩
    · exact ⟨s.heap, s.kept, [], _, _, rfl, .of_heap rfl⟩
  | cons t l =>
    obtain ⟨heap, kept, callbacks, heq, hext⟩ := runTask_eq { s with tasks := l } t
    exact ⟨heap, kept, l, s.queries, callbacks, heq, hext⟩

theorem onDataStoreFinishedProcessing_eq (s : State) : ∃ readySignals,
    onDataStoreFinishedProcessing s = { s with
      dataStoreFinishedProcessing := true, readySignals := readySignals } := by
  unfold onDataStoreFinishedProcessing
  simp only
  split_ifs
  · exact ⟨_, rfl⟩
  · exact ⟨s.readySignals, rfl⟩

theorem onSendResult_eq (s : State) (k : ℕ) (object : Digest) (success : Bool) :
    ∃ heap pendingDOs readySignals log, onSendResult env s k object success = { s with
      heap := heap, pendingDOs := pendingDOs, readySignals := readySignals, log := log } ∧
        Extends s (onSendResult env s k object success) := by
  unfold onSendResult
  cases s.app k with
  | none => exact ⟨s.heap, s.pendingDOs, s.readySignals, s.log, rfl, .refl s⟩
  | some a =>
    cases success with
    | false =>
      simp only [Option.elim_some, Bool.false_eq_true, if_false]
      split_ifs
      · exact ⟨s.heap, _, _, _, rfl, .of_heap rfl⟩
      · exact ⟨s.heap, _, s.readySignals, _, rfl, .of_heap rfl⟩
    | true =>
      simp only [Option.elim_some, if_true]
      split_ifs
      · exact ⟨_, _, _, _, rfl, .of_modify rfl fun _ => rfl⟩
      · exact ⟨_, _, s.readySignals, _, rfl, .of_modify rfl fun _ => rfl⟩

theorem foldl_matchObject_eq (a : App) (l : List (Digest × Bool)) (s : State) :
    ∃ pendingDOs log, l.foldl (matchObject env a) s =
      { s with pendingDOs := pendingDOs, log := log } := by
  induction l generalizing s with
  | nil => exact ⟨s.pendingDOs, s.log, rfl⟩
  | cons o l ih =>
    obtain ⟨pendingDOs, log, heq⟩ := ih (matchObject env a s o)
    rw [List.foldl_cons, heq]
    unfold matchObject
    split_ifs
    · exact ⟨pendingDOs, log, rfl⟩
    · exact ⟨pendingDOs, log, rfl⟩

theorem onApplicationFilterMatchEvent_eq (s : State) (event : ℕ) (objects : List (Digest × Bool)) :
    ∃ pendingDOs log, onApplicationFilterMatchEvent env s event objects =
      { s with pendingDOs := pendingDOs, log := log } := by
  unfold onApplicationFilterMatchEvent
  generalize s.interested (.filter event) = l
  induction l generalizing s with
  | nil => exact ⟨s.pendingDOs, s.log, rfl⟩
  | cons a l ih =>
    obtain ⟨pendingDOs, log, heq⟩ := ih (objects.foldl (matchObject env a) s)
    obtain ⟨pendingDOs', log', heq'⟩ := @foldl_matchObject_eq env a objects s
    rw [List.foldl_cons, heq, heq']
    exact ⟨pendingDOs, log, rfl⟩

theorem step_callback_none {position : ℕ} (h : s.callbacks[position]? = none) (isOther : Bool) :
    step env s (.callback position isOther) = s := by
  rw [step, h]
  rfl

theorem step_callback_some {position : ℕ} {c : Callback} (h : s.callbacks[position]? = some c)
    (isOther : Bool) : step env s (.callback position isOther) =
      onCallback env { s with callbacks := s.callbacks.eraseIdx position } isOther c := by
  rw [step, h]
  rfl

end Handlers

section Rule

variable (env)

/-- Every element of a message that is handled meets a condition. -/
def ControlsMeet (ok : State → Message → Option ℕ → Control → Prop) (m : Message)
    (appNode : Option ℕ) : State → List Control → Prop
  | _, [] => True
  | s, c :: l => ok s m appNode c ∧ ∀ s', onControl env m appNode s c = some s' →
      ControlsMeet ok m appNode s' l

def ReceiveMeets (ok : State → Message → Option ℕ → Control → Prop) :
    State → List (Option Message) → Prop
  | _, [] => True
  | _, none :: _ => True
  | s, some m :: l => m.isOther = false → ∀ controls, m.controls = some controls →
      ControlsMeet env ok m (s.retrieve m.id) s controls ∧
        ((onControls env m (s.retrieve m.id) s controls).2 = true →
          ReceiveMeets ok (onControls env m (s.retrieve m.id) s controls).1 l)

variable {env}

/-- The node of a message is one of its application. -/
def Refers (s : State) (m : Message) (appNode : Option ℕ) : Prop :=
  ∀ k, appNode = some k → s.hasId m.id k = true

theorem refers_retrieve (s : State) (m : Message) : Refers s m (s.retrieve m.id) :=
  fun _ hk => List.find?_some hk

variable {ok : State → Message → Option ℕ → Control → Prop} {Inv : State → Prop}

theorem onControls_invariant (hstep : ∀ s m appNode c s', Inv s → Refers s m appNode →
      ok s m appNode c → onControl env m appNode s c = some s' → Inv s')
    {m : Message} {appNode : Option ℕ} {l : List Control} (hs : Inv s) (hr : Refers s m appNode)
    (hok : ControlsMeet env ok m appNode s l) : Inv (onControls env m appNode s l).1 := by
  induction l generalizing s with
  | nil => exact hs
  | cons c l ih =>
    unfold onControls
    cases hc : onControl env m appNode s c with
    | none => exact hs
    | some s' =>
      have hr' : Refers s' m appNode := fun k hk => (extends_onControl hc).hasId (hr k hk)
      exact ih (hstep s m appNode c s' hs hr hok.1 hc) hr' (hok.2 s' hc)

/-- What every element preserves under a condition, an event preserves. -/
theorem receive_invariant (hstep : ∀ s m appNode c s', Inv s → Refers s m appNode →
      ok s m appNode c → onControl env m appNode s c = some s' → Inv s')
    {messages : List (Option Message)} (hs : Inv s) (hok : ReceiveMeets env ok s messages) :
    Inv (onReceiveFromApplication env s messages) := by
  induction messages generalizing s with
  | nil => exact hs
  | cons x l ih =>
    cases x with
    | none => exact hs
    | some m =>
      unfold onReceiveFromApplication
      cases hother : m.isOther with
      | true => exact hs
      | false =>
        cases hcontrols : m.controls with
        | none => exact hs
        | some controls =>
          obtain ⟨hmeet, hrest⟩ := hok hother controls hcontrols
          have hinv := onControls_invariant hstep hs (refers_retrieve s m) hmeet
          simp only [Bool.false_eq_true, if_false]
          split_ifs with hon
          · exact ih hinv (hrest hon)
          · exact hinv

end Rule

end ApplicationManager
end Haggle
