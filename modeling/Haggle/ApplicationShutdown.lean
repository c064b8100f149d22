import Haggle.ApplicationClients

/-!
# Being ready for shutdown

The manager is ready when no data object that it sent is pending and the data store has called back
for the task behind those that deregister the applications. A result is taken for every pending
object with its identifier, whichever application it was sent to.
-/

namespace Haggle
namespace ApplicationManager

variable {env : Surroundings} {s s' : State}

section Results

/-- The sends without a result, after one more entry. -/
def answer (l : List (Digest × Digest)) : Entry → List (Digest × Digest)
  | .sent app object => l ++ [(app, object)]
  | .result app object _ => l.filter fun p => p ≠ (app, object)
  | _ => l

/-- What was sent to an application and has no result from it. -/
def unanswered (log : List Entry) : List (Digest × Digest) := log.foldl answer []

/-- The tasks of a deregistration. -/
def Task.stores : Task → Bool
  | .insertNode _ => true
  | .deleteFilter _ => true
  | _ => false

/-- If readiness was signalled, every send has its result and the data store has no deregistration
left. -/
def ReadyAfter (s s' : State) : Prop :=
  s'.readySignals ≠ s.readySignals → unanswered s'.log = [] ∧ ∀ t ∈ s'.tasks, t.stores = false

variable (env)

/-- No application deregisters during the shutdown. -/
def ShutdownControl (s : State) (_ : Message) (appNode : Option ℕ) : Control → Prop
  | .deregistrationNotice => s.inShutdown = true → appNode = none
  | _ => True

/-- A result is for an object that is pending for no other application, and there is one shutdown:
if no application is registered then, no deregistration is left in the data store. -/
def ShutdownAct (s : State) : Act → Prop
  | .receive messages => ReceiveMeets env ShutdownControl s messages
  | .sendResult k object _ => ∀ a, s.app k = some a →
      ∀ p ∈ s.pendingDOs, p.2 = object → p.1 = a.id
  | .prepareShutdown =>
      s.inShutdown = false ∧ (s.records = [] → ∀ t ∈ s.tasks, t.stores = false)
  | _ => True

end Results

section Frames

/-- What the handlers leave alone, and the sends that they log. -/
structure Frame (s s' : State) : Prop where
  logged : ∃ l, s'.log = s.log ++ l ∧ s'.pendingDOs = l.foldl answer s.pendingDOs
  inShutdown : s'.inShutdown = s.inShutdown
  finished : s'.dataStoreFinishedProcessing = s.dataStoreFinishedProcessing
  callbacks : s'.callbacks = s.callbacks
  readySignals : s'.readySignals = s.readySignals
  last : .retrieveLast ∉ s.tasks → .retrieveLast ∉ s'.tasks

theorem logged_same (hlog : s'.log = s.log) (hpending : s'.pendingDOs = s.pendingDOs) :
    ∃ l, s'.log = s.log ++ l ∧ s'.pendingDOs = l.foldl answer s.pendingDOs :=
  ⟨[], hlog.trans (List.append_nil _).symm, hpending⟩

theorem Frame.refl (s : State) : Frame s s := ⟨logged_same rfl rfl, rfl, rfl, rfl, rfl, id⟩

theorem Frame.trans {s₁ s₂ s₃ : State} (h : Frame s₁ s₂) (h' : Frame s₂ s₃) : Frame s₁ s₃ := by
  obtain ⟨l, hlog, hpending⟩ := h.logged
  obtain ⟨l', hlog', hpending'⟩ := h'.logged
  refine ⟨⟨l ++ l', ?_, ?_⟩, h'.inShutdown.trans h.inShutdown, h'.finished.trans h.finished,
    h'.callbacks.trans h.callbacks, h'.readySignals.trans h.readySignals, h'.last ∘ h.last⟩
  · rw [hlog', hlog, List.append_assoc]
  · rw [hpending', hpending, List.foldl_append]

theorem frame_updateApplicationInterests (s : State) (k : ℕ) :
    Frame s (updateApplicationInterests s k) := by
  unfold updateApplicationInterests
  cases s.app k with
  | none => exact .refl s
  | some a => exact ⟨logged_same rfl rfl, rfl, rfl, rfl, rfl, id⟩

theorem foldl_answer_sent (l : List App) (object : Digest) (pending : List (Digest × Digest)) :
    (l.map fun a => Entry.sent a.id object).foldl answer pending =
      pending ++ l.map fun a => (a.id, object) := by
  induction l generalizing pending with
  | nil => simp
  | cons a l ih =>
    rw [List.map_cons, List.foldl_cons, ih]
    simp [answer]

theorem frame_reply (s : State) (app : Digest) : Frame s (reply env s app) :=
  ⟨⟨[.sent app (env.objectId s.created)], rfl, rfl⟩, rfl, rfl, rfl, rfl, id⟩

theorem frame_sendToAllApplications (s : State) (e : EventType) :
    Frame s (sendToAllApplications env s e) := by
  rw [sendToAllApplications_eq]
  exact ⟨⟨_, rfl, (foldl_answer_sent _ _ _).symm⟩, rfl, rfl, rfl, rfl, id⟩

theorem frame_onNeighborStatusChange (s : State) (lastInterface : Bool) :
    Frame s (onNeighborStatusChange env s lastInterface) := by
  unfold onNeighborStatusChange
  split_ifs
  · exact .refl s
  · exact frame_sendToAllApplications s _

theorem frame_foldl {α : Type} {f : State → α → State} (hf : ∀ s x, Frame s (f s x))
    (l : List α) (s : State) : Frame s (l.foldl f s) := by
  induction l generalizing s with
  | nil => exact .refl s
  | cons x l ih => exact (hf s x).trans (ih _)

theorem frame_foldl_pair {α : Type} {f : State × Bool → α → State × Bool}
    (hf : ∀ r x, Frame r.1 (f r x).1) (l : List α) (r : State × Bool) :
    Frame r.1 (l.foldl f r).1 := by
  induction l generalizing r with
  | nil => exact .refl r.1
  | cons x l ih => exact (hf r x).trans (ih _)

theorem frame_addInterest (k : ℕ) (r : State × Bool) (i : Interest) :
    Frame r.1 (addInterest k r i).1 := by
  unfold addInterest
  split
  · exact ⟨logged_same rfl rfl, rfl, rfl, rfl, rfl, id⟩
  · exact .refl r.1

theorem frame_dropInterest (k : ℕ) (r : State × Bool) (i : Interest) :
    Frame r.1 (dropInterest k r i).1 := by
  unfold dropInterest
  split
  · exact ⟨logged_same rfl rfl, rfl, rfl, rfl, rfl, id⟩
  · exact .refl r.1

theorem frame_addApplicationEventInterest (k : ℕ) (s : State) (e : EventInterest) :
    Frame s (addApplicationEventInterest env k s e) := by
  cases e with
  | shutdown => exact ⟨logged_same rfl rfl, rfl, rfl, rfl, rfl, id⟩
  | neighborUpdate =>
    have hmodify : Frame s (s.modifyApp k fun a =>
        (a.addEventInterest .contactNew).addEventInterest .contactEnd) :=
      ⟨logged_same rfl rfl, rfl, rfl, rfl, rfl, id⟩
    exact hmodify.trans (frame_onNeighborStatusChange _ false)
  | other => exact .refl s

theorem frame_remove (s : State) (id : Digest) : Frame s (s.remove id) := by
  unfold State.remove
  split_ifs
  · exact ⟨⟨[.deregistered id], rfl, rfl⟩, rfl, rfl, rfl, rfl, fun h => h⟩
  · exact .refl s

theorem frame_deRegisterApplication (s : State) (k : ℕ) : Frame s (deRegisterApplication s k) := by
  unfold deRegisterApplication
  cases s.app k with
  | none => exact .refl s
  | some a =>
    let counted : State := { s with numClients := ulongPred s.numClients }
    have hcounted : Frame s (counted.create a) := ⟨logged_same rfl rfl, rfl, rfl, rfl, rfl, id⟩
    have hremoved := hcounted.trans (frame_remove _ a.id)
    refine ⟨hremoved.logged, hremoved.inShutdown, hremoved.finished, hremoved.callbacks,
      hremoved.readySignals, fun hlast => ?_⟩
    have hless := hremoved.last hlast
    simpa [counted] using hless

theorem frame_onControl {m : Message} {appNode : Option ℕ} {c : Control}
    (h : onControl env m appNode s c = some s') : Frame s s' := by
  cases c with
  | invalid => cases h
  | shutdown | sendNodeDescription =>
    obtain rfl := Option.some.inj h
    exact .refl s
  | registrationRequest =>
    obtain rfl := Option.some.inj h
    split_ifs
    · exact .refl s
    · cases appNode with
      | none =>
        refine ⟨logged_same rfl rfl, rfl, rfl, rfl, rfl, fun hlast => ?_⟩
        simpa using hlast
      | some k => exact frame_reply s m.id
  | deregistrationNotice =>
    obtain rfl := Option.some.inj h
    cases appNode with
    | none => exact .refl s
    | some k => exact frame_deRegisterApplication s k
  | registerInterest interests =>
    obtain rfl := Option.some.inj h
    split_ifs
    · exact .refl s
    · cases appNode with
      | none => exact .refl s
      | some k =>
        have hfold := frame_foldl_pair (frame_addInterest k) interests (s, false)
        simp only [Option.elim_some]
        split_ifs
        · exact hfold.trans (frame_updateApplicationInterests _ k)
        · exact hfold
  | removeInterest interests =>
    obtain rfl := Option.some.inj h
    split_ifs
    · exact .refl s
    · cases appNode with
      | none => exact .refl s
      | some k =>
        have hfold := frame_foldl_pair (frame_dropInterest k) interests (s, false)
        have hupdate := hfold.trans (frame_updateApplicationInterests _ k)
        simp only [Option.elim_some]
        split_ifs
        · refine ⟨hupdate.logged, hupdate.inShutdown, hupdate.finished, hupdate.callbacks,
            hupdate.readySignals, fun hlast => ?_⟩
          have hless := hupdate.last hlast
          simpa using hless
        · exact hfold
  | getInterests =>
    obtain rfl := Option.some.inj h
    split_ifs
    · exact .refl s
    · cases appNode with
      | none => exact .refl s
      | some k => exact frame_reply s m.id
  | registerEventInterest events =>
    obtain rfl := Option.some.inj h
    split_ifs
    · exact .refl s
    · cases appNode with
      | none => exact .refl s
      | some k => exact frame_foldl (frame_addApplicationEventInterest k) events s
  | getDataObjects =>
    obtain rfl := Option.some.inj h
    split_ifs
    · exact .refl s
    · cases appNode with
      | none => exact .refl s
      | some k =>
        have hreset : Frame s { s.modifyApp k (fun a =>
            { a with bloomfilter := .new env.shape }) with log := s.log ++ [Entry.reset m.id] } :=
          ⟨⟨[.reset m.id], rfl, rfl⟩, rfl, rfl, rfl, rfl, id⟩
        exact hreset.trans (frame_updateApplicationInterests _ k)
  | deleteDataObject object keepInBloomfilter =>
    obtain rfl := Option.some.inj h
    split_ifs
    · exact .refl s
    · cases appNode with
      | none => exact .refl s
      | some k =>
        cases object with
        | none => exact .refl s
        | some o => exact ⟨⟨[.removed m.id o], rfl, rfl⟩, rfl, rfl, rfl, rfl, id⟩

/-- During the shutdown only a deregistration is handled. -/
theorem onControl_inShutdown {m : Message} {appNode : Option ℕ} {c : Control}
    (hin : s.inShutdown = true) (hok : ShutdownControl s m appNode c)
    (h : onControl env m appNode s c = some s') : s' = s := by
  cases c with
  | invalid => cases h
  | deregistrationNotice =>
    obtain rfl := hok hin
    exact (Option.some.inj h).symm
  | shutdown | sendNodeDescription => exact (Option.some.inj h).symm
  | deleteDataObject object keepInBloomfilter =>
    have heq := (Option.some.inj h).symm
    rw [hin, Bool.true_or, if_pos rfl] at heq
    exact heq
  | _ =>
    have heq := (Option.some.inj h).symm
    rw [if_pos hin] at heq
    exact heq

end Frames

section Invariant

/-- The data store has called back for its last task. -/
def State.finishing (s : State) : Prop :=
  s.dataStoreFinishedProcessing = true ∨ .finishedProcessing ∈ s.callbacks

/-- The pending objects are those without a result, the data store is asked for its last task by
the shutdown only, and behind that task there is no deregistration. -/
structure Waiting (s : State) : Prop where
  pending : s.pendingDOs = unanswered s.log
  calm : s.inShutdown = false → ¬ s.finishing ∧ .retrieveLast ∉ s.tasks
  done : ∀ l₁ l₂, s.tasks = l₁ ++ l₂ → s.finishing ∨ .retrieveLast ∈ l₁ →
    ∀ t ∈ l₂, t.stores = false

theorem Frame.finishing_iff (h : Frame s s') : s'.finishing ↔ s.finishing := by
  unfold State.finishing
  rw [h.finished, h.callbacks]

theorem Frame.pending (h : Frame s s') (hs : s.pendingDOs = unanswered s.log) :
    s'.pendingDOs = unanswered s'.log := by
  obtain ⟨l, hlog, hpending⟩ := h.logged
  unfold unanswered at hs ⊢
  rw [hlog, hpending, hs, List.foldl_append]

theorem Waiting.frame (h : Waiting s) (hf : Frame s s')
    (htasks : s'.tasks = s.tasks ∨ s.inShutdown = false) : Waiting s' := by
  refine ⟨hf.pending h.pending, fun hout => ?_, fun l₁ l₂ hsplit hlast => ?_⟩
  · rw [hf.inShutdown] at hout
    obtain ⟨hnot, hlast⟩ := h.calm hout
    exact ⟨fun hfin => hnot (hf.finishing_iff.mp hfin), hf.last hlast⟩
  · rw [hf.finishing_iff] at hlast
    rcases htasks with htasks | hout
    · exact h.done l₁ l₂ (htasks.symm.trans hsplit) hlast
    · obtain ⟨hnot, hnone⟩ := h.calm hout
      have hnone' := hf.last hnone
      rw [hsplit] at hnone'
      rcases hlast with hfin | hin
      · exact absurd hfin hnot
      · exact absurd (List.mem_append_left l₂ hin) hnone'

theorem Waiting.ready (h : Waiting s) (hpending : s.pendingDOs = []) (hfin : s.finishing) :
    unanswered s.log = [] ∧ ∀ t ∈ s.tasks, t.stores = false :=
  ⟨h.pending.symm.trans hpending, h.done [] s.tasks rfl (.inl hfin)⟩

/-- A signal that is given only when the manager may signal. -/
theorem Waiting.signal (h : Waiting s) {c : Bool}
    (hc : c = true → s.pendingDOs = [] ∧ s.finishing) :
    Waiting (if c then signalIsReadyForShutdown s else s) ∧
      ReadyAfter s (if c then signalIsReadyForShutdown s else s) := by
  cases c with
  | false => exact ⟨h, fun hne => absurd rfl hne⟩
  | true =>
    obtain ⟨hpending, hfin⟩ := hc rfl
    exact ⟨⟨h.pending, h.calm, h.done⟩, fun _ => h.ready hpending hfin⟩

theorem Waiting.receive (h : Waiting s) {messages : List (Option Message)}
    (hok : ReceiveMeets env ShutdownControl s messages) :
    Waiting (onReceiveFromApplication env s messages) ∧
      (onReceiveFromApplication env s messages).readySignals = s.readySignals := by
  refine @receive_invariant env s ShutdownControl
    (fun s' => Waiting s' ∧ s'.readySignals = s.readySignals)
    (fun s₁ m appNode c s₂ hs hr hok hc => ?_) messages ⟨h, rfl⟩ hok
  have hframe := frame_onControl hc
  cases hin : s₁.inShutdown with
  | false => exact ⟨hs.1.frame hframe (.inr hin), hframe.readySignals.trans hs.2⟩
  | true =>
    obtain rfl := onControl_inShutdown hin hok hc
    exact hs

theorem runTask_callbacks {t : Task} (h : .finishedProcessing ∈ (runTask s t).callbacks) :
    .finishedProcessing ∈ s.callbacks ∨ t = .retrieveLast := by
  cases t with
  | insertNode k =>
    rw [runTask] at h
    cases hk : s.app k with
    | none => exact .inl (by simpa [hk] using h)
    | some a => exact .inl (by simpa [hk] using h)
  | retrieveNode k =>
    rw [runTask] at h
    cases hk : (s.app k).bind fun a => s.kept.find? (·.id = a.id) with
    | none => exact .inl (by simpa [hk] using h)
    | some b => exact .inl (by simpa [hk, State.create] using h)
  | deleteFilter event => exact .inl h
  | retrieveLast => exact .inr rfl

/-- The first tasks are done; the callback for the last one is there only if it was among them. -/
theorem Waiting.tasksDone (h : Waiting s) {heap kept : List App} {first rest : List Task}
    {queries : ℕ} {callbacks : List Callback} (htasks : s.tasks = first ++ rest)
    (hcallbacks : .finishedProcessing ∈ callbacks →
      .finishedProcessing ∈ s.callbacks ∨ .retrieveLast ∈ first) :
    Waiting { s with
      heap := heap, kept := kept, tasks := rest, queries := queries, callbacks := callbacks } := by
  have hfinishing : State.finishing { s with
      heap := heap, kept := kept, tasks := rest, queries := queries, callbacks := callbacks } →
      s.finishing ∨ .retrieveLast ∈ first := by
    rintro (hfin | hin)
    · exact .inl (.inl hfin)
    · exact (hcallbacks hin).imp .inr id
  refine ⟨h.pending, fun hout => ?_, fun l₁ l₂ hsplit hlast => ?_⟩
  · obtain ⟨hnot, hnone⟩ := h.calm hout
    rw [htasks] at hnone
    refine ⟨fun hfin => ?_, fun hin => hnone (List.mem_append_right first hin)⟩
    rcases hfinishing hfin with hfin | hin
    · exact hnot hfin
    · exact hnone (List.mem_append_left rest hin)
  · have hsplit : rest = l₁ ++ l₂ := hsplit
    refine h.done (first ++ l₁) l₂ (by rw [htasks, hsplit, List.append_assoc]) ?_
    rcases hlast with hfin | hin
    · exact (hfinishing hfin).imp id (List.mem_append_left l₁)
    · exact .inr (List.mem_append_right first hin)

theorem Waiting.dataStore (h : Waiting s) :
    Waiting (runDataStore s) ∧ (runDataStore s).readySignals = s.readySignals := by
  unfold runDataStore
  cases htasks : s.tasks with
  | nil =>
    simp only
    split_ifs
    · exact ⟨h, rfl⟩
    · refine ⟨?_, rfl⟩
      refine @Waiting.tasksDone s h s.heap s.kept [] [] _ _ htasks fun hin => ?_
      exact .inl (by simpa using hin)
  | cons t l =>
    obtain ⟨heap, kept, callbacks, heq, -⟩ := runTask_eq { s with tasks := l } t
    have hcallbacks := @runTask_callbacks { s with tasks := l } t
    simp only [heq] at hcallbacks ⊢
    refine ⟨@Waiting.tasksDone s h heap kept [t] l _ callbacks htasks fun hin => ?_, trivial⟩
    exact (hcallbacks hin).imp id fun ht => List.mem_singleton.mpr ht.symm

end Invariant

section Runs

theorem frame_matchObject (a : App) (s : State) (o : Digest × Bool) :
    Frame s (matchObject env a s o) := by
  unfold matchObject
  split_ifs
  · exact .refl s
  · exact ⟨⟨[.sent a.id o.1], rfl, rfl⟩, rfl, rfl, rfl, rfl, id⟩

theorem frame_onApplicationFilterMatchEvent (s : State) (event : ℕ)
    (objects : List (Digest × Bool)) :
    Frame s (onApplicationFilterMatchEvent env s event objects) :=
  frame_foldl (fun s a => frame_foldl (frame_matchObject a) objects s) _ s

theorem frame_add (s : State) (isOther : Bool) (k : ℕ) : Frame s (s.add isOther k) := by
  unfold State.add
  cases s.app k with
  | none => exact .refl s
  | some a =>
    rw [Option.elim_some]
    split_ifs
    · exact .refl s
    · exact ⟨⟨[.registered a.id], rfl, rfl⟩, rfl, rfl, rfl, rfl, id⟩

theorem frame_onRetrieveNode (s : State) (isOther : Bool) (k : ℕ) :
    Frame s (onRetrieveNode env s isOther k) := by
  unfold onRetrieveNode
  cases s.app k with
  | none => exact .refl s
  | some a =>
    let r := s.modifyApp k fun a => { a with bloomfilter := .new env.shape }
    have hreset : Frame s r := ⟨logged_same rfl rfl, rfl, rfl, rfl, rfl, id⟩
    let u := updateApplicationInterests (r.add isOther k) k
    have hupdate : Frame s u :=
      (hreset.trans (frame_add r isOther k)).trans (frame_updateApplicationInterests _ k)
    have hcounted : Frame u { u with numClients := ulongSucc u.numClients } :=
      ⟨logged_same rfl rfl, rfl, rfl, rfl, rfl, id⟩
    exact (hupdate.trans hcounted).trans (frame_reply _ a.id)

theorem tasks_updateApplicationInterests (s : State) (k : ℕ) :
    (updateApplicationInterests s k).tasks = s.tasks := by
  unfold updateApplicationInterests
  cases s.app k with
  | none => rfl
  | some a => rfl

theorem tasks_onRetrieveNode (s : State) (isOther : Bool) (k : ℕ) :
    (onRetrieveNode env s isOther k).tasks = s.tasks := by
  unfold onRetrieveNode
  cases s.app k with
  | none => rfl
  | some a =>
    refine (tasks_updateApplicationInterests _ k).trans ?_
    unfold State.add
    cases (s.modifyApp k fun a => { a with bloomfilter := .new env.shape }).app k with
    | none => rfl
    | some b =>
      rw [Option.elim_some]
      split_ifs <;> rfl

theorem Waiting.callback (h : Waiting s) (position : ℕ) (isOther : Bool) :
    Waiting (step env s (.callback position isOther)) ∧
      ReadyAfter s (step env s (.callback position isOther)) := by
  cases hget : s.callbacks[position]? with
  | none =>
    rw [step_callback_none hget]
    exact ⟨h, fun hne => absurd rfl hne⟩
  | some c =>
    -- Without the callback, the data store may seem less far, but not farther.
    let r : State := { s with callbacks := s.callbacks.eraseIdx position }
    have hr : Waiting r :=
      @Waiting.tasksDone s h s.heap s.kept [] s.tasks s.queries _ rfl fun hin =>
        .inl (List.mem_of_mem_eraseIdx hin)
    rw [step_callback_some hget]
    cases c with
    | node k =>
      have hframe := @frame_onRetrieveNode env r isOther k
      refine ⟨hr.frame hframe (.inl (tasks_onRetrieveNode r isOther k)), fun hne => ?_⟩
      exact absurd hframe.readySignals hne
    | appNodes nodes =>
      exact ⟨hr.frame ⟨logged_same rfl rfl, rfl, rfl, rfl, rfl, id⟩ (.inl rfl),
        fun hne => absurd rfl hne⟩
    | finishedProcessing =>
      have hfin : s.finishing := .inr (List.mem_of_getElem? hget)
      have hfinished : Waiting { r with dataStoreFinishedProcessing := true } := by
        refine ⟨hr.pending, fun hout => absurd hfin (h.calm hout).1, fun l₁ l₂ hsplit _ => ?_⟩
        intro t ht
        refine h.done [] s.tasks rfl (.inl hfin) t ?_
        have hsplit : s.tasks = l₁ ++ l₂ := hsplit
        rw [hsplit]
        exact List.mem_append_right l₁ ht
      exact hfinished.signal fun hempty => ⟨List.isEmpty_iff.mp hempty, .inl rfl⟩

theorem onSendResult_some {k : ℕ} {a : App} (ha : s.app k = some a) (object : Digest)
    (success : Bool) : ∃ r : State, r = { s with
        heap := r.heap
        pendingDOs := s.pendingDOs.filter fun p => p.2 ≠ object
        log := s.log ++ [Entry.result a.id object success] } ∧
      onSendResult env s k object success =
        if r.inShutdown && r.pendingDOs.isEmpty && r.dataStoreFinishedProcessing then
          signalIsReadyForShutdown r
        else r := by
  unfold onSendResult
  rw [ha, Option.elim_some]
  cases success with
  | false => exact ⟨_, rfl, rfl⟩
  | true => exact ⟨_, rfl, rfl⟩

theorem Waiting.sendResult (h : Waiting s) {k : ℕ} {object : Digest} {success : Bool}
    (hok : ShutdownAct env s (.sendResult k object success)) :
    Waiting (onSendResult env s k object success) ∧
      ReadyAfter s (onSendResult env s k object success) := by
  cases ha : s.app k with
  | none =>
    have heq : onSendResult env s k object success = s := by
      unfold onSendResult
      rw [ha, Option.elim_none]
    rw [heq]
    exact ⟨h, fun hne => absurd rfl hne⟩
  | some a =>
    -- The result takes exactly its own pair from the pending objects.
    have hfilter : s.pendingDOs.filter (fun p => p.2 ≠ object) =
        answer s.pendingDOs (.result a.id object success) := by
      refine List.filter_congr fun p hp => decide_eq_decide.mpr ?_
      constructor
      · exact fun hne heq => hne (congrArg Prod.snd heq)
      · exact fun hne ho => hne (Prod.ext (hok a ha p hp ho) ho)
    obtain ⟨r, hr, heq⟩ := @onSendResult_some env s k a ha object success
    have hframe : Frame s r := by
      rw [hr]
      exact ⟨⟨[.result a.id object success], rfl, hfilter⟩, rfl, rfl, rfl, rfl, id⟩
    have htasks : r.tasks = s.tasks := by rw [hr]
    rw [heq]
    have hsignal := (h.frame hframe (.inl htasks)).signal
      (c := r.inShutdown && r.pendingDOs.isEmpty && r.dataStoreFinishedProcessing) fun hc => by
        simp only [Bool.and_eq_true, List.isEmpty_iff] at hc
        exact ⟨hc.1.2, .inl hc.2⟩
    unfold ReadyAfter at hsignal ⊢
    rw [← hframe.readySignals]
    exact hsignal

/-- The last task is added. -/
theorem waiting_lastTask (hpending : s.pendingDOs = unanswered s.log) (hin : s.inShutdown = true)
    (hnot : ¬ s.finishing) (hlast : .retrieveLast ∉ s.tasks) :
    Waiting { s with tasks := s.tasks ++ [Task.retrieveLast] } := by
  refine ⟨hpending, fun hout => ?_, fun l₁ l₂ hsplit hbefore => ?_⟩
  · exact absurd (hin.symm.trans hout) (by decide)
  · rcases hbefore with hfin | hmem
    · exact absurd hfin hnot
    -- Behind the only one of its kind there is nothing.
    rcases List.eq_nil_or_concat l₂ with rfl | ⟨l, t, rfl⟩
    · exact fun t ht => absurd ht List.not_mem_nil
    · have htasks : s.tasks ++ [Task.retrieveLast] = (l₁ ++ l) ++ [t] := by
        rw [List.append_assoc]
        simpa using hsplit
      have heq := (List.append_inj' htasks rfl).1
      rw [heq] at hlast
      exact absurd (List.mem_append_left l hmem) hlast

/-- The shutdown after its messages are sent. -/
theorem waiting_deRegisterAll (hpending : s.pendingDOs = unanswered s.log)
    (hin : s.inShutdown = true) (hnot : ¬ s.finishing) (hlast : .retrieveLast ∉ s.tasks)
    (l : List ℕ) : Waiting { l.foldl deRegisterApplication s with
      tasks := (l.foldl deRegisterApplication s).tasks ++ [Task.retrieveLast] } := by
  have hframe := frame_foldl frame_deRegisterApplication l s
  refine waiting_lastTask (hframe.pending hpending) (hframe.inShutdown.trans hin) ?_
    (hframe.last hlast)
  exact fun hfin => hnot (hframe.finishing_iff.mp hfin)

theorem sendToAllApplications_frame (s : State) (e : EventType) :
    (sendToAllApplications env s e).tasks = s.tasks ∧
      (sendToAllApplications env s e).records = s.records := by
  rw [sendToAllApplications_eq]
  exact ⟨rfl, rfl⟩

theorem Waiting.prepareShutdown (h : Waiting s) (hok : ShutdownAct env s .prepareShutdown) :
    Waiting (onPrepareShutdown env s) ∧ ReadyAfter s (onPrepareShutdown env s) := by
  obtain ⟨hout, hempty⟩ := hok
  obtain ⟨hnot, hnone⟩ := h.calm hout
  unfold onPrepareShutdown
  obtain ⟨htasks, hrecords⟩ := @sendToAllApplications_frame env { s with inShutdown := true }
    .shutdown
  have hframe := @frame_sendToAllApplications env { s with inShutdown := true } .shutdown
  generalize sendToAllApplications env { s with inShutdown := true } .shutdown = r at *
  have hpending : r.pendingDOs = unanswered r.log := hframe.pending h.pending
  have hready : r.readySignals = s.readySignals := hframe.readySignals
  simp only
  by_cases hnil : r.records.isEmpty = true
  · rw [if_pos hnil]
    have hstores : ∀ t ∈ r.tasks, t.stores = false := by
      rw [htasks]
      exact hempty (hrecords.symm.trans (List.isEmpty_iff.mp hnil))
    have hfinished : Waiting { r with dataStoreFinishedProcessing := true } := by
      refine ⟨hpending, fun hfalse => ?_, fun l₁ l₂ hsplit _ t ht => hstores t ?_⟩
      · have hin : r.inShutdown = true := hframe.inShutdown
        exact absurd (hin.symm.trans hfalse) (by decide)
      · have hsplit : r.tasks = l₁ ++ l₂ := hsplit
        rw [hsplit]
        exact List.mem_append_right l₁ ht
    have hsignal := hfinished.signal fun hc => ⟨List.isEmpty_iff.mp hc, .inl rfl⟩
    unfold ReadyAfter at hsignal ⊢
    rw [← hready]
    exact hsignal
  · rw [if_neg hnil]
    have hall := frame_foldl frame_deRegisterApplication r.records r
    refine ⟨waiting_deRegisterAll hpending hframe.inShutdown ?_ (hframe.last hnone) r.records,
      fun hne => absurd (hall.readySignals.trans hready) hne⟩
    exact fun hfin => hnot (hframe.finishing_iff.mp hfin)

theorem Waiting.step (h : Waiting s) {act : Act} (hok : ShutdownAct env s act) :
    Waiting (step env s act) ∧ ReadyAfter s (step env s act) := by
  have hkept : ∀ {s'}, Frame s s' → s'.tasks = s.tasks → Waiting s' ∧ ReadyAfter s s' :=
    fun hframe htasks =>
      ⟨h.frame hframe (.inl htasks), fun hne => absurd hframe.readySignals hne⟩
  cases act with
  | receive messages =>
    obtain ⟨hw, hready⟩ := h.receive hok
    exact ⟨hw, fun hne => absurd hready hne⟩
  | dataStore =>
    obtain ⟨hw, hready⟩ := h.dataStore
    exact ⟨hw, fun hne => absurd hready hne⟩
  | callback position isOther => exact h.callback position isOther
  | neighborStatus lastInterface =>
    refine hkept (frame_onNeighborStatusChange s lastInterface) ?_
    obtain ⟨created, pendingDOs, log, heq⟩ := @onNeighborStatusChange_eq env s lastInterface
    rw [ApplicationManager.step, heq]
  | filterMatch event objects =>
    refine hkept (frame_onApplicationFilterMatchEvent s event objects) ?_
    obtain ⟨pendingDOs, log, heq⟩ := @onApplicationFilterMatchEvent_eq env s event objects
    rw [ApplicationManager.step, heq]
  | sendResult k object success => exact h.sendResult hok
  | prepareShutdown => exact h.prepareShutdown hok

end Runs

end ApplicationManager

namespace Sample

open ApplicationManager

/-- The data objects of the manager have different identifiers. -/
def numbered : Surroundings := { applications with objectId := fun n => firstBytes [n.toUInt8] }

end Sample
end Haggle
