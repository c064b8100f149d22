import Haggle.ApplicationShutdown

/-!
# Deliveries of data objects

Whether an application has a data object is known from its filter only, and the filter gets the
object when a result of the send arrives. Between the send and the result a second match sends the
object again.
-/

namespace Haggle
namespace ApplicationManager

variable {env : Surroundings} {s s' : State}

section Logs

/-- Whether an application, since it is registered, has been sent an object and no send of it
failed; the application can also ask for all objects again, or delete one. -/
def deliver (app object : Digest) (b : Bool) : Entry → Bool
  | .sent app' object' => b || decide (app' = app ∧ object' = object)
  | .result app' object' success =>
    b && decide (¬ (app' = app ∧ object' = object ∧ success = false))
  | .registered app' => b && decide (app' ≠ app)
  | .deregistered app' => b && decide (app' ≠ app)
  | .reset app' => b && decide (app' ≠ app)
  | .removed app' object' => b && decide (¬ (app' = app ∧ object' = object))

def delivered (log : List Entry) (app object : Digest) : Bool :=
  log.foldl (deliver app object) false

/-- The objects in the filter of an application, after one more entry. -/
def count (app : Digest) (l : List Digest) : Entry → List Digest
  | .result app' object success => if app' = app ∧ success = true then object :: l else l
  | .registered app' => if app' = app then [] else l
  | .deregistered app' => if app' = app then [] else l
  | .reset app' => if app' = app then [] else l
  | .removed app' object => if app' = app then l.erase object else l
  | .sent _ _ => l

def counted (log : List Entry) (app : Digest) : List Digest := log.foldl (count app) []

theorem counted_concat (log : List Entry) (e : Entry) (app : Digest) :
    counted (log ++ [e]) app = count app (counted log app) e := by
  unfold counted
  rw [List.foldl_append]
  rfl

theorem unanswered_concat (log : List Entry) (e : Entry) :
    unanswered (log ++ [e]) = answer (unanswered log) e := by
  unfold unanswered
  rw [List.foldl_append]
  rfl

theorem delivered_concat (log : List Entry) (e : Entry) (app object : Digest) :
    delivered (log ++ [e]) app object = deliver app object (delivered log app object) e := by
  unfold delivered
  rw [List.foldl_append]
  rfl

/-- What was delivered has no result yet or is in the filter. -/
theorem unanswered_or_counted {log : List Entry} {app object : Digest}
    (h : delivered log app object = true) :
    (app, object) ∈ unanswered log ∨ object ∈ counted log app := by
  induction log using List.reverseRecOn with
  | nil => cases h
  | append_singleton log e ih =>
    rw [delivered_concat] at h
    rw [unanswered_concat, counted_concat]
    cases e with
    | sent app' object' =>
      simp only [deliver, Bool.or_eq_true, decide_eq_true_eq] at h
      rcases h with h | ⟨rfl, rfl⟩
      · exact (ih h).imp (List.mem_append_left _) id
      · exact .inl (List.mem_append_right _ (List.mem_singleton.mpr rfl))
    | result app' object' success =>
      simp only [deliver, Bool.and_eq_true, decide_eq_true_eq] at h
      obtain ⟨h, hnot⟩ := h
      by_cases heq : app' = app ∧ object' = object
      · obtain ⟨rfl, rfl⟩ := heq
        have hsuccess : success = true := by
          by_contra hfalse
          exact hnot ⟨rfl, rfl, Bool.eq_false_of_not_eq_true hfalse⟩
        right
        simp [count, hsuccess]
      · refine (ih h).imp (fun hin => ?_) fun hin => ?_
        · refine List.mem_filter.mpr ⟨hin, decide_eq_true fun hpair => heq ?_⟩
          exact ⟨(congrArg Prod.fst hpair).symm, (congrArg Prod.snd hpair).symm⟩
        · simp only [count]
          split_ifs
          · exact List.mem_cons_of_mem _ hin
          · exact hin
    | registered app' | deregistered app' | reset app' =>
      simp only [deliver, Bool.and_eq_true, decide_eq_true_eq] at h
      simp only [count, if_neg h.2]
      exact ih h.1
    | removed app' object' =>
      simp only [deliver, Bool.and_eq_true, decide_eq_true_eq] at h
      refine (ih h.1).imp id fun hin => ?_
      simp only [count]
      split_ifs with happ
      · refine (List.mem_erase_of_ne ?_).mpr hin
        exact fun hobj => h.2 ⟨happ, hobj.symm⟩
      · exact hin

/-- Sends to others do not deliver an object. -/
theorem delivered_append_sent {log l : List Entry} {app object : Digest}
    (hsent : ∀ e ∈ l, ∃ app' object', e = .sent app' object') (hnot : .sent app object ∉ l) :
    delivered (log ++ l) app object = delivered log app object := by
  induction l using List.reverseRecOn with
  | nil => rw [List.append_nil]
  | append_singleton l e ih =>
    rw [List.mem_append, not_or] at hnot
    obtain ⟨app', object', rfl⟩ := hsent e (List.mem_append_right l (List.mem_singleton.mpr rfl))
    rw [← List.append_assoc, delivered_concat,
      ih (fun e he => hsent e (List.mem_append_left _ he)) hnot.1]
    have hne : ¬ (app' = app ∧ object' = object) := by
      rintro ⟨rfl, rfl⟩
      exact hnot.2 (List.mem_singleton.mpr rfl)
    simp [deliver, hne]

end Logs

section Conditions

variable (env)

/-- A match sends no object that was delivered already. -/
def DeliversOnce (s : State) : Act → Prop
  | .filterMatch event objects => ∀ l₁ l₂ app object,
      (onApplicationFilterMatchEvent env s event objects).log =
        s.log ++ (l₁ ++ .sent app object :: l₂) → delivered (s.log ++ l₁) app object = false
  | _ => True

/-- An application deletes what its filter has. -/
def DeliveryControl (s : State) (m : Message) (appNode : Option ℕ) : Control → Prop
  | .deleteDataObject (some o) false => ∀ k, appNode = some k → o ∈ counted s.log m.id
  | _ => True

/-- A match is for different objects, and those that an application does not have yet are not on
the way to it. No bin of a filter runs over. -/
def DeliveryAct (s : State) : Act → Prop
  | .receive messages => ReceiveMeets env DeliveryControl s messages
  | .filterMatch event objects => (objects.map Prod.fst).Nodup ∧
      ∀ a ∈ s.interested (.filter event), ∀ o ∈ objects, o.2 = false →
        (a.id, o.1) ∈ unanswered s.log → a.bloomfilter.has env.sha1 o.1 = true
  | .sendResult k object true => ∀ a, s.app (resultNode s k) = some a →
      ∀ j < a.bloomfilter.bins.length, a.bloomfilter.bins.getD j 0 +
        (a.bloomfilter.indices env.sha1 object).count j < CountingBloomfilter.binValues
  | _ => True

end Conditions

section Places

def Task.asks : Task → Option ℕ
  | .retrieveNode k => some k
  | _ => none

def Callback.brings : Callback → Option ℕ
  | .node k => some k
  | _ => none

/-- The nodes that the data store is asked for, and that it has not called back with. -/
def State.awaited (s : State) : List ℕ :=
  s.tasks.filterMap Task.asks ++ s.callbacks.filterMap Callback.brings

/-- A node is registered or awaited, once, and no two registered ones have one identifier. -/
structure Placed (s : State) : Prop where
  nodup : (s.records ++ s.awaited).Nodup
  valid : ∀ k ∈ s.records ++ s.awaited, (s.app k).isSome
  distinct : ∀ j ∈ s.records, ∀ k ∈ s.records, ∀ id,
    s.hasId id j = true → s.hasId id k = true → j = k

/-- The filter of a registered application counts all that was sent to it with success. -/
def Filled (sha1 : Bytes → Digest) (s : State) : Prop :=
  ∀ k ∈ s.records, ∀ a, s.app k = some a → a.bloomfilter.WF ∧
    CountingFilter.Covers (a.bloomfilter.indices sha1) a.bloomfilter.bins (counted s.log a.id)

/-- Registered and awaited nodes are still where they were, or fewer of them. -/
theorem Placed.of_sublist (h : Placed s) (hext : Extends s s')
    (hsub : (s'.records ++ s'.awaited).Subperm (s.records ++ s.awaited))
    (hrecords : s'.records ⊆ s.records) : Placed s' := by
  have hvalid : ∀ k ∈ s'.records ++ s'.awaited, (s'.app k).isSome :=
    fun k hk => hext.isSome (h.valid k (hsub.subset hk))
  obtain ⟨l, hperm, hsublist⟩ := hsub
  refine ⟨hperm.nodup_iff.mp (h.nodup.sublist hsublist), hvalid, ?_⟩
  intro j hj k hk id hidj hidk
  have hold : ∀ i ∈ s'.records, s'.hasId id i = true → s.hasId id i = true := by
    intro i hi hid
    obtain ⟨a, ha⟩ := Option.isSome_iff_exists.mp
      (h.valid i (List.mem_append_left _ (hrecords hi)))
    obtain ⟨b, hb, hb'⟩ := hext i a ha
    unfold State.hasId at hid ⊢
    rw [hb] at hid
    rw [ha]
    simpa [hb'] using hid
  exact h.distinct j (hrecords hj) k (hrecords hk) id (hold j hj hidj) (hold k hk hidk)

/-- A step that does nothing to deliveries. -/
structure Quiet (s s' : State) : Prop where
  records : s'.records = s.records
  awaited : s'.awaited = s.awaited
  apps : ∀ k a, s.app k = some a →
    ∃ b, s'.app k = some b ∧ b.id = a.id ∧ b.bloomfilter = a.bloomfilter
  counted : ∀ app, counted s'.log app = counted s.log app

theorem Quiet.extends (h : Quiet s s') : Extends s s' := by
  intro k a ha
  obtain ⟨b, hb, hid, -⟩ := h.apps k a ha
  exact ⟨b, hb, hid⟩

theorem Quiet.trans {s₁ s₂ s₃ : State} (h : Quiet s₁ s₂) (h' : Quiet s₂ s₃) : Quiet s₁ s₃ := by
  refine ⟨h'.records.trans h.records, h'.awaited.trans h.awaited, fun k a ha => ?_,
    fun app => (h'.counted app).trans (h.counted app)⟩
  obtain ⟨b, hb, hid, hbf⟩ := h.apps k a ha
  obtain ⟨c, hc, hid', hbf'⟩ := h'.apps k b hb
  exact ⟨c, hc, hid'.trans hid, hbf'.trans hbf⟩

theorem Quiet.of_heap (hrecords : s'.records = s.records) (hawaited : s'.awaited = s.awaited)
    (hheap : s'.heap = s.heap) (hcounted : ∀ app, ApplicationManager.counted s'.log app =
      ApplicationManager.counted s.log app) : Quiet s s' := by
  refine ⟨hrecords, hawaited, fun k a ha => ⟨a, ?_, rfl, rfl⟩, hcounted⟩
  unfold State.app at ha ⊢
  rw [hheap]
  exact ha

theorem Quiet.refl (s : State) : Quiet s s := .of_heap rfl rfl rfl fun _ => rfl

theorem Quiet.of_modify {k : ℕ} {f : App → App} (hrecords : s'.records = s.records)
    (hawaited : s'.awaited = s.awaited) (hheap : s'.heap = s.heap.modify k f)
    (hf : ∀ a, (f a).id = a.id ∧ (f a).bloomfilter = a.bloomfilter)
    (hlog : s'.log = s.log) : Quiet s s' := by
  refine ⟨hrecords, hawaited, fun j a ha => ?_, fun app => by rw [hlog]⟩
  have hj : s'.app j = (s.modifyApp k f).app j := by
    unfold State.app State.modifyApp
    rw [hheap]
  rw [hj, app_modifyApp, ha]
  split_ifs
  · exact ⟨f a, rfl, hf a⟩
  · exact ⟨a, rfl, rfl, rfl⟩

theorem Filled.quiet {sha1 : Bytes → Digest} (hp : Placed s) (h : Filled sha1 s)
    (hq : Quiet s s') : Filled sha1 s' := by
  intro k hk b hb
  rw [hq.records] at hk
  obtain ⟨a, ha⟩ := Option.isSome_iff_exists.mp (hp.valid k (List.mem_append_left _ hk))
  obtain ⟨b', hb', hid, hbf⟩ := hq.apps k a ha
  obtain rfl : b' = b := Option.some.inj (hb'.symm.trans hb)
  rw [hbf, hid, hq.counted]
  exact h k hk a ha

theorem Placed.quiet (h : Placed s) (hq : Quiet s s') : Placed s' := by
  refine h.of_sublist hq.extends ?_ ?_
  · rw [hq.records, hq.awaited]
  · rw [hq.records]
    exact List.Subset.refl _

/-- What holds of the deliveries in every state that is reached. -/
structure Delivering (sha1 : Bytes → Digest) (s : State) : Prop where
  placed : Placed s
  filled : Filled sha1 s

theorem Delivering.quiet {sha1 : Bytes → Digest} (h : Delivering sha1 s) (hq : Quiet s s') :
    Delivering sha1 s' :=
  ⟨h.placed.quiet hq, h.filled.quiet h.placed hq⟩

end Places

section Handlers

theorem counted_append_sent {l : List Entry} (hsent : ∀ e ∈ l, ∃ app object, e = .sent app object)
    (log : List Entry) (app : Digest) : counted (log ++ l) app = counted log app := by
  induction l using List.reverseRecOn with
  | nil => rw [List.append_nil]
  | append_singleton l e ih =>
    obtain ⟨app', object', rfl⟩ := hsent e (List.mem_append_right l (List.mem_singleton.mpr rfl))
    rw [← List.append_assoc, counted_concat, ih fun e he => hsent e (List.mem_append_left _ he)]
    rfl

theorem quiet_updateApplicationInterests (s : State) (k : ℕ) :
    Quiet s (updateApplicationInterests s k) := by
  unfold updateApplicationInterests
  cases s.app k with
  | none => exact .refl s
  | some a =>
    refine .of_modify rfl rfl rfl (fun b => ⟨id_addEventInterest _ _, ?_⟩) rfl
    unfold App.addEventInterest
    split_ifs <;> rfl

theorem quiet_reply (s : State) (app : Digest) : Quiet s (reply env s app) := by
  refine .of_heap rfl rfl rfl fun app' => ?_
  exact counted_append_sent (fun e he => ⟨_, _, List.mem_singleton.mp he⟩) s.log app'

theorem quiet_sendToAllApplications (s : State) (e : EventType) :
    Quiet s (sendToAllApplications env s e) := by
  rw [sendToAllApplications_eq]
  refine .of_heap rfl rfl rfl fun app => counted_append_sent (fun e he => ?_) s.log app
  obtain ⟨a, -, rfl⟩ := List.mem_map.mp he
  exact ⟨_, _, rfl⟩

theorem quiet_onNeighborStatusChange (s : State) (lastInterface : Bool) :
    Quiet s (onNeighborStatusChange env s lastInterface) := by
  unfold onNeighborStatusChange
  split_ifs
  · exact .refl s
  · exact quiet_sendToAllApplications s _

theorem quiet_addApplicationEventInterest (k : ℕ) (s : State) (e : EventInterest) :
    Quiet s (addApplicationEventInterest env k s e) := by
  have hadd : ∀ (a : App) (e : EventType), (a.addEventInterest e).id = a.id ∧
      (a.addEventInterest e).bloomfilter = a.bloomfilter := by
    intro a e
    unfold App.addEventInterest
    split_ifs <;> exact ⟨rfl, rfl⟩
  cases e with
  | shutdown => exact .of_modify rfl rfl rfl (fun a => hadd a _) rfl
  | neighborUpdate =>
    have hmodify : Quiet s (s.modifyApp k fun a =>
        (a.addEventInterest .contactNew).addEventInterest .contactEnd) := by
      refine .of_modify rfl rfl rfl (fun a => ?_) rfl
      obtain ⟨hid, hbf⟩ := hadd (a.addEventInterest .contactNew) .contactEnd
      exact ⟨hid.trans (hadd a _).1, hbf.trans (hadd a _).2⟩
    exact hmodify.trans (quiet_onNeighborStatusChange _ false)
  | other => exact .refl s

theorem quiet_foldl {α : Type} {f : State → α → State} (hf : ∀ s x, Quiet s (f s x))
    (l : List α) (s : State) : Quiet s (l.foldl f s) := by
  induction l generalizing s with
  | nil => exact .refl s
  | cons x l ih => exact (hf s x).trans (ih _)

theorem quiet_foldl_pair {α : Type} {f : State × Bool → α → State × Bool}
    (hf : ∀ r x, Quiet r.1 (f r x).1) (l : List α) (r : State × Bool) :
    Quiet r.1 (l.foldl f r).1 := by
  induction l generalizing r with
  | nil => exact .refl r.1
  | cons x l ih => exact (hf r x).trans (ih _)

theorem quiet_addInterest (k : ℕ) (r : State × Bool) (i : Interest) :
    Quiet r.1 (addInterest k r i).1 := by
  unfold addInterest
  split
  · exact .of_modify rfl rfl rfl (fun _ => ⟨rfl, rfl⟩) rfl
  · exact .refl r.1

theorem quiet_dropInterest (k : ℕ) (r : State × Bool) (i : Interest) :
    Quiet r.1 (dropInterest k r i).1 := by
  unfold dropInterest
  split
  · exact .of_modify rfl rfl rfl (fun _ => ⟨rfl, rfl⟩) rfl
  · exact .refl r.1

/-- The filter of an application is emptied because it asks for that. -/
def resetFilter (env : Surroundings) (s : State) (id : Digest) (k : ℕ) : State :=
  { s.modifyApp k fun a => { a with bloomfilter := .new env.shape } with
    log := s.log ++ [.reset id] }

/-- An object is taken out of the filter of an application. -/
def dropObject (env : Surroundings) (s : State) (id : Digest) (k : ℕ) (o : Digest) : State :=
  { s.modifyApp k fun a => { a with bloomfilter := a.bloomfilter.remove env.sha1 o } with
    log := s.log ++ [.removed id o] }

/-- What an element of a message can do to deliveries. -/
inductive Effect (env : Surroundings) (m : Message) (s : State) :
    Option ℕ → Control → State → Prop
  | quiet {appNode : Option ℕ} {c : Control} {s' : State} (h : Quiet s s') :
    Effect env m s appNode c s'
  | asked {appNode : Option ℕ} {c : Control} :
    Effect env m s appNode c { s.create (newApp env m.id m.name) with
      tasks := s.tasks ++ [.retrieveNode s.heap.length] }
  | deregistered {c : Control} (k : ℕ) : Effect env m s (some k) c (deRegisterApplication s k)
  | reset {c : Control} {s' : State} (k : ℕ) (h : Quiet (resetFilter env s m.id k) s') :
    Effect env m s (some k) c s'
  | dropped (k : ℕ) (o : Digest) :
    Effect env m s (some k) (.deleteDataObject (some o) false) (dropObject env s m.id k o)

theorem onControl_delivery {m : Message} {appNode : Option ℕ} {c : Control}
    (h : onControl env m appNode s c = some s') : Effect env m s appNode c s' := by
  cases c with
  | invalid => cases h
  | shutdown | sendNodeDescription =>
    obtain rfl := Option.some.inj h
    exact .quiet (.refl s)
  | registrationRequest =>
    obtain rfl := Option.some.inj h
    split_ifs
    · exact .quiet (.refl s)
    · cases appNode with
      | none => exact .asked
      | some k => exact .quiet (quiet_reply s m.id)
  | deregistrationNotice =>
    obtain rfl := Option.some.inj h
    cases appNode with
    | none => exact .quiet (.refl s)
    | some k => exact .deregistered k
  | registerInterest interests =>
    obtain rfl := Option.some.inj h
    apply Effect.quiet
    cases appNode with
    | none => simpa using Quiet.refl s
    | some k =>
      have hfold := quiet_foldl_pair (quiet_addInterest k) interests (s, false)
      simp only [Option.elim_some]
      split_ifs
      · exact .refl s
      · exact hfold.trans (quiet_updateApplicationInterests _ k)
      · exact hfold
  | removeInterest interests =>
    obtain rfl := Option.some.inj h
    apply Effect.quiet
    cases appNode with
    | none => simpa using Quiet.refl s
    | some k =>
      have hfold := quiet_foldl_pair (quiet_dropInterest k) interests (s, false)
      have hupdate := hfold.trans (quiet_updateApplicationInterests _ k)
      simp only [Option.elim_some]
      split_ifs
      · exact .refl s
      · refine hupdate.trans (.of_heap rfl ?_ rfl fun _ => rfl)
        simp [State.awaited, Task.asks]
      · exact hfold
  | getInterests =>
    obtain rfl := Option.some.inj h
    apply Effect.quiet
    cases appNode with
    | none => simpa using Quiet.refl s
    | some k =>
      simp only [Option.elim_some]
      split_ifs
      · exact .refl s
      · exact quiet_reply s m.id
  | registerEventInterest events =>
    obtain rfl := Option.some.inj h
    apply Effect.quiet
    cases appNode with
    | none => simpa using Quiet.refl s
    | some k =>
      simp only [Option.elim_some]
      split_ifs
      · exact .refl s
      · exact quiet_foldl (quiet_addApplicationEventInterest k) events s
  | getDataObjects =>
    obtain rfl := Option.some.inj h
    cases appNode with
    | none =>
      apply Effect.quiet
      simpa using Quiet.refl s
    | some k =>
      simp only [Option.elim_some]
      split_ifs
      · exact .quiet (.refl s)
      · exact .reset k (quiet_updateApplicationInterests _ k)
  | deleteDataObject object keepInBloomfilter =>
    obtain rfl := Option.some.inj h
    split_ifs with hskip
    · exact .quiet (.refl s)
    · cases appNode with
      | none => exact .quiet (.refl s)
      | some k =>
        cases object with
        | none => exact .quiet (.refl s)
        | some o =>
          simp only [Bool.or_eq_true, not_or, Bool.not_eq_true] at hskip
          rw [hskip.2]
          exact .dropped k o

end Handlers

section Elements

variable {sha1 : Bytes → Digest}

/-- An application whose node is gone from the filters' account, or is as it was. -/
theorem Filled.of_forget (h : Filled sha1 s) (hrecords : s'.records ⊆ s.records)
    (happs : ∀ k ∈ s'.records, s'.app k = s.app k)
    (hcounted : ∀ app, counted s'.log app = [] ∨ counted s'.log app = counted s.log app) :
    Filled sha1 s' := by
  intro k hk a ha
  rw [happs k hk] at ha
  obtain ⟨hwf, hcovers⟩ := h k (hrecords hk) a ha
  refine ⟨hwf, ?_⟩
  rcases hcounted a.id with hnil | hsame
  · rw [hnil]
    exact CountingFilter.covers_nil _
  · rw [hsame]
    exact hcovers

theorem Placed.length_not_mem (h : Placed s) : s.heap.length ∉ s.records ++ s.awaited := by
  intro hin
  have hsome := h.valid _ hin
  unfold State.app at hsome
  simp at hsome

/-- A new node is awaited. -/
theorem Placed.of_create (h : Placed s) {b : App} (hheap : s'.heap = s.heap ++ [b])
    (hrecords : s'.records = s.records)
    (hawaited : s'.awaited.Perm (s.heap.length :: s.awaited)) : Placed s' := by
  have hext : Extends s s' := (Extends.create s b).trans (.of_heap hheap)
  have hperm : (s'.records ++ s'.awaited).Perm (s.heap.length :: (s.records ++ s.awaited)) := by
    rw [hrecords]
    exact (hawaited.append_left _).trans List.perm_middle
  refine ⟨hperm.nodup_iff.mpr (List.nodup_cons.mpr ⟨h.length_not_mem, h.nodup⟩),
    fun k hk => ?_, ?_⟩
  · rcases List.mem_cons.mp (hperm.mem_iff.mp hk) with rfl | hk
    · unfold State.app
      rw [hheap]
      simp
    · exact hext.isSome (h.valid k hk)
  · -- The identifiers of the registered nodes are those of before.
    have hold : ∀ i ∈ s.records, ∀ id, s'.hasId id i = s.hasId id i := by
      intro i hi id
      have hcreate := hasId_create (h.valid i (List.mem_append_left _ hi)) id b
      unfold State.hasId State.app at hcreate ⊢
      rw [hheap]
      exact hcreate
    rw [hrecords]
    intro j hj k hk id hidj hidk
    rw [hold j hj] at hidj
    rw [hold k hk] at hidk
    exact h.distinct j hj k hk id hidj hidk

theorem Delivering.of_create (h : Delivering sha1 s) {b : App} (hheap : s'.heap = s.heap ++ [b])
    (hrecords : s'.records = s.records) (hlog : s'.log = s.log)
    (hawaited : s'.awaited.Perm (s.heap.length :: s.awaited)) : Delivering sha1 s' := by
  refine ⟨h.placed.of_create hheap hrecords hawaited, h.filled.of_forget ?_ (fun k hk => ?_) ?_⟩
  · rw [hrecords]
    exact List.Subset.refl _
  · rw [hrecords] at hk
    obtain ⟨a, ha⟩ := Option.isSome_iff_exists.mp (h.placed.valid k (List.mem_append_left _ hk))
    have hcreate := app_create ha b
    unfold State.app at hcreate ha ⊢
    rw [hheap, ha]
    exact hcreate
  · intro app
    rw [hlog]
    exact .inr rfl

/-- Some of the nodes are awaited no more. -/
theorem Delivering.of_fewer (h : Delivering sha1 s) (hheap : s'.heap = s.heap)
    (hrecords : s'.records = s.records) (hlog : s'.log = s.log)
    (hawaited : s'.awaited.Subperm s.awaited) : Delivering sha1 s' := by
  have happ : ∀ k, s'.app k = s.app k := by
    intro k
    unfold State.app
    rw [hheap]
  have hsub : s'.records ⊆ s.records := by
    rw [hrecords]
    exact List.Subset.refl _
  refine ⟨h.placed.of_sublist (.of_heap hheap) ?_ hsub,
    h.filled.of_forget hsub (fun k _ => happ k) fun app => ?_⟩
  · rw [hrecords]
    exact (List.subperm_append_left _).mpr hawaited
  · rw [hlog]
    exact .inr rfl

theorem counted_forget (log : List Entry) (app id : Digest) :
    counted (log ++ [Entry.deregistered id]) app = [] ∨
      counted (log ++ [Entry.deregistered id]) app = counted log app := by
  rw [counted_concat]
  simp only [count]
  split_ifs
  · exact .inl rfl
  · exact .inr rfl

theorem Delivering.deRegister (h : Delivering sha1 s) (k : ℕ) :
    Delivering sha1 (deRegisterApplication s k) := by
  cases ha : s.app k with
  | none =>
    have heq : deRegisterApplication s k = s := by
      unfold deRegisterApplication
      rw [ha, Option.elim_none]
    rw [heq]
    exact h
  | some a =>
    have hvalid : ∀ j ∈ s.records, (s.app j).isSome :=
      fun j hj => h.placed.valid j (List.mem_append_left _ hj)
    obtain ⟨-, hrecords⟩ := deRegisterApplication_clients ha hvalid
    have hawaited : (deRegisterApplication s k).awaited = s.awaited := by
      unfold deRegisterApplication State.awaited
      rw [ha]
      simp only [Option.elim_some, State.remove]
      split_ifs <;> simp [Task.asks, State.create]
    have hheap : (deRegisterApplication s k).heap = s.heap ++ [a] := by
      unfold deRegisterApplication
      rw [ha]
      simp only [Option.elim_some, heap_remove, State.create]
    have hlog : (deRegisterApplication s k).log = s.log ∨
        (deRegisterApplication s k).log = s.log ++ [Entry.deregistered a.id] := by
      unfold deRegisterApplication
      rw [ha]
      simp only [Option.elim_some, State.remove]
      split_ifs
      · exact .inr rfl
      · exact .inl rfl
    have hsub : (deRegisterApplication s k).records ⊆ s.records := by
      rw [hrecords]
      exact List.eraseP_subset
    refine ⟨h.placed.of_sublist (extends_deRegisterApplication s k) ?_ hsub,
      h.filled.of_forget hsub (fun j hj => ?_) fun app => ?_⟩
    · rw [hawaited, hrecords]
      exact ((List.eraseP_sublist).append_right _).subperm
    · obtain ⟨b, hb⟩ := Option.isSome_iff_exists.mp (hvalid j (hsub hj))
      have hcreate := app_create hb a
      unfold State.app at hcreate hb ⊢
      rw [hheap, hb]
      exact hcreate
    · rcases hlog with hlog | hlog
      · rw [hlog]
        exact .inr rfl
      · rw [hlog]
        exact counted_forget s.log app a.id

/-- The filter of one node is changed, and an entry is logged. -/
theorem Delivering.of_modify (h : Delivering sha1 s) {k : ℕ} {f : App → App} {e : Entry}
    (hf : ∀ a, (f a).id = a.id)
    (hself : ∀ a, k ∈ s.records → s.app k = some a → (f a).bloomfilter.WF ∧
      CountingFilter.Covers ((f a).bloomfilter.indices sha1) (f a).bloomfilter.bins
        (count a.id (counted s.log a.id) e))
    (hother : ∀ j ∈ s.records, j ≠ k → ∀ b, s.app j = some b →
      CountingFilter.Covers (b.bloomfilter.indices sha1) b.bloomfilter.bins
        (count b.id (counted s.log b.id) e)) :
    Delivering sha1 { s.modifyApp k f with log := s.log ++ [e] } := by
  constructor
  · refine h.placed.of_sublist (.of_modify rfl hf) ?_ (List.Subset.refl _)
    exact List.Subperm.refl (s.records ++ s.awaited)
  · intro j hj b hb
    have hget : (s.modifyApp k f).app j = some b := hb
    rw [app_modifyApp] at hget
    simp only [counted_concat]
    by_cases hjk : k = j
    · subst hjk
      rw [if_pos rfl, Option.map_eq_some_iff] at hget
      obtain ⟨a, ha, rfl⟩ := hget
      rw [hf a]
      exact hself a hj ha
    · rw [if_neg hjk] at hget
      exact ⟨(h.filled j hj b hget).1, hother j hj (Ne.symm hjk) b hget⟩

theorem Delivering.resetFilter (h : Delivering env.sha1 s) {id : Digest} {k : ℕ}
    (hk : s.hasId id k = true) :
    Delivering env.sha1 (ApplicationManager.resetFilter env s id k) := by
  unfold ApplicationManager.resetFilter
  refine h.of_modify (fun _ => rfl) ?_ ?_
  · intro a hin ha
    have hid : a.id = id := by
      unfold State.hasId at hk
      rw [ha] at hk
      simpa using hk
    simp only [count, if_pos hid.symm]
    exact ⟨CountingBloomfilter.wf_new env.shape, CountingFilter.covers_nil _⟩
  · intro j hj hne b hb
    simp only [count]
    split_ifs
    · exact CountingFilter.covers_nil _
    · exact (h.filled j hj b hb).2

theorem Delivering.dropObject (h : Delivering env.sha1 s) {id o : Digest} {k : ℕ}
    (hk : s.hasId id k = true) (ho : o ∈ counted s.log id) :
    Delivering env.sha1 (ApplicationManager.dropObject env s id k o) := by
  unfold ApplicationManager.dropObject
  refine h.of_modify (fun _ => rfl) ?_ ?_
  · intro a hin ha
    have hid : a.id = id := by
      unfold State.hasId at hk
      rw [ha] at hk
      simpa using hk
    obtain ⟨hwf, hcovers⟩ := h.filled k hin a ha
    simp only [count, if_pos hid.symm]
    rw [← hid] at ho
    exact ⟨CountingBloomfilter.wf_remove hwf o, CountingFilter.covers_removeAll hcovers ho⟩
  · intro j hj hne b hb
    simp only [count]
    split_ifs
    · exact CountingFilter.covers_erase (h.filled j hj b hb).2 o
    · exact (h.filled j hj b hb).2

theorem Delivering.receive (h : Delivering env.sha1 s) {messages : List (Option Message)}
    (hok : ReceiveMeets env DeliveryControl s messages) :
    Delivering env.sha1 (onReceiveFromApplication env s messages) := by
  refine receive_invariant (fun s m appNode c s' hs hr hok hc => ?_) h hok
  cases onControl_delivery hc with
  | quiet hq => exact hs.quiet hq
  | asked =>
    refine hs.of_create rfl rfl rfl ?_
    unfold State.awaited
    rw [List.filterMap_append, List.append_assoc]
    exact List.perm_middle
  | deregistered k => exact hs.deRegister k
  | reset k hq => exact (hs.resetFilter (hr k rfl)).quiet hq
  | dropped k o => exact hs.dropObject (hr k rfl) (hok k rfl)

end Elements

section Events

theorem hasId_resultNode {k : ℕ} {a : App} (ha : s.app k = some a) :
    s.hasId a.id (resultNode s k) = true := by
  have hself : s.hasId a.id k = true := by
    unfold State.hasId
    rw [ha]
    simp
  unfold resultNode
  split_ifs with hin
  · exact hself
  · rw [ha, Option.bind_some]
    cases hfind : s.retrieve a.id with
    | none => exact hself
    | some j => exact List.find?_some hfind

theorem resultNode_eq (h : Placed s) {k j : ℕ} {a : App} (ha : s.app k = some a)
    (hj : j ∈ s.records) (hid : s.hasId a.id j = true) : resultNode s k = j := by
  have hres := hasId_resultNode ha
  refine h.distinct _ ?_ j hj a.id hres hid
  unfold resultNode
  split_ifs with hin
  · exact hin
  · rw [ha, Option.bind_some]
    cases hfind : s.retrieve a.id with
    | none => exact absurd hid (List.find?_eq_none.mp hfind j hj)
    | some i => exact List.mem_of_find?_eq_some hfind

theorem Delivering.sendResult (h : Delivering env.sha1 s) {k : ℕ} {object : Digest} {success : Bool}
    (hok : DeliveryAct env s (.sendResult k object success)) :
    Delivering env.sha1 (onSendResult env s k object success) := by
  cases ha : s.app k with
  | none =>
    have heq : onSendResult env s k object success = s := by
      unfold onSendResult
      rw [ha, Option.elim_none]
    rw [heq]
    exact h
  | some a =>
    cases success with
    | false =>
      have hq : Quiet s (onSendResult env s k object false) := by
        unfold onSendResult
        rw [ha]
        simp only [Option.elim_some, Bool.false_eq_true, if_false]
        split_ifs
        all_goals
          refine .of_heap rfl rfl rfl fun app => ?_
          simp [signalIsReadyForShutdown, counted_concat, count]
      exact h.quiet hq
    | true =>
      have hadd : Delivering env.sha1 { s.modifyApp (resultNode s k)
          (·.addToBloomfilter env.sha1 object) with
            log := s.log ++ [Entry.result a.id object true] } := by
        refine h.of_modify (fun _ => rfl) ?_ ?_
        · intro b hin hb
          have hid : a.id = b.id := by
            have hres := hasId_resultNode ha
            unfold State.hasId at hres
            rw [hb] at hres
            simpa using Eq.symm (by simpa using hres)
          obtain ⟨hwf, hcovers⟩ := h.filled _ hin b hb
          simp only [count, hid, true_and, if_true]
          exact ⟨CountingBloomfilter.wf_add hwf object,
            CountingFilter.covers_addAll hcovers object (hok b hb)⟩
        · intro j hj hne b hb
          have hid : a.id ≠ b.id := by
            intro hid
            refine hne (resultNode_eq h.placed ha hj ?_).symm
            unfold State.hasId
            rw [hb, hid]
            simp
          simp only [count, hid, false_and, if_false]
          exact (h.filled j hj b hb).2
      have hq : Quiet { s.modifyApp (resultNode s k)
          (·.addToBloomfilter env.sha1 object) with
            log := s.log ++ [Entry.result a.id object true] }
          (onSendResult env s k object true) := by
        unfold onSendResult
        rw [ha]
        simp only [Option.elim_some, if_true]
        split_ifs
        all_goals exact .of_heap rfl rfl rfl fun app => rfl
      exact hadd.quiet hq

theorem Delivering.dataStore {sha1 : Bytes → Digest} (h : Delivering sha1 s) :
    Delivering sha1 (runDataStore s) := by
  unfold runDataStore
  cases htasks : s.tasks with
  | nil =>
    simp only
    split_ifs
    · exact h
    · refine h.quiet (.of_heap rfl ?_ rfl fun _ => rfl)
      simp [State.awaited, htasks, Callback.brings]
  | cons t l =>
    have hawaited : s.awaited = (t :: l).filterMap Task.asks ++
        s.callbacks.filterMap Callback.brings := by
      unfold State.awaited
      rw [htasks]
    -- Without its first task the data store is asked for fewer nodes.
    have hless : Delivering sha1 { s with tasks := l } := by
      refine h.of_fewer rfl rfl rfl ?_
      rw [hawaited]
      exact (((List.sublist_cons_self t l).filterMap _).append_right _).subperm
    simp only
    cases t with
    | insertNode k =>
      rw [runTask]
      cases State.app { s with tasks := l } k with
      | none => exact hless
      | some a => exact hless.quiet (.of_heap rfl rfl rfl fun _ => rfl)
    | retrieveNode k =>
      rw [runTask]
      cases (State.app { s with tasks := l } k).bind fun a => s.kept.find? (·.id = a.id) with
      | none =>
        refine h.of_fewer rfl rfl rfl (List.Perm.subperm ?_)
        rw [hawaited]
        unfold State.awaited
        rw [List.filterMap_append, ← List.append_assoc]
        exact List.perm_append_singleton k _
      | some b =>
        refine hless.of_create rfl rfl rfl ?_
        unfold State.awaited
        rw [List.filterMap_append, ← List.append_assoc]
        exact List.perm_append_singleton _ _
    | deleteFilter event => exact hless
    | retrieveLast =>
      refine hless.quiet (.of_heap rfl ?_ rfl fun _ => rfl)
      simp [runTask, State.awaited, Callback.brings]

/-- A node with an empty filter is registered. -/
theorem Delivering.add {sha1 : Bytes → Digest} {shape : FilterShape} (h : Delivering sha1 s) {k : ℕ}
    {a : App} (hk : k ∉ s.records ++ s.awaited) (ha : s.app k = some a)
    (hnew : a.bloomfilter = .new shape) (isOther : Bool) : Delivering sha1 (s.add isOther k) := by
  unfold State.add
  rw [ha, Option.elim_some]
  split_ifs with hskip
  · exact h
  rw [Bool.or_eq_true, not_or] at hskip
  have hnone : ∀ j ∈ s.records, ¬ s.hasId a.id j = true :=
    fun j hj hid => hskip.2 (List.any_eq_true.mpr ⟨j, hj, hid⟩)
  have hself : ∀ id, s.hasId id k = true → id = a.id := by
    intro id hid
    unfold State.hasId at hid
    rw [ha] at hid
    exact (by simpa using hid : a.id = id).symm
  refine ⟨⟨?_, fun j hj => ?_, ?_⟩, ?_⟩
  · change ((s.records ++ [k]) ++ s.awaited).Nodup
    rw [List.append_assoc]
    exact List.nodup_middle.mpr (List.nodup_cons.mpr ⟨hk, h.placed.nodup⟩)
  · have hj : j ∈ (s.records ++ [k]) ++ s.awaited := hj
    rw [List.append_assoc] at hj
    rcases List.mem_cons.mp (List.perm_middle.mem_iff.mp hj) with rfl | hj
    · exact Option.isSome_iff_exists.mpr ⟨a, ha⟩
    · exact h.placed.valid j hj
  · intro i hi j hj id hidi hidj
    rcases List.mem_append.mp hi with hi' | hi' <;> rcases List.mem_append.mp hj with hj' | hj'
    · exact h.placed.distinct i hi' j hj' id hidi hidj
    · rw [List.mem_singleton.mp hj'] at hidj
      rw [hself id hidj] at hidi
      exact absurd hidi (hnone i hi')
    · rw [List.mem_singleton.mp hi'] at hidi
      rw [hself id hidi] at hidj
      exact absurd hidj (hnone j hj')
    · exact (List.mem_singleton.mp hi').trans (List.mem_singleton.mp hj').symm
  · intro j hj b hb
    simp only [counted_concat, count]
    rcases List.mem_append.mp hj with hj | hj
    · obtain ⟨hwf, hcovers⟩ := h.filled j hj b hb
      split_ifs
      · exact ⟨hwf, CountingFilter.covers_nil _⟩
      · exact ⟨hwf, hcovers⟩
    · obtain rfl := List.mem_singleton.mp hj
      obtain rfl : a = b := Option.some.inj (ha.symm.trans hb)
      rw [if_pos rfl, hnew]
      exact ⟨CountingBloomfilter.wf_new shape, CountingFilter.covers_nil _⟩

theorem Delivering.retrieved (h : Delivering env.sha1 s) {k : ℕ}
    (hk : k ∉ s.records ++ s.awaited) (isOther : Bool) :
    Delivering env.sha1 (onRetrieveNode env s isOther k) := by
  unfold onRetrieveNode
  cases ha : s.app k with
  | none => exact h
  | some a =>
    have hne : ∀ j ∈ s.records, k ≠ j := by
      rintro j hj rfl
      exact hk (List.mem_append_left _ hj)
    let r := s.modifyApp k fun a => { a with bloomfilter := .new env.shape }
    have hr : Delivering env.sha1 r := by
      refine ⟨h.placed.of_sublist (.of_modify rfl fun _ => rfl) (List.Subperm.refl _)
        (List.Subset.refl _), h.filled.of_forget (List.Subset.refl _) (fun j hj => ?_)
          fun _ => .inr rfl⟩
      rw [app_modifyApp, if_neg (hne j hj)]
    have hget : r.app k = some { a with bloomfilter := .new env.shape } := by
      rw [app_modifyApp, if_pos rfl, ha]
      rfl
    have hadd := hr.add hk hget rfl isOther
    have hupdate := hadd.quiet (quiet_updateApplicationInterests _ k)
    let u := updateApplicationInterests (r.add isOther k) k
    have hcounted : Quiet u { u with numClients := ulongSucc u.numClients } :=
      .of_heap rfl rfl rfl fun _ => rfl
    exact (hupdate.quiet hcounted).quiet (quiet_reply _ a.id)

theorem Delivering.callback (h : Delivering env.sha1 s) (position : ℕ) (isOther : Bool) :
    Delivering env.sha1 (step env s (.callback position isOther)) := by
  cases hget : s.callbacks[position]? with
  | none =>
    rw [step_callback_none hget]
    exact h
  | some c =>
    obtain ⟨hlt, rfl⟩ := List.getElem?_eq_some_iff.mp hget
    have hperm := ((List.getElem_cons_eraseIdx_perm hlt).filterMap Callback.brings).append_left
      (s.tasks.filterMap Task.asks)
    let r : State := { s with callbacks := s.callbacks.eraseIdx position }
    have hr : Delivering env.sha1 r := by
      refine h.of_fewer rfl rfl rfl ?_
      exact (((List.eraseIdx_sublist s.callbacks position).filterMap _).append_left _).subperm
    rw [step_callback_some hget]
    cases hc : s.callbacks[position] with
    | node k =>
      refine hr.retrieved (fun hin => ?_) isOther
      have hbrings : Callback.brings (.node k) = some k := rfl
      rw [hc, List.filterMap_cons_some hbrings] at hperm
      have hall := (hperm.symm.trans List.perm_middle).append_left s.records
      have hnodup := hall.nodup_iff.mp h.placed.nodup
      exact (List.nodup_cons.mp (List.perm_middle.nodup_iff.mp hnodup)).1 hin
    | appNodes nodes => exact hr.quiet (.of_heap rfl rfl rfl fun _ => rfl)
    | finishedProcessing =>
      obtain ⟨readySignals, heq⟩ := onDataStoreFinishedProcessing_eq r
      refine hr.quiet ?_
      rw [onCallback, heq]
      exact .of_heap rfl rfl rfl fun _ => rfl

theorem Delivering.deRegisterAll {sha1 : Bytes → Digest} (h : Delivering sha1 s) (l : List ℕ) :
    Delivering sha1 (l.foldl deRegisterApplication s) := by
  induction l generalizing s with
  | nil => exact h
  | cons k l ih => exact ih (h.deRegister k)

theorem Delivering.prepareShutdown (h : Delivering env.sha1 s) :
    Delivering env.sha1 (onPrepareShutdown env s) := by
  have hin : Quiet s { s with inShutdown := true } := .of_heap rfl rfl rfl fun _ => rfl
  have hsent := (h.quiet hin).quiet (@quiet_sendToAllApplications env _ .shutdown)
  unfold onPrepareShutdown
  simp only
  split_ifs
  · exact hsent.quiet (.of_heap rfl rfl rfl fun _ => rfl)
  · exact hsent.quiet (.of_heap rfl rfl rfl fun _ => rfl)
  · refine (hsent.deRegisterAll _).quiet (.of_heap rfl ?_ rfl fun _ => rfl)
    simp [State.awaited, Task.asks]

end Events

section Matches

/-- What a match sends to one application. -/
def matched (env : Surroundings) (objects : List (Digest × Bool)) (a : App) : List Entry :=
  (objects.filter fun o => !(o.2 || a.bloomfilter.has env.sha1 o.1)).map fun o => .sent a.id o.1

theorem log_foldl_matchObject (a : App) (objects : List (Digest × Bool)) (s : State) :
    (objects.foldl (matchObject env a) s).log = s.log ++ matched env objects a := by
  induction objects generalizing s with
  | nil => exact (List.append_nil _).symm
  | cons o l ih =>
    rw [List.foldl_cons, ih]
    unfold matchObject matched
    by_cases ho : (o.2 || a.bloomfilter.has env.sha1 o.1) = true
    · rw [if_pos ho, List.filter_cons_of_neg (by simp [ho])]
    · rw [if_neg ho, List.filter_cons_of_pos (by simpa using ho)]
      simp [sendToApplication]

theorem log_onApplicationFilterMatchEvent (s : State) (event : ℕ)
    (objects : List (Digest × Bool)) : (onApplicationFilterMatchEvent env s event objects).log =
      s.log ++ (s.interested (.filter event)).flatMap (matched env objects) := by
  unfold onApplicationFilterMatchEvent
  generalize s.interested (.filter event) = l
  induction l generalizing s with
  | nil => exact (List.append_nil _).symm
  | cons a l ih =>
    rw [List.foldl_cons, ih, log_foldl_matchObject, List.flatMap_cons, List.append_assoc]

theorem mem_matched {objects : List (Digest × Bool)} {a : App} {e : Entry}
    (h : e ∈ matched env objects a) : ∃ o ∈ objects, o.2 = false ∧
      a.bloomfilter.has env.sha1 o.1 = false ∧ e = .sent a.id o.1 := by
  obtain ⟨o, ho, rfl⟩ := List.mem_map.mp h
  obtain ⟨hin, hnot⟩ := List.mem_filter.mp ho
  simp only [Bool.not_eq_true', Bool.or_eq_false_iff] at hnot
  exact ⟨o, hin, hnot.1, hnot.2, rfl⟩

theorem Placed.interested_pairwise (h : Placed s) (e : EventType) :
    (s.interested e).Pairwise fun a b => a.id ≠ b.id := by
  unfold State.interested
  apply List.Pairwise.filter
  have hdistinct : s.records.Pairwise fun j k => ∀ id,
      s.hasId id j = true → s.hasId id k = true → False := by
    have hnodup := (List.nodup_append.mp h.nodup).1
    refine List.Pairwise.imp_of_mem ?_ hnodup
    intro j k hj hk hne id hidj hidk
    exact hne (h.distinct j hj k hk id hidj hidk)
  refine hdistinct.filterMap s.app fun j k hjk a ha b hb hid => hjk a.id ?_ ?_
  · unfold State.hasId
    rw [ha]
    simp
  · unfold State.hasId
    rw [hb, hid]
    simp

theorem nodup_matched {objects : List (Digest × Bool)} (hobjects : (objects.map Prod.fst).Nodup)
    {l : List App} (hl : l.Pairwise fun a b => a.id ≠ b.id) :
    (l.flatMap (matched env objects)).Nodup := by
  refine List.nodup_flatMap.mpr ⟨fun a _ => ?_, hl.imp fun hne => ?_⟩
  · have hfst := hobjects.sublist ((List.filter_sublist (l := objects)
      (p := fun o => !(o.2 || a.bloomfilter.has env.sha1 o.1))).map Prod.fst)
    have hsent := hfst.map (f := Entry.sent a.id) fun x y hxy => by
      cases hxy
      rfl
    rw [List.map_map] at hsent
    exact hsent
  · intro e hea heb
    obtain ⟨o, -, -, -, rfl⟩ := mem_matched hea
    obtain ⟨o', -, -, -, heq⟩ := mem_matched heb
    exact hne (Entry.sent.inj heq).1

theorem has_of_counted {sha1 : Bytes → Digest} (h : Filled sha1 s) {k : ℕ} (hk : k ∈ s.records)
    {a : App} (ha : s.app k = some a) {object : Digest} (ho : object ∈ counted s.log a.id) :
    a.bloomfilter.has sha1 object = true := by
  obtain ⟨hwf, hcovers⟩ := h k hk a ha
  exact CountingFilter.hasAll_of_mem hcovers ho fun j hj => hwf.index_lt hj

theorem Delivering.deliversOnce (h : Delivering env.sha1 s) {event : ℕ}
    {objects : List (Digest × Bool)} (hok : DeliveryAct env s (.filterMatch event objects)) :
    DeliversOnce env s (.filterMatch event objects) := by
  intro l₁ l₂ app object hlog
  rw [log_onApplicationFilterMatchEvent, List.append_cancel_left_eq] at hlog
  obtain ⟨hobjects, hpending⟩ := hok
  have hnodup := @nodup_matched env objects hobjects _
    (h.placed.interested_pairwise (.filter event))
  have hsent : ∀ e ∈ l₁ ++ .sent app object :: l₂, ∃ a ∈ s.interested (.filter event),
      ∃ o ∈ objects, o.2 = false ∧ a.bloomfilter.has env.sha1 o.1 = false ∧ e = .sent a.id o.1 := by
    intro e he
    rw [← hlog] at he
    obtain ⟨a, ha, hea⟩ := List.mem_flatMap.mp he
    exact ⟨a, ha, mem_matched hea⟩
  rw [hlog] at hnodup
  have hbefore : delivered (s.log ++ l₁) app object = delivered s.log app object := by
    apply delivered_append_sent
    · intro e he
      obtain ⟨a, -, o, -, -, -, rfl⟩ := hsent e (List.mem_append_left _ he)
      exact ⟨_, _, rfl⟩
    · intro hin
      exact (List.nodup_append.mp hnodup).2.2 _ hin _ List.mem_cons_self rfl
  -- An object that was delivered is on the way or in the filter, and is not sent.
  obtain ⟨a, ha, o, ho, hfalse, hhas, heq⟩ :=
    hsent _ (List.mem_append_right l₁ List.mem_cons_self)
  cases heq
  rw [hbefore, ← Bool.not_eq_true]
  intro hdelivered
  rcases unanswered_or_counted hdelivered with hin | hin
  · exact absurd (hpending a ha o ho hfalse hin) (by simp [hhas])
  · obtain ⟨k, hk, hget⟩ := List.mem_filterMap.mp (List.mem_filter.mp ha).1
    exact absurd (has_of_counted h.filled hk hget hin) (by simp [hhas])

theorem quiet_onApplicationFilterMatchEvent (s : State) (event : ℕ)
    (objects : List (Digest × Bool)) :
    Quiet s (onApplicationFilterMatchEvent env s event objects) := by
  refine quiet_foldl (fun s a => quiet_foldl (fun s o => ?_) objects s) _ s
  unfold matchObject
  split_ifs
  · exact .refl s
  · refine .of_heap rfl rfl rfl fun app => ?_
    exact counted_append_sent (fun e he => ⟨_, _, List.mem_singleton.mp he⟩) s.log app

end Matches

section Runs

theorem Delivering.step (h : Delivering env.sha1 s) {act : Act} (hok : DeliveryAct env s act) :
    Delivering env.sha1 (step env s act) := by
  cases act with
  | receive messages => exact h.receive hok
  | dataStore => exact h.dataStore
  | callback position isOther => exact h.callback position isOther
  | neighborStatus lastInterface => exact h.quiet (quiet_onNeighborStatusChange s lastInterface)
  | filterMatch event objects => exact h.quiet (quiet_onApplicationFilterMatchEvent s event objects)
  | sendResult k object success => exact h.sendResult hok
  | prepareShutdown => exact h.prepareShutdown

theorem Delivering.once (h : Delivering env.sha1 s) {act : Act} (hok : DeliveryAct env s act) :
    DeliversOnce env s act := by
  cases act with
  | filterMatch event objects => exact h.deliversOnce hok
  | _ => trivial

end Runs

end ApplicationManager

namespace Sample

open ApplicationManager

end Sample
end Haggle
