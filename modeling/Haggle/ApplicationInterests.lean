import Haggle.ApplicationClients

/-!
# The interests that this node advertises

An interest that an application registers goes to this node at once. When one is removed, the
attributes of this node are computed anew, from the list of applications that the data store keeps;
an application that is only registered is not in this list, and the list can be older than the
changes that are on their way to the data store.
-/

namespace Haggle

namespace Attributes

/-- What additions and removals can build. -/
structure Proper (m : Attributes) : Prop where
  wf : m.WF
  distinct : Distinct m.toList

def held (m : Attributes) : List Attribute := m.toList.map Prod.snd

variable {m : Attributes}

theorem proper_empty : Proper HashMap.empty := by
  have hnil : (HashMap.empty : Attributes).toList = [] := HashMap.toList_ofTableSize 7
  exact ⟨HashMap.wf_empty, by simp [hnil], by simp [hnil]⟩

theorem find_eq_none (h : m.Proper) (a : Attribute) :
    m.find a = none ↔ ∀ x ∈ m.held, a.eq x = false := by
  rw [find_eq_none_iff h.wf h.distinct, held, List.forall_mem_map]

theorem mem_held_add (h : m.Proper) (a x : Attribute) :
    x ∈ (m.add a).held ↔ x = a ∨ x ∈ m.held := by
  have hperm := (HashMap.toList_insert_perm h.wf (a.name, a)).map Prod.snd
  exact hperm.mem_iff.trans List.mem_cons

theorem Proper.add (h : m.Proper) {a : Attribute} (ha : m.find a = none) : (m.add a).Proper :=
  ⟨HashMap.wf_insert h.wf _, distinct_add h.wf h.distinct ha⟩

theorem eq_self (a : Attribute) : a.eq a = true := by simp [Attribute.eq]

/-- A removal takes out one attribute that matches, and no other one matches that. -/
theorem erase_cases (h : m.Proper) (a : Attribute) :
    ((∀ x ∈ m.held, a.eq x = false) ∧ erase m a = (m, 0)) ∨
      ∃ y, a.eq y = true ∧ m.held.Perm (y :: (erase m a).1.held) ∧ (erase m a).2 = 1 ∧
        (∀ x ∈ (erase m a).1.held, y.eq x = false) ∧ (erase m a).1.Proper := by
  cases hfind : m.find a with
  | none =>
    refine .inl ⟨(find_eq_none h a).mp hfind, ?_⟩
    unfold erase
    rw [hfind]
  | some b =>
    right
    have herase : erase m a = (m.eraseFirst a.name (a.eq ·), 1) := by
      unfold erase
      rw [hfind]
    obtain ⟨e, he, hq⟩ : ∃ e ∈ m.toList, a.eq e.2 = true := by
      by_contra hnone
      push Not at hnone
      have hnot := (find_eq_none_iff h.wf h.distinct a).mpr fun e he => by
        simpa using hnone e he
      rw [hnot] at hfind
      cases hfind
    have hname : e.1 = a.name := by
      rw [h.distinct.1 e he]
      simp only [Attribute.eq, Bool.and_eq_true, decide_eq_true_eq] at hq
      exact hq.1.symm
    obtain ⟨x, hx, hperm⟩ := HashMap.toList_eraseFirst_perm h.wf (q := (a.eq ·)) he hname hq
    have hdistinct := h.distinct.perm hperm
    rw [herase]
    refine ⟨x.2, hx, hperm.map Prod.snd, rfl, fun z hz => ?_, HashMap.wf_eraseFirst h.wf _ _,
      hdistinct.sublist (List.sublist_cons_self _ _)⟩
    obtain ⟨f, hf, rfl⟩ := List.mem_map.mp hz
    exact (List.pairwise_cons.mp hdistinct.2).1 f hf

theorem Proper.erase (h : m.Proper) (a : Attribute) : (Attributes.erase m a).1.Proper := by
  rcases erase_cases h a with ⟨-, heq⟩ | ⟨y, -, -, -, -, hproper⟩
  · rw [heq]
    exact h
  · exact hproper

/-- The attributes are removed one by one. -/
theorem held_foldl_erase (h : m.Proper) {l : List (Bytes × Attribute)}
    (hl : ∀ x ∈ m.held, x ∈ l.map Prod.snd) :
    (l.foldl (fun m e => (Attributes.erase m e.2).1) m).Proper ∧
      (l.foldl (fun m e => (Attributes.erase m e.2).1) m).held = [] := by
  induction l generalizing m with
  | nil => exact ⟨h, List.eq_nil_iff_forall_not_mem.mpr fun x hx => by simpa using hl x hx⟩
  | cons e l ih =>
    refine ih (h.erase e.2) fun x (hx : x ∈ (Attributes.erase m e.2).1.held) => ?_
    rcases erase_cases h e.2 with ⟨hnone, heq⟩ | ⟨y, hy, hperm, -, hrest, -⟩
    · rw [heq] at hx
      rcases List.mem_cons.mp (hl x hx) with rfl | hin
      · exact absurd (eq_self e.2) (by simp [hnone e.2 hx])
      · exact hin
    · have hin : x ∈ m.held := hperm.mem_iff.mpr (List.mem_cons_of_mem y hx)
      rcases List.mem_cons.mp (hl x hin) with rfl | hin
      · rw [Attribute.eq_symm] at hy
        exact absurd hy (by simp [hrest e.2 hx])
      · exact hin

end Attributes

namespace ApplicationManager

open Attributes

variable {env : Surroundings} {s s' : State}

section Put

variable {m : Attributes}

theorem putAttribute_cases (h : m.Proper) (a : Attribute) :
    ((∃ y ∈ m.held, a.eq y = true) ∧ putAttribute m a = (m, false)) ∨
      ((∀ y ∈ m.held, a.eq y = false) ∧ putAttribute m a = (m.add a, true)) := by
  unfold putAttribute
  cases hfind : m.find a with
  | none => exact .inr ⟨(find_eq_none h a).mp hfind, by simp⟩
  | some b =>
    refine .inl ⟨?_, by simp⟩
    by_contra hnone
    push Not at hnone
    have hnot := (find_eq_none h a).mpr fun y hy => by simpa using hnone y hy
    rw [hnot] at hfind
    cases hfind

theorem proper_putAttribute (h : m.Proper) (a : Attribute) : (putAttribute m a).1.Proper := by
  rcases putAttribute_cases h a with ⟨-, heq⟩ | ⟨hnone, heq⟩
  · rw [heq]
    exact h
  · rw [heq]
    exact h.add ((find_eq_none h a).mpr hnone)

/-- If all that matches is the attribute itself, it is there afterwards. -/
theorem mem_putAttribute (h : m.Proper) {a : Attribute}
    (hsame : ∀ y ∈ m.held, a.eq y = true → y = a) (x : Attribute) :
    x ∈ (putAttribute m a).1.held ↔ x = a ∨ x ∈ m.held := by
  rcases putAttribute_cases h a with ⟨⟨y, hy, hmatch⟩, heq⟩ | ⟨-, heq⟩
  · have hin : a ∈ m.held := hsame y hy hmatch ▸ hy
    rw [heq]
    constructor
    · exact .inr
    · rintro (rfl | hx)
      · exact hin
      · exact hx
  · rw [heq]
    exact mem_held_add h a x

/-- Attributes that match each other only if they are the same. -/
def Agree (P : Attribute → Prop) : Prop := ∀ x y, P x → P y → x.eq y = true → x = y

theorem held_addAll (h : m.Proper) {attrs : Attributes} {P : Attribute → Prop} (hP : Agree P)
    (hm : ∀ x ∈ m.held, P x) (hattrs : ∀ x ∈ attrs.held, P x) :
    (addAll m attrs).Proper ∧ ∀ x, x ∈ (addAll m attrs).held ↔ x ∈ m.held ∨ x ∈ attrs.held := by
  unfold addAll held at *
  generalize attrs.toList = l at *
  induction l generalizing m with
  | nil => exact ⟨h, fun x => by simp⟩
  | cons e l ih =>
    have he : P e.2 := hattrs e.2 (by simp)
    have hmem := mem_putAttribute h (a := e.2) fun y hy hmatch =>
      (hP e.2 y he (hm y hy) hmatch).symm
    obtain ⟨hproper, hheld⟩ := ih (m := (putAttribute m e.2).1) (proper_putAttribute h e.2)
      (fun x hx => ((hmem x).mp hx).elim (fun hx => hx ▸ he) (hm x))
      fun x hx => hattrs x (List.mem_cons_of_mem _ hx)
    refine ⟨hproper, fun x => ?_⟩
    rw [List.foldl_cons, hheld x]
    have hx := hmem x
    unfold held at hx
    rw [hx, List.map_cons, List.mem_cons]
    tauto

end Put

section Advertising

def Task.inserts : Task → Option ℕ
  | .insertNode k => some k
  | _ => none

def State.interestsOf (s : State) (k : ℕ) : Option (Digest × Attributes) :=
  (s.app k).map fun a => (a.id, a.attrs)

/-- The interests of the applications in the node store. -/
def State.registered (s : State) : List (Digest × Attributes) := s.records.filterMap s.interestsOf

def keepInterests (l : List (Digest × Attributes)) (p : Digest × Attributes) :
    List (Digest × Attributes) :=
  l.filter (fun q => q.1 ≠ p.1) ++ [p]

/-- The interests that the data store keeps once the tasks that it has are done. -/
def State.settled (s : State) : List (Digest × Attributes) :=
  (s.tasks.filterMap Task.inserts).foldl
    (fun l k => (s.interestsOf k).elim l (keepInterests l)) (s.kept.map fun a => (a.id, a.attrs))

/-- An interest of an application that is registered or kept. -/
def Advertised (s : State) (x : Attribute) : Prop :=
  (∃ p ∈ s.registered, x ∈ p.2.held) ∨ ∃ p ∈ s.settled, x ∈ p.2.held

/-- The attributes of this node are going to be computed anew. -/
def State.stale (s : State) : Prop := 0 < s.queries ∨ ∃ nodes, .appNodes nodes ∈ s.callbacks

def Interest.attribute (i : Interest) (name : Bytes) : Attribute :=
  ⟨name, i.value, (i.weight.map strtoul).getD 1⟩

/-- What this node has and matches an interest is the interest itself. -/
def InterestAgrees (r : State × Bool) (i : Interest) : Prop :=
  ∀ name, i.name = some name → ∀ y ∈ r.1.thisAttrs.held,
    (i.attribute name).eq y = true → y = i.attribute name

/-- An application that changes its interests or deregisters is registered. -/
def InterestControl (s : State) (_ : Message) (appNode : Option ℕ) : Control → Prop
  | .deregistrationNotice => ∀ k, appNode = some k → k ∈ s.records
  | .registerInterest interests => ∀ k, appNode = some k → s.inShutdown = false → k ∈ s.records ∧
      (¬ s.stale → Trace.Guarded (addInterest k) InterestAgrees (s, false) interests)
  | .removeInterest _ => ∀ k, appNode = some k → s.inShutdown = false → k ∈ s.records
  | _ => True

/-- The list that the data store has returned has every application that is registered, and the
others as the data store keeps them; attributes that match are the same. -/
structure UpToDate (s : State) (nodes : List App) : Prop where
  registered : ∀ p ∈ s.registered, ∃ n ∈ nodes, n.id = p.1
  kept : ∀ p ∈ s.settled, (∀ q ∈ s.registered, q.1 ≠ p.1) →
    ∃ n ∈ nodes, n.id = p.1 ∧ p.2.held ⊆ n.attrs.held
  listed : ∀ n ∈ nodes, (∀ q ∈ s.registered, q.1 ≠ n.id) →
    ∃ p ∈ s.settled, p.1 = n.id ∧ n.attrs.held ⊆ p.2.held
  agree : Agree (Advertised s)

/-- A node that is registered has the interests that the data store keeps for it. -/
structure AsKept (s : State) (p : Digest × Attributes) : Prop where
  all : ∀ q ∈ s.settled, q.1 = p.1 → q.2.held ⊆ p.2.held
  only : ∀ x ∈ p.2.held, ∃ q ∈ s.settled, q.1 = p.1 ∧ x ∈ q.2.held

def InterestCallback (s : State) (isOther : Bool) : Callback → Prop
  | .node k => isOther = false → ∀ p, s.interestsOf k = some p →
      (∀ q ∈ s.registered, q.1 ≠ p.1) → AsKept s p
  | .appNodes nodes => ¬ s.stale → UpToDate s nodes
  | .finishedProcessing => True

def InterestAct (env : Surroundings) (s : State) : Act → Prop
  | .receive messages => ReceiveMeets env InterestControl s messages
  | .callback position isOther => ∀ c, s.callbacks[position]? = some c →
      InterestCallback { s with callbacks := s.callbacks.eraseIdx position } isOther c
  | _ => True

/-- What is kept of a registered application are interests that it still has, and this node has the
interests of all applications or is going to compute them. -/
structure Current (s : State) : Prop where
  validRecords : ∀ k ∈ s.records, (s.app k).isSome
  validInserts : ∀ k ∈ s.tasks.filterMap Task.inserts, (s.app k).isSome
  distinct : ∀ j ∈ s.records, ∀ k ∈ s.records, ∀ p q, s.interestsOf j = some p →
    s.interestsOf k = some q → p.1 = q.1 → j = k
  properThis : s.thisAttrs.Proper
  properApps : ∀ k a, s.app k = some a → a.attrs.Proper
  properKept : ∀ a ∈ s.kept, a.attrs.Proper
  within : ∀ p ∈ s.registered, ∀ q ∈ s.settled, q.1 = p.1 → q.2.held ⊆ p.2.held
  current : ¬ s.stale → ∀ x, x ∈ s.thisAttrs.held ↔ Advertised s x

end Advertising

section Frames

/-- A step that does not touch the interests. -/
structure SameInterests (s s' : State) : Prop where
  records : s'.records = s.records
  thisAttrs : s'.thisAttrs = s.thisAttrs
  kept : s'.kept = s.kept
  inserts : s'.tasks.filterMap Task.inserts = s.tasks.filterMap Task.inserts
  stale : s.stale → s'.stale
  apps : ∀ k, (s.app k).isSome → s'.interestsOf k = s.interestsOf k
  proper : (∀ k a, s.app k = some a → a.attrs.Proper) → (∀ a ∈ s.kept, a.attrs.Proper) →
    ∀ k a, s'.app k = some a → a.attrs.Proper

theorem SameInterests.refl (s : State) : SameInterests s s :=
  ⟨rfl, rfl, rfl, rfl, id, fun _ _ => rfl, fun h _ => h⟩

theorem isSome_interestsOf (s : State) (k : ℕ) : (s.interestsOf k).isSome = (s.app k).isSome := by
  unfold State.interestsOf
  rw [Option.isSome_map]

theorem SameInterests.isSome (h : SameInterests s s') {k : ℕ} (hk : (s.app k).isSome) :
    (s'.app k).isSome := by
  rw [← isSome_interestsOf, h.apps k hk, isSome_interestsOf]
  exact hk

theorem SameInterests.trans {s₁ s₂ s₃ : State} (h : SameInterests s₁ s₂)
    (h' : SameInterests s₂ s₃) : SameInterests s₁ s₃ := by
  refine ⟨h'.records.trans h.records, h'.thisAttrs.trans h.thisAttrs, h'.kept.trans h.kept,
    h'.inserts.trans h.inserts, h'.stale ∘ h.stale, fun k hk => ?_, fun happs hkept => ?_⟩
  · exact (h'.apps k (h.isSome hk)).trans (h.apps k hk)
  · refine h'.proper (h.proper happs hkept) ?_
    rw [h.kept]
    exact hkept

theorem registered_congr (hrecords : s'.records = s.records)
    (happs : ∀ k ∈ s.records, s'.interestsOf k = s.interestsOf k) :
    s'.registered = s.registered := by
  unfold State.registered
  rw [hrecords]
  exact List.filterMap_congr happs

theorem settled_congr (hkept : s'.kept = s.kept)
    (hinserts : s'.tasks.filterMap Task.inserts = s.tasks.filterMap Task.inserts)
    (happs : ∀ k ∈ s.tasks.filterMap Task.inserts, s'.interestsOf k = s.interestsOf k) :
    s'.settled = s.settled := by
  unfold State.settled
  rw [hkept, hinserts]
  generalize s.kept.map (fun a => (a.id, a.attrs)) = l
  generalize s.tasks.filterMap Task.inserts = ks at happs
  induction ks generalizing l with
  | nil => rfl
  | cons k ks ih =>
    rw [List.forall_mem_cons] at happs
    rw [List.foldl_cons, List.foldl_cons, happs.1]
    exact ih _ happs.2

theorem Current.same (h : Current s) (hs : SameInterests s s') : Current s' := by
  have hregistered := registered_congr hs.records fun k hk => hs.apps k (h.validRecords k hk)
  have hsettled := settled_congr hs.kept hs.inserts fun k hk => hs.apps k (h.validInserts k hk)
  refine ⟨fun k hk => ?_, fun k hk => ?_, ?_, ?_, hs.proper h.properApps h.properKept, ?_, ?_, ?_⟩
  · rw [hs.records] at hk
    exact hs.isSome (h.validRecords k hk)
  · rw [hs.inserts] at hk
    exact hs.isSome (h.validInserts k hk)
  · rw [hs.records]
    intro j hj k hk p q hp hq
    rw [hs.apps j (h.validRecords j hj)] at hp
    rw [hs.apps k (h.validRecords k hk)] at hq
    exact h.distinct j hj k hk p q hp hq
  · rw [hs.thisAttrs]
    exact h.properThis
  · rw [hs.kept]
    exact h.properKept
  · rw [hregistered, hsettled]
    exact h.within
  · intro hfresh x
    unfold Advertised
    rw [hs.thisAttrs, hregistered, hsettled]
    exact h.current (fun hstale => hfresh (hs.stale hstale)) x

theorem SameInterests.of_heap (hrecords : s'.records = s.records)
    (hthis : s'.thisAttrs = s.thisAttrs) (hkept : s'.kept = s.kept)
    (hinserts : s'.tasks.filterMap Task.inserts = s.tasks.filterMap Task.inserts)
    (hstale : s.stale → s'.stale) (hheap : s'.heap = s.heap) : SameInterests s s' := by
  have happ : ∀ k, s'.app k = s.app k := by
    intro k
    unfold State.app
    rw [hheap]
  refine ⟨hrecords, hthis, hkept, hinserts, hstale, fun k _ => ?_, fun happs _ k a ha => ?_⟩
  · unfold State.interestsOf
    rw [happ]
  · rw [happ] at ha
    exact happs k a ha

theorem SameInterests.of_modify {k : ℕ} {f : App → App} (hrecords : s'.records = s.records)
    (hthis : s'.thisAttrs = s.thisAttrs) (hkept : s'.kept = s.kept)
    (hinserts : s'.tasks.filterMap Task.inserts = s.tasks.filterMap Task.inserts)
    (hstale : s.stale → s'.stale) (hheap : s'.heap = s.heap.modify k f)
    (hf : ∀ a, (f a).id = a.id ∧ (f a).attrs = a.attrs) : SameInterests s s' := by
  have happ : ∀ j, s'.app j = if k = j then (s.app j).map f else s.app j := by
    intro j
    have hmodify := app_modifyApp s k j f
    unfold State.modifyApp at hmodify
    unfold State.app at hmodify ⊢
    rw [hheap]
    exact hmodify
  refine ⟨hrecords, hthis, hkept, hinserts, hstale, fun j _ => ?_, fun happs _ j a ha => ?_⟩
  · unfold State.interestsOf
    rw [happ]
    split_ifs
    · rw [Option.map_map]
      congr 1
      funext a
      exact Prod.ext (hf a).1 (hf a).2
    · rfl
  · rw [happ] at ha
    split_ifs at ha
    · obtain ⟨b, hb, rfl⟩ := Option.map_eq_some_iff.mp ha
      rw [(hf b).2]
      exact happs j b hb
    · exact happs j a ha

theorem SameInterests.of_create {b : App} (hrecords : s'.records = s.records)
    (hthis : s'.thisAttrs = s.thisAttrs) (hkept : s'.kept = s.kept)
    (hinserts : s'.tasks.filterMap Task.inserts = s.tasks.filterMap Task.inserts)
    (hstale : s.stale → s'.stale) (hheap : s'.heap = s.heap ++ [b])
    (hb : (∀ k a, s.app k = some a → a.attrs.Proper) → (∀ a ∈ s.kept, a.attrs.Proper) →
      b.attrs.Proper) : SameInterests s s' := by
  refine ⟨hrecords, hthis, hkept, hinserts, hstale, fun k hk => ?_, fun happs hkept' k a ha => ?_⟩
  · obtain ⟨a, ha⟩ := Option.isSome_iff_exists.mp hk
    have hcreate := app_create ha b
    unfold State.interestsOf
    rw [ha]
    unfold State.app State.create at hcreate
    unfold State.app
    rw [hheap, hcreate]
  · unfold State.app at ha
    rw [hheap, List.getElem?_append] at ha
    split_ifs at ha
    · exact happs k a ha
    · obtain ⟨hlt, rfl⟩ := List.getElem?_eq_some_iff.mp ha
      simpa using hb happs hkept'

theorem interests_addEventInterest (a : App) (e : EventType) :
    (a.addEventInterest e).id = a.id ∧ (a.addEventInterest e).attrs = a.attrs := by
  unfold App.addEventInterest
  split_ifs <;> exact ⟨rfl, rfl⟩

theorem interests_updateApplicationInterests (s : State) (k : ℕ) :
    SameInterests s (updateApplicationInterests s k) := by
  unfold updateApplicationInterests
  cases s.app k with
  | none => exact .refl s
  | some a =>
    exact .of_modify rfl rfl rfl rfl id rfl fun a => interests_addEventInterest _ _

theorem interests_reply (s : State) (app : Digest) : SameInterests s (reply env s app) :=
  .of_heap rfl rfl rfl rfl id rfl

theorem interests_sendToAllApplications (s : State) (e : EventType) :
    SameInterests s (sendToAllApplications env s e) := by
  rw [sendToAllApplications_eq]
  exact .of_heap rfl rfl rfl rfl id rfl

theorem interests_onNeighborStatusChange (s : State) (lastInterface : Bool) :
    SameInterests s (onNeighborStatusChange env s lastInterface) := by
  unfold onNeighborStatusChange
  split_ifs
  · exact .refl s
  · exact interests_sendToAllApplications s _

theorem interests_addApplicationEventInterest (k : ℕ) (s : State) (e : EventInterest) :
    SameInterests s (addApplicationEventInterest env k s e) := by
  cases e with
  | shutdown => exact .of_modify rfl rfl rfl rfl id rfl fun a => interests_addEventInterest a _
  | neighborUpdate =>
    have hmodify : SameInterests s (s.modifyApp k fun a =>
        (a.addEventInterest .contactNew).addEventInterest .contactEnd) := by
      refine .of_modify rfl rfl rfl rfl id rfl fun a => ?_
      obtain ⟨hid, hattrs⟩ :=
        interests_addEventInterest (a.addEventInterest .contactNew) .contactEnd
      exact ⟨hid.trans (interests_addEventInterest a _).1,
        hattrs.trans (interests_addEventInterest a _).2⟩
    exact hmodify.trans (interests_onNeighborStatusChange _ false)
  | other => exact .refl s

theorem interests_foldl {α : Type} {f : State → α → State} (hf : ∀ s x, SameInterests s (f s x))
    (l : List α) (s : State) : SameInterests s (l.foldl f s) := by
  induction l generalizing s with
  | nil => exact .refl s
  | cons x l ih => exact (hf s x).trans (ih _)

/-- What an element of a message can do to the interests. -/
inductive Change (s : State) : Option ℕ → Control → State → Prop
  | same {appNode : Option ℕ} {c : Control} {s' : State} (h : SameInterests s s') :
    Change s appNode c s'
  | deregistered (k : ℕ) : Change s (some k) .deregistrationNotice (deRegisterApplication s k)
  | added {s' : State} (k : ℕ) (interests : List Interest) (hout : s.inShutdown = false)
    (h : SameInterests (interests.foldl (addInterest k) (s, false)).1 s') :
    Change s (some k) (.registerInterest interests) s'
  | dropped {r : State} (k : ℕ) (interests : List Interest) (hout : s.inShutdown = false)
    (h : SameInterests (interests.foldl (dropInterest k) (s, false)).1 r) :
    Change s (some k) (.removeInterest interests)
      { r with tasks := r.tasks ++ [.insertNode k], queries := r.queries + 1 }
  | kept (k : ℕ) (interests : List Interest)
    (h : (interests.foldl (dropInterest k) (s, false)).2 = false) :
    Change s (some k) (.removeInterest interests) (interests.foldl (dropInterest k) (s, false)).1

theorem onControl_interests {m : Message} {appNode : Option ℕ} {c : Control}
    (h : onControl env m appNode s c = some s') : Change s appNode c s' := by
  cases c with
  | invalid => cases h
  | shutdown | sendNodeDescription =>
    obtain rfl := Option.some.inj h
    exact .same (.refl s)
  | registrationRequest =>
    obtain rfl := Option.some.inj h
    apply Change.same
    split_ifs
    · exact .refl s
    · cases appNode with
      | none =>
        refine .of_create rfl rfl rfl ?_ id rfl fun _ _ => proper_empty
        simp [Task.inserts]
      | some k => exact interests_reply s m.id
  | deregistrationNotice =>
    obtain rfl := Option.some.inj h
    cases appNode with
    | none => exact .same (.refl s)
    | some k => exact .deregistered k
  | registerInterest interests =>
    obtain rfl := Option.some.inj h
    cases appNode with
    | none =>
      apply Change.same
      simpa using SameInterests.refl s
    | some k =>
      simp only [Option.elim_some]
      split_ifs with hin
      · exact .same (.refl s)
      · exact .added k interests (Bool.eq_false_of_not_eq_true hin)
          (interests_updateApplicationInterests _ k)
      · exact .added k interests (Bool.eq_false_of_not_eq_true hin) (.refl _)
  | removeInterest interests =>
    obtain rfl := Option.some.inj h
    cases appNode with
    | none =>
      apply Change.same
      simpa using SameInterests.refl s
    | some k =>
      simp only [Option.elim_some]
      split_ifs with hin hremoved
      · exact .same (.refl s)
      · exact .dropped k interests (Bool.eq_false_of_not_eq_true hin)
          (interests_updateApplicationInterests _ k)
      · exact .kept k interests (Bool.eq_false_of_not_eq_true hremoved)
  | getInterests =>
    obtain rfl := Option.some.inj h
    apply Change.same
    cases appNode with
    | none => simpa using SameInterests.refl s
    | some k =>
      simp only [Option.elim_some]
      split_ifs
      · exact .refl s
      · exact interests_reply s m.id
  | registerEventInterest events =>
    obtain rfl := Option.some.inj h
    apply Change.same
    cases appNode with
    | none => simpa using SameInterests.refl s
    | some k =>
      simp only [Option.elim_some]
      split_ifs
      · exact .refl s
      · exact interests_foldl (interests_addApplicationEventInterest k) events s
  | getDataObjects =>
    obtain rfl := Option.some.inj h
    apply Change.same
    cases appNode with
    | none => simpa using SameInterests.refl s
    | some k =>
      simp only [Option.elim_some]
      split_ifs
      · exact .refl s
      · have hreset : SameInterests s { s.modifyApp k (fun a =>
            { a with bloomfilter := .new env.shape }) with log := s.log ++ [Entry.reset m.id] } :=
          .of_modify rfl rfl rfl rfl id rfl fun _ => ⟨rfl, rfl⟩
        exact hreset.trans (interests_updateApplicationInterests _ k)
  | deleteDataObject object keepInBloomfilter =>
    obtain rfl := Option.some.inj h
    apply Change.same
    split_ifs
    · exact .refl s
    · cases appNode with
      | none => exact .refl s
      | some k =>
        cases object with
        | none => exact .refl s
        | some o => exact .of_modify rfl rfl rfl rfl id rfl fun _ => ⟨rfl, rfl⟩

end Frames

section Changes

theorem interestsOf_modifyApp (s : State) (k j : ℕ) (f : App → App) :
    (s.modifyApp k f).interestsOf j =
      if k = j then (s.app j).map fun a => ((f a).id, (f a).attrs) else s.interestsOf j := by
  unfold State.interestsOf
  rw [app_modifyApp]
  split_ifs
  · rw [Option.map_map]
    rfl
  · rfl

theorem modifyApp_self {k : ℕ} {a : App} (ha : s.app k = some a) {f : App → App} (hf : f a = a) :
    s.modifyApp k f = s := by
  have hheap : s.heap.modify k f = s.heap := by
    apply List.ext_getElem?
    intro j
    have happ := app_modifyApp s k j f
    unfold State.app State.modifyApp at happ
    rw [happ]
    split_ifs with hj
    · subst hj
      unfold State.app at ha
      rw [ha, Option.map_some, hf]
    · rfl
  unfold State.modifyApp
  rw [hheap]

theorem modifyApp_modifyApp (s : State) (k : ℕ) (f g : App → App) :
    (s.modifyApp k f).modifyApp k g = s.modifyApp k (g ∘ f) := by
  unfold State.modifyApp
  simp only [List.modify_modify_eq]

/-- The interests of one application are replaced where they occur. -/
def Replaced (id : Digest) (old new : Attributes) (p p' : Digest × Attributes) : Prop :=
  p' = p ∨ p = (id, old) ∧ p' = (id, new)

theorem Replaced.id_eq {id : Digest} {old new : Attributes} {p p' : Digest × Attributes}
    (h : Replaced id old new p p') : p'.1 = p.1 := by
  rcases h with rfl | ⟨rfl, rfl⟩
  · rfl
  · rfl

structure Linked (R : Digest × Attributes → Digest × Attributes → Prop)
    (l l' : List (Digest × Attributes)) : Prop where
  left : ∀ p ∈ l, ∃ p' ∈ l', R p p'
  right : ∀ p' ∈ l', ∃ p ∈ l, R p p'

variable {id : Digest} {old new : Attributes}

theorem Linked.keepInterests {l l' : List (Digest × Attributes)} {p p' : Digest × Attributes}
    (h : Linked (Replaced id old new) l l') (hp : Replaced id old new p p') :
    Linked (Replaced id old new) (keepInterests l p) (keepInterests l' p') := by
  have hkeep : ∀ {q q'}, Replaced id old new q q' → (q.1 ≠ p.1 ↔ q'.1 ≠ p'.1) := by
    intro q q' hq
    rw [hq.id_eq, hp.id_eq]
  constructor
  · intro q hq
    rcases List.mem_append.mp hq with hq | hq
    · obtain ⟨hq, hne⟩ := List.mem_filter.mp hq
      obtain ⟨q', hq', hR⟩ := h.left q hq
      refine ⟨q', List.mem_append_left _ (List.mem_filter.mpr ⟨hq', ?_⟩), hR⟩
      exact decide_eq_true ((hkeep hR).mp (of_decide_eq_true hne))
    · rw [List.mem_singleton.mp hq]
      exact ⟨p', List.mem_append_right _ (List.mem_singleton.mpr rfl), hp⟩
  · intro q' hq'
    rcases List.mem_append.mp hq' with hq' | hq'
    · obtain ⟨hq', hne⟩ := List.mem_filter.mp hq'
      obtain ⟨q, hq, hR⟩ := h.right q' hq'
      refine ⟨q, List.mem_append_left _ (List.mem_filter.mpr ⟨hq, ?_⟩), hR⟩
      exact decide_eq_true ((hkeep hR).mpr (of_decide_eq_true hne))
    · rw [List.mem_singleton.mp hq']
      exact ⟨p, List.mem_append_right _ (List.mem_singleton.mpr rfl), hp⟩

theorem linked_foldl {look look' : ℕ → Option (Digest × Attributes)}
    (hlook : ∀ j, look' j = look j ∨ look j = some (id, old) ∧ look' j = some (id, new))
    (ks : List ℕ) {l l' : List (Digest × Attributes)} (h : Linked (Replaced id old new) l l') :
    Linked (Replaced id old new)
      (ks.foldl (fun l k => (look k).elim l (ApplicationManager.keepInterests l)) l)
      (ks.foldl (fun l k => (look' k).elim l (ApplicationManager.keepInterests l)) l') := by
  induction ks generalizing l l' with
  | nil => exact h
  | cons k ks ih =>
    simp only [List.foldl_cons]
    apply ih
    rcases hlook k with heq | ⟨hold, hnew⟩
    · rw [heq]
      cases look k with
      | none => exact h
      | some p => exact h.keepInterests (.inl rfl)
    · rw [hold, hnew]
      exact h.keepInterests (.inr ⟨rfl, rfl⟩)

/-- New interests of an application, as far as the data store has not yet read them. -/
theorem linked_settled {k : ℕ} {a : App} (ha : s.app k = some a) (attrs : Attributes) :
    Linked (Replaced a.id a.attrs attrs) s.settled
      (s.modifyApp k fun a => { a with attrs := attrs }).settled := by
  refine linked_foldl (fun j => ?_) _
    ⟨fun p hp => ⟨p, hp, .inl rfl⟩, fun p hp => ⟨p, hp, .inl rfl⟩⟩
  rw [interestsOf_modifyApp]
  split_ifs with hj
  · subst hj
    right
    unfold State.interestsOf
    rw [ha]
    exact ⟨rfl, rfl⟩
  · exact .inl rfl

theorem mem_registered {p : Digest × Attributes} :
    p ∈ s.registered ↔ ∃ k ∈ s.records, s.interestsOf k = some p := List.mem_filterMap

theorem mem_keepInterests {l : List (Digest × Attributes)} {p q : Digest × Attributes} :
    q ∈ keepInterests l p ↔ q ∈ l ∧ q.1 ≠ p.1 ∨ q = p := by
  simp [keepInterests]

/-- The registered applications after the interests of one are replaced. -/
theorem registered_modifyApp (h : Current s) {k : ℕ} {a : App} (hk : k ∈ s.records)
    (ha : s.app k = some a) (attrs : Attributes) (p : Digest × Attributes) :
    p ∈ (s.modifyApp k fun a => { a with attrs := attrs }).registered ↔
      p = (a.id, attrs) ∨ p ∈ s.registered ∧ p.1 ≠ a.id := by
  have hself : s.interestsOf k = some (a.id, a.attrs) := by
    unfold State.interestsOf
    rw [ha]
    rfl
  rw [mem_registered, mem_registered]
  constructor
  · rintro ⟨j, hj, hget⟩
    rw [interestsOf_modifyApp] at hget
    split_ifs at hget with hkj
    · subst hkj
      rw [ha] at hget
      exact .inl (Option.some.inj hget).symm
    · refine .inr ⟨⟨j, hj, hget⟩, fun hid => hkj ?_⟩
      exact h.distinct k hk j hj _ _ hself hget hid.symm
  · rintro (rfl | ⟨⟨j, hj, hget⟩, hne⟩)
    · refine ⟨k, hk, ?_⟩
      rw [interestsOf_modifyApp, if_pos rfl, ha]
      rfl
    · refine ⟨j, hj, ?_⟩
      rw [interestsOf_modifyApp, if_neg]
      · exact hget
      · rintro rfl
        rw [hself] at hget
        obtain rfl := Option.some.inj hget
        exact hne rfl

/-- What does not concern the interests is kept when those of one application are replaced. -/
theorem Current.modify_frame (h : Current s) {k : ℕ} {a : App} (ha : s.app k = some a)
    {attrs : Attributes} (hattrs : attrs.Proper) :
    let u := s.modifyApp k fun a => { a with attrs := attrs }
    (∀ j, (s.app j).isSome → (u.app j).isSome) ∧
      (∀ j p, u.interestsOf j = some p → ∃ q, s.interestsOf j = some q ∧ q.1 = p.1) ∧
      ∀ j b, u.app j = some b → b.attrs.Proper := by
  refine ⟨fun j hj => ?_, fun j p hp => ?_, fun j b hb => ?_⟩
  · rw [app_modifyApp]
    split_ifs
    · simpa using hj
    · exact hj
  · rw [interestsOf_modifyApp] at hp
    split_ifs at hp with hkj
    · subst hkj
      rw [ha] at hp
      refine ⟨(a.id, a.attrs), ?_, ?_⟩
      · unfold State.interestsOf
        rw [ha]
        rfl
      · obtain rfl := Option.some.inj hp
        rfl
    · exact ⟨p, hp, rfl⟩
  · rw [app_modifyApp] at hb
    split_ifs at hb
    · obtain ⟨c, hc, rfl⟩ := Option.map_eq_some_iff.mp hb
      exact hattrs
    · exact h.properApps j b hb

theorem held_putAttribute_subset {m : Attributes} (h : m.Proper) (a : Attribute) :
    m.held ⊆ (putAttribute m a).1.held := by
  intro x hx
  rcases putAttribute_cases h a with ⟨-, heq⟩ | ⟨-, heq⟩
  · rw [heq]
    exact hx
  · rw [heq]
    exact (mem_held_add h a x).mpr (.inr hx)

/-- One interest goes to this node and to a registered application. -/
theorem Current.put (h : Current s) {k : ℕ} {a : App} (hk : k ∈ s.records)
    (ha : s.app k = some a) (x₀ : Attribute)
    (hsame : ¬ s.stale → ∀ y ∈ s.thisAttrs.held, x₀.eq y = true → y = x₀) :
    Current { s.modifyApp k fun b => { b with attrs := (putAttribute a.attrs x₀).1 } with
      thisAttrs := (putAttribute s.thisAttrs x₀).1 } := by
  have hproper := h.properApps k a ha
  have hself : (a.id, a.attrs) ∈ s.registered := by
    refine mem_registered.mpr ⟨k, hk, ?_⟩
    unfold State.interestsOf
    rw [ha]
    rfl
  obtain ⟨hsome, hids, happs⟩ := h.modify_frame ha (proper_putAttribute hproper x₀)
  have hregistered := registered_modifyApp h hk ha (putAttribute a.attrs x₀).1
  have hlinked := linked_settled ha (putAttribute a.attrs x₀).1
  have hgrow := held_putAttribute_subset hproper x₀
  refine ⟨fun j hj => hsome j (h.validRecords j hj), fun j hj => hsome j (h.validInserts j hj),
    fun i hi j hj p q hp hq hid => ?_, proper_putAttribute h.properThis x₀, happs, h.properKept,
    fun p hp q hq hid => ?_, fun hfresh x => ?_⟩
  · obtain ⟨p', hp', hpid⟩ := hids i p hp
    obtain ⟨q', hq', hqid⟩ := hids j q hq
    exact h.distinct i hi j hj p' q' hp' hq' (hpid.trans (hid.trans hqid.symm))
  · obtain ⟨q', hq', hR⟩ := hlinked.right q hq
    rcases (hregistered p).mp hp with rfl | ⟨hp, hne⟩
    · rcases hR with rfl | ⟨-, rfl⟩
      · exact List.Subset.trans (h.within _ hself q hq' hid) hgrow
      · exact List.Subset.refl _
    · rcases hR with rfl | ⟨-, rfl⟩
      · exact h.within p hp q hq' hid
      · exact absurd hid.symm hne
  · have hcurrent := h.current hfresh
    have hthis := mem_putAttribute h.properThis (hsame hfresh)
    -- What matches in the application is advertised, hence the interest itself.
    have happ := mem_putAttribute hproper (a := x₀) fun y hy hmatch =>
      hsame hfresh y ((hcurrent y).mpr (.inl ⟨_, hself, hy⟩)) hmatch
    rw [hthis, hcurrent]
    constructor
    · rintro (rfl | ⟨p, hp, hx⟩ | ⟨q, hq, hx⟩)
      · exact .inl ⟨_, (hregistered _).mpr (.inl rfl), (happ x).mpr (.inl rfl)⟩
      · by_cases hid : p.1 = a.id
        · obtain ⟨j, hj, hget⟩ := mem_registered.mp hp
          obtain ⟨i, hi, hget'⟩ := mem_registered.mp hself
          obtain rfl := h.distinct j hj i hi p _ hget hget' hid
          rw [hget'] at hget
          obtain rfl := Option.some.inj hget
          exact .inl ⟨_, (hregistered _).mpr (.inl rfl), (happ x).mpr (.inr hx)⟩
        · exact .inl ⟨p, (hregistered p).mpr (.inr ⟨hp, hid⟩), hx⟩
      · obtain ⟨q', hq', hR⟩ := hlinked.left q hq
        refine .inr ⟨q', hq', ?_⟩
        rcases hR with rfl | ⟨rfl, rfl⟩
        · exact hx
        · exact hgrow hx
    · rintro (⟨p, hp, hx⟩ | ⟨q, hq, hx⟩)
      · rcases (hregistered p).mp hp with rfl | ⟨hp, -⟩
        · exact ((happ x).mp hx).imp id fun hx => .inl ⟨_, hself, hx⟩
        · exact .inr (.inl ⟨p, hp, hx⟩)
      · obtain ⟨q', hq', hR⟩ := hlinked.right q hq
        rcases hR with rfl | ⟨rfl, rfl⟩
        · exact .inr (.inr ⟨q, hq', hx⟩)
        · exact ((happ x).mp hx).imp id fun hx => .inl ⟨_, hself, hx⟩

theorem Current.addInterests (h : Current s) {k : ℕ} (hk : k ∈ s.records)
    {interests : List Interest} {b : Bool}
    (hok : ¬ s.stale → Trace.Guarded (addInterest k) InterestAgrees (s, b) interests) :
    Current (interests.foldl (addInterest k) (s, b)).1 := by
  induction interests generalizing s b with
  | nil => exact h
  | cons i l ih =>
    have hstep : Current (addInterest k (s, b) i).1 ∧
        (addInterest k (s, b) i).1.records = s.records ∧
        (¬ (addInterest k (s, b) i).1.stale → ¬ s.stale) := by
      unfold addInterest
      cases hname : i.name with
      | none => exact ⟨h, rfl, id⟩
      | some name =>
        cases ha : s.app k with
        | none => exact ⟨h, rfl, id⟩
        | some a =>
          refine ⟨h.put hk ha (i.attribute name) fun hfresh => ?_, rfl, id⟩
          exact (hok hfresh).1 name hname
    obtain ⟨hcurrent, hrecords, hfresh⟩ := hstep
    rw [← hrecords] at hk
    exact ih hcurrent hk fun hstale => (hok (hfresh hstale)).2

/-- Removals of interests leave an application with fewer of them, or change nothing. -/
theorem dropInterests_eq {k : ℕ} {a : App} (ha : s.app k = some a) (hproper : a.attrs.Proper)
    (interests : List Interest) (b : Bool) : ∃ attrs, attrs.Proper ∧
      (interests.foldl (dropInterest k) (s, b)).1 =
        s.modifyApp k (fun a => { a with attrs := attrs }) ∧
      ((interests.foldl (dropInterest k) (s, b)).2 = false → attrs = a.attrs) := by
  induction interests generalizing s a b with
  | nil => exact ⟨a.attrs, hproper, (modifyApp_self ha rfl).symm, fun _ => rfl⟩
  | cons i l ih =>
    rw [List.foldl_cons]
    cases hname : i.name with
    | none =>
      have hsame : dropInterest k (s, b) i = (s, b) := by
        unfold dropInterest
        rw [hname]
      rw [hsame]
      exact ih ha hproper b
    | some name =>
      let x : Attribute := ⟨name, if i.value = lit "*" then [] else i.value, 1⟩
      let erased := Attributes.erase a.attrs x
      have hdrop : dropInterest k (s, b) i =
          (s.modifyApp k fun a => { a with attrs := erased.1 }, b || decide (erased.2 ≠ 0)) := by
        unfold dropInterest
        rw [hname, ha]
      have hget : (s.modifyApp k fun a => { a with attrs := erased.1 }).app k =
          some { a with attrs := erased.1 } := by
        rw [app_modifyApp, if_pos rfl, ha]
        rfl
      obtain ⟨attrs, hattrs, heq, hnot⟩ := ih hget (hproper.erase x) (b || decide (erased.2 ≠ 0))
      rw [hdrop]
      refine ⟨attrs, hattrs, ?_, fun hfalse => ?_⟩
      · rw [heq, modifyApp_modifyApp]
        rfl
      · -- Once something was removed, the flag stays.
        have hflag : ∀ (l : List Interest) (r : State × Bool), r.2 = true →
            (l.foldl (dropInterest k) r).2 = true := by
          intro l
          induction l with
          | nil => exact fun r hr => hr
          | cons i l ih =>
            refine fun r hr => ih _ ?_
            unfold dropInterest
            split <;> simp [hr]
        have hzero : erased.2 = 0 := by
          by_contra hne
          have htrue := hflag l (s.modifyApp k fun a => { a with attrs := erased.1 },
            b || decide (erased.2 ≠ 0)) (by simp [hne])
          rw [htrue] at hfalse
          cases hfalse
        rw [hnot hfalse]
        rcases erase_cases hproper x with ⟨-, heq⟩ | ⟨-, -, -, hone, -, -⟩
        · exact congrArg Prod.fst heq
        · exact absurd (hone.symm.trans hzero) one_ne_zero

theorem settled_insert {k : ℕ} (s : State) (tasks : List Task) (queries : ℕ)
    (htasks : tasks.filterMap Task.inserts = s.tasks.filterMap Task.inserts ++ [k]) :
    State.settled { s with tasks := tasks, queries := queries } =
      (s.interestsOf k).elim s.settled (keepInterests s.settled) := by
  unfold State.settled
  change List.foldl _ _ (tasks.filterMap Task.inserts) = _
  rw [htasks, List.foldl_append]
  rfl

/-- An application has other interests, which go to the data store. -/
theorem Current.drop (h : Current s) {k : ℕ} {a : App} (hk : k ∈ s.records)
    (ha : s.app k = some a) {attrs : Attributes} (hattrs : attrs.Proper) :
    let u := s.modifyApp k fun a => { a with attrs := attrs }
    Current { u with tasks := u.tasks ++ [Task.insertNode k], queries := u.queries + 1 } := by
  intro u
  obtain ⟨hsome, hids, happs⟩ := h.modify_frame ha hattrs
  have hregistered := registered_modifyApp h hk ha attrs
  have hlinked := linked_settled ha attrs
  have hself : u.interestsOf k = some (a.id, attrs) := by
    rw [interestsOf_modifyApp, if_pos rfl, ha]
    rfl
  have hsettled := settled_insert (k := k) u (u.tasks ++ [Task.insertNode k])
    (u.queries + 1)
    (by simp [Task.inserts])
  rw [hself, Option.elim_some] at hsettled
  refine ⟨fun j hj => hsome j (h.validRecords j hj), fun j hj => ?_,
    fun i hi j hj p q hp hq hid => ?_, h.properThis, happs, h.properKept,
    fun p hp q hq hid => ?_, fun hfresh => absurd (.inl (Nat.succ_pos _)) hfresh⟩
  · have hj : j ∈ (s.tasks ++ [Task.insertNode k]).filterMap Task.inserts := hj
    rw [List.filterMap_append, List.mem_append] at hj
    rcases hj with hj | hj
    · exact hsome j (h.validInserts j hj)
    · obtain rfl : j = k := by simpa [Task.inserts] using hj
      exact hsome j (Option.isSome_iff_exists.mpr ⟨a, ha⟩)
  · obtain ⟨p', hp', hpid⟩ := hids i p hp
    obtain ⟨q', hq', hqid⟩ := hids j q hq
    exact h.distinct i hi j hj p' q' hp' hq' (hpid.trans (hid.trans hqid.symm))
  · rw [hsettled] at hq
    rcases mem_keepInterests.mp hq with ⟨hq, hne⟩ | rfl
    · obtain ⟨q', hq', hR⟩ := hlinked.right q hq
      rcases hR with rfl | ⟨-, rfl⟩
      · rcases (hregistered p).mp hp with rfl | ⟨hp, -⟩
        · exact absurd hid hne
        · exact h.within p hp q hq' hid
      · exact absurd rfl hne
    · rcases (hregistered p).mp hp with rfl | ⟨-, hne⟩
      · exact List.Subset.refl _
      · exact absurd hid.symm hne

theorem remove_eq (s : State) (id : Digest) :
    ∃ records log, s.remove id = { s with records := records, log := log } := by
  unfold State.remove
  split_ifs
  · exact ⟨_, _, rfl⟩
  · exact ⟨s.records, s.log, rfl⟩

theorem deRegisterApplication_eq {k : ℕ} {a : App} (ha : s.app k = some a) : ∃ records log,
    deRegisterApplication s k = { s with
      heap := s.heap ++ [a], numClients := ulongPred s.numClients, records := records, log := log
      tasks := s.tasks ++ [Task.deleteFilter a.filterEvent, Task.insertNode s.heap.length] } := by
  unfold deRegisterApplication
  rw [ha, Option.elim_some]
  obtain ⟨records, log, heq⟩ :=
    remove_eq (State.create { s with numClients := ulongPred s.numClients } a) a.id
  simp only [heq]
  exact ⟨records, log, rfl⟩

theorem interestsOf_create {k : ℕ} (hk : (s.app k).isSome) {a : App}
    (hheap : s'.heap = s.heap ++ [a]) : s'.interestsOf k = s.interestsOf k := by
  obtain ⟨b, hb⟩ := Option.isSome_iff_exists.mp hk
  have hcreate := app_create hb a
  unfold State.app State.create at hcreate
  unfold State.interestsOf
  rw [hb]
  unfold State.app
  rw [hheap, hcreate]

theorem Current.deRegister (h : Current s) {k : ℕ} (hk : k ∈ s.records) :
    Current (deRegisterApplication s k) := by
  obtain ⟨a, ha⟩ := Option.isSome_iff_exists.mp (h.validRecords k hk)
  have hself : s.interestsOf k = some (a.id, a.attrs) := by
    unfold State.interestsOf
    rw [ha]
    rfl
  have hrecords := (deRegisterApplication_clients ha h.validRecords).2
  obtain ⟨records, log, heq⟩ := deRegisterApplication_eq ha
  rw [heq] at hrecords ⊢
  have hrecords : records = s.records.eraseP (s.hasId a.id) := hrecords
  have hsub : ∀ j ∈ records, j ∈ s.records := by
    rw [hrecords]
    exact fun j hj => List.mem_of_mem_eraseP hj
  generalize hd : ({ s with
      heap := s.heap ++ [a], numClients := ulongPred s.numClients, records := records, log := log
      tasks := s.tasks ++ [Task.deleteFilter a.filterEvent,
        Task.insertNode s.heap.length] } : State) = d
  have hheap : d.heap = s.heap ++ [a] := by rw [← hd]
  have hdrecords : d.records = records := by rw [← hd]
  have hinserts : d.tasks.filterMap Task.inserts =
      s.tasks.filterMap Task.inserts ++ [s.heap.length] := by
    rw [← hd]
    simp only [List.filterMap_append]
    rfl
  have hold : ∀ j, (s.app j).isSome → d.interestsOf j = s.interestsOf j :=
    fun j hj => interestsOf_create hj hheap
  have hcopy : d.interestsOf s.heap.length = some (a.id, a.attrs) := by
    unfold State.interestsOf State.app
    rw [hheap]
    simp
  have hsome : ∀ j, (s.app j).isSome → (d.app j).isSome := by
    intro j hj
    rw [← isSome_interestsOf, hold j hj, isSome_interestsOf]
    exact hj
  -- Registered are those of before, but for the application itself.
  have hregistered : ∀ p ∈ d.registered, p ∈ s.registered := by
    intro p hp
    obtain ⟨j, hj, hget⟩ := mem_registered.mp hp
    rw [hdrecords] at hj
    rw [hold j (h.validRecords j (hsub j hj))] at hget
    exact mem_registered.mpr ⟨j, hsub j hj, hget⟩
  have hregistered' : ∀ p ∈ s.registered, p ∈ d.registered ∨ p = (a.id, a.attrs) := by
    intro p hp
    obtain ⟨j, hj, hget⟩ := mem_registered.mp hp
    by_cases hid : s.hasId a.id j = true
    · right
      have hpid : p.1 = a.id := by
        unfold State.interestsOf at hget
        unfold State.hasId at hid
        obtain ⟨b, hb, rfl⟩ := Option.map_eq_some_iff.mp hget
        rw [hb] at hid
        simpa using hid
      obtain rfl := h.distinct j hj k hk p _ hget hself hpid
      exact Option.some.inj (hget.symm.trans hself)
    · left
      refine mem_registered.mpr ⟨j, ?_, (hold j (h.validRecords j hj)).trans hget⟩
      rw [hdrecords, hrecords]
      exact (List.mem_eraseP_of_neg (by simpa using hid)).mpr hj
  have hsettled : d.settled = keepInterests s.settled (a.id, a.attrs) := by
    have hbefore : d.settled = (d.interestsOf s.heap.length).elim s.settled
        (keepInterests s.settled) := by
      have hcongr := @settled_congr s { d with tasks := s.tasks } (by rw [← hd]) rfl
        fun j hj => hold j (h.validInserts j hj)
      rw [← hcongr]
      exact settled_insert { d with tasks := s.tasks } d.tasks d.queries hinserts
    rw [hbefore, hcopy]
    rfl
  have hin : (a.id, a.attrs) ∈ s.registered := mem_registered.mpr ⟨k, hk, hself⟩
  refine ⟨fun j hj => ?_, fun j hj => ?_, fun i hi j hj p q hp hq hid => ?_, ?_,
    fun j b hb => ?_, ?_, fun p hp q hq hid => ?_, fun hfresh x => ?_⟩
  · rw [hdrecords] at hj
    exact hsome j (h.validRecords j (hsub j hj))
  · rw [hinserts] at hj
    rcases List.mem_append.mp hj with hj | hj
    · exact hsome j (h.validInserts j hj)
    · rw [List.mem_singleton.mp hj, ← isSome_interestsOf, hcopy]
      rfl
  · rw [hdrecords] at hi hj
    rw [hold i (h.validRecords i (hsub i hi))] at hp
    rw [hold j (h.validRecords j (hsub j hj))] at hq
    exact h.distinct i (hsub i hi) j (hsub j hj) p q hp hq hid
  · rw [← hd]
    exact h.properThis
  · unfold State.app at hb
    rw [hheap, List.getElem?_append] at hb
    split_ifs at hb
    · exact h.properApps j b hb
    · obtain ⟨hlt, rfl⟩ := List.getElem?_eq_some_iff.mp hb
      simpa using h.properApps k a ha
  · rw [← hd]
    exact h.properKept
  · rw [hsettled] at hq
    have hp := hregistered p hp
    rcases mem_keepInterests.mp hq with ⟨hq, -⟩ | rfl
    · exact h.within p hp q hq hid
    · obtain ⟨j, hj, hget⟩ := mem_registered.mp hp
      obtain rfl := h.distinct j hj k hk p _ hget hself hid.symm
      obtain rfl := Option.some.inj (hget.symm.trans hself)
      exact List.Subset.refl _
  · have hfresh : ¬ s.stale := by
      rw [← hd] at hfresh
      exact hfresh
    have hthis : d.thisAttrs = s.thisAttrs := by rw [← hd]
    rw [hthis, h.current hfresh]
    unfold Advertised
    rw [hsettled]
    constructor
    · rintro (⟨p, hp, hx⟩ | ⟨q, hq, hx⟩)
      · rcases hregistered' p hp with hp | rfl
        · exact .inl ⟨p, hp, hx⟩
        · exact .inr ⟨_, mem_keepInterests.mpr (.inr rfl), hx⟩
      · by_cases hid : q.1 = a.id
        · exact .inr ⟨_, mem_keepInterests.mpr (.inr rfl), h.within _ hin q hq hid hx⟩
        · exact .inr ⟨q, mem_keepInterests.mpr (.inl ⟨hq, hid⟩), hx⟩
    · rintro (⟨p, hp, hx⟩ | ⟨q, hq, hx⟩)
      · exact .inl ⟨p, hregistered p hp, hx⟩
      · rcases mem_keepInterests.mp hq with ⟨hq, -⟩ | rfl
        · exact .inr ⟨q, hq, hx⟩
        · exact .inl ⟨_, hin, hx⟩

end Changes

section Runs

theorem Current.receive (h : Current s) {messages : List (Option Message)}
    (hok : ReceiveMeets env InterestControl s messages) :
    Current (onReceiveFromApplication env s messages) := by
  refine receive_invariant (fun s m appNode c s' hs hr hok hc => ?_) h hok
  cases onControl_interests hc with
  | same hsame => exact hs.same hsame
  | deregistered k => exact hs.deRegister (hok k rfl)
  | added k interests hout hsame =>
    obtain ⟨hk, hagrees⟩ := hok k rfl hout
    exact (hs.addInterests hk hagrees).same hsame
  | dropped k interests hout hsame =>
    have hk := hok k rfl hout
    obtain ⟨a, ha⟩ := Option.isSome_iff_exists.mp (hs.validRecords k hk)
    obtain ⟨attrs, hattrs, heq, -⟩ := dropInterests_eq ha (hs.properApps k a ha) interests false
    rw [heq] at hsame
    refine (hs.drop hk ha hattrs).same ⟨hsame.records, hsame.thisAttrs, hsame.kept, ?_,
      fun _ => .inl (Nat.succ_pos _), hsame.apps, hsame.proper⟩
    simp only [List.filterMap_append, hsame.inserts]
  | kept k interests hnot =>
    cases ha : s.app k with
    | none =>
      have hsame : (interests.foldl (dropInterest k) (s, false)).1 = s := by
        clear hnot hc hok
        induction interests with
        | nil => rfl
        | cons i l ih =>
          have hstep : dropInterest k (s, false) i = (s, false) := by
            unfold dropInterest
            rw [ha]
            cases i.name <;> rfl
          rw [List.foldl_cons, hstep]
          exact ih
      rw [hsame]
      exact hs
    | some a =>
      obtain ⟨attrs, -, heq, hattrs⟩ := dropInterests_eq ha (hs.properApps k a ha) interests false
      rw [heq, hattrs hnot, modifyApp_self ha rfl]
      exact hs

theorem map_keep (kept : List App) (a : App) : (keep kept a).map (fun a => (a.id, a.attrs)) =
    keepInterests (kept.map fun a => (a.id, a.attrs)) (a.id, a.attrs) := by
  unfold keep keepInterests
  rw [List.map_append, List.filter_map]
  rfl

/-- What was to be kept is kept now. -/
theorem Current.insertNode (h : Current s) {k : ℕ} {l : List Task}
    (htasks : s.tasks = .insertNode k :: l) {a : App} (ha : s.app k = some a) :
    Current { s with tasks := l, kept := keep s.kept a.stored } := by
  have hsettled : State.settled { s with tasks := l, kept := keep s.kept a.stored } =
      s.settled := by
    have hself : s.interestsOf k = some (a.id, a.attrs) := by
      unfold State.interestsOf
      rw [ha]
      rfl
    have hinserts : s.tasks.filterMap Task.inserts = k :: l.filterMap Task.inserts := by
      rw [htasks]
      rfl
    unfold State.settled
    rw [hinserts, List.foldl_cons, hself, map_keep]
    rfl
  refine ⟨h.validRecords, fun j hj => h.validInserts j ?_, h.distinct, h.properThis, h.properApps,
    fun b hb => ?_, fun p hp q hq => ?_, fun hfresh x => ?_⟩
  · rw [htasks]
    exact List.mem_cons_of_mem k hj
  · rcases List.mem_append.mp hb with hb | hb
    · exact h.properKept b (List.mem_filter.mp hb).1
    · rw [List.mem_singleton.mp hb]
      exact h.properApps k a ha
  · rw [hsettled] at hq
    exact h.within p hp q hq
  · unfold Advertised
    rw [hsettled]
    exact h.current hfresh x

theorem stale_append {queries : ℕ} {callbacks l : List Callback}
    (h : 0 < queries ∨ ∃ nodes, .appNodes nodes ∈ callbacks) :
    0 < queries ∨ ∃ nodes, .appNodes nodes ∈ callbacks ++ l :=
  h.imp id fun ⟨nodes, hin⟩ => ⟨nodes, List.mem_append_left l hin⟩

theorem Current.dataStore (h : Current s) : Current (runDataStore s) := by
  unfold runDataStore
  cases htasks : s.tasks with
  | nil =>
    simp only
    split_ifs
    · exact h
    · refine h.same (.of_heap rfl rfl rfl ?_ (fun _ => ?_) rfl)
      · rw [htasks]
      · exact .inr ⟨_, List.mem_append_right _ (List.mem_singleton.mpr rfl)⟩
  | cons t l =>
    simp only
    cases t with
    | insertNode k =>
      have hk : k ∈ s.tasks.filterMap Task.inserts := by
        rw [htasks]
        exact List.mem_cons_self
      obtain ⟨a, ha⟩ := Option.isSome_iff_exists.mp (h.validInserts k hk)
      have hget : State.app { s with tasks := l } k = some a := ha
      rw [runTask, hget]
      exact h.insertNode htasks ha
    | retrieveNode k =>
      have hinserts : l.filterMap Task.inserts = s.tasks.filterMap Task.inserts := by
        rw [htasks]
        rfl
      rw [runTask]
      cases hfind : (State.app { s with tasks := l } k).bind fun a =>
          s.kept.find? (·.id = a.id) with
      | none => exact h.same (.of_heap rfl rfl rfl hinserts stale_append rfl)
      | some b =>
        obtain ⟨a, -, hb⟩ := Option.bind_eq_some_iff.mp hfind
        refine h.same (.of_create rfl rfl rfl hinserts stale_append rfl fun _ hkept => ?_)
        exact hkept b (List.mem_of_find?_eq_some hb)
    | deleteFilter event =>
      refine h.same (.of_heap rfl rfl rfl ?_ id rfl)
      rw [htasks]
      rfl
    | retrieveLast =>
      refine h.same (.of_heap rfl rfl rfl ?_ stale_append rfl)
      rw [htasks]
      rfl

/-- A registration, where the node store takes the node. -/
theorem Current.add (h : Current s) {isOther : Bool} {k : ℕ}
    (hok : isOther = false → ∀ p, s.interestsOf k = some p →
      (∀ q ∈ s.registered, q.1 ≠ p.1) → AsKept s p) : Current (s.add isOther k) := by
  unfold State.add
  cases ha : s.app k with
  | none => exact h
  | some a =>
    rw [Option.elim_some]
    split_ifs with hskip
    · exact h
    rw [Bool.or_eq_true, not_or] at hskip
    have hself : s.interestsOf k = some (a.id, a.attrs) := by
      unfold State.interestsOf
      rw [ha]
      rfl
    have hnone : ∀ j ∈ s.records, ∀ q, s.interestsOf j = some q → q.1 ≠ a.id := by
      intro j hj q hq hid
      refine hskip.2 (List.any_eq_true.mpr ⟨j, hj, ?_⟩)
      obtain ⟨b, hb, rfl⟩ := Option.map_eq_some_iff.mp hq
      unfold State.hasId
      rw [hb]
      simpa using hid
    have hkept := hok (Bool.eq_false_of_not_eq_true hskip.1) _ hself fun q hq => by
      obtain ⟨j, hj, hget⟩ := mem_registered.mp hq
      exact hnone j hj q hget
    have hregistered : State.registered
        { s with records := s.records ++ [k], log := s.log ++ [Entry.registered a.id] } =
          s.registered ++ [(a.id, a.attrs)] := by
      change (s.records ++ [k]).filterMap s.interestsOf = _
      rw [List.filterMap_append]
      simp [State.registered, hself]
    refine ⟨fun j hj => ?_, h.validInserts, ?_, h.properThis, h.properApps, h.properKept, ?_, ?_⟩
    · rcases List.mem_append.mp hj with hj | hj
      · exact h.validRecords j hj
      · rw [List.mem_singleton.mp hj]
        exact Option.isSome_iff_exists.mpr ⟨a, ha⟩
    · intro i hi j hj p q hp hq hid
      rcases List.mem_append.mp hi with hi' | hi' <;> rcases List.mem_append.mp hj with hj' | hj'
      · exact h.distinct i hi' j hj' p q hp hq hid
      · rw [List.mem_singleton.mp hj'] at hq
        obtain rfl := Option.some.inj (hq.symm.trans hself)
        exact absurd hid (hnone i hi' p hp)
      · rw [List.mem_singleton.mp hi'] at hp
        obtain rfl := Option.some.inj (hp.symm.trans hself)
        exact absurd hid.symm (hnone j hj' q hq)
      · exact (List.mem_singleton.mp hi').trans (List.mem_singleton.mp hj').symm
    · intro p hp q hq hid
      rw [hregistered] at hp
      rcases List.mem_append.mp hp with hp | hp
      · exact h.within p hp q hq hid
      · rw [List.mem_singleton.mp hp] at hid ⊢
        exact hkept.all q hq hid
    · intro hfresh x
      rw [h.current hfresh]
      unfold Advertised
      rw [hregistered]
      constructor
      · rintro (⟨p, hp, hx⟩ | hkeeps)
        · exact .inl ⟨p, List.mem_append_left _ hp, hx⟩
        · exact .inr hkeeps
      · rintro (⟨p, hp, hx⟩ | hkeeps)
        · rcases List.mem_append.mp hp with hp | hp
          · exact .inl ⟨p, hp, hx⟩
          · rw [List.mem_singleton.mp hp] at hx
            obtain ⟨q, hq, -, hxq⟩ := hkept.only x hx
            exact .inr ⟨q, hq, hxq⟩
        · exact .inr hkeeps

theorem Current.registered_unique (h : Current s) {p q : Digest × Attributes}
    (hp : p ∈ s.registered) (hq : q ∈ s.registered) (hid : p.1 = q.1) : p = q := by
  obtain ⟨i, hi, hgeti⟩ := mem_registered.mp hp
  obtain ⟨j, hj, hgetj⟩ := mem_registered.mp hq
  obtain rfl := h.distinct i hi j hj p q hgeti hgetj hid
  exact Option.some.inj (hgeti.symm.trans hgetj)

/-- The node of the store is taken for one that the data store has listed. -/
def State.newest (s : State) (n : App) : App := ((s.retrieve n.id).bind s.app).getD n

theorem newest_cases (h : Current s) (n : App) :
    (∃ q ∈ s.registered, q.1 = n.id ∧ (s.newest n).attrs = q.2) ∨
      (∀ q ∈ s.registered, q.1 ≠ n.id) ∧ s.newest n = n := by
  unfold State.newest
  cases hfind : s.retrieve n.id with
  | none =>
    refine .inr ⟨fun q hq hid => ?_, rfl⟩
    obtain ⟨j, hj, hget⟩ := mem_registered.mp hq
    refine List.find?_eq_none.mp hfind j hj ?_
    obtain ⟨b, hb, rfl⟩ := Option.map_eq_some_iff.mp hget
    unfold State.hasId
    rw [hb]
    simpa using hid
  | some k =>
    have hk := List.mem_of_find?_eq_some hfind
    have hid := List.find?_some hfind
    obtain ⟨a, ha⟩ := Option.isSome_iff_exists.mp (h.validRecords k hk)
    unfold State.hasId at hid
    rw [ha] at hid
    refine .inl ⟨(a.id, a.attrs), mem_registered.mpr ⟨k, hk, ?_⟩, by simpa using hid, ?_⟩
    · unfold State.interestsOf
      rw [ha]
      rfl
    · rw [Option.bind_some, ha]
      rfl

theorem proper_addAll {m : Attributes} (h : m.Proper) (attrs : Attributes) :
    (addAll m attrs).Proper := by
  unfold addAll
  generalize attrs.toList = entries
  induction entries generalizing m with
  | nil => exact h
  | cons e entries ih => exact ih (proper_putAttribute h e.2)

theorem proper_foldl_addAll (l : List App) {m : Attributes} (h : m.Proper) :
    (l.foldl (fun m a => addAll m a.attrs) m).Proper := by
  induction l generalizing m with
  | nil => exact h
  | cons a l ih => exact ih (proper_addAll h a.attrs)

theorem held_foldl_addAll (l : List App) {m : Attributes} (h : m.Proper) {P : Attribute → Prop}
    (hP : Agree P) (hm : ∀ x ∈ m.held, P x) (hl : ∀ a ∈ l, ∀ x ∈ a.attrs.held, P x)
    (x : Attribute) : x ∈ (l.foldl (fun m a => addAll m a.attrs) m).held ↔
      x ∈ m.held ∨ ∃ a ∈ l, x ∈ a.attrs.held := by
  induction l generalizing m with
  | nil => simp
  | cons a l ih =>
    rw [List.forall_mem_cons] at hl
    obtain ⟨hproper, hheld⟩ := held_addAll h hP hm hl.1
    rw [List.foldl_cons, ih hproper (fun y hy => ((hheld y).mp hy).elim (hm y) (hl.1 y)) hl.2,
      hheld, or_assoc]
    simp

/-- The attributes of this node are computed from an up-to-date list. -/
theorem UpToDate.mem_iff (h : Current s) {nodes : List App} (hok : UpToDate s nodes)
    (x : Attribute) : (∃ n ∈ nodes, x ∈ (s.newest n).attrs.held) ↔ Advertised s x := by
  have hlisted : ∀ p ∈ s.registered, x ∈ p.2.held →
      ∃ n ∈ nodes, x ∈ (s.newest n).attrs.held := by
    intro p hp hx
    obtain ⟨n, hn, hid⟩ := hok.registered p hp
    refine ⟨n, hn, ?_⟩
    rcases newest_cases h n with ⟨q, hq, hqid, hattrs⟩ | ⟨hnone, -⟩
    · rw [hattrs, h.registered_unique hq hp (hqid.trans hid)]
      exact hx
    · exact absurd hid.symm (hnone p hp)
  constructor
  · rintro ⟨n, hn, hx⟩
    rcases newest_cases h n with ⟨q, hq, -, hattrs⟩ | ⟨hnone, heq⟩
    · rw [hattrs] at hx
      exact .inl ⟨q, hq, hx⟩
    · obtain ⟨p, hp, -, hsub⟩ := hok.listed n hn hnone
      rw [heq] at hx
      exact .inr ⟨p, hp, hsub hx⟩
  · rintro (⟨p, hp, hx⟩ | ⟨p, hp, hx⟩)
    · exact hlisted p hp hx
    · by_cases hnone : ∀ q ∈ s.registered, q.1 ≠ p.1
      · obtain ⟨n, hn, hid, hsub⟩ := hok.kept p hp hnone
        refine ⟨n, hn, ?_⟩
        rcases newest_cases h n with ⟨q, hq, hqid, -⟩ | ⟨-, heq⟩
        · exact absurd (hqid.trans hid) (hnone q hq)
        · rw [heq]
          exact hsub hx
      · push Not at hnone
        obtain ⟨q, hq, hid⟩ := hnone
        exact hlisted q hq (h.within q hq p hp hid.symm hx)

theorem Current.retrieveAppNodes (h : Current s) {callbacks : List Callback} {nodes : List App}
    (hok : ¬ State.stale { s with callbacks := callbacks } →
      UpToDate { s with callbacks := callbacks } nodes) :
    Current (onRetrieveAppNodes { s with callbacks := callbacks } nodes) := by
  obtain ⟨hproper, hempty⟩ := held_foldl_erase h.properThis (l := s.thisAttrs.toList)
    fun x hx => hx
  refine ⟨h.validRecords, h.validInserts, h.distinct, proper_foldl_addAll _ hproper, h.properApps,
    h.properKept, h.within, fun hfresh x => ?_⟩
  obtain ⟨hregistered, hkept, hlisted, hagree⟩ := hok hfresh
  have hup : UpToDate s nodes := ⟨hregistered, hkept, hlisted, hagree⟩
  have hmem := hup.mem_iff h
  have hnil : ∀ y ∈ (s.thisAttrs.toList.foldl (fun m e => (Attributes.erase m e.2).1)
      s.thisAttrs).held, Advertised s y := by
    rw [hempty]
    exact fun y hy => absurd hy List.not_mem_nil
  have hheld := held_foldl_addAll (nodes.map s.newest) hproper hagree hnil (fun a ha y hy => by
    obtain ⟨n, hn, rfl⟩ := List.mem_map.mp ha
    exact (hmem y).mp ⟨n, hn, hy⟩) x
  rw [hempty] at hheld
  refine hheld.trans (Iff.trans ?_ (hmem x))
  simp

theorem Current.retrieved (h : Current s) {isOther : Bool} {k : ℕ}
    (hok : InterestCallback s isOther (.node k)) : Current (onRetrieveNode env s isOther k) := by
  unfold onRetrieveNode
  cases ha : s.app k with
  | none => exact h
  | some a =>
    let r := s.modifyApp k fun a => { a with bloomfilter := .new env.shape }
    have hsame : SameInterests s r := .of_modify rfl rfl rfl rfl id rfl fun _ => ⟨rfl, rfl⟩
    have hr := h.same hsame
    have hregistered : r.registered = s.registered :=
      registered_congr rfl fun j hj => hsame.apps j (h.validRecords j hj)
    have hsettled : r.settled = s.settled :=
      settled_congr rfl rfl fun j hj => hsame.apps j (h.validInserts j hj)
    have hadd := @Current.add r hr isOther k fun hout p hp hnone => by
      rw [hregistered] at hnone
      rw [hsame.apps k (Option.isSome_iff_exists.mpr ⟨a, ha⟩)] at hp
      obtain ⟨hall, honly⟩ := hok hout p hp hnone
      rw [← hsettled] at hall honly
      exact ⟨hall, honly⟩
    let u := updateApplicationInterests (r.add isOther k) k
    have hu := hadd.same (interests_updateApplicationInterests _ k)
    have hcounted : SameInterests u { u with numClients := ulongSucc u.numClients } :=
      .of_heap rfl rfl rfl rfl id rfl
    exact (hu.same hcounted).same (interests_reply _ a.id)

theorem Current.callback (h : Current s) {position : ℕ} {isOther : Bool}
    (hok : InterestAct env s (.callback position isOther)) :
    Current (step env s (.callback position isOther)) := by
  cases hget : s.callbacks[position]? with
  | none =>
    rw [step_callback_none hget]
    exact h
  | some c =>
    have hc := hok c hget
    obtain ⟨hlt, rfl⟩ := List.getElem?_eq_some_iff.mp hget
    rw [step_callback_some hget]
    -- Every other callback leaves a computation outstanding if there was one.
    have hsame : (∀ nodes, s.callbacks[position] ≠ .appNodes nodes) →
        SameInterests s { s with callbacks := s.callbacks.eraseIdx position } := by
      refine fun hother => .of_heap rfl rfl rfl rfl (fun hstale => hstale.imp id ?_) rfl
      rintro ⟨nodes, hin⟩
      have hin := (List.getElem_cons_eraseIdx_perm hlt).mem_iff.mpr hin
      rcases List.mem_cons.mp hin with heq | hin
      · exact absurd heq.symm (hother nodes)
      · exact ⟨nodes, hin⟩
    cases hcase : s.callbacks[position] with
    | node k =>
      rw [hcase] at hc hsame
      exact (h.same (hsame (by simp))).retrieved hc
    | appNodes nodes =>
      rw [hcase] at hc
      exact h.retrieveAppNodes hc
    | finishedProcessing =>
      rw [hcase] at hsame
      obtain ⟨readySignals, heq⟩ := onDataStoreFinishedProcessing_eq
        { s with callbacks := s.callbacks.eraseIdx position }
      rw [onCallback, heq]
      exact (h.same (hsame (by simp))).same (.of_heap rfl rfl rfl rfl id rfl)

theorem interests_onSendResult (s : State) (k : ℕ) (object : Digest) (success : Bool) :
    SameInterests s (onSendResult env s k object success) := by
  unfold onSendResult
  cases s.app k with
  | none => exact .refl s
  | some a =>
    cases success with
    | false =>
      simp only [Option.elim_some, Bool.false_eq_true, if_false]
      split_ifs
      all_goals exact .of_heap rfl rfl rfl rfl id rfl
    | true =>
      simp only [Option.elim_some, if_true]
      split_ifs
      all_goals exact .of_modify rfl rfl rfl rfl id rfl fun _ => ⟨rfl, rfl⟩

theorem Current.deRegisterAll (h : Current s) :
    Current (s.records.foldl deRegisterApplication s) := by
  generalize hl : s.records = l
  induction l generalizing s with
  | nil => exact h
  | cons k l ih =>
    have hk : k ∈ s.records := by
      rw [hl]
      exact List.mem_cons_self
    obtain ⟨a, ha⟩ := Option.isSome_iff_exists.mp (h.validRecords k hk)
    have hself : s.hasId a.id k = true := by
      unfold State.hasId
      rw [ha]
      simp
    have hrecords := (deRegisterApplication_clients ha h.validRecords).2
    rw [hl, List.eraseP_cons_of_pos hself] at hrecords
    exact ih (h.deRegister hk) hrecords

theorem Current.prepareShutdown (h : Current s) : Current (onPrepareShutdown env s) := by
  have hin : SameInterests s { s with inShutdown := true } := .of_heap rfl rfl rfl rfl id rfl
  have hsent := (h.same hin).same (@interests_sendToAllApplications env _ .shutdown)
  unfold onPrepareShutdown
  simp only
  split_ifs
  · exact hsent.same (.of_heap rfl rfl rfl rfl id rfl)
  · exact hsent.same (.of_heap rfl rfl rfl rfl id rfl)
  · refine hsent.deRegisterAll.same (.of_heap rfl rfl rfl ?_ id rfl)
    simp [Task.inserts]

theorem Current.step (h : Current s) {act : Act} (hok : InterestAct env s act) :
    Current (step env s act) := by
  cases act with
  | receive messages => exact h.receive hok
  | dataStore => exact h.dataStore
  | callback position isOther => exact h.callback hok
  | neighborStatus lastInterface =>
    exact h.same (interests_onNeighborStatusChange s lastInterface)
  | filterMatch event objects =>
    obtain ⟨pendingDOs, log, heq⟩ := @onApplicationFilterMatchEvent_eq env s event objects
    rw [ApplicationManager.step, heq]
    exact h.same (.of_heap rfl rfl rfl rfl id rfl)
  | sendResult k object success => exact h.same (interests_onSendResult s k object success)
  | prepareShutdown => exact h.prepareShutdown

end Runs

end ApplicationManager

namespace Sample

open ApplicationManager Attributes

end Sample

end Haggle
