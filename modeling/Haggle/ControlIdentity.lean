import Haggle.ApplicationClients
import Haggle.Base64Buffer

/-!
# Who a control message is from

A control data object names its application by a text. All objects of an event are decoded into one
buffer, with one variable for its length, and what the decoder returns is not looked at.
-/

namespace Haggle
namespace ApplicationManager

/-- `id` and `decodelen`; the decoder never writes back a larger length. -/
structure IdBuffer where
  id : Digest
  decodelen : ℕ
  room : decodelen ≤ 20

namespace IdBuffer

/-- The buffer at the start of an event holds anything. -/
def start (junk : Digest) : IdBuffer := ⟨junk, 20, le_rfl⟩

def decode (b : IdBuffer) (text : Bytes) : IdBuffer :=
  let r := Base64.decodeInto text b.id.1 b.decodelen
  have hspec := Base64.decodeInto_spec text (b.room.trans_eq b.id.2.symm)
  { id := ⟨r.2.1, hspec.2.1.trans b.id.2⟩
    decodelen := r.2.2
    room := by
      rw [hspec.2.2.1]
      exact (List.length_take_le _ _).trans b.room }

end IdBuffer

/-- A control data object with the text of the identifier in its metadata. -/
structure ControlObject where
  idText : Bytes
  name : Bytes
  controls : Option (List Control)

namespace ControlObject

/-- The identifier that the text of an object stands for. -/
def ownId (o : ControlObject) : Option Digest :=
  (Base64.decodeAlloc o.idText).bind fun d => if h : d.length = 20 then some ⟨d, h⟩ else none

def message (o : ControlObject) (isOther : Digest → Bool) (id : Digest) : Message :=
  ⟨id, o.name, isOther id, o.controls⟩

end ControlObject

variable (env : Surroundings) (isOther : Digest → Bool)

/-- `onReceiveFromApplication` with the decoding of the identifiers; `isOther` says which of them
belong to nodes that are no applications. -/
def onReceiveObjects : IdBuffer → State → List (Option ControlObject) → State
  | _, s, [] => s
  | _, s, none :: _ => s
  | b, s, some o :: l =>
    let b := b.decode o.idText
    if isOther b.id then s
    else match o.controls with
      | none => s
      | some controls =>
        let r := onControls env (o.message isOther b.id) (s.retrieve b.id) s controls
        if r.2 then onReceiveObjects b r.1 l else r.1

/-- The messages of an event, each with the identifier that the buffer holds at its turn. -/
def messages : IdBuffer → List (Option ControlObject) → List (Option Message)
  | _, [] => []
  | b, none :: l => none :: messages b l
  | b, some o :: l =>
    some (o.message isOther (b.decode o.idText).id) :: messages (b.decode o.idText) l

theorem onReceiveObjects_eq (b : IdBuffer) (s : State) (l : List (Option ControlObject)) :
    onReceiveObjects env isOther b s l =
      onReceiveFromApplication env s (messages isOther b l) := by
  induction l generalizing b s with
  | nil => rfl
  | cons x l ih =>
    cases x with
    | none => rfl
    | some o =>
      obtain ⟨idText, name, controls⟩ := o
      simp only [onReceiveObjects, messages, onReceiveFromApplication, ControlObject.message]
      split_ifs
      · rfl
      · cases controls with
        | none => rfl
        | some controls =>
          dsimp only
          rw [ih]
          rfl

def Control.isInvalid : Control → Bool
  | .invalid => true
  | _ => false

def Control.isRegistration : Control → Bool
  | .registrationRequest => true
  | _ => false

/-- The objects whose control elements are gone through, unless there are other nodes with their
identifiers. -/
def handled : List (Option ControlObject) → List ControlObject
  | [] => []
  | none :: _ => []
  | some o :: l =>
    match o.controls with
    | none => []
    | some controls => o :: if controls.any Control.isInvalid then [] else handled l

/-- Those objects with the identifiers under which they are. -/
def lookups : IdBuffer → List ControlObject → List (ControlObject × Digest)
  | _, [] => []
  | b, o :: l =>
    let b := b.decode o.idText
    if isOther b.id then [] else (o, b.id) :: lookups b l

/-- The application that an object with some identifier can affect: the one that the node store has
for it, or the one that a registration request makes. -/
def Affects (s : State) (id : Digest) (o : ControlObject) (app : Digest) : Prop :=
  (∃ k, s.retrieve id = some k ∧ (s.app k).map App.id = some app) ∨
    s.retrieve id = none ∧ s.inShutdown = false ∧ app = id ∧
      ∃ controls, o.controls = some controls ∧ controls.any Control.isRegistration = true

/-- Whatever was in the memory, and whatever is in the node store at the turn of an object: the
application that it affects is the one of its own text. -/
def ActsForItself (l : List (Option ControlObject)) : Prop :=
  ∀ junk isOther, ∀ p ∈ lookups isOther (.start junk) (handled l), ∀ s app,
    Affects s p.2 p.1 app → p.1.ownId = some app

variable {env} {isOther : Digest → Bool}

theorem retrieve_id {s : State} {id : Digest} {k : ℕ} (h : s.retrieve id = some k) :
    (s.app k).map App.id = some id := by
  have hid := List.find?_some h
  simp only [State.hasId] at hid
  cases ha : s.app k with
  | none =>
    rw [ha] at hid
    cases hid
  | some a =>
    rw [ha] at hid
    simpa using hid

/-- Nothing is affected by the elements of an object without an application and a registration. -/
theorem onControl_unaffected (m : Message) {s s' : State} {c : Control}
    (hc : c.isRegistration = true → s.inShutdown = true)
    (h : onControl env m none s c = some s') : s' = s := by
  cases c with
  | registrationRequest =>
    simp only [onControl, hc rfl, if_true] at h
    exact (Option.some.inj h).symm
  | invalid => cases h
  | _ =>
    simp only [onControl, Option.elim_none, ite_self] at h
    exact (Option.some.inj h).symm

theorem onControls_unaffected (m : Message) (s : State) (controls : List Control)
    (hc : controls.any Control.isRegistration = true → s.inShutdown = true) :
    (onControls env m none s controls).1 = s := by
  induction controls with
  | nil => rfl
  | cons c l ih =>
    unfold onControls
    cases h : onControl env m none s c with
    | none => rfl
    | some s' =>
      have hs : s' = s := onControl_unaffected m (fun hr => hc (by simp [hr])) h
      subst hs
      exact ih fun hr => hc (by simp [hr])

section Others

/-- The object `j` stays as it is. -/
def Keeps (j : ℕ) (s s' : State) : Prop := ∀ a, s.app j = some a → s'.app j = some a

variable {j k : ℕ} {s s' s'' : State}

theorem Keeps.refl (s : State) : Keeps j s s := fun _ ha => ha

theorem Keeps.trans (h : Keeps j s s') (h' : Keeps j s' s'') : Keeps j s s'' :=
  fun a ha => h' a (h a ha)

theorem Keeps.of_heap (h : s'.heap = s.heap) : Keeps j s s' := by
  intro a ha
  unfold State.app at ha ⊢
  rw [h]
  exact ha

theorem Keeps.create (s : State) (b : App) : Keeps j s (s.create b) :=
  fun _ ha => app_create ha b

theorem Keeps.modifyApp (hjk : k ≠ j) (s : State) (f : App → App) :
    Keeps j s (s.modifyApp k f) := by
  intro a ha
  rw [app_modifyApp, if_neg hjk]
  exact ha

theorem Keeps.foldl {α β : Type} {f : β → α → β} {g : β → State}
    (hf : ∀ r x, Keeps j (g r) (g (f r x))) (l : List α) (r : β) :
    Keeps j (g r) (g (l.foldl f r)) := by
  induction l generalizing r with
  | nil => exact .refl _
  | cons x l ih => exact (hf r x).trans (ih _)

theorem keeps_updateApplicationInterests (hjk : k ≠ j) (s : State) :
    Keeps j s (updateApplicationInterests s k) := by
  unfold updateApplicationInterests
  cases s.app k with
  | none => exact .refl s
  | some a => exact (Keeps.modifyApp hjk s _).trans (.of_heap rfl)

theorem keeps_deRegisterApplication (s : State) : Keeps j s (deRegisterApplication s k) := by
  unfold deRegisterApplication
  cases s.app k with
  | none => exact .refl s
  | some a =>
    refine Keeps.trans (.create s a) (.of_heap ?_)
    simp only [Option.elim_some, heap_remove, State.create]

theorem keeps_addInterest (hjk : k ≠ j) (r : State × Bool) (i : Interest) :
    Keeps j r.1 (addInterest k r i).1 := by
  unfold addInterest
  split
  · exact (Keeps.modifyApp hjk r.1 _).trans (.of_heap rfl)
  · exact .refl r.1

theorem keeps_dropInterest (hjk : k ≠ j) (r : State × Bool) (i : Interest) :
    Keeps j r.1 (dropInterest k r i).1 := by
  unfold dropInterest
  split
  · exact .modifyApp hjk r.1 _
  · exact .refl r.1

theorem keeps_addApplicationEventInterest (hjk : k ≠ j) (s : State) (e : EventInterest) :
    Keeps j s (addApplicationEventInterest env k s e) := by
  cases e with
  | shutdown => exact .modifyApp hjk s _
  | neighborUpdate =>
    unfold addApplicationEventInterest
    obtain ⟨created, pendingDOs, log, heq⟩ := @onNeighborStatusChange_eq env
      (s.modifyApp k fun a => (a.addEventInterest .contactNew).addEventInterest .contactEnd) false
    rw [heq]
    exact (Keeps.modifyApp hjk s _).trans (.of_heap rfl)
  | other => exact .refl s

theorem keeps_onControl {m : Message} {appNode : Option ℕ} (hj : appNode ≠ some j) {c : Control}
    (h : onControl env m appNode s c = some s') : Keeps j s s' := by
  cases appNode with
  | none =>
    cases c with
    | registrationRequest =>
      obtain rfl := Option.some.inj h
      split_ifs
      · exact .refl s
      · exact (Keeps.create s _).trans (.of_heap rfl)
    | _ =>
      rw [onControl_unaffected m (fun hr => by cases hr) h]
      exact .refl s
  | some k =>
    have hjk : k ≠ j := fun hk => hj (congrArg some hk)
    cases c with
    | invalid => cases h
    | shutdown | sendNodeDescription =>
      obtain rfl := Option.some.inj h
      exact .refl s
    | registrationRequest | getInterests =>
      obtain rfl := Option.some.inj h
      split_ifs
      · exact .refl s
      · exact .of_heap rfl
    | deregistrationNotice =>
      obtain rfl := Option.some.inj h
      exact keeps_deRegisterApplication s
    | registerInterest interests =>
      obtain rfl := Option.some.inj h
      have hfold := Keeps.foldl (g := Prod.fst) (keeps_addInterest hjk) interests (s, false)
      split_ifs
      · exact .refl s
      · simp only [Option.elim_some]
        split_ifs
        · exact hfold.trans (keeps_updateApplicationInterests hjk _)
        · exact hfold
    | removeInterest interests =>
      obtain rfl := Option.some.inj h
      have hfold := Keeps.foldl (g := Prod.fst) (keeps_dropInterest hjk) interests (s, false)
      split_ifs
      · exact .refl s
      · simp only [Option.elim_some]
        split_ifs
        · exact (hfold.trans (keeps_updateApplicationInterests hjk _)).trans (.of_heap rfl)
        · exact hfold
    | registerEventInterest events =>
      obtain rfl := Option.some.inj h
      split_ifs
      · exact .refl s
      · exact Keeps.foldl (g := id) (keeps_addApplicationEventInterest hjk) events s
    | getDataObjects =>
      obtain rfl := Option.some.inj h
      split_ifs
      · exact .refl s
      · have hreset : Keeps j s { s.modifyApp k (fun a =>
            { a with bloomfilter := .new env.shape }) with log := s.log ++ [Entry.reset m.id] } :=
          (Keeps.modifyApp hjk s _).trans (.of_heap rfl)
        exact hreset.trans (keeps_updateApplicationInterests hjk _)
    | deleteDataObject object keepInBloomfilter =>
      obtain rfl := Option.some.inj h
      split_ifs
      · exact .refl s
      · cases object with
        | none => exact .refl s
        | some o => exact (Keeps.modifyApp hjk s _).trans (.of_heap rfl)

theorem keeps_onControls {m : Message} {appNode : Option ℕ} (hj : appNode ≠ some j)
    (s : State) (controls : List Control) :
    Keeps j s (onControls env m appNode s controls).1 := by
  induction controls generalizing s with
  | nil => exact .refl s
  | cons c l ih =>
    unfold onControls
    cases h : onControl env m appNode s c with
    | none => exact .refl s
    | some s' => exact (keeps_onControl hj h).trans (ih s')

/-- An application with another identifier than that of the message stays as it is. -/
theorem keeps_of_id_ne {m : Message} {a : App} (ha : s.app j = some a) (hid : a.id ≠ m.id)
    (controls : List Control) :
    (onControls env m (s.retrieve m.id) s controls).1.app j = some a := by
  refine keeps_onControls (fun hj => hid ?_) s controls a ha
  have hown := retrieve_id hj
  rw [ha] at hown
  exact Option.some.inj hown

end Others

theorem decode_of_ownId {b : IdBuffer} (hb : b.decodelen = 20) {o : ControlObject} {d : Digest}
    (ho : o.ownId = some d) : (b.decode o.idText).id = d ∧ (b.decode o.idText).decodelen = 20 := by
  obtain ⟨w, hw, hd⟩ := Option.bind_eq_some_iff.mp ho
  split_ifs at hd with hlen
  obtain rfl := Option.some.inj hd
  have hbuf : b.id.1.length = b.decodelen := b.id.2.trans hb.symm
  have hinto := Base64.decodeInto_of_decodeAlloc hw (hlen.trans b.id.2.symm)
  rw [hbuf] at hinto
  refine ⟨Subtype.ext ?_, ?_⟩
  · simp only [IdBuffer.decode, hinto]
  · change (Base64.decodeInto o.idText b.id.1 b.decodelen).2.2 = 20
    rw [hinto]
    exact hb

theorem lookups_own {b : IdBuffer} (hb : b.decodelen = 20) {l : List ControlObject}
    (hl : ∀ o ∈ l, o.ownId.isSome = true) :
    ∀ p ∈ lookups isOther b l, p.1.ownId = some p.2 := by
  induction l generalizing b with
  | nil => nofun
  | cons o l ih =>
    obtain ⟨d, hd⟩ := Option.isSome_iff_exists.mp (hl o List.mem_cons_self)
    obtain ⟨hid, hlen⟩ := decode_of_ownId hb hd
    intro p hp
    unfold lookups at hp
    dsimp only at hp
    split_ifs at hp
    · cases hp
    · rcases List.mem_cons.mp hp with rfl | hp
      · rw [hid]
        exact hd
      · exact ih hlen (fun o ho => hl o (List.mem_cons_of_mem _ ho)) p hp

theorem exists_lookup (b : IdBuffer) {l : List ControlObject} {o : ControlObject} (ho : o ∈ l) :
    ∃ id, (o, id) ∈ lookups (fun _ => false) b l := by
  induction l generalizing b with
  | nil => cases ho
  | cons x l ih =>
    simp only [lookups, Bool.false_eq_true, if_false, List.mem_cons]
    rcases List.mem_cons.mp ho with rfl | ho
    · exact ⟨_, .inl rfl⟩
    · obtain ⟨id, hid⟩ := ih (b.decode x.idText) ho
      exact ⟨id, .inr hid⟩

theorem eq_of_affects {s : State} {id app : Digest} {o : ControlObject} (h : Affects s id o app) :
    app = id := by
  rcases h with ⟨k, hk, happ⟩ | ⟨-, -, heq, -⟩
  · exact Option.some.inj (happ.symm.trans (retrieve_id hk))
  · exact heq

theorem exists_affects (id : Digest) (o : ControlObject) : ∃ s, Affects s id o id := by
  let a : App := ⟨id, [], HashMap.empty, none, [], .new ⟨1, [], by decide⟩⟩
  refine ⟨{ init [] with heap := [a], records := [0] }, .inl ⟨0, ?_, rfl⟩⟩
  simp [State.retrieve, State.hasId, State.app, a]

/-- The objects of an event act for their own applications exactly if the text of each that is
handled decodes to an identifier. -/
theorem actsForItself_iff (l : List (Option ControlObject)) :
    ActsForItself l ↔ ∀ o ∈ handled l, o.ownId.isSome = true := by
  constructor
  · intro h o ho
    obtain ⟨id, hid⟩ := exists_lookup (.start ⟨List.replicate 20 0, rfl⟩) ho
    obtain ⟨s, hs⟩ := exists_affects id o
    rw [h _ _ (o, id) hid s id hs]
    rfl
  · intro h junk isOther p hp s app haff
    rw [eq_of_affects haff]
    exact lookups_own rfl h p hp

end ApplicationManager

namespace Sample

open ApplicationManager

/-- One application whose control message names it, and then one whose message names nobody and
wants to deregister. -/
def borrowedId : List (Option ControlObject) :=
  [some ⟨lit "AAAAAAAAAAAAAAAAAAAAAAAAAAA=", lit "a", some [.sendNodeDescription]⟩,
    some ⟨[], lit "b", some [.deregistrationNotice]⟩]

/-- The application of the first message is the only one. -/
def onlyApplication : State :=
  { init [] with heap := [newApp applications (firstBytes []) (lit "a")], records := [0] }

theorem not_actsForItself_borrowedId : ¬ActsForItself borrowedId ∧
    (onReceiveObjects applications (fun _ => false) (.start (firstBytes [])) onlyApplication
      borrowedId).log = [.deregistered (firstBytes [])] := by
  refine ⟨fun h => ?_, by decide⟩
  have haff : Affects onlyApplication (firstBytes [])
      ⟨[], lit "b", some [.deregistrationNotice]⟩ (firstBytes []) := .inl ⟨0, by decide, by decide⟩
  have hmem : (⟨[], lit "b", some [.deregistrationNotice]⟩, firstBytes []) ∈
      lookups (fun _ => false) (.start (firstBytes [])) (handled borrowedId) :=
    .tail _ (.head _)
  have hown := h _ _ _ hmem _ _ haff
  exact absurd hown (by decide)

end Sample
end Haggle
