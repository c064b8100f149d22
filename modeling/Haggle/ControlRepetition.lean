import Haggle.ApplicationManager
import Haggle.LocalFilter
import Haggle.ReceiveDataObject

/-!
# Repeated control messages

A receiver puts the identifier of each object that it accepts into the filter of this node. The
application manager takes control objects out again, which only a counting filter can do. The filter
of this node is never one: it is plain when it is made, and is replaced by plain ones.
-/

namespace Haggle

namespace Bloomfilter

variable {sha1 : Bytes → Digest}

theorem wf_add {bf : Bloomfilter} (hbf : bf.WF) (key : Digest) : (bf.add sha1 key).WF := by
  have hlen : ∀ (l : List ℕ) (bins : List (BitVec 8)),
      (l.foldl setBit bins).length = bins.length := by
    intro l
    induction l with
    | nil => exact fun _ => rfl
    | cons i l ih => exact fun bins => (ih _).trans (length_setBit bins i)
  exact ⟨hbf.pos, by rw [add, hlen]; exact hbf.bins⟩

/-- What was put into a filter. -/
def addAll (sha1 : Bytes → Digest) (bf : Bloomfilter) (ids : List Digest) : Bloomfilter :=
  ids.foldr (fun id f => f.add sha1 id) bf

end Bloomfilter

theorem CountingBloomfilter.wf_toNoncounting {bf : CountingBloomfilter} (hbf : bf.WF) :
    bf.toNoncounting.WF where
  pos := hbf.pos
  bins := by
    obtain ⟨q, hq⟩ := hbf.eight
    simp only [CountingBloomfilter.toNoncounting, List.length_map, List.length_range, hq]
    omega

/-- The class `Bloomfilter`, by its type. -/
inductive AnyFilter where
  | normal (bf : Bloomfilter)
  | counting (cbf : CountingBloomfilter)

namespace AnyFilter

variable (sha1 : Bytes → Digest)

def has (key : Digest) : AnyFilter → Bool
  | normal bf => bf.has sha1 key
  | counting cbf => cbf.has sha1 key

def add (key : Digest) : AnyFilter → AnyFilter
  | normal bf => normal (bf.add sha1 key)
  | counting cbf => counting (cbf.add sha1 key)

/-- `remove`: an object cannot be removed from a filter that does not count. -/
def remove (key : Digest) : AnyFilter → AnyFilter
  | normal bf => normal bf
  | counting cbf => counting (cbf.remove sha1 key)

def toNoncounting : AnyFilter → AnyFilter
  | normal bf => normal bf
  | counting cbf => normal cbf.toNoncounting

/-- `Node::getBloomfilter`, for a node that may have a filter already. -/
def getBloomfilter (isApplication : Bool) (shape : FilterShape) : Option AnyFilter → AnyFilter
  | some f => f
  | none => if isApplication then counting (.new shape) else normal (.new shape)

/-- What `receiveDataObject` does to the filter of this node when the header of an object is
complete. -/
def accept (f : AnyFilter) (id : Digest) : AnyFilter :=
  if f.has sha1 id then f else f.add sha1 id

end AnyFilter

/-- A control data object: its identifier, and what the application manager finds in it, unless it
has no interface, control attribute, application, identifier or name. -/
structure Delivery where
  id : Digest
  message : Option ApplicationManager.Message

open ApplicationManager (Control)

/-- `onReceiveFromApplication`, as far as the filter of this node goes. -/
def AnyFilter.onReceiveFromApplication (sha1 : Bytes → Digest) : AnyFilter → List Delivery →
    AnyFilter
  | f, [] => f
  | f, d :: ds =>
    match d.message with
    | none => f
    | some m =>
      if m.isOther then f
      else match m.controls with
        | none => f
        | some controls =>
          let f := if f.has sha1 d.id then f.remove sha1 d.id else f
          if controls.any (fun c => c matches .invalid) then f
          else onReceiveFromApplication sha1 f ds

/-- A filter of the repository is one that was stored. -/
def DataEvent.WF : DataEvent → Prop
  | .repository bf _ => bf.WF
  | _ => True

inductive FilterEvent where
  | header (id : Digest)
  | data (e : DataEvent) (h : e.WF)
  | control (ds : List Delivery)

/-- The local filter and the filter of this node; `base` is what the latter was when it was made or
replaced, and `since` are the identifiers that receivers have put into it since. -/
structure FilterState where
  localBF : CountingBloomfilter
  thisNode : AnyFilter
  base : AnyFilter
  since : List Digest

namespace FilterState

variable (sha1 : Bytes → Digest)

/-- An event of the data manager. `Node::setBloomfilter` makes a plain copy of the local filter, if
the event gets that far. -/
def onData (s : FilterState) (e : DataEvent) : FilterState :=
  let l := Ledger.step sha1 ⟨⟨s.localBF, s.localBF.toNoncounting⟩, [], [], false⟩ e
  if l.published then
    let f := (AnyFilter.counting l.dm.localBF).toNoncounting
    ⟨l.dm.localBF, f, f, []⟩
  else { s with localBF := l.dm.localBF }

def step (s : FilterState) : FilterEvent → FilterState
  | .header id => { s with
      thisNode := s.thisNode.accept sha1 id
      since := if s.thisNode.has sha1 id then s.since else id :: s.since }
  | .data e _ => s.onData sha1 e
  | .control ds => { s with thisNode := s.thisNode.onReceiveFromApplication sha1 ds }

/-- This node is a local device. -/
def start (shape : FilterShape) : FilterState :=
  let f := AnyFilter.getBloomfilter false shape none
  ⟨.new shape, f, f, []⟩

/-- The filter of this node if an identifier had not been put into it. -/
def without (s : FilterState) (id : Digest) : AnyFilter :=
  (s.since.filter (· ≠ id)).foldr (fun id f => f.add sha1 id) s.base

/-- The filter was replaced since a control object was accepted, or reports it in any case. -/
def Replaced (s : FilterState) : FilterEvent → Prop
  | .control ds => ∀ d ∈ ds, d.id ∉ s.since ∨ (s.without sha1 d.id).has sha1 d.id = true
  | _ => True

section Run

variable {sha1} {s : FilterState}

theorem onReceiveFromApplication_normal (bf : Bloomfilter) (ds : List Delivery) :
    (AnyFilter.normal bf).onReceiveFromApplication sha1 ds = .normal bf := by
  induction ds with
  | nil => rfl
  | cons d ds ih =>
    unfold AnyFilter.onReceiveFromApplication
    cases d.message with
    | none => rfl
    | some m =>
      have hremove : (if (AnyFilter.normal bf).has sha1 d.id then
          (AnyFilter.normal bf).remove sha1 d.id else .normal bf) = .normal bf := ite_self _
      dsimp only
      cases m.controls with
      | none => exact ite_self _
      | some controls =>
        dsimp only
        rw [hremove, ih]
        split_ifs <;> rfl

/-- The filter of this node is plain: what it was when it was replaced, and what was put in since.
-/
structure Inv (sha1 : Bytes → Digest) (s : FilterState) : Prop where
  wf : s.localBF.WF
  normal : ∃ bf : Bloomfilter, bf.WF ∧ s.base = .normal bf ∧
    s.thisNode = .normal (bf.addAll sha1 s.since)

theorem inv_start (shape : FilterShape) : Inv sha1 (start shape) :=
  ⟨CountingBloomfilter.wf_new shape, _, Bloomfilter.wf_new shape, rfl, rfl⟩

theorem wf_ledger {l : Ledger} (hl : l.dm.localBF.WF) {e : DataEvent} (he : e.WF) :
    (l.step sha1 e).dm.localBF.WF := by
  cases e with
  | incoming o =>
    simp only [Ledger.step, DataManager.onIncomingDataObject]
    split_ifs
    · exact hl
    · exact hl
    · exact CountingBloomfilter.wf_add hl o.id
  | verified o =>
    have hremove := @CountingBloomfilter.wf_remove sha1 _ hl o.id
    simp only [Ledger.step, DataManager.onVerifiedDataObject]
    split_ifs
    · exact hremove
    · exact hremove
    · exact hl
    · exact hl
    · exact hl
  | deleted os keep =>
    have hremoved : ∀ (ids : List Digest) {bf : CountingBloomfilter}, bf.WF →
        (ids.foldl (fun bf id => bf.remove sha1 id) bf).WF := by
      intro ids
      induction ids with
      | nil => exact fun hbf => hbf
      | cons id ids ih => exact fun hbf => ih (CountingBloomfilter.wf_remove hbf id)
    simp only [Ledger.step, DataManager.onDeletedDataObject]
    split_ifs <;> exact hremoved _ hl
  | aged => exact hl
  | repository bf ids => exact he
  | config shape =>
    cases shape with
    | none => exact hl
    | some shape => exact CountingBloomfilter.wf_new shape

theorem Inv.data (h : Inv sha1 s) {e : DataEvent} (he : e.WF) : Inv sha1 (s.onData sha1 e) := by
  have hwf := @wf_ledger sha1 ⟨⟨s.localBF, s.localBF.toNoncounting⟩, [], [], false⟩ h.wf e he
  unfold onData
  generalize Ledger.step sha1 ⟨⟨s.localBF, s.localBF.toNoncounting⟩, [], [], false⟩ e = l at hwf ⊢
  dsimp only
  split_ifs
  · exact ⟨hwf, _, CountingBloomfilter.wf_toNoncounting hwf, rfl, rfl⟩
  · exact ⟨hwf, h.normal⟩

theorem Inv.step (h : Inv sha1 s) (e : FilterEvent) : Inv sha1 (s.step sha1 e) := by
  cases e with
  | header id =>
    obtain ⟨bf, hbf, hbase, hthis⟩ := h.normal
    refine ⟨h.wf, bf, hbf, hbase, ?_⟩
    simp only [FilterState.step, AnyFilter.accept]
    split_ifs
    · exact hthis
    · rw [hthis]
      rfl
  | data e he => exact h.data he
  | control ds =>
    obtain ⟨bf, hbf, hbase, hthis⟩ := h.normal
    refine ⟨h.wf, bf, hbf, hbase, ?_⟩
    simp only [FilterState.step, hthis, onReceiveFromApplication_normal]

end Run

end FilterState

namespace Sample

end Sample
end Haggle
