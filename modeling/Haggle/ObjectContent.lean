import Haggle.ByteOrder
import Haggle.HashMapOrder
import Haggle.ObjectIdentity

/-!
# What the identifier is computed from

The identifier of a data object is the digest of its content: its attributes in iteration order, its
create time, and its payload. The fields are fed to SHA1 one behind the other, and nothing marks
where one ends and the next begins. Objects that agree in all of it are meant to be the same object:
their identifiers agree when their tables iterate over the attributes in the same order.
-/

namespace Haggle

/-- What stands for the payload. -/
inductive Payload
  | hash (digest : Bytes)
  | file (name : Bytes) (len : ℕ)
  | none
deriving DecidableEq

def Payload.bytes (pf : Platform) : Payload → Bytes
  | .hash digest => digest
  | .file name len => name ++ pf.sizeBytes len
  | .none => []

/-- Name, value and 32-bit weight of each attribute, the create time if it is valid, the payload. -/
structure Content where
  attrs : List (Bytes × Bytes × ℕ)
  time : Option Timeval
  payload : Payload
deriving DecidableEq

namespace DataObject

def payload (o : DataObject) : Payload :=
  if o.dataIsVerifiable then .hash o.dataHash
  else if o.filename ≠ [] ∧ 0 < o.dataLen then .file o.filename o.dataLen
  else .none

def content (o : DataObject) : Content where
  attrs := o.attrs.toList.map fun e => (e.2.name, e.2.value, e.2.weight % 2 ^ 32)
  time := if o.createTime.isValid then some o.createTime else none
  payload := o.payload

/-- The bytes that `calcId` feeds to SHA1. -/
def hashInput (pf : Platform) (o : DataObject) : Bytes :=
  o.attrs.toList.flatMap attrBytes ++ o.timeBytes ++ o.payloadBytes pf

theorem id_calcId (pf : Platform) (o : DataObject) : (calcId pf o).id = pf.sha1 (hashInput pf o) :=
  rfl

variable {pf : Platform} {o : DataObject}

theorem payloadBytes_eq (pf : Platform) (o : DataObject) :
    o.payloadBytes pf = o.payload.bytes pf := by
  unfold payloadBytes payload
  split
  · rfl
  · split <;> rfl

/-- What holds of every data object: the table of attributes is one that the operations build, and
`dataHash` is an array of 20 bytes. -/
structure IsObject (o : DataObject) : Prop where
  attrs : o.attrs.Sound
  hash : o.dataHash.length = 20

/-- No create time, no payload, and at most an attribute that is empty but for its weight. -/
structure Bare (o : DataObject) : Prop where
  time : o.createTime.isValid = false
  payload : o.payload = .none
  attrs : o.attrs.toList = [] ∨ ∃ e, o.attrs.toList = [e] ∧ e.2.name = [] ∧ e.2.value = []

theorem payloadBytes_of_none (h : o.payload = .none) : o.payloadBytes pf = [] := by
  rw [payloadBytes_eq, h]
  rfl

theorem Bare.hashInput_eq (h : Bare o) : hashInput pf o = o.attrs.toList.flatMap attrBytes := by
  simp [hashInput, timeBytes, h.time, payloadBytes_of_none h.payload]

/-- An object as it is parsed from metadata with one attribute and nothing else. -/
def single (a : Attribute) : DataObject :=
  { new [] (List.replicate 20 0) with attrs := Attributes.add HashMap.empty a }

theorem toList_single (a : Attribute) : (single a).attrs.toList = [(a.name, a)] := by
  have hnil : (HashMap.empty : Attributes).toList = [] := HashMap.toList_ofTableSize 7
  have hperm := HashMap.toList_insert_perm (m := (HashMap.empty : Attributes)) HashMap.wf_empty
    (a.name, a)
  rw [hnil] at hperm
  exact List.perm_singleton.mp hperm

end DataObject

namespace Sample

def host : Platform where
  lib := ⟨fun _ => none, fun _ => [], fun c => [.text c]⟩
  sha1 := firstBytes
  sizeBytes := ByteOrder.store .little 8
  uninit := ⟨0, 0⟩

end Sample

namespace DataObject

variable {pf : Platform} {o o' : DataObject}

theorem toList_eq_map {m : Attributes} (h : m.Sound) :
    m.toList = (m.toList.map Prod.snd).map fun a => (a.name, a) := by
  rw [List.map_map]
  conv_lhs => rw [← List.map_id m.toList]
  apply List.map_congr_left
  intro e he
  exact Prod.ext (h.distinct.1 e he) rfl

theorem nodup_toList {m : Attributes} (h : m.Sound) : m.toList.Nodup := by
  apply h.distinct.2.imp
  rintro e f hef rfl
  simp [Attribute.eq] at hef

theorem hashInput_eq_of_sameOrder (ho : o.IsObject) (ho' : o'.IsObject)
    (htime : o.createTime = o'.createTime) (hpayload : o.payload = o'.payload)
    (hattrs : (o.attrs.toList.map Prod.snd).Perm (o'.attrs.toList.map Prod.snd))
    (horder : HashMap.SameOrder o.attrs o'.attrs) : hashInput pf o = hashInput pf o' := by
  have hperm : o.attrs.toList.Perm o'.attrs.toList := by
    rw [toList_eq_map ho.attrs, toList_eq_map ho'.attrs]
    exact hattrs.map _
  have hlist : o.attrs.toList = o'.attrs.toList :=
    (HashMap.sameOrder_iff ho.attrs.wf ho'.attrs.wf (nodup_toList ho.attrs) hperm).mp horder
  rw [hashInput, hashInput, hlist, timeBytes, timeBytes, htime, payloadBytes_eq, payloadBytes_eq,
    hpayload]

theorem id_calcId_eq_of_sameOrder (pf : Platform) (ho : o.IsObject) (ho' : o'.IsObject)
    (htime : o.createTime = o'.createTime) (hpayload : o.payload = o'.payload)
    (hattrs : (o.attrs.toList.map Prod.snd).Perm (o'.attrs.toList.map Prod.snd))
    (horder : HashMap.SameOrder o.attrs o'.attrs) : (calcId pf o).id = (calcId pf o').id := by
  rw [id_calcId, id_calcId, hashInput_eq_of_sameOrder ho ho' htime hpayload hattrs horder]

theorem isObject_history (pf : Platform) (d : Draft) (cs : List Change) :
    (history pf d cs).IsObject :=
  ⟨(coherent_history pf d cs).sound, (coherent_history pf d cs).hash⟩

/-- Histories that end in the same content, in tables of the same order, end in the same
identifier. -/
theorem id_history_eq (pf : Platform) (d d' : Draft) (cs cs' : List Change)
    (htime : (history pf d cs).createTime = (history pf d' cs').createTime)
    (hpayload : (history pf d cs).payload = (history pf d' cs').payload)
    (hattrs : ((history pf d cs).attrs.toList.map Prod.snd).Perm
      ((history pf d' cs').attrs.toList.map Prod.snd))
    (horder : HashMap.SameOrder (history pf d cs).attrs (history pf d' cs').attrs) :
    (history pf d cs).id = (history pf d' cs').id := by
  have hinput : hashInput pf (history pf d cs) = hashInput pf (history pf d' cs') :=
    hashInput_eq_of_sameOrder (isObject_history pf d cs) (isObject_history pf d' cs') htime hpayload
      hattrs horder
  rw [(coherent_history pf d cs).id, (coherent_history pf d' cs').id, id_calcId, id_calcId, hinput]

end DataObject

namespace Sample

def addAll (names : List String) : List Change :=
  names.map fun n => .addAttribute (attr n) (weight_attr n)

def ab : DataObject := DataObject.history host draft (addAll ["a", "b"])

def ba : DataObject := DataObject.history host draft (addAll ["b", "a"])

/-- Its table has grown to 29 buckets. -/
def grown : DataObject := DataObject.history host draft twoChange

end Sample

namespace DataObject

theorem id_calcId_ab_ba : Sample.ab.attrs.toList = Sample.ba.attrs.toList ∧
    (calcId Sample.host Sample.ab).id = (calcId Sample.host Sample.ba).id := by
  refine ⟨by decide +kernel, ?_⟩
  apply id_calcId_eq_of_sameOrder Sample.host (isObject_history _ _ _) (isObject_history _ _ _)
  · decide
  · decide
  · decide
  · apply HashMap.sameOrder_of_spread
    · decide
    · decide
    · decide

/-- Six more attributes were added and removed again. -/
theorem id_calcId_ab_grown : Sample.ab.IsObject ∧ Sample.grown.IsObject ∧
    Sample.ab.createTime = Sample.grown.createTime ∧ Sample.ab.payload = Sample.grown.payload ∧
    (Sample.ab.attrs.toList.map Prod.snd).Perm (Sample.grown.attrs.toList.map Prod.snd) ∧
    (calcId Sample.host Sample.ab).id ≠ (calcId Sample.host Sample.grown).id := by
  refine ⟨isObject_history _ _ _, isObject_history _ _ _, by decide +kernel, by decide +kernel,
    by decide +kernel, by decide +kernel⟩

end DataObject
end Haggle
