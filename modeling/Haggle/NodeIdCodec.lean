import Haggle.Address
import Haggle.RoutingUpdates

/-!
# Node identifiers as text

A node identifier of twenty bytes is printed as forty hexadecimal digits. Two decoders read it back:
`create_with_id` calculates with the characters, over ranges that are open at both ends, and
`strIdToRaw` hands two characters at a time to `strtol`. Both agree on digits, and neither finds out
that a character is none.
-/

namespace Haggle
namespace Node

section Decoders

/-- `calcIdStr`. -/
def calcIdStr (id : Digest) : Bytes := id.1.flatMap Interface.hexByte

/-- The array `iD` of `create_with_id`; there is none for a null pointer or a string of another
length. -/
def parseIdStr : Option Bytes → Option Digest
  | none => none
  | some idStr =>
    if h : (cStr idStr).length = 40 then
      some ⟨fromHex (cStr idStr), length_fromHex_cStr h⟩
    else none

/-- What `init_node` leaves in `id`. The node of the device has its `own` one, and a node that is
not known has none. -/
def initId (own : Digest) (type : NodeType) (id : Digest) : Digest :=
  match type with
  | .localDevice => own
  | .undefined => .fill 0
  | _ => id

/-- `create_with_id` from a string, which makes no application node: the type and the identifier of
the node. -/
def createWithIdStr (own : Digest) (type : NodeType) (idStr : Option Bytes) :
    Option (NodeType × Digest) :=
  (parseIdStr idStr).bind fun iD =>
    match type with
    | .application => none
    | type => some (type, initId own type iD)

/-- Two characters, as a string, read by `strtol` with the base 16. -/
def rawByte (a b : UInt8) : UInt8 := (Mac.strtolByte (cStr [a, b])).getD 0

/-- The loop of `strIdToRaw`. There is nothing to be read behind the end of the string. -/
def rawBytes : ℕ → Bytes → Option Bytes
  | 0, _ => some []
  | j + 1, a :: b :: l => (rawBytes j l).map (rawByte a b :: ·)
  | _ + 1, _ => none

/-- `strIdToRaw`. -/
def strIdToRaw (strId : Bytes) : Option Bytes := rawBytes 20 (cStr strId ++ [0])

/-- Forty hexadecimal digits, in any mix of cases. -/
def HexId (idStr : Bytes) : Prop :=
  (cStr idStr).length = 40 ∧ ∀ c ∈ cStr idStr, (Mac.hexVal c).isSome

instance (idStr : Bytes) : Decidable (HexId idStr) := inferInstanceAs (Decidable (_ ∧ _))

end Decoders

section Digits

/-- What is a digit for `strtol` has the same value in `create_with_id`, and it is no character that
could stand in front of a number. -/
theorem hexVal_eq_some {c : UInt8} {v : ℕ} (h : Mac.hexVal c = some v) :
    v < 16 ∧ hexValue c = v.toUInt8 ∧ c ≠ 0 ∧ isSpace c = false ∧ c ≠ 45 ∧ c ≠ 43 ∧
      c ≠ 120 ∧ c ≠ 88 := by
  have hall : ∀ n < 256, ∀ v ∈ Mac.hexVal n.toUInt8, v < 16 ∧ hexValue n.toUInt8 = v.toUInt8 ∧
      n.toUInt8 ≠ 0 ∧ isSpace n.toUInt8 = false ∧ n.toUInt8 ≠ 45 ∧ n.toUInt8 ≠ 43 ∧
      n.toUInt8 ≠ 120 ∧ n.toUInt8 ≠ 88 := by decide +kernel
  have hc := hall c.toNat c.toNat_lt v
  have hback : c.toNat.toUInt8 = c := by simp
  rw [hback] at hc
  exact hc h

theorem hexVal_hexDigit {n : ℕ} (h : n < 16) : Mac.hexVal (Interface.hexDigit n) = some n := by
  have hall : ∀ n < 16, Mac.hexVal (Interface.hexDigit n) = some n := by decide
  exact hall n h

theorem rawByte_of_digits {a b : UInt8} {v w : ℕ} (ha : Mac.hexVal a = some v)
    (hb : Mac.hexVal b = some w) : rawByte a b = hexValue a * 16 + hexValue b := by
  obtain ⟨hv, hva, ha0, haspace, haminus, haplus, -, -⟩ := hexVal_eq_some ha
  obtain ⟨hw, hwb, hb0, -, -, -, hbx, hbX⟩ := hexVal_eq_some hb
  have hstr : cStr [a, b] = [a, b] := by simp [cStr, ha0, hb0]
  have hdrop : [a, b].dropWhile isSpace = [a, b] := by simp [haspace]
  have hdigits : Mac.hexDigits [a, b] = [a, b] := by simp [Mac.hexDigits, ha, hb]
  have hnumber : Mac.hexNumber [a, b] = 16 * v + w := by simp [Mac.hexNumber, ha, hb]
  have hprefix : ¬ (([a, b].take 2 = lit "0x" ∨ [a, b].take 2 = lit "0X") ∧
      Mac.hexDigits ([a, b].drop 2) ≠ []) := by
    simp [Mac.hexDigits]
  have hparse : Mac.strtolByte [a, b] = some (16 * v + w).toUInt8 := by
    unfold Mac.strtolByte
    simp only [hdrop, List.head?_cons, Option.some.injEq, haminus, haplus, or_self, if_false,
      hprefix, hdigits, hnumber, reduceCtorEq]
    congr 2
    omega
  rw [rawByte, hstr, hparse, Option.getD_some, hva, hwb]
  apply UInt8.toNat_inj.mp
  simp only [Nat.toUInt8, UInt8.toNat_add, UInt8.toNat_mul, UInt8.toNat_ofNat']
  change (16 * v + w) % 256 = (v % 256 * 16 % 256 + w % 256) % 256
  omega

/-- On pairs of digits both loops do the same. -/
theorem rawBytes_of_digits {n : ℕ} {s : Bytes} (hlen : s.length = 2 * n)
    (hs : ∀ c ∈ s, (Mac.hexVal c).isSome) (l : Bytes) :
    rawBytes n (s ++ l) = some (fromHex s) := by
  induction n generalizing s with
  | zero =>
    obtain rfl := List.length_eq_zero_iff.mp hlen
    rfl
  | succ n ih =>
    match s, hlen with
    | a :: b :: s, hlen =>
      obtain ⟨v, hv⟩ := Option.isSome_iff_exists.mp (hs a (by simp))
      obtain ⟨w, hw⟩ := Option.isSome_iff_exists.mp (hs b (by simp))
      have hlen' : s.length = 2 * n := by
        simp only [List.length_cons] at hlen
        omega
      rw [List.cons_append, List.cons_append, rawBytes, ih hlen' fun c hc => hs c (by simp [hc]),
        Option.map_some, rawByte_of_digits hv hw, fromHex]

theorem parseIdStr_of_hexId {idStr : Bytes} (h : HexId idStr) :
    ∃ id, parseIdStr (some idStr) = some id ∧ strIdToRaw idStr = some id.1 := by
  refine ⟨_, dif_pos h.1, ?_⟩
  exact rawBytes_of_digits h.1 h.2 [0]

end Digits

section Printed

theorem hexVal_of_mem_calcIdStr {id : Digest} {c : UInt8} (hc : c ∈ calcIdStr id) :
    (Mac.hexVal c).isSome := by
  obtain ⟨b, -, hb⟩ := List.mem_flatMap.mp hc
  have hlt := b.toNat_lt
  simp only [Interface.hexByte, List.mem_cons, List.not_mem_nil, or_false] at hb
  rcases hb with rfl | rfl
  · rw [hexVal_hexDigit (by omega)]
    rfl
  · rw [hexVal_hexDigit (by omega)]
    rfl

theorem cStr_calcIdStr (id : Digest) : cStr (calcIdStr id) = calcIdStr id := by
  apply List.takeWhile_eq_self_iff.mpr
  intro c hc
  obtain ⟨v, hv⟩ := Option.isSome_iff_exists.mp (hexVal_of_mem_calcIdStr hc)
  exact decide_eq_true (hexVal_eq_some hv).2.2.1

theorem length_calcIdStr (id : Digest) : (calcIdStr id).length = 40 := by
  have hmap : id.1.map (fun b => (Interface.hexByte b).length) = List.replicate 20 2 := by
    rw [List.eq_replicate_iff, List.length_map]
    refine ⟨id.2, fun k hk => ?_⟩
    obtain ⟨b, -, rfl⟩ := List.mem_map.mp hk
    rfl
  rw [calcIdStr, List.length_flatMap, hmap]
  rfl

theorem hexId_calcIdStr (id : Digest) : HexId (calcIdStr id) := by
  rw [HexId, cStr_calcIdStr]
  exact ⟨length_calcIdStr id, fun c => hexVal_of_mem_calcIdStr⟩

theorem parseIdStr_calcIdStr (id : Digest) : parseIdStr (some (calcIdStr id)) = some id := by
  have hlen : (cStr (calcIdStr id)).length = 40 := (hexId_calcIdStr id).1
  simp only [parseIdStr, hlen, dite_true]
  congr 1
  apply Subtype.ext
  simp only [cStr_calcIdStr]
  exact fromHex_hexByte id.1

end Printed

section Codec

theorem createWithIdStr_of_takes {own : Digest} {type : NodeType}
    (htype : type = .peer ∨ type = .gateway) (idStr : Option Bytes) :
    createWithIdStr own type idStr = (parseIdStr idStr).map fun id => (type, id) := by
  rcases htype with rfl | rfl <;> cases h : parseIdStr idStr <;> simp [createWithIdStr, h, initId]

/-- Every string of forty characters is taken, whatever they are. -/
theorem createWithIdStr_eq_none_iff (own : Digest) (type : NodeType) (idStr : Bytes) :
    createWithIdStr own type (some idStr) = none ↔
      (cStr idStr).length ≠ 40 ∨ type = .application := by
  by_cases h : (cStr idStr).length = 40
  · cases type <;> simp [createWithIdStr, parseIdStr, h]
  · simp [createWithIdStr, parseIdStr, h]

/-- Both decoders recover what was printed and agree on forty digits. A string that is no identifier
is refused exactly when its length is another one, or when no node of the type is made of a string
at all. -/
theorem idStrCodec_iff (own : Digest) {type : NodeType} (htype : type = .peer ∨ type = .gateway) :
    (∀ id, createWithIdStr own type (some (calcIdStr id)) = some (type, id) ∧
        strIdToRaw (calcIdStr id) = some id.1) ∧
      (∀ idStr, HexId idStr → ∃ id, createWithIdStr own type (some idStr) = some (type, id) ∧
        strIdToRaw idStr = some id.1) ∧
      ∀ (type' : NodeType) (idStr : Bytes),
        (¬ HexId idStr → createWithIdStr own type' (some idStr) = none) ↔
          (cStr idStr).length ≠ 40 ∨ HexId idStr ∨ type' = .application := by
  refine ⟨fun id => ?_, fun idStr h => ?_, fun type' idStr => ?_⟩
  · obtain ⟨id', hparse, hraw⟩ := parseIdStr_of_hexId (hexId_calcIdStr id)
    obtain rfl := Option.some.inj ((parseIdStr_calcIdStr id).symm.trans hparse)
    rw [createWithIdStr_of_takes htype, hparse]
    exact ⟨rfl, hraw⟩
  · obtain ⟨id, hparse, hraw⟩ := parseIdStr_of_hexId h
    rw [createWithIdStr_of_takes htype, hparse]
    exact ⟨id, rfl, hraw⟩
  · rw [createWithIdStr_eq_none_iff]
    by_cases h : HexId idStr
    · exact iff_of_true (fun hnot => absurd h hnot) (.inr (.inl h))
    · simp only [h, not_false_eq_true, forall_const, false_or]

end Codec
end Node

namespace Sample

/-- Twenty bytes, the first of them 171. -/
def sampleNodeId : Digest := ⟨171 :: List.replicate 19 0, rfl⟩

/-- The same identifier with its letters in both cases. -/
example : Node.parseIdStr (some (lit "aB00000000000000000000000000000000000000")) =
      some sampleNodeId ∧
    Node.strIdToRaw (lit "aB00000000000000000000000000000000000000") = some sampleNodeId.1 := by
  simp only [lit_ofList]
  decide

theorem idStrCodec_peer :
    Node.createWithIdStr sampleNodeId .peer (some (Node.calcIdStr sampleNodeId)) =
        some (.peer, sampleNodeId) ∧
      Node.strIdToRaw (Node.calcIdStr sampleNodeId) = some sampleNodeId.1 :=
  (Node.idStrCodec_iff sampleNodeId (.inl rfl)).1 sampleNodeId

/-- Forty letters of which none is a digit make a node. -/
theorem not_refused_letters : ¬ Node.HexId (List.replicate 40 71) ∧
    Node.createWithIdStr sampleNodeId .peer (some (List.replicate 40 71)) ≠ none := by
  decide

end Sample
end Haggle
