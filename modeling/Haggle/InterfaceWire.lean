import Haggle.Address
import Haggle.MetadataRoundTrip

/-!
# Interfaces as metadata

An interface is written with its type, its identifier and its addresses; its name is left out. The
reader looks for the name where a MAC address may stand, and hands an identifier to constructors
that are not told how long it is.
-/

namespace Haggle

/-- `Interface` with its name, and with its addresses in full. -/
structure InterfaceData where
  type : InterfaceType
  identifier : Bytes
  name : Bytes
  addresses : List Address

namespace InterfaceData

/-- `typestr`. -/
def typeToStr : InterfaceType → Bytes
  | .undefined => lit "undefined"
  | .applicationPort => lit "application[port]"
  | .applicationLocal => lit "application[local]"
  | .ethernet => lit "ethernet"
  | .wifi => lit "wifi"
  | .bluetooth => lit "bluetooth"
  | .media => lit "media"

def types : List InterfaceType :=
  [.undefined, .applicationPort, .applicationLocal, .ethernet, .wifi, .bluetooth, .media]

def strToType (str : Bytes) : InterfaceType :=
  (types.find? fun t => typeToStr t = str).getD .undefined

/-- `DEFAULT_INTERFACE_NAME`. -/
def defaultName : Bytes := lit "Unnamed Interface"

/-- The identifiers that interfaces of a type have: a port, an address of six bytes, or a path that
is a string and has room where it is kept. -/
def Identifies : InterfaceType → Bytes → Prop
  | .undefined, _ => False
  | .applicationPort, b => b.length = 2
  | .ethernet, b | .wifi, b | .bluetooth, b => b.length = 6
  | .applicationLocal, b => 0 ∉ b ∧ b.length < 108
  | .media, b => 0 ∉ b

/-- `addAddress`; merging with an equal address changes nothing. -/
def addAddress (l : List Address) (addr : Address) : List Address :=
  if l.any addr.equal then l else addr :: l

def addAddresses (l addrs : List Address) : List Address := addrs.foldl addAddress l

/-- The identifier that `create` gives to an interface. Without one the constructors for paths and
ports use a null pointer, and the other ones leave their buffer as it is. -/
def createIdentifier (mem : Memory) (type : InterfaceType) : Option Bytes → Reading Bytes
  | some identifier =>
    match Interface.create mem type identifier with
    | some i => .tree i.identifier
    | none => .failed
  | none =>
    match type with
    | .undefined => .failed
    | .ethernet | .wifi | .bluetooth => .tree (mem.junk.take 6)
    | .applicationPort | .applicationLocal | .media => .fault

/-- The pointer to the identifier that is read, or nothing if one cannot be parsed. -/
def readIdentifier (m : Metadata) : Option (Option Bytes) :=
  match m.getParameter (lit "identifier") with
  | some param => (Base64.decodeAlloc param).map some
  | none =>
    match m.getParameter (lit "mac") with
    | some param => (Mac.strToMac param).map fun mac => some mac.1
    | none => some none

variable (mem : Memory) (inet : Inet) (cfg : Config)

def fromMetadata (m : Metadata) : Reading InterfaceData :=
  if m.name = lit "Interface" then
    match m.getParameter (lit "type") with
    | none => .failed
    | some param =>
      let type := strToType param
      if type = .undefined then .failed
      else
        match readIdentifier m with
        | none => .failed
        | some identifier =>
          let addrs := (m.getAll (lit "Address")).filterMap (Address.fromMetadata inet cfg)
          match createIdentifier mem type identifier with
          | .fault => .fault
          | .failed => .failed
          | .tree identifier =>
            -- `INTERFACE_METADATA_NAME_PARAM` is "mac" as well.
            .tree ⟨type, identifier, (m.getParameter (lit "mac")).getD defaultName,
              addAddresses [] addrs⟩
  else .failed

def toMetadata (i : InterfaceData) : Metadata :=
  let m := ((Metadata.new (lit "Interface") []).setParameter (lit "type")
    (typeToStr i.type)).setParameter (lit "identifier") (Base64.encode i.identifier)
  i.addresses.foldl (fun m a => m.addMetadata (a.toMetadata inet)) m

variable {mem inet cfg} {i : InterfaceData}

theorem strToType_typeToStr (t : InterfaceType) : strToType (typeToStr t) = t := by
  cases t <;> decide

theorem name_address (a : Address) : (Address.toMetadata inet a).name = lit "Address" :=
  (Address.params_toMetadata a).1

theorem valid_address (a : Address) : (Address.toMetadata inet a).Valid := by
  have hport : ∀ type param n, (Transport.portMetadata type param n).Valid := fun _ _ _ =>
    Metadata.valid_setParameter (Metadata.valid_setParameter (Metadata.valid_new _ _) _ _) _ _
  have hnew := Metadata.valid_new (lit "Address") [] (c := .signed)
  have hroot := Metadata.valid_setParameter (Metadata.valid_setParameter hnew (lit "net")
    (Address.getStr inet a)) (lit "type") (Address.typeToStr a.type)
  unfold Address.toMetadata
  cases ht : a.transport with
  | none => exact hroot
  | rfcomm channel => exact Metadata.valid_addMetadata hroot (hport _ _ _)
  | udp port => exact Metadata.valid_addMetadata hroot (hport _ _ _)
  | tcp port => exact Metadata.valid_addMetadata hroot (hport _ _ _)

theorem foldl_addMetadata (addrs : List Address) {m : Metadata} (hm : m.Valid) :
    let m' := addrs.foldl (fun m a => m.addMetadata (Address.toMetadata inet a)) m
    m'.Valid ∧ m'.name = m.name ∧ m'.params = m.params ∧
      m'.getAll (lit "Address") =
        m.getAll (lit "Address") ++ addrs.map (Address.toMetadata inet) := by
  induction addrs generalizing m with
  | nil => exact ⟨hm, rfl, rfl, (List.append_nil _).symm⟩
  | cons a addrs ih =>
    obtain ⟨hvalid, hname, hparams, hall⟩ := ih (Metadata.valid_addMetadata hm (valid_address a))
    refine ⟨hvalid, hname, hparams, ?_⟩
    rw [List.foldl_cons, hall, Metadata.getAll_addMetadata hm, if_pos (name_address a),
      List.append_assoc]
    rfl

theorem toMetadata_fields (inet : Inet) (i : InterfaceData) : (toMetadata inet i).Valid ∧
    (toMetadata inet i).name = lit "Interface" ∧
      (toMetadata inet i).params = [(lit "type", typeToStr i.type),
        (lit "identifier", Base64.encode i.identifier)] ∧
      (toMetadata inet i).getAll (lit "Address") = i.addresses.map (Address.toMetadata inet) := by
  have hnew := Metadata.valid_new (lit "Interface") [] (c := .signed)
  have hroot := Metadata.valid_setParameter (Metadata.valid_setParameter hnew (lit "type")
    (typeToStr i.type)) (lit "identifier") (Base64.encode i.identifier)
  obtain ⟨hvalid, hname, hparams, hall⟩ := @foldl_addMetadata inet i.addresses _ hroot
  have hnone : (((Metadata.new (lit "Interface") []).setParameter (lit "type")
      (typeToStr i.type)).setParameter (lit "identifier") (Base64.encode i.identifier)).getAll
        (lit "Address") = [] :=
    Metadata.getAll_new (lit "Interface") [] (lit "Address")
  rw [hnone, List.nil_append] at hall
  exact ⟨hvalid, hname, hparams, hall⟩

theorem mem_addAddresses {addrs l : List Address} {a : Address} :
    a ∈ addAddresses l addrs ↔ a ∈ l ∨ a ∈ addrs := by
  induction addrs generalizing l with
  | nil => simp [addAddresses]
  | cons b addrs ih =>
    have hone : a ∈ addAddress l b ↔ a ∈ l ∨ a = b := by
      unfold addAddress
      split_ifs with hb
      · obtain ⟨c, hc, heq⟩ := List.any_eq_true.mp hb
        obtain rfl := Address.equal_iff.mp heq
        exact ⟨.inl, fun h => h.elim id fun h => h ▸ hc⟩
      · rw [List.mem_cons, or_comm]
    rw [addAddresses, List.foldl_cons, ← addAddresses, ih, hone, List.mem_cons, or_assoc]

/-- What is read of an interface that was written. -/
theorem fromMetadata_toMetadata (hinet : inet.Lawful) (hi : i.type ≠ .undefined) :
    fromMetadata mem inet cfg (toMetadata inet i) =
      match createIdentifier mem i.type (some i.identifier) with
      | .fault => .fault
      | .failed => .failed
      | .tree identifier => .tree ⟨i.type, identifier, defaultName,
          addAddresses [] (i.addresses.filterMap (Address.readBack cfg))⟩ := by
  obtain ⟨-, hname, hparams, hall⟩ := toMetadata_fields inet i
  have htype : (toMetadata inet i).getParameter (lit "type") = some (typeToStr i.type) := by
    rw [Metadata.getParameter, hparams]
    rfl
  have hid : (toMetadata inet i).getParameter (lit "identifier") =
      some (Base64.encode i.identifier) := by
    rw [Metadata.getParameter, hparams]
    rfl
  have hmac : (toMetadata inet i).getParameter (lit "mac") = none := by
    rw [Metadata.getParameter, hparams]
    rfl
  have hread : readIdentifier (toMetadata inet i) = some (some i.identifier) := by
    rw [readIdentifier, hid]
    simp only [Base64.decodeAlloc_encode, Option.map_some]
  have haddrs : ((toMetadata inet i).getAll (lit "Address")).filterMap
      (Address.fromMetadata inet cfg) = i.addresses.filterMap (Address.readBack cfg) := by
    rw [hall, List.filterMap_map]
    congr 1
    funext a
    exact Address.fromMetadata_toMetadata hinet a
  rw [fromMetadata, if_pos hname, htype]
  simp only [strToType_typeToStr, if_neg hi, hread, haddrs, hmac, Option.getD_none]

/-- What the round trip is to give. -/
def RoundTrips (mem : Memory) (inet : Inet) (cfg : Config) (i : InterfaceData) : Prop :=
  ∃ i', fromMetadata mem inet cfg (toMetadata inet i) = .tree i' ∧ i'.type = i.type ∧
    i'.identifier = i.identifier ∧ i'.name = i.name ∧ ∀ a, a ∈ i'.addresses ↔ a ∈ i.addresses

/-- The classes of addresses that can be read. -/
def Reads (cfg : Config) : AddressType → Prop
  | .ethernet => cfg.ethernet = true
  | .bluetooth => cfg.bluetooth = true
  | .ipv4 | .ipv4Broadcast => True
  | .ipv6 | .ipv6Broadcast => cfg.ipv6 = true
  | .undefined | .ethernetBroadcast | .filepath | .unix => False

/-- The interface has the name that is given to one without a name; a path is followed by a zero
where it was decoded; and each address can be read and has no transport. -/
structure Restorable (mem : Memory) (cfg : Config) (i : InterfaceData) : Prop where
  name : i.name = defaultName
  path : i.type = .applicationLocal ∨ i.type = .media → cStr mem.behind = []
  addresses : ∀ a ∈ i.addresses, Reads cfg a.type ∧ a.transport = .none

theorem readBack_iff (a : Address) :
    Address.readBack cfg a = some a ↔ Reads cfg a.type ∧ a.transport = .none := by
  cases a <;> simp [Address.readBack, Reads, Address.type, Address.transport,
    @eq_comm _ Transport.none]

/-- A set of addresses comes back if each of them does. -/
theorem addresses_iff (addrs : List Address) :
    (∀ a, a ∈ addAddresses [] (addrs.filterMap (Address.readBack cfg)) ↔ a ∈ addrs) ↔
      ∀ a ∈ addrs, Reads cfg a.type ∧ a.transport = .none := by
  simp only [mem_addAddresses, List.not_mem_nil, false_or, List.mem_filterMap]
  constructor
  · intro h a ha
    obtain ⟨b, -, hb⟩ := (h a).mpr ha
    exact (readBack_iff a).mp (Address.readBack_readBack hb)
  · intro h a
    constructor
    · rintro ⟨b, hb, hread⟩
      rw [(readBack_iff b).mpr (h b hb)] at hread
      exact Option.some.inj hread ▸ hb
    · exact fun ha => ⟨a, ha, (readBack_iff a).mpr (h a ha)⟩

theorem cStr_append {b behind : Bytes} (hb : 0 ∉ b) : cStr (b ++ behind) = b ++ cStr behind := by
  rw [cStr, List.takeWhile_append_of_pos, cStr]
  intro c hc
  simpa using fun h : c = 0 => hb (h ▸ hc)

/-- The identifier comes back unless it is a path and there is more of a string behind it. -/
theorem createIdentifier_iff (hmem : 108 ≤ mem.junk.length) (hi : Identifies i.type i.identifier) :
    createIdentifier mem i.type (some i.identifier) = .tree i.identifier ↔
      (i.type = .applicationLocal ∨ i.type = .media → cStr mem.behind = []) := by
  have htake : ∀ {n : ℕ}, i.identifier.length = n →
      (i.identifier ++ mem.behind).take n = i.identifier := fun h => h ▸ List.take_left
  cases ht : i.type with
  | undefined =>
    rw [ht] at hi
    exact hi.elim
  | applicationPort =>
    rw [ht] at hi
    simp [createIdentifier, Interface.create, htake hi]
  | ethernet =>
    rw [ht] at hi
    simp [createIdentifier, Interface.create, htake hi]
  | wifi =>
    rw [ht] at hi
    simp [createIdentifier, Interface.create, htake hi]
  | bluetooth =>
    rw [ht] at hi
    simp [createIdentifier, Interface.create, htake hi]
  | media =>
    rw [ht] at hi
    simp [createIdentifier, Interface.create, cStr_append hi]
  | applicationLocal =>
    rw [ht] at hi
    obtain ⟨hzero, hlen⟩ := hi
    simp only [createIdentifier, Interface.create, cStr_append hzero, Reading.tree.injEq]
    split_ifs with hroom
    · simp
    · -- What is left in the buffer is longer than the identifier.
      have hne : mem.junk.take (i.identifier ++ cStr mem.behind).length ≠ i.identifier := by
        intro h
        have hjunk := congrArg List.length h
        rw [List.length_take] at hjunk
        omega
      have hbehind : cStr mem.behind ≠ [] := by
        intro h
        rw [h, List.append_nil] at hroom
        exact hroom hlen
      exact ⟨fun h => absurd h hne, fun h => absurd (h (.inl trivial)) hbehind⟩

/-- An interface comes back exactly if it is restorable. -/
theorem roundTrips_iff_restorable (hinet : inet.Lawful) (hmem : 108 ≤ mem.junk.length)
    (hi : Identifies i.type i.identifier) :
    RoundTrips mem inet cfg i ↔ Restorable mem cfg i := by
  have htype : i.type ≠ .undefined := by
    intro h
    rw [h] at hi
    exact hi
  have hread := @fromMetadata_toMetadata mem inet cfg i hinet htype
  have hid := createIdentifier_iff hmem hi
  have haddrs := @addresses_iff cfg i.addresses
  constructor
  · rintro ⟨i', heq, -, hidentifier, hname, hset⟩
    rw [hread] at heq
    cases hc : createIdentifier mem i.type (some i.identifier) with
    | fault =>
      rw [hc] at heq
      cases heq
    | failed =>
      rw [hc] at heq
      cases heq
    | tree identifier =>
      rw [hc] at heq
      obtain rfl := Reading.tree.inj heq
      obtain rfl : identifier = i.identifier := hidentifier
      exact ⟨hname.symm, hid.mp hc, haddrs.mp hset⟩
  · rintro ⟨hname, hpath, haddresses⟩
    rw [hid.mpr hpath] at hread
    exact ⟨_, hread, rfl, rfl, hname.symm, haddrs.mpr haddresses⟩

end InterfaceData

namespace Sample

open InterfaceData

/-- The texts of addresses, with each byte as two digits. -/
def hexInet : Inet where
  ntop4 ip := Interface.macStr ip.1
  pton4 s := if h : (Mac.groups true s).length = 4 then some ⟨Mac.groups true s, h⟩ else none
  ntop6 ip := Interface.macStr ip.1
  pton6 s := if h : (Mac.groups true s).length = 16 then some ⟨Mac.groups true s, h⟩ else none

def clearMemory : Memory := ⟨[], List.replicate 108 0⟩

def allConfigured : Config := ⟨true, true, true, true⟩

end Sample
end Haggle
