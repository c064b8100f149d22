import Haggle.Metadata
import Haggle.Node

/-!
# Addresses and transports

An address is written as an element with its type and its text, and with an element for its
transport inside. Each class reads its own elements. Which classes there are depends on how the
program was configured.
-/

namespace Haggle

abbrev Octets (n : ℕ) := { b : Bytes // b.length = n }

inductive Transport
  | none
  | rfcomm (channel : UInt16)
  | udp (port : UInt16)
  | tcp (port : UInt16)
deriving DecidableEq

inductive TransportType
  | none
  | rfcomm
  | udp
  | tcp
deriving DecidableEq

namespace Transport

/-- `type_str`. -/
def typeToStr : TransportType → Bytes
  | .none => lit "none"
  | .rfcomm => lit "rfcomm"
  | .udp => lit "udp"
  | .tcp => lit "tcp"

def strToType (str : Bytes) : TransportType :=
  if str = lit "none" then .none
  else if str = lit "rfcomm" then .rfcomm
  else if str = lit "udp" then .udp
  else if str = lit "tcp" then .tcp
  else .none

/-- `snprintf(buf, 10, "%u", n)`. -/
def shortToStr (n : UInt16) : Bytes := (decimal n.toNat).take 9

def portMetadata (type : TransportType) (param : Bytes) (n : UInt16) : Metadata :=
  ((Metadata.new (lit "Transport") []).setParameter (lit "type") (typeToStr type)).setParameter
    param (shortToStr n)

def toMetadata : Transport → Option Metadata
  | .none => Option.none
  | .rfcomm channel => some (portMetadata .rfcomm (lit "channel") channel)
  | .udp port => some (portMetadata .udp (lit "port") port)
  | .tcp port => some (portMetadata .tcp (lit "port") port)

/-- The pointer that `strtoul` stores: to what is behind the number, or to the beginning if there is
no number. `none` is a null pointer. -/
def endptr (s : Bytes) : Option Bytes :=
  let t := s.dropWhile isSpace
  let u := if t.head? = some 45 ∨ t.head? = some 43 then t.tail else t
  some (if u.takeWhile isDigit = [] then s else u.dropWhile isDigit)

/-- A number in a parameter. The end pointer is compared with the character `\0`, that is, with a
null pointer. -/
def portFromMetadata (type : TransportType) (param : Bytes) (make : UInt16 → Transport)
    (m : Metadata) : Option Transport :=
  if m.name = lit "Transport" ∧ m.getParameter (lit "type") = some (typeToStr type) then
    match m.getParameter param with
    | some v =>
      if 0 < v.length ∧ endptr v = Option.none then some (make (strtoul v).toUInt16)
      else Option.none
    | Option.none => Option.none
  else Option.none

/-- `TransportUDP::fromMetadata`. -/
def udpFromMetadata : Metadata → Option Transport := portFromMetadata .udp (lit "port") udp

/-- `TransportTCP::fromMetadata`. -/
def tcpFromMetadata : Metadata → Option Transport := portFromMetadata .tcp (lit "port") tcp

/-- `TransportRFCOMM::fromMetadata`. -/
def rfcommFromMetadata : Metadata → Option Transport :=
  portFromMetadata .rfcomm (lit "channel") rfcomm

def fromMetadata (m : Metadata) : Option Transport :=
  if m.name = lit "Transport" then
    (m.getParameter (lit "type")).bind fun param =>
      match strToType param with
      | .udp => udpFromMetadata m
      | .tcp => tcpFromMetadata m
      | .rfcomm => rfcommFromMetadata m
      | .none => Option.none
  else Option.none

theorem portFromMetadata_eq_none (type : TransportType) (param : Bytes)
    (make : UInt16 → Transport) (m : Metadata) :
    portFromMetadata type param make m = Option.none := by
  unfold portFromMetadata
  split_ifs
  · cases m.getParameter param with
    | none => rfl
    | some v =>
      simp only
      rw [if_neg]
      rintro ⟨-, hend⟩
      cases hend
  · rfl

theorem fromMetadata_eq_none (m : Metadata) : fromMetadata m = Option.none := by
  unfold fromMetadata
  split_ifs
  · cases m.getParameter (lit "type") with
    | none => rfl
    | some param =>
      rw [Option.bind_some]
      cases strToType param <;> first | rfl | exact portFromMetadata_eq_none _ _ _ m
  · rfl

end Transport

/-! ## MAC addresses -/

namespace Mac

def hexVal (b : UInt8) : Option ℕ :=
  if 48 ≤ b.toNat ∧ b.toNat ≤ 57 then some (b.toNat - 48)
  else if 97 ≤ b.toNat ∧ b.toNat ≤ 102 then some (b.toNat - 87)
  else if 65 ≤ b.toNat ∧ b.toNat ≤ 70 then some (b.toNat - 55)
  else none

def hexDigits (s : Bytes) : Bytes := s.takeWhile fun b => (hexVal b).isSome

def hexNumber (s : Bytes) : ℕ := s.foldl (fun v b => 16 * v + (hexVal b).getD 0) 0

/-- `strtol(_, _, 16)` cut to a byte, or `none` if there is no number. -/
def strtolByte (s : Bytes) : Option UInt8 :=
  let t := s.dropWhile isSpace
  let u := if t.head? = some 45 ∨ t.head? = some 43 then t.tail else t
  let v := if (u.take 2 = lit "0x" ∨ u.take 2 = lit "0X") ∧ hexDigits (u.drop 2) ≠ [] then u.drop 2
    else u
  if hexDigits v = [] then none
  else
    let n : ℤ := hexNumber (hexDigits v)
    let v : ℤ := if t.head? = some 45 then max (-n) (-(2 ^ 63)) else min n (2 ^ 63 - 1)
    some (v % 256).toNat.toUInt8

/-- The loop of `str_to_mac`: a number is read at the start and behind every colon, until there is
none. `start` says that one is read here. -/
def groups : Bool → Bytes → Bytes
  | _, [] => []
  | true, c :: l =>
    match strtolByte (c :: l) with
    | none => [0]
    | some b => b :: groups (c = 58) l
  | false, c :: l => groups (c = 58) l

/-- `str_to_mac`. More than six numbers are written behind the buffer, and are no address. -/
def strToMac (str : Bytes) : Option (Octets 6) :=
  if h : (groups true str).length = 6 then some ⟨groups true str, h⟩ else none

theorem hexDigit_cases : ∀ n < 16, hexVal (Interface.hexDigit n) = some n ∧
    isSpace (Interface.hexDigit n) = false ∧ Interface.hexDigit n ≠ 45 ∧
      Interface.hexDigit n ≠ 43 ∧ Interface.hexDigit n ≠ 120 ∧ Interface.hexDigit n ≠ 88 := by
  decide

theorem strtolByte_hexByte (b : UInt8) {t : Bytes} (ht : ∀ c, t.head? = some c → hexVal c = none) :
    strtolByte (Interface.hexByte b ++ t) = some b := by
  have hb := b.toNat_lt
  obtain ⟨hval, hspace, hminus, hplus, -, -⟩ := hexDigit_cases (b.toNat / 16) (by omega)
  obtain ⟨hval', -, -, -, hx, hX⟩ := hexDigit_cases (b.toNat % 16) (by omega)
  rw [Interface.hexByte]
  generalize Interface.hexDigit (b.toNat / 16) = x at hval hspace hminus hplus
  generalize Interface.hexDigit (b.toNat % 16) = y at hval' hx hX
  have hdrop : ([x, y] ++ t).dropWhile isSpace = [x, y] ++ t := by simp [hspace]
  have hhead : ([x, y] ++ t).head? = some x := rfl
  have hprefix : ¬ (([x, y] ++ t).take 2 = lit "0x" ∨ ([x, y] ++ t).take 2 = lit "0X") := by
    have hlower : lit "0x" = [48, 120] := by decide
    have hupper : lit "0X" = [48, 88] := by decide
    rw [hlower, hupper]
    simp [hx, hX]
  have hdigits : hexDigits ([x, y] ++ t) = [x, y] := by
    have hend : t.takeWhile (fun b => (hexVal b).isSome) = [] := by
      cases t with
      | nil => rfl
      | cons c t => simp [ht c rfl]
    simp [hexDigits, hval, hval', hend]
  have hnumber : hexNumber [x, y] = b.toNat := by
    simp only [hexNumber, List.foldl_cons, List.foldl_nil, hval, hval', Option.getD_some]
    omega
  have hmod : (min (b.toNat : ℤ) (2 ^ 63 - 1) % 256).toNat = b.toNat := by omega
  simp only [strtolByte, hdrop, hhead, Option.some.injEq, hminus, hplus, or_self, if_false, hprefix,
    false_and, hdigits, reduceCtorEq, hnumber, hmod]
  simp

theorem groups_hexByte (b : UInt8) {t : Bytes} (ht : ∀ c, t.head? = some c → c = 58) :
    groups true (Interface.hexByte b ++ t) = b :: groups false t := by
  have hnone : ∀ c, t.head? = some c → hexVal c = none := by
    intro c hc
    rw [ht c hc]
    decide
  have hread := strtolByte_hexByte b hnone
  have hcolon : ∀ n < 16, Interface.hexDigit n ≠ 58 := by decide
  have hb := b.toNat_lt
  have hfirst := hcolon (b.toNat / 16) (by omega)
  have hsecond := hcolon (b.toNat % 16) (by omega)
  rw [Interface.hexByte, List.cons_append, List.singleton_append] at hread ⊢
  simp only [groups, hread, decide_eq_false hfirst, decide_eq_false hsecond]

theorem groups_colon (t : Bytes) : groups false (58 :: t) = groups true t := rfl

theorem groups_macStr (mac : Bytes) : groups true (Interface.macStr mac) = mac := by
  induction mac with
  | nil => rfl
  | cons b l ih =>
    cases l with
    | nil =>
      have h := groups_hexByte b (t := []) (by simp)
      rw [List.append_nil] at h
      exact h
    | cons c l =>
      rw [Interface.macStr, groups_hexByte b (by simp), groups_colon, ih]
      simp

theorem strToMac_macStr (mac : Octets 6) : strToMac (Interface.macStr mac.1) = some mac := by
  rw [strToMac]
  simp only [groups_macStr]
  exact dif_pos mac.2

end Mac

/-! ## Addresses -/

/-- What the program was configured with. -/
structure Config where
  ethernet : Bool
  bluetooth : Bool
  ipv6 : Bool
  unix : Bool

/-- The texts of network addresses, which the system writes and reads. -/
structure Inet where
  ntop4 : Octets 4 → Bytes
  pton4 : Bytes → Option (Octets 4)
  ntop6 : Octets 16 → Bytes
  pton6 : Bytes → Option (Octets 16)

/-- `inet_pton` reads what `inet_ntop` writes. -/
structure Inet.Lawful (inet : Inet) : Prop where
  ipv4 : ∀ ip, inet.pton4 (inet.ntop4 ip) = some ip
  ipv6 : ∀ ip, inet.pton6 (inet.ntop6 ip) = some ip

inductive AddressType
  | undefined
  | ethernet
  | ethernetBroadcast
  | bluetooth
  | ipv4
  | ipv4Broadcast
  | ipv6
  | ipv6Broadcast
  | filepath
  | unix
deriving DecidableEq

/-- An address with what its class holds. The path of a file or of a socket is not empty: the
pointer to an empty one is not set. -/
inductive Address
  | ethernet (mac : Octets 6)
  | ethernetBroadcast (mac : Octets 6)
  | bluetooth (mac : Octets 6) (transport : Transport)
  | ipv4 (ip : Octets 4) (transport : Transport)
  | ipv4Broadcast (ip : Octets 4)
  | ipv6 (ip : Octets 16) (transport : Transport)
  | ipv6Broadcast (ip : Octets 16)
  | file (path : { p : Bytes // p ≠ [] })
  | unix (path : { p : Bytes // p ≠ [] })
deriving DecidableEq

namespace Address

def type : Address → AddressType
  | .ethernet _ => .ethernet
  | .ethernetBroadcast _ => .ethernetBroadcast
  | .bluetooth _ _ => .bluetooth
  | .ipv4 _ _ => .ipv4
  | .ipv4Broadcast _ => .ipv4Broadcast
  | .ipv6 _ _ => .ipv6
  | .ipv6Broadcast _ => .ipv6Broadcast
  | .file _ => .filepath
  | .unix _ => .unix

/-- `getTransport`: the constructors of most classes leave it out. -/
def transport : Address → Transport
  | .bluetooth _ t => t
  | .ipv4 _ t => t
  | .ipv6 _ t => t
  | _ => .none

/-- `type_str`. -/
def typeToStr : AddressType → Bytes
  | .undefined => lit "undefined"
  | .ethernet => lit "ethernet"
  | .ethernetBroadcast => lit "ethernet_broadcast"
  | .bluetooth => lit "bluetooth"
  | .ipv4 => lit "ipv4"
  | .ipv4Broadcast => lit "ipv4_broadcast"
  | .ipv6 => lit "ipv6"
  | .ipv6Broadcast => lit "ipv6_broadcast"
  | .filepath => lit "filepath"
  | .unix => lit "unix"

def types : List AddressType :=
  [.undefined, .ethernet, .ethernetBroadcast, .bluetooth, .ipv4, .ipv4Broadcast, .ipv6,
    .ipv6Broadcast, .filepath, .unix]

def strToType (str : Bytes) : AddressType :=
  (types.find? fun t => typeToStr t = str).getD .undefined

variable (inet : Inet) (cfg : Config)

def getStr : Address → Bytes
  | .ethernet mac => Interface.macStr mac.1
  | .ethernetBroadcast mac => Interface.macStr mac.1
  | .bluetooth mac _ => Interface.macStr mac.1
  | .ipv4 ip _ => inet.ntop4 ip
  | .ipv4Broadcast ip => inet.ntop4 ip
  | .ipv6 ip _ => inet.ntop6 ip
  | .ipv6Broadcast ip => inet.ntop6 ip
  | .file path => path.1
  | .unix path => path.1

def toMetadata (a : Address) : Metadata :=
  let m := ((Metadata.new (lit "Address") []).setParameter (lit "net") (getStr inet a)).setParameter
    (lit "type") (typeToStr a.type)
  match a.transport.toMetadata with
  | none => m
  | some tm => m.addMetadata tm

/-- The transport inside, or the default one. -/
def readTransport (m : Metadata) : Transport :=
  ((m.getMetadata (lit "Transport")).bind Transport.fromMetadata).getD .none

/-- The type in an element of this name. -/
def readType (m : Metadata) : Option AddressType :=
  if m.name = lit "Address" then (m.getParameter (lit "type")).map strToType else none

/-- `EthernetAddress::fromMetadata`. -/
def ethernetFromMetadata (m : Metadata) : Option Address :=
  if readType m = some .ethernet then
    ((m.getParameter (lit "net")).bind Mac.strToMac).map .ethernet
  else none

/-- `BluetoothAddress::fromMetadata`. -/
def bluetoothFromMetadata (m : Metadata) : Option Address :=
  if readType m = some .bluetooth then
    ((m.getParameter (lit "net")).bind Mac.strToMac).map fun mac =>
      .bluetooth mac (readTransport m)
  else none

/-- `IPv4Address::fromMetadata`. -/
def ipv4FromMetadata (m : Metadata) : Option Address :=
  if readType m = some .ipv4 then
    ((m.getParameter (lit "net")).bind inet.pton4).map fun ip => .ipv4 ip (readTransport m)
  else if readType m = some .ipv4Broadcast then
    ((m.getParameter (lit "net")).bind inet.pton4).map .ipv4Broadcast
  else none

/-- `IPv6Address::fromMetadata`. -/
def ipv6FromMetadata (m : Metadata) : Option Address :=
  if readType m = some .ipv6 then
    ((m.getParameter (lit "net")).bind inet.pton6).map fun ip => .ipv6 ip (readTransport m)
  else if readType m = some .ipv6Broadcast then
    ((m.getParameter (lit "net")).bind inet.pton6).map .ipv6Broadcast
  else none

/-- `FileAddress::fromMetadata`: there is only a note that it is to be done. -/
def fileFromMetadata (_ : Metadata) : Option Address := none

/-- `UnixAddress::fromMetadata`, likewise. -/
def unixFromMetadata (_ : Metadata) : Option Address := none

def fromMetadata (m : Metadata) : Option Address :=
  (readType m).bind fun type =>
    match type with
    | .ethernet | .ethernetBroadcast => if cfg.ethernet then ethernetFromMetadata m else none
    | .bluetooth => if cfg.bluetooth then bluetoothFromMetadata m else none
    | .ipv4 | .ipv4Broadcast => ipv4FromMetadata inet m
    | .ipv6 | .ipv6Broadcast => if cfg.ipv6 then ipv6FromMetadata inet m else none
    | .unix => if cfg.unix then unixFromMetadata m else none
    | .filepath => fileFromMetadata m
    | .undefined => none

/-- The address that is read of what was written: without its transport, if its class can be read.
-/
def readBack : Address → Option Address
  | .ethernet mac => if cfg.ethernet then some (.ethernet mac) else none
  | .ethernetBroadcast _ => none
  | .bluetooth mac _ => if cfg.bluetooth then some (.bluetooth mac .none) else none
  | .ipv4 ip _ => some (.ipv4 ip .none)
  | .ipv4Broadcast ip => some (.ipv4Broadcast ip)
  | .ipv6 ip _ => if cfg.ipv6 then some (.ipv6 ip .none) else none
  | .ipv6Broadcast ip => if cfg.ipv6 then some (.ipv6Broadcast ip) else none
  | .file _ => none
  | .unix _ => none

variable {inet cfg}

theorem strToType_typeToStr (t : AddressType) : strToType (typeToStr t) = t := by
  cases t <;> decide

theorem readTransport_eq (m : Metadata) : readTransport m = .none := by
  unfold readTransport
  cases m.getMetadata (lit "Transport") with
  | none => rfl
  | some tm =>
    rw [Option.bind_some, Transport.fromMetadata_eq_none]
    rfl

theorem params_toMetadata (a : Address) : (toMetadata inet a).name = lit "Address" ∧
    (toMetadata inet a).params = [(lit "net", getStr inet a), (lit "type", typeToStr a.type)] := by
  unfold toMetadata
  cases a.transport.toMetadata <;> exact ⟨rfl, rfl⟩

theorem toMetadata_fields (a : Address) : (toMetadata inet a).name = lit "Address" ∧
    (toMetadata inet a).getParameter (lit "net") = some (getStr inet a) ∧
      (toMetadata inet a).getParameter (lit "type") = some (typeToStr a.type) := by
  obtain ⟨hname, hparams⟩ := @params_toMetadata inet a
  rw [Metadata.getParameter, Metadata.getParameter, hparams]
  exact ⟨hname, rfl, rfl⟩

theorem fromMetadata_toMetadata (hinet : inet.Lawful) (a : Address) :
    fromMetadata inet cfg (toMetadata inet a) = readBack cfg a := by
  obtain ⟨hname, hnet, htype⟩ := @toMetadata_fields inet a
  have hread : readType (toMetadata inet a) = some a.type := by
    rw [readType, if_pos hname, htype, Option.map_some, strToType_typeToStr]
  rw [fromMetadata, hread, Option.bind_some]
  cases a with
  | ethernet mac =>
    have hmac := Mac.strToMac_macStr mac
    simp [type, ethernetFromMetadata, hread, hnet, getStr, hmac, readBack]
  | ethernetBroadcast mac => simp [type, ethernetFromMetadata, hread, readBack]
  | bluetooth mac t =>
    have hmac := Mac.strToMac_macStr mac
    simp [type, bluetoothFromMetadata, hread, hnet, getStr, hmac, readTransport_eq, readBack]
  | ipv4 ip t =>
    simp [type, ipv4FromMetadata, hread, hnet, getStr, hinet.ipv4, readTransport_eq, readBack]
  | ipv4Broadcast ip => simp [type, ipv4FromMetadata, hread, hnet, getStr, hinet.ipv4, readBack]
  | ipv6 ip t =>
    simp [type, ipv6FromMetadata, hread, hnet, getStr, hinet.ipv6, readTransport_eq, readBack]
  | ipv6Broadcast ip => simp [type, ipv6FromMetadata, hread, hnet, getStr, hinet.ipv6, readBack]
  | file path => rfl
  | unix path => simp [type, unixFromMetadata, readBack]

theorem readBack_readBack {a b : Address} (h : readBack cfg a = some b) :
    readBack cfg b = some b := by
  cases a <;> simp only [readBack, Option.ite_none_right_eq_some, Option.some.injEq,
    reduceCtorEq] at h
  all_goals first
    | (obtain ⟨hcfg, rfl⟩ := h; simp [readBack, hcfg])
    | (subst h; rfl)

/-! ### Comparing -/

/-- `getRaw`. -/
def raw : Address → Bytes
  | .ethernet mac => mac.1
  | .ethernetBroadcast mac => mac.1
  | .bluetooth mac _ => mac.1
  | .ipv4 ip _ => ip.1
  | .ipv4Broadcast ip => ip.1
  | .ipv6 ip _ => ip.1
  | .ipv6Broadcast ip => ip.1
  | .file path => path.1
  | .unix path => path.1

/-- `equal`: the classes without a transport of their own do not compare it. -/
def equal (a b : Address) : Bool :=
  a.type = b.type && a.raw = b.raw &&
    match a with
    | .bluetooth _ t | .ipv4 _ t | .ipv6 _ t => decide (t = b.transport)
    | .ipv4Broadcast _ | .ipv6Broadcast _ => decide (Transport.none = b.transport)
    | _ => true

theorem equal_iff {a b : Address} : equal a b = true ↔ a = b := by
  constructor
  · intro h
    simp only [equal, Bool.and_eq_true, decide_eq_true_eq] at h
    obtain ⟨⟨htype, hraw⟩, htransport⟩ := h
    cases a <;> cases b <;> simp only [type, reduceCtorEq] at htype
    all_goals
      simp only [raw] at hraw
      obtain rfl := Subtype.ext hraw
      first
        | rfl
        | (obtain rfl := of_decide_eq_true htransport; rfl)
  · rintro rfl
    cases a <;> simp [equal, transport]

end Address

end Haggle
