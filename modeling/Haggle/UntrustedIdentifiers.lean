import Haggle.InterfaceWire

/-!
# Identifiers from other nodes

The identifier of an interface comes as base64 text of any length, or as the text of an address. The
constructors read as many bytes as their type takes, and the loop over the text of an address writes
a byte for every group.
-/

namespace Haggle

namespace Mac

/-- One or two hexadecimal digits. -/
def IsHexByte (d : Bytes) : Prop := (d.length = 1 ∨ d.length = 2) ∧ ∀ c ∈ d, (hexVal c).isSome

/-- Six bytes in hexadecimal digits, with colons between them. -/
def HexBytes (str : Bytes) : Prop :=
  ∃ ds : List Bytes, ds.length = 6 ∧ (∀ d ∈ ds, IsHexByte d) ∧ str = List.intercalate [58] ds

/-- `str_to_mac` stays in its buffer, and takes nothing else for an address. -/
structure ReadSafely (str : Bytes) : Prop where
  fits : (groups true str).length ≤ 6
  hex : (strToMac str).isSome → HexBytes str

/-- Where a number is read: at the start and behind every colon. -/
def starts : Bool → Bytes → List Bytes
  | _, [] => []
  | true, c :: l => (c :: l) :: starts (c = 58) l
  | false, c :: l => starts (c = 58) l

/-- There are fewer than six places for a number, or there is none at one of the first five. -/
def Short (str : Bytes) : Prop :=
  (starts true str).length < 6 ∨ ∃ t ∈ (starts true str).take 5, strtolByte t = none

theorem length_groups_lt (start : Bool) (str : Bytes) (n : ℕ) :
    (groups start str).length < n + 1 ↔
      (starts start str).length < n + 1 ∨ ∃ t ∈ (starts start str).take n, strtolByte t = none := by
  induction str generalizing start n with
  | nil => simp [groups, starts]
  | cons c l ih =>
    cases start with
    | false => exact ih (decide (c = 58)) n
    | true =>
      cases hread : strtolByte (c :: l) with
      | none => cases n <;> simp [groups, starts, hread]
      | some b =>
        cases n with
        | zero => simp [groups, starts, hread]
        | succ n =>
          have h := ih (decide (c = 58)) n
          simp only [groups, starts, hread, List.length_cons, List.take_succ_cons,
            List.mem_cons, exists_eq_or_imp, reduceCtorEq, false_or]
          rw [Nat.add_lt_add_iff_right, Nat.add_lt_add_iff_right]
          exact h

theorem isSpace_of_hexVal {c : UInt8} (hc : (hexVal c).isSome) : isSpace c = false := by
  unfold hexVal at hc
  unfold isSpace
  split_ifs at hc with hdigit hlower hupper
  · simp
    omega
  · simp
    omega
  · simp
    omega
  · cases hc

theorem strtolByte_isSome {c : UInt8} (hc : (hexVal c).isSome) (t : Bytes) :
    (strtolByte (c :: t)).isSome := by
  have hspace := isSpace_of_hexVal hc
  have hsign : ¬ ((c :: t).head? = some 45 ∨ (c :: t).head? = some 43) := by
    rintro (h | h)
    · obtain rfl := Option.some.inj h
      exact absurd hc (by decide)
    · obtain rfl := Option.some.inj h
      exact absurd hc (by decide)
  have hdrop : (c :: t).dropWhile isSpace = c :: t := by simp [hspace]
  have hdigits : hexDigits (c :: t) ≠ [] := by simp [hexDigits, hc]
  simp only [strtolByte, hdrop, if_neg hsign]
  rw [if_neg]
  · rfl
  · split_ifs with hprefix
    · exact hprefix.2
    · exact hdigits

theorem groups_skip {d : Bytes} (hd : ∀ c ∈ d, c ≠ 58) (t : Bytes) :
    groups false (d ++ t) = groups false t := by
  induction d with
  | nil => rfl
  | cons c d ih =>
    have hc : decide (c = 58) = false := decide_eq_false (hd c List.mem_cons_self)
    rw [List.cons_append, groups, hc]
    exact ih fun c' hc' => hd c' (List.mem_cons_of_mem c hc')

theorem groups_digits {d : Bytes} (hd : IsHexByte d) (t : Bytes) :
    ∃ b, groups true (d ++ t) = b :: groups false t := by
  obtain ⟨hlen, hhex⟩ := hd
  have hcolon : ∀ c ∈ d, c ≠ 58 := by
    rintro c hc rfl
    exact absurd (hhex 58 hc) (by decide)
  cases d with
  | nil => simp at hlen
  | cons c d =>
    have hread := strtolByte_isSome (hhex c List.mem_cons_self) (d ++ t)
    obtain ⟨b, hb⟩ := Option.isSome_iff_exists.mp hread
    refine ⟨b, ?_⟩
    have hc : decide (c = 58) = false := decide_eq_false (hcolon c List.mem_cons_self)
    rw [List.cons_append, groups, hb, hc]
    exact congrArg (b :: ·) (groups_skip (fun c' hc' => hcolon c' (List.mem_cons_of_mem c hc')) t)

theorem length_groups {ds : List Bytes} (hds : ∀ d ∈ ds, IsHexByte d) :
    (groups true (List.intercalate [58] ds)).length = ds.length := by
  induction ds with
  | nil => rfl
  | cons d ds ih =>
    have hd := hds d List.mem_cons_self
    have hrest := ih fun d' hd' => hds d' (List.mem_cons_of_mem d hd')
    cases ds with
    | nil =>
      obtain ⟨b, hb⟩ := groups_digits hd []
      rw [List.append_nil] at hb
      simp [List.intercalate, hb, groups]
    | cons d' ds =>
      obtain ⟨b, hb⟩ := groups_digits hd (58 :: List.intercalate [58] (d' :: ds))
      have hsplit : List.intercalate [58] (d :: d' :: ds) =
          d ++ 58 :: List.intercalate [58] (d' :: ds) := by
        simp [List.intercalate]
      rw [hsplit, hb, groups_colon, List.length_cons, hrest]
      rfl

theorem strToMac_isSome_iff (str : Bytes) :
    (strToMac str).isSome ↔ (groups true str).length = 6 := by
  rw [strToMac]
  split_ifs with h
  · exact iff_of_true rfl h
  · exact iff_of_false Bool.false_ne_true h

/-- A text is read safely exactly if it is short or is the text of an address. -/
theorem readSafely_iff (str : Bytes) : ReadSafely str ↔ Short str ∨ HexBytes str := by
  have hshort : (groups true str).length < 6 ↔ Short str := length_groups_lt true str 5
  rw [← hshort]
  constructor
  · rintro ⟨hfits, hhex⟩
    rcases Nat.lt_or_eq_of_le hfits with hlt | heq
    · exact Or.inl hlt
    · exact Or.inr (hhex ((strToMac_isSome_iff str).mpr heq))
  · rintro (hlt | hhex)
    · refine ⟨by omega, fun h => ?_⟩
      rw [strToMac_isSome_iff] at h
      omega
    · obtain ⟨ds, hlen, hds, rfl⟩ := id hhex
      exact ⟨by rw [length_groups hds, hlen], fun _ => hhex⟩

end Mac

namespace Address

/-- The text in an element with the address of a network card. -/
def ethernetText (m : Metadata) : List Bytes :=
  if readType m = some .ethernet then (m.getParameter (lit "net")).toList else []

def bluetoothText (m : Metadata) : List Bytes :=
  if readType m = some .bluetooth then (m.getParameter (lit "net")).toList else []

/-- The text that is given to `str_to_mac` where an address is read. -/
def macText (cfg : Config) (m : Metadata) : List Bytes :=
  (if cfg.ethernet then ethernetText m else []) ++ if cfg.bluetooth then bluetoothText m else []

/-- What `EthernetAddress::fromMetadata` is to keep to. -/
structure EthernetSafe (m : Metadata) : Prop where
  texts : ∀ t ∈ ethernetText m, Mac.ReadSafely t
  created : ∀ a, ethernetFromMetadata m = some a → ∃ t ∈ ethernetText m, Mac.HexBytes t

theorem ethernetSafe_iff (m : Metadata) :
    EthernetSafe m ↔ ∀ t ∈ ethernetText m, Mac.Short t ∨ Mac.HexBytes t := by
  constructor
  · intro h t ht
    exact (Mac.readSafely_iff t).mp (h.texts t ht)
  · intro h
    have htexts : ∀ t ∈ ethernetText m, Mac.ReadSafely t := fun t ht =>
      (Mac.readSafely_iff t).mpr (h t ht)
    refine ⟨htexts, fun a ha => ?_⟩
    rw [ethernetFromMetadata] at ha
    split_ifs at ha with htype
    obtain ⟨mac, hmac, -⟩ := Option.map_eq_some_iff.mp ha
    obtain ⟨t, hnet, hread⟩ := Option.bind_eq_some_iff.mp hmac
    have ht : t ∈ ethernetText m := by
      rw [ethernetText, if_pos htype, hnet]
      exact List.mem_singleton_self t
    exact ⟨t, ht, (htexts t ht).hex (by rw [hread]; rfl)⟩

end Address

namespace InterfaceData

/-- The type in an element for an interface, if it is a known one. -/
def declaredType (m : Metadata) : Option InterfaceType :=
  if m.name = lit "Interface" then
    ((m.getParameter (lit "type")).map strToType).filter fun type => type ≠ .undefined
  else none

/-- The texts that `fromMetadata` gives to `str_to_mac`. -/
def macTexts (cfg : Config) (m : Metadata) : List Bytes :=
  if (declaredType m).isSome then
    (if m.getParameter (lit "identifier") = none then (m.getParameter (lit "mac")).toList
      else []) ++
      if (readIdentifier m).isSome then
        (m.getAll (lit "Address")).flatMap (Address.macText cfg)
      else []
  else []

/-- The bytes that the constructor for a type reads of an identifier. -/
def readLength (mem : Memory) : InterfaceType → Bytes → ℕ
  | .undefined, _ => 0
  | .applicationPort, _ => 2
  | .ethernet, _ | .wifi, _ | .bluetooth, _ => 6
  | .applicationLocal, b | .media, b => (cStr (b ++ mem.behind)).length + 1

/-- The identifiers that are as long as their type takes them for. A path has its zero. -/
def Exact : InterfaceType → Bytes → Prop
  | .undefined, b => b = []
  | .applicationPort, b => b.length = 2
  | .ethernet, b | .wifi, b | .bluetooth, b => b.length = 6
  | .applicationLocal, b | .media, b => ∃ path : Bytes, 0 ∉ path ∧ b = path ++ [0]

variable {mem : Memory} {inet : Inet} {cfg : Config} {m : Metadata}

theorem length_cStr_iff (b behind : Bytes) :
    b.length = (cStr (b ++ behind)).length + 1 ↔ ∃ path : Bytes, 0 ∉ path ∧ b = path ++ [0] := by
  constructor
  · intro hlen
    have hzero : 0 ∈ b := by
      by_contra hb
      rw [cStr_append hb, List.length_append] at hlen
      omega
    obtain ⟨path, rest, rfl, hpath⟩ := List.eq_append_cons_of_mem hzero
    refine ⟨path, hpath, ?_⟩
    have hpathLen : (cStr (path ++ 0 :: rest ++ behind)).length = path.length := by
      rw [List.append_assoc, cStr_append hpath]
      simp [cStr]
    rw [hpathLen, List.length_append, List.length_cons] at hlen
    obtain rfl := List.length_eq_zero_iff.mp (by omega : rest.length = 0)
    rfl
  · rintro ⟨path, hpath, rfl⟩
    rw [List.append_assoc, cStr_append hpath]
    simp [cStr]

theorem length_eq_readLength (type : InterfaceType) (b : Bytes) :
    b.length = readLength mem type b ↔ Exact type b := by
  cases type with
  | undefined => exact List.length_eq_zero_iff
  | applicationPort => exact Iff.rfl
  | ethernet => exact Iff.rfl
  | wifi => exact Iff.rfl
  | bluetooth => exact Iff.rfl
  | applicationLocal => exact length_cStr_iff b mem.behind
  | media => exact length_cStr_iff b mem.behind

/-- What `Interface::fromMetadata` is to keep to. -/
structure Safe (mem : Memory) (inet : Inet) (cfg : Config) (m : Metadata) : Prop where
  texts : ∀ t ∈ macTexts cfg m, Mac.ReadSafely t
  created : ∀ i, fromMetadata mem inet cfg m = .tree i →
    ∃ b, readIdentifier m = some (some b) ∧ b.length = readLength mem i.type b
  returns : fromMetadata mem inet cfg m ≠ .fault

/-- An interface of a known type has an identifier, and one that is as long as its type takes it for
if it can be decoded; and the texts of addresses are short or are right. -/
structure WellFormed (cfg : Config) (m : Metadata) : Prop where
  texts : ∀ t ∈ macTexts cfg m, Mac.Short t ∨ Mac.HexBytes t
  present : ∀ type, declaredType m = some type →
    (m.getParameter (lit "identifier")).isSome ∨ (m.getParameter (lit "mac")).isSome
  exact : ∀ type, declaredType m = some type → ∀ b, readIdentifier m = some (some b) → Exact type b

theorem fromMetadata_of_none (hm : declaredType m = none) :
    fromMetadata mem inet cfg m = .failed := by
  rw [declaredType] at hm
  rw [fromMetadata]
  split_ifs at hm ⊢ with hname
  · cases hp : m.getParameter (lit "type") with
    | none => rfl
    | some param =>
      rw [hp] at hm
      simp only [Option.map_some, Option.filter_some] at hm
      split_ifs at hm with htype
      have htype : strToType param = .undefined := by simpa using htype
      simp only [htype, if_true]
  · rfl

theorem fromMetadata_of_some {type : InterfaceType} (hm : declaredType m = some type) :
    type ≠ .undefined ∧ fromMetadata mem inet cfg m =
      match readIdentifier m with
      | none => .failed
      | some identifier =>
        match createIdentifier mem type identifier with
        | .fault => .fault
        | .failed => .failed
        | .tree identifier =>
          .tree ⟨type, identifier, (m.getParameter (lit "mac")).getD defaultName, addAddresses []
            ((m.getAll (lit "Address")).filterMap (Address.fromMetadata inet cfg))⟩ := by
  rw [declaredType] at hm
  rw [fromMetadata]
  split_ifs at hm ⊢ with hname
  obtain ⟨hmap, hne⟩ := Option.filter_eq_some_iff.mp hm
  obtain ⟨param, hp, rfl⟩ := Option.map_eq_some_iff.mp hmap
  have hne : strToType param ≠ .undefined := by simpa using hne
  rw [hp]
  exact ⟨hne, if_neg hne⟩

theorem readIdentifier_ne_none_iff : readIdentifier m ≠ some none ↔
    (m.getParameter (lit "identifier")).isSome ∨ (m.getParameter (lit "mac")).isSome := by
  rw [readIdentifier]
  cases m.getParameter (lit "identifier") with
  | some param => cases Base64.decodeAlloc param <;> simp
  | none =>
    cases m.getParameter (lit "mac") with
    | some param => cases Mac.strToMac param <;> simp
    | none => simp

/-- With an identifier an interface is created, whatever its length is. -/
theorem created_of_some {type : InterfaceType} {b : Bytes} (hm : declaredType m = some type)
    (hid : readIdentifier m = some (some b)) :
    ∃ i, fromMetadata mem inet cfg m = .tree i ∧ i.type = type := by
  obtain ⟨hne, heq⟩ := @fromMetadata_of_some mem inet cfg m type hm
  rw [heq, hid]
  cases type with
  | undefined => exact absurd rfl hne
  | applicationPort => exact ⟨_, rfl, rfl⟩
  | applicationLocal => exact ⟨_, rfl, rfl⟩
  | ethernet => exact ⟨_, rfl, rfl⟩
  | wifi => exact ⟨_, rfl, rfl⟩
  | bluetooth => exact ⟨_, rfl, rfl⟩
  | media => exact ⟨_, rfl, rfl⟩

/-- Without an identifier an interface is created nevertheless, or a null pointer is used. -/
theorem not_failed_of_none {type : InterfaceType} (hm : declaredType m = some type)
    (hid : readIdentifier m = some none) :
    (∃ i, fromMetadata mem inet cfg m = .tree i) ∨ fromMetadata mem inet cfg m = .fault := by
  obtain ⟨hne, heq⟩ := @fromMetadata_of_some mem inet cfg m type hm
  rw [heq, hid]
  cases type with
  | undefined => exact absurd rfl hne
  | applicationPort => exact .inr rfl
  | applicationLocal => exact .inr rfl
  | ethernet => exact .inl ⟨_, rfl⟩
  | wifi => exact .inl ⟨_, rfl⟩
  | bluetooth => exact .inl ⟨_, rfl⟩
  | media => exact .inr rfl

theorem texts_iff (cfg : Config) (m : Metadata) : (∀ t ∈ macTexts cfg m, Mac.ReadSafely t) ↔
    ∀ t ∈ macTexts cfg m, Mac.Short t ∨ Mac.HexBytes t :=
  forall₂_congr fun t _ => Mac.readSafely_iff t

/-- An element for an interface is read safely exactly if it is well formed. -/
theorem safe_iff (mem : Memory) (inet : Inet) (cfg : Config) (m : Metadata) :
    Safe mem inet cfg m ↔ WellFormed cfg m := by
  constructor
  · rintro ⟨htexts, hcreated, hreturns⟩
    refine ⟨(texts_iff cfg m).mp htexts, fun type htype => ?_, fun type htype b hb => ?_⟩
    · refine readIdentifier_ne_none_iff.mp fun hnone => ?_
      rcases @not_failed_of_none mem inet cfg m type htype hnone with ⟨i, hi⟩ | hfault
      · obtain ⟨b, hb, -⟩ := hcreated i hi
        rw [hnone] at hb
        cases hb
      · exact hreturns hfault
    · obtain ⟨i, hi, rfl⟩ := @created_of_some mem inet cfg m type b htype hb
      obtain ⟨b', hb', hlen⟩ := hcreated i hi
      rw [hb] at hb'
      obtain rfl := Option.some.inj (Option.some.inj hb')
      exact (length_eq_readLength i.type b).mp hlen
  · rintro ⟨htexts, hpresent, hexact⟩
    have htexts := (texts_iff cfg m).mpr htexts
    cases hm : declaredType m with
    | none =>
      have hfailed := @fromMetadata_of_none mem inet cfg m hm
      refine ⟨htexts, fun i hi => ?_, fun hfault => ?_⟩
      · rw [hfailed] at hi
        cases hi
      · rw [hfailed] at hfault
        cases hfault
    | some type =>
      cases hid : readIdentifier m with
      | none =>
        have hfailed := (@fromMetadata_of_some mem inet cfg m type hm).2
        rw [hid] at hfailed
        refine ⟨htexts, fun i hi => ?_, fun hfault => ?_⟩
        · rw [hfailed] at hi
          cases hi
        · rw [hfailed] at hfault
          cases hfault
      | some identifier =>
        cases identifier with
        | none => exact absurd hid (readIdentifier_ne_none_iff.mpr (hpresent type hm))
        | some b =>
          obtain ⟨i, hi, rfl⟩ := @created_of_some mem inet cfg m type b hm hid
          refine ⟨htexts, fun j hj => ?_, fun hfault => ?_⟩
          · rw [hi] at hj
            obtain rfl := Reading.tree.inj hj
            exact ⟨b, hid, (length_eq_readLength i.type b).mpr (hexact i.type hm b hid)⟩
          · rw [hi] at hfault
            cases hfault

/-- Interfaces and addresses are read safely exactly if what came is well formed. -/
theorem identifiersSafe_iff (mem : Memory) (inet : Inet) (cfg : Config) :
    (∀ m, Safe mem inet cfg m ↔ WellFormed cfg m) ∧
      ∀ m, Address.EthernetSafe m ↔
        ∀ t ∈ Address.ethernetText m, Mac.Short t ∨ Mac.HexBytes t :=
  ⟨safe_iff mem inet cfg, Address.ethernetSafe_iff⟩

end InterfaceData

namespace Sample

open InterfaceData

/-- An element for a network card. -/
def cardElement (param : String) (value : Bytes) : Metadata :=
  ((Metadata.new (lit "Interface") []).setParameter (lit "type")
    (lit "ethernet")).setParameter (lit param) value

/-- An identifier of one byte is taken, and seven groups are written into six bytes. -/
theorem not_safe_cardElement :
    ¬ Safe clearMemory hexInet allConfigured (cardElement "identifier" (Base64.encode [1])) ∧
      ¬ Safe clearMemory hexInet allConfigured (cardElement "mac" (lit "1:2:3:4:5:6:7")) := by
  constructor
  · intro h
    have htype : declaredType (cardElement "identifier" (Base64.encode [1])) = some .ethernet := by
      decide
    have hid : readIdentifier (cardElement "identifier" (Base64.encode [1])) = some (some [1]) := by
      decide
    obtain ⟨i, hi, hethernet⟩ :=
      @created_of_some clearMemory hexInet allConfigured _ .ethernet [1] htype hid
    obtain ⟨b, hb, hlen⟩ := h.created i hi
    rw [hid] at hb
    obtain rfl := Option.some.inj (Option.some.inj hb)
    rw [hethernet] at hlen
    cases hlen
  · intro h
    have hmem : lit "1:2:3:4:5:6:7" ∈
        macTexts allConfigured (cardElement "mac" (lit "1:2:3:4:5:6:7")) := by decide
    have hgroups : (Mac.groups true (lit "1:2:3:4:5:6:7")).length = 7 := by decide
    have hfits := (h.texts _ hmem).fits
    rw [hgroups] at hfits
    omega

end Sample
end Haggle
