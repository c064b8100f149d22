import Haggle.Address
import Haggle.DoubleText
import Haggle.FilterPublished
import Haggle.FilterReceived

/-!
# The parameters of a filter

`Bloomfilter::toMetadata` puts beside the text of a filter the error rate and the capacity that it
was made for. `Bloomfilter::fromMetadata` parses both, but it compares the end pointers with the
character `\0`, that is, with a null pointer, which neither `strtod` nor `strtoul` ever stores. What
was parsed then gives way to the default.
-/

namespace Haggle

open ByteOrder

namespace DoubleText

/-- What is behind an exponent. A letter without digits is no exponent. -/
def dropExponent (lower upper : UInt8) (s : Bytes) : Bytes :=
  let t := s.tail
  let u := if t.head? = some 45 ∨ t.head? = some 43 then t.tail else t
  if (s.head? = some lower ∨ s.head? = some upper) ∧ u.takeWhile isDigit ≠ [] then
    u.dropWhile isDigit
  else s

def dropUnsigned (s : Bytes) : Bytes :=
  match s with
  | 48 :: x :: t =>
    if x = 120 ∨ x = 88 then
      if (scanHex t).isSome then dropExponent 112 80 (scanDigits isHexDigit t).2.2 else x :: t
    else dropExponent 101 69 (scanDigits isDigit s).2.2
  | _ => dropExponent 101 69 (scanDigits isDigit s).2.2

/-- The pointer that `strtod` stores. -/
def endptr (s : Bytes) : Option Bytes :=
  let t := s.dropWhile isSpace
  let u := if t.head? = some 45 ∨ t.head? = some 43 then t.tail else t
  some (if (scan s).isSome then dropUnsigned u else s)

example : endptr (lit " -0.050000e1x") = some (lit "x") ∧ endptr (lit "0xg") = some (lit "xg") := by
  decide

end DoubleText

/-- `Bloomfilter::typeToStr`. -/
def FilterType.toStr : FilterType → Bytes
  | .normal => lit "normal"
  | .counting => lit "counting"
  | .undefined => lit "undefined"

@[simp] theorem strToType_toStr (type : FilterType) : strToType type.toStr = type := by
  cases type <;> decide

/-- What `raw` points to: a `bf` or a `cbf`, of the size that its `m` says, which
`bloomfilter_calculate_length` makes a multiple of eight. -/
inductive FilterRaw
  | normal (bf : FilterBlock 8) (sized : bf.Plain)
  | counting (cbf : FilterBlock 16) (sized : cbf.Counting) (eight : 8 ∣ cbf.m.toNat)

namespace FilterRaw

def type : FilterRaw → FilterType
  | normal _ _ => .normal
  | counting _ _ _ => .counting

def k : FilterRaw → ℕ
  | normal bf _ => bf.k
  | counting cbf _ _ => cbf.k

def m : FilterRaw → ℕ
  | normal bf _ => bf.m.toNat
  | counting cbf _ _ => cbf.m.toNat

def n : FilterRaw → ℕ
  | normal bf _ => bf.n.toNat
  | counting cbf _ _ => cbf.n.toNat

/-- `Bloomfilter::has`; there is no answer if the check leaves the block. -/
def has (sha1 : Bytes → Digest) (e : Endian) (key : Bytes) : FilterRaw → Option Bool
  | normal bf _ => bloomfilterCheck sha1 e bf key
  | counting cbf _ _ => countingBloomfilterCheck sha1 e cbf key

/-- `Bloomfilter::toBase64`, where no text is the empty string. -/
def toBase64 (e : Endian) (junk : ℕ → UInt8) : FilterRaw → Bytes
  | normal bf _ => (bloomfilterToBase64 e junk (bf.image e)).getD []
  | counting cbf _ _ => (countingBloomfilterToBase64 e junk (cbf.image e)).getD []

/-- `Bloomfilter::toBase64NonCounting`. -/
def toBase64NonCounting (e : Endian) (junk : ℕ → UInt8) : FilterRaw → Bytes
  | counting cbf _ _ => (countingBloomfilterToNoncountingBase64 e junk cbf).getD []
  | raw => raw.toBase64 e junk

/-- `Bloomfilter::to_noncounting`. -/
def toNoncounting : FilterRaw → FilterRaw
  | counting cbf sized eight => normal (countingBloomfilterToNoncounting cbf)
      (FilterBlock.packed_toNoncounting eight sized).toPlain
  | raw => raw

end FilterRaw

/-- `class Bloomfilter`. -/
structure KernelFilter where
  error_rate : ℚ
  capacity : UInt32
  raw : FilterRaw

/-- `default_error_rate` and `default_capacity`, which the configuration can set. -/
structure FilterDefaults where
  error_rate : ℚ
  capacity : UInt32

/-- The filter that is made of an element. -/
structure FilterReading where
  error_rate : ℚ
  capacity : UInt32
  raw : ReceivedFilter

/-- The type that is written. -/
def writtenType (keep_counting : Bool) (type : FilterType) : FilterType :=
  if keep_counting then type else .normal

/-- The length of the text of a filter of `k` salts and `m` bins. -/
def textLength (type : FilterType) (k m : ℕ) : ℕ :=
  4 * ((12 + 4 * k + (if type = .counting then 2 * m else m / 8) + 2) / 3)

namespace KernelFilter

section Write

variable (e : Endian) (junk : ℕ → UInt8)

/-- The element with its parameters, each printed into 40 bytes. -/
def element (type : FilterType) (b64 : Bytes) (f : KernelFilter) : Metadata :=
  let m := ((Metadata.new (lit "Bloomfilter") []).setParameter (lit "type") type.toStr).setContent
    b64
  ((m.setParameter (lit "error_rate") ((DoubleText.print f.error_rate).take 39)).setParameter
    (lit "capacity") ((decimal f.capacity.toNat).take 39)).setParameter
      (lit "num_objects") ((decimal f.raw.n).take 39)

/-- `Bloomfilter::toMetadata`. -/
def toMetadata (keep_counting : Bool) (f : KernelFilter) : Option Metadata :=
  let b64 := if keep_counting then f.raw.toBase64 e junk else f.raw.toBase64NonCounting e junk
  if b64.length = 0 then none
  else some (f.element (writtenType keep_counting f.raw.type) b64)

end Write

section Read

variable (e : Endian) (defaults : FilterDefaults)

/-- A number in a parameter. The end pointer is compared with a null pointer. -/
def numberOr {T : Type*} (parse : Bytes → T) (endptr : Bytes → Option Bytes) (byDefault : T) :
    Option Bytes → T
  | none => byDefault
  | some param => if endptr param ≠ none then byDefault else parse param

/-- `Bloomfilter::fromMetadata`. -/
def fromMetadata (m : Metadata) : FilterReading :=
  { error_rate := numberOr (fun param => (DoubleText.scan param).getD 0) DoubleText.endptr
      defaults.error_rate (m.getParameter (lit "error_rate"))
    capacity := numberOr (fun param => (strtoul param).toUInt32) Transport.endptr
      defaults.capacity (m.getParameter (lit "capacity"))
    raw := filterFromMetadata e m }

end Read

end KernelFilter

namespace FilterReading

variable (sha1 : Bytes → Digest) (e : Endian)

def type (r : FilterReading) : Option FilterType :=
  match r.raw with
  | .plain _ => some .normal
  | .counting _ => some .counting
  | _ => none

def has (key : Bytes) (r : FilterReading) : Option Bool :=
  match r.raw with
  | .plain mem => (FilterBlock.read e 8 (· / 8) mem).bind fun b => bloomfilterCheck sha1 e b.2 key
  | .counting mem =>
    (FilterBlock.read e 16 id mem).bind fun b => countingBloomfilterCheck sha1 e b.2 key
  | _ => none

end FilterReading

namespace KernelFilter

/-- What was written is read as a filter of the written type, with the same answers and the same
parameters. -/
def RoundTrips (sha1 : Bytes → Digest) (e : Endian) (junk : ℕ → UInt8) (defaults : FilterDefaults)
    (keep_counting : Bool) (f : KernelFilter) : Prop :=
  ∃ m, f.toMetadata e junk keep_counting = some m ∧
    (fromMetadata e defaults m).type = some (writtenType keep_counting f.raw.type) ∧
    (∀ key, (fromMetadata e defaults m).has sha1 e key = f.raw.has sha1 e key) ∧
    (fromMetadata e defaults m).error_rate = f.error_rate ∧
    (fromMetadata e defaults m).capacity = f.capacity

/-- The length of the written text is not negative as an `int`. -/
def WrittenFits (keep_counting : Bool) (f : KernelFilter) : Prop :=
  textLength (writtenType keep_counting f.raw.type) f.raw.k f.raw.m % 2 ^ 32 < 2 ^ 31

end KernelFilter

section Text

variable (e : Endian) (junk : ℕ → UInt8)

theorem takeWhile_encode (s : Bytes) : (Base64.encode s).takeWhile (· ≠ 0) = Base64.encode s := by
  apply List.takeWhile_eq_self_iff.mpr
  intro c hc
  have hmem := Base64.mem_alphabet_of_mem_encode hc
  have hzero : (0 : UInt8) ∉ 61 :: Base64.alphabet := by
    simp only [Base64.alphabet, lit_ofList]
    decide
  simp only [ne_eq, decide_not, Bool.not_eq_eq_eq_not, Bool.not_true, decide_eq_false_iff_not]
  rintro rfl
  exact hzero hmem

namespace FilterRaw

/-- The bytes of the filter in network byte order. -/
def network : FilterRaw → Bytes
  | normal bf _ => bf.network
  | counting cbf _ _ => cbf.network

/-- What the decoder of its type makes of the text of a filter. -/
def received : FilterRaw → ReceivedFilter
  | normal bf _ => .plain (bf.image e)
  | counting cbf _ _ => .counting (cbf.image e)

/-- The length of the text is not negative as an `int`. -/
def Fits (raw : FilterRaw) : Prop := textLength raw.type raw.k raw.m % 2 ^ 32 < 2 ^ 31

theorem toBase64_cases (raw : FilterRaw) :
    raw.Fits ∧ raw.toBase64 e junk = Base64.encode raw.network ∨
      ¬ raw.Fits ∧ raw.toBase64 e junk = [] := by
  cases raw with
  | normal bf sized =>
    have hconv : cells e 1 ((bf.bins.map BitVec.toNat).map id) =
        cells .big 1 (bf.bins.map BitVec.toNat) := by
      rw [List.map_id, cells_one]
    have henc : bloomfilterToBase64 e junk (bf.image e) = encodeBlock bf.network :=
      FilterBlock.toBase64_image sized.salts e junk rfl sized.bins hconv
    have hfit : (normal bf sized).Fits ↔ bf.TextFits := by
      rw [FilterBlock.TextFits, sized.bins, Nat.div_self (by decide), one_mul]
      rfl
    rw [hfit, toBase64, henc, FilterBlock.encodeBlock_network]
    by_cases h : bf.TextFits
    · exact .inl ⟨h, by rw [if_pos h, Option.getD_some, network]⟩
    · exact .inr ⟨h, by rw [if_neg h, Option.getD_none]⟩
  | counting cbf sized eight =>
    have henc : countingBloomfilterToBase64 e junk (cbf.image e) = encodeBlock cbf.network :=
      FilterBlock.toBase64_image sized.salts e junk rfl sized.bins (cells_map_hton e 2 _)
    have hfit : (counting cbf sized eight).Fits ↔ cbf.TextFits := by
      rw [FilterBlock.TextFits, sized.bins]
      rfl
    rw [hfit, toBase64, henc, FilterBlock.encodeBlock_network]
    by_cases h : cbf.TextFits
    · exact .inl ⟨h, by rw [if_pos h, Option.getD_some, network]⟩
    · exact .inr ⟨h, by rw [if_neg h, Option.getD_none]⟩

theorem length_network (raw : FilterRaw) : 12 ≤ raw.network.length := by
  cases raw with
  | normal bf sized =>
    rw [network, FilterBlock.length_network]
    omega
  | counting cbf sized eight =>
    rw [network, FilterBlock.length_network]
    omega

theorem createFromBase64_network (raw : FilterRaw) :
    createFromBase64 e raw.type (Base64.encode raw.network) = raw.received e := by
  cases raw with
  | normal bf sized =>
    have hnet := Base64.decodeAlloc_encode bf.network
    simp only [type, network, received]
    rw [createFromBase64, if_pos rfl, receiveBloomfilter, receiveWith, hnet,
      base64ToBloomfilter_network sized.salts hnet]
    rfl
  | counting cbf sized eight =>
    have hnet := Base64.decodeAlloc_encode cbf.network
    simp only [type, network, received]
    rw [createFromBase64, if_neg (by decide), receiveCountingBloomfilter, receiveWith, hnet,
      base64ToCountingBloomfilter_network sized hnet]
    rfl

@[simp] theorem type_toNoncounting (raw : FilterRaw) : raw.toNoncounting.type = .normal := by
  cases raw <;> rfl

@[simp] theorem k_toNoncounting (raw : FilterRaw) : raw.toNoncounting.k = raw.k := by
  cases raw <;> rfl

@[simp] theorem m_toNoncounting (raw : FilterRaw) : raw.toNoncounting.m = raw.m := by
  cases raw <;> rfl

theorem toBase64NonCounting_eq (raw : FilterRaw) :
    raw.toBase64NonCounting e junk = raw.toNoncounting.toBase64 e junk := by
  cases raw <;> rfl

theorem has_toNoncounting (sha1 : Bytes → Digest) (key : Bytes) (raw : FilterRaw) :
    raw.toNoncounting.has sha1 e key = raw.has sha1 e key := by
  cases raw with
  | normal bf sized => rfl
  | counting cbf sized eight => exact FilterBlock.check_toNoncounting eight sized key

end FilterRaw

end Text

namespace KernelFilter

section Trip

variable {sha1 : Bytes → Digest} {e : Endian} {junk : ℕ → UInt8} {defaults : FilterDefaults}

/-- The filter whose text is written. -/
def published (keep_counting : Bool) (f : KernelFilter) : FilterRaw :=
  if keep_counting then f.raw else f.raw.toNoncounting

theorem type_published (keep_counting : Bool) (f : KernelFilter) :
    (f.published keep_counting).type = writtenType keep_counting f.raw.type := by
  cases keep_counting with
  | true => rfl
  | false => exact f.raw.type_toNoncounting

theorem has_published (keep_counting : Bool) (f : KernelFilter) (key : Bytes) :
    (f.published keep_counting).has sha1 e key = f.raw.has sha1 e key := by
  cases keep_counting with
  | true => rfl
  | false => exact f.raw.has_toNoncounting e sha1 key

theorem text_published (keep_counting : Bool) (f : KernelFilter) :
    (if keep_counting then f.raw.toBase64 e junk else f.raw.toBase64NonCounting e junk) =
      (f.published keep_counting).toBase64 e junk := by
  cases keep_counting with
  | true => rfl
  | false => exact f.raw.toBase64NonCounting_eq e junk

theorem writtenFits_iff (keep_counting : Bool) (f : KernelFilter) :
    f.WrittenFits keep_counting ↔ (f.published keep_counting).Fits := by
  rw [WrittenFits, FilterRaw.Fits, ← type_published]
  cases keep_counting with
  | true => rfl
  | false => simp [published]

theorem toMetadata_of_not_fits {keep_counting : Bool} {f : KernelFilter}
    (h : ¬ f.WrittenFits keep_counting) : f.toMetadata e junk keep_counting = none := by
  rw [writtenFits_iff] at h
  obtain ⟨hfit, -⟩ | ⟨-, htext⟩ := (f.published keep_counting).toBase64_cases e junk
  · exact absurd hfit h
  · simp only [toMetadata, text_published, htext, List.length_nil, if_true]

theorem toMetadata_of_fits {keep_counting : Bool} {f : KernelFilter}
    (h : f.WrittenFits keep_counting) :
    f.toMetadata e junk keep_counting = some (f.element (f.published keep_counting).type
      (Base64.encode (f.published keep_counting).network)) := by
  rw [writtenFits_iff] at h
  obtain ⟨-, htext⟩ | ⟨hfit, -⟩ := (f.published keep_counting).toBase64_cases e junk
  · have hnet := (f.published keep_counting).length_network
    have hlen : (Base64.encode (f.published keep_counting).network).length ≠ 0 := by
      rw [Base64.length_encode]
      omega
    simp only [toMetadata, text_published, htext, hlen, if_false, type_published]
  · exact absurd h hfit

/-- The name and the parameters of an element. -/
theorem element_spec (type : FilterType) (b64 : Bytes) (f : KernelFilter) :
    (f.element type b64).name = lit "Bloomfilter" ∧ (f.element type b64).content = b64 ∧
      (f.element type b64).getParameter (lit "type") = some type.toStr ∧
      (f.element type b64).getParameter (lit "error_rate") =
        some ((DoubleText.print f.error_rate).take 39) ∧
      (f.element type b64).getParameter (lit "capacity") =
        some ((decimal f.capacity.toNat).take 39) := by
  refine ⟨rfl, rfl, ?_, ?_, ?_⟩
  · rw [element, Metadata.getParameter_setParameter_of_ne _ (by decide),
      Metadata.getParameter_setParameter_of_ne _ (by decide),
      Metadata.getParameter_setParameter_of_ne _ (by decide)]
    exact Metadata.getParameter_setParameter_self _ _ _
  · rw [element, Metadata.getParameter_setParameter_of_ne _ (by decide),
      Metadata.getParameter_setParameter_of_ne _ (by decide),
      Metadata.getParameter_setParameter_self]
  · rw [element, Metadata.getParameter_setParameter_of_ne _ (by decide),
      Metadata.getParameter_setParameter_self]

theorem endptr_ne_none (s : Bytes) : DoubleText.endptr s ≠ none ∧ Transport.endptr s ≠ none :=
  ⟨nofun, nofun⟩

/-- The reader gets the block that was written, and the defaults whatever the parameters say. -/
theorem fromMetadata_toMetadata {keep_counting : Bool} {f : KernelFilter} {m : Metadata}
    (h : f.toMetadata e junk keep_counting = some m) :
    fromMetadata e defaults m = ⟨defaults.error_rate, defaults.capacity,
      (f.published keep_counting).received e⟩ := by
  have hfit : f.WrittenFits keep_counting := by
    by_contra hfit
    rw [toMetadata_of_not_fits hfit] at h
    cases h
  obtain rfl := Option.some.inj (h.symm.trans (toMetadata_of_fits hfit))
  obtain ⟨hname, hcontent, htype, hrate, hcapacity⟩ := f.element_spec
    (f.published keep_counting).type (Base64.encode (f.published keep_counting).network)
  have hraw : filterFromMetadata e (f.element (f.published keep_counting).type
      (Base64.encode (f.published keep_counting).network)) =
        (f.published keep_counting).received e := by
    have hdefined : (f.published keep_counting).type ≠ .undefined := by
      cases f.published keep_counting <;> nofun
    rw [filterFromMetadata, if_neg (not_not_intro hname), htype]
    simp only [strToType_toStr, hdefined, if_false]
    rw [hcontent, takeWhile_encode, FilterRaw.createFromBase64_network]
  rw [fromMetadata, hrate, hcapacity, hraw]
  simp only [numberOr, ne_eq, (endptr_ne_none _).1, (endptr_ne_none _).2, not_false_eq_true, if_true]

theorem type_received (raw : FilterRaw) (error_rate : ℚ) (capacity : UInt32) :
    (FilterReading.mk error_rate capacity (raw.received e)).type = some raw.type := by
  cases raw <;> rfl

theorem has_received (raw : FilterRaw) (error_rate : ℚ) (capacity : UInt32) (key : Bytes) :
    (FilterReading.mk error_rate capacity (raw.received e)).has sha1 e key =
      raw.has sha1 e key := by
  cases raw with
  | normal bf sized =>
    have hread : FilterBlock.read e 8 (· / 8) (bf.image e) = some (bf.k, bf) :=
      FilterBlock.read_image sized.salts e rfl sized.bins
    simp only [FilterReading.has, FilterRaw.received, hread]
    rfl
  | counting cbf sized eight =>
    have hread : FilterBlock.read e 16 id (cbf.image e) = some (cbf.k, cbf) :=
      FilterBlock.read_image sized.salts e rfl sized.bins
    simp only [FilterReading.has, FilterRaw.received, hread]
    rfl

/-- A filter survives, of either type and counting or not, exactly when it was made for the error
rate and the capacity that the reader has for defaults and its text fits. -/
theorem parametersSurvive_iff (sha1 : Bytes → Digest) (e : Endian) (junk : ℕ → UInt8)
    (defaults : FilterDefaults) (keep_counting : Bool) (f : KernelFilter) :
    f.RoundTrips sha1 e junk defaults keep_counting ↔
      f.error_rate = defaults.error_rate ∧ f.capacity = defaults.capacity ∧
        f.WrittenFits keep_counting := by
  constructor
  · rintro ⟨m, hm, -, -, hrate, hcapacity⟩
    rw [fromMetadata_toMetadata hm] at hrate hcapacity
    refine ⟨hrate.symm, hcapacity.symm, ?_⟩
    by_contra hfit
    rw [toMetadata_of_not_fits hfit] at hm
    cases hm
  · rintro ⟨hrate, hcapacity, hfit⟩
    have hm := @toMetadata_of_fits e junk keep_counting f hfit
    refine ⟨_, hm, ?_⟩
    rw [fromMetadata_toMetadata hm]
    refine ⟨?_, fun key => ?_, hrate.symm, hcapacity.symm⟩
    · rw [type_received, type_published]
    · rw [has_received, has_published]

end Trip

end KernelFilter

namespace Sample

/-- `DEFAULT_BLOOMFILTER_ERROR_RATE` and `DEFAULT_BLOOMFILTER_CAPACITY`. -/
def bloomfilterDefaults : FilterDefaults := ⟨1 / 100, 2000⟩

/-- A filter that was made for an error rate of two percent. -/
def twoPercent : KernelFilter := ⟨1 / 50, 2000, .normal plainBlock plain_plainBlock⟩

/-- The error rate has less than six decimals, and what is read has the default one. -/
theorem not_roundTrips_twoPercent :
    twoPercent.error_rate * 1000000 = 20000 ∧
      ∀ (sha1 : Bytes → Digest) (keep_counting : Bool),
        ¬ twoPercent.RoundTrips sha1 .little (fun _ => 0) bloomfilterDefaults keep_counting := by
  refine ⟨by norm_num [twoPercent], ?_⟩
  rintro sha1 keep_counting ⟨m, hm, -, -, hrate, -⟩
  rw [KernelFilter.fromMetadata_toMetadata hm] at hrate
  norm_num [twoPercent, bloomfilterDefaults] at hrate

end Sample
end Haggle
