import Haggle.FilterMerge
import Haggle.FilterCounting
import Haggle.Metadata

/-!
# Filters from other nodes

A node description brings a filter as base64 text. `base64_to_bloomfilter` and
`base64_to_counting_bloomfilter` decode the text and swap the numbers in place: `k` and `m`, as the
other node wrote them, say how far the loops go, and nothing compares them with the length of what
was decoded. The same numbers drive every operation on the filter afterwards.
-/

namespace Haggle

open ByteOrder

section Uses

variable (sha1 : Bytes → Digest) (e : Endian)

/-- What a node does with a filter that it got. -/
inductive PlainUse
  | check (key : Bytes)
  | add (key : Bytes)
  | merge (bfMerge : FilterBlock 8)

/-- One use. A merge walks `m / 8` bins of both filters. -/
def PlainUse.apply (bf : FilterBlock 8) : PlainUse → Option (FilterBlock 8)
  | .check key => (bloomfilterCheck sha1 e bf key).map fun _ => bf
  | .add key => bloomfilterAdd sha1 e bf key
  | .merge bfMerge =>
    let r := bloomfilterMerge bf (some bfMerge)
    if r.1 = .ok ∧ ¬ (bf.m.toNat / 8 ≤ bf.bins.length ∧ bf.m.toNat / 8 ≤ bfMerge.bins.length) then
      none
    else some r.2

/-- The other filter of a merge is as long as it says. -/
def PlainUse.Sized : PlainUse → Prop
  | .merge bfMerge => bfMerge.Plain
  | _ => True

inductive CountingUse
  | check (key : Bytes)
  | add (key : Bytes)
  | remove (key : Bytes)

def CountingUse.apply (bf : FilterBlock 16) : CountingUse → Option (FilterBlock 16)
  | .check key => (countingBloomfilterCheck sha1 e bf key).map fun _ => bf
  | .add key => countingBloomfilterAdd sha1 e bf key
  | .remove key => countingBloomfilterRemove sha1 e bf key

end Uses

section Received

variable (e : Endian)

/-- What becomes of a text: `NULL`, a block of memory behind a `bf` or a `cbf`, or a decoder that
left the block it was working on. -/
inductive ReceivedFilter
  | null
  | outside
  | plain (mem : Bytes)
  | counting (mem : Bytes)
deriving DecidableEq

def receiveWith (decoder : Bytes → Option Bytes) (wrap : Bytes → ReceivedFilter) (b64 : Bytes) :
    ReceivedFilter :=
  match Base64.decodeAlloc b64 with
  | none => .null
  | some _ => (decoder b64).elim .outside wrap

def receiveBloomfilter (b64 : Bytes) : ReceivedFilter :=
  receiveWith (base64ToBloomfilter e) .plain b64

def receiveCountingBloomfilter (b64 : Bytes) : ReceivedFilter :=
  receiveWith (base64ToCountingBloomfilter e) .counting b64

/-- `Bloomfilter::Type_t`. -/
inductive FilterType
  | normal
  | counting
  | undefined
deriving DecidableEq

/-- `Bloomfilter::strToType`. -/
def strToType (str : Bytes) : FilterType :=
  if str = lit "normal" then .normal
  else if str = lit "counting" then .counting
  else .undefined

/-- `Bloomfilter::create_from_base64`. -/
def createFromBase64 (type : FilterType) (b64 : Bytes) : ReceivedFilter :=
  if type = .normal then receiveBloomfilter e b64 else receiveCountingBloomfilter e b64

/-- `Bloomfilter::fromMetadata`, which hands the content on as a C string. -/
def filterFromMetadata (m : Metadata) : ReceivedFilter :=
  if m.name ≠ lit "Bloomfilter" then .null
  else match m.getParameter (lit "type") with
    | none => .null
    | some param =>
      if strToType param = .undefined then .null
      else createFromBase64 e (strToType param) (m.content.takeWhile (· ≠ 0))

/-- The block is as long as its `k` and `m` say, it has a bin, and every further use of it, in any
order, stays inside: whatever the digests of the keys are. -/
def SafePlain (mem : Bytes) : Prop :=
  ∃ k m n bf, getHeader e mem = some (k, m, n) ∧ mem.length = 12 + 4 * k + m / 8 ∧ 0 < m ∧
    FilterBlock.read e 8 (· / 8) mem = some (k, bf) ∧
    ∀ (sha1 : Bytes → Digest) (uses : List PlainUse), (∀ u ∈ uses, u.Sized) →
      ∃ bf', uses.foldlM (PlainUse.apply sha1 e) bf = some bf'

def SafeCounting (mem : Bytes) : Prop :=
  ∃ k m n bf, getHeader e mem = some (k, m, n) ∧ mem.length = 12 + 4 * k + 2 * m ∧ 0 < m ∧
    FilterBlock.read e 16 id mem = some (k, bf) ∧
    ∀ (sha1 : Bytes → Digest) (uses : List CountingUse),
      ∃ bf', uses.foldlM (CountingUse.apply sha1 e) bf = some bf'

def ReceivedFilter.Safe : ReceivedFilter → Prop
  | .null => True
  | .outside => False
  | .plain mem => SafePlain e mem
  | .counting mem => SafeCounting e mem

end Received

section Sizes

/-- The header of what was decoded, highest byte first, gives its length, and every index that it
allows is in reach. -/
structure SizedPlain (net : Bytes) (k m : ℕ) : Prop where
  header : ∃ n, getHeader .big net = some (k, m, n)
  length : net.length = 12 + 4 * k + m / 8
  bins : 0 < m
  reach : k = 0 ∨ 8 ∣ m ∧ m ≤ 2 ^ 31

structure SizedCounting (net : Bytes) (k m : ℕ) : Prop where
  header : ∃ n, getHeader .big net = some (k, m, n)
  length : net.length = 12 + 4 * k + 2 * m
  bins : 0 < m
  reach : k = 0 ∨ m ≤ 2 ^ 31

/-- The text does not decode, or it decodes to a plain filter of the right size. -/
def PlainText (b64 : Bytes) : Prop :=
  ∀ net, Base64.decodeAlloc b64 = some net → ∃ k m, SizedPlain net k m

def CountingText (b64 : Bytes) : Prop :=
  ∀ net, Base64.decodeAlloc b64 = some net → ∃ k m, SizedCounting net k m

def TypedText (type : FilterType) (b64 : Bytes) : Prop :=
  if type = .normal then PlainText b64 else CountingText b64

/-- The element is no filter, or its text is as its type demands. -/
def FilterMetadataFits (m : Metadata) : Prop :=
  m.name = lit "Bloomfilter" → ∀ param ∈ m.getParameter (lit "type"),
    strToType param ≠ .undefined → TypedText (strToType param) (m.content.takeWhile (· ≠ 0))

end Sizes

section Reach

variable {sha1 : Bytes → Digest} {e : Endian}

/-- A digest with a given exclusive or. -/
def digestOf (e : Endian) (i : ℕ) : Digest :=
  ⟨store e 4 i ++ List.replicate 16 0, by simp⟩

theorem xorDigest_digestOf {i : ℕ} (hi : i < 2 ^ 32) :
    xorDigest e (digestOf e i).1 = BitVec.ofNat 32 i := by
  obtain ⟨a, b, c, d, habcd⟩ : ∃ a b c d, store e 4 i = [a, b, c, d] := by
    match hs : store e 4 i, length_store e 4 i with
    | [a, b, c, d], _ => exact ⟨a, b, c, d, rfl⟩
  have hload := load_store e (show i < 256 ^ 4 from hi)
  have hzero : xorDigest e (List.replicate 16 0) = 0 := by cases e <;> decide
  have hval : (digestOf e i).1 = [a, b, c, d] ++ List.replicate 16 0 := by
    rw [← habcd]
    rfl
  rw [habcd] at hload
  rw [hval, List.cons_append, List.cons_append, List.cons_append, List.cons_append,
    List.nil_append, xorDigest, hload, hzero]
  exact BitVec.xor_zero

theorem hashIndex_digestOf {m : BitVec 32} {i : ℕ} (hi : i < m.toNat) (key : Bytes)
    (salt : BitVec 32) :
    hashIndex (fun _ => digestOf e i) e m key salt = some (BitVec.ofNat 32 i) := by
  have hm := m.isLt
  have hne : m ≠ 0 := by
    rintro rfl
    simp at hi
  rw [hashIndex, if_neg hne, xorDigest_digestOf (lt_trans hi hm)]
  congr 1
  apply BitVec.eq_of_toNat_eq
  rw [BitVec.toNat_umod, BitVec.toNat_ofNat, Nat.mod_eq_of_lt (lt_trans hi hm), Nat.mod_eq_of_lt hi]

/-- Some digest leads out of the filter if the last bins have no byte or an index is negative. -/
theorem exists_check_eq_none {bf : FilterBlock 8} (hbf : bf.Plain) (hpos : 0 < bf.m.toNat)
    (hk : bf.salts ≠ []) (hreach : ¬ (8 ∣ bf.m.toNat ∧ bf.m.toNat ≤ 2 ^ 31)) (key : Bytes) :
    ∃ sha1 : Bytes → Digest, bloomfilterCheck sha1 e bf key = none := by
  have hm := bf.m.isLt
  -- an index below `m` whose byte is not there
  obtain ⟨i, hi, hout⟩ : ∃ i < bf.m.toNat, testBit bf.bins (BitVec.ofNat 32 i) = none := by
    by_cases hle : bf.m.toNat ≤ 2 ^ 31
    · have height : ¬ 8 ∣ bf.m.toNat := fun h => hreach ⟨h, hle⟩
      have hi : 8 * (bf.m.toNat / 8) < bf.m.toNat := by omega
      refine ⟨8 * (bf.m.toNat / 8), hi, ?_⟩
      have hnat : (BitVec.ofNat 32 (8 * (bf.m.toNat / 8))).toNat = 8 * (bf.m.toNat / 8) := by
        rw [BitVec.toNat_ofNat, Nat.mod_eq_of_lt (lt_trans hi hm)]
      rw [testBit, sizeIndex_of_lt (by omega), hnat, Nat.mul_div_cancel_left _ (by norm_num),
        ← hbf.bins, List.getElem?_eq_none le_rfl, Option.map_none]
    · refine ⟨2 ^ 31, by omega, ?_⟩
      have hbig := @le_sizeIndex (BitVec.ofNat 32 (2 ^ 31)) (by decide)
      have hlen := hbf.bins
      rw [testBit, List.getElem?_eq_none (by omega), Option.map_none]
  refine ⟨fun _ => digestOf e i, ?_⟩
  obtain ⟨salt, l, hsalts⟩ := List.exists_cons_of_ne_nil hk
  rw [bloomfilterCheck, hsalts, checkSalts, hashIndex_digestOf hi]
  simp [hout]

theorem exists_countingCheck_eq_none {bf : FilterBlock 16} (hk : bf.salts ≠ [])
    (hreach : ¬ bf.m.toNat ≤ 2 ^ 31) (key : Bytes) :
    ∃ sha1 : Bytes → Digest, countingBloomfilterCheck sha1 e bf key = none := by
  obtain ⟨i, hi, hout⟩ : ∃ i < bf.m.toNat, countingBin bf.bins (BitVec.ofNat 32 i) = none := by
    refine ⟨2 ^ 31, by omega, ?_⟩
    rw [countingBin, if_pos (by decide)]
  refine ⟨fun _ => digestOf e i, ?_⟩
  obtain ⟨salt, l, hsalts⟩ := List.exists_cons_of_ne_nil hk
  rw [countingBloomfilterCheck, hsalts, checkSalts, hashIndex_digestOf hi]
  simp [hout]

end Reach

section Run

variable {sha1 : Bytes → Digest} {e : Endian}

theorem bloomfilterCheck_isSome {bf : FilterBlock 8} (hbf : bf.Plain) (hpos : 0 < bf.m.toNat)
    (hreach : bf.salts = [] ∨ 8 ∣ bf.m.toNat ∧ bf.m.toNat ≤ 2 ^ 31) (key : Bytes) :
    ∃ r, bloomfilterCheck sha1 e bf key = some r := by
  obtain hnil | ⟨height, hle⟩ := hreach
  · exact ⟨true, by rw [bloomfilterCheck, hnil, checkSalts]⟩
  · have hset : ∀ salt ∈ bf.salts, (do testBit bf.bins (← hashIndex sha1 e bf.m key salt)) =
        some (Bloomfilter.getBit bf.bins (position sha1 e bf.m key salt)) := by
      intro salt _
      rw [testBit_hashIndex height hbf, if_pos (indexFits_of_le hpos hle key salt)]
    exact ⟨_, checkSalts_eq_all hset⟩

theorem bloomfilterAdd_isSome {bf : FilterBlock 8} (hbf : bf.Plain) (hpos : 0 < bf.m.toNat)
    (hreach : bf.salts = [] ∨ 8 ∣ bf.m.toNat ∧ bf.m.toNat ≤ 2 ^ 31) (key : Bytes) :
    ∃ bf', bloomfilterAdd sha1 e bf key = some bf' ∧ bf'.m = bf.m ∧ bf'.salts = bf.salts ∧
      bf'.Plain := by
  obtain hnil | ⟨height, hle⟩ := hreach
  · refine ⟨{ bf with n := bf.n + 1 }, ?_, rfl, rfl, hbf.salts, hbf.bins⟩
    rw [bloomfilterAdd, hnil, List.foldlM_nil]
    rfl
  · rw [bloomfilterAdd_eq height hbf, if_pos fun salt _ => indexFits_of_le hpos hle key salt]
    refine ⟨_, rfl, rfl, rfl, hbf.salts, ?_⟩
    rw [FilterBlock.length_foldl_setBit, hbf.bins]

theorem PlainUse.apply_isSome {bf : FilterBlock 8} (hbf : bf.Plain) (hpos : 0 < bf.m.toNat)
    (hreach : bf.salts = [] ∨ 8 ∣ bf.m.toNat ∧ bf.m.toNat ≤ 2 ^ 31) {u : PlainUse}
    (hu : u.Sized) :
    ∃ bf', u.apply sha1 e bf = some bf' ∧ bf'.m = bf.m ∧ bf'.salts = bf.salts ∧ bf'.Plain := by
  cases u with
  | check key =>
    obtain ⟨r, hr⟩ := @bloomfilterCheck_isSome sha1 e bf hbf hpos hreach key
    exact ⟨bf, by rw [apply, hr, Option.map_some], rfl, rfl, hbf⟩
  | add key => exact bloomfilterAdd_isSome hbf hpos hreach key
  | merge other =>
    obtain ⟨hne, heq⟩ | ⟨b', hb', hm, hsalts, heq⟩ := FilterBlock.merge_cases bf (some other)
    · refine ⟨bf, ?_, rfl, rfl, hbf⟩
      rw [apply, if_neg (fun h => hne h.1), heq]
    · obtain rfl := Option.some.inj hb'
      have hlen := hbf.bins
      have hlen' : other.bins.length = bf.m.toNat / 8 := by rw [hu.bins, hm]
      have happly : apply sha1 e bf (.merge other) = some (bloomfilterMerge bf (some other)).2 := by
        rw [apply, if_neg (fun h => h.2 ⟨hlen.ge, hlen'.ge⟩)]
      refine ⟨_, happly, ?_⟩
      rw [heq]
      refine ⟨rfl, rfl, hbf.salts, ?_⟩
      simp only [List.length_zipWith]
      omega

/-- A plain filter of the right size takes every use, one after the other. -/
theorem foldlM_plainUse {bf : FilterBlock 8} (hbf : bf.Plain) (hpos : 0 < bf.m.toNat)
    (hreach : bf.salts = [] ∨ 8 ∣ bf.m.toNat ∧ bf.m.toNat ≤ 2 ^ 31) {uses : List PlainUse}
    (huses : ∀ u ∈ uses, u.Sized) :
    ∃ bf', uses.foldlM (PlainUse.apply sha1 e) bf = some bf' := by
  induction uses generalizing bf with
  | nil => exact ⟨bf, rfl⟩
  | cons u uses ih =>
    obtain ⟨bf₁, happly, hm, hsalts, hplain⟩ :=
      @PlainUse.apply_isSome sha1 e bf hbf hpos hreach u (huses u (by simp))
    rw [← hm] at hpos
    rw [← hm, ← hsalts] at hreach
    obtain ⟨bf', hrest⟩ := ih hplain hpos hreach (fun v hv => huses v (by simp [hv]))
    exact ⟨bf', by rw [List.foldlM_cons, happly, Option.bind_eq_bind, Option.bind_some, hrest]⟩

theorem counting_of_counts {bf bf' : FilterBlock 16} (hbf : bf.Counting) (hm : bf'.m = bf.m)
    (hsalts : bf'.salts = bf.salts)
    (hlen : (FilterBlock.counts bf'.bins).length = (FilterBlock.counts bf.bins).length) :
    bf'.Counting := by
  rw [FilterBlock.counts, FilterBlock.counts, List.length_map, List.length_map] at hlen
  constructor
  · rw [hsalts]
    exact hbf.salts
  · rw [hlen, hm]
    exact hbf.bins

theorem CountingUse.apply_isSome {bf : FilterBlock 16} (hbf : bf.Counting)
    (hfit : ∀ key, ∀ salt ∈ bf.salts, IndexFits sha1 e bf.m key salt) (u : CountingUse) :
    ∃ bf', u.apply sha1 e bf = some bf' ∧ bf'.m = bf.m ∧ bf'.salts = bf.salts ∧ bf'.Counting := by
  cases u with
  | check key =>
    refine ⟨bf, ?_, rfl, rfl, hbf⟩
    rw [apply, FilterBlock.countingBloomfilterCheck_eq hbf (hfit key), Option.map_some]
  | add key =>
    obtain ⟨bf', hadd, hm, hsalts, hcounts⟩ :=
      FilterBlock.countingBloomfilterAdd_spec hbf (hfit key)
    exact ⟨bf', hadd, hm, hsalts,
      counting_of_counts hbf hm hsalts (by rw [hcounts, CountingFilter.length_addAll])⟩
  | remove key =>
    obtain ⟨bf', hremove, hm, hsalts, hcounts⟩ :=
      FilterBlock.countingBloomfilterRemove_spec hbf (hfit key)
    exact ⟨bf', hremove, hm, hsalts,
      counting_of_counts hbf hm hsalts (by rw [hcounts, CountingFilter.length_removeAll])⟩

theorem foldlM_countingUse {bf : FilterBlock 16} (hbf : bf.Counting)
    (hfit : ∀ key, ∀ salt ∈ bf.salts, IndexFits sha1 e bf.m key salt) (uses : List CountingUse) :
    ∃ bf', uses.foldlM (CountingUse.apply sha1 e) bf = some bf' := by
  induction uses generalizing bf with
  | nil => exact ⟨bf, rfl⟩
  | cons u uses ih =>
    obtain ⟨bf₁, happly, hm, hsalts, hcounting⟩ := CountingUse.apply_isSome hbf hfit u
    rw [← hm, ← hsalts] at hfit
    obtain ⟨bf', hrest⟩ := ih hcounting hfit
    exact ⟨bf', by rw [List.foldlM_cons, happly, Option.bind_eq_bind, Option.bind_some, hrest]⟩

end Run

section Memory

variable {e : Endian}

theorem exists_header (e : Endian) {mem : Bytes} (h : 12 ≤ mem.length) :
    ∃ k m n, k < 256 ^ 4 ∧ m < 256 ^ 4 ∧ n < 256 ^ 4 ∧
      mem = cells e 4 [k, m, n] ++ mem.drop 12 := by
  have hlen : (mem.take 12).length = 4 * 3 := by
    rw [List.length_take]
    omega
  obtain ⟨l, hl, hlt, heq⟩ := exists_cells e hlen
  match l, hl with
  | [k, m, n], _ =>
    exact ⟨k, m, n, hlt k (by simp), hlt m (by simp), hlt n (by simp),
      by rw [← heq, List.take_append_drop]⟩

theorem length_of_getHeader {mem : Bytes} {k m n : ℕ} (h : getHeader e mem = some (k, m, n)) :
    12 ≤ mem.length := by
  simp only [getHeader, peek, Option.bind_eq_bind, Option.bind_eq_some_iff] at h
  obtain ⟨-, -, -, -, n', hn, -⟩ := h
  split_ifs at hn with hlen
  exact hlen

theorem eq_cells_of_getHeader {mem : Bytes} {k m n : ℕ} (h : getHeader e mem = some (k, m, n)) :
    k < 256 ^ 4 ∧ m < 256 ^ 4 ∧ n < 256 ^ 4 ∧ mem = cells e 4 [k, m, n] ++ mem.drop 12 := by
  obtain ⟨k', m', n', hk, hm, hn, heq⟩ := exists_header e (length_of_getHeader h)
  have hhead := @getHeader_cells e _ _ _ hk hm hn (mem.drop 12)
  rw [← heq, h] at hhead
  simp only [Option.some.injEq, Prod.mk.injEq] at hhead
  obtain ⟨rfl, rfl, rfl⟩ := hhead
  exact ⟨hk, hm, hn, heq⟩

/-- The decoder keeps the length of the block, and the host finds in its header the numbers that
stand there highest byte first. -/
theorem headerToHost_eq_some {net mem : Bytes} (h : headerToHost e net = some mem) :
    mem.length = net.length ∧ ∃ k m n, getHeader .big net = some (k, m, n) ∧
      getHeader e mem = some (k, m, n) := by
  have hlen : 12 ≤ net.length := by
    simp only [headerToHost, Option.bind_eq_bind, Option.bind_eq_some_iff] at h
    obtain ⟨⟨k, m, n⟩, hhead, -⟩ := h
    exact length_of_getHeader hhead
  obtain ⟨k, m, n, hk, hm, hn, hnet⟩ := exists_header .big hlen
  have hbig := @getHeader_cells .big _ _ _ hk hm hn (net.drop 12)
  have hswap := cells_map_hton e 4 [k, m, n]
  simp only [List.map_cons, List.map_nil] at hswap
  have hhost := @getHeader_cells e _ _ _ (hton_lt e hk) (hton_lt e hm) (hton_lt e hn) (net.drop 12)
  rw [hswap, ← hnet] at hhost
  have hset := @setHeader_eq e k m n net hlen
  have hpeek := peek_append e hk List.length_nil (store e 4 m ++ (store e 4 n ++ net.drop 12))
  have hpeek' : peek e 4 0 (cells e 4 [k, m, n] ++ net.drop 12) = some k := by simpa using hpeek
  rw [headerToHost, hhost] at h
  simp only [Option.bind_eq_bind, Option.bind_some, hton_hton e hk, hton_hton e hm,
    hton_hton e hn] at h
  rw [hset, Option.bind_some, hpeek', Option.bind_some] at h
  obtain ⟨hlen', htake⟩ := mapCells_eq_some h
  rw [List.take_left' (length_header k m n)] at htake
  have hmem : mem = cells e 4 [k, m, n] ++ mem.drop 12 := by
    rw [← htake, List.take_append_drop]
  rw [← hnet] at hbig
  refine ⟨?_, k, m, n, hbig, ?_⟩
  · rw [hlen', List.length_append, length_header, List.length_drop]
    omega
  · rw [hmem]
    exact getHeader_cells hk hm hn _

/-- What has the length that its header says is the network form of a filter. -/
theorem exists_network {net : Bytes} {k m n : ℕ} (hhead : getHeader .big net = some (k, m, n))
    {w : ℕ} (hw : 256 ^ (w / 8) = 2 ^ w) {count : ℕ}
    (hlen : net.length = 12 + 4 * k + w / 8 * count) :
    ∃ b : FilterBlock w, net = b.network ∧ b.k = k ∧ b.m.toNat = m ∧ b.bins.length = count ∧
      b.salts.length < 2 ^ 32 := by
  obtain ⟨hk, hm, hn, hnet⟩ := eq_cells_of_getHeader hhead
  have hsalts : ((net.drop 12).take (4 * k)).length = 4 * k := by
    rw [List.length_take, List.length_drop]
    omega
  have hbins : ((net.drop 12).drop (4 * k)).length = w / 8 * count := by
    rw [List.length_drop, List.length_drop]
    omega
  obtain ⟨salts, hslen, hslt, hseq⟩ := exists_cells .big hsalts
  obtain ⟨bins, hblen, hblt, hbeq⟩ := exists_cells .big hbins
  have hback : ∀ {v : ℕ} {l : List ℕ}, (∀ u ∈ l, u < 2 ^ v) →
      (l.map (BitVec.ofNat v)).map BitVec.toNat = l := by
    intro v l hl
    rw [List.map_map]
    conv_rhs => rw [← List.map_id l]
    apply List.map_congr_left
    intro u hu
    simp [Nat.mod_eq_of_lt (hl u hu)]
  rw [hw] at hblt
  refine ⟨⟨BitVec.ofNat 32 m, BitVec.ofNat 32 n, salts.map (BitVec.ofNat 32),
    bins.map (BitVec.ofNat w)⟩, ?_, ?_, ?_, ?_, ?_⟩
  · rw [FilterBlock.network, FilterBlock.image_eq]
    simp only [FilterBlock.k, List.length_map, BitVec.toNat_ofNat]
    rw [hback hslt, hback hblt, ← hseq, ← hbeq, List.take_append_drop, hslen,
      Nat.mod_eq_of_lt (show m < 2 ^ 32 from hm), Nat.mod_eq_of_lt (show n < 2 ^ 32 from hn)]
    exact hnet
  · simp only [FilterBlock.k, List.length_map, hslen]
  · simp only [BitVec.toNat_ofNat, Nat.mod_eq_of_lt (show m < 2 ^ 32 from hm)]
  · simp only [List.length_map, hblen]
  · simp only [List.length_map, hslen]
    exact hk

theorem base64ToBloomfilter_network {b64 : Bytes} {b : FilterBlock 8}
    (hk : b.salts.length < 2 ^ 32) (hnet : Base64.decodeAlloc b64 = some b.network) :
    base64ToBloomfilter e b64 = some (b.image e) := by
  rw [base64ToBloomfilter, hnet, Option.bind_eq_bind, Option.bind_some,
    FilterBlock.headerToHost_network hk, ← cells_one e (b.bins.map BitVec.toNat)]
  rfl

theorem base64ToCountingBloomfilter_network {b64 : Bytes} {b : FilterBlock 16} (hb : b.Counting)
    (hnet : Base64.decodeAlloc b64 = some b.network) :
    base64ToCountingBloomfilter e b64 = some (b.image e) := by
  have hbins : ∀ v ∈ b.bins.map BitVec.toNat, v < 256 ^ 2 :=
    fun _ hv => FilterBlock.toNat_lt_of_mem hv
  have hhead := @getHeader_cells e _ _ _ hb.salts b.m.isLt b.n.isLt
    (cells e 4 (b.salts.map BitVec.toNat) ++ cells .big 2 (b.bins.map BitVec.toNat))
  have hpre : (cells e 4 [b.k, b.m.toNat, b.n.toNat] ++
      cells e 4 (b.salts.map BitVec.toNat)).length = 12 + 4 * b.k := by
    rw [List.length_append, length_header, length_cells, List.length_map]
  have hmap := mapCells_hton e hbins hpre []
  rw [List.length_map, hb.bins, List.append_nil, List.append_nil, List.append_assoc,
    List.append_assoc] at hmap
  rw [base64ToCountingBloomfilter, hnet]
  simp only [Option.bind_eq_bind, Option.bind_some]
  rw [FilterBlock.headerToHost_network hb.salts, Option.bind_some, hhead, Option.bind_some]
  exact hmap

theorem base64ToCountingBloomfilter_eq_some {b64 net mem : Bytes}
    (hnet : Base64.decodeAlloc b64 = some net)
    (h : base64ToCountingBloomfilter e b64 = some mem) :
    mem.length = net.length ∧ ∃ k m n, getHeader .big net = some (k, m, n) ∧
      getHeader e mem = some (k, m, n) := by
  simp only [base64ToCountingBloomfilter, hnet, Option.bind_eq_bind, Option.bind_some,
    Option.bind_eq_some_iff] at h
  obtain ⟨mem₁, hhost, ⟨k, m, n⟩, hhead, hmap⟩ := h
  obtain ⟨hlen, k', m', n', hbig, hhead'⟩ := headerToHost_eq_some hhost
  rw [hhead] at hhead'
  simp only [Option.some.injEq, Prod.mk.injEq] at hhead'
  obtain ⟨rfl, rfl, rfl⟩ := hhead'
  obtain ⟨hlen', htake⟩ := mapCells_eq_some hmap
  obtain ⟨hk, hm, hn, hcells⟩ := eq_cells_of_getHeader hhead
  -- the bins follow the header, so the loop over them leaves it as it is
  have htake' : mem.take 12 = mem₁.take 12 := by
    have hcut := congrArg (List.take 12) htake
    rwa [List.take_take, List.take_take, Nat.min_eq_left (by omega)] at hcut
  rw [hcells, List.take_left' (length_header k m n)] at htake'
  refine ⟨hlen'.trans hlen, k, m, n, hbig, ?_⟩
  have hmem : mem = cells e 4 [k, m, n] ++ mem.drop 12 := by rw [← htake', List.take_append_drop]
  rw [hmem]
  exact getHeader_cells hk hm hn _

theorem length_image {w : ℕ} (b : FilterBlock w) :
    (b.image e).length = 12 + 4 * b.k + w / 8 * b.bins.length := by
  rw [FilterBlock.image_eq, List.length_append, List.length_append, length_header, length_cells,
    length_cells, List.length_map, List.length_map]
  ring

theorem getHeader_image {w : ℕ} {b : FilterBlock w} (hk : b.salts.length < 2 ^ 32) :
    getHeader e (b.image e) = some (b.k, b.m.toNat, b.n.toNat) := by
  rw [FilterBlock.image_eq]
  exact getHeader_cells hk b.m.isLt b.n.isLt _

theorem safePlain_image_iff {b : FilterBlock 8} (hb : b.Plain) (hpos : 0 < b.m.toNat) :
    SafePlain e (b.image e) ↔ b.salts = [] ∨ 8 ∣ b.m.toNat ∧ b.m.toNat ≤ 2 ^ 31 := by
  have hread : FilterBlock.read e 8 (· / 8) (b.image e) = some (b.k, b) :=
    FilterBlock.read_image hb.salts e rfl hb.bins
  constructor
  · rintro ⟨k, m, n, bf, -, -, -, hread', huses⟩
    rw [hread] at hread'
    obtain ⟨-, rfl⟩ := Prod.mk.inj (Option.some.inj hread')
    by_contra hreach
    rw [not_or] at hreach
    obtain ⟨sha1, hnone⟩ := @exists_check_eq_none e b hb hpos hreach.1 hreach.2 []
    obtain ⟨bf', hbf'⟩ := huses sha1 [.check []] (by simp [PlainUse.Sized])
    simp [PlainUse.apply, hnone] at hbf'
  · intro hreach
    refine ⟨_, _, _, b, getHeader_image hb.salts, ?_, hpos, hread, ?_⟩
    · rw [length_image, hb.bins]
      omega
    · intro sha1 uses huses
      exact foldlM_plainUse hb hpos hreach huses

theorem safeCounting_image_iff {b : FilterBlock 16} (hb : b.Counting) (hpos : 0 < b.m.toNat) :
    SafeCounting e (b.image e) ↔ b.salts = [] ∨ b.m.toNat ≤ 2 ^ 31 := by
  have hread : FilterBlock.read e 16 id (b.image e) = some (b.k, b) :=
    FilterBlock.read_image hb.salts e rfl hb.bins
  constructor
  · rintro ⟨k, m, n, bf, -, -, -, hread', huses⟩
    rw [hread] at hread'
    obtain ⟨-, rfl⟩ := Prod.mk.inj (Option.some.inj hread')
    by_contra hreach
    rw [not_or] at hreach
    obtain ⟨sha1, hnone⟩ := @exists_countingCheck_eq_none e b hreach.1 hreach.2 []
    obtain ⟨bf', hbf'⟩ := huses sha1 [.check []]
    simp [CountingUse.apply, hnone] at hbf'
  · intro hreach
    refine ⟨_, _, _, b, getHeader_image hb.salts, ?_, hpos, hread, ?_⟩
    · rw [length_image, hb.bins]
    · intro sha1 uses
      apply foldlM_countingUse hb
      intro key salt hsalt
      obtain hnil | hle := hreach
      · rw [hnil] at hsalt
        cases hsalt
      · exact indexFits_of_le hpos hle key salt

end Memory

section Text

variable (e : Endian)

theorem receiveWith_safe_iff (decoder : Bytes → Option Bytes) (wrap : Bytes → ReceivedFilter)
    (b64 : Bytes) : (receiveWith decoder wrap b64).Safe e ↔
      ∀ net, Base64.decodeAlloc b64 = some net →
        ∃ mem, decoder b64 = some mem ∧ (wrap mem).Safe e := by
  unfold receiveWith
  cases Base64.decodeAlloc b64 with
  | none => simp [ReceivedFilter.Safe]
  | some net => cases decoder b64 <;> simp [ReceivedFilter.Safe]

theorem salts_eq_nil_iff {w : ℕ} (b : FilterBlock w) : b.salts = [] ↔ b.k = 0 :=
  List.length_eq_zero_iff.symm

theorem receiveBloomfilter_safe_iff (b64 : Bytes) :
    (receiveBloomfilter e b64).Safe e ↔ PlainText b64 := by
  rw [receiveBloomfilter, receiveWith_safe_iff, PlainText]
  apply forall₂_congr
  intro net hnet
  constructor
  · rintro ⟨mem, hmem, k, m, n, bf, hhead, hlen, hpos, hrest⟩
    have hhost : headerToHost e net = some mem := by
      simpa [base64ToBloomfilter, hnet] using hmem
    obtain ⟨hsame, k', m', n', hbig, hhead'⟩ := headerToHost_eq_some hhost
    have hheads := hhead'.symm.trans hhead
    simp only [Option.some.injEq, Prod.mk.injEq] at hheads
    obtain ⟨rfl, rfl, rfl⟩ := hheads
    have hnetlen : net.length = 12 + 4 * k' + m' / 8 := hsame.symm.trans hlen
    obtain ⟨b, rfl, rfl, rfl, hbins, hsalts⟩ :=
      @exists_network net k' m' n' hbig 8 rfl (m' / 8) (by omega)
    rw [base64ToBloomfilter_network hsalts hnet] at hmem
    obtain rfl := Option.some.inj hmem
    have hreach := (safePlain_image_iff ⟨hsalts, hbins⟩ hpos).mp
      ⟨_, _, _, bf, hhead, hlen, hpos, hrest⟩
    rw [salts_eq_nil_iff] at hreach
    exact ⟨b.k, b.m.toNat, ⟨n', hbig⟩, hnetlen, hpos, hreach⟩
  · rintro ⟨k, m, ⟨n, hbig⟩, hlen, hpos, hreach⟩
    obtain ⟨b, rfl, rfl, rfl, hbins, hsalts⟩ :=
      @exists_network net k m n hbig 8 rfl (m / 8) (by omega)
    rw [← salts_eq_nil_iff] at hreach
    exact ⟨b.image e, base64ToBloomfilter_network hsalts hnet,
      (safePlain_image_iff ⟨hsalts, hbins⟩ hpos).mpr hreach⟩

theorem receiveCountingBloomfilter_safe_iff (b64 : Bytes) :
    (receiveCountingBloomfilter e b64).Safe e ↔ CountingText b64 := by
  rw [receiveCountingBloomfilter, receiveWith_safe_iff, CountingText]
  apply forall₂_congr
  intro net hnet
  constructor
  · rintro ⟨mem, hmem, k, m, n, bf, hhead, hlen, hpos, hrest⟩
    obtain ⟨hsame, k', m', n', hbig, hhead'⟩ := base64ToCountingBloomfilter_eq_some hnet hmem
    have hheads := hhead'.symm.trans hhead
    simp only [Option.some.injEq, Prod.mk.injEq] at hheads
    obtain ⟨rfl, rfl, rfl⟩ := hheads
    have hnetlen : net.length = 12 + 4 * k' + 2 * m' := hsame.symm.trans hlen
    obtain ⟨b, rfl, rfl, rfl, hbins, hsalts⟩ := @exists_network net k' m' n' hbig 16 rfl m' hnetlen
    rw [base64ToCountingBloomfilter_network ⟨hsalts, hbins⟩ hnet] at hmem
    obtain rfl := Option.some.inj hmem
    have hreach := (safeCounting_image_iff ⟨hsalts, hbins⟩ hpos).mp
      ⟨_, _, _, bf, hhead, hlen, hpos, hrest⟩
    rw [salts_eq_nil_iff] at hreach
    exact ⟨b.k, b.m.toNat, ⟨n', hbig⟩, hnetlen, hpos, hreach⟩
  · rintro ⟨k, m, ⟨n, hbig⟩, hlen, hpos, hreach⟩
    obtain ⟨b, rfl, rfl, rfl, hbins, hsalts⟩ := @exists_network net k m n hbig 16 rfl m hlen
    rw [← salts_eq_nil_iff] at hreach
    exact ⟨b.image e, base64ToCountingBloomfilter_network ⟨hsalts, hbins⟩ hnet,
      (safeCounting_image_iff ⟨hsalts, hbins⟩ hpos).mpr hreach⟩

theorem createFromBase64_safe_iff (type : FilterType) (b64 : Bytes) :
    (createFromBase64 e type b64).Safe e ↔ TypedText type b64 := by
  unfold createFromBase64 TypedText
  split_ifs
  · exact receiveBloomfilter_safe_iff e b64
  · exact receiveCountingBloomfilter_safe_iff e b64

theorem filterFromMetadata_safe_iff (m : Metadata) :
    (filterFromMetadata e m).Safe e ↔ FilterMetadataFits m := by
  unfold filterFromMetadata FilterMetadataFits
  by_cases hname : m.name = lit "Bloomfilter"
  · rw [if_neg (not_not_intro hname)]
    cases m.getParameter (lit "type") with
    | none => simp [ReceivedFilter.Safe]
    | some param =>
      by_cases htype : strToType param = .undefined
      · simp [htype, ReceivedFilter.Safe]
      · simp [htype, hname, createFromBase64_safe_iff]
  · rw [if_pos hname]
    simp [hname, ReceivedFilter.Safe]

/-- A text is harmless, in each of the functions that it can be handed to, exactly when it does not
decode or its header tells the truth about its length and keeps every index in reach. -/
theorem received_safe_iff (b64 : Bytes) (type : FilterType) (m : Metadata) :
    ((receiveBloomfilter e b64).Safe e ↔ PlainText b64) ∧
      ((receiveCountingBloomfilter e b64).Safe e ↔ CountingText b64) ∧
      ((createFromBase64 e type b64).Safe e ↔ TypedText type b64) ∧
      ((filterFromMetadata e m).Safe e ↔ FilterMetadataFits m) :=
  ⟨receiveBloomfilter_safe_iff e b64, receiveCountingBloomfilter_safe_iff e b64,
    createFromBase64_safe_iff e type b64, filterFromMetadata_safe_iff e m⟩

end Text

namespace Sample

/-- A filter of one salt and no bin: `k` is 1 and `m` is 0. -/
def binlessText : Bytes := lit "AAAAAQAAAAAAAAAAAAAABQ=="

/-- The element of a node description that brings it. -/
def binlessMetadata : Metadata :=
  (Metadata.new (lit "Bloomfilter") binlessText).setParameter (lit "type") (lit "normal")

/-- The text is accepted, and every key that is looked up in the filter is divided by zero. -/
theorem not_safe_binlessMetadata :
    filterFromMetadata .little binlessMetadata =
        .plain [1, 0, 0, 0, 0, 0, 0, 0, 0, 0, 0, 0, 5, 0, 0, 0] ∧
      FilterBlock.read .little 8 (· / 8) [1, 0, 0, 0, 0, 0, 0, 0, 0, 0, 0, 0, 5, 0, 0, 0] =
        some (1, ⟨0, 0, [5], []⟩) ∧
      (∀ (sha1 : Bytes → Digest) (key : Bytes),
        bloomfilterCheck sha1 .little ⟨0, 0, [5], []⟩ key = none) ∧
      ¬ (filterFromMetadata .little binlessMetadata).Safe .little := by
  have hfilter : filterFromMetadata .little binlessMetadata =
      .plain [1, 0, 0, 0, 0, 0, 0, 0, 0, 0, 0, 0, 5, 0, 0, 0] := by
    decide
  refine ⟨hfilter, by decide +kernel, fun sha1 key => rfl, ?_⟩
  rw [hfilter]
  rintro ⟨k, m, n, bf, hhead, -, hpos, -⟩
  have hhead' : getHeader .little [1, 0, 0, 0, 0, 0, 0, 0, 0, 0, 0, 0, 5, 0, 0, 0] =
      some (1, 0, 0) := by decide
  rw [hhead'] at hhead
  obtain rfl : 0 = m := by simpa using congrArg (Option.map fun r => r.2.1) hhead
  exact lt_irrefl 0 hpos

end Sample
end Haggle
