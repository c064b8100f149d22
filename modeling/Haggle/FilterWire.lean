import Haggle.ByteOrder
import Haggle.Base64
import Mathlib.Tactic.Set

/-!
# Bloom filters in memory and on the wire

`struct bloomfilter` and `struct counting_bloomfilter` have the same header of three words. The
salts follow it, and then the bins: bytes of eight bins in the one, 16-bit counters in the other. A
filter is published as the base64 text of this block, with its numbers in network byte order.
-/

namespace Haggle

open ByteOrder

section Header

variable (e : Endian)

/-- The fields `k`, `m` and `n`. -/
def getHeader (mem : Bytes) : Option (ℕ × ℕ × ℕ) := do
  let k ← peek e 4 0 mem
  let m ← peek e 4 4 mem
  let n ← peek e 4 8 mem
  return (k, m, n)

def setHeader (k m n : ℕ) (mem : Bytes) : Option Bytes := do
  let mem ← poke e 4 0 k mem
  let mem ← poke e 4 4 m mem
  poke e 4 8 n mem

variable {e}

theorem length_header (k m n : ℕ) : (cells e 4 [k, m, n]).length = 12 := by
  rw [length_cells]
  rfl

theorem getHeader_cells {k m n : ℕ} (hk : k < 256 ^ 4) (hm : m < 256 ^ 4) (hn : n < 256 ^ 4)
    (post : Bytes) : getHeader e (cells e 4 [k, m, n] ++ post) = some (k, m, n) := by
  have hk' := peek_append e hk List.length_nil (store e 4 m ++ (store e 4 n ++ post))
  have hm' := peek_append e hm (length_store e 4 k) (store e 4 n ++ post)
  have hlen : (store e 4 k ++ store e 4 m).length = 8 := by simp
  have hn' := peek_append e hn hlen post
  simp only [List.nil_append] at hk'
  simp only [List.append_assoc] at hn'
  simp only [getHeader, cells_cons, cells_nil, List.append_nil, List.append_assoc, hk', hm', hn']
  rfl

theorem setHeader_eq (k m n : ℕ) {mem : Bytes} (hmem : 12 ≤ mem.length) :
    setHeader e k m n mem = some (cells e 4 [k, m, n] ++ mem.drop 12) := by
  -- the three words that are overwritten, and the rest
  obtain ⟨a, b, c, post, rfl, ha, hb, hc⟩ : ∃ a b c post : Bytes, mem = a ++ (b ++ (c ++ post)) ∧
      a.length = 4 ∧ b.length = 4 ∧ c.length = 4 := by
    refine ⟨mem.take 4, (mem.drop 4).take 4, (mem.drop 8).take 4, mem.drop 12, ?_, ?_, ?_, ?_⟩
    · have h8 : mem.drop 12 = (mem.drop 8).drop 4 := by rw [List.drop_drop]
      have h4 : mem.drop 8 = (mem.drop 4).drop 4 := by rw [List.drop_drop]
      rw [h8, List.take_append_drop, h4, List.take_append_drop, List.take_append_drop]
    all_goals
      simp only [List.length_take, List.length_drop]
      omega
  have h1 := poke_append e k List.length_nil ha (b ++ (c ++ post))
  have h2 := poke_append e m (length_store e 4 k) hb (c ++ post)
  have hlen : (store e 4 k ++ store e 4 m).length = 8 := by simp
  have h3 := poke_append e n hlen hc post
  have hdrop : (a ++ (b ++ (c ++ post))).drop 12 = post := by
    rw [← List.append_assoc, ← List.append_assoc]
    apply List.drop_left'
    simp [ha, hb, hc]
  simp only [List.nil_append] at h1
  simp only [List.append_assoc] at h3
  simp only [setHeader, h1, h2, h3, Option.bind_eq_bind, Option.bind_some, hdrop, cells_cons,
    cells_nil, List.append_nil, List.append_assoc]

end Header

/-- What a block holds, with bins of `w` bits. The field `k` is the number of salts. -/
structure FilterBlock (w : ℕ) where
  m : BitVec 32
  n : BitVec 32
  salts : List (BitVec 32)
  bins : List (BitVec w)
deriving DecidableEq

namespace FilterBlock

variable {w : ℕ}

abbrev k (b : FilterBlock w) : ℕ := b.salts.length

/-- The block as a host keeps it. -/
def image (e : Endian) (b : FilterBlock w) : Bytes :=
  cells e 4 [b.k, b.m.toNat, b.n.toNat] ++ (cells e 4 (b.salts.map BitVec.toNat) ++
    cells e (w / 8) (b.bins.map BitVec.toNat))

/-- The fields `k`, `m` and `n`, the salts and the bins that a host finds in memory. -/
def read (e : Endian) (w : ℕ) (count : ℕ → ℕ) (mem : Bytes) : Option (ℕ × FilterBlock w) := do
  let (k, m, n) ← getHeader e mem
  let salts ← peekCells e 4 k 12 mem
  let bins ← peekCells e (w / 8) (count m) (12 + 4 * k) mem
  return (k, ⟨BitVec.ofNat 32 m, BitVec.ofNat 32 n, salts.map (BitVec.ofNat 32),
    bins.map (BitVec.ofNat w)⟩)

end FilterBlock

/-- A block of `malloc`, whose bytes can be anything. -/
def malloc (junk : ℕ → UInt8) (len : ℕ) : Bytes := (List.range len).map junk

/-- The value a `size_t` has as an `int`. -/
def asInt (n : ℕ) : ℤ := (BitVec.ofNat 32 n).toInt

section Encode

variable (e : Endian) (junk : ℕ → UInt8)

/-- The text of a block of memory, unless its length is negative as an `int`. -/
def encodeBlock (net : Bytes) : Option Bytes :=
  let b64str := Base64.encode net
  let len := asInt b64str.length
  if len < 0 then none else some b64str

/-- What both encoders do, for bins of `size` bytes. There is no text if the encoder returns `NULL`
or leaves the blocks. -/
def toBase64 (size : ℕ) (count : ℕ → ℕ) (convert : ℕ → ℕ) (bf : Bytes) : Option Bytes := do
  let (k, m, n) ← getHeader e bf
  let net := malloc junk (12 + 4 * k + size * count m)
  -- in host byte order first, so that the pointers to the salts and to the bins come out right
  let net ← setHeader e k m n net
  let kNet ← peek e 4 0 net
  let net ← setHeader e (hton e 4 k) (hton e 4 m) (hton e 4 n) net
  let net ← copyCells e 4 (hton e 4) bf k 12 12 net
  let net ← copyCells e size convert bf (count m) (12 + 4 * k) (12 + 4 * kNet) net
  encodeBlock net

/-- `bloomfilter_to_base64`, where the bins are copied as bytes. -/
def bloomfilterToBase64 (bf : Bytes) : Option Bytes := toBase64 e junk 1 (· / 8) id bf

/-- `counting_bloomfilter_to_base64`. -/
def countingBloomfilterToBase64 (bf : Bytes) : Option Bytes := toBase64 e junk 2 id (hton e 2) bf

/-- What both decoders do in place first. -/
def headerToHost (net : Bytes) : Option Bytes := do
  let (k, m, n) ← getHeader e net
  let net ← setHeader e (hton e 4 k) (hton e 4 m) (hton e 4 n) net
  let k ← peek e 4 0 net
  mapCells e 4 (hton e 4) k 12 net

/-- `base64_to_bloomfilter`. -/
def base64ToBloomfilter (b64str : Bytes) : Option Bytes := do
  let net ← Base64.decodeAlloc b64str
  headerToHost e net

/-- `base64_to_counting_bloomfilter`. -/
def base64ToCountingBloomfilter (b64str : Bytes) : Option Bytes := do
  let net ← Base64.decodeAlloc b64str
  let net ← headerToHost e net
  let (k, m, _) ← getHeader e net
  mapCells e 2 (hton e 2) m (12 + 4 * k) net

end Encode

namespace FilterBlock

variable {w : ℕ}

/-- A plain filter has a byte for every eight of its `m` bins. -/
structure Plain (b : FilterBlock 8) : Prop where
  salts : b.salts.length < 2 ^ 32
  bins : b.bins.length = b.m.toNat / 8

structure Counting (b : FilterBlock 16) : Prop where
  salts : b.salts.length < 2 ^ 32
  bins : b.bins.length = b.m.toNat

/-- The bytes of a block in network byte order. -/
def network (b : FilterBlock w) : Bytes := b.image .big

theorem toNat_lt_of_mem {l : List (BitVec w)} {v : ℕ} (hv : v ∈ l.map BitVec.toNat) :
    v < 2 ^ w := by
  obtain ⟨x, -, rfl⟩ := List.mem_map.mp hv
  exact x.isLt

theorem map_ofNat_toNat (l : List (BitVec w)) : (l.map BitVec.toNat).map (BitVec.ofNat w) = l := by
  rw [List.map_map]
  conv_rhs => rw [← List.map_id l]
  apply List.map_congr_left
  intro x _
  simp

theorem image_eq (e : Endian) (b : FilterBlock w) :
    b.image e = cells e 4 [b.k, b.m.toNat, b.n.toNat] ++ (cells e 4 (b.salts.map BitVec.toNat) ++
      cells e (w / 8) (b.bins.map BitVec.toNat)) := rfl

theorem length_network (b : FilterBlock w) :
    b.network.length = 12 + 4 * b.salts.length + w / 8 * b.bins.length := by
  rw [network, image_eq, List.length_append, List.length_append, length_header, length_cells,
    length_cells, List.length_map, List.length_map]
  omega

end FilterBlock

section Layout

variable {e : Endian} {m n : ℕ} {salts : List ℕ} (hk : salts.length < 256 ^ 4) (hm : m < 256 ^ 4)
  (hn : n < 256 ^ 4) (hsalts : ∀ v ∈ salts, v < 256 ^ 4)

include hsalts in
/-- The two loops of the encoders fill what follows the header of the new block. -/
theorem copyCells_salts_bins (e : Endian) (f g : ℕ → ℕ) {size : ℕ} {bins : List ℕ}
    (hbins : ∀ v ∈ bins, v < 256 ^ size) {src head head' rest : Bytes}
    (hsrc : src = head ++ (cells e 4 salts ++ cells e size bins)) (hhead : head.length = 12)
    (hhead' : head'.length = 12) (hrest : rest.length = 4 * salts.length + size * bins.length) :
    (copyCells e 4 f src salts.length 12 12 (head' ++ rest)).bind
        (copyCells e size g src bins.length (12 + 4 * salts.length) (12 + 4 * salts.length)) =
      some (head' ++ (cells e 4 (salts.map f) ++ cells e size (bins.map g))) := by
  have hroom : (rest.take (4 * salts.length)).length = 4 * salts.length := by
    rw [List.length_take]
    omega
  have hroom' : (rest.drop (4 * salts.length)).length = size * bins.length := by
    rw [List.length_drop]
    omega
  have hcopy := copyCells_cells e f hsalts hsrc hhead hhead' hroom (rest.drop (4 * salts.length))
  rw [List.take_append_drop] at hcopy
  have hsrc' : src = (head ++ cells e 4 salts) ++ (cells e size bins ++ []) := by simp [hsrc]
  have hstart : (head ++ cells e 4 salts).length = 12 + 4 * salts.length := by
    rw [List.length_append, hhead, length_cells]
  have hdest : (head' ++ cells e 4 (salts.map f)).length = 12 + 4 * salts.length := by
    rw [List.length_append, hhead', length_cells, List.length_map]
  have hcopy' := copyCells_cells e g hbins hsrc' hstart hdest hroom' []
  rw [List.append_nil, List.append_nil, List.append_assoc, List.append_assoc] at hcopy'
  rw [hcopy, Option.bind_some, hcopy']

include hk hm hn hsalts in
/-- The encoder lays out the header and the salts in network byte order and converts the bins,
whatever the new memory holds. -/
theorem toBase64_cells (junk : ℕ → UInt8) {size : ℕ} {count convert : ℕ → ℕ} {bins : List ℕ}
    (hbins : ∀ v ∈ bins, v < 256 ^ size) (hcount : bins.length = count m) :
    toBase64 e junk size count convert
        (cells e 4 [salts.length, m, n] ++ (cells e 4 salts ++ cells e size bins)) =
      encodeBlock (cells .big 4 [salts.length, m, n] ++
        (cells .big 4 salts ++ cells e size (bins.map convert))) := by
  have hpre := @length_header e salts.length m n
  have hpre' := @length_header e (hton e 4 salts.length) (hton e 4 m) (hton e 4 n)
  have hhead := @getHeader_cells e _ _ _ hk hm hn (cells e 4 salts ++ cells e size bins)
  generalize hsrc : cells e 4 [salts.length, m, n] ++ (cells e 4 salts ++ cells e size bins) = src
    at hhead
  have hlen : (malloc junk (12 + 4 * salts.length + size * count m)).length =
      12 + 4 * salts.length + size * bins.length := by simp [malloc, hcount]
  rw [toBase64, hhead]
  simp only [Option.bind_eq_bind, Option.bind_some]
  generalize malloc junk (12 + 4 * salts.length + size * count m) = net at hlen
  have hset := @setHeader_eq e salts.length m n net (by omega)
  have hpeek := peek_append e hk List.length_nil (store e 4 m ++ (store e 4 n ++ net.drop 12))
  have hset' := @setHeader_eq e (hton e 4 salts.length) (hton e 4 m) (hton e 4 n)
    (cells e 4 [salts.length, m, n] ++ net.drop 12) (by rw [List.length_append, hpre]; omega)
  rw [List.drop_left' hpre] at hset'
  have hrest : (net.drop 12).length = 4 * salts.length + size * bins.length := by
    rw [List.length_drop]
    omega
  have hcopy := copyCells_salts_bins hsalts e (hton e 4) convert hbins hsrc.symm hpre hpre' hrest
  have hnet := cells_map_hton e 4 [salts.length, m, n]
  simp only [List.map_cons, List.map_nil] at hnet
  rw [cells_map_hton, hnet] at hcopy
  have hpeek' : peek e 4 0 (cells e 4 [salts.length, m, n] ++ net.drop 12) = some salts.length := by
    simpa using hpeek
  rw [hset, Option.bind_some, hpeek', Option.bind_some, hset', Option.bind_some,
    ← Option.bind_assoc, hnet, ← hcount, hcopy, Option.bind_some]

include hk hm hn hsalts in
/-- The decoder turns the header and the salts into host byte order and keeps the bins. -/
theorem headerToHost_cells (post : Bytes) :
    headerToHost e (cells .big 4 [salts.length, m, n] ++ (cells .big 4 salts ++ post)) =
      some (cells e 4 [salts.length, m, n] ++ (cells e 4 salts ++ post)) := by
  have hnet := cells_map_hton e 4 [salts.length, m, n]
  simp only [List.map_cons, List.map_nil] at hnet
  have hhead := @getHeader_cells e _ _ _ (hton_lt e hk) (hton_lt e hm) (hton_lt e hn)
    (cells .big 4 salts ++ post)
  rw [hnet] at hhead
  have hpre := @length_header .big salts.length m n
  have hset := @setHeader_eq e salts.length m n
    (cells .big 4 [salts.length, m, n] ++ (cells .big 4 salts ++ post))
    (by rw [List.length_append, hpre]; omega)
  rw [List.drop_left' hpre] at hset
  have hpeek := peek_append e hk List.length_nil
    (store e 4 m ++ (store e 4 n ++ (cells .big 4 salts ++ post)))
  have hpeek' : peek e 4 0 (cells e 4 [salts.length, m, n] ++ (cells .big 4 salts ++ post)) =
      some salts.length := by
    simpa using hpeek
  rw [headerToHost, hhead]
  simp only [Option.bind_eq_bind, Option.bind_some, hton_hton e hk, hton_hton e hm, hton_hton e hn]
  rw [hset, Option.bind_some, hpeek', Option.bind_some,
    mapCells_hton e hsalts (length_header _ _ _) post]

end Layout
namespace FilterBlock

/-- The text of the block has a length that is not negative as an `int`. -/
def TextFits {w : ℕ} (b : FilterBlock w) : Prop :=
  4 * ((12 + 4 * b.salts.length + w / 8 * b.bins.length + 2) / 3) % 2 ^ 32 < 2 ^ 31

instance {w : ℕ} (b : FilterBlock w) : Decidable b.TextFits :=
  inferInstanceAs (Decidable (_ < _))

theorem asInt_neg_iff (n : ℕ) : asInt n < 0 ↔ ¬ n % 2 ^ 32 < 2 ^ 31 := by
  rw [asInt, BitVec.toInt_eq_toNat_cond, BitVec.toNat_ofNat]
  split_ifs <;> omega

variable {w : ℕ}

theorem encodeBlock_network (b : FilterBlock w) :
    encodeBlock b.network = if b.TextFits then some (Base64.encode b.network) else none := by
  have hneg := asInt_neg_iff (Base64.encode b.network).length
  rw [Base64.length_encode, length_network] at hneg
  unfold encodeBlock
  simp only
  rw [Base64.length_encode, length_network]
  by_cases hfit : b.TextFits
  · rw [if_neg (fun h => hneg.mp h hfit), if_pos hfit]
  · rw [if_pos (hneg.mpr hfit), if_neg hfit]

section Trip

variable {b : FilterBlock w} (hk : b.salts.length < 2 ^ 32)
include hk

theorem salts_length_lt : (b.salts.map BitVec.toNat).length < 256 ^ 4 := by
  rw [List.length_map]
  exact hk

theorem toBase64_image (e : Endian) (junk : ℕ → UInt8) (hw : 256 ^ (w / 8) = 2 ^ w)
    {count convert : ℕ → ℕ} (hcount : b.bins.length = count b.m.toNat)
    (hconv : cells e (w / 8) ((b.bins.map BitVec.toNat).map convert) =
      cells .big (w / 8) (b.bins.map BitVec.toNat)) :
    toBase64 e junk (w / 8) count convert (b.image e) = encodeBlock b.network := by
  have hbins : ∀ v ∈ b.bins.map BitVec.toNat, v < 256 ^ (w / 8) := by
    intro v hv
    rw [hw]
    exact toNat_lt_of_mem hv
  have henc := @toBase64_cells e _ b.n.toNat _ (salts_length_lt hk) b.m.isLt b.n.isLt
    (fun _ hv => toNat_lt_of_mem hv) junk _ count convert _ hbins (by rw [List.length_map, hcount])
  rw [List.length_map, hconv] at henc
  exact henc

theorem headerToHost_network (e : Endian) :
    headerToHost e b.network = some (cells e 4 [b.k, b.m.toNat, b.n.toNat] ++
      (cells e 4 (b.salts.map BitVec.toNat) ++ cells .big (w / 8) (b.bins.map BitVec.toNat))) := by
  have hdec := @headerToHost_cells e _ b.n.toNat _ (salts_length_lt hk) b.m.isLt b.n.isLt
    (fun _ hv => toNat_lt_of_mem hv) (cells .big (w / 8) (b.bins.map BitVec.toNat))
  rw [List.length_map] at hdec
  exact hdec

theorem read_image (e : Endian) (hw : 256 ^ (w / 8) = 2 ^ w) {count : ℕ → ℕ}
    (hcount : b.bins.length = count b.m.toNat) : read e w count (b.image e) = some (b.k, b) := by
  have hbins : ∀ v ∈ b.bins.map BitVec.toNat, v < 256 ^ (w / 8) := by
    intro v hv
    rw [hw]
    exact toNat_lt_of_mem hv
  have hsalts : ∀ v ∈ b.salts.map BitVec.toNat, v < 256 ^ 4 := fun _ hv => toNat_lt_of_mem hv
  have hhead := @getHeader_cells e _ _ _ hk b.m.isLt b.n.isLt
    (cells e 4 (b.salts.map BitVec.toNat) ++ cells e (w / 8) (b.bins.map BitVec.toNat))
  have hpre := @length_header e b.k b.m.toNat b.n.toNat
  have hpre' : (cells e 4 [b.k, b.m.toNat, b.n.toNat] ++
      cells e 4 (b.salts.map BitVec.toNat)).length = 12 + 4 * b.k := by
    rw [List.length_append, hpre, length_cells, List.length_map]
  have h1 := peekCells_cells e hsalts hpre (cells e (w / 8) (b.bins.map BitVec.toNat))
  have h2 := peekCells_cells e hbins hpre' []
  rw [List.length_map] at h1 h2
  rw [List.append_nil, List.append_assoc, hcount] at h2
  rw [read, image_eq]
  simp only [hhead, h1, h2, Option.bind_eq_bind, Option.bind_some, map_ofNat_toNat]
  simp

end Trip

/-- What a plain filter is after the trip from one host to the other. -/
theorem base64ToBloomfilter_toBase64 (e e' : Endian) (junk : ℕ → UInt8) {b : FilterBlock 8}
    (hb : b.Plain) :
    (bloomfilterToBase64 e junk (b.image e)).bind (base64ToBloomfilter e') =
      if b.TextFits then some (b.image e') else none := by
  have hconv : cells e 1 ((b.bins.map BitVec.toNat).map id) =
      cells .big 1 (b.bins.map BitVec.toNat) := by
    rw [List.map_id, cells_one]
  have henc : bloomfilterToBase64 e junk (b.image e) = encodeBlock b.network :=
    toBase64_image hb.salts e junk rfl hb.bins hconv
  rw [henc, encodeBlock_network]
  by_cases hfit : b.TextFits
  · rw [if_pos hfit, if_pos hfit, Option.bind_some, base64ToBloomfilter, Base64.decodeAlloc_encode]
    simp only [Option.bind_eq_bind, Option.bind_some]
    rw [headerToHost_network hb.salts, ← cells_one e' (b.bins.map BitVec.toNat)]
    rfl
  · rw [if_neg hfit, if_neg hfit, Option.bind_none]

theorem base64ToCountingBloomfilter_toBase64 (e e' : Endian) (junk : ℕ → UInt8)
    {b : FilterBlock 16} (hb : b.Counting) :
    (countingBloomfilterToBase64 e junk (b.image e)).bind (base64ToCountingBloomfilter e') =
      if b.TextFits then some (b.image e') else none := by
  have henc : countingBloomfilterToBase64 e junk (b.image e) = encodeBlock b.network :=
    toBase64_image hb.salts e junk rfl hb.bins (cells_map_hton e 2 _)
  have hbins : ∀ v ∈ b.bins.map BitVec.toNat, v < 256 ^ 2 := fun _ hv => toNat_lt_of_mem hv
  have hhead := @getHeader_cells e' _ _ _ hb.salts b.m.isLt b.n.isLt
    (cells e' 4 (b.salts.map BitVec.toNat) ++ cells .big 2 (b.bins.map BitVec.toNat))
  have hpre : (cells e' 4 [b.k, b.m.toNat, b.n.toNat] ++
      cells e' 4 (b.salts.map BitVec.toNat)).length = 12 + 4 * b.k := by
    rw [List.length_append, length_header, length_cells, List.length_map]
  have hmap := mapCells_hton e' hbins hpre []
  rw [List.length_map, hb.bins, List.append_nil, List.append_nil, List.append_assoc,
    List.append_assoc] at hmap
  rw [henc, encodeBlock_network]
  by_cases hfit : b.TextFits
  · rw [if_pos hfit, if_pos hfit, Option.bind_some, base64ToCountingBloomfilter,
      Base64.decodeAlloc_encode]
    simp only [Option.bind_eq_bind, Option.bind_some]
    rw [headerToHost_network hb.salts, Option.bind_some, hhead, Option.bind_some]
    exact hmap
  · rw [if_neg hfit, if_neg hfit, Option.bind_none]

/-- Both kinds of filter survive the trip, on any two hosts, if the length of their text is not
negative as an `int`. -/
theorem roundTrip_iff (e e' : Endian) (junk : ℕ → UInt8) {b : FilterBlock 8} (hb : b.Plain)
    {c : FilterBlock 16} (hc : c.Counting) :
    ((∃ mem, (bloomfilterToBase64 e junk (b.image e)).bind (base64ToBloomfilter e') = some mem ∧
        read e' 8 (· / 8) mem = some (b.k, b)) ↔ b.TextFits) ∧
      ((∃ mem, (countingBloomfilterToBase64 e junk (c.image e)).bind
            (base64ToCountingBloomfilter e') = some mem ∧
          read e' 16 id mem = some (c.k, c)) ↔ c.TextFits) := by
  rw [base64ToBloomfilter_toBase64 e e' junk hb, base64ToCountingBloomfilter_toBase64 e e' junk hc]
  constructor
  · constructor
    · rintro ⟨mem, hmem, -⟩
      by_contra hfit
      simp [hfit] at hmem
    · intro hfit
      exact ⟨b.image e', if_pos hfit, read_image hb.salts e' rfl hb.bins⟩
  · constructor
    · rintro ⟨mem, hmem, -⟩
      by_contra hfit
      simp [hfit] at hmem
    · intro hfit
      exact ⟨c.image e', if_pos hfit, read_image hc.salts e' rfl hc.bins⟩

end FilterBlock

namespace Sample

/-- Sixteen bins under two salts. -/
def plainBlock : FilterBlock 8 := ⟨16, 1, [5, 6], [1, 0]⟩

def countingBlock : FilterBlock 16 := ⟨8, 1, [5, 6], [0, 300, 0, 0, 1, 0, 0, 0]⟩

/-- 2³⁰ bins without an object, under seven salts. -/
def largeBlock : FilterBlock 16 :=
  ⟨BitVec.ofNat 32 (2 ^ 30), 0, [1, 2, 3, 4, 5, 6, 7], List.replicate (2 ^ 30) 0⟩

theorem plain_plainBlock : plainBlock.Plain := ⟨by decide, rfl⟩

theorem counting_countingBlock : countingBlock.Counting := ⟨by decide, rfl⟩

theorem length_bins_largeBlock : largeBlock.bins.length = 2 ^ 30 := by
  rw [largeBlock, List.length_replicate]

theorem counting_largeBlock : largeBlock.Counting where
  salts := by
    have hk : largeBlock.salts.length = 7 := rfl
    rw [hk]
    norm_num
  bins := by
    rw [length_bins_largeBlock, largeBlock]
    rfl

theorem not_textFits_largeBlock : ¬ largeBlock.TextFits := by
  have hk : largeBlock.salts.length = 7 := rfl
  rw [FilterBlock.TextFits, length_bins_largeBlock, hk]
  norm_num

/-- From a little-endian to a big-endian host. -/
theorem roundTrip_hosts : plainBlock.TextFits ∧ countingBlock.TextFits ∧
    ∃ mem, (countingBloomfilterToBase64 .little (fun _ => 7) (countingBlock.image .little)).bind
      (base64ToCountingBloomfilter .big) = some mem ∧
        FilterBlock.read .big 16 id mem = some (2, countingBlock) := by
  have hfit : plainBlock.TextFits ∧ countingBlock.TextFits := by decide
  have htrip := FilterBlock.roundTrip_iff .little .big (fun _ => 7) plain_plainBlock
    counting_countingBlock
  exact ⟨hfit.1, hfit.2, htrip.2.mpr hfit.2⟩

/-- The text of the large filter has 2863311584 characters, a negative number as an `int`. -/
theorem roundTrip_largeBlock :
    ¬ ∃ mem, (countingBloomfilterToBase64 .little (fun _ => 7) (largeBlock.image .little)).bind
      (base64ToCountingBloomfilter .little) = some mem ∧
        FilterBlock.read .little 16 id mem = some (7, largeBlock) := by
  rintro ⟨mem, hmem, -⟩
  rw [FilterBlock.base64ToCountingBloomfilter_toBase64 _ _ _ counting_largeBlock,
    if_neg not_textFits_largeBlock] at hmem
  cases hmem

end Sample
end Haggle
