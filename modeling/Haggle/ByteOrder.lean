import Mathlib.Data.List.TakeDrop
import Mathlib.Tactic.Ring
import Mathlib.Tactic.Linarith

/-!
# Numbers in memory

A machine stores a number of `w` bytes with its lowest or with its highest byte first. Programs that
exchange numbers store them highest byte first, and convert on the way in and out. Memory is a byte
string; an access that leaves it has no result.
-/

namespace ByteOrder

inductive Endian
  | little
  | big
deriving DecidableEq

def lowBytes : ℕ → ℕ → List UInt8
  | 0, _ => []
  | w + 1, v => (v % 256).toUInt8 :: lowBytes w (v / 256)

def ofLowBytes : List UInt8 → ℕ
  | [] => 0
  | b :: l => b.toNat + 256 * ofLowBytes l

/-- The bytes of a number, in the order of the machine. -/
def store (e : Endian) (w v : ℕ) : List UInt8 :=
  match e with
  | .little => lowBytes w v
  | .big => (lowBytes w v).reverse

def load (e : Endian) (l : List UInt8) : ℕ :=
  match e with
  | .little => ofLowBytes l
  | .big => ofLowBytes l.reverse

/-- `htonl`, `htons` and their inverses: the bytes change places unless the machine already stores
the highest one first. -/
def hton (e : Endian) (w v : ℕ) : ℕ :=
  match e with
  | .little => ofLowBytes (lowBytes w v).reverse
  | .big => v

@[simp] theorem length_lowBytes (w v : ℕ) : (lowBytes w v).length = w := by
  induction w generalizing v with
  | zero => rfl
  | succ w ih => rw [lowBytes, List.length_cons, ih]

@[simp] theorem length_store (e : Endian) (w v : ℕ) : (store e w v).length = w := by
  cases e <;> simp [store]

theorem ofLowBytes_lowBytes {w v : ℕ} (hv : v < 256 ^ w) : ofLowBytes (lowBytes w v) = v := by
  induction w generalizing v with
  | zero =>
    rw [pow_zero] at hv
    simp only [lowBytes, ofLowBytes]
    omega
  | succ w ih =>
    have hdiv : v / 256 < 256 ^ w := by
      apply Nat.div_lt_of_lt_mul
      rwa [pow_succ, mul_comm] at hv
    have hmod : (v % 256).toUInt8.toNat = v % 256 := by
      rw [Nat.toUInt8, UInt8.toNat_ofNat']
      exact Nat.mod_eq_of_lt (Nat.mod_lt v (by norm_num))
    rw [lowBytes, ofLowBytes, ih hdiv, hmod]
    omega

theorem lowBytes_ofLowBytes (l : List UInt8) : lowBytes l.length (ofLowBytes l) = l := by
  induction l with
  | nil => rfl
  | cons b l ih =>
    have hb : b.toNat < 256 := b.toNat_lt
    have hmod : (b.toNat + 256 * ofLowBytes l) % 256 = b.toNat := by omega
    have hdiv : (b.toNat + 256 * ofLowBytes l) / 256 = ofLowBytes l := by omega
    rw [List.length_cons, ofLowBytes, lowBytes, hmod, hdiv, ih]
    simp

theorem ofLowBytes_lt (l : List UInt8) : ofLowBytes l < 256 ^ l.length := by
  induction l with
  | nil => simp [ofLowBytes]
  | cons b l ih =>
    have hb : b.toNat < 256 := b.toNat_lt
    rw [ofLowBytes, List.length_cons, pow_succ]
    omega

theorem load_store (e : Endian) {w v : ℕ} (hv : v < 256 ^ w) : load e (store e w v) = v := by
  cases e with
  | little => exact ofLowBytes_lowBytes hv
  | big => simpa [load, store] using ofLowBytes_lowBytes hv

theorem store_load (e : Endian) (l : List UInt8) : store e l.length (load e l) = l := by
  cases e with
  | little => exact lowBytes_ofLowBytes l
  | big =>
    have h := lowBytes_ofLowBytes l.reverse
    rw [List.length_reverse] at h
    rw [load, store, h, List.reverse_reverse]

theorem load_lt (e : Endian) (l : List UInt8) : load e l < 256 ^ l.length := by
  cases e with
  | little => exact ofLowBytes_lt l
  | big => simpa [load] using ofLowBytes_lt l.reverse

/-- What is stored after the conversion has its highest byte first on every machine. -/
theorem store_hton (e : Endian) (w v : ℕ) : store e w (hton e w v) = store .big w v := by
  cases e with
  | little =>
    have h := lowBytes_ofLowBytes (lowBytes w v).reverse
    rw [List.length_reverse, length_lowBytes] at h
    exact h
  | big => rfl

theorem hton_lt (e : Endian) {w v : ℕ} (hv : v < 256 ^ w) : hton e w v < 256 ^ w := by
  cases e with
  | little => simpa [hton] using ofLowBytes_lt (lowBytes w v).reverse
  | big => exact hv

theorem hton_hton (e : Endian) {w v : ℕ} (hv : v < 256 ^ w) : hton e w (hton e w v) = v := by
  cases e with
  | little =>
    have h := lowBytes_ofLowBytes (lowBytes w v).reverse
    rw [List.length_reverse, length_lowBytes] at h
    simp only [hton]
    rw [h, List.reverse_reverse, ofLowBytes_lowBytes hv]
  | big => rfl

section Memory

/-- The number at an offset. -/
def peek (e : Endian) (w off : ℕ) (mem : List UInt8) : Option ℕ :=
  if off + w ≤ mem.length then some (load e ((mem.drop off).take w)) else none

def poke (e : Endian) (w off v : ℕ) (mem : List UInt8) : Option (List UInt8) :=
  if off + w ≤ mem.length then some (mem.take off ++ store e w v ++ mem.drop (off + w)) else none

/-- A loop over `n` numbers that follow one another, each replaced by its image. -/
def mapCells (e : Endian) (w : ℕ) (f : ℕ → ℕ) : ℕ → ℕ → List UInt8 → Option (List UInt8)
  | 0, _, mem => some mem
  | n + 1, off, mem => do
    let v ← peek e w off mem
    let mem ← poke e w off (f v) mem
    mapCells e w f n (off + w) mem

/-- The same loop between two blocks of memory. -/
def copyCells (e : Endian) (w : ℕ) (f : ℕ → ℕ) (src : List UInt8) :
    ℕ → ℕ → ℕ → List UInt8 → Option (List UInt8)
  | 0, _, _, mem => some mem
  | n + 1, start, dest, mem => do
    let v ← peek e w start src
    let mem ← poke e w dest (f v) mem
    copyCells e w f src n (start + w) (dest + w) mem

/-- `n` numbers that follow one another. -/
def peekCells (e : Endian) (w : ℕ) : ℕ → ℕ → List UInt8 → Option (List ℕ)
  | 0, _, _ => some []
  | n + 1, off, mem => do
    let v ← peek e w off mem
    let l ← peekCells e w n (off + w) mem
    return v :: l

theorem peek_append (e : Endian) {w v : ℕ} (hv : v < 256 ^ w) {pre : List UInt8} {off : ℕ}
    (hoff : pre.length = off) (post : List UInt8) :
    peek e w off (pre ++ (store e w v ++ post)) = some v := by
  subst hoff
  rw [peek, if_pos (by simp), List.drop_left, List.take_left' (length_store e w v), load_store e hv]

theorem poke_append (e : Endian) {w : ℕ} (v : ℕ) {pre old : List UInt8} {off : ℕ}
    (hoff : pre.length = off) (hold : old.length = w) (post : List UInt8) :
    poke e w off v (pre ++ (old ++ post)) = some (pre ++ (store e w v ++ post)) := by
  subst hoff hold
  rw [poke, if_pos (by simp), List.take_left, ← List.append_assoc pre old post,
    ← List.length_append, List.drop_left, List.append_assoc]

/-- The bytes of numbers that follow one another. -/
def cells (e : Endian) (w : ℕ) (l : List ℕ) : List UInt8 := l.flatMap (store e w)

@[simp] theorem cells_nil (e : Endian) (w : ℕ) : cells e w [] = [] := rfl

@[simp] theorem cells_cons (e : Endian) (w v : ℕ) (l : List ℕ) :
    cells e w (v :: l) = store e w v ++ cells e w l := rfl

@[simp] theorem length_cells (e : Endian) (w : ℕ) (l : List ℕ) :
    (cells e w l).length = w * l.length := by
  induction l with
  | nil => rfl
  | cons v l ih =>
    rw [cells_cons, List.length_append, length_store, ih, List.length_cons]
    ring

theorem cells_map_hton (e : Endian) (w : ℕ) (l : List ℕ) :
    cells e w (l.map (hton e w)) = cells .big w l := by
  induction l with
  | nil => rfl
  | cons v l ih => rw [List.map_cons, cells_cons, cells_cons, store_hton, ih]

/-- A byte has one order only. -/
theorem cells_one (e : Endian) (l : List ℕ) : cells e 1 l = cells .big 1 l := by
  induction l with
  | nil => rfl
  | cons v l ih =>
    rw [cells_cons, cells_cons, ih]
    cases e <;> rfl

theorem map_hton_hton (e : Endian) {w : ℕ} {l : List ℕ} (hl : ∀ v ∈ l, v < 256 ^ w) :
    (l.map (hton e w)).map (hton e w) = l := by
  rw [List.map_map]
  conv_rhs => rw [← List.map_id l]
  apply List.map_congr_left
  intro v hv
  exact hton_hton e (hl v hv)

theorem mapCells_cells (e : Endian) {w : ℕ} (f : ℕ → ℕ) {l : List ℕ} (hl : ∀ v ∈ l, v < 256 ^ w)
    {pre : List UInt8} {off : ℕ} (hoff : pre.length = off) (post : List UInt8) :
    mapCells e w f l.length off (pre ++ (cells e w l ++ post)) =
      some (pre ++ (cells e w (l.map f) ++ post)) := by
  induction l generalizing pre off with
  | nil => rfl
  | cons v l ih =>
    have hv : v < 256 ^ w := hl v (by simp)
    have hoff' : (pre ++ store e w (f v)).length = off + w := by simp [hoff]
    have hrest := ih (fun u hu => hl u (by simp [hu])) hoff'
    rw [List.length_cons, mapCells, cells_cons, List.append_assoc, peek_append e hv hoff]
    simp only [Option.bind_eq_bind, Option.bind_some]
    rw [poke_append e (f v) hoff (length_store e w v)]
    simpa using hrest

/-- Numbers in network byte order become numbers in the order of the machine. -/
theorem mapCells_hton (e : Endian) {w : ℕ} {l : List ℕ} (hl : ∀ v ∈ l, v < 256 ^ w)
    {pre : List UInt8} {off : ℕ} (hoff : pre.length = off) (post : List UInt8) :
    mapCells e w (hton e w) l.length off (pre ++ (cells .big w l ++ post)) =
      some (pre ++ (cells e w l ++ post)) := by
  have hlt : ∀ v ∈ l.map (hton e w), v < 256 ^ w := by
    intro v hv
    obtain ⟨u, hu, rfl⟩ := List.mem_map.mp hv
    exact hton_lt e (hl u hu)
  have hmap := mapCells_cells e (hton e w) hlt hoff post
  rwa [cells_map_hton, map_hton_hton e hl, List.length_map] at hmap

theorem copyCells_cells (e : Endian) {w : ℕ} (f : ℕ → ℕ) {l : List ℕ} (hl : ∀ v ∈ l, v < 256 ^ w)
    {src spre spost : List UInt8} {start : ℕ} (hsrc : src = spre ++ (cells e w l ++ spost))
    (hstart : spre.length = start) {pre old : List UInt8} {dest : ℕ} (hdest : pre.length = dest)
    (hold : old.length = w * l.length) (post : List UInt8) :
    copyCells e w f src l.length start dest (pre ++ (old ++ post)) =
      some (pre ++ (cells e w (l.map f) ++ post)) := by
  induction l generalizing spre start pre old dest with
  | nil =>
    rw [List.length_nil, Nat.mul_zero, List.length_eq_zero_iff] at hold
    subst hold
    rfl
  | cons v l ih =>
    have hv : v < 256 ^ w := hl v (by simp)
    rw [List.length_cons, Nat.mul_succ] at hold
    have hsplit : old = old.take w ++ old.drop w := (List.take_append_drop w old).symm
    have hlen : (old.take w).length = w := by
      rw [List.length_take]
      omega
    have hstart' : (spre ++ store e w v).length = start + w := by simp [hstart]
    have hdest' : (pre ++ store e w (f v)).length = dest + w := by simp [hdest]
    have hold' : (old.drop w).length = w * l.length := by
      rw [List.length_drop]
      omega
    have hrest := ih (fun u hu => hl u (by simp [hu])) (by simp [hsrc]) hstart' hdest' hold'
    rw [cells_cons, List.append_assoc] at hsrc
    rw [List.length_cons, copyCells, hsrc, peek_append e hv hstart, ← hsrc]
    simp only [Option.bind_eq_bind, Option.bind_some]
    rw [hsplit, List.append_assoc, poke_append e (f v) hdest hlen]
    simpa using hrest

theorem peekCells_cells (e : Endian) {w : ℕ} {l : List ℕ} (hl : ∀ v ∈ l, v < 256 ^ w)
    {pre : List UInt8} {off : ℕ} (hoff : pre.length = off) (post : List UInt8) :
    peekCells e w l.length off (pre ++ (cells e w l ++ post)) = some l := by
  induction l generalizing pre off with
  | nil => rfl
  | cons v l ih =>
    have hv : v < 256 ^ w := hl v (by simp)
    have hoff' : (pre ++ store e w v).length = off + w := by simp [hoff]
    have hrest := ih (fun u hu => hl u (by simp [hu])) hoff'
    rw [List.length_cons, peekCells, cells_cons, List.append_assoc, peek_append e hv hoff]
    simp only [List.append_assoc] at hrest
    simp [hrest]

/-- The loop changes neither the length of the memory nor what stands before it. -/
theorem mapCells_eq_some {e : Endian} {w : ℕ} {f : ℕ → ℕ} {n off : ℕ} {mem mem' : List UInt8}
    (h : mapCells e w f n off mem = some mem') :
    mem'.length = mem.length ∧ mem'.take off = mem.take off := by
  induction n generalizing off mem with
  | zero =>
    obtain rfl := Option.some.inj h
    exact ⟨rfl, rfl⟩
  | succ n ih =>
    simp only [mapCells, Option.bind_eq_bind, Option.bind_eq_some_iff, poke] at h
    obtain ⟨v, -, mem₁, hpoke, hrest⟩ := h
    split_ifs at hpoke with hoff
    obtain rfl := Option.some.inj hpoke
    obtain ⟨hlen, htake⟩ := ih hrest
    have hpre : (mem.take off).length = off := by
      rw [List.length_take]
      omega
    constructor
    · rw [hlen]
      simp only [List.length_append, List.length_take, List.length_drop, length_store]
      omega
    · have hcut := congrArg (List.take off) htake
      rw [List.take_take, List.take_take, Nat.min_eq_left (Nat.le_add_right off w)] at hcut
      rw [hcut, List.append_assoc, List.take_left' hpre]

/-- Every string of the right length is made of numbers. -/
theorem exists_cells (e : Endian) {w n : ℕ} {mem : List UInt8} (h : mem.length = w * n) :
    ∃ l : List ℕ, l.length = n ∧ (∀ v ∈ l, v < 256 ^ w) ∧ mem = cells e w l := by
  induction n generalizing mem with
  | zero =>
    rw [Nat.mul_zero, List.length_eq_zero_iff] at h
    exact ⟨[], rfl, by simp, h⟩
  | succ n ih =>
    rw [Nat.mul_succ] at h
    have hfirst : (mem.take w).length = w := by
      rw [List.length_take]
      omega
    have hrest : (mem.drop w).length = w * n := by
      rw [List.length_drop]
      omega
    obtain ⟨l, hlen, hlt, hl⟩ := ih hrest
    have hload := load_lt e (mem.take w)
    have hstore := store_load e (mem.take w)
    rw [hfirst] at hload hstore
    refine ⟨load e (mem.take w) :: l, by rw [List.length_cons, hlen], ?_, ?_⟩
    · intro v hv
      rcases List.mem_cons.mp hv with rfl | hv
      · exact hload
      · exact hlt v hv
    · rw [cells_cons, hstore, ← hl, List.take_append_drop]

end Memory

end ByteOrder
