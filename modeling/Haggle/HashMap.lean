import Mathlib.Data.List.Basic
import Mathlib.Data.List.Flatten
import Mathlib.Tactic.Linarith

/-!
# The hash multimap of libcpphaggle

`HashMap` keeps a table of bucket lists. Iteration walks the buckets in table order, a key inserted
again goes right after its last occurrence, and the table grows when it holds more entries than
buckets. `values` is what the container means: the values of a key in iteration order.
-/

namespace Haggle

/-- Whether plain `char` is a signed type on a node; it is on x86, and it is not on ARM. -/
inductive PlainChar where
  | signed
  | unsigned
deriving DecidableEq

class Hash (K : Type) where
  hash : PlainChar → K → ℕ

/-- `ms_primes`, without the terminating zero. -/
def msPrimes : List ℕ :=
  [7, 13, 29, 53, 97, 193, 389, 769, 1543, 3079, 6151, 12289, 24593, 49157, 98317, 196613, 393241,
    786433, 1572869, 3145739, 6291469, 12582917, 25165843, 50331653, 100663319, 201326611,
    402653189, 805306457, 1610612741, 3221225473, 4294967291]

def getPrime (n : ℕ) : ℕ := (msPrimes.find? (fun p => n < p)).getD 0

/-- The bucket of a key depends on the node that the map is on. -/
structure HashMap (K V : Type) where
  size : ℕ
  table : List (List (K × V))
  plainChar : PlainChar
deriving DecidableEq

namespace HashMap

variable {K V : Type}

/-- The constructor with a requested size; the default constructor uses the first prime. -/
def ofTableSize (n : ℕ) (c : PlainChar := .signed) : HashMap K V := ⟨0, List.replicate n [], c⟩

def empty (c : PlainChar := .signed) : HashMap K V := ofTableSize 7 c

/-- The entries in iteration order, `begin()` to `end()`. -/
def toList (m : HashMap K V) : List (K × V) := m.table.flatten

/-- The table sizes a map reaches from the initial one: `grow` asks for the next prime, and the
constructor it calls takes the next prime once more. -/
def tableSizes : List ℕ :=
  [7, 29, 97, 389, 1543, 6151, 24593, 98317, 393241, 1572869, 6291469, 25165843, 100663319,
    402653189, 1610612741, 4294967291]

section Operations

variable [DecidableEq K] [Hash K]

def getIndex (m : HashMap K V) (k : K) : ℕ := Hash.hash m.plainChar k % m.table.length

/-- The insertion point is behind the run of equal keys that starts here. -/
def insertAfterRun (p : K × V) : List (K × V) → List (K × V)
  | [] => [p]
  | q :: l => if q.1 = p.1 then q :: insertAfterRun p l else p :: q :: l

def insertBucket (p : K × V) : List (K × V) → List (K × V)
  | [] => [p]
  | q :: l => if q.1 = p.1 then q :: insertAfterRun p l else q :: insertBucket p l

def insertNoGrow (m : HashMap K V) (p : K × V) : HashMap K V :=
  { m with size := m.size + 1, table := m.table.modify (m.getIndex p.1) (insertBucket p) }

/-- The larger map has more buckets than entries, so inserting into it never grows again. -/
def grow (m : HashMap K V) : HashMap K V :=
  let newSize := getPrime (m.table.length + 1)
  if newSize = 0 ∨ newSize ≤ m.table.length then m
  else m.toList.foldl insertNoGrow (ofTableSize (getPrime newSize) m.plainChar)

def insert (m : HashMap K V) (p : K × V) : HashMap K V :=
  if m.table.length < m.size + 1 then m.grow.insertNoGrow p else m.insertNoGrow p

def ofList (l : List (K × V)) (c : PlainChar := .signed) : HashMap K V := l.foldl insert (empty c)

/-- The iteration from the first entry with key `k` on; empty when `find` returns `end()`. -/
def findFrom (m : HashMap K V) (k : K) : List (K × V) :=
  match (m.table.getD (m.getIndex k) []).dropWhile (fun e => e.1 ≠ k) with
  | [] => []
  | e :: l => e :: l ++ (m.table.drop (m.getIndex k + 1)).flatten

def equalRange (m : HashMap K V) (k : K) : List (K × V) :=
  (m.findFrom k).takeWhile (fun e => e.1 = k)

/-- `erase(const KeyType&)`: all entries of the key. -/
def erase (m : HashMap K V) (k : K) : HashMap K V :=
  { m with
    size := m.size - ((m.table.getD (m.getIndex k) []).countP (fun e => e.1 = k))
    table := m.table.modify (m.getIndex k) (fun b => b.filter (fun e => e.1 ≠ k)) }

/-- `erase(iterator&)` at the first entry of key `k` whose value satisfies `q`. -/
def eraseFirst (m : HashMap K V) (k : K) (q : V → Bool) : HashMap K V :=
  { m with
    size := m.size - 1
    table := m.table.modify (m.getIndex k) (fun b => b.eraseP (fun e => e.1 = k && q e.2)) }

def updateBucket (k : K) (f : V → V) : List (K × V) → List (K × V)
  | [] => []
  | e :: l => if e.1 = k then (e.1, f e.2) :: l else e :: updateBucket k f l

/-- A write through the iterator that `find` returns. -/
def updateFirst (m : HashMap K V) (k : K) (f : V → V) : HashMap K V :=
  { m with table := m.table.modify (m.getIndex k) (updateBucket k f) }

/-- Writes through the iterators of all entries of a key. -/
def updateAll (m : HashMap K V) (k : K) (f : V → V) : HashMap K V :=
  { m with
    table := m.table.modify (m.getIndex k)
      (List.map fun e => if e.1 = k then (e.1, f e.2) else e) }

def values (m : HashMap K V) (k : K) : List V := (m.toList.filter (fun e => e.1 = k)).map Prod.snd

end Operations

end HashMap
end Haggle
