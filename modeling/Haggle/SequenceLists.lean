import Haggle.LinkedRing
import Mathlib.Algebra.Group.Nat.Defs

/-!
# Lists as sequences

A `List` is a ring of containers through a head that is a part of it, with a size beside it. The
size drives the loops that delete the containers. The copy constructor takes the size of the other
list over before it counts the copies once more; assignment empties the list before it reads the
other one, which may be the same.
-/

namespace Haggle
namespace SequenceLists

open LinkedRing

variable {T : Type}

section Model

/-- The containers by the order in which they were allocated, and the lists by their names.
`deleted` has the containers that were deleted, the first one first. -/
structure World (T : Type) where
  links : Links Cell
  objs : ℕ → Option T
  sizes : ℕ → Option UInt64
  fresh : ℕ
  deleted : List ℕ

def World.start : World T := ⟨⟨fun _ => none, fun _ => none⟩, fun _ => none, fun _ => none, 0, []⟩

/-- The memory of a `list_head` that was not given back. -/
def World.live (w : World T) : Cell → Bool
  | .head l => (w.sizes l).isSome
  | .elem a => (w.objs a).isSome

def World.next (w : World T) (c : Cell) : Option Cell := if w.live c then w.links.next c else none

def World.prev (w : World T) (c : Cell) : Option Cell := if w.live c then w.links.prev c else none

structure Iterator where
  pos : Cell
  tmp : Cell

/-- The constructor of `container`, from `new`. -/
def newContainer (w : World T) (obj : T) (next : Cell) : Option (World T) :=
  (w.prev next).bind fun prev =>
    if w.live prev then
      some { w with
        links := (w.links.join prev (.elem w.fresh)).join (.elem w.fresh) next
        objs := Function.update w.objs w.fresh (some obj)
        fresh := w.fresh + 1 }
    else none

/-- `delete`. A head was not allocated by itself, so that there is no meaning in it. -/
def delete (w : World T) : Cell → Option (World T)
  | .head _ => none
  | .elem a =>
    (w.next (.elem a)).bind fun next =>
      (w.prev (.elem a)).bind fun prev =>
        if w.live next && w.live prev then
          some { w with
            links := w.links.join prev next
            objs := Function.update w.objs a none
            deleted := w.deleted ++ [a] }
        else none

/-- A new container, and `_size++`. -/
def insertBefore (w : World T) (l : ℕ) (obj : T) (next : Cell) : Option (World T) :=
  (newContainer w obj next).bind fun w =>
    (w.sizes l).map fun n => { w with sizes := Function.update w.sizes l (some (n + 1)) }

/-- `_size--`, and `delete`. -/
def drop (w : World T) (l : ℕ) (c : Cell) : Option (World T) :=
  (w.sizes l).bind fun n =>
    delete { w with sizes := Function.update w.sizes l (some (n - 1)) } c

def iteratorAt (w : World T) (pos : Cell) : Option Iterator := (w.next pos).map (⟨pos, ·⟩)

/-- `begin()`. -/
def begin (w : World T) (l : ℕ) : Option Iterator := (w.next (.head l)).bind (iteratorAt w)

/-- `it++`, which makes an iterator of the old position, too. -/
def postIncrement (w : World T) (it : Iterator) : Option Iterator :=
  (iteratorAt w it.pos).bind fun _ => iteratorAt w it.tmp

def insert (w : World T) (l : ℕ) (it : Iterator) (obj : T) : Option (World T) :=
  insertBefore w l obj it.pos

def pushFront (w : World T) (l : ℕ) (obj : T) : Option (World T) :=
  (w.next (.head l)).bind (insertBefore w l obj)

def pushBack (w : World T) (l : ℕ) (obj : T) : Option (World T) := insertBefore w l obj (.head l)

def popFront (w : World T) (l : ℕ) : Option (World T) :=
  (w.sizes l).bind fun n => if n = 0 then some w else (w.next (.head l)).bind (drop w l)

def popBack (w : World T) (l : ℕ) : Option (World T) :=
  (w.sizes l).bind fun n => if n = 0 then some w else (w.prev (.head l)).bind (drop w l)

/-- The loop of `remove`, with as many turns as there are containers. -/
def removeLoop [BEq T] (l : ℕ) (val : T) : ℕ → World T → Iterator → Option (World T)
  | 0, _, _ => none
  | fuel + 1, w, it =>
    if it.pos = .head l then some w
    else
      match it.pos with
      | .head _ => none
      | .elem a =>
        (w.objs a).bind fun obj =>
          (postIncrement w it).bind fun next =>
            if obj == val then (drop w l it.pos).bind fun w => removeLoop l val fuel w next
            else removeLoop l val fuel w next

def remove [BEq T] (w : World T) (l : ℕ) (val : T) : Option (World T) :=
  (begin w l).bind (removeLoop l val (w.fresh + 1) w)

def erase (w : World T) (l : ℕ) (it : Iterator) : Option (World T × Iterator) :=
  (w.sizes l).bind fun n =>
    if n ≠ 0 ∧ it.pos ≠ .head l then
      (postIncrement w it).bind fun next => (drop w l it.pos).map (·, next)
    else (iteratorAt w (.head l)).map (w, ·)

/-- The loop of `clear`, with as many turns as the size says. -/
def clearLoop (l : ℕ) : ℕ → World T → Option (World T)
  | 0, w => if w.sizes l = some 0 then some w else none
  | fuel + 1, w => if w.sizes l = some 0 then some w else (popFront w l).bind (clearLoop l fuel)

def clear (w : World T) (l : ℕ) : Option (World T) :=
  (w.sizes l).bind fun n => clearLoop l n.toNat w

/-- A list with this size whose head is linked with itself. -/
def construct (w : World T) (l : ℕ) (size : UInt64) : World T :=
  { w with
    links := w.links.set (.head l) (some (.head l)) (some (.head l))
    sizes := Function.update w.sizes l (some size) }

/-- The loop of the copy constructor and of `operator=`. -/
def copyLoop (l src : ℕ) : ℕ → World T → Iterator → Option (World T)
  | 0, _, _ => none
  | fuel + 1, w, it =>
    if it.pos = .head src then some w
    else
      match it.pos with
      | .head _ => none
      | .elem a =>
        (w.objs a).bind fun obj =>
          (pushBack w l obj).bind fun w =>
            (postIncrement w it).bind (copyLoop l src fuel w)

/-- `List(const List<T>&)`. -/
def copy (w : World T) (l src : ℕ) : Option (World T) :=
  (w.sizes src).bind fun n =>
    let w := construct w l n
    (begin w src).bind (copyLoop l src (w.fresh + 1) w)

/-- `operator=`. -/
def assign (w : World T) (l src : ℕ) : Option (World T) :=
  (clear w l).bind fun w => (begin w src).bind (copyLoop l src (w.fresh + 1) w)

/-- `~List()`, and what becomes of the head. -/
def destroy (w : World T) (l : ℕ) : Option (World T) :=
  (clear w l).bind fun w =>
    (w.next (.head l)).bind fun next =>
      (w.prev (.head l)).map fun prev =>
        { w with links := w.links.join prev next, sizes := Function.update w.sizes l none }

inductive Op (T : Type)
  | new (l : ℕ)
  | insert (l : ℕ) (it : Iterator) (x : T)
  | pushFront (l : ℕ) (x : T)
  | pushBack (l : ℕ) (x : T)
  | popFront (l : ℕ)
  | popBack (l : ℕ)
  | remove (l : ℕ) (x : T)
  | erase (l : ℕ) (it : Iterator)
  | clear (l : ℕ)
  | copy (l src : ℕ)
  | assign (l src : ℕ)
  | destroy (l : ℕ)

def step [BEq T] (w : World T) : Op T → Option (World T)
  | .new l => some (construct w l 0)
  | .insert l it x => SequenceLists.insert w l it x
  | .pushFront l x => SequenceLists.pushFront w l x
  | .pushBack l x => SequenceLists.pushBack w l x
  | .popFront l => SequenceLists.popFront w l
  | .popBack l => SequenceLists.popBack w l
  | .remove l x => SequenceLists.remove w l x
  | .erase l it => (SequenceLists.erase w l it).map (·.1)
  | .clear l => SequenceLists.clear w l
  | .copy l src => SequenceLists.copy w l src
  | .assign l src => SequenceLists.assign w l src
  | .destroy l => SequenceLists.destroy w l

def run [BEq T] (w : World T) (ops : List (Op T)) : Option (World T) := ops.foldlM step w

end Model

section Meaning

/-- The lists that there are, each with its elements. -/
abbrev Sequences (T : Type) := ℕ → Option (List T)

/-- What an operation does to the sequences, where `i` is the position of its iterator. -/
def Op.effect [BEq T] (i : ℕ) (s : Sequences T) : Op T → Sequences T
  | .new l => Function.update s l (some [])
  | .insert l _ x => Function.update s l ((s l).map fun xs => xs.insertIdx i x)
  | .pushFront l x => Function.update s l ((s l).map fun xs => x :: xs)
  | .pushBack l x => Function.update s l ((s l).map fun xs => xs ++ [x])
  | .popFront l => Function.update s l ((s l).map List.tail)
  | .popBack l => Function.update s l ((s l).map List.dropLast)
  | .remove l x => Function.update s l ((s l).map fun xs => xs.filter fun y => !(y == x))
  | .erase l _ => Function.update s l ((s l).map fun xs => xs.eraseIdx i)
  | .clear l => Function.update s l ((s l).map fun _ => [])
  | .copy l src | .assign l src => Function.update s l (s src)
  | .destroy l => Function.update s l none

/-- The ring of the list goes through containers with these objects, as many as the size. -/
def Lists (w : World T) (l : ℕ) (xs : List T) : Prop :=
  ∃ as n, Holds w.links l as ∧ as.map w.objs = xs.map some ∧ w.sizes l = some n ∧
    n.toNat = as.length

/-- Every list has the elements of its sequence and a size that is the number of its containers. -/
structure Represents (w : World T) (s : Sequences T) : Prop where
  lists : ∀ l xs, s l = some xs → Lists w l xs
  noLists : ∀ l, s l = none → w.sizes l = none

/-- `clear` and the destructor delete the containers of the list, each once, and nothing else. -/
def Deletes (w : World T) (l : ℕ) (w' : World T) : Prop :=
  ∀ as, Holds w.links l as → w'.deleted = w.deleted ++ as

/-- The cell at a place of the list, where the head is behind the last container. -/
def PlaceAt (w : World T) (l : ℕ) (c : Cell) (i : ℕ) : Prop :=
  ∃ as, Holds w.links l as ∧ (as.map Cell.elem ++ [Cell.head l])[i]? = some c

/-- There is room for one more in the size. -/
def Room (w : World T) (l : ℕ) : Prop := ∃ n, w.sizes l = some n ∧ n ≠ UInt64.ofNat (2 ^ 64 - 1)

def Empty (w : World T) (l : ℕ) : Prop := w.links.next (.head l) = some (.head l)

/-- The lists that an operation names exist or, where it makes one, do not, and its iterator is at
the position `i` of its list. -/
def Valid (w : World T) (i : ℕ) : Op T → Prop
  | .new l => w.sizes l = none
  | .insert l it _ | .erase l it => (w.sizes l).isSome ∧ PlaceAt w l it.pos i
  | .pushFront l _ | .pushBack l _ | .popFront l | .popBack l | .remove l _ | .clear l
  | .destroy l => (w.sizes l).isSome
  | .copy l src => w.sizes l = none ∧ (w.sizes src).isSome
  | .assign l src => (w.sizes l).isSome ∧ (w.sizes src).isSome

/-- Only empty lists are copied by the constructor or assigned to themselves, and what the iterator
has for the next position was not deleted when its element is erased. -/
def Proper (w : World T) : Op T → Prop
  | .insert l _ _ | .pushFront l _ | .pushBack l _ => Room w l
  | .erase l it => it.pos = .head l ∨ (w.next it.tmp).isSome
  | .copy _ src => Empty w src
  | .assign l src => l = src → Empty w l
  | _ => True

/-- The states of the runs of proper operations, with the sequences after the same operations. -/
inductive Reaches [BEq T] : World T → Sequences T → Prop
  | start : Reaches .start fun _ => none
  | step {w w' : World T} {s : Sequences T} {op : Op T} {i : ℕ} : Reaches w s → Valid w i op →
      Proper w op → step w op = some w' → Reaches w' (op.effect i s)

end Meaning

section Steps

variable {w w' : World T} {s : Sequences T} {l l' a i : ℕ} {as as₁ as₂ : List ℕ} {xs xs' : List T}
  {x : T} {c p q : Cell}

/-- No container is there that was not allocated. -/
def Fresh (w : World T) : Prop :=
  ∀ a, w.fresh ≤ a → w.objs a = none ∧ w.links.next (.elem a) = none

structure Inv (w : World T) (s : Sequences T) : Prop extends Represents w s where
  fresh : Fresh w

theorem World.next_of_live (hc : w.live c) : w.next c = w.links.next c := if_pos hc

theorem World.prev_of_live (hc : w.live c) : w.prev c = w.links.prev c := if_pos hc

theorem Lists.live (h : Lists w l xs) (hring : Holds w.links l as)
    (hc : c ∈ Cell.head l :: as.map Cell.elem) : w.live c := by
  obtain ⟨as', n, hring', hobjs, hsize, -⟩ := h
  obtain rfl := hring'.unique hring
  obtain rfl | hc := List.mem_cons.mp hc
  · exact Option.isSome_iff_exists.mpr ⟨n, hsize⟩
  · obtain ⟨a, ha, rfl⟩ := List.mem_map.mp hc
    have hmem := List.mem_map_of_mem (f := w.objs) ha
    rw [hobjs] at hmem
    obtain ⟨y, -, hy⟩ := List.mem_map.mp hmem
    exact Option.isSome_iff_exists.mpr ⟨y, hy.symm⟩

theorem live_of_sizes {n : UInt64} (hc : w.live c) :
    World.live { w with sizes := Function.update w.sizes l (some n) } c := by
  cases c with
  | elem a => exact hc
  | head l' =>
    by_cases hne : l' = l
    · subst hne
      simp [World.live]
    · simpa [World.live, Function.update_of_ne hne] using hc

theorem Lists.frame (h : Lists w l xs) (hkept : Kept w.links w'.links l)
    (hobjs : ∀ a as, Holds w.links l as → a ∈ as → w'.objs a = w.objs a)
    (hsize : w'.sizes l = w.sizes l) : Lists w' l xs := by
  obtain ⟨as, n, hring, hmap, hn, hlen⟩ := h
  refine ⟨as, n, hkept as hring, ?_, hsize.trans hn, hlen⟩
  rw [← hmap]
  exact List.map_congr_left fun a ha => hobjs a as hring ha

/-- One list gets other elements, and the others keep theirs. -/
theorem Inv.update (h : Inv w s) (hl : Lists w' l xs) (hkept : ∀ l' ≠ l, Kept w.links w'.links l')
    (hobjs : ∀ l' ≠ l, ∀ a as, Holds w.links l' as → a ∈ as → w'.objs a = w.objs a)
    (hsizes : ∀ l' ≠ l, w'.sizes l' = w.sizes l') (hfresh : Fresh w') :
    Inv w' (Function.update s l (some xs)) := by
  refine ⟨⟨?_, ?_⟩, hfresh⟩
  · intro l' xs' hs'
    by_cases hne : l' = l
    · subst hne
      rw [Function.update_self] at hs'
      exact Option.some.inj hs' ▸ hl
    · rw [Function.update_of_ne hne] at hs'
      exact (h.lists l' xs' hs').frame (hkept l' hne) (hobjs l' hne) (hsizes l' hne)
  · intro l' hs'
    by_cases hne : l' = l
    · subst hne
      rw [Function.update_self] at hs'
      cases hs'
    · rw [Function.update_of_ne hne] at hs'
      exact (hsizes l' hne).trans (h.noLists l' hs')

/-- What is allocated is in no ring before. -/
theorem Inv.fresh_notMem (h : Inv w s) (hring : Holds w.links l as) : w.fresh ∉ as :=
  hring.notMem_of_none (h.fresh w.fresh le_rfl).2

theorem Fresh.ne (h : Fresh w) (hc : w.live c) (ha : w.fresh ≤ a) : Cell.elem a ≠ c := by
  rintro rfl
  have hnone := (h a ha).1
  exact absurd hc (by simp [World.live, hnone])

theorem toNat_add_one {n : UInt64} (hn : n ≠ UInt64.ofNat (2 ^ 64 - 1)) :
    (n + 1).toNat = n.toNat + 1 := by
  have hlt := n.toNat_lt
  have hne : n.toNat ≠ 2 ^ 64 - 1 := fun heq => hn (by rw [← heq, UInt64.ofNat_toNat])
  rw [UInt64.toNat_add]
  exact Nat.mod_eq_of_lt (by change n.toNat + 1 < 2 ^ 64; omega)

theorem toNat_sub_one {n : UInt64} {k : ℕ} (hn : n.toNat = k + 1) : (n - 1).toNat = k := by
  have hle : (1 : UInt64) ≤ n := UInt64.le_iff_toNat_le.mpr (by rw [hn]; exact Nat.le_add_left 1 k)
  rw [UInt64.toNat_sub_of_le _ _ hle, hn]
  rfl

theorem insertIdx_length (xs₁ xs₂ : List T) (x : T) :
    (xs₁ ++ xs₂).insertIdx xs₁.length x = xs₁ ++ x :: xs₂ := by
  induction xs₁ with
  | nil => rfl
  | cons y xs₁ ih => exact congrArg (y :: ·) ih

theorem insertBefore_spec (h : Inv w s) (hs : s l = some xs)
    (hring : Holds w.links l (as₁ ++ as₂)) (hroom : Room w l)
    (hq : (as₂.map Cell.elem ++ [Cell.head l]).head? = some q) (x : T) :
    ∃ w', insertBefore w l x q = some w' ∧
      Inv w' (Function.update s l (some (xs.insertIdx as₁.length x))) ∧
      ∀ l' ≠ l, Kept w.links w'.links l' := by
  have hlists := h.lists l xs hs
  have hlive := fun c => hlists.live (c := c) hring
  have hqmem : q ∈ Cell.head l :: (as₁ ++ as₂).map Cell.elem := by
    rw [List.map_append]
    obtain hq | hq := List.mem_append.mp (List.mem_of_mem_head? hq)
    · exact List.mem_cons_of_mem _ (List.mem_append_right _ hq)
    · exact List.mem_singleton.mp hq ▸ List.mem_cons_self
  obtain ⟨p, hpmem, hprev⟩ := IsRing.prev_mem hring hqmem
  obtain ⟨p', hprev', hinserted, hkept⟩ :=
    hring.insert (fun l' as' hring' => h.fresh_notMem hring') hq
  obtain rfl : p' = p := Option.some.inj (hprev'.symm.trans hprev)
  obtain ⟨as, n, hring', hobjs, hsize, hlen⟩ := hlists
  obtain rfl := hring'.unique hring
  obtain ⟨n', hn', hne⟩ := hroom
  obtain rfl : n' = n := Option.some.inj (hn'.symm.trans hsize)
  have hsame : ∀ l' as', Holds w.links l' as' → ∀ a ∈ as',
      Function.update w.objs w.fresh (some x) a = w.objs a := fun l' as' hring' a ha =>
    Function.update_of_ne (ne_of_mem_of_not_mem ha (h.fresh_notMem hring')) _ _
  have hinsert : insertBefore w l x q = some { w with
      links := (w.links.join p' (.elem w.fresh)).join (.elem w.fresh) q
      objs := Function.update w.objs w.fresh (some x)
      sizes := Function.update w.sizes l (some (n' + 1))
      fresh := w.fresh + 1 } := by
    unfold insertBefore newContainer
    rw [World.prev_of_live (hlive q hqmem), hprev, Option.bind_some, if_pos (hlive p' hpmem),
      Option.bind_some, hsize]
    rfl
  refine ⟨_, hinsert, h.update ⟨_, n' + 1, hinserted, ?_, Function.update_self .., ?_⟩ hkept
    (fun l' _ a as' hring' ha => hsame l' as' hring' a ha)
    (fun l' hne => Function.update_of_ne hne _ _) ?_, hkept⟩
  · have hmap₁ := List.map_congr_left fun a ha => hsame l _ hring a (List.mem_append_left as₂ ha)
    have hmap₂ := List.map_congr_left fun a ha => hsame l _ hring a (List.mem_append_right as₁ ha)
    have hcount : (as₁.map w.objs).length = as₁.length := List.length_map w.objs
    rw [List.map_insertIdx, ← hobjs, List.map_append, List.map_append, List.map_cons, hmap₁, hmap₂,
      ← hcount, insertIdx_length]
    exact congrArg (List.map w.objs as₁ ++ · :: List.map w.objs as₂) (Function.update_self ..)
  · rw [toNat_add_one hne, hlen]
    simp [Nat.add_assoc]
  · intro a ha
    have hlt : w.fresh ≤ a := Nat.le_of_succ_le ha
    have hne' : a ≠ w.fresh := Nat.ne_of_gt ha
    refine ⟨(Function.update_of_ne hne' _ _).trans (h.fresh a hlt).1, ?_⟩
    rw [Links.next_join_of_ne _ (fun heq => hne' (Cell.elem.inj heq)),
      Links.next_join_of_ne _ (h.fresh.ne (hlive p' hpmem) hlt)]
    exact (h.fresh a hlt).2

theorem eraseIdx_length (xs₁ xs₂ : List T) (x : T) :
    (xs₁ ++ x :: xs₂).eraseIdx xs₁.length = xs₁ ++ xs₂ := by
  induction xs₁ with
  | nil => rfl
  | cons y xs₁ ih => exact congrArg (y :: ·) ih

theorem drop_spec (h : Inv w s) (hs : s l = some xs) (hring : Holds w.links l (as₁ ++ a :: as₂)) :
    ∃ w', drop w l (.elem a) = some w' ∧
      Inv w' (Function.update s l (some (xs.eraseIdx as₁.length))) ∧
      w'.deleted = w.deleted ++ [a] ∧ Holds w'.links l (as₁ ++ as₂) := by
  have hlists := h.lists l xs hs
  have hlive := fun c => hlists.live (c := c) hring
  have hmem : a ∈ as₁ ++ a :: as₂ := by simp
  obtain ⟨p, q, hprev, hnext, herased, hkept⟩ := hring.erase
  obtain ⟨p', hpmem, hprev'⟩ := IsRing.prev_mem hring (mem_ring hmem l)
  obtain ⟨q', hqmem, hnext'⟩ := IsRing.next_mem hring (mem_ring hmem l)
  obtain rfl : p' = p := Option.some.inj (hprev'.symm.trans hprev)
  obtain rfl : q' = q := Option.some.inj (hnext'.symm.trans hnext)
  obtain ⟨as, n, hring', hobjs, hsize, hlen⟩ := hlists
  obtain rfl := hring'.unique hring
  have hnodup := hring.nodup
  rw [List.nodup_middle, List.nodup_cons] at hnodup
  have hdrop : drop w l (.elem a) = some { w with
      links := w.links.join p' q'
      objs := Function.update w.objs a none
      sizes := Function.update w.sizes l (some (n - 1))
      deleted := w.deleted ++ [a] } := by
    have hlive' : ∀ c ∈ Cell.head l :: (as₁ ++ a :: as₂).map Cell.elem,
        World.live { w with sizes := Function.update w.sizes l (some (n - 1)) } c := fun c hc =>
      live_of_sizes (hlive c hc)
    unfold drop delete
    rw [hsize, Option.bind_some]
    simp only []
    rw [World.next_of_live (hlive' _ (mem_ring hmem l)), hnext, Option.bind_some,
      World.prev_of_live (hlive' _ (mem_ring hmem l)), hprev, Option.bind_some,
      hlive' q' hqmem, hlive' p' hpmem]
    rfl
  have hsame : ∀ b ∈ as₁ ++ as₂, Function.update w.objs a none b = w.objs b := fun b hb =>
    Function.update_of_ne (ne_of_mem_of_not_mem hb hnodup.1) _ _
  refine ⟨_, hdrop, h.update ⟨_, n - 1, herased, ?_, Function.update_self .., ?_⟩ hkept ?_
    (fun l' hne => Function.update_of_ne hne _ _) ?_, rfl, herased⟩
  · rw [List.map_append, List.map_cons] at hobjs
    have hcount : (as₁.map w.objs).length = as₁.length := List.length_map w.objs
    rw [← List.eraseIdx_map, ← hobjs, ← hcount, eraseIdx_length, ← List.map_append]
    exact List.map_congr_left hsame
  · refine toNat_sub_one (hlen.trans ?_)
    simp [Nat.add_assoc]
  · intro l' hne b as' hother hb
    refine Function.update_of_ne (fun heq => hne ?_) _ _
    exact hother.eq_of_mem hring hb (heq ▸ hmem)
  · intro b hb
    have hold := h.fresh b hb
    refine ⟨?_, ?_⟩
    · by_cases hba : b = a
      · exact hba ▸ Function.update_self ..
      · exact (Function.update_of_ne hba _ _).trans hold.1
    · rw [Links.next_join_of_ne _ (h.fresh.ne (hlive p' hpmem) hb)]
      exact hold.2

/-- A list that is there, with its ring and its size. -/
theorem Inv.exists_list (h : Inv w s) (hl : (w.sizes l).isSome) :
    ∃ xs as n, s l = some xs ∧ Holds w.links l as ∧ as.map w.objs = xs.map some ∧
      w.sizes l = some n ∧ n.toNat = as.length := by
  cases hs : s l with
  | none =>
    rw [h.noLists l hs] at hl
    cases hl
  | some xs =>
    obtain ⟨as, n, hlist⟩ := h.lists l xs hs
    exact ⟨xs, as, n, rfl, hlist⟩

theorem length_of_map (hobjs : as.map w.objs = xs.map some) : as.length = xs.length := by
  simpa using congrArg List.length hobjs

theorem Inv.room (h : Inv w s) (hs : s l = some xs) (hlt : xs.length < 2 ^ 64 - 1) : Room w l := by
  obtain ⟨as, n, -, hobjs, hsize, hlen⟩ := h.lists l xs hs
  refine ⟨n, hsize, ?_⟩
  rintro rfl
  rw [← length_of_map hobjs, ← hlen] at hlt
  exact absurd hlt (by decide)

theorem pushFront_spec (h : Inv w s) (hs : s l = some xs) (hroom : Room w l) (x : T) :
    ∃ w', pushFront w l x = some w' ∧ Inv w' (Function.update s l (some (x :: xs))) := by
  obtain ⟨as, n, hring, hobjs, -, -⟩ := h.lists l xs hs
  obtain ⟨q, hq⟩ := exists_head? (as.map Cell.elem) (Cell.head l)
  have hring₀ : Holds w.links l ([] ++ as) := hring
  obtain ⟨w', hinsert, hw', -⟩ := insertBefore_spec h hs hring₀ hroom hq x
  refine ⟨w', ?_, hw'⟩
  unfold pushFront
  rw [World.next_of_live ((h.lists l xs hs).live hring List.mem_cons_self), hring.next_head, hq]
  exact hinsert

theorem pushBack_spec (h : Inv w s) (hs : s l = some xs) (hroom : Room w l) (x : T) :
    ∃ w', pushBack w l x = some w' ∧ Inv w' (Function.update s l (some (xs ++ [x]))) ∧
      ∀ l' ≠ l, Kept w.links w'.links l' := by
  obtain ⟨as, n, hring, hobjs, -, -⟩ := h.lists l xs hs
  rw [← List.append_nil as] at hring
  have hspec := insertBefore_spec h hs hring hroom rfl x
  rwa [length_of_map hobjs, List.insertIdx_length_self] at hspec

theorem PlaceAt.split (h : PlaceAt w l c i) : ∃ as₁ as₂, Holds w.links l (as₁ ++ as₂) ∧
    as₁.length = i ∧ (as₂.map Cell.elem ++ [Cell.head l]).head? = some c := by
  obtain ⟨as, hring, hplace⟩ := h
  have hle : i ≤ as.length := by
    have hlt := (List.getElem?_eq_some_iff.mp hplace).1
    simp only [List.length_append, List.length_map, List.length_singleton] at hlt
    omega
  refine ⟨as.take i, as.drop i, by rwa [List.take_append_drop], List.length_take_of_le hle, ?_⟩
  rw [List.map_drop, ← List.drop_append_of_le_length (by rwa [List.length_map]), List.head?_drop]
  exact hplace

theorem insert_spec (h : Inv w s) (hs : s l = some xs) {it : Iterator}
    (hplace : PlaceAt w l it.pos i) (hroom : Room w l) (x : T) :
    ∃ w', insert w l it x = some w' ∧ Inv w' (Function.update s l (some (xs.insertIdx i x))) := by
  obtain ⟨as₁, as₂, hring, rfl, hq⟩ := hplace.split
  obtain ⟨w', hinsert, hw', -⟩ := insertBefore_spec h hs hring hroom hq x
  exact ⟨w', hinsert, hw'⟩

theorem size_eq_zero {n : UInt64} (hlen : n.toNat = as.length) : n = 0 ↔ as = [] := by
  rw [← List.length_eq_zero_iff, ← hlen, ← UInt64.toNat_inj]
  rfl

/-- No elements, and `pop` does nothing. -/
theorem Inv.same (h : Inv w s) (hs : s l = some xs) : Inv w (Function.update s l (some xs)) := by
  rwa [← hs, Function.update_eq_self]

theorem popFront_spec (h : Inv w s) (hs : s l = some xs) (hring : Holds w.links l as) :
    ∃ w', popFront w l = some w' ∧ Inv w' (Function.update s l (some xs.tail)) ∧
      w'.deleted = w.deleted ++ as.take 1 ∧ Holds w'.links l as.tail := by
  obtain ⟨as', n, hring', hobjs, hsize, hlen⟩ := h.lists l xs hs
  obtain rfl := hring'.unique hring
  have hxs := length_of_map hobjs
  unfold popFront
  rw [hsize, Option.bind_some]
  cases as' with
  | nil =>
    obtain rfl : xs = [] := List.length_eq_zero_iff.mp hxs.symm
    rw [if_pos ((size_eq_zero hlen).mpr rfl)]
    exact ⟨w, rfl, h.same hs, (List.append_nil _).symm, hring⟩
  | cons a as =>
    rw [if_neg fun hn => List.cons_ne_nil a as ((size_eq_zero hlen).mp hn),
      World.next_of_live ((h.lists l xs hs).live hring List.mem_cons_self), hring.next_head]
    have hring₀ : Holds w.links l ([] ++ a :: as) := hring
    have hspec := drop_spec h hs hring₀
    rwa [List.length_nil, List.eraseIdx_zero] at hspec

theorem popBack_spec (h : Inv w s) (hs : s l = some xs) :
    ∃ w', popBack w l = some w' ∧ Inv w' (Function.update s l (some xs.dropLast)) := by
  obtain ⟨as, n, hring, hobjs, hsize, hlen⟩ := h.lists l xs hs
  have hxs := length_of_map hobjs
  unfold popBack
  rw [hsize, Option.bind_some]
  obtain rfl | ⟨as, a, rfl⟩ := List.eq_nil_or_concat' as
  · obtain rfl : xs = [] := List.length_eq_zero_iff.mp hxs.symm
    rw [if_pos ((size_eq_zero hlen).mpr rfl)]
    exact ⟨w, rfl, h.same hs⟩
  · have hprev : w.links.prev (.head l) = some (.elem a) := by
      rw [IsRing.prev_head hring, List.map_append, ← List.cons_append]
      exact List.getLast?_concat
    rw [if_neg fun hn => by simpa using (size_eq_zero hlen).mp hn,
      World.prev_of_live ((h.lists l xs hs).live hring List.mem_cons_self), hprev]
    obtain ⟨w', hdrop, hw', -⟩ := drop_spec h hs hring
    rw [List.length_append, List.length_singleton] at hxs
    rw [List.eraseIdx_eq_dropLast hxs] at hw'
    exact ⟨w', hdrop, hw'⟩

/-- The loop deletes the containers from the front, as many as there are. -/
theorem clearLoop_spec (h : Inv w s) (hs : s l = some xs) (hring : Holds w.links l as) {fuel : ℕ}
    (hfuel : as.length ≤ fuel) : ∃ w', clearLoop l fuel w = some w' ∧
      Inv w' (Function.update s l (some [])) ∧ w'.deleted = w.deleted ++ as ∧
        Holds w'.links l [] := by
  induction as generalizing w s xs fuel with
  | nil =>
    obtain ⟨as, n, hring', hobjs, hsize, hlen⟩ := h.lists l xs hs
    obtain rfl := hring'.unique hring
    obtain rfl : xs = [] := List.length_eq_zero_iff.mp (length_of_map hobjs).symm
    have hzero : w.sizes l = some 0 := by
      rw [hsize, (size_eq_zero hlen).mpr rfl]
    refine ⟨w, ?_, h.same hs, (List.append_nil _).symm, hring⟩
    cases fuel with
    | zero => exact if_pos hzero
    | succ fuel => exact if_pos hzero
  | cons a as ih =>
    obtain ⟨as', n, hring', hobjs, hsize, hlen⟩ := h.lists l xs hs
    obtain rfl := hring'.unique hring
    cases fuel with
    | zero => exact absurd hfuel (Nat.not_succ_le_zero _)
    | succ fuel =>
      obtain ⟨w₁, hpop, hw₁, hdel₁, hring₁⟩ := popFront_spec h hs hring
      obtain ⟨w', hloop, hw', hdel', hnil⟩ :=
        ih hw₁ (Function.update_self ..) hring₁ (Nat.le_of_succ_le_succ hfuel)
      refine ⟨w', ?_, ?_, ?_, hnil⟩
      · have hne : w.sizes l ≠ some 0 := fun hzero =>
          List.cons_ne_nil a as ((size_eq_zero hlen).mp (Option.some.inj (hsize.symm.trans hzero)))
        unfold clearLoop
        rw [if_neg hne, hpop]
        exact hloop
      · rwa [Function.update_idem] at hw'
      · rw [hdel', hdel₁, List.append_assoc]
        rfl

theorem clear_spec (h : Inv w s) (hs : s l = some xs) (hring : Holds w.links l as) :
    ∃ w', clear w l = some w' ∧ Inv w' (Function.update s l (some [])) ∧
      w'.deleted = w.deleted ++ as ∧ Holds w'.links l [] := by
  obtain ⟨as', n, hring', hobjs, hsize, hlen⟩ := h.lists l xs hs
  obtain rfl := hring'.unique hring
  unfold clear
  rw [hsize, Option.bind_some]
  exact clearLoop_spec h hs hring hlen.ge

/-- The first of these containers, or the head. -/
def firstOf (l : ℕ) (rest : List ℕ) : Option Cell := (rest.map Cell.elem ++ [Cell.head l]).head?

/-- The iterator has these containers before it, and the one after the first of them. -/
def IteratesOver (l : ℕ) (rest : List ℕ) (it : Iterator) : Prop :=
  firstOf l rest = some it.pos ∧ (rest ≠ [] → firstOf l rest.tail = some it.tmp)

theorem firstOf_mem (hc : firstOf l as₂ = some c) :
    c ∈ Cell.head l :: (as₁ ++ as₂).map Cell.elem := by
  rw [List.map_append]
  obtain hc | hc := List.mem_append.mp (List.mem_of_mem_head? hc)
  · exact List.mem_cons_of_mem _ (List.mem_append_right _ hc)
  · exact List.mem_singleton.mp hc ▸ List.mem_cons_self

theorem iteratorAt_spec (hlist : Lists w l xs) (hring : Holds w.links l as)
    (hc : c ∈ Cell.head l :: as.map Cell.elem) :
    ∃ q, w.links.next c = some q ∧ iteratorAt w c = some ⟨c, q⟩ := by
  obtain ⟨q, -, hnext⟩ := IsRing.next_mem hring hc
  refine ⟨q, hnext, ?_⟩
  unfold iteratorAt
  rw [World.next_of_live (hlist.live hring hc), hnext]
  rfl

theorem iteratesOver_of_next (hring : Holds w.links l (as₁ ++ as₂)) (hc : firstOf l as₂ = some c)
    (hq : w.links.next c = some q) : IteratesOver l as₂ ⟨c, q⟩ := by
  refine ⟨hc, fun hne => ?_⟩
  obtain ⟨a, as₂, rfl⟩ := List.exists_cons_of_ne_nil hne
  obtain rfl : Cell.elem a = c := Option.some.inj hc
  exact hring.next.symm.trans hq

theorem begin_spec (hlist : Lists w l xs) (hring : Holds w.links l as) :
    ∃ it, SequenceLists.begin w l = some it ∧ IteratesOver l as it := by
  obtain ⟨c, hc⟩ : ∃ c, firstOf l as = some c := exists_head? _ _
  have hring₀ : Holds w.links l ([] ++ as) := hring
  have hmem : c ∈ Cell.head l :: ([] ++ as).map Cell.elem := firstOf_mem hc
  obtain ⟨q, hq, hat⟩ := iteratorAt_spec hlist hring hmem
  refine ⟨⟨c, q⟩, ?_, iteratesOver_of_next hring₀ hc hq⟩
  unfold SequenceLists.begin
  rw [World.next_of_live (hlist.live hring List.mem_cons_self), hring.next_head]
  exact (congrArg (Option.bind · _) hc).trans hat

theorem postIncrement_spec {it : Iterator} (hlist : Lists w l xs)
    (hring : Holds w.links l (as₁ ++ a :: as₂)) (hit : IteratesOver l (a :: as₂) it) :
    ∃ it', postIncrement w it = some it' ∧ IteratesOver l as₂ it' := by
  have htmp : firstOf l as₂ = some it.tmp := hit.2 (List.cons_ne_nil a as₂)
  have hring' : Holds w.links l ((as₁ ++ [a]) ++ as₂) := by
    rwa [List.append_assoc]
  obtain ⟨_, -, hpos⟩ := iteratorAt_spec hlist hring (firstOf_mem hit.1)
  obtain ⟨q, hq, hat⟩ := iteratorAt_spec hlist hring' (firstOf_mem htmp)
  refine ⟨_, ?_, iteratesOver_of_next hring' htmp hq⟩
  unfold postIncrement
  rw [hpos]
  exact hat

theorem obj_at {xs₁ xs₂ : List T} (hobjs : (as₁ ++ a :: as₂).map w.objs = (xs₁ ++ xs₂).map some)
    (hlen : as₁.length = xs₁.length) : ∃ y ys, xs₂ = y :: ys ∧ w.objs a = some y := by
  rw [List.map_append, List.map_append, List.map_cons] at hobjs
  obtain ⟨-, htail⟩ := List.append_inj hobjs (by simpa using hlen)
  obtain ⟨y, ys, rfl, hy, -⟩ := List.map_eq_cons_iff.mp htail.symm
  exact ⟨y, ys, rfl, hy.symm⟩

theorem erase_spec (h : Inv w s) (hs : s l = some xs) {it : Iterator}
    (hplace : PlaceAt w l it.pos i) (hnext : it.pos = .head l ∨ (w.next it.tmp).isSome) :
    ∃ r, erase w l it = some r ∧ Inv r.1 (Function.update s l (some (xs.eraseIdx i))) := by
  obtain ⟨as₁, as₂, hring, rfl, hpos⟩ := hplace.split
  have hlist := h.lists l xs hs
  obtain ⟨as, n, hring', hobjs, hsize, hlen⟩ := hlist
  obtain rfl := hring'.unique hring
  unfold erase
  rw [hsize, Option.bind_some]
  cases as₂ with
  | nil =>
    obtain hhead : Cell.head l = it.pos := Option.some.inj hpos
    obtain ⟨q, -, hat⟩ := iteratorAt_spec (h.lists l xs hs) hring (c := .head l) List.mem_cons_self
    rw [if_neg fun hand => hand.2 hhead.symm, hat]
    refine ⟨_, rfl, ?_⟩
    rw [List.append_nil] at hobjs
    rw [List.eraseIdx_of_length_le (length_of_map hobjs).ge]
    exact h.same hs
  | cons a as₂ =>
    have helem : Cell.elem a = it.pos := Option.some.inj hpos
    have hn : n ≠ 0 := fun hn => by simpa using (size_eq_zero hlen).mp hn
    obtain ⟨q, -, hat⟩ := iteratorAt_spec (h.lists l xs hs) hring (firstOf_mem hpos)
    obtain hhead | hlive := hnext
    · rw [← helem] at hhead
      cases hhead
    obtain ⟨next, htmp⟩ := Option.isSome_iff_exists.mp hlive
    obtain ⟨w', hdrop, hw', -⟩ := drop_spec h hs hring
    refine ⟨(w', ⟨it.tmp, next⟩), ?_, hw'⟩
    rw [if_pos ⟨hn, by rw [← helem]; nofun⟩]
    unfold postIncrement
    rw [hat, Option.bind_some]
    unfold iteratorAt
    rw [htmp, ← helem, hdrop]
    rfl

/-- What is kept so far stays in front, and what is left goes through the test. -/
theorem removeLoop_spec [BEq T] {val : T} {xs₁ xs₂ : List T} {it : Iterator} {fuel : ℕ}
    (h : Inv w s) (hs : s l = some (xs₁ ++ xs₂)) (hring : Holds w.links l (as₁ ++ as₂))
    (hlen : as₁.length = xs₁.length) (hit : IteratesOver l as₂ it) (hfuel : as₂.length < fuel) :
    ∃ w', removeLoop l val fuel w it = some w' ∧
      Inv w' (Function.update s l (some (xs₁ ++ xs₂.filter fun y => !(y == val)))) := by
  induction as₂ generalizing w s as₁ xs₁ xs₂ it fuel with
  | nil =>
    obtain ⟨as, n, hring', hobjs, -, -⟩ := h.lists l _ hs
    obtain rfl := hring'.unique hring
    have hxs₂ : xs₂ = [] := by
      have hall := length_of_map hobjs
      rw [List.length_append, List.length_append, List.length_nil] at hall
      exact List.length_eq_zero_iff.mp (by omega)
    subst hxs₂
    cases fuel with
    | zero => exact absurd hfuel (Nat.not_lt_zero _)
    | succ fuel => exact ⟨w, if_pos (Option.some.inj hit.1).symm, h.same hs⟩
  | cons a as₂ ih =>
    obtain ⟨as, n, hring', hobjs, -, -⟩ := h.lists l _ hs
    obtain rfl := hring'.unique hring
    obtain ⟨y, ys, rfl, hy⟩ := obj_at hobjs hlen
    obtain ⟨next, hnext, hit'⟩ := postIncrement_spec (h.lists l _ hs) hring hit
    have hpos : it.pos = .elem a := (Option.some.inj hit.1).symm
    cases fuel with
    | zero => exact absurd hfuel (Nat.not_lt_zero _)
    | succ fuel =>
      unfold removeLoop
      rw [hpos, if_neg nofun]
      simp only []
      rw [hy, Option.bind_some, hnext, Option.bind_some]
      by_cases heq : y == val
      · obtain ⟨w₁, hdrop, hw₁, -, hring₁⟩ := drop_spec h hs hring
        rw [hlen, eraseIdx_length] at hw₁
        obtain ⟨w', hloop, hw'⟩ := ih hw₁ (Function.update_self ..) hring₁ hlen hit'
          (Nat.lt_of_succ_lt_succ hfuel)
        rw [Function.update_idem] at hw'
        refine ⟨w', ?_, ?_⟩
        · rw [if_pos heq, hdrop]
          exact hloop
        · rwa [List.filter_cons_of_neg (by simp [heq])]
      · have hs' : s l = some ((xs₁ ++ [y]) ++ ys) := by rwa [List.append_assoc]
        have hring₁ : Holds w.links l ((as₁ ++ [a]) ++ as₂) := by rwa [List.append_assoc]
        obtain ⟨w', hloop, hw'⟩ := ih h hs' hring₁ (by simp [hlen]) hit'
          (Nat.lt_of_succ_lt_succ hfuel)
        refine ⟨w', ?_, ?_⟩
        · rw [if_neg heq]
          exact hloop
        · rw [List.filter_cons_of_pos (by simp [heq])]
          rwa [List.append_assoc] at hw'

/-- The containers of a list were all allocated. -/
theorem Inv.length_le (h : Inv w s) (hs : s l = some xs) (hring : Holds w.links l as) :
    as.length ≤ w.fresh :=
  hring.length_le fun a ha => by
    by_contra hge
    exact h.fresh.ne ((h.lists l xs hs).live hring (mem_ring ha l)) (Nat.le_of_not_lt hge) rfl

theorem remove_spec [BEq T] (h : Inv w s) (hs : s l = some xs) (val : T) :
    ∃ w', remove w l val = some w' ∧
      Inv w' (Function.update s l (some (xs.filter fun y => !(y == val)))) := by
  have hlist := h.lists l xs hs
  obtain ⟨as, n, hring, -⟩ := hlist
  obtain ⟨it, hbegin, hit⟩ := begin_spec (h.lists l xs hs) hring
  unfold remove
  rw [hbegin]
  have hs₀ : s l = some ([] ++ xs) := hs
  have hring₀ : Holds w.links l ([] ++ as) := hring
  exact removeLoop_spec h hs₀ hring₀ rfl hit (Nat.lt_succ_of_le (h.length_le hs hring))

theorem copyLoop_nil {src fuel : ℕ} {it : Iterator} (w : World T) (hit : IteratesOver src [] it) :
    copyLoop l src (fuel + 1) w it = some w :=
  if_pos (Option.some.inj hit.1).symm

/-- The copies go to the end of one list while the other one stays as it is. -/
theorem copyLoop_spec {src fuel : ℕ} {zs ys₁ ys₂ : List T} {it : Iterator} (h : Inv w s)
    (hne : l ≠ src) (hs : s l = some zs) (hsrc : s src = some (ys₁ ++ ys₂))
    (hring : Holds w.links src (as₁ ++ as₂)) (hlen : as₁.length = ys₁.length)
    (hit : IteratesOver src as₂ it) (hroom : zs.length + as₂.length < 2 ^ 64)
    (hfuel : as₂.length < fuel) :
    ∃ w', copyLoop l src fuel w it = some w' ∧ Inv w' (Function.update s l (some (zs ++ ys₂))) := by
  induction as₂ generalizing w s as₁ zs ys₁ ys₂ it fuel with
  | nil =>
    obtain ⟨as, n, hring', hobjs, -, -⟩ := h.lists src _ hsrc
    obtain rfl := hring'.unique hring
    have hys₂ : ys₂ = [] := by
      have hall := length_of_map hobjs
      rw [List.length_append, List.length_append, List.length_nil] at hall
      exact List.length_eq_zero_iff.mp (by omega)
    subst hys₂
    rw [List.append_nil]
    cases fuel with
    | zero => exact absurd hfuel (Nat.not_lt_zero _)
    | succ fuel => exact ⟨w, copyLoop_nil w hit, h.same hs⟩
  | cons a as₂ ih =>
    obtain ⟨as, n, hring', hobjs, -, -⟩ := h.lists src _ hsrc
    obtain rfl := hring'.unique hring
    obtain ⟨y, ys, rfl, hy⟩ := obj_at hobjs hlen
    have hpos : it.pos = .elem a := (Option.some.inj hit.1).symm
    rw [List.length_cons] at hroom
    cases fuel with
    | zero => exact absurd hfuel (Nat.not_lt_zero _)
    | succ fuel =>
      obtain ⟨w₁, hpush, hw₁, hkept⟩ := pushBack_spec h hs (h.room hs (by omega)) y
      have hring₁ := hkept src hne.symm _ hring
      have hsrc₁ : Function.update s l (some (zs ++ [y])) src = some (ys₁ ++ y :: ys) :=
        (Function.update_of_ne hne.symm _ _).trans hsrc
      obtain ⟨next, hnext, hit'⟩ := postIncrement_spec (hw₁.lists src _ hsrc₁) hring₁ hit
      have hsrc₂ : Function.update s l (some (zs ++ [y])) src = some ((ys₁ ++ [y]) ++ ys) := by
        rwa [List.append_assoc]
      have hring₂ : Holds w₁.links src ((as₁ ++ [a]) ++ as₂) := by rwa [List.append_assoc]
      obtain ⟨w', hloop, hw'⟩ := ih hw₁ (Function.update_self ..) hsrc₂ hring₂ (by simp [hlen]) hit'
        (by rw [List.length_append, List.length_singleton]; omega) (Nat.lt_of_succ_lt_succ hfuel)
      rw [Function.update_idem, List.append_assoc] at hw'
      refine ⟨w', ?_, hw'⟩
      unfold copyLoop
      rw [hpos, if_neg nofun]
      simp only []
      rw [hy, Option.bind_some, hpush, Option.bind_some, hnext]
      exact hloop

theorem construct_spec (h : Inv w s) (l : ℕ) :
    Inv (construct w l 0) (Function.update s l (some [])) := by
  have hother : ∀ l' ≠ l, Kept w.links (construct w l 0).links l' := fun l' hne as hring =>
    hring.set (by simp [hne.symm]) _ _
  refine h.update ⟨[], 0, isRing_set_self _ _, rfl, Function.update_self .., rfl⟩ hother
    (fun _ _ _ _ _ _ => rfl) (fun l' hne => Function.update_of_ne hne _ _) fun a ha => ?_
  have hne : Cell.elem a ≠ Cell.head l := nofun
  exact ⟨(h.fresh a ha).1,
    (Function.update_of_ne hne (some (.head l)) w.links.next).trans (h.fresh a ha).2⟩

theorem Empty.nil (hempty : Empty w l) (hring : Holds w.links l as) : as = [] := by
  have hhead := hring.next_head.symm.trans hempty
  cases as with
  | nil => rfl
  | cons a as => cases hhead

theorem Inv.eq_nil_of_empty (h : Inv w s) (hs : s l = some xs) (hempty : Empty w l) : xs = [] := by
  obtain ⟨as, n, hring, hobjs, -, -⟩ := h.lists l xs hs
  have hlen := length_of_map hobjs
  rw [hempty.nil hring] at hlen
  exact List.length_eq_zero_iff.mp hlen.symm

theorem copy_spec {src : ℕ} (h : Inv w s) (hl : w.sizes l = none) (hs : s src = some xs)
    (hempty : Empty w src) :
    ∃ w', copy w l src = some w' ∧ Inv w' (Function.update s l (some xs)) := by
  obtain ⟨as, n, hring, -, hsize, hlen⟩ := h.lists src xs hs
  obtain rfl := h.eq_nil_of_empty hs hempty
  obtain rfl := hempty.nil hring
  obtain rfl : n = 0 := (size_eq_zero hlen).mpr rfl
  have hne : src ≠ l := by
    rintro rfl
    rw [hl] at hsize
    cases hsize
  have hnew := construct_spec h l
  have hsrc : Function.update s l (some []) src = some [] :=
    (Function.update_of_ne hne _ _).trans hs
  have hring' : Holds (construct w l 0).links src [] := hring.set (by simp [hne.symm]) _ _
  obtain ⟨it, hbegin, hit⟩ := begin_spec (hnew.lists src [] hsrc) hring'
  refine ⟨construct w l 0, ?_, hnew⟩
  unfold copy
  rw [hsize, Option.bind_some]
  simp only []
  rw [hbegin]
  exact copyLoop_nil _ hit

theorem assign_spec {src : ℕ} {ys : List T} (h : Inv w s) (hl : s l = some xs)
    (hs : s src = some ys) (hself : l = src → Empty w l) :
    ∃ w', assign w l src = some w' ∧ Inv w' (Function.update s l (some ys)) := by
  obtain ⟨as, n, hring, hobjs, hsize, hlen⟩ := h.lists l xs hl
  obtain ⟨w₁, hclear, hw₁, -, hring₁⟩ := clear_spec h hl hring
  unfold assign
  rw [hclear, Option.bind_some]
  by_cases heq : l = src
  · obtain rfl := heq
    have hys : ys = [] := h.eq_nil_of_empty hs (hself rfl)
    obtain ⟨it, hbegin, hit⟩ := begin_spec (hw₁.lists l [] (Function.update_self ..)) hring₁
    rw [hbegin, hys]
    exact ⟨w₁, copyLoop_nil w₁ hit, hw₁⟩
  · have hsrc : Function.update s l (some []) src = some ys :=
      (Function.update_of_ne (Ne.symm heq) _ _).trans hs
    obtain ⟨bs, k, hbs, -, -, hk⟩ := hw₁.lists src ys hsrc
    obtain ⟨it, hbegin, hit⟩ := begin_spec (hw₁.lists src ys hsrc) hbs
    rw [hbegin]
    have hsrc₀ : Function.update s l (some []) src = some ([] ++ ys) := hsrc
    have hbs₀ : Holds w₁.links src ([] ++ bs) := hbs
    have hspec := copyLoop_spec hw₁ heq (Function.update_self ..) hsrc₀ hbs₀ rfl hit
      (by rw [List.length_nil, Nat.zero_add, ← hk]; exact k.toNat_lt)
      (Nat.lt_add_one_of_le (hw₁.length_le hsrc hbs))
    rwa [Function.update_idem] at hspec

theorem destroy_spec (h : Inv w s) (hs : s l = some xs) (hring : Holds w.links l as) :
    ∃ w', destroy w l = some w' ∧ Inv w' (Function.update s l none) ∧
      w'.deleted = w.deleted ++ as := by
  obtain ⟨w₁, hclear, hw₁, hdel, hnil⟩ := clear_spec h hs hring
  have hlive := (hw₁.lists l [] (Function.update_self ..)).live hnil List.mem_cons_self
  have hdestroy : destroy w l = some { w₁ with
      links := w₁.links.join (.head l) (.head l)
      sizes := Function.update w₁.sizes l none } := by
    unfold destroy
    rw [hclear, Option.bind_some, World.next_of_live hlive, hnil.next_head,
      World.prev_of_live hlive, IsRing.prev_head hnil]
    rfl
  refine ⟨_, hdestroy, ⟨⟨?_, ?_⟩, fun a ha => ?_⟩, hdel⟩
  · intro l' xs' hs'
    by_cases hne : l' = l
    · subst hne
      rw [Function.update_self] at hs'
      cases hs'
    · rw [Function.update_of_ne hne] at hs'
      have hold := hw₁.lists l' xs' ((Function.update_of_ne hne _ _).trans hs')
      refine hold.frame (fun as' hring' => ?_) (fun _ _ _ _ => rfl) (Function.update_of_ne hne _ _)
      have hout : Cell.head l ∉ Cell.head l' :: as'.map Cell.elem := by
        simp [Ne.symm hne]
      exact IsRing.join hring' hout hout
  · intro l' hs'
    by_cases hne : l' = l
    · subst hne
      exact Function.update_self ..
    · rw [Function.update_of_ne hne] at hs'
      exact (Function.update_of_ne hne _ _).trans
        (hw₁.noLists l' ((Function.update_of_ne hne _ _).trans hs'))
  · have hold := hw₁.fresh a ha
    have hne : Cell.elem a ≠ Cell.head l := nofun
    exact ⟨hold.1, (Links.next_join_of_ne w₁.links hne).trans hold.2⟩

theorem step_spec [BEq T] {op : Op T} (h : Inv w s) (hvalid : Valid w i op)
    (hproper : Proper w op) : ∃ w', step w op = some w' ∧ Inv w' (op.effect i s) := by
  cases op with
  | new l => exact ⟨_, rfl, construct_spec h l⟩
  | insert l it x =>
    obtain ⟨xs, as, n, hs, -⟩ := h.exists_list hvalid.1
    simp only [Op.effect, hs, Option.map_some]
    exact insert_spec h hs hvalid.2 hproper x
  | pushFront l x =>
    obtain ⟨xs, as, n, hs, -⟩ := h.exists_list hvalid
    simp only [Op.effect, hs, Option.map_some]
    exact pushFront_spec h hs hproper x
  | pushBack l x =>
    obtain ⟨xs, as, n, hs, -⟩ := h.exists_list hvalid
    simp only [Op.effect, hs, Option.map_some]
    obtain ⟨w', hpush, hw', -⟩ := pushBack_spec h hs hproper x
    exact ⟨w', hpush, hw'⟩
  | popFront l =>
    obtain ⟨xs, as, n, hs, hring, -⟩ := h.exists_list hvalid
    simp only [Op.effect, hs, Option.map_some]
    obtain ⟨w', hpop, hw', -⟩ := popFront_spec h hs hring
    exact ⟨w', hpop, hw'⟩
  | popBack l =>
    obtain ⟨xs, as, n, hs, -⟩ := h.exists_list hvalid
    simp only [Op.effect, hs, Option.map_some]
    exact popBack_spec h hs
  | remove l x =>
    obtain ⟨xs, as, n, hs, -⟩ := h.exists_list hvalid
    simp only [Op.effect, hs, Option.map_some]
    exact remove_spec h hs x
  | erase l it =>
    obtain ⟨xs, as, n, hs, -⟩ := h.exists_list hvalid.1
    simp only [Op.effect, hs, Option.map_some]
    obtain ⟨r, herase, hw'⟩ := erase_spec h hs hvalid.2 hproper
    exact ⟨r.1, congrArg (Option.map Prod.fst) herase, hw'⟩
  | clear l =>
    obtain ⟨xs, as, n, hs, hring, -⟩ := h.exists_list hvalid
    simp only [Op.effect, hs, Option.map_some]
    obtain ⟨w', hclear, hw', -⟩ := clear_spec h hs hring
    exact ⟨w', hclear, hw'⟩
  | copy l src =>
    obtain ⟨xs, as, n, hs, -⟩ := h.exists_list hvalid.2
    simp only [Op.effect, hs]
    exact copy_spec h hvalid.1 hs hproper
  | assign l src =>
    obtain ⟨xs, as, n, hl, -⟩ := h.exists_list hvalid.1
    obtain ⟨ys, bs, k, hs, -⟩ := h.exists_list hvalid.2
    simp only [Op.effect, hs]
    exact assign_spec h hl hs hproper
  | destroy l =>
    obtain ⟨xs, as, n, hs, hring, -⟩ := h.exists_list hvalid
    obtain ⟨w', hdestroy, hw', -⟩ := destroy_spec h hs hring
    exact ⟨w', hdestroy, hw'⟩

theorem reaches_inv [BEq T] (h : Reaches w s) : Inv w s := by
  induction h with
  | start => exact ⟨⟨nofun, fun _ _ => rfl⟩, fun _ _ => ⟨rfl, rfl⟩⟩
  | step _ hvalid hproper hstep ih =>
    obtain ⟨w', hw', hinv⟩ := step_spec ih hvalid hproper
    obtain rfl := Option.some.inj (hstep.symm.trans hw')
    exact hinv

end Steps

/-- In every state of a run in which only empty lists are copied by the constructor or assigned to
themselves, and an iterator's next element outlives the one that is erased, each list has the
elements of its sequence and counts them; the next such operation comes to an end, and `clear` and
the destructor delete the containers of the list. -/
theorem listIsSequence [BEq T] {w : World T} {s : Sequences T} (h : Reaches w s) :
    Represents w s ∧ ∀ op i, Valid w i op → Proper w op → ∃ w', step w op = some w' ∧
      Represents w' (op.effect i s) ∧
      ∀ l, op = .clear l ∨ op = .destroy l → Deletes w l w' := by
  have hinv := reaches_inv h
  refine ⟨hinv.toRepresents, fun op i hvalid hproper => ?_⟩
  obtain ⟨w', hstep, hw'⟩ := step_spec hinv hvalid hproper
  refine ⟨w', hstep, hw'.toRepresents, ?_⟩
  rintro l (rfl | rfl) as hring
  · obtain ⟨xs, as', n, hs, hring', -⟩ := hinv.exists_list hvalid
    obtain ⟨w'', hclear, -, hdel, -⟩ := clear_spec hinv hs hring
    obtain rfl := Option.some.inj (hstep.symm.trans hclear)
    exact hdel
  · obtain ⟨xs, as', n, hs, hring', -⟩ := hinv.exists_list hvalid
    obtain ⟨w'', hdestroy, -, hdel⟩ := destroy_spec hinv hs hring
    obtain rfl := Option.some.inj (hstep.symm.trans hdestroy)
    exact hdel

namespace Sample

theorem listIsSequence_pushed : ∃ (w : World ℕ) (s : Sequences ℕ), s 0 = some [5] ∧
    Represents w s ∧ ∀ op i, Valid w i op → Proper w op → ∃ w', step w op = some w' ∧
      Represents w' (op.effect i s) ∧
      ∀ l, op = .clear l ∨ op = .destroy l → Deletes w l w' := by
  have hnew := @Reaches.step ℕ _ _ _ _ (.new 0) 0 .start rfl trivial rfl
  have hpush := @Reaches.step ℕ _ _ _ _ (.pushBack 0 5) 0 hnew rfl ⟨0, rfl, by decide⟩ rfl
  exact ⟨_, _, rfl, listIsSequence hpush⟩

/-- The copy of a list with one element has the size two, and its destructor comes to the head. -/
theorem not_listIsSequence_copied : ∃ w : World ℕ,
    run .start [.new 0, .pushBack 0 7, .copy 1 0] = some w ∧ (∀ xs, ¬ Lists w 1 xs) ∧
      step w (.destroy 1) = none := by
  refine ⟨_, rfl, ?_, rfl⟩
  rintro xs ⟨as, n, hring, -, hsize, hlen⟩
  obtain rfl := hring.unique (.singleton (a := 1) rfl rfl rfl rfl)
  obtain rfl : 2 = n := Option.some.inj hsize
  exact absurd hlen (by decide)

end Sample

end SequenceLists
end Haggle
