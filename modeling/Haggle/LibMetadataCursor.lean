import Haggle.LibMetadataTree
import Haggle.MetadataCursor

/-!
# Going through the children of metadata in the library

The loop over the children of a name is kept in their parent, with the place that comes next read in
advance, so that the child it is at may be freed. Without a name, or with an empty one, it goes
through all of them.
-/

namespace Haggle
namespace LibMetadataTree

open LinkedRing

section Model

/-- `metadata_get_name` of the node of a link. Null is compared with a name where it has none. -/
def nameAt (w : World) : Cell → Option Bytes
  | .elem a => (w.nodes a).bind (·.name)
  | .head _ => none

/-- The loop of `metadata_iterator_init`. -/
def initLoop (w : World) (head : Cell) (name : Bytes) : ℕ → Cell → Cell → Option (Cell × Cell)
  | 0, _, _ => none
  | fuel + 1, pos, tmp =>
    if pos = head then some (pos, tmp)
    else do
      let n ← nameAt w pos
      if n = name then some (pos, tmp)
      else do
        let pos ← w.links.next pos
        let tmp ← w.links.next pos
        initLoop w head name fuel pos tmp

/-- `name && strlen(name) > 0`. -/
def key (name : Option Bytes) : Option Bytes := (name.map cStr).filter (· ≠ [])

/-- `metadata_iterator_init`. -/
def iteratorInit (w : World) (head : Cell) (name : Option Bytes) : Option MetadataIterator := do
  let pos ← w.links.next head
  let tmp ← w.links.next pos
  match key name with
  | none => some ⟨none, some head, some pos, some tmp⟩
  | some name => do
    let r ← initLoop w head name (w.count + 1) pos tmp
    some ⟨some name, some head, some r.1, some r.2⟩

/-- The loop of `metadata_iterator_next`. -/
def nextLoop (w : World) (head : Cell) (name : Bytes) : ℕ → Cell → Cell → Option (Cell × Cell)
  | 0, _, _ => none
  | fuel + 1, pos, tmp =>
    if pos = head then some (pos, tmp)
    else do
      let n ← nameAt w pos
      if n = name then some (pos, tmp)
      else do
        let next ← w.links.next tmp
        nextLoop w head name fuel tmp next

/-- `metadata_iterator_next`. -/
def iteratorNext (w : World) (it : MetadataIterator) : Option MetadataIterator :=
  if it.pos = it.head then some it
  else do
    let pos ← it.tmp
    let tmp ← w.links.next pos
    if it.head = some pos then some { it with pos, tmp }
    else
      match it.name with
      | none => some { it with pos, tmp }
      | some name => do
        let head ← it.head
        let r ← nextLoop w head name (w.count + 1) pos tmp
        some { it with pos := some r.1, tmp := some r.2 }

/-- `metadata_iterator_deref`. -/
def iteratorDeref (it : MetadataIterator) : Option ℕ :=
  if it.pos = it.head then none
  else
    match it.pos with
    | some (.elem a) => some a
    | _ => none

def World.setNode (w : World) (m : ℕ) (node : Metadata) : World :=
  { w with nodes := Function.update w.nodes m (some node) }

/-- `metadata_get`. -/
def metadataGet (w : World) (m : ℕ) (name : Option Bytes) : Option (World × Option ℕ) := do
  let node ← w.nodes m
  let it ← iteratorInit w (.head m) name
  some (w.setNode m { node with it }, iteratorDeref it)

/-- `metadata_get_next`. -/
def metadataGetNext (w : World) (m : ℕ) : Option (World × Option ℕ) := do
  let node ← w.nodes m
  if node.it.head = none ∨ node.it.pos = node.it.head then some (w, none)
  else do
    let it ← iteratorNext w node.it
    some (w.setNode m { node with it }, iteratorDeref it)

/-- The loop of a caller, which in the rounds it chooses frees the child it has got. -/
def collect (frees : ℕ → Bool) (m : ℕ) :
    ℕ → ℕ → World → Option ℕ → Option (World × List ℕ)
  | 0, _, _, _ => none
  | _ + 1, _, w, none => some (w, [])
  | fuel + 1, i, w, some c => do
    let w ← if frees i then metadataFree fuel w c else some w
    let r ← metadataGetNext w m
    let rest ← collect frees m fuel (i + 1) r.1 r.2
    some (rest.1, c :: rest.2)

def enumerate (frees : ℕ → Bool) (fuel : ℕ) (w : World) (m : ℕ) (name : Option Bytes) :
    Option (World × List ℕ) := do
  let r ← metadataGet w m name
  collect frees m fuel 0 r.1 r.2

/-- The world has come to be by calls, and these are the children of its nodes. What is put below a
node is not above it. -/
inductive Reaches : World → (ℕ → List ℕ) → Prop
  | start : Reaches .start fun _ => []
  | root {w k n v m} : Reaches w k → metadataNew w n none = some (v, m) →
      Reaches v (Function.update k m [])
  | child {w k n p v m} : Reaches w k → w.Live p → metadataNew w n (some p) = some (v, m) →
      Reaches v (Function.update (Function.update k m []) p (k p ++ [m]))
  | add {w k p b v} : Reaches w k → ¬ Below k b p → metadataAdd w p b = some v →
      Reaches v (Function.update (fun x => (k x).erase b) p ((k p).erase b ++ [b]))
  | detach {w k b v} : Reaches w k → metadataDetach w b = some v →
      Reaches v fun x => (k x).erase b
  | free {w k a v} : Reaches w k → Frees w a v → Reaches v fun x => (k x).erase a
  | setName {w k a n v} : Reaches w k → metadataSetName w a n = some v → Reaches v k
  | get {w k m n v r} : Reaches w k → metadataGet w m n = some (v, r) → Reaches v k
  | getNext {w k m v r} : Reaches w k → metadataGetNext w m = some (v, r) → Reaches v k

/-- Whether a child of this name is looked for; without a name every child is. -/
def wanted (k : Option Bytes) (name : Option Bytes) : Bool :=
  k.all fun k => name = some k

end Model

section Trees

variable {w v : World} {kids : ℕ → List ℕ} {m : ℕ} {r : Option ℕ}

theorem reaches_forest (h : Reaches w kids) : ∃ rank, Forest w kids rank := by
  induction h with
  | start => exact ⟨_, forest_start⟩
  | root _ hnew ih =>
    obtain ⟨rank, h⟩ := ih
    obtain ⟨rfl, rfl⟩ := Prod.mk.inj (Option.some.inj (hnew.symm.trans (new_root _ _)))
    exact ⟨rank, h.allocate _⟩
  | child _ hp hnew ih =>
    obtain ⟨rank, h⟩ := ih
    obtain ⟨m, heq, hforest⟩ := new_child h hp _
    obtain ⟨rfl, rfl⟩ := Prod.mk.inj (Option.some.inj (hnew.symm.trans heq))
    exact hforest
  | @add w k p b v _ hbelow hadd ih =>
    obtain ⟨rank, h⟩ := ih
    have hparts := hadd
    simp only [metadataAdd, Option.bind_eq_bind, Option.bind_eq_some_iff] at hparts
    obtain ⟨node, hnode, w', hdetach, -⟩ := hparts
    obtain ⟨hb, hlinked⟩ := linked_of_detach hdetach
    have hp : w.Live p := Option.isSome_iff_exists.mpr ⟨node, hnode⟩
    obtain ⟨m, heq, hforest⟩ := add_spec h hp hb hlinked hbelow
    obtain rfl := Option.some.inj (hadd.symm.trans heq)
    exact hforest
  | detach _ hdetach ih =>
    obtain ⟨rank, h⟩ := ih
    obtain ⟨hb, hlinked⟩ := linked_of_detach hdetach
    obtain ⟨m, heq, -, -, hforest⟩ := detach_spec h hb hlinked
    obtain rfl := Option.some.inj (hdetach.symm.trans heq)
    exact ⟨rank, hforest⟩
  | @free w k a v _ hfrees ih =>
    obtain ⟨rank, h⟩ := ih
    obtain ⟨n, hn⟩ := hfrees
    have hparts := hn (n + 1) (Nat.le_succ n)
    rw [metadataFree] at hparts
    simp only [Option.bind_eq_bind, Option.bind_eq_some_iff] at hparts
    obtain ⟨w', hdetach, -⟩ := hparts
    obtain ⟨ha, hlinked⟩ := linked_of_detach hdetach
    obtain ⟨v', ⟨n', hn'⟩, hforest, -⟩ := freeable rank a w k (fun _ => True) h ha hlinked
      (fun _ _ _ _ _ => trivial) trivial
    have heq := (hn (n + n') (Nat.le_add_right n n')).symm.trans (hn' _ (Nat.le_add_left n' n))
    obtain rfl := Option.some.inj heq
    exact ⟨rank, hforest⟩
  | setName _ hset ih =>
    obtain ⟨rank, h⟩ := ih
    simp only [metadataSetName, Option.bind_eq_bind, Option.bind_eq_some_iff] at hset
    obtain ⟨node, hnode, heq⟩ := hset
    obtain rfl := Option.some.inj heq
    exact ⟨rank, h.update (Option.isSome_iff_exists.mpr ⟨node, hnode⟩) _⟩
  | get _ hget ih =>
    obtain ⟨rank, h⟩ := ih
    simp only [metadataGet, Option.bind_eq_bind, Option.bind_eq_some_iff] at hget
    obtain ⟨node, hnode, it, -, heq⟩ := hget
    obtain ⟨rfl, -⟩ := Prod.mk.inj (Option.some.inj heq)
    exact ⟨rank, h.update (Option.isSome_iff_exists.mpr ⟨node, hnode⟩) _⟩
  | getNext _ hget ih =>
    obtain ⟨rank, h⟩ := ih
    simp only [metadataGetNext, Option.bind_eq_bind, Option.bind_eq_some_iff] at hget
    obtain ⟨node, hnode, heq⟩ := hget
    split_ifs at heq with hend
    · obtain ⟨rfl, -⟩ := Prod.mk.inj (Option.some.inj heq)
      exact ⟨rank, h⟩
    · obtain ⟨it, -, heq⟩ := Option.bind_eq_some_iff.mp heq
      obtain ⟨rfl, -⟩ := Prod.mk.inj (Option.some.inj heq)
      exact ⟨rank, h.update (Option.isSome_iff_exists.mpr ⟨node, hnode⟩) _⟩

end Trees

/-! ## The places of the loop -/

section Places

variable {w w' : World} {kids : ℕ → List ℕ} {rank : ℕ → ℕ} {m fuel : ℕ} {k : Option Bytes}
  {name : Bytes} {as rs : List ℕ} {pos tmp : Cell} {nm : ℕ → Option Bytes} {node : Metadata}

/-- The place where the loop is that has these children before it. -/
def place (m : ℕ) (rs : List ℕ) : Cell := (rs.map Cell.elem).headD (.head m)

theorem place_eq (m : ℕ) (rs : List ℕ) :
    (rs.map Cell.elem ++ [Cell.head m]).head? = some (place m rs) := by
  cases rs <;> rfl

theorem next_place {c : ℕ} (hring : Holds w.links m (as ++ c :: rs)) :
    w.links.next (.elem c) = some (place m rs) := by
  rw [hring.next, place_eq]

theorem next_head (hring : Holds w.links m rs) : w.links.next (.head m) = some (place m rs) := by
  rw [hring.next_head, place_eq]

theorem exists_next (hring : Holds w.links m (as ++ rs)) :
    ∃ tmp, w.links.next (place m rs) = some tmp := by
  cases rs with
  | nil => exact ⟨_, next_head hring⟩
  | cons c rs => exact ⟨_, next_place hring⟩

theorem place_eq_head : place m rs = .head m ↔ rs = [] := by
  cases rs with
  | nil => exact iff_of_true rfl rfl
  | cons c rs => exact iff_of_false nofun nofun

/-- The children before the first one of the name are skipped. -/
theorem nextLoop_spec (name : Bytes) (hring : Holds w.links m (as ++ rs))
    (htmp : w.links.next (place m rs) = some tmp)
    (hnames : ∀ c ∈ rs, nameAt w (.elem c) = nm c ∧ (nm c).isSome) (hfuel : rs.length < fuel) :
    ∃ tmp', nextLoop w (.head m) name fuel (place m rs) tmp =
        some (place m (rs.dropWhile fun c => !wanted (some name) (nm c)), tmp') ∧
      w.links.next (place m (rs.dropWhile fun c => !wanted (some name) (nm c))) = some tmp' := by
  induction rs generalizing as tmp fuel with
  | nil =>
    obtain _ | fuel := fuel
    · exact absurd hfuel (Nat.not_lt_zero _)
    · exact ⟨tmp, if_pos rfl, htmp⟩
  | cons c rs ih =>
    obtain _ | fuel := fuel
    · exact absurd hfuel (Nat.not_lt_zero _)
    obtain ⟨hname, hsome⟩ := hnames c List.mem_cons_self
    obtain ⟨n, hn⟩ := Option.isSome_iff_exists.mp hsome
    have hplace : place m (c :: rs) = .elem c := rfl
    have hne : Cell.elem c ≠ .head m := nofun
    rw [hn] at hname
    unfold nextLoop
    simp only [hplace, if_neg hne, hname, Option.bind_eq_bind, Option.bind_some]
    by_cases heq : n = name
    · have hwanted : wanted (some name) (nm c) = true := by simp [wanted, hn, heq]
      rw [if_pos heq, List.dropWhile_cons_of_neg (by simp [hwanted])]
      exact ⟨tmp, rfl, htmp⟩
    · have hwanted : wanted (some name) (nm c) = false := by simp [wanted, hn, heq]
      rw [if_neg heq, List.dropWhile_cons_of_pos (by simp [hwanted])]
      obtain rfl : place m rs = tmp := Option.some.inj ((next_place hring).symm.trans htmp)
      have hring' : Holds w.links m ((as ++ [c]) ++ rs) := by simpa using hring
      obtain ⟨tmp', htmp'⟩ := exists_next hring'
      rw [htmp', Option.bind_some]
      exact ih hring' htmp' (fun c hc => hnames c (List.mem_cons_of_mem _ hc))
        (Nat.lt_of_succ_lt_succ hfuel)

theorem initLoop_eq (head : Cell) (htmp : w.links.next pos = some tmp) :
    initLoop w head name fuel pos tmp = nextLoop w head name fuel pos tmp := by
  induction fuel generalizing pos tmp with
  | zero => rfl
  | succ fuel ih =>
    unfold initLoop nextLoop
    split_ifs with hpos
    · rfl
    · cases nameAt w pos with
      | none => rfl
      | some n =>
        simp only [htmp, Option.bind_eq_bind, Option.bind_some]
        split_ifs with hn
        · rfl
        · cases hnext : w.links.next tmp with
          | none => rfl
          | some next => exact ih hnext

theorem dropWhile_wanted_none (nm : ℕ → Option Bytes) (rs : List ℕ) :
    (rs.dropWhile fun c => !wanted none (nm c)) = rs := by
  cases rs <;> rfl

/-- The iterator is at the first of these children, or at the end if there are none. -/
structure Standing (it : MetadataIterator) (links : Links Cell) (m : ℕ) (k : Option Bytes)
    (rs : List ℕ) : Prop where
  name : it.name = k
  head : it.head = some (.head m)
  pos : it.pos = some (place m rs)
  tmp : it.tmp = links.next (place m rs)

theorem Standing.deref {it : MetadataIterator} (h : Standing it w.links m k rs) :
    iteratorDeref it = rs.head? := by
  unfold iteratorDeref
  rw [h.head, h.pos]
  cases rs with
  | nil => exact if_pos rfl
  | cons c rs => exact if_neg nofun

/-- The iterator will go to the first of these children. -/
structure Ready (it : MetadataIterator) (m : ℕ) (k : Option Bytes) (rs : List ℕ) : Prop where
  name : it.name = k
  head : it.head = some (.head m)
  pos : it.pos ≠ it.head
  tmp : it.tmp = some (place m rs)

theorem Standing.ready {it : MetadataIterator} {c : ℕ} (h : Standing it w.links m k (c :: rs))
    (hring : Holds w.links m (as ++ c :: rs)) : Ready it m k rs where
  name := h.name
  head := h.head
  pos := by
    rw [h.head, h.pos]
    nofun
  tmp := h.tmp.trans (next_place hring)

theorem length_lt (h : Forest w kids rank) (hm : w.Live m) (hkids : kids m = as ++ rs) :
    rs.length < w.count + 1 := by
  have hle := (h.ring m hm).length_le fun c hc => h.bounded c (h.live m hm c hc)
  rw [hkids, List.length_append] at hle
  omega

/-- `metadata_iterator_init` goes to the first child that is wanted. -/
theorem iteratorInit_spec (h : Forest w kids rank) (hm : w.Live m) (name : Option Bytes)
    (hnames : ∀ c ∈ kids m, nameAt w (.elem c) = nm c ∧ (nm c).isSome) :
    ∃ it, iteratorInit w (.head m) name = some it ∧
      Standing it w.links m (key name) ((kids m).dropWhile fun c => !wanted (key name) (nm c)) := by
  have hring : Holds w.links m ([] ++ kids m) := h.ring m hm
  obtain ⟨tmp, htmp⟩ := exists_next hring
  simp only [iteratorInit, next_head (h.ring m hm), htmp, Option.bind_eq_bind, Option.bind_some]
  cases key name with
  | none =>
    rw [dropWhile_wanted_none]
    exact ⟨_, rfl, rfl, rfl, rfl, htmp.symm⟩
  | some s =>
    obtain ⟨tmp', hloop, htmp'⟩ := nextLoop_spec s hring htmp hnames
      (length_lt h hm (List.nil_append _).symm)
    rw [← initLoop_eq _ htmp] at hloop
    simp only [hloop, Option.bind_some]
    exact ⟨_, rfl, rfl, rfl, rfl, htmp'.symm⟩

/-- `metadata_iterator_next` goes to the next one, whatever became of the child it was at. -/
theorem iteratorNext_spec (h : Forest w kids rank) (hm : w.Live m) (hkids : kids m = as ++ rs)
    (hnames : ∀ c ∈ rs, nameAt w (.elem c) = nm c ∧ (nm c).isSome) {it : MetadataIterator}
    (hready : Ready it m k rs) : ∃ it', iteratorNext w it = some it' ∧
      Standing it' w.links m k (rs.dropWhile fun c => !wanted k (nm c)) := by
  have hring : Holds w.links m (as ++ rs) := hkids ▸ h.ring m hm
  obtain ⟨tmp, htmp⟩ := exists_next hring
  unfold iteratorNext
  rw [if_neg hready.pos]
  simp only [hready.tmp, htmp, Option.bind_eq_bind, Option.bind_some, hready.head,
    Option.some.injEq]
  by_cases hnil : Cell.head m = place m rs
  · obtain rfl := place_eq_head.mp hnil.symm
    exact ⟨_, if_pos hnil, hready.name, rfl, rfl, htmp.symm⟩
  · rw [if_neg hnil, hready.name]
    cases k with
    | none =>
      rw [dropWhile_wanted_none]
      exact ⟨_, rfl, rfl, rfl, rfl, htmp.symm⟩
    | some s =>
      obtain ⟨tmp', hloop, htmp'⟩ := nextLoop_spec s hring htmp hnames
        (length_lt h hm hkids)
      simp only [hloop, Option.bind_some]
      exact ⟨_, rfl, rfl, rfl, rfl, htmp'.symm⟩

end Places

/-! ## The loop over the children -/

section Loops

variable {w w' : World} {kids : ℕ → List ℕ} {rank : ℕ → ℕ} {m c : ℕ} {k : Option Bytes}
  {as rs : List ℕ} {nm : ℕ → Option Bytes} {node : Metadata}

/-- The children that are wanted, from a place on. -/
def sought (k : Option Bytes) (nm : ℕ → Option Bytes) (rs : List ℕ) : List ℕ :=
  rs.filter fun c => wanted k (nm c)

theorem sought_eq (k : Option Bytes) (nm : ℕ → Option Bytes) (rs : List ℕ) :
    sought k nm rs = sought k nm (rs.dropWhile fun c => !wanted k (nm c)) := by
  induction rs with
  | nil => rfl
  | cons c rs ih =>
    by_cases hc : wanted k (nm c)
    · rw [List.dropWhile_cons_of_neg (by simp [hc])]
    · rw [List.dropWhile_cons_of_pos (by simp [hc]), ← ih]
      exact List.filter_cons_of_neg hc

theorem head_dropWhile (h : (rs.dropWhile fun c => !wanted k (nm c)) = c :: as) :
    wanted k (nm c) = true := by
  have hhead := List.head?_dropWhile_not (fun c => !wanted k (nm c)) rs
  rw [h] at hhead
  simpa using hhead

/-- A caller that gets a child may free it: the children that come behind it stay what they were,
and so does the loop. -/
theorem round_spec (h : Forest w kids rank) (hm : w.Live m) (hkids : kids m = as ++ c :: rs)
    (frees : Bool) : ∃ w' kids' as', (∃ n, ∀ fuel ≥ n,
        (if frees then metadataFree fuel w c else some w) = some w') ∧ Forest w' kids' rank ∧
      kids' m = as' ++ rs ∧ w'.nodes m = w.nodes m ∧ ∀ s ∈ rs, w'.nodes s = w.nodes s := by
  have hc : c ∈ kids m := hkids ▸ List.mem_append_right _ List.mem_cons_self
  have hlive := h.live m hm c hc
  cases frees with
  | false =>
    refine ⟨w, kids, as ++ [c], ⟨0, fun fuel _ => if_neg nofun⟩, h, ?_, rfl, fun _ _ => rfl⟩
    rw [hkids, List.append_assoc, List.singleton_append]
  | true =>
    have hnodup := h.nodup hm
    rw [hkids] at hnodup
    have hfirst : c ∉ as := fun hin =>
      (List.nodup_append.mp hnodup).2.2 c hin c List.mem_cons_self rfl
    have hlinked : w.links.next (.elem c) ≠ none := fun hnone => h.notMem_of_none hnone hm hc
    obtain ⟨w', ⟨n, hn⟩, hforest, -, honly⟩ := freeable rank c w kids (Below kids c) h hlive hlinked
      (fun x _ hx y hy => hx.tail hy) .refl
    have habove : ¬ Below kids c m := fun hbelow =>
      absurd (h.rank_below hlive hbelow) (not_le.mpr (h.lower m hm c hc))
    refine ⟨w', _, as, ⟨n, fun fuel hfuel => (if_pos rfl).trans (hn fuel hfuel)⟩, hforest, ?_,
      honly.nodes m habove, fun s hs => honly.nodes s fun hbelow => ?_⟩
    · rw [hkids, List.erase_append_right _ hfirst, List.erase_cons_head]
    · have hmem : s ∈ kids m := hkids ▸ List.mem_append_right _ (List.mem_cons_of_mem c hs)
      obtain rfl | hbelow := h.below_parent hlive hm hmem hbelow
      · exact (List.nodup_cons.mp (List.nodup_append.mp hnodup).2.1).1 hs
      · exact habove hbelow

theorem nameAt_elem (w : World) (s : ℕ) : nameAt w (.elem s) = (w.nodes s).bind (·.name) := rfl

theorem nameAt_setNode (hnode : w.nodes m = some node) (it : MetadataIterator) (s : ℕ) :
    nameAt (w.setNode m { node with it }) (.elem s) = nameAt w (.elem s) := by
  unfold nameAt World.setNode
  by_cases hs : s = m
  · subst hs
    simp only [Function.update_self, hnode, Option.bind_some]
  · simp only [Function.update_of_ne hs]

theorem metadataGetNext_eq {it : MetadataIterator} (hnode : w.nodes m = some node)
    (hready : Ready node.it m k rs) (hnext : iteratorNext w node.it = some it) :
    metadataGetNext w m = some (w.setNode m { node with it }, iteratorDeref it) := by
  have hgoes : ¬ (node.it.head = none ∨ node.it.pos = node.it.head) :=
    not_or.mpr ⟨by rw [hready.head]; nofun, hready.pos⟩
  simp only [metadataGetNext, hnode, Option.bind_eq_bind, Option.bind_some, if_neg hgoes, hnext]

/-- Where the loop is at a child it gets this one, and of those behind it the ones that are wanted.
There are fewer of them from round to round. -/
theorem collect_spec (nm : ℕ → Option Bytes) (frees : ℕ → Bool) (bound : ℕ) :
    ∀ i w kids as c rs node, rs.length < bound → Forest w kids rank →
    kids m = as ++ c :: rs → w.nodes m = some node → Standing node.it w.links m k (c :: rs) →
    (∀ s ∈ rs, nameAt w (.elem s) = nm s ∧ (nm s).isSome) →
    ∃ w' n, ∀ fuel ≥ n, collect frees m fuel i w (some c) = some (w', c :: sought k nm rs) := by
  induction bound with
  | zero => exact fun _ _ _ _ _ _ _ hlt => absurd hlt (Nat.not_lt_zero _)
  | succ bound ih =>
    intro i w kids as c rs node hlt h hkids hnode hstanding hnames
    have hm : w.Live m := Option.isSome_iff_exists.mpr ⟨node, hnode⟩
    have hready := hstanding.ready (hkids ▸ h.ring m hm)
    obtain ⟨w₁, kids₁, as₁, ⟨n, hfree⟩, h₁, hkids₁, hsame, hrest⟩ :=
      round_spec h hm hkids (frees i)
    have hnode₁ := hsame.trans hnode
    have hm₁ : w₁.Live m := Option.isSome_iff_exists.mpr ⟨node, hnode₁⟩
    have hnames₁ : ∀ s ∈ rs, nameAt w₁ (.elem s) = nm s ∧ (nm s).isSome := by
      intro s hs
      rw [nameAt_elem, hrest s hs]
      exact hnames s hs
    obtain ⟨it, hnext, hstanding₁⟩ := iteratorNext_spec h₁ hm₁ hkids₁ hnames₁ hready
    have hget := metadataGetNext_eq hnode₁ hready hnext
    rw [hstanding₁.deref] at hget
    have hround : ∀ fuel ≥ n, collect frees m (fuel + 1) i w (some c) =
        (collect frees m fuel (i + 1) (w₁.setNode m { node with it })
          (rs.dropWhile fun c => !wanted k (nm c)).head?).bind
            fun rest => some (rest.1, c :: rest.2) := by
      intro fuel hfuel
      have hfree := hfree fuel hfuel
      rw [collect]
      split_ifs at hfree ⊢
      · simp only [hfree, hget, Option.bind_eq_bind, Option.bind_some]
      · obtain rfl := Option.some.inj hfree
        simp only [hget, Option.bind_eq_bind, Option.bind_some]
    rw [sought_eq]
    cases hdrop : rs.dropWhile (fun c => !wanted k (nm c)) with
    | nil =>
      rw [hdrop] at hround
      refine ⟨w₁.setNode m { node with it }, n + 2, fun fuel hfuel => ?_⟩
      obtain ⟨fuel, rfl⟩ := Nat.exists_eq_add_of_le' hfuel
      exact hround (fuel + (n + 1)) (by omega)
    | cons c' rs' =>
      rw [hdrop] at hround hstanding₁
      have hsuffix : c' :: rs' <:+ rs := hdrop ▸ List.dropWhile_suffix _
      obtain ⟨skipped, hskipped⟩ := hsuffix
      have hlength : rs'.length < bound := by
        have hlen := congrArg List.length hskipped
        rw [List.length_append, List.length_cons] at hlen
        omega
      have hbehind : ∀ s ∈ rs', s ∈ rs := fun s hs =>
        hskipped ▸ List.mem_append_right _ (List.mem_cons_of_mem c' hs)
      obtain ⟨w', n', hcollect⟩ := ih (i + 1) (w₁.setNode m { node with it }) kids₁
        (as₁ ++ skipped) c' rs' { node with it } hlength (h₁.update hm₁ _)
        (by rw [hkids₁, List.append_assoc, hskipped]) (Function.update_self ..) hstanding₁
        fun s hs => (nameAt_setNode hnode₁ it s).symm ▸ hnames₁ s (hbehind s hs)
      have hwanted : sought k nm (c' :: rs') = c' :: sought k nm rs' :=
        List.filter_cons_of_pos (head_dropWhile hdrop)
      refine ⟨w', n + n' + 1, fun fuel hfuel => ?_⟩
      obtain ⟨fuel, rfl⟩ := Nat.exists_eq_add_of_le' hfuel
      rw [show fuel + (n + n' + 1) = (fuel + n + n') + 1 by omega, hround _ (by omega),
        List.head?_cons, hcollect _ (by omega), hwanted]
      rfl

/-- The loop gets the children that are wanted in their order, and comes to its end. -/
theorem enumerate_spec (h : Forest w kids rank) (hm : w.Live m) (name : Option Bytes)
    (hnames : ∀ c ∈ kids m, nameAt w (.elem c) = nm c ∧ (nm c).isSome) (frees : ℕ → Bool) :
    ∃ w' n, ∀ fuel ≥ n, enumerate frees fuel w m name =
      some (w', sought (key name) nm (kids m)) := by
  obtain ⟨node, hnode⟩ := Option.isSome_iff_exists.mp hm
  obtain ⟨it, hinit, hstanding⟩ := iteratorInit_spec h hm name hnames
  have hstart : ∀ fuel, enumerate frees fuel w m name =
      collect frees m fuel 0 (w.setNode m { node with it })
        ((kids m).dropWhile fun c => !wanted (key name) (nm c)).head? := by
    intro fuel
    simp only [enumerate, metadataGet, hnode, hinit, hstanding.deref, Option.bind_eq_bind,
      Option.bind_some]
  rw [sought_eq]
  cases hdrop : (kids m).dropWhile (fun c => !wanted (key name) (nm c)) with
  | nil =>
    rw [hdrop] at hstart
    refine ⟨w.setNode m { node with it }, 1, fun fuel hfuel => ?_⟩
    obtain ⟨fuel, rfl⟩ := Nat.exists_eq_add_of_le' hfuel
    exact hstart (fuel + 1)
  | cons c rs =>
    rw [hdrop] at hstart hstanding
    obtain ⟨skipped, hskipped⟩ : c :: rs <:+ kids m := hdrop ▸ List.dropWhile_suffix _
    obtain ⟨w', n, hcollect⟩ := collect_spec nm frees (rs.length + 1) 0
      (w.setNode m { node with it }) kids skipped c rs { node with it } (Nat.lt_succ_self _)
      (h.update hm _) hskipped.symm (Function.update_self ..) hstanding
      fun s hs => (nameAt_setNode hnode it s).symm ▸
        hnames s (hskipped ▸ List.mem_append_right _ (List.mem_cons_of_mem c hs))
    have hwanted : sought (key name) nm (c :: rs) = c :: sought (key name) nm rs :=
      List.filter_cons_of_pos (head_dropWhile hdrop)
    refine ⟨w', n, fun fuel hfuel => ?_⟩
    rw [hstart, List.head?_cons, hcollect fuel hfuel, hwanted]

end Loops

section Results

/-- Both loops give each child of a name once and in order. That of the library may be one in which
children are freed, and gives all children where there is no name or an empty one. In the kernel
there is the child with a number, too, and the children of a name can be removed. -/
theorem enumerates_children {V : Type} {node : MetadataCursor.Node V} {cs : List (Bytes × V)}
    (h : MetadataCursor.Reaches node cs) {w : World} {kids : ℕ → List ℕ} {m : ℕ}
    (hw : Reaches w kids) (hm : w.Live m) (hnames : ∀ c ∈ kids m, (nameAt w (.elem c)).isSome)
    (name : Option Bytes) (frees : ℕ → Bool) :
    (MetadataCursor.Answers node cs ∧ ∀ name, ∃ node',
      MetadataCursor.removeMetadata node name =
          some (node', !(MetadataCursor.children name cs).isEmpty) ∧
        MetadataCursor.Answers node' (cs.filter fun c => c.1 ≠ name)) ∧
      (kids m).Nodup ∧ ∃ w' n, ∀ fuel ≥ n, enumerate frees fuel w m name =
        some (w', sought (key name) (fun c => nameAt w (.elem c)) (kids m)) := by
  obtain ⟨rank, hforest⟩ := reaches_forest hw
  refine ⟨MetadataCursor.answers_of_reaches h, hforest.nodup hm, ?_⟩
  exact enumerate_spec hforest hm name (fun c hc => ⟨rfl, hnames c hc⟩) frees

namespace Sample

/-- A node with a child of the name `x`. -/
def family : Option World := do
  let root ← metadataNew .start (some [109]) none
  let child ← metadataNew root.1 (some [120]) (some root.2)
  some child.1

theorem family_reaches : ∃ w kids, family = some w ∧ Reaches w kids ∧ w.Live 0 ∧ kids 0 = [1] ∧
    nameAt w (.elem 1) = some [120] := by
  have hsome : family.isSome := by decide
  obtain ⟨w, hw⟩ := Option.isSome_iff_exists.mp hsome
  have hlive : family.map (fun w => (w.nodes 0).isSome) = some true := by decide
  have hname : family.map (fun w => nameAt w (.elem 1)) = some (some [120]) := by decide
  rw [hw] at hlive hname
  have hchild : metadataNew (World.start.allocate (some [109])) (some [120]) (some 0) =
      some (w, 1) := by
    have hroot : family = (metadataNew (World.start.allocate (some [109])) (some [120])
        (some 0)).bind fun r => some r.1 := rfl
    obtain ⟨m, hnew, -⟩ := new_child (forest_start.allocate (some [109])) (p := 0)
      (live_allocate.mpr (.inr rfl)) (some [120])
    rw [hnew, Option.bind_some] at hroot
    rw [hnew, Option.some.inj (hw.symm.trans hroot)]
    rfl
  exact ⟨w, _, hw, .child (.root .start rfl) (live_allocate.mpr (.inr rfl)) hchild,
    Option.some.inj hlive, rfl, Option.some.inj hname⟩

/-- Without a name the loop goes to a child that has one. -/
theorem family_empty_name : ∃ w kids, Reaches w kids ∧ w.Live 0 ∧ kids 0 = [1] ∧
    nameAt w (.elem 1) = some [120] ∧
      (enumerate (fun _ => false) 3 w 0 (some [])).map Prod.snd = some [1] := by
  obtain ⟨w, kids, hw, hreaches, hlive, hkids, hname⟩ := family_reaches
  have hloop : (family.bind fun w => enumerate (fun _ => false) 3 w 0 (some [])).map Prod.snd =
      some [1] := by decide
  rw [hw, Option.bind_some] at hloop
  exact ⟨w, kids, hreaches, hlive, hkids, hname, hloop⟩

/-- The child of the name is gone through and freed. -/
theorem family_freed : ∃ (node : MetadataCursor.Node ℕ) (w w' : World) (n : ℕ),
    MetadataCursor.Answers node [([120], 7)] ∧
      ∀ fuel ≥ n, enumerate (fun _ => true) fuel w 0 (some [120]) = some (w', [1]) := by
  obtain ⟨w, kids, -, hreaches, hlive, hkids, hname⟩ := family_reaches
  have hadd : MetadataCursor.addMetadata (.new : MetadataCursor.Node ℕ) [120] (some 7) =
      some (⟨HashMap.insert .empty ([120], 7), .unset, .unset⟩, true) := by
    simp only [MetadataCursor.addMetadata, MetadataCursor.Node.new,
      HashMap.insertPair_eq MetadataCursor.keeps_empty.maintained, Option.bind_eq_bind,
      Option.bind_some]
    split_ifs <;> rfl
  have hnames : ∀ c ∈ kids 0, (nameAt w (.elem c)).isSome := by
    intro c hc
    rw [hkids] at hc
    rw [List.mem_singleton.mp hc, hname]
    rfl
  obtain ⟨⟨hanswers, -⟩, -, w', n, hloop⟩ := enumerates_children (.add .new hadd) hreaches hlive
    hnames (some [120]) fun _ => true
  have hsought : sought (key (some [120])) (fun c => nameAt w (.elem c)) (kids 0) = [1] := by
    rw [hkids]
    refine List.filter_cons_of_pos ?_
    change wanted _ (nameAt w (.elem 1)) = true
    rw [hname]
    rfl
  rw [hsought] at hloop
  exact ⟨_, w, w', n, hanswers, hloop⟩

end Sample

end Results

end LibMetadataTree
end Haggle
