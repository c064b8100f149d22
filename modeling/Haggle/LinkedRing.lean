import Mathlib.Data.List.Chain
import Mathlib.Data.List.Nodup
import Mathlib.Data.List.Perm.Subperm
import Mathlib.Logic.Function.Basic

/-!
# Rings of links

Every node has a link forwards and one backwards, each of which may be missing. A ring goes from its
head through its nodes back to the head. Two links are all that changes where a node goes in or out,
so that a ring stays one as long as they fit, and every other ring stays what it was.
-/

namespace LinkedRing

/-- The head that is a part of its list, or a node of its own. -/
inductive Cell
  | head (i : ℕ)
  | elem (i : ℕ)
  deriving DecidableEq

structure Links (N : Type*) where
  next : N → Option N
  prev : N → Option N

variable {N : Type*}

def Linked (m : Links N) (a b : N) : Prop := m.next a = some b ∧ m.prev b = some a

/-- Each node of the list is linked with the one after it. -/
def Path (m : Links N) (l : List N) : Prop := l.IsChain (Linked m)

structure IsRing (m : Links N) (h : N) (l : List N) : Prop where
  path : Path m (h :: l ++ [h])
  nodup : (h :: l).Nodup

section Reading

variable {m m' : Links N} {h h' n p q x : N} {l l' l₁ l₂ s t : List N}

theorem exists_head? (l : List N) (h : N) : ∃ q, (l ++ [h]).head? = some q := by
  cases l with
  | nil => exact ⟨h, rfl⟩
  | cons x l => exact ⟨x, rfl⟩

theorem Path.linked (hpath : Path m (s ++ t)) (hp : p ∈ s.getLast?) (hq : q ∈ t.head?) :
    Linked m p q :=
  (List.isChain_append.mp hpath).2.2 p hp q hq

/-- The first node's link back and the last one's link forwards do not matter. -/
theorem Path.congr (hpath : Path m l) (hnext : ∀ x ∈ l.dropLast, m'.next x = m.next x)
    (hprev : ∀ x ∈ l.tail, m'.prev x = m.prev x) : Path m' l := by
  induction l with
  | nil => exact List.IsChain.nil
  | cons a l ih =>
    cases l with
    | nil => exact List.IsChain.singleton a
    | cons b l =>
      obtain ⟨⟨hab, hba⟩, hrest⟩ := List.isChain_cons_cons.mp hpath
      have ha := hnext a (by simp)
      have hb := hprev b (by simp)
      refine List.isChain_cons_cons.mpr ⟨⟨ha.trans hab, hb.trans hba⟩, ih hrest ?_ ?_⟩
      · intro x hx
        exact hnext x (List.mem_cons_of_mem a hx)
      · intro x hx
        exact hprev x (List.mem_cons_of_mem b hx)

/-- What the links of the ring's own nodes say is all that counts. -/
theorem IsRing.congr (hring : IsRing m h l)
    (hsame : ∀ x ∈ h :: l, m'.next x = m.next x ∧ m'.prev x = m.prev x) : IsRing m' h l := by
  refine ⟨hring.path.congr ?_ ?_, hring.nodup⟩
  · intro x hx
    rw [List.dropLast_concat] at hx
    exact (hsame x hx).1
  · intro x hx
    refine (hsame x ?_).2
    simpa [or_comm] using hx

theorem IsRing.nil (hnext : m.next h = some h) (hprev : m.prev h = some h) : IsRing m h [] :=
  ⟨List.isChain_cons_cons.mpr ⟨⟨hnext, hprev⟩, List.IsChain.singleton h⟩, List.nodup_singleton h⟩

/-- The way from a node to the head goes on with what comes first of the rest. -/
theorem Path.next (hpath : Path m (x :: (l ++ [h]))) : m.next x = (l ++ [h]).head? := by
  obtain ⟨q, hq⟩ := exists_head? l h
  rw [hq]
  exact (Path.linked (s := [x]) hpath rfl hq).1

theorem IsRing.next_head (hring : IsRing m h l) : m.next h = (l ++ [h]).head? := hring.path.next

theorem IsRing.prev_head (hring : IsRing m h l) : m.prev h = (h :: l).getLast? := by
  have hlast := List.getLast?_eq_some_getLast (List.cons_ne_nil h l)
  rw [hlast]
  exact (hring.path.linked hlast rfl).2

/-- A ring leads on inside itself. -/
theorem IsRing.next_mem (hring : IsRing m h l) (hx : x ∈ h :: l) :
    ∃ y ∈ h :: l, m.next x = some y := by
  obtain ⟨s, t, hst⟩ := List.append_of_mem hx
  obtain ⟨q, hq⟩ := exists_head? t h
  have hpath : Path m ((s ++ [x]) ++ (t ++ [h])) := by
    have := hring.path
    rw [hst] at this
    simpa using this
  refine ⟨q, ?_, (hpath.linked (by simp) hq).1⟩
  have hmem := List.mem_of_mem_head? hq
  rw [hst]
  obtain hmem | hmem := List.mem_append.mp hmem
  · simp [hmem]
  · rw [← hst, List.mem_singleton.mp hmem]
    exact List.mem_cons_self

theorem IsRing.prev_mem (hring : IsRing m h l) (hx : x ∈ h :: l) :
    ∃ y ∈ h :: l, m.prev x = some y := by
  have hmem : x ∈ l ++ [h] := by
    simpa [or_comm] using hx
  obtain ⟨s, t, hst⟩ := List.append_of_mem hmem
  have hlast := List.getLast?_eq_some_getLast (List.cons_ne_nil h s)
  have hpath : Path m ((h :: s) ++ (x :: t)) := by
    have := hring.path
    rw [List.cons_append, hst] at this
    exact this
  refine ⟨_, ?_, (hpath.linked hlast rfl).2⟩
  have hy : (h :: s).getLast (List.cons_ne_nil h s) ∈ h :: s ++ x :: t :=
    List.mem_append_left _ (List.mem_of_getLast? hlast)
  rw [List.cons_append, ← hst, List.mem_cons, List.mem_append, List.mem_singleton] at hy
  obtain hy | hy | hy := hy
  · exact List.mem_cons.mpr (.inl hy)
  · exact List.mem_cons_of_mem h hy
  · exact List.mem_cons.mpr (.inl hy)

/-- From a node of the ring on, a set that the links do not leave has the head. -/
theorem IsRing.head_mem {S : N → Prop} (hring : IsRing m h l) (hx : x ∈ l) (hS : S x)
    (hclosed : ∀ y z, S y → m.next y = some z → S z) : S h := by
  obtain ⟨s, t, rfl⟩ := List.append_of_mem hx
  have hpath : Path m (x :: (t ++ [h])) := by
    have := hring.path
    rw [List.cons_append, List.append_assoc, ← List.cons_append] at this
    exact (List.isChain_append.mp this).2.1
  clear hx hring
  induction t generalizing x with
  | nil => exact hclosed x h hS (List.isChain_cons_cons.mp hpath).1.1
  | cons y t ih =>
    have hcons := List.isChain_cons_cons.mp hpath
    exact ih (hclosed x y hS hcons.1.1) hcons.2

/-- Two rings whose heads are not in the other one have no node in common. -/
theorem IsRing.disjoint (hring : IsRing m h l) (hring' : IsRing m h' l') (hh : h ∉ h' :: l')
    (hx : x ∈ h :: l) : x ∉ h' :: l' := by
  intro hx'
  obtain rfl | hx := List.mem_cons.mp hx
  · exact hh hx'
  · refine hh (hring.head_mem (S := (· ∈ h' :: l')) hx hx' ?_)
    intro y z hy hz
    obtain ⟨z', hz', hnext⟩ := hring'.next_mem hy
    rw [hnext] at hz
    exact Option.some.inj hz ▸ hz'

/-- A node that is linked with itself is in no ring but its own. -/
theorem IsRing.notMem_of_self (hring : IsRing m h l) (hn : n ≠ h) (hself : m.next n = some n) :
    n ∉ l := by
  intro hmem
  refine hn (hring.head_mem (S := (n = ·)) hmem rfl ?_).symm.symm
  rintro y z rfl hz
  exact Option.some.inj (hself.symm.trans hz)

theorem Path.unique (hpath : Path m (x :: l ++ [h])) (hpath' : Path m (x :: l' ++ [h]))
    (hl : h ∉ l) (hl' : h ∉ l') : l = l' := by
  induction l generalizing x l' with
  | nil =>
    cases l' with
    | nil => rfl
    | cons y l' =>
      have hx := (List.isChain_cons_cons.mp hpath).1.1
      have hy := (List.isChain_cons_cons.mp hpath').1.1
      exact absurd (Option.some.inj (hx.symm.trans hy) ▸ List.mem_cons_self) hl'
  | cons y l ih =>
    obtain ⟨⟨hy, -⟩, hrest⟩ := List.isChain_cons_cons.mp hpath
    cases l' with
    | nil =>
      have hx := (List.isChain_cons_cons.mp hpath').1.1
      exact absurd (Option.some.inj (hx.symm.trans hy) ▸ List.mem_cons_self) hl
    | cons z l' =>
      obtain ⟨⟨hz, -⟩, hrest'⟩ := List.isChain_cons_cons.mp hpath'
      obtain rfl : y = z := Option.some.inj (hy.symm.trans hz)
      rw [ih hrest hrest' (fun hm => hl (List.mem_cons_of_mem y hm))
        (fun hm => hl' (List.mem_cons_of_mem y hm))]

/-- A head has one ring at most. -/
theorem IsRing.unique (hring : IsRing m h l) (hring' : IsRing m h l') : l = l' :=
  hring.path.unique hring'.path (List.nodup_cons.mp hring.nodup).1
    (List.nodup_cons.mp hring'.nodup).1

theorem getLast?_notMem_dropLast (hl : l.Nodup) (hp : l.getLast? = some p) : p ∉ l.dropLast := by
  obtain ⟨s, rfl⟩ := List.getLast?_eq_some_iff.mp hp
  rw [List.dropLast_concat]
  exact fun hmem => (List.nodup_append.mp hl).2.2 p hmem p List.mem_cons_self rfl

theorem head?_notMem_tail (hl : l.Nodup) (hq : l.head? = some q) : q ∉ l.tail := by
  obtain ⟨t, rfl⟩ := List.head?_eq_some_iff.mp hq
  exact (List.nodup_cons.mp hl).1

/-- The two halves of a ring at one of its places, and what the nodes next to the place are. -/
theorem halves (hnodup : (h :: (l₁ ++ l₂)).Nodup) : ∃ p q, (h :: l₁).getLast? = some p ∧
    (l₂ ++ [h]).head? = some q ∧ p ∉ (h :: l₁).dropLast ∧ p ∉ l₂ ∧ q ∉ l₁ ∧
      q ∉ (l₂ ++ [h]).tail := by
  obtain ⟨hh, hnodup⟩ := List.nodup_cons.mp hnodup
  obtain ⟨h₁, h₂, hdisj⟩ := List.nodup_append.mp hnodup
  rw [List.mem_append, not_or] at hh
  obtain ⟨q, hq⟩ := exists_head? l₂ h
  have hp := List.getLast?_eq_some_getLast (List.cons_ne_nil h l₁)
  refine ⟨_, q, hp, hq, getLast?_notMem_dropLast (List.nodup_cons.mpr ⟨hh.1, h₁⟩) hp, ?_, ?_,
    head?_notMem_tail ?_ hq⟩
  · intro hmem
    obtain heq | hl := List.mem_cons.mp (List.mem_of_getLast? hp)
    · exact hh.2 (heq ▸ hmem)
    · exact hdisj _ hl _ hmem rfl
  · intro hmem
    obtain hl | heq := List.mem_append.mp (List.mem_of_mem_head? hq)
    · exact hdisj q hmem q hl rfl
    · exact hh.1 (List.mem_singleton.mp heq ▸ hmem)
  · refine List.nodup_append.mpr ⟨h₂, List.nodup_singleton h, ?_⟩
    rintro a ha b hb rfl
    exact hh.2 (List.mem_singleton.mp hb ▸ ha)

end Reading

section Changing

variable [DecidableEq N] {m : Links N} {h n p q : N} {l l₁ l₂ s t : List N}

/-- Make `b` the one after `a`. -/
def Links.join (m : Links N) (a b : N) : Links N :=
  ⟨Function.update m.next a (some b), Function.update m.prev b (some a)⟩

def Links.set (m : Links N) (n : N) (a b : Option N) : Links N :=
  ⟨Function.update m.next n a, Function.update m.prev n b⟩

theorem linked_join (m : Links N) (a b : N) : Linked (m.join a b) a b :=
  ⟨Function.update_self .., Function.update_self ..⟩

theorem Links.next_join_of_ne (m : Links N) {a b x : N} (hx : x ≠ a) :
    (m.join a b).next x = m.next x :=
  Function.update_of_ne hx _ _

theorem Links.prev_join_of_ne (m : Links N) {a b x : N} (hx : x ≠ b) :
    (m.join a b).prev x = m.prev x :=
  Function.update_of_ne hx _ _

theorem Path.frame (hpath : Path m l) (hp : p ∉ l.dropLast) (hq : q ∉ l.tail) :
    Path (m.join p q) l :=
  hpath.congr (fun _ hx => m.next_join_of_ne (ne_of_mem_of_not_mem hx hp))
    (fun _ hx => m.prev_join_of_ne (ne_of_mem_of_not_mem hx hq))

/-- Two paths become one where the end of the first is joined to the start of the second. -/
theorem Path.join (hs : Path m s) (ht : Path m t) (hp : s.getLast? = some p)
    (hq : t.head? = some q) (hps : p ∉ s.dropLast) (hpt : p ∉ t.dropLast) (hqs : q ∉ s.tail)
    (hqt : q ∉ t.tail) : Path (m.join p q) (s ++ t) := by
  refine List.isChain_append.mpr ⟨hs.frame hps hqs, ht.frame hpt hqt, ?_⟩
  intro x hx y hy
  obtain rfl : p = x := Option.some.inj (hp.symm.trans hx)
  obtain rfl : q = y := Option.some.inj (hq.symm.trans hy)
  exact linked_join m p q

/-- A ring is not touched where two nodes outside of it are joined. -/
theorem IsRing.join (hring : IsRing m h l) (hp : p ∉ h :: l) (hq : q ∉ h :: l) :
    IsRing (m.join p q) h l :=
  hring.congr fun _ hx => ⟨m.next_join_of_ne (ne_of_mem_of_not_mem hx hp),
    m.prev_join_of_ne (ne_of_mem_of_not_mem hx hq)⟩

theorem IsRing.set (hring : IsRing m h l) (hn : n ∉ h :: l) (a b : Option N) :
    IsRing (m.set n a b) h l :=
  hring.congr fun _ hx => ⟨Function.update_of_ne (ne_of_mem_of_not_mem hx hn) _ _,
    Function.update_of_ne (ne_of_mem_of_not_mem hx hn) _ _⟩

theorem isRing_set_self (m : Links N) (h : N) : IsRing (m.set h (some h) (some h)) h [] :=
  .nil (Function.update_self ..) (Function.update_self ..)

/-- A node leaves its ring where the ones next to it are joined. -/
theorem IsRing.erase (hring : IsRing m h (l₁ ++ n :: l₂)) : ∃ p q, m.prev n = some p ∧
    m.next n = some q ∧ p ∈ h :: l₁ ∧ q ∈ l₂ ++ [h] ∧ IsRing (m.join p q) h (l₁ ++ l₂) := by
  have hnodup : (h :: (l₁ ++ l₂)).Nodup :=
    hring.nodup.sublist (((List.sublist_cons_self n l₂).append_left l₁).cons_cons h)
  obtain ⟨p, q, hp, hq, hps, hpt, hqs, hqt⟩ := halves hnodup
  have hpath : Path m ((h :: l₁) ++ ([n] ++ (l₂ ++ [h]))) := by
    simpa using hring.path
  obtain ⟨hs, hrest, -⟩ := List.isChain_append.mp hpath
  have hprev : m.prev n = some p := (hpath.linked hp rfl).2
  have hnext : m.next n = some q := (Path.linked hrest rfl hq).1
  refine ⟨p, q, hprev, hnext, List.mem_of_getLast? hp, List.mem_of_mem_head? hq, ?_, hnodup⟩
  have hjoin := Path.join hs (List.isChain_append.mp hrest).2.1 hp hq hps
    (by rwa [List.dropLast_concat]) hqs hqt
  simpa using hjoin

/-- A node comes into a ring where it is joined to the two at its place. -/
theorem IsRing.insert (hring : IsRing m h (l₁ ++ l₂)) (hn : n ∉ h :: (l₁ ++ l₂))
    (hq : (l₂ ++ [h]).head? = some q) : ∃ p, m.prev q = some p ∧ p ∈ h :: l₁ ∧
      IsRing ((m.join p n).join n q) h (l₁ ++ n :: l₂) := by
  obtain ⟨p, q', hp, hq', hps, hpt, hqs, hqt⟩ := halves hring.nodup
  obtain rfl : q' = q := Option.some.inj (hq'.symm.trans hq)
  have hpath : Path m ((h :: l₁) ++ (l₂ ++ [h])) := by
    simpa using hring.path
  obtain ⟨hs, ht, hlink⟩ := List.isChain_append.mp hpath
  obtain ⟨hnh, hnl⟩ := not_or.mp (mt List.mem_cons.mpr hn)
  rw [List.mem_append, not_or] at hnl
  have hnt : n ∉ l₂ ++ [h] := by
    rw [List.mem_append, List.mem_singleton, not_or]
    exact ⟨hnl.2, hnh⟩
  refine ⟨p, (hpath.linked hp hq).2, List.mem_of_getLast? hp, ?_, ?_⟩
  · have hfirst : Path (m.join p n) ((h :: l₁) ++ [n]) :=
      Path.join hs (List.IsChain.singleton n) hp rfl hps List.not_mem_nil hnl.1 List.not_mem_nil
    have hsecond : Path (m.join p n) (l₂ ++ [h]) :=
      Path.frame ht (by rwa [List.dropLast_concat]) fun hmem => hnt (List.mem_of_mem_tail hmem)
    have hqn : q' ∉ l₁ ++ [n] := by
      rw [List.mem_append, List.mem_singleton, not_or]
      exact ⟨hqs, fun heq => hnt (heq ▸ List.mem_of_mem_head? hq)⟩
    have hjoin := Path.join hfirst hsecond (List.getLast?_concat ..) hq
      (by rw [List.dropLast_concat, List.mem_cons, not_or]; exact ⟨hnh, hnl.1⟩)
      (by rw [List.dropLast_concat]; exact hnl.2) hqn hqt
    simpa using hjoin
  · rw [← List.cons_append, List.nodup_middle]
    exact List.nodup_cons.mpr ⟨hn, hring.nodup⟩

end Changing

section Numbered

variable {m m' m'' : Links Cell} {l l' a : ℕ} {as as' as₁ as₂ : List ℕ} {x q : Cell}

/-- The ring of the head with number `l` goes through the elements with these numbers. -/
def Holds (m : Links Cell) (l : ℕ) (as : List ℕ) : Prop := IsRing m (.head l) (as.map .elem)

/-- What the head had in its ring, it has with the other links, too. -/
def Kept (m m' : Links Cell) (l : ℕ) : Prop := ∀ as, Holds m l as → Holds m' l as

theorem Kept.trans (h : Kept m m' l) (h' : Kept m' m'' l) : Kept m m'' l :=
  fun as hring => h' as (h as hring)

theorem mem_ring (ha : a ∈ as) (l : ℕ) : Cell.elem a ∈ Cell.head l :: as.map Cell.elem :=
  List.mem_cons_of_mem _ (List.mem_map_of_mem ha)

theorem notMem_ring (ha : a ∉ as) (l : ℕ) : Cell.elem a ∉ Cell.head l :: as.map Cell.elem := by
  simpa using ha

theorem Holds.nodup (hring : Holds m l as) : as.Nodup :=
  (List.nodup_cons.mp (IsRing.nodup hring)).2.of_map Cell.elem

theorem Holds.singleton (hnext : m.next (.head l) = some (.elem a))
    (hnext' : m.next (.elem a) = some (.head l)) (hprev : m.prev (.elem a) = some (.head l))
    (hprev' : m.prev (.head l) = some (.elem a)) : Holds m l [a] :=
  ⟨List.isChain_cons_cons.mpr ⟨⟨hnext, hprev⟩, List.isChain_pair.mpr ⟨hnext', hprev'⟩⟩,
    List.nodup_cons.mpr ⟨by simp, List.nodup_singleton _⟩⟩

/-- A ring of elements with small numbers is short. -/
theorem Holds.length_le {n : ℕ} (hring : Holds m l as) (hlt : ∀ a ∈ as, a < n) : as.length ≤ n := by
  have hsub : List.Subperm as (List.range n) :=
    hring.nodup.subperm fun a ha => List.mem_range.mpr (hlt a ha)
  simpa using hsub.length_le

theorem Holds.next_head (hring : Holds m l as) :
    m.next (.head l) = (as.map Cell.elem ++ [Cell.head l]).head? :=
  IsRing.next_head hring

theorem Holds.next (hring : Holds m l (as₁ ++ a :: as₂)) :
    m.next (.elem a) = (as₂.map Cell.elem ++ [Cell.head l]).head? := by
  have hpath := IsRing.path hring
  rw [List.map_append, List.map_cons, List.cons_append, List.append_assoc, ← List.cons_append]
    at hpath
  exact Path.next (List.isChain_append.mp hpath).2.1

theorem Holds.unique (hring : Holds m l as) (hring' : Holds m l as') : as = as' :=
  List.map_injective_iff.mpr (fun _ _ h => Cell.elem.inj h) (IsRing.unique hring hring')

theorem Holds.disjoint (hring : Holds m l as) (hring' : Holds m l' as') (hne : l' ≠ l)
    (hx : x ∈ Cell.head l :: as.map Cell.elem) : x ∉ Cell.head l' :: as'.map Cell.elem := by
  refine IsRing.disjoint hring hring' ?_ hx
  simp [hne.symm]

/-- An element is in one ring at most. -/
theorem Holds.eq_of_mem (hring : Holds m l as) (hring' : Holds m l' as') (ha : a ∈ as)
    (ha' : a ∈ as') : l = l' := by
  by_contra hne
  exact hring.disjoint hring' (Ne.symm hne) (mem_ring ha l) (mem_ring ha' l')

theorem Holds.notMem_of_self (hring : Holds m l as)
    (hself : m.next (.elem a) = some (.elem a)) : a ∉ as := fun ha =>
  IsRing.notMem_of_self hring (n := .elem a) nofun hself (List.mem_map_of_mem ha)

theorem Holds.notMem_of_none (hring : Holds m l as) (hnone : m.next (.elem a) = none) : a ∉ as := by
  intro ha
  obtain ⟨y, -, hnext⟩ := IsRing.next_mem hring (mem_ring ha l)
  rw [hnone] at hnext
  cases hnext

/-- The links of an element in no ring do not count, and those of the head of another one. -/
theorem Holds.set (hring : Holds m l as) (hx : x ∉ Cell.head l :: as.map Cell.elem)
    (b c : Option Cell) : Holds (m.set x b c) l as :=
  IsRing.set hring hx b c

theorem Holds.erase (hring : Holds m l (as₁ ++ a :: as₂)) : ∃ p q,
    m.prev (.elem a) = some p ∧ m.next (.elem a) = some q ∧
      Holds (m.join p q) l (as₁ ++ as₂) ∧ ∀ l' ≠ l, Kept m (m.join p q) l' := by
  have hmap := hring
  unfold Holds at hmap
  rw [List.map_append, List.map_cons] at hmap
  obtain ⟨p, q, hprev, hnext, hp, hq, herased⟩ := hmap.erase
  refine ⟨p, q, hprev, hnext, ?_, ?_⟩
  · unfold Holds
    rw [List.map_append]
    exact herased
  · intro l' hne as' hring'
    refine IsRing.join hring' (hring.disjoint hring' hne ?_) (hring.disjoint hring' hne ?_)
    · rw [List.map_append]
      exact List.mem_append_left _ hp
    · rw [List.map_append, List.map_cons]
      obtain hq | hq := List.mem_append.mp hq
      · exact List.mem_cons_of_mem _ (List.mem_append_right _ (List.mem_cons_of_mem _ hq))
      · exact List.mem_singleton.mp hq ▸ List.mem_cons_self

theorem Holds.insert (hring : Holds m l (as₁ ++ as₂)) (hfree : ∀ l as, Holds m l as → a ∉ as)
    (hq : (as₂.map Cell.elem ++ [Cell.head l]).head? = some q) : ∃ p, m.prev q = some p ∧
      Holds ((m.join p (.elem a)).join (.elem a) q) l (as₁ ++ a :: as₂) ∧
        ∀ l' ≠ l, Kept m ((m.join p (.elem a)).join (.elem a) q) l' := by
  have hmap := hring
  have hout := notMem_ring (hfree l _ hring) l
  unfold Holds at hmap
  rw [List.map_append] at hmap hout
  obtain ⟨p, hprev, hp, hinserted⟩ := hmap.insert hout hq
  refine ⟨p, hprev, ?_, ?_⟩
  · unfold Holds
    rw [List.map_append, List.map_cons]
    exact hinserted
  · intro l' hne as' hring'
    have ha := notMem_ring (hfree l' as' hring') l'
    have hin : ∀ x ∈ Cell.head l :: as₁.map Cell.elem ++ as₂.map Cell.elem,
        x ∉ Cell.head l' :: as'.map Cell.elem := fun x hx =>
      hring.disjoint hring' hne (by rwa [List.map_append])
    refine IsRing.join (IsRing.join hring' (hin p (List.mem_append_left _ hp)) ha) ha (hin q ?_)
    obtain hq | hq := List.mem_append.mp (List.mem_of_mem_head? hq)
    · exact List.mem_append_right _ hq
    · exact List.mem_singleton.mp hq ▸ List.mem_cons_self

end Numbered

end LinkedRing
