import Haggle.AttributeLists
import Mathlib.Logic.Relation

/-!
# Metadata trees of the library

In `libhaggle` the children of metadata are a ring through the nodes themselves, whose head is in
their parent. A node leaves the ring it is in before it goes somewhere else or is freed, and with it
go all the nodes below it.
-/

namespace Haggle
namespace LibMetadataTree

open LinkedRing AttributeLists

section Model

structure MetadataIterator where
  name : Option Bytes
  head : Option Cell
  pos : Option Cell
  tmp : Option Cell

/-- A node, as far as its name goes and the loop over its children. -/
structure Metadata where
  name : Option Bytes
  it : MetadataIterator

/-- The nodes that were allocated and not freed, by number. The own link of a node is an element and
that of its children a head. -/
structure World where
  links : Links Cell
  nodes : ℕ → Option Metadata
  count : ℕ

def World.start : World := ⟨⟨fun _ => none, fun _ => none⟩, fun _ => none, 0⟩

/-- `metadata_detach`. -/
def metadataDetach (w : World) (child : ℕ) : Option World := do
  let _ ← w.nodes child
  let links ← listDetach w.links (.elem child)
  some { w with links }

/-- `metadata_add`. -/
def metadataAdd (w : World) (parent child : ℕ) : Option World := do
  let _ ← w.nodes parent
  let w ← metadataDetach w child
  let links ← listAddTail w.links (.elem child) (.head parent)
  some { w with links }

/-- `INIT_LIST`. -/
def initList (m : Links Cell) (h : Cell) : Links Cell := m.set h (some h) (some h)

/-- `metadata_new`. -/
def metadataNew (w : World) (name : Option Bytes) (parent : Option ℕ) : Option (World × ℕ) := do
  let m := w.count
  let node : Metadata := ⟨name.map cStr, ⟨none, none, none, none⟩⟩
  let w : World := ⟨initList (initList w.links (.elem m)) (.head m),
    Function.update w.nodes m (some node), m + 1⟩
  match parent with
  | some parent => do
    let w ← metadataAdd w parent m
    some (w, m)
  | none => some (w, m)

/-- `metadata_set_name`. -/
def metadataSetName (w : World) (m : ℕ) (name : Bytes) : Option World := do
  let node ← w.nodes m
  some { w with nodes := Function.update w.nodes m (some { node with name := some (cStr name) }) }

/-- `free` of a node that is in no ring. -/
def World.release (w : World) (m : ℕ) : World :=
  { w with links := w.links.set (.head m) none none, nodes := Function.update w.nodes m none }

mutual

/-- `metadata_free`. -/
def metadataFree : ℕ → World → ℕ → Option World
  | 0, _, _ => none
  | fuel + 1, w, m => do
    let w ← metadataDetach w m
    let w ← freeChildren fuel w m
    some (w.release m)

/-- The loop of `metadata_free` over what comes first among the children. -/
def freeChildren : ℕ → World → ℕ → Option World
  | 0, _, _ => none
  | fuel + 1, w, m =>
    match w.links.next (.head m) with
    | some (.elem c) => do
      let w ← metadataFree fuel w c
      freeChildren fuel w m
    | some (.head h) => if h = m then some w else none
    | none => none

end

end Model

/-! ## Rings with what is outside of them -/

section Rings

variable {N : Type*} [DecidableEq N] {m m' : Links N} {h n x : N} {l l₁ l₂ s : List N}

/-- The links of all but these nodes are the same. -/
def SameOutside (s : List N) (m m' : Links N) : Prop :=
  ∀ x ∉ s, m'.next x = m.next x ∧ m'.prev x = m.prev x

omit [DecidableEq N] in
theorem SameOutside.isRing (hsame : SameOutside s m m') (hring : IsRing m h l)
    (hout : ∀ x ∈ h :: l, x ∉ s) : IsRing m' h l :=
  hring.congr fun x hx => hsame x (hout x hx)

theorem sameOutside_set (m : Links N) (n : N) (a b : Option N) :
    SameOutside [n] m (m.set n a b) := fun _ hx =>
  have hne := fun heq => hx (List.mem_singleton.mpr heq)
  ⟨Function.update_of_ne hne _ _, Function.update_of_ne hne _ _⟩

theorem sameOutside_join {p q : N} (m : Links N) (hp : p ∈ s) (hq : q ∈ s) :
    SameOutside s m (m.join p q) := fun _ hx =>
  ⟨m.next_join_of_ne (ne_of_mem_of_not_mem hp hx).symm,
    m.prev_join_of_ne (ne_of_mem_of_not_mem hq hx).symm⟩

omit [DecidableEq N] in
theorem SameOutside.trans {m'' : Links N} (hsame : SameOutside s m m')
    (hsame' : SameOutside s m' m'') : SameOutside s m m'' := fun x hx =>
  ⟨(hsame' x hx).1.trans (hsame x hx).1, (hsame' x hx).2.trans (hsame x hx).2⟩

omit [DecidableEq N] in
theorem SameOutside.mono {t : List N} (hsame : SameOutside s m m') (hsub : s ⊆ t) :
    SameOutside t m m' := fun x hx => hsame x fun hmem => hx (hsub hmem)

end Rings

section Detaching

variable {m : Links Cell} {h n : Cell} {l l₁ l₂ : List Cell}

theorem detach_ring (hring : IsRing m h (l₁ ++ n :: l₂)) : ∃ m', listDetach m n = some m' ∧
    IsRing m' h (l₁ ++ l₂) ∧ m'.next n = none ∧ m'.prev n = none ∧
      SameOutside (h :: (l₁ ++ n :: l₂)) m m' := by
  obtain ⟨p, q, hprev, hnext, hp, hq, herased⟩ := hring.erase
  have hn : n ∈ h :: (l₁ ++ n :: l₂) := by simp
  have hp' : p ∈ h :: (l₁ ++ n :: l₂) := List.mem_append_left _ hp
  have hq' : q ∈ h :: (l₁ ++ n :: l₂) := by
    obtain hq | hq := List.mem_append.mp hq
    · exact List.mem_cons_of_mem _ (List.mem_append_right _ (List.mem_cons_of_mem _ hq))
    · exact List.mem_singleton.mp hq ▸ List.mem_cons_self
  have hout : n ∉ h :: (l₁ ++ l₂) := by
    have hnodup := hring.nodup
    rw [← List.cons_append, List.nodup_middle] at hnodup
    exact (List.nodup_cons.mp hnodup).1
  refine ⟨(m.join p q).set n none none, ?_, herased.set hout none none, Function.update_self ..,
    Function.update_self .., ?_⟩
  · unfold listDetach
    rw [hprev, hnext]
    rfl
  · refine (sameOutside_join m hp' hq').trans ((sameOutside_set _ n none none).mono ?_)
    exact List.cons_subset.mpr ⟨hn, List.nil_subset _⟩

theorem detach_self (hring : IsRing m n []) : ∃ m', listDetach m n = some m' ∧
    m'.next n = none ∧ m'.prev n = none ∧ SameOutside [n] m m' := by
  refine ⟨(m.join n n).set n none none, ?_, Function.update_self .., Function.update_self .., ?_⟩
  · unfold listDetach
    rw [hring.prev_head, hring.next_head]
    rfl
  · exact (sameOutside_join m List.mem_cons_self List.mem_cons_self).trans
      (sameOutside_set _ n none none)

theorem attach_ring (hring : IsRing m h l) (hn : n ∉ h :: l) : ∃ m', listAddTail m n h = some m' ∧
    IsRing m' h (l ++ [n]) ∧ SameOutside (n :: h :: l) m m' := by
  rw [← List.append_nil l] at hring hn
  obtain ⟨p, hprev, hp, hinserted⟩ := hring.insert hn rfl
  refine ⟨(m.join p n).join n h, ?_, hinserted, ?_⟩
  · unfold listAddTail
    rw [hprev]
    rfl
  · refine (sameOutside_join m ?_ ?_).trans (sameOutside_join _ ?_ ?_)
    · exact List.mem_cons_of_mem n hp
    all_goals simp

end Detaching

/-! ## Trees -/

section Trees

variable {w : World} {kids kids' : ℕ → List ℕ} {rank : ℕ → ℕ} {a b c p : ℕ}

def World.Live (w : World) (a : ℕ) : Prop := (w.nodes a).isSome

/-- Every node has a ring of its children, which are nodes of a lower rank. One that is no child is
linked with itself, or with nothing after it was detached. -/
structure Forest (w : World) (kids : ℕ → List ℕ) (rank : ℕ → ℕ) : Prop where
  ring : ∀ a, w.Live a → Holds w.links a (kids a)
  live : ∀ a, w.Live a → ∀ b ∈ kids a, w.Live b
  lower : ∀ a, w.Live a → ∀ b ∈ kids a, rank b < rank a
  root : ∀ b, w.Live b → (∀ a, w.Live a → b ∉ kids a) → IsRing w.links (.elem b) [] ∨
    w.links.next (.elem b) = none ∧ w.links.prev (.elem b) = none
  gone : ∀ b, ¬ w.Live b → w.links.next (.elem b) = none
  bounded : ∀ a, w.Live a → a < w.count

theorem Forest.congr (h : Forest w kids rank) (hsame : ∀ a, w.Live a → kids' a = kids a) :
    Forest w kids' rank where
  ring a ha := hsame a ha ▸ h.ring a ha
  live a ha := hsame a ha ▸ h.live a ha
  lower a ha := hsame a ha ▸ h.lower a ha
  root b hb hno := h.root b hb fun a ha => hsame a ha ▸ hno a ha
  gone := h.gone
  bounded := h.bounded

theorem Forest.parent_unique (h : Forest w kids rank) (ha : w.Live a) (hp : w.Live p)
    (hba : b ∈ kids a) (hbp : b ∈ kids p) : a = p :=
  (h.ring a ha).eq_of_mem (h.ring p hp) hba hbp

theorem Forest.nodup (h : Forest w kids rank) (ha : w.Live a) : (kids a).Nodup :=
  (h.ring a ha).nodup

theorem Forest.notMem_of_none (h : Forest w kids rank) (hb : w.links.next (.elem b) = none)
    (ha : w.Live a) : b ∉ kids a :=
  (h.ring a ha).notMem_of_none hb

/-- A tree from which one node is taken out, with the others below it. -/
theorem Forest.detached (h : Forest w kids rank) {m : Links Cell} (hb : w.Live b)
    (hnext : m.next (.elem b) = none) (hprev : m.prev (.elem b) = none)
    (hring : ∀ a, w.Live a → Holds m a ((kids a).erase b))
    (hsame : ∀ c ≠ b, (∀ a, w.Live a → c ∉ kids a) →
      m.next (.elem c) = w.links.next (.elem c) ∧ m.prev (.elem c) = w.links.prev (.elem c)) :
    Forest { w with links := m } (fun a => (kids a).erase b) rank where
  ring := hring
  live a ha c hc := h.live a ha c (List.mem_of_mem_erase hc)
  lower a ha c hc := h.lower a ha c (List.mem_of_mem_erase hc)
  root c hc hno := by
    by_cases hcb : c = b
    · exact .inr (hcb ▸ ⟨hnext, hprev⟩)
    · have hno' : ∀ a, w.Live a → c ∉ kids a := fun a ha hmem =>
        hno a ha ((List.mem_erase_of_ne hcb).mpr hmem)
      obtain ⟨hn, hp⟩ := hsame c hcb hno'
      obtain hring | hnone := h.root c hc hno'
      · refine .inl (hring.congr fun x hx => ?_)
        obtain rfl := List.mem_singleton.mp hx
        exact ⟨hn, hp⟩
      · exact .inr ⟨hn.trans hnone.1, hp.trans hnone.2⟩
  gone c hc := by
    have hcb : c ≠ b := fun heq => hc (heq ▸ hb)
    exact (hsame c hcb fun a ha hmem => hc (h.live a ha c hmem)).1.trans (h.gone c hc)
  bounded := h.bounded

theorem erase_eq_of_parent (h : Forest w kids rank) (ha : w.Live a) (hc : w.Live c)
    (hb : b ∈ kids a) (hne : c ≠ a) : (kids c).erase b = kids c :=
  List.erase_of_not_mem fun hmem => hne (h.parent_unique hc ha hmem hb)

theorem detach_spec (h : Forest w kids rank) (hb : w.Live b)
    (hlinked : w.links.next (.elem b) ≠ none) :
    ∃ m, metadataDetach w b = some { w with links := m } ∧ m.next (.elem b) = none ∧
      (∀ c, w.links.next (.elem c) = none → m.next (.elem c) = none) ∧
        Forest { w with links := m } (fun a => (kids a).erase b) rank := by
  obtain ⟨node, hnode⟩ := Option.isSome_iff_exists.mp hb
  have heq : ∀ m, listDetach w.links (.elem b) = some m →
      metadataDetach w b = some { w with links := m } := by
    intro m hm
    simp only [metadataDetach, hnode, hm, Option.bind_eq_bind, Option.bind_some]
  by_cases hparent : ∃ a, w.Live a ∧ b ∈ kids a
  · obtain ⟨a, ha, hmem⟩ := hparent
    obtain ⟨as, bs, hsplit⟩ := List.append_of_mem hmem
    have hring := h.ring a ha
    have hnodup := h.nodup ha
    unfold Holds at hring
    rw [hsplit, List.map_append, List.map_cons] at hring
    obtain ⟨m, hm, herased, hnext, hprev, hsame⟩ := detach_ring hring
    rw [← List.map_cons, ← List.map_append, ← hsplit] at hsame
    have hother : ∀ c ≠ b, (∀ a, w.Live a → c ∉ kids a) →
        m.next (.elem c) = w.links.next (.elem c) ∧ m.prev (.elem c) = w.links.prev (.elem c) :=
      fun c _ hno => hsame _ (notMem_ring (hno a ha) a)
    refine ⟨m, heq m hm, hnext, fun c hc => ?_, h.detached hb hnext hprev ?_ hother⟩
    · have hcb : c ≠ b := fun heq => hlinked (heq ▸ hc)
      rw [(hother c hcb fun a ha => h.notMem_of_none hc ha).1, hc]
    · intro c hc
      by_cases hca : c = a
      · subst hca
        rw [hsplit] at hnodup
        have hfirst : b ∉ as := fun hin =>
          (List.nodup_append.mp hnodup).2.2 b hin b List.mem_cons_self rfl
        rw [hsplit, List.erase_append_right _ hfirst, List.erase_cons_head]
        unfold Holds
        rwa [List.map_append]
      · rw [erase_eq_of_parent h ha hc hmem hca]
        exact hsame.isRing (h.ring c hc) fun x hx =>
          (h.ring c hc).disjoint (h.ring a ha) (Ne.symm hca) hx
  · have hno : ∀ a, w.Live a → b ∉ kids a := fun a ha hmem => hparent ⟨a, ha, hmem⟩
    obtain hself | hnone := h.root b hb hno
    swap
    · exact absurd hnone.1 hlinked
    obtain ⟨m, hm, hnext, hprev, hsame⟩ := detach_self hself
    have hother : ∀ c ≠ b, (∀ a, w.Live a → c ∉ kids a) →
        m.next (.elem c) = w.links.next (.elem c) ∧ m.prev (.elem c) = w.links.prev (.elem c) :=
      fun c hcb _ => hsame _ (by simpa using hcb)
    refine ⟨m, heq m hm, hnext, fun c hc => ?_, h.detached hb hnext hprev ?_ hother⟩
    · have hcb : c ≠ b := fun heq => hlinked (heq ▸ hc)
      rw [(hother c hcb fun a ha => h.notMem_of_none hc ha).1, hc]
    · intro a ha
      rw [List.erase_of_not_mem (hno a ha)]
      exact hsame.isRing (h.ring a ha) fun x hx hmem =>
        notMem_ring (hno a ha) a (List.mem_singleton.mp hmem ▸ hx)

/-- The nodes at and below a node. -/
def Below (kids : ℕ → List ℕ) : ℕ → ℕ → Prop := Relation.ReflTransGen fun a b => b ∈ kids a

theorem Forest.live_below (h : Forest w kids rank) (ha : w.Live a) (hb : Below kids a b) :
    w.Live b := by
  induction hb with
  | refl => exact ha
  | tail _ hmem ih => exact h.live _ ih _ hmem

theorem Forest.rank_below (h : Forest w kids rank) (ha : w.Live a) (hb : Below kids a b) :
    rank b ≤ rank a := by
  induction hb with
  | refl => exact le_rfl
  | tail hbelow hmem ih => exact (h.lower _ (h.live_below ha hbelow) _ hmem).le.trans ih

theorem Forest.below_parent (h : Forest w kids rank) (hb : w.Live b) (ha : w.Live a)
    (hc : c ∈ kids a) (hbelow : Below kids b c) : c = b ∨ Below kids b a := by
  obtain heq | ⟨p, hp, hmem⟩ := Relation.ReflTransGen.cases_tail hbelow
  · exact .inl heq
  · exact .inr (h.parent_unique (h.live_below hb hp) ha hmem hc ▸ hp)

/-- A node that is not linked comes last among the children of one that is not below it. The nodes
that are not below it get a higher rank. -/
theorem Forest.attach (h : Forest w kids rank) (hb : w.Live b) (hp : w.Live p)
    (hnext : w.links.next (.elem b) = none) (hbelow : ¬ Below kids b p) :
    ∃ m, listAddTail w.links (.elem b) (.head p) = some m ∧ ∃ rank',
      Forest { w with links := m } (Function.update kids p (kids p ++ [b])) rank' := by
  have hfree := fun a ha => h.notMem_of_none hnext (a := a) ha
  have hne : b ≠ p := fun heq => hbelow (heq ▸ .refl)
  obtain ⟨m, hm, hring, hsame⟩ := attach_ring (h.ring p hp) (notMem_ring (hfree p hp) p)
  have hother : ∀ c ≠ b, c ∉ kids p → m.next (.elem c) = w.links.next (.elem c) ∧
      m.prev (.elem c) = w.links.prev (.elem c) := by
    intro c hcb hc
    refine hsame _ fun hmem => ?_
    obtain heq | hmem := List.mem_cons.mp hmem
    · exact hcb (Cell.elem.inj heq)
    · exact notMem_ring hc p hmem
  have hmem : ∀ {a c}, c ∈ Function.update kids p (kids p ++ [b]) a → c ∈ kids a ∨
      a = p ∧ c = b := by
    intro a c hc
    by_cases hap : a = p
    · subst hap
      rw [Function.update_self, List.mem_append, List.mem_singleton] at hc
      exact hc.imp_right fun hcb => ⟨rfl, hcb⟩
    · rw [Function.update_of_ne hap] at hc
      exact .inl hc
  have hstays : ∀ {a c}, c ∈ kids a → c ∈ Function.update kids p (kids p ++ [b]) a := by
    intro a c hc
    by_cases hap : a = p
    · subst hap
      rw [Function.update_self]
      exact List.mem_append_left _ hc
    · rwa [Function.update_of_ne hap]
  classical
  refine ⟨m, hm, fun a => if Below kids b a then rank a else rank a + rank b + 1, ?_⟩
  constructor
  · intro a ha
    by_cases hap : a = p
    · subst hap
      rw [Function.update_self]
      unfold Holds
      rwa [List.map_append]
    · rw [Function.update_of_ne hap]
      refine hsame.isRing (h.ring a ha) fun x hx hxs => ?_
      obtain rfl | hxs := List.mem_cons.mp hxs
      · exact notMem_ring (hfree a ha) a hx
      · exact (h.ring a ha).disjoint (h.ring p hp) (Ne.symm hap) hx hxs
  · intro a ha c hc
    obtain hc | ⟨-, rfl⟩ := hmem hc
    · exact h.live a ha c hc
    · exact hb
  · intro a ha c hin
    obtain hc | ⟨rfl, rfl⟩ := hmem hin
    · have hlt := h.lower a ha c hc
      by_cases hca : Below kids b c
      · rw [if_pos hca]
        obtain rfl | hba := h.below_parent hb ha hc hca
        · exact absurd hc (hfree a ha)
        · rwa [if_pos hba]
      · have hba : ¬ Below kids b a := fun hba => hca (hba.tail hc)
        rw [if_neg hca, if_neg hba]
        omega
    · rw [if_pos .refl, if_neg hbelow]
      omega
  · intro c hc hno
    have hcb : c ≠ b := by
      rintro rfl
      refine hno p hp ?_
      rw [Function.update_self]
      exact List.mem_append_right _ List.mem_cons_self
    have hno' : ∀ a, w.Live a → c ∉ kids a := fun a ha hc => hno a ha (hstays hc)
    obtain ⟨hn, hpr⟩ := hother c hcb (hno' p hp)
    obtain hself | hnone := h.root c hc hno'
    · refine .inl (hself.congr fun x hx => ?_)
      obtain rfl := List.mem_singleton.mp hx
      exact ⟨hn, hpr⟩
    · exact .inr ⟨hn.trans hnone.1, hpr.trans hnone.2⟩
  · intro c hc
    have hcb : c ≠ b := fun heq => hc (heq ▸ hb)
    exact (hother c hcb fun hmem => hc (h.live p hp c hmem)).1.trans (h.gone c hc)
  · exact h.bounded

theorem live_release : (w.release a).Live b ↔ w.Live b ∧ b ≠ a := by
  change (Function.update w.nodes a none b).isSome = true ↔ _
  by_cases hba : b = a
  · subst hba
    simp
  · rw [Function.update_of_ne hba]
    exact (and_iff_left hba).symm

theorem Forest.release (h : Forest w kids rank) (hnil : kids a = [])
    (hnext : w.links.next (.elem a) = none) : Forest (w.release a) kids rank := by
  have hsame : SameOutside [Cell.head a] w.links (w.release a).links :=
    sameOutside_set _ _ none none
  have hcell : ∀ c, (w.release a).links.next (.elem c) = w.links.next (.elem c) ∧
      (w.release a).links.prev (.elem c) = w.links.prev (.elem c) :=
    fun c => hsame _ (by simp)
  refine ⟨fun x hx => ?_, fun x hx b hb => ?_, fun x hx => h.lower x (live_release.mp hx).1,
    fun b hb hno => ?_, fun b hb => ?_, fun x hx => h.bounded x (live_release.mp hx).1⟩
  · refine hsame.isRing (h.ring x (live_release.mp hx).1) fun y hy hya => ?_
    obtain rfl := List.mem_singleton.mp hya
    have hxa : a = x := by simpa using hy
    exact (live_release.mp hx).2 hxa.symm
  · refine live_release.mpr ⟨h.live x (live_release.mp hx).1 b hb, fun heq => ?_⟩
    exact h.notMem_of_none hnext (live_release.mp hx).1 (heq ▸ hb)
  · have hno' : ∀ x, w.Live x → b ∉ kids x := by
      intro x hx hmem
      by_cases hxa : x = a
      · rw [hxa, hnil] at hmem
        cases hmem
      · exact hno x (live_release.mpr ⟨hx, hxa⟩) hmem
    obtain hself | hnone := h.root b (live_release.mp hb).1 hno'
    · refine .inl (hself.congr fun y hy => ?_)
      obtain rfl := List.mem_singleton.mp hy
      exact hcell b
    · exact .inr ⟨(hcell b).1.trans hnone.1, (hcell b).2.trans hnone.2⟩
  · rw [(hcell b).1]
    by_cases hba : b = a
    · rw [hba, hnext]
    · exact h.gone b fun hb' => hb (live_release.mpr ⟨hb', hba⟩)

end Trees

/-! ## Freeing -/

section Freeing

variable {w w' w'' : World} {kids : ℕ → List ℕ} {rank : ℕ → ℕ} {a b : ℕ} {G G' : ℕ → Prop}

/-- Only nodes of `G` were freed, and nothing else happened to nodes. -/
structure Only (G : ℕ → Prop) (w w' : World) : Prop where
  nodes : ∀ x, ¬ G x → w'.nodes x = w.nodes x
  live : ∀ x, w'.Live x → w.Live x
  none : ∀ x, w.links.next (.elem x) = none → w'.links.next (.elem x) = none

theorem Only.refl (G : ℕ → Prop) (w : World) : Only G w w :=
  ⟨fun _ _ => rfl, fun _ hx => hx, fun _ hx => hx⟩

theorem Only.trans (h : Only G w w') (h' : Only G w' w'') : Only G w w'' where
  nodes x hx := (h'.nodes x hx).trans (h.nodes x hx)
  live x hx := h.live x (h'.live x hx)
  none x hx := h'.none x (h.none x hx)

theorem Only.stays (h : Only G w w') (ha : w.Live a) (hG : ¬ G a) : w'.Live a := by
  unfold World.Live
  rwa [h.nodes a hG]

/-- What is below a node of `G` is in `G`. -/
def Closed (w : World) (kids : ℕ → List ℕ) (G : ℕ → Prop) : Prop :=
  ∀ x, w.Live x → G x → ∀ c ∈ kids x, G c

theorem Closed.mono {kids' : ℕ → List ℕ} (hG : Closed w kids G)
    (hlive : ∀ x, w'.Live x → w.Live x) (hkids : ∀ x, kids' x ⊆ kids x) : Closed w' kids' G :=
  fun x hx hGx _ hc => hG x (hlive x hx) hGx _ (hkids x hc)

/-- `metadata_free` comes to an end, in this world. -/
def Frees (w : World) (a : ℕ) (w' : World) : Prop :=
  ∃ n, ∀ fuel ≥ n, metadataFree fuel w a = some w'

/-- A node that is linked is freed together with nodes of `G` only. -/
def Freeable (rank : ℕ → ℕ) (a : ℕ) : Prop :=
  ∀ w kids G, Forest w kids rank → w.Live a → w.links.next (.elem a) ≠ none → Closed w kids G →
    G a → ∃ w', Frees w a w' ∧ Forest w' (fun x => (kids x).erase a) rank ∧ ¬ w'.Live a ∧
      Only G w w'

theorem freeChildren_spec (hfree : ∀ b, rank b < rank a → Freeable rank b) (bs : List ℕ) :
    ∀ w kids G, Forest w kids rank → w.Live a → kids a = bs → Closed w kids G →
      (∀ b ∈ bs, G b) → ¬ G a → ∃ w', (∃ n, ∀ fuel ≥ n, freeChildren fuel w a = some w') ∧
        Forest w' (Function.update kids a []) rank ∧ Only G w w' := by
  induction bs with
  | nil =>
    intro w kids G h ha hkids _ _ _
    have hnext := (h.ring a ha).next_head
    rw [hkids] at hnext
    refine ⟨w, ⟨1, fun fuel hfuel => ?_⟩, ?_, .refl G w⟩
    · obtain ⟨fuel, rfl⟩ := Nat.exists_eq_add_of_le' hfuel
      rw [freeChildren, hnext]
      exact if_pos rfl
    · rwa [← hkids, Function.update_eq_self]
  | cons b bs ih =>
    intro w kids G h ha hkids hG hbs hGa
    have hmem : b ∈ kids a := hkids ▸ List.mem_cons_self
    have hring := h.ring a ha
    have hnext := hring.next_head
    rw [hkids] at hnext
    have hlinked : w.links.next (.elem b) ≠ none := fun hnone => h.notMem_of_none hnone ha hmem
    obtain ⟨w₁, ⟨n, hfrees⟩, h₁, -, honly⟩ := hfree b (h.lower a ha b hmem) w kids G h
      (h.live a ha b hmem) hlinked hG (hbs b List.mem_cons_self)
    have hG₁ : Closed w₁ (fun x => (kids x).erase b) G :=
      hG.mono honly.live fun x => List.erase_subset
    obtain ⟨w₂, ⟨n', hloop⟩, h₂, honly'⟩ := ih w₁ (fun x => (kids x).erase b) G h₁
      (honly.stays ha hGa) (by rw [hkids, List.erase_cons_head]) hG₁
      (fun c hc => hbs c (List.mem_cons_of_mem b hc)) hGa
    refine ⟨w₂, ⟨n + n' + 1, fun fuel hfuel => ?_⟩, h₂.congr fun x hx => ?_, honly.trans honly'⟩
    · obtain ⟨fuel, rfl⟩ := Nat.exists_eq_add_of_le' hfuel
      rw [show fuel + (n + n' + 1) = (fuel + n + n') + 1 by omega, freeChildren, hnext]
      simp only [List.map_cons, List.cons_append, List.head?_cons, Option.bind_eq_bind]
      rw [hfrees _ (by omega), Option.bind_some, hloop _ (by omega)]
    · by_cases hxa : x = a
      · rw [hxa, Function.update_self, Function.update_self]
      · rw [Function.update_of_ne hxa, Function.update_of_ne hxa]
        have hxw := honly.live x (honly'.live x hx)
        exact (erase_eq_of_parent h ha hxw hmem hxa).symm

theorem freeable (rank : ℕ → ℕ) (a : ℕ) : Freeable rank a := by
  induction hr : rank a using Nat.strong_induction_on generalizing a with
  | _ r ih =>
    intro w kids G h ha hlinked hG hGa
    subst hr
    have hself : a ∉ kids a := fun hmem => lt_irrefl _ (h.lower a ha a hmem)
    obtain ⟨m, hdetach, hnext, hnone, h₁⟩ := detach_spec h ha hlinked
    have hkids : (kids a).erase a = kids a := List.erase_of_not_mem hself
    -- the node itself outlives the nodes below it
    have hG₁ : Closed { w with links := m } (fun x => (kids x).erase a)
        fun x => G x ∧ rank x < rank a := fun x hx hGx c hc =>
      ⟨hG x hx hGx.1 c (List.mem_of_mem_erase hc),
        (h.lower x hx c (List.mem_of_mem_erase hc)).trans hGx.2⟩
    obtain ⟨w₂, ⟨n, hloop⟩, h₂, honly⟩ := freeChildren_spec (fun b hb => ih _ hb b rfl) (kids a)
      { w with links := m } _ _ h₁ ha hkids hG₁
      (fun b hb => ⟨hG a ha hGa b hb, h.lower a ha b hb⟩) fun hGa => lt_irrefl _ hGa.2
    have hrelease := h₂.release (a := a) (Function.update_self ..) (honly.none a hnext)
    refine ⟨w₂.release a, ⟨n + 1, fun fuel hfuel => ?_⟩, hrelease.congr fun x hx => ?_,
      fun hlive => (live_release.mp hlive).2 rfl, ?_, fun x hx => ?_, fun x hx => ?_⟩
    · obtain ⟨fuel, rfl⟩ := Nat.exists_eq_add_of_le' hfuel
      rw [show fuel + (n + 1) = (fuel + n) + 1 by omega, metadataFree, hdetach]
      simp only [Option.bind_eq_bind, Option.bind_some, hloop _ (Nat.le_add_left n fuel)]
    · rw [Function.update_of_ne (live_release.mp hx).2]
    · intro x hx
      have hxa : x ≠ a := fun heq => hx (heq ▸ hGa)
      exact (Function.update_of_ne hxa _ _).trans (honly.nodes x fun hGx => hx hGx.1)
    · exact honly.live x (live_release.mp hx).1
    · have hsame := sameOutside_set w₂.links (.head a) none none (.elem x) (by simp)
      exact hsame.1.trans (honly.none x (hnone x hx))

end Freeing

/-! ## Nodes that come -/

section Growing

variable {w w' : World} {kids kids' : ℕ → List ℕ} {rank : ℕ → ℕ} {a b p : ℕ}

theorem Below.mono (hsub : ∀ x, kids' x ⊆ kids x) (h : Below kids' a b) : Below kids a b :=
  Relation.ReflTransGen.mono (fun x _ hmem => hsub x hmem) _ _ h

theorem linked_of_detach (h : metadataDetach w b = some w') :
    w.Live b ∧ w.links.next (.elem b) ≠ none := by
  simp only [metadataDetach, Option.bind_eq_bind, Option.bind_eq_some_iff] at h
  obtain ⟨node, hnode, m, hm, -⟩ := h
  refine ⟨Option.isSome_iff_exists.mpr ⟨node, hnode⟩, fun hnone => ?_⟩
  unfold listDetach listelmDetach at hm
  rw [hnone] at hm
  cases hprev : w.links.prev (.elem b) <;> rw [hprev] at hm <;> cases hm

/-- A node goes from where it is to the end of the children of `p`. -/
theorem add_spec (h : Forest w kids rank) (hp : w.Live p) (hb : w.Live b)
    (hlinked : w.links.next (.elem b) ≠ none) (hbelow : ¬ Below kids b p) :
    ∃ m, metadataAdd w p b = some { w with links := m } ∧ ∃ rank', Forest { w with links := m }
      (Function.update (fun x => (kids x).erase b) p ((kids p).erase b ++ [b])) rank' := by
  obtain ⟨node, hnode⟩ := Option.isSome_iff_exists.mp hp
  obtain ⟨m, hdetach, hnext, -, h₁⟩ := detach_spec h hb hlinked
  obtain ⟨m', hattach, rank', h₂⟩ := h₁.attach hb hp hnext
    fun hmono => hbelow (hmono.mono fun x => List.erase_subset)
  refine ⟨m', ?_, rank', h₂⟩
  simp only [metadataAdd, hnode, hdetach, hattach, Option.bind_eq_bind, Option.bind_some]

/-- The world after a node was allocated. -/
def World.allocate (w : World) (name : Option Bytes) : World :=
  ⟨initList (initList w.links (.elem w.count)) (.head w.count),
    Function.update w.nodes w.count (some ⟨name.map cStr, ⟨none, none, none, none⟩⟩), w.count + 1⟩

theorem live_allocate {name : Option Bytes} :
    (w.allocate name).Live b ↔ w.Live b ∨ b = w.count := by
  change (Function.update w.nodes w.count _ b).isSome = true ↔ _
  by_cases hb : b = w.count
  · subst hb
    simp
  · rw [Function.update_of_ne hb]
    exact (or_iff_left hb).symm

theorem Forest.allocate (h : Forest w kids rank) (name : Option Bytes) :
    Forest (w.allocate name) (Function.update kids w.count []) rank := by
  have hsame : SameOutside [Cell.elem w.count, Cell.head w.count] w.links
      (w.allocate name).links :=
    ((sameOutside_set _ _ _ _).mono (by simp)).trans ((sameOutside_set _ _ _ _).mono (by simp))
  have hcell : ∀ c ≠ w.count, (w.allocate name).links.next (.elem c) = w.links.next (.elem c) ∧
      (w.allocate name).links.prev (.elem c) = w.links.prev (.elem c) :=
    fun c hc => hsame _ (by simpa using hc)
  have hold : ∀ {x}, w.Live x → x ≠ w.count := fun hx => (h.bounded _ hx).ne
  have hmem : ∀ {x c}, c ∈ Function.update kids w.count [] x → x ≠ w.count ∧ c ∈ kids x := by
    intro x c hc
    by_cases hx : x = w.count
    · rw [hx, Function.update_self] at hc
      cases hc
    · rw [Function.update_of_ne hx] at hc
      exact ⟨hx, hc⟩
  have hwas : ∀ {x c}, (w.allocate name).Live x → c ∈ Function.update kids w.count [] x →
      w.Live x ∧ c ∈ kids x := fun hx hc =>
    ⟨(live_allocate.mp hx).resolve_right (hmem hc).1, (hmem hc).2⟩
  refine ⟨fun x hx => ?_, fun x hx c hc => ?_, fun x hx c hc => ?_, fun c hc hno => ?_,
    fun c hc => ?_, fun x hx => ?_⟩
  · obtain hx | rfl := live_allocate.mp hx
    · rw [Function.update_of_ne (hold hx)]
      refine hsame.isRing (h.ring x hx) fun y hy hys => ?_
      obtain rfl | hys := List.mem_cons.mp hys
      · exact notMem_ring (fun hc => hold (h.live x hx _ hc) rfl) x hy
      · obtain rfl := List.mem_singleton.mp hys
        have heq : w.count = x := by simpa using hy
        exact hold hx heq.symm
    · rw [Function.update_self]
      exact isRing_set_self _ _
  · obtain ⟨hx, hc⟩ := hwas hx hc
    exact live_allocate.mpr (.inl (h.live x hx c hc))
  · obtain ⟨hx, hc⟩ := hwas hx hc
    exact h.lower x hx c hc
  · obtain hc | rfl := live_allocate.mp hc
    · have hno' : ∀ x, w.Live x → c ∉ kids x := fun x hx hmem =>
        hno x (live_allocate.mpr (.inl hx)) (by rwa [Function.update_of_ne (hold hx)])
      obtain ⟨hn, hp⟩ := hcell c (hold hc)
      obtain hself | hnone := h.root c hc hno'
      · refine .inl (hself.congr fun y hy => ?_)
        obtain rfl := List.mem_singleton.mp hy
        exact ⟨hn, hp⟩
      · exact .inr ⟨hn.trans hnone.1, hp.trans hnone.2⟩
    · exact .inl ((isRing_set_self w.links (.elem w.count)).set (by simp) _ _)
  · have hne : c ≠ w.count := fun heq => hc (live_allocate.mpr (.inr heq))
    exact (hcell c hne).1.trans (h.gone c fun hold => hc (live_allocate.mpr (.inl hold)))
  · obtain hx | rfl := live_allocate.mp hx
    · exact (h.bounded x hx).trans (Nat.lt_succ_self _)
    · exact Nat.lt_succ_self _

theorem new_root (w : World) (name : Option Bytes) :
    metadataNew w name none = some (w.allocate name, w.count) := rfl

theorem new_child (h : Forest w kids rank) (hp : w.Live p) (name : Option Bytes) :
    ∃ m, metadataNew w name (some p) = some ({ w.allocate name with links := m }, w.count) ∧
      ∃ rank', Forest { w.allocate name with links := m }
        (Function.update (Function.update kids w.count []) p (kids p ++ [w.count])) rank' := by
  have hpc : p ≠ w.count := (h.bounded p hp).ne
  have h₁ := h.allocate name
  have hnew : (w.allocate name).Live w.count := live_allocate.mpr (.inr rfl)
  have hself : IsRing (w.allocate name).links (.elem w.count) [] :=
    (isRing_set_self w.links (.elem w.count)).set (by simp) _ _
  have hlinked : (w.allocate name).links.next (.elem w.count) ≠ none := by
    rw [hself.next_head]
    nofun
  have hbelow : ¬ Below (Function.update kids w.count []) w.count p := by
    intro hbelow
    obtain heq | ⟨c, hc, -⟩ := Relation.ReflTransGen.cases_head hbelow
    · exact hpc heq.symm
    · rw [Function.update_self] at hc
      cases hc
  obtain ⟨m, hadd, rank', h₂⟩ :=
    add_spec h₁ (live_allocate.mpr (.inl hp)) hnew hlinked hbelow
  have hout : ∀ x, (w.allocate name).Live x → w.count ∉ Function.update kids w.count [] x := by
    intro x hx hmem
    by_cases hxc : x = w.count
    · rw [hxc, Function.update_self] at hmem
      cases hmem
    · rw [Function.update_of_ne hxc] at hmem
      have hxw := (live_allocate.mp hx).resolve_right hxc
      exact (h.bounded _ (h.live x hxw _ hmem)).ne rfl
  refine ⟨m, ?_, rank', h₂.congr fun x hx => ?_⟩
  · have heq : metadataNew w name (some p) =
        (metadataAdd (w.allocate name) p w.count).bind fun w' => some (w', w.count) := rfl
    rw [heq, hadd, Option.bind_some]
  · by_cases hxp : x = p
    · subst hxp
      rw [Function.update_self, Function.update_self, List.erase_of_not_mem (hout x hx),
        Function.update_of_ne hpc]
    · rw [Function.update_of_ne hxp, Function.update_of_ne hxp,
        List.erase_of_not_mem (hout x hx)]

theorem Forest.update (h : Forest w kids rank) (ha : w.Live a) (node : Metadata) :
    Forest { w with nodes := Function.update w.nodes a (some node) } kids rank := by
  have hlive : ∀ x, World.Live { w with nodes := Function.update w.nodes a (some node) } x ↔
      w.Live x := by
    intro x
    change (Function.update w.nodes a (some node) x).isSome = true ↔ _
    by_cases hx : x = a
    · subst hx
      rw [Function.update_self]
      exact iff_of_true rfl ha
    · rw [Function.update_of_ne hx]
      rfl
  exact {
    ring := fun x hx => h.ring x ((hlive x).mp hx)
    live := fun x hx c hc => (hlive c).mpr (h.live x ((hlive x).mp hx) c hc)
    lower := fun x hx => h.lower x ((hlive x).mp hx)
    root := fun c hc hno => h.root c ((hlive c).mp hc) fun x hx => hno x ((hlive x).mpr hx)
    gone := fun c hc => h.gone c fun hc' => hc ((hlive c).mpr hc')
    bounded := fun x hx => h.bounded x ((hlive x).mp hx) }

theorem forest_start : Forest .start (fun _ => []) fun _ => 0 where
  ring _ ha := nomatch ha
  live _ ha := nomatch ha
  lower _ ha := nomatch ha
  root _ hb := nomatch hb
  gone _ _ := rfl
  bounded _ ha := nomatch ha

end Growing

end LibMetadataTree
end Haggle
