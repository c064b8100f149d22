import Haggle.OrderedMaps
import Mathlib.Data.Multiset.Filter
import Mathlib.Data.Nat.Basic

/-!
# Programs with multimaps

A `MultiMap` keeps several entries of a key next to each other. Its abstract state is a multiset of
entries. The loop that erases a key takes the iterator to the next entry before an entry is erased
and those behind it move down by one slot, so that every second entry of the key is left.
-/

namespace Haggle
namespace MultiMaps

open BasicMap SortedEntries

variable {K V : Type}

section Model

variable [LinearOrder K]

/-- The operations; `eraseOwn` erases the key that an iterator of the map comes to. -/
inductive Op (K V : Type)
  | insert (x : K × V)
  | insertAt (pos : ℕ) (x : K × V)
  | equalRange (k : K)
  | erase (k : K)
  | eraseAt (pos : ℕ)
  | eraseOwn (pos : ℕ)

inductive Answer
  | none
  | iterator (i : ℕ)
  | range (low high : ℕ)
  | count (n : ℕ)

def step (m : BasicMap K V) : Op K V → Option (BasicMap K V × Answer)
  | .insert x => (m.insertEqual x).map fun r => (r.1, .iterator r.2)
  | .insertAt pos x => (m.insertAt pos x).map (·, .iterator pos)
  | .equalRange k => (m.equalRange k).map fun r => (m, .range r.1 r.2)
  | .erase k => (m.erase k .value).map fun r => (r.1, .count r.2)
  | .eraseAt pos => some (m.eraseAt pos, .none)
  | .eraseOwn pos =>
    (m.deref pos).bind fun e => (m.erase e.1 (.entryAt pos)).map fun r => (r.1, .count r.2)

def run (ops : List (Op K V)) : Option (BasicMap K V) :=
  ops.foldlM (fun m o => (step m o).map Prod.fst) .empty

end Model

section Meaning

variable [LinearOrder K]

open scoped Classical in
/-- The entries that an operation leaves. -/
noncomputable def Op.effect (m : BasicMap K V) (s : Multiset (K × V)) : Op K V → Multiset (K × V)
  | .insert x | .insertAt _ x => x ::ₘ s
  | .equalRange _ => s
  | .erase k => s.filter fun e => e.1 ≠ k
  | .eraseAt pos =>
    match m.live pos with
    | some e => s.erase e
    | none => s
  | .eraseOwn pos =>
    match m.live pos with
    | some e => s.filter fun f => f.1 ≠ e.1
    | none => s

/-- An insertion gives the iterator to the new entry, `equal_range` those between which the entries
of the key are, and `erase` their number. -/
def Op.Answers (m m' : BasicMap K V) (s : Multiset (K × V)) : Op K V → Answer → Prop
  | .insert x, r | .insertAt _ x, r => ∃ i, r = .iterator i ∧ m'.deref i = some x
  | .equalRange k, r => ∃ low high es, r = .range low high ∧ m'.Walks low high es ∧
      (es : Multiset (K × V)) = s.filter fun e => e.1 = k
  | .erase k, r => r = .count (s.filter fun e => e.1 = k).card
  | .eraseAt _, r => r = .none
  | .eraseOwn pos, r => ∃ e, m.live pos = some e ∧ r = .count (s.filter fun f => f.1 = e.1).card

/-- The entries are sorted by their keys and are those of the multiset; the iterators come to each
of them, and between those that `equal_range` gives to each one of the key. -/
structure Faithful (m : BasicMap K V) (s : Multiset (K × V)) : Prop where
  entries : ∃ es, m.theMap.take m.numberOfEntries = es.map some ∧ es.length = m.numberOfEntries ∧
    Sorted es ∧ (es : Multiset (K × V)) = s ∧ m.Walks m.begin npos es ∧
      ∀ k, ∃ low high, m.equalRange k = some (low, high) ∧
        m.Walks low high (es.filter fun e => e.1 = k)
  room : m.numberOfEntries ≤ m.mapSize
  allocated : m.mapSize ≤ m.theMap.length

/-- There is at most one entry of the key. -/
def AtMostOne (m : BasicMap K V) (k : K) : Prop :=
  ∀ i j e f, m.live i = some e → m.live j = some f → e.1 = k → f.1 = k → i = j

/-- An iterator whose key is read comes to an entry. -/
def Valid (m : BasicMap K V) : Op K V → Prop
  | .eraseOwn pos => pos < m.numberOfEntries
  | _ => True

/-- A position that is given for an insertion keeps the order, a key that is erased has at most one
entry, and if it is itself the key of an entry, that of the last one. -/
def Proper (m : BasicMap K V) : Op K V → Prop
  | .insert _ => m.numberOfEntries < npos
  | .insertAt pos x => m.numberOfEntries < npos ∧ pos ≤ m.numberOfEntries ∧
      (∀ i e, i < pos → m.live i = some e → e.1 ≤ x.1) ∧
        ∀ i e, pos ≤ i → m.live i = some e → x.1 ≤ e.1
  | .equalRange _ | .eraseAt _ => True
  | .erase k => AtMostOne m k
  | .eraseOwn pos => pos + 1 = m.numberOfEntries ∧ ∀ e, m.live pos = some e → AtMostOne m e.1

/-- The states of the runs of proper operations. -/
inductive Reaches : BasicMap K V → Multiset (K × V) → Prop
  | start : Reaches .empty 0
  | step {m m' : BasicMap K V} {s : Multiset (K × V)} {o : Op K V} {r : Answer} : Reaches m s →
      Valid m o → Proper m o → step m o = some (m', r) → Reaches m' (o.effect m s)

end Meaning

section Maps

variable [LinearOrder K] {m : BasicMap K V} {s : Multiset (K × V)} {es a b c : List (K × V)}
  {k : K} {e x : K × V} {pos : ℕ}

/-- The map has entries, in the order of their keys, which are those of the multiset. -/
def Kept (m : BasicMap K V) (s : Multiset (K × V)) : Prop :=
  ∃ es : List (K × V), Holds m es ∧ Sorted es ∧ (es : Multiset (K × V)) = s

theorem Kept.faithful (h : Kept m s) : Faithful m s := by
  obtain ⟨es, hes, hsorted, hs⟩ := h
  refine ⟨⟨es, hes.entries, hes.number.symm, hsorted, hs, walks_begin hes, fun k => ?_⟩, hes.room,
    hes.allocated⟩
  obtain ⟨a, b, c, hcut⟩ := exists_cut hsorted k
  rw [hcut.filter_eq]
  exact equalRange_spec hes hcut

theorem AtMostOne.length_le_one (h : AtMostOne m k) (hes : Holds m es) (hcut : Cut k es a b c) :
    b = [] ∨ ∃ e, b = [e] := by
  match b with
  | [] => exact .inl rfl
  | [e] => exact .inr ⟨e, rfl⟩
  | e :: f :: b =>
    have hfirst : m.live a.length = some e := by
      rw [live_eq hes, hcut.eq]
      simp
    have hsecond : m.live (a.length + 1) = some f := by
      rw [live_eq hes, hcut.eq]
      simp
    have heq := h _ _ e f hfirst hsecond (hcut.equal e (by simp)) (hcut.equal f (by simp))
    exact absurd heq (by simp)

theorem erase_spec (hes : Holds m es) (hsorted : Sorted es) (hone : AtMostOne m k) {r : KeyRef}
    (hr : r ≠ .gone) (hgone : ∀ a e c, Cut k es a [e] c → r.erased a.length = .gone → c = []) :
    ∃ m', m.erase k r = some (m', ((es : Multiset (K × V)).filter fun e => e.1 = k).card) ∧
      Kept m' ((es : Multiset (K × V)).filter fun e => e.1 ≠ k) := by
  obtain ⟨a, b, c, hcut⟩ := exists_cut hsorted k
  have hsub : Sorted (a ++ c) := by
    rw [hcut.eq] at hsorted
    exact List.Pairwise.sublist ((List.sublist_append_right b c).append_left a) hsorted
  rw [Multiset.filter_coe, Multiset.filter_coe, hcut.filter_eq, hcut.filter_ne, Multiset.coe_card]
  obtain rfl | ⟨e, rfl⟩ := hone.length_le_one hes hcut
  · have heq : es = a ++ c := hcut.eq
    exact ⟨m, erase_of_nil hes hcut r, a ++ c, heq ▸ hes, hsub, rfl⟩
  · obtain ⟨m', herase, hm'⟩ := erase_of_single hes hcut hr (hgone a e c hcut)
    exact ⟨m', herase, a ++ c, hm', hsub, rfl⟩

theorem insert_spec (h : Kept m s) (hshort : m.numberOfEntries < npos) (x : K × V) :
    ∃ m' i, m.insertEqual x = some (m', i) ∧ m'.deref i = some x ∧ Kept m' (x ::ₘ s) := by
  obtain ⟨es, hes, hsorted, rfl⟩ := h
  obtain ⟨a, b, c, hcut⟩ := exists_cut hsorted x.1
  obtain ⟨m', hinsert, hm'⟩ := insertEqual_spec hes hcut (hes.number ▸ hshort)
  refine ⟨m', a.length, hinsert, hm'.deref_append, a ++ x :: (b ++ c), hm', ?_, ?_⟩
  · rw [hcut.eq] at hsorted
    refine sorted_insert hsorted (fun e he => le_of_lt (hcut.below e he)) fun e he => ?_
    obtain hb | hc := List.mem_append.mp he
    · exact ge_of_eq (hcut.equal e hb)
    · exact le_of_lt (hcut.above e hc)
  · rw [Multiset.cons_coe, Multiset.coe_eq_coe, hcut.eq]
    exact List.perm_middle

theorem insertAt_spec (h : Kept m s) (hproper : Proper m (.insertAt pos x)) :
    ∃ m', m.insertAt pos x = some m' ∧ m'.deref pos = some x ∧ Kept m' (x ::ₘ s) := by
  obtain ⟨es, hes, hsorted, rfl⟩ := h
  obtain ⟨hshort, hle, hbelow, habove⟩ := hproper
  have hlen : (es.take pos).length = pos := List.length_take_of_le (hes.number ▸ hle)
  have ha := forall_mem_take hes hbelow
  have hb := forall_mem_drop hes habove
  have hes' := hes
  have hsorted' := hsorted
  rw [← List.take_append_drop pos es] at hes' hsorted'
  obtain ⟨m', hinsert, hm'⟩ := BasicMap.insertAt_spec hes'
    (by rw [List.take_append_drop, ← hes.number]; exact hshort) x
  have hderef := hm'.deref_append
  rw [hlen] at hinsert hderef
  refine ⟨m', hinsert, hderef, _, hm', sorted_insert hsorted' ha hb, ?_⟩
  rw [Multiset.cons_coe, Multiset.coe_eq_coe]
  refine List.perm_middle.trans (List.Perm.cons x ?_)
  rw [List.take_append_drop]

theorem eraseAt_spec (h : Kept m s) (pos : ℕ) :
    Kept (m.eraseAt pos) ((Op.eraseAt pos).effect m s) := by
  obtain ⟨es, hes, hsorted, rfl⟩ := h
  unfold Op.effect
  cases hlive : m.live pos with
  | none =>
    have hle := hlive
    rw [live_eq hes, List.getElem?_eq_none_iff, ← hes.number] at hle
    simp only [hlive]
    rw [eraseAt_of_le hle]
    exact ⟨es, hes, hsorted, rfl⟩
  | some e =>
    obtain ⟨a, b, rfl, rfl⟩ := exists_append_of_live hes hlive
    simp only [hlive]
    refine ⟨a ++ b, BasicMap.eraseAt_spec hes, sorted_erase hsorted, ?_⟩
    classical
    have hperm : (a ++ e :: b).Perm (e :: (a ++ b)) := List.perm_middle
    rw [Multiset.coe_eq_coe.mpr hperm, ← Multiset.cons_coe, Multiset.erase_cons_head]

/-- The key of the last entry is not read after the entry is gone. -/
theorem eraseOwn_spec (h : Kept m s) (hproper : Proper m (.eraseOwn pos)) :
    ∃ e m', m.live pos = some e ∧ m.deref pos = some e ∧
      m.erase e.1 (.entryAt pos) = some (m', (s.filter fun f => f.1 = e.1).card) ∧
        Kept m' (s.filter fun f => f.1 ≠ e.1) := by
  obtain ⟨es, hes, hsorted, rfl⟩ := h
  obtain ⟨hlast, hone⟩ := hproper
  have hlt : pos < es.length := by
    rw [← hes.number, ← hlast]
    exact Nat.lt_succ_self pos
  have hlive : m.live pos = some es[pos] := by
    rw [live_eq hes]
    exact List.getElem?_eq_getElem hlt
  have hderef : m.deref pos = some es[pos] := by
    unfold deref
    rw [if_neg (hes.ne_npos hlt), hes.entry_eq hlt]
  obtain ⟨m', herase, hm'⟩ := erase_spec (r := .entryAt pos) hes hsorted (hone _ hlive) nofun
    (fun a e c hcut hgone => by
      have hlen := hcut.length_eq
      have hpos : pos = a.length := by
        by_contra hne
        unfold KeyRef.erased at hgone
        simp only [if_neg hne] at hgone
        split at hgone <;> cases hgone
      rw [← hes.number, ← hlast, hpos, List.length_singleton] at hlen
      exact List.length_eq_zero_iff.mp (by omega))
  exact ⟨es[pos], m', hlive, hderef, herase, hm'⟩

theorem step_spec {o : Op K V} (h : Kept m s) (hproper : Proper m o) :
    ∃ m' r, step m o = some (m', r) ∧ o.Answers m m' s r ∧ Kept m' (o.effect m s) := by
  cases o with
  | insert x =>
    obtain ⟨m', i, hinsert, hderef, hm'⟩ := insert_spec h hproper x
    refine ⟨m', .iterator i, ?_, ⟨i, rfl, hderef⟩, hm'⟩
    exact congrArg (Option.map _) hinsert
  | insertAt pos x =>
    obtain ⟨m', hinsert, hderef, hm'⟩ := insertAt_spec h hproper
    exact ⟨m', .iterator pos, congrArg (Option.map _) hinsert, ⟨pos, rfl, hderef⟩, hm'⟩
  | equalRange k =>
    obtain ⟨es, hes, hsorted, rfl⟩ := h
    obtain ⟨a, b, c, hcut⟩ := exists_cut hsorted k
    obtain ⟨low, high, hrange, hwalks⟩ := equalRange_spec hes hcut
    refine ⟨m, .range low high, congrArg (Option.map _) hrange, ⟨low, high, b, rfl, hwalks, ?_⟩,
      es, hes, hsorted, rfl⟩
    rw [Multiset.filter_coe, hcut.filter_eq]
  | erase k =>
    obtain ⟨es, hes, hsorted, rfl⟩ := h
    obtain ⟨m', herase, hm'⟩ := erase_spec hes hsorted hproper (r := .value) (by simp)
      (by simp [KeyRef.erased])
    exact ⟨m', _, congrArg (Option.map _) herase, rfl, hm'⟩
  | eraseAt pos => exact ⟨m.eraseAt pos, .none, rfl, rfl, eraseAt_spec h pos⟩
  | eraseOwn pos =>
    obtain ⟨e, m', hlive, hderef, herase, hm'⟩ := eraseOwn_spec h hproper
    refine ⟨m', _, ?_, ⟨e, hlive, rfl⟩, ?_⟩
    · simp only [step, hderef, Option.bind_some, herase, Option.map_some]
    · simp only [Op.effect, hlive]
      exact hm'

theorem reaches_kept (h : Reaches m s) : Kept m s := by
  induction h with
  | start => exact ⟨[], holds_empty, List.Pairwise.nil, rfl⟩
  | step _ _ hproper hstep ih =>
    obtain ⟨m', r, hstep', -, hm'⟩ := step_spec ih hproper
    obtain ⟨rfl, -⟩ := Prod.mk.inj (Option.some.inj (hstep.symm.trans hstep'))
    exact hm'

end Maps

/-- In every state of a run in which no key is erased that several entries have, nor one that is the
key of an entry before the last, and every insertion at a given position keeps the order, the
entries are sorted and those that were inserted and not erased, `equal_range` gives the iterators
between which those of a key are, and the next such operation does what it says. -/
theorem isSortedMultimap [LinearOrder K] {m : BasicMap K V} {s : Multiset (K × V)}
    (h : Reaches m s) : Faithful m s ∧ ∀ o, Valid m o → Proper m o →
      ∃ m' r, step m o = some (m', r) ∧ o.Answers m m' s r ∧ Faithful m' (o.effect m s) := by
  have hkept := reaches_kept h
  refine ⟨hkept.faithful, fun o _ hproper => ?_⟩
  obtain ⟨m', r, hstep, hanswers, hm'⟩ := step_spec hkept hproper
  exact ⟨m', r, hstep, hanswers, hm'.faithful⟩

namespace Sample

theorem isSortedMultimap_inserted : ∃ (m : BasicMap ℕ ℕ) (s : Multiset (ℕ × ℕ)),
    m.theMap = [some (3, 2), some (3, 1)] ∧ Faithful m s ∧ ∀ o, Valid m o → Proper m o →
      ∃ m' r, step m o = some (m', r) ∧ o.Answers m m' s r ∧ Faithful m' (o.effect m s) := by
  have hroom : ∀ n < 2, n < npos := by decide
  refine ⟨_, _, ?_, isSortedMultimap (.step (o := .insert (3, 2)) (.step (o := .insert (3, 1))
    .start trivial (hroom 0 (by decide)) rfl) trivial (hroom 1 (by decide)) rfl)⟩
  rfl

/-- With two entries of a key one is left; the number that is given back is two where they are the
last ones, and one where they are not. -/
theorem not_isSortedMultimap_twice : ∃ m m' : BasicMap ℕ ℕ,
    run [.insert (3, 1), .insert (3, 2)] = some m ∧
      step m (.erase 3) = some (m', .count 2) ∧ m'.live 0 = some (3, 1) ∧
      (∀ s, ¬ Faithful m' ((Op.erase 3).effect m s)) ∧
      ∃ m₁ m₂ : BasicMap ℕ ℕ, run [.insert (3, 1), .insert (3, 2), .insert (4, 1)] = some m₁ ∧
        step m₁ (.erase 3) = some (m₂, .count 1) := by
  refine ⟨_, _, rfl, rfl, rfl, fun s h => ?_, _, _, rfl, rfl⟩
  obtain ⟨es, hes, -, -, hs, -⟩ := h.entries
  have hmem : some (3, 1) ∈ es.map some := hes ▸ List.mem_singleton_self (some (3, 1))
  obtain ⟨e, he, heq⟩ := List.mem_map.mp hmem
  obtain rfl := Option.some.inj heq
  have hleft : (3, 1) ∈ (Op.erase 3).effect _ s := hs ▸ Multiset.mem_coe.mpr he
  exact (Multiset.mem_filter.mp hleft).2 rfl

end Sample

end MultiMaps
end Haggle
