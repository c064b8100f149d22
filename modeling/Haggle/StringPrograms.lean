import Haggle.StringWrites

/-!
# Programs with strings

Any number of strings that are made, assigned, appended to, shortened and emptied. The abstract
state has the characters of each of them. What an operation may rely on depends on what was in the
buffer before it.
-/

namespace Haggle
namespace StringPrograms

open StringBuffer

section Model

/-- The strings by their names. -/
abbrev World := ℕ → Option StringBuffer

/-- Texts are pointers into memory, which may be null. -/
inductive Op
  | new (l : ℕ) (m : Option Bytes)
  | newUpTo (l : ℕ) (m : Option Bytes) (n : ℕ)
  | newCopy (l k : ℕ)
  | newChar (l : ℕ) (c : UInt8)
  | assign (l k : ℕ)
  | assignText (l : ℕ) (p : Option Pointer)
  | assignChar (l : ℕ) (c : UInt8)
  | append (l k : ℕ)
  | appendRange (l k pos n : ℕ)
  | appendUpTo (l : ℕ) (p : Option Pointer) (n : ℕ)
  | appendText (l : ℕ) (p : Option Pointer)
  | appendChars (l n : ℕ) (c : UInt8)
  | erase (l pos n : ℕ)
  | clear (l : ℕ)

def World.on (w : World) (l : ℕ) (f : StringBuffer → Option StringBuffer) : Option World := do
  let t ← w l
  let t ← f t
  some (Function.update w l (some t))

def step (w : World) : Op → Option World
  | .new l m => (new m).map fun t => Function.update w l (some t)
  | .newUpTo l m n => (newUpTo m n).map fun t => Function.update w l (some t)
  | .newCopy l k => (w k).bind fun str => (copy str).map fun t => Function.update w l (some t)
  | .newChar l c => (newChar c).map fun t => Function.update w l (some t)
  | .assign l k => (w k).bind fun str => w.on l fun t => t.assign (l = k) str
  | .assignText l p => w.on l fun t => t.assignText p
  | .assignChar l c => w.on l fun t => t.assignChar c
  | .append l k => (w k).bind fun str => w.on l fun t => t.append (l = k) str
  | .appendRange l k pos n => (w k).bind fun str => w.on l fun t => t.appendRange (l = k) str pos n
  | .appendUpTo l p n => w.on l fun t => t.appendUpTo p n
  | .appendText l p => w.on l fun t => t.appendText p
  | .appendChars l n c => w.on l fun t => t.appendChars n c
  | .erase l pos n => w.on l fun t => t.erase pos n
  | .clear l => w.on l StringBuffer.clear

def run (w : World) (ops : List Op) : Option World := ops.foldlM step w

end Model

section Meaning

/-- The characters of the strings. -/
abbrev Texts := ℕ → Option Bytes

def Texts.on (s : Texts) (l : ℕ) (f : Bytes → Bytes) : Texts := Function.update s l ((s l).map f)

/-- The characters after an operation. A range that is not inside the source appends nothing. -/
def Op.effect (s : Texts) : Op → Texts
  | .new l m => Function.update s l (some (m.elim [] cStr))
  | .newUpTo l m n => Function.update s l (some ((m.elim [] cStr).take n))
  | .newCopy l k | .assign l k => Function.update s l (s k)
  | .newChar l c | .assignChar l c => Function.update s l (some (if c = 0 then [] else [c]))
  | .assignText l p => s.on l fun b => p.elim b (·.chars b)
  | .append l k => s.on l fun b => b ++ (s k).getD []
  | .appendRange l k pos n => s.on l fun b =>
    if pos + n ≤ ((s k).getD []).length then b ++ (((s k).getD []).drop pos).take n else b
  | .appendUpTo l p n => s.on l fun b =>
    p.elim b fun p => if n ≤ (p.chars b).length then b ++ (p.chars b).take n else b
  | .appendText l p => s.on l fun b => p.elim b fun p => b ++ p.chars b
  | .appendChars l n c => s.on l fun b => b ++ List.replicate n c
  | .erase l pos n => s.on l fun b => b.take pos ++ b.drop (pos + n)
  | .clear l => s.on l fun _ => []

/-- Every string is the representation of its characters. -/
def Represented (w : World) (s : Texts) : Prop :=
  ∀ l, w l = none ∧ s l = none ∨ ∃ t b, w l = some t ∧ s l = some b ∧ t.Represents b

def IsText (m : Bytes) : Prop := 0 ∈ m ∧ m.length < 2 ^ 64

/-- The strings of an operation are there, the texts are in memory and the numbers are sizes. -/
def Valid (w : World) : Op → Prop
  | .new l m => w l = none ∧ ∀ m' ∈ m, IsText m'
  | .newUpTo l m n => w l = none ∧ (∀ m' ∈ m, IsText m') ∧ n < 2 ^ 64
  | .newCopy l k => w l = none ∧ (w k).isSome
  | .newChar l _ => w l = none
  | .assign l k | .append l k => (w l).isSome ∧ (w k).isSome
  | .assignChar l _ | .clear l => (w l).isSome
  | .assignText l p | .appendText l p => ∃ t, w l = some t ∧ ∀ p' ∈ p, p'.Valid t
  | .appendRange l k pos n => (w l).isSome ∧ (w k).isSome ∧ pos < 2 ^ 64 ∧ n < 2 ^ 64
  | .appendUpTo l p n => (∃ t, w l = some t ∧ ∀ p' ∈ p, p'.Valid t) ∧ n < 2 ^ 64
  | .appendChars l n c => (w l).isSome ∧ n < 2 ^ 64 ∧ c ≠ 0
  | .erase l pos n => (w l).isSome ∧ pos < 2 ^ 64 ∧ n < 2 ^ 64

/-- No string is copied to itself or appended to itself unless it is empty, and no text is copied to
where it is, or from a buffer that has to grow. Sums are sizes. What does not write a terminator
finds a zero at its place, and no range ends exactly where its source does. What is erased is not
shorter than what comes behind it. -/
def Proper (w : World) : Op → Prop
  | .assign l k => l ≠ k
  | .assignText l p => ∀ t ∈ w l, ∀ pos, p = some (.own pos) →
    t.allocLen = 0 ∨ t.slen + 1 ≤ 2 * pos
  | .append l k => ∀ t ∈ w l, ∀ str ∈ w k,
    str.slen = 0 ∨ l ≠ k ∧ t.slen + str.slen + 1 < 2 ^ 64
  | .appendRange l k pos n => ∀ t ∈ w l, ∀ str ∈ w k, n = 0 ∨ str.slen = 0 ∨
    str.slen ≤ size (pos + n) ∧ pos + n ≠ str.slen ∨
      pos + n < str.slen ∧ t.slen + n + 1 < 2 ^ 64 ∧ t.ZeroBehind n
  | .appendUpTo l p n => ∀ t ∈ w l, ∀ p' ∈ p, n = 0 ∨ (p'.text t).length < n ∨
    t.slen + n + 1 < 2 ^ 64 ∧ t.ZeroBehind n ∧ p'.Stays t (t.slen + n + 1)
  | .appendText l p => ∀ t ∈ w l, ∀ p' ∈ p, p'.text t = [] ∨
    t.slen + (p'.text t).length + 1 < 2 ^ 64 ∧ ∃ m, p' = .elsewhere m
  | .appendChars l n _ => ∀ t ∈ w l, t.slen + n + 1 < 2 ^ 64
  | .erase l pos n => ∀ t ∈ w l, pos = 0 ∧ n = npos ∨ t.slen ≤ pos ∨ n = npos ∨
    t.slen < size (pos + n) ∨ pos + n < 2 ^ 64 ∧ t.slen ≤ pos + n + n
  | _ => True

inductive Reaches : World → Texts → Prop
  | start : Reaches (fun _ => none) fun _ => none
  | step {w s o w'} : Reaches w s → Valid w o → Proper w o → step w o = some w' →
      Reaches w' (o.effect s)

end Meaning

section Steps

variable {w w' : World} {s : Texts} {o : Op} {l k : ℕ} {t str : StringBuffer} {b c : Bytes}
  {f : StringBuffer → Option StringBuffer} {g : Bytes → Bytes}

theorem Represented.exists_text (h : Represented w s) (hl : w l = some t) :
    ∃ b, s l = some b ∧ t.Represents b := by
  obtain ⟨hnone, -⟩ | ⟨t', b, ht, hb, hrep⟩ := h l
  · rw [hl] at hnone
    cases hnone
  · obtain rfl := Option.some.inj (hl.symm.trans ht)
    exact ⟨b, hb, hrep⟩

theorem Represented.update (h : Represented w s) (l : ℕ) (ht : t.Represents b) :
    Represented (Function.update w l (some t)) (Function.update s l (some b)) := by
  intro k
  by_cases hk : k = l
  · subst hk
    rw [Function.update_self, Function.update_self]
    exact .inr ⟨t, b, rfl, rfl, ht⟩
  · rw [Function.update_of_ne hk, Function.update_of_ne hk]
    exact h k

/-- A string is made. -/
theorem make_spec {r : Option StringBuffer} (h : Represented w s) (l : ℕ)
    (hr : ∃ t, r = some t ∧ t.Represents b) :
    ∃ w', (r.map fun t => Function.update w l (some t)) = some w' ∧
      Represented w' (Function.update s l (some b)) := by
  obtain ⟨t, rfl, hrep⟩ := hr
  exact ⟨_, rfl, h.update l hrep⟩

/-- A string is changed. -/
theorem on_spec (h : Represented w s) (hl : w l = some t)
    (hf : ∀ b, s l = some b → t.Represents b → ∃ t', f t = some t' ∧ t'.Represents (g b)) :
    ∃ w', w.on l f = some w' ∧ Represented w' (s.on l g) := by
  obtain ⟨b, hb, hrep⟩ := h.exists_text hl
  obtain ⟨t', ht', hrep'⟩ := hf b hb hrep
  refine ⟨Function.update w l (some t'), ?_, ?_⟩
  · simp only [World.on, hl, ht', Option.bind_eq_bind, Option.bind_some]
  · unfold Texts.on
    rw [hb, Option.map_some]
    exact h.update l hrep'

theorem elim_text {m : Option Bytes} (hm : ∀ m' ∈ m, IsText m') :
    ∃ t, new m = some t ∧ t.Represents (m.elim [] cStr) := by
  cases m with
  | none => exact ⟨shared, rfl, represents_shared⟩
  | some m => exact new_eq (hm m rfl).1 (hm m rfl).2

theorem step_spec (h : Represented w s) (hvalid : Valid w o) (hproper : Proper w o) :
    ∃ w', step w o = some w' ∧ Represented w' (o.effect s) := by
  cases o with
  | new l m => exact make_spec h l (elim_text hvalid.2)
  | newUpTo l m n =>
    refine make_spec h l ?_
    cases m with
    | none => exact ⟨shared, rfl, by rw [Option.elim_none, List.take_nil]; exact represents_shared⟩
    | some m => exact newUpTo_eq (hvalid.2.1 m rfl).1 (hvalid.2.1 m rfl).2 n
  | newCopy l k =>
    obtain ⟨str, hk⟩ := Option.isSome_iff_exists.mp hvalid.2
    obtain ⟨c, hc, hstr⟩ := h.exists_text hk
    simp only [step, Op.effect, hk, hc, Option.bind_some]
    exact make_spec h l (copy_eq hstr)
  | newChar l a => exact make_spec h l (assignChar_eq represents_shared a)
  | assign l k =>
    obtain ⟨t, hl⟩ := Option.isSome_iff_exists.mp hvalid.1
    obtain ⟨str, hk⟩ := Option.isSome_iff_exists.mp hvalid.2
    obtain ⟨c, hc, hstr⟩ := h.exists_text hk
    have hspec := on_spec (f := fun t => t.assign false str) (g := fun _ => c) h hl
      fun b _ hrep => assign_eq hrep hstr
    obtain ⟨b, hb, -⟩ := h.exists_text hl
    have heffect : (Op.assign l k).effect s = s.on l fun _ => c := by
      simp only [Op.effect, Texts.on, hb, hc, Option.map_some]
    rw [heffect]
    simp only [step, hk, Option.bind_some, decide_eq_false hproper]
    exact hspec
  | assignText l p =>
    obtain ⟨t, hl, hp⟩ := hvalid
    refine on_spec h hl fun b _ hrep => ?_
    cases p with
    | none => exact ⟨t, rfl, hrep⟩
    | some p => exact assignText_eq hrep (hp p rfl) fun pos hpos => hproper t hl pos (hpos ▸ rfl)
  | assignChar l a =>
    obtain ⟨t, hl⟩ := Option.isSome_iff_exists.mp hvalid
    obtain ⟨b, hb, -⟩ := h.exists_text hl
    have heffect : (Op.assignChar l a).effect s = s.on l fun _ => if a = 0 then [] else [a] := by
      simp only [Op.effect, Texts.on, hb, Option.map_some]
    rw [heffect]
    exact on_spec h hl fun b _ hrep => assignChar_eq hrep a
  | append l k =>
    obtain ⟨t, hl⟩ := Option.isSome_iff_exists.mp hvalid.1
    obtain ⟨str, hk⟩ := Option.isSome_iff_exists.mp hvalid.2
    obtain ⟨c, hc, hstr⟩ := h.exists_text hk
    simp only [step, Op.effect, hk, hc, Option.bind_some, Option.getD_some]
    refine on_spec h hl fun b _ hrep => ?_
    obtain hzero | ⟨hne, hlen⟩ := hproper t hl str hk
    · obtain rfl : c = [] := List.length_eq_zero_iff.mp (hstr.slen.symm.trans hzero)
      rw [List.append_nil]
      exact ⟨t, if_pos hzero, hrep⟩
    · rw [decide_eq_false hne]
      exact append_eq hrep hstr hlen
  | appendRange l k pos n =>
    obtain ⟨hl, hk, -, hn⟩ := hvalid
    obtain ⟨t, hl⟩ := Option.isSome_iff_exists.mp hl
    obtain ⟨str, hk⟩ := Option.isSome_iff_exists.mp hk
    obtain ⟨c, hc, hstr⟩ := h.exists_text hk
    simp only [step, Op.effect, hk, hc, Option.bind_some, Option.getD_some]
    refine on_spec h hl fun b _ hrep => ?_
    refine appendRange_eq hrep hstr (fun hself => ?_) (hproper t hl str hk) hn
    obtain rfl : l = k := of_decide_eq_true hself
    exact Option.some.inj (hk.symm.trans hl)
  | appendUpTo l p n =>
    obtain ⟨⟨t, hl, hp⟩, hn⟩ := hvalid
    refine on_spec h hl fun b _ hrep => ?_
    cases p with
    | none => exact ⟨t, rfl, hrep⟩
    | some p => exact appendUpTo_eq hrep (hp p rfl) (text_eq hrep (hp p rfl) ▸ hproper t hl p rfl)
  | appendText l p =>
    obtain ⟨t, hl, hp⟩ := hvalid
    refine on_spec h hl fun b _ hrep => ?_
    cases p with
    | none => exact ⟨t, rfl, hrep⟩
    | some p => exact appendText_eq hrep (hp p rfl) (text_eq hrep (hp p rfl) ▸ hproper t hl p rfl)
  | appendChars l n a =>
    obtain ⟨hl, hn, ha⟩ := hvalid
    obtain ⟨t, hl⟩ := Option.isSome_iff_exists.mp hl
    exact on_spec h hl fun b _ hrep => appendChars_eq hrep ha (hproper t hl)
  | erase l pos n =>
    obtain ⟨t, hl⟩ := Option.isSome_iff_exists.mp hvalid.1
    exact on_spec h hl fun b _ hrep => erase_eq hrep (hproper t hl)
  | clear l =>
    obtain ⟨t, hl⟩ := Option.isSome_iff_exists.mp hvalid
    exact on_spec h hl fun b _ hrep => clear_eq hrep

theorem reaches_represented (h : Reaches w s) : Represented w s := by
  induction h with
  | start => exact fun _ => .inl ⟨rfl, rfl⟩
  | step _ hvalid hproper hstep ih =>
    obtain ⟨w', hw', hrep⟩ := step_spec ih hvalid hproper
    obtain rfl := Option.some.inj (hstep.symm.trans hw')
    exact hrep

end Steps

/-- In every state of a run whose steps are of this kind each string is the representation of its
characters, and each further such step appends what it is asked to and keeps it so. -/
theorem isString {w : World} {s : Texts} (h : Reaches w s) :
    Represented w s ∧ ∀ o, Valid w o → Proper w o →
      ∃ w', step w o = some w' ∧ Represented w' (o.effect s) :=
  have hrep := reaches_represented h
  ⟨hrep, fun _ hvalid hproper => step_spec hrep hvalid hproper⟩

namespace Sample

/-- A text that ends with zero. -/
def text (b : Bytes) : Pointer := .elsewhere (b ++ [0])

theorem isString_appended : ∃ (w : World) (s : Texts), w 0 = some ⟨[97, 98, 99, 0], 4, 3⟩ ∧
    Represented w s ∧ ∀ o, Valid w o → Proper w o →
      ∃ w', step w o = some w' ∧ Represented w' (o.effect s) := by
  have htext : ∀ b : Bytes, b.length < 8 → IsText (b ++ [0]) := by
    intro b hb
    refine ⟨by simp, ?_⟩
    rw [List.length_append, List.length_singleton]
    omega
  refine ⟨_, _, ?_, isString (.step (o := .appendText 0 (some (text [98, 99])))
    (.step (o := .new 0 (some [97, 0])) .start ⟨rfl, ?_⟩ trivial rfl) ⟨_, rfl, ?_⟩ ?_ rfl)⟩
  · rfl
  · rintro m ⟨⟩
    exact htext [97] (by decide)
  · rintro p ⟨⟩
    exact htext [98, 99] (by decide)
  · rintro t ⟨⟩ p ⟨⟩
    exact .inr ⟨by decide, _, rfl⟩

/-- A string that was emptied keeps its old characters, and what two new ones are put before is not
a terminator. A string cannot be appended to itself, and the end of one is not appended. -/
theorem not_isString : (∃ (w : World) (t : StringBuffer), run (fun _ => none)
      [.new 0 (some [97, 98, 99, 0]), .clear 0, .appendUpTo 0 (some (text [120, 121])) 2] = some w ∧
      w 0 = some t ∧ ∀ b, ¬ t.Represents b) ∧
    run (fun _ => none) [.new 0 (some [97, 0]), .append 0 0] = none ∧
    ∃ w : World, run (fun _ => none) [.new 0 (some [97, 0]), .new 1 (some [98, 99, 0]),
      .appendRange 0 1 1 1] = some w ∧ w 0 = some ⟨[97, 0], 2, 1⟩ := by
  refine ⟨⟨_, ⟨[120, 121, 99, 0], 4, 2⟩, rfl, rfl, fun b h => ?_⟩, rfl, _, rfl, rfl⟩
  have hlen : some 3 = some b.length := h.strlen_eq
  have hslen : 2 = b.length := h.slen
  have hlen := Option.some.inj hlen
  omega

end Sample

end StringPrograms
end Haggle
