import Mathlib.Data.List.Basic
import Mathlib.Data.List.Count
import Mathlib.Data.List.Flatten

/-!
# Pools of threads

A thread has a stack of frames, and a step of it replaces the topmost one. What the frames of all
threads hold is counted: such a count changes by what the frames that are put and taken hold.
-/

/-- The stacks of the threads, with the topmost frame first. -/
abbrev Pool (F : Type) := List (List F)

namespace Pool

variable {F : Type}

def top (p : Pool F) (i : ℕ) : Option F := p[i]?.bind List.head?

def replace (i : ℕ) (fs : List F) (p : Pool F) : Pool F := p.modify i fun l => fs ++ l.tail

def push (i : ℕ) (fs : List F) (p : Pool F) : Pool F := p.modify i (fs ++ ·)

def frames (p : Pool F) : List F := p.flatten

def idle (n : ℕ) : Pool F := List.replicate n []

variable {p : Pool F} {i : ℕ} {f : F} {fs : List F} {q : F → Bool}

theorem top_eq_some : p.top i = some f ↔ ∃ l, p[i]? = some (f :: l) := by
  rw [top, Option.bind_eq_some_iff]
  constructor
  · rintro ⟨l, hl, hf⟩
    cases l with
    | nil => cases hf
    | cons g l =>
      obtain rfl := Option.some.inj hf
      exact ⟨l, hl⟩
  · rintro ⟨l, hl⟩
    exact ⟨f :: l, hl, rfl⟩

theorem countP_modify {l l' : List F} {g : List F → List F} (h : p[i]? = some l) (hg : g l = l') :
    (frames (p.modify i g)).countP q + l.countP q = (frames p).countP q + l'.countP q := by
  induction p generalizing i with
  | nil => cases h
  | cons k p ih =>
    cases i with
    | zero =>
      obtain rfl := Option.some.inj h
      subst hg
      simp only [List.modify_zero_cons, frames, List.flatten_cons, List.countP_append]
      omega
    | succ i =>
      have hrest := ih h
      simp only [List.modify_succ_cons, frames, List.flatten_cons, List.countP_append] at hrest ⊢
      omega

/-- The topmost frame of a thread is replaced. -/
theorem countP_replace (h : p.top i = some f) (fs : List F) (q : F → Bool) :
    (frames (p.replace i fs)).countP q + (if q f then 1 else 0) =
      (frames p).countP q + fs.countP q := by
  obtain ⟨l, hl⟩ := top_eq_some.mp h
  have hcount := countP_modify (q := q) (g := fun l => fs ++ l.tail) hl rfl
  rw [List.tail_cons, List.countP_append, List.countP_cons] at hcount
  rw [replace]
  omega

theorem count_replace [DecidableEq F] (h : p.top i = some f) (fs : List F) (a : F) :
    (frames (p.replace i fs)).count a + (if f = a then 1 else 0) =
      (frames p).count a + fs.count a := by
  have hcount := countP_replace h fs (· == a)
  simp only [beq_iff_eq] at hcount
  exact hcount

theorem countP_push (h : i < p.length) (fs : List F) (q : F → Bool) :
    (frames (p.push i fs)).countP q = (frames p).countP q + fs.countP q := by
  have hcount := countP_modify (q := q) (g := (fs ++ ·)) (List.getElem?_eq_getElem h) rfl
  rw [List.countP_append] at hcount
  rw [push]
  omega

theorem count_push [DecidableEq F] (h : i < p.length) (fs : List F) (a : F) :
    (frames (p.push i fs)).count a = (frames p).count a + fs.count a :=
  countP_push h fs (· == a)

theorem mem_of_top (h : p.top i = some f) : f ∈ p.frames := by
  obtain ⟨l, hl⟩ := top_eq_some.mp h
  exact List.mem_flatten.mpr ⟨f :: l, List.mem_of_getElem? hl, List.mem_cons_self⟩

/-- Behind a step, a stack is one from before, or that of the thread that has taken the step. -/
theorem mem_replace {l : List F} (h : p.top i = some f) (hl : l ∈ p.replace i fs) :
    l ∈ p ∨ ∃ k, f :: k ∈ p ∧ l = fs ++ k := by
  obtain ⟨k, hk⟩ := top_eq_some.mp h
  obtain ⟨j, hj⟩ := List.mem_iff_getElem?.mp hl
  rw [replace, List.getElem?_modify] at hj
  obtain ⟨l', hl', rfl⟩ := Option.map_eq_some_iff.mp hj
  by_cases hij : i = j
  · subst hij
    rw [hk] at hl'
    obtain rfl := Option.some.inj hl'
    rw [if_pos rfl]
    exact Or.inr ⟨k, List.mem_of_getElem? hk, rfl⟩
  · rw [if_neg hij]
    exact Or.inl (List.mem_of_getElem? hl')

theorem mem_push {l : List F} (hl : l ∈ p.push i fs) : l ∈ p ∨ ∃ k ∈ p, l = fs ++ k := by
  obtain ⟨j, hj⟩ := List.mem_iff_getElem?.mp hl
  rw [push, List.getElem?_modify] at hj
  obtain ⟨l', hl', rfl⟩ := Option.map_eq_some_iff.mp hj
  by_cases hij : i = j
  · rw [if_pos hij]
    exact Or.inr ⟨l', List.mem_of_getElem? hl', rfl⟩
  · rw [if_neg hij]
    exact Or.inl (List.mem_of_getElem? hl')

theorem frames_idle (n : ℕ) : frames (idle n : Pool F) = [] := by
  rw [frames, idle, List.flatten_eq_nil_iff]
  exact fun l hl => List.eq_of_mem_replicate hl

end Pool
