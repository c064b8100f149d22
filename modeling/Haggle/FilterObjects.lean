import Haggle.FilterCounting

/-!
# The number of objects in a counting filter

A counting filter keeps the number of its objects. `counting_bloomfilter_operation` counts an object
that is added in front of the loop over the salts and once more behind it, and an object that is
removed behind the loop only.
-/

namespace Haggle

open ByteOrder CountingFilter

namespace FilterBlock

/-- `counting_bloomfilter_get_n` and `bloomfilter_get_n`. -/
def numObjects {w : ℕ} (b : FilterBlock w) : ℕ := b.n.toNat

/-- A filter as `counting_bloomfilter_new` makes it. -/
structure New (b : FilterBlock 16) : Prop extends b.Counting where
  n : b.n = 0
  empty : ∀ bin ∈ b.bins, bin = 0

variable {sha1 : Bytes → Digest} {e : Endian} {b b' : FilterBlock 16} {key : Bytes}

theorem n_countingBloomfilterAdd (h : countingBloomfilterAdd sha1 e b key = some b') :
    b'.n = b.n + 2 := by
  rw [countingBloomfilterAdd, Option.bind_eq_bind, Option.bind_eq_some_iff] at h
  obtain ⟨bins, -, hb'⟩ := h
  rw [← Option.some.inj hb']

end FilterBlock

section Runs

def CountingOp.isAdd : CountingOp → Bool
  | .add _ => true
  | .remove _ => false

def adds (ops : List CountingOp) : ℕ := ops.countP (·.isAdd)

def removes (ops : List CountingOp) : ℕ := ops.countP (!·.isAdd)

variable {sha1 : Bytes → Digest} {e : Endian} {b : FilterBlock 16}

variable (sha1 e b) in
/-- After every step the filter has as many objects as were added and not removed. -/
def Numbered (ops : List CountingOp) : Prop :=
  ∀ pre, pre <+: ops → ∃ b', Trace.run (countingStep sha1 e) (some b) pre = some b' ∧
    b'.numObjects + removes pre = adds pre

/-- The number of objects is right as long as no operation has been executed. -/
theorem numbered_iff (hb : b.New) {ops : List CountingOp} (hops : Balanced ops) :
    Numbered sha1 e b ops ↔ ops = [] := by
  constructor
  · intro h
    cases ops with
    | nil => rfl
    | cons op ops =>
      cases op with
      | remove key => exact absurd (hops [] key ops rfl) (lt_irrefl 0)
      | add key =>
        obtain ⟨b', hrun, hnum⟩ := h [.add key] ⟨ops, rfl⟩
        have hn := FilterBlock.n_countingBloomfilterAdd hrun
        rw [FilterBlock.numObjects, hn, hb.n] at hnum
        rw [removes, adds, List.countP_singleton, List.countP_singleton] at hnum
        exact absurd hnum (by simp [CountingOp.isAdd])
  · rintro rfl pre hpre
    rw [List.prefix_nil] at hpre
    subst hpre
    exact ⟨b, rfl, by rw [FilterBlock.numObjects, hb.n]; rfl⟩

end Runs

namespace Sample

theorem new_emptyBlock : emptyBlock.New where
  toCounting := counting_emptyBlock
  n := rfl
  empty := fun _ h => List.eq_of_mem_replicate h

theorem numbered_nothing : Numbered firstBytes .little emptyBlock [] :=
  (numbered_iff new_emptyBlock (fun _ _ _ h => by simp at h)).mpr rfl

/-- One object is added, and the filter says that it has two. -/
theorem not_numbered_once : emptyBlock.New ∧ Balanced [.add [1]] ∧
    ¬ Numbered firstBytes .little emptyBlock [.add [1]] := by
  refine ⟨new_emptyBlock, ?_, fun h => ?_⟩
  · intro pre key post heq
    cases pre with
    | nil => cases heq
    | cons a pre => cases pre <;> cases heq
  · obtain ⟨b', hrun, hnum⟩ := h [.add [1]] List.prefix_rfl
    have hb' : countingBloomfilterAdd firstBytes .little emptyBlock [1] =
        some { emptyBlock with n := 2, bins := [0, 1, 0, 0, 0, 0, 0, 0] } := by decide
    obtain rfl := Option.some.inj (hrun.symm.trans hb')
    exact absurd hnum (by decide)

end Sample

end Haggle
