import Haggle.Base64

/-!
# Decoding into a buffer

`base64_decode` writes into the memory that it is given. Where a group cannot be read the bytes that
were written for it stay, although the output ends before them, and what is behind the output keeps
its old contents.
-/

namespace Haggle
namespace Base64

/-- The buffer, where the next byte goes, and how many more there is room for. -/
structure Output where
  buf : Bytes
  pos : ℕ
  left : ℕ
deriving DecidableEq

namespace Output

def write (o : Output) (w : Bytes) : Output :=
  let v := w.take o.left
  ⟨o.buf.take o.pos ++ (v ++ o.buf.drop (o.pos + v.length)), o.pos + v.length, o.left - v.length⟩

/-- `out` and `outleft` are restored, the memory is not. -/
def restore (o : Output) (w : Bytes) : Output := { o with buf := (o.write w).buf }

def Fits (o : Output) : Prop := o.pos + o.left ≤ o.buf.length

/-- `o'` is the output `o` after `w`, as far as there was room for it. -/
structure Wrote (o : Output) (w : Bytes) (o' : Output) : Prop where
  length : o'.buf.length = o.buf.length
  pos : o'.pos = o.pos + min o.left w.length
  left : o'.left = o.left - w.length
  bytes : o'.buf.take o'.pos = o.buf.take o.pos ++ w.take o.left

variable {o o' o'' : Output} {w v : Bytes}

theorem Wrote.refl (o : Output) : Wrote o [] o := ⟨rfl, by simp, by simp, by simp⟩

theorem Wrote.fits (h : Wrote o w o') (ho : o.Fits) : o'.Fits := by
  unfold Fits at ho ⊢
  rw [h.length, h.pos, h.left]
  omega

theorem length_write (ho : o.Fits) (w : Bytes) : (o.write w).buf.length = o.buf.length := by
  unfold Fits at ho
  simp only [write, List.length_append, List.length_take, List.length_drop]
  omega

theorem wrote_write (ho : o.Fits) (w : Bytes) : Wrote o w (o.write w) := by
  refine ⟨length_write ho w, ?_, ?_, ?_⟩
  · simp [write]
  · simp only [write, List.length_take]
    omega
  · have hpos : (o.buf.take o.pos).length = o.pos := by
      unfold Fits at ho
      rw [List.length_take]
      omega
    simp only [write]
    rw [← List.append_assoc, List.take_left']
    rw [List.length_append, hpos]

theorem wrote_restore (ho : o.Fits) (w : Bytes) : Wrote o [] (o.restore w) := by
  refine ⟨length_write ho w, by simp [restore], by simp [restore], ?_⟩
  have hpos : (o.buf.take o.pos).length = o.pos := by
    unfold Fits at ho
    rw [List.length_take]
    omega
  simp only [restore, write, List.take_nil, List.append_nil]
  exact List.take_left' hpos

theorem Wrote.trans (h : Wrote o w o') (h' : Wrote o' v o'') : Wrote o (w ++ v) o'' := by
  refine ⟨h'.length.trans h.length, ?_, ?_, ?_⟩
  · rw [h'.pos, h.pos, h.left, List.length_append]
    omega
  · rw [h'.left, h.left, List.length_append]
    omega
  · rw [h'.bytes, h.bytes, h.left, List.take_append, List.append_assoc]

end Output

/-- The inner loop of `base64_decode`. -/
def decodeGroupsInto : ℕ → Output → Bytes → Bytes × Output
  | 0, o, inp => (inp, o)
  | fuel + 1, o, inp =>
    match decode4 inp with
    | (true, w) => decodeGroupsInto fuel (o.write w) (inp.drop 4)
    | (false, w) => (inp, o.restore w)

/-- The outer loop, as `decodeLoop` describes it. -/
def decodeLoopInto : ℕ → Bool → Output → Bytes → Bool × Output
  | 0, _, o, inp => (decide (inp = []), o)
  | fuel + 1, full, o, inp =>
    let g := if full then (inp, o) else decodeGroupsInto inp.length o inp
    match g.1 with
    | [] => (true, g.2)
    | c :: l =>
      if c = 10 then decodeLoopInto fuel full g.2 l
      else
        let plain := decide (4 ≤ (c :: l).length) && decide (10 ∉ (c :: l).take 4)
        let q := if plain then ((c :: l).take 4, (c :: l).drop 4) else get4 4 (c :: l)
        if q.1.length < 4 then (true, g.2)
        else
          match decode4 q.1 with
          | (false, w) => (false, g.2.write w)
          | (true, w) => decodeLoopInto fuel (!plain) (g.2.write w) q.2

/-- `base64_decode` into `out`: whether the text was valid, what the memory holds then, and the
length that is written back. -/
def decodeInto (inp out : Bytes) (outlen : ℕ) : Bool × Bytes × ℕ :=
  let r := decodeLoopInto (inp.length + 1) false ⟨out, 0, outlen⟩ inp
  (r.1, r.2.buf, outlen - r.2.left)

open Output

theorem decodeGroupsInto_spec (fuel : ℕ) {o : Output} (ho : o.Fits) (inp : Bytes) :
    (decodeGroupsInto fuel o inp).1 = (decodeGroups fuel inp).1 ∧
      Wrote o (decodeGroups fuel inp).2 (decodeGroupsInto fuel o inp).2 := by
  induction fuel generalizing o inp with
  | zero => exact ⟨rfl, .refl o⟩
  | succ fuel ih =>
    unfold decodeGroupsInto decodeGroups
    obtain ⟨b, w⟩ := decode4 inp
    cases b with
    | false => exact ⟨rfl, wrote_restore ho w⟩
    | true =>
      have hw := wrote_write ho w
      obtain ⟨hrest, hwrote⟩ := ih (hw.fits ho) (inp.drop 4)
      exact ⟨hrest, hw.trans hwrote⟩

/-- The memory gets what the decoder puts out. -/
theorem decodeLoopInto_spec (fuel : ℕ) (full : Bool) {o : Output} (ho : o.Fits) (inp : Bytes) :
    (decodeLoopInto fuel full o inp).1 = (decodeLoop fuel full inp).1 ∧
      Wrote o (decodeLoop fuel full inp).2 (decodeLoopInto fuel full o inp).2 := by
  induction fuel generalizing full o inp with
  | zero => exact ⟨rfl, .refl o⟩
  | succ fuel ih =>
    unfold decodeLoopInto decodeLoop
    have hg : (if full then (inp, o) else decodeGroupsInto inp.length o inp).1 =
        (if full then (inp, []) else decodeGroups inp.length inp).1 ∧
        Wrote o (if full then (inp, []) else decodeGroups inp.length inp).2
          (if full then (inp, o) else decodeGroupsInto inp.length o inp).2 := by
      cases full with
      | true => exact ⟨rfl, .refl o⟩
      | false => exact decodeGroupsInto_spec inp.length ho inp
    obtain ⟨hinp, hwrote⟩ := hg
    have hfits := hwrote.fits ho
    dsimp only
    rw [hinp]
    cases (if full then (inp, []) else decodeGroups inp.length inp).1 with
    | nil => exact ⟨rfl, hwrote⟩
    | cons c l =>
      dsimp only
      by_cases hc : c = 10
      · rw [if_pos hc, if_pos hc]
        obtain ⟨hok, hrest⟩ := ih full hfits l
        exact ⟨hok, hwrote.trans hrest⟩
      · rw [if_neg hc, if_neg hc]
        generalize (decide (4 ≤ (c :: l).length) && decide (10 ∉ (c :: l).take 4)) = plain
        generalize (if plain = true then ((c :: l).take 4, (c :: l).drop 4)
          else get4 4 (c :: l)) = q
        by_cases hshort : q.1.length < 4
        · rw [if_pos hshort, if_pos hshort]
          exact ⟨rfl, hwrote⟩
        · rw [if_neg hshort, if_neg hshort]
          obtain ⟨b, w⟩ := decode4 q.1
          have hw := hwrote.trans (wrote_write hfits w)
          cases b with
          | false => exact ⟨rfl, hw⟩
          | true =>
            obtain ⟨hok, hrest⟩ := ih (!plain) (hw.fits ho) q.2
            refine ⟨hok, ?_⟩
            dsimp only
            rw [← List.append_assoc]
            exact hw.trans hrest

/-- The start of the memory holds what `decode` returns, and as much of it as the length says. -/
theorem decodeInto_spec (inp : Bytes) {out : Bytes} {outlen : ℕ} (h : outlen ≤ out.length) :
    (decodeInto inp out outlen).1 = (decode inp outlen).1 ∧
      (decodeInto inp out outlen).2.1.length = out.length ∧
      (decodeInto inp out outlen).2.2 = (decode inp outlen).2.length ∧
      (decodeInto inp out outlen).2.1.take (decodeInto inp out outlen).2.2 =
        (decode inp outlen).2 := by
  have hfits : Fits ⟨out, 0, outlen⟩ := by simpa [Fits] using h
  obtain ⟨hok, hwrote⟩ := decodeLoopInto_spec (inp.length + 1) false hfits inp
  have hlen : (decodeInto inp out outlen).2.2 = (decode inp outlen).2.length := by
    simp only [decodeInto, decode, hwrote.left, List.length_take]
    omega
  refine ⟨hok, hwrote.length, hlen, ?_⟩
  have hpos : (decodeInto inp out outlen).2.2 =
      (decodeLoopInto (inp.length + 1) false ⟨out, 0, outlen⟩ inp).2.pos := by
    simp only [decodeInto, hwrote.pos, hwrote.left]
    omega
  rw [hpos]
  simpa [decodeInto, decode] using hwrote.bytes

theorem decodeInto_of_decodeAlloc {inp out d : Bytes} (hd : decodeAlloc inp = some d)
    (hlen : d.length = out.length) : decodeInto inp out out.length = (true, d, out.length) := by
  have hout : (decode inp out.length).1 = true ∧ (decode inp out.length).2 = d := by
    unfold decodeAlloc at hd
    dsimp only at hd
    split_ifs at hd with hok
    have hd := Option.some.inj hd
    refine ⟨hok, ?_⟩
    have hroom : out.length ≤ 3 * (inp.length / 4) + 2 := by
      rw [← hlen, ← hd]
      exact List.length_take_le _ _
    calc (decode inp out.length).2 =
        (decodeLoop (inp.length + 1) false inp).2.take out.length := rfl
      _ = ((decode inp (3 * (inp.length / 4) + 2)).2).take out.length := by
        simp only [decode, List.take_take, Nat.min_eq_left hroom]
      _ = d := by rw [hd, ← hlen, List.take_length]
  obtain ⟨hok, hbuf, hn, hbytes⟩ := decodeInto_spec inp (le_refl out.length)
  have hfull : (decodeInto inp out out.length).2.2 = out.length := by rw [hn, hout.2, hlen]
  rw [hfull, List.take_of_length_le hbuf.le, hout.2] at hbytes
  exact Prod.ext (hok.trans hout.1) (Prod.ext hbytes hfull)

end Base64
end Haggle
