import Haggle.Bytes

/-!
# Base64

The encoder and the decoder of `utils/base64.c`. The decoder skips newlines, and writes as many
bytes as the output has room for, also when it fails half way.
-/

namespace Haggle
namespace Base64

/-- `b64str`. -/
def alphabet : Bytes :=
  lit "ABCDEFGHIJKLMNOPQRSTUVWXYZabcdefghijklmnopqrstuvwxyz0123456789+/"

def b64str (n : ℕ) : UInt8 := alphabet.getD (n % 64) 0

/-- The table `b64`, with `none` for the entries that are `-1`. -/
def b64 (c : UInt8) : Option ℕ := alphabet.findIdx? (· = c)

/-- `base64_encode` into a buffer that is long enough. -/
def encode : Bytes → Bytes
  | [] => []
  | [a] => [b64str (a.toNat / 4), b64str (a.toNat * 16), 61, 61]
  | [a, b] =>
    [b64str (a.toNat / 4), b64str (a.toNat * 16 + b.toNat / 16), b64str (b.toNat * 4), 61]
  | a :: b :: c :: l =>
    b64str (a.toNat / 4) :: b64str (a.toNat * 16 + b.toNat / 16) ::
      b64str (b.toNat * 4 + c.toNat / 64) :: b64str c.toNat :: encode l

/-- `decode_4` on the rest of the input: whether a group was read, and the bytes it holds. -/
def decode4 : Bytes → Bool × Bytes
  | a :: b :: l =>
    match b64 a, b64 b with
    | some x, some y =>
      let o₁ := (x * 4 + y / 16).toUInt8
      match l with
      | [] => (false, [o₁])
      | c :: l =>
        if c = 61 then (decide (l = [61]), [o₁])
        else
          match b64 c with
          | none => (false, [o₁])
          | some z =>
            let o₂ := (y % 16 * 16 + z / 4).toUInt8
            match l with
            | [] => (false, [o₁, o₂])
            | d :: l =>
              if d = 61 then (decide (l = []), [o₁, o₂])
              else
                match b64 d with
                | none => (false, [o₁, o₂])
                | some w => (true, [o₁, o₂, (z % 4 * 64 + w).toUInt8])
    | _, _ => (false, [])
  | _ => (false, [])

/-- The inner loop of `base64_decode`: groups of four as long as they can be read. -/
def decodeGroups : ℕ → Bytes → Bytes × Bytes
  | 0, inp => (inp, [])
  | fuel + 1, inp =>
    match decode4 inp with
    | (true, w) => ((decodeGroups fuel (inp.drop 4)).1, w ++ (decodeGroups fuel (inp.drop 4)).2)
    | (false, _) => (inp, [])

/-- `get_4` with an empty context: up to four bytes that are not newlines, and the input behind. -/
def get4 : ℕ → Bytes → Bytes × Bytes
  | 0, inp => ([], inp)
  | _, [] => ([], [])
  | n + 1, c :: inp =>
    if c = 10 then get4 (n + 1) inp else (c :: (get4 n inp).1, (get4 n inp).2)

/-- The outer loop of `base64_decode`. `full` says that the context buffer holds a group that was
put together around newlines; the inner loop is skipped until a plain group empties it. -/
def decodeLoop : ℕ → Bool → Bytes → Bool × Bytes
  | 0, _, inp => (decide (inp = []), [])
  | fuel + 1, full, inp =>
    let g := if full then (inp, []) else decodeGroups inp.length inp
    match g.1 with
    | [] => (true, g.2)
    | c :: l =>
      if c = 10 then
        let r := decodeLoop fuel full l
        (r.1, g.2 ++ r.2)
      else
        let plain := decide (4 ≤ (c :: l).length) && decide (10 ∉ (c :: l).take 4)
        let q := if plain then ((c :: l).take 4, (c :: l).drop 4) else get4 4 (c :: l)
        if q.1.length < 4 then (true, g.2)
        else
          -- a plain group is decoded in place, where `inlen` is 4 as well
          match decode4 q.1 with
          | (false, w) => (false, g.2 ++ w)
          | (true, w) =>
            let r := decodeLoop fuel (!plain) q.2
            (r.1, g.2 ++ (w ++ r.2))

/-- `base64_decode` with room for `outlen` bytes, from an initialised context. -/
def decode (inp : Bytes) (outlen : ℕ) : Bool × Bytes :=
  let r := decodeLoop (inp.length + 1) false inp
  (r.1, r.2.take outlen)

/-- `base64_decode_alloc`. -/
def decodeAlloc (inp : Bytes) : Option Bytes :=
  let r := decode inp (3 * (inp.length / 4) + 2)
  if r.1 then some r.2 else none

theorem length_alphabet : alphabet.length = 64 := by
  simp only [alphabet, lit_ofList]
  rfl

theorem alphabet_toNat : alphabet.map UInt8.toNat =
    List.range' 65 26 ++ (List.range' 97 26 ++ (List.range' 48 10 ++ [43, 47])) := by
  simp only [alphabet, lit_ofList]
  rfl

theorem nodup_alphabet : alphabet.Nodup := by
  refine List.Nodup.of_map UInt8.toNat ?_
  rw [alphabet_toNat]
  simp only [List.nodup_append, List.mem_append, List.mem_range'_1,
    List.mem_cons, List.not_mem_nil, or_false]
  refine ⟨List.nodup_range', ⟨List.nodup_range', ⟨List.nodup_range', by simp, ?_⟩, ?_⟩, ?_⟩ <;> omega

theorem b64str_mem (n : ℕ) : b64str n ∈ alphabet := by
  have hn : n % 64 < alphabet.length := by
    rw [length_alphabet]
    exact Nat.mod_lt n (by norm_num)
  rw [b64str, List.getD_eq_getElem?_getD, List.getElem?_eq_getElem hn, Option.getD_some]
  exact List.getElem_mem hn

theorem b64_b64str (n : ℕ) : b64 (b64str n) = some (n % 64) := by
  have hn : n % 64 < alphabet.length := by
    rw [length_alphabet]
    exact Nat.mod_lt n (by norm_num)
  have hget : b64str n = alphabet[n % 64] := by
    rw [b64str, List.getD_eq_getElem?_getD, List.getElem?_eq_getElem hn, Option.getD_some]
  rw [b64, hget, List.findIdx?_eq_some_iff_getElem]
  refine ⟨hn, by simp, fun j hj => ?_⟩
  have hne : alphabet[j] ≠ alphabet[n % 64] := fun h =>
    absurd (nodup_alphabet.getElem_inj_iff.mp h) (by omega)
  simpa using hne

theorem b64str_ne (n : ℕ) : b64str n ≠ 61 ∧ b64str n ≠ 10 := by
  have hcode : ∀ c ∈ alphabet, c.toNat ≠ 61 ∧ c.toNat ≠ 10 := by
    intro c hc
    have hmem := List.mem_map_of_mem (f := UInt8.toNat) hc
    rw [alphabet_toNat] at hmem
    simp only [List.mem_append, List.mem_range'_1, List.mem_cons, List.not_mem_nil, or_false] at hmem
    omega
  have hn := hcode _ (b64str_mem n)
  exact ⟨fun h => hn.1 (congrArg UInt8.toNat h), fun h => hn.2 (congrArg UInt8.toNat h)⟩

theorem toUInt8_eq {n : ℕ} {a : UInt8} (h : n = a.toNat) : n.toUInt8 = a := by
  subst h
  simp

theorem decode4_three (a b c : UInt8) (l : Bytes) :
    decode4 (b64str (a.toNat / 4) :: b64str (a.toNat * 16 + b.toNat / 16) ::
      b64str (b.toNat * 4 + c.toNat / 64) :: b64str c.toNat :: l) = (true, [a, b, c]) := by
  have ha := a.toNat_lt
  have hb := b.toNat_lt
  have hc := c.toNat_lt
  simp only [decode4, b64_b64str, (b64str_ne _).1, if_false]
  rw [toUInt8_eq (a := a) (by omega), toUInt8_eq (a := b) (by omega),
    toUInt8_eq (a := c) (by omega)]

theorem decode4_two (a b : UInt8) :
    decode4 [b64str (a.toNat / 4), b64str (a.toNat * 16 + b.toNat / 16), b64str (b.toNat * 4), 61] =
      (true, [a, b]) := by
  have ha := a.toNat_lt
  have hb := b.toNat_lt
  simp only [decode4, b64_b64str, (b64str_ne _).1, if_false, if_true, decide_true]
  rw [toUInt8_eq (a := a) (by omega), toUInt8_eq (a := b) (by omega)]

theorem decode4_one (a : UInt8) :
    decode4 [b64str (a.toNat / 4), b64str (a.toNat * 16), 61, 61] = (true, [a]) := by
  have ha := a.toNat_lt
  simp only [decode4, b64_b64str, if_true, decide_true]
  rw [toUInt8_eq (a := a) (by omega)]

theorem decodeGroups_nil (fuel : ℕ) : decodeGroups fuel [] = ([], []) := by
  cases fuel <;> rfl

theorem decodeGroups_encode (s : Bytes) (fuel : ℕ) (hf : s.length ≤ fuel) :
    decodeGroups fuel (encode s) = ([], s) := by
  induction s using encode.induct generalizing fuel with
  | case1 => exact decodeGroups_nil fuel
  | case2 a =>
    obtain ⟨fuel, rfl⟩ := Nat.exists_eq_succ_of_ne_zero (Nat.one_le_iff_ne_zero.mp hf)
    simp [decodeGroups, encode, decode4_one, decodeGroups_nil]
  | case3 a b =>
    obtain ⟨fuel, rfl⟩ := Nat.exists_eq_succ_of_ne_zero (by simp at hf; omega : fuel ≠ 0)
    simp [decodeGroups, encode, decode4_two, decodeGroups_nil]
  | case4 a b c l ih =>
    simp only [List.length_cons] at hf
    obtain ⟨fuel, rfl⟩ := Nat.exists_eq_succ_of_ne_zero (by omega : fuel ≠ 0)
    simp [decodeGroups, encode, decode4_three, ih fuel (by omega)]

theorem length_encode (s : Bytes) : (encode s).length = 4 * ((s.length + 2) / 3) := by
  induction s using encode.induct with
  | case1 => rfl
  | case2 a => simp [encode]
  | case3 a b => simp [encode]
  | case4 a b c l ih =>
    simp only [encode, List.length_cons, ih]
    omega

theorem decodeLoop_encode (s : Bytes) (fuel : ℕ) :
    decodeLoop (fuel + 1) false (encode s) = (true, s) := by
  have hlen : s.length ≤ (encode s).length := by
    rw [length_encode]
    omega
  simp [decodeLoop, decodeGroups_encode s _ hlen]

theorem decode_encode (s : Bytes) {outlen : ℕ} (h : s.length ≤ outlen) :
    decode (encode s) outlen = (true, s) := by
  simp [decode, decodeLoop_encode, List.take_of_length_le h]

theorem decodeAlloc_encode (s : Bytes) : decodeAlloc (encode s) = some s := by
  have h : s.length ≤ 3 * ((encode s).length / 4) + 2 := by
    rw [length_encode]
    omega
  simp [decodeAlloc, decode_encode s h]

theorem mem_alphabet_of_mem_encode {s : Bytes} {c : UInt8} (hc : c ∈ encode s) :
    c ∈ 61 :: alphabet := by
  have hb : ∀ n, b64str n ∈ 61 :: alphabet := fun n => List.mem_cons_of_mem 61 (b64str_mem n)
  induction s using encode.induct with
  | case1 => simp [encode] at hc
  | case2 a =>
    simp only [encode, List.mem_cons, List.not_mem_nil, or_false] at hc
    rcases hc with rfl | rfl | rfl | rfl <;> first | exact hb _ | exact List.mem_cons_self
  | case3 a b =>
    simp only [encode, List.mem_cons, List.not_mem_nil, or_false] at hc
    rcases hc with rfl | rfl | rfl | rfl <;> first | exact hb _ | exact List.mem_cons_self
  | case4 a b c l ih =>
    simp only [encode, List.mem_cons] at hc
    rcases hc with rfl | rfl | rfl | rfl | hc
    any_goals exact hb _
    exact ih hc

end Base64
end Haggle
