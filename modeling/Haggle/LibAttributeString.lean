import Haggle.FilterString
import Haggle.Tokens

/-!
# Attribute lists from strings

`haggle_attributelist_new_from_string` of the library copies its argument and cuts the copy at the
commas, and each piece at the equals signs, with one `strtok_r` inside the other. The copy is as
long as the string, so that the byte that ends it has no room.
-/

namespace Haggle
namespace LibAttributeString

open Tokens FilterString

section Model

/-- The working copy, whose bytes go on behind its end, and the positions that were written. -/
structure Work where
  mem : Bytes
  writes : List ℕ

def Work.poke (w : Work) (i : ℕ) (c : UInt8) : Work := ⟨w.mem.set i c, w.writes ++ [i]⟩

/-- `strcpy` to the start of the copy. -/
def strcpy (str : Bytes) : Work := ⟨str ++ [0], List.range (str.length + 1)⟩

/-- `strtok_r` from a place on: the token and what is left in `*last`. -/
def strtokAt (delim : UInt8) (w : Work) (s : ℕ) : Work × Option ℕ × Option ℕ :=
  let tok := s + ((w.mem.drop s).takeWhile (· = delim)).length
  if w.mem.getD tok 0 = 0 then (w, none, none)
  else
    let stop := tok + ((w.mem.drop tok).takeWhile fun c => c ≠ delim ∧ c ≠ 0).length
    if w.mem.getD stop 0 = 0 then (w, some tok, none) else (w.poke stop 0, some tok, some (stop + 1))

/-- `strtok_r(s, delim, &last)`; `none` is a null pointer. -/
def strtokR (delim : UInt8) (w : Work) (s last : Option ℕ) : Work × Option ℕ × Option ℕ :=
  match s.or last with
  | none => (w, none, none)
  | some s => strtokAt delim w s

/-- The inner loop over `namevalue[2]`, with what it leaves there. -/
def nameValue (w : Work) (token : ℕ) : Work × Option (ℕ × ℕ) :=
  match strtokR 61 w (some token) none with
  | (w, none, _) => (w, none)
  | (w, some name, savePtr2) =>
    match strtokR 61 w none savePtr2 with
    | (w, none, _) => (w, none)
    | (w, some value, _) => (w, some (name, value))

/-- The outer loop. The strings are copied into the attribute while the copy is as it is then. -/
def parseLoop : ℕ → Work → Option ℕ → Option ℕ → List Attribute → ℕ →
    Option (Work × Option (List Attribute))
  | 0, _, _, _, _, _ => none
  | _ + 1, w, none, _, al, n => some (w, if n = 0 then none else some al)
  | fuel + 1, w, some token, savePtr, al, n =>
    match nameValue w token with
    | (w, none) => some (w, none)
    | (w, some (name, value)) =>
      let al := al ++ [⟨cStr (w.mem.drop name), cStr (w.mem.drop value), 1⟩]
      let (w, token, savePtr) := strtokR 44 w none savePtr
      parseLoop fuel w token savePtr al (n + 1)

/-- `haggle_attributelist_new_from_string`: the positions written in the working copy, which has
`strlen(str)` bytes, and the list. -/
def newFromString (str : Bytes) : Option (List ℕ × Option (List Attribute)) :=
  let str := cStr str
  let (w, token, savePtr) := strtokR 44 (strcpy str) (some 0) none
  (parseLoop (str.length + 1) w token savePtr [] 0).map fun r => (r.1.writes, r.2)

end Model

section Meaning

/-- The parts between the commas that are not empty. -/
abbrev items (str : Bytes) : List Bytes := tokens 44 (cStr str)

/-- A name, an equals sign and a value. -/
def IsPair (item : Bytes) : Prop := ∃ p, Word 44 p.1 ∧ Word 44 p.2 ∧ item = pairText p

def attributeOf (p : Bytes × Bytes) : Attribute := ⟨p.1, p.2, 1⟩

/-- A sequence of pairs gives these attributes. -/
def ReadsPairs (str : Bytes) (r : Option (List Attribute)) : Prop :=
  ∀ pairs, pairs ≠ [] → (∀ p ∈ pairs, Word 44 p.1 ∧ Word 44 p.2) → str = pairsText 44 pairs →
    r = some (pairs.map attributeOf)

/-- If a part is no pair, there is no list. -/
def RefusesBad (str : Bytes) (r : Option (List Attribute)) : Prop :=
  (∃ item ∈ items str, ¬ IsPair item) → r = none

/-- Every write to the copy is below the number of bytes that were allocated. -/
def WritesInside (str : Bytes) (writes : List ℕ) : Prop := ∀ i ∈ writes, i < (cStr str).length

def Parses (str : Bytes) : Prop :=
  ∃ writes r, newFromString str = some (writes, r) ∧ ReadsPairs str r ∧ RefusesBad str r ∧
    WritesInside str writes

/-- The first two parts of an item at its equals signs. -/
def readItem (item : Bytes) : Option (Bytes × Bytes) :=
  match tokens 61 item with
  | name :: value :: _ => some (name, value)
  | _ => none

end Meaning

section Strtok

variable {d : UInt8} {w : Work} {a s b : Bytes}

theorem getD_append_cons (a b : Bytes) (c : UInt8) : (a ++ c :: b).getD a.length 0 = c := by
  simp [List.getD]

theorem takeWhile_append_of_stop {p : UInt8 → Bool} {t b : Bytes} {c : UInt8}
    (ht : ∀ x ∈ t, p x) (hc : p c = false) : (t ++ c :: b).takeWhile p = t := by
  rw [List.takeWhile_append_of_pos ht, List.takeWhile_cons_of_neg (by simp [hc]), List.append_nil]

/-- A call that comes to a token, which the byte `e` ends. -/
theorem strtokAt_token {pre t rest : Bytes} {e : UInt8} (hmem : w.mem = a ++ pre ++ t ++ e :: rest)
    (hpre : ∀ c ∈ pre, c = d) (ht : t ≠ []) (hdt : d ∉ t) (h0 : 0 ∉ t) (he : e = d ∨ e = 0) :
    strtokAt d w a.length =
      if e = 0 then (w, some (a ++ pre).length, none)
      else (w.poke (a ++ pre ++ t).length 0, some (a ++ pre).length,
        some ((a ++ pre ++ t).length + 1)) := by
  obtain ⟨c, t', rfl⟩ := List.exists_cons_of_ne_nil ht
  have hc : c ≠ d := fun h => hdt (by rw [h]; exact List.mem_cons_self)
  have hc0 : c ≠ 0 := fun h => h0 (by rw [h]; exact List.mem_cons_self)
  have htok : a.length + ((w.mem.drop a.length).takeWhile (· = d)).length = (a ++ pre).length := by
    rw [hmem, List.append_assoc, List.append_assoc, List.drop_left, List.cons_append,
      takeWhile_append_of_stop (fun x hx => decide_eq_true (hpre x hx)) (decide_eq_false hc),
      List.length_append]
  have hfirst : w.mem.getD (a ++ pre).length 0 = c := by
    rw [hmem, List.append_assoc, List.cons_append, getD_append_cons]
  have hstop : (a ++ pre).length +
      ((w.mem.drop (a ++ pre).length).takeWhile fun c => c ≠ d ∧ c ≠ 0).length =
        (a ++ pre ++ c :: t').length := by
    rw [hmem, List.append_assoc, List.drop_left, takeWhile_append_of_stop,
      ← List.length_append]
    · intro x hx
      exact decide_eq_true ⟨fun h => hdt (h ▸ hx), fun h => h0 (h ▸ hx)⟩
    · rcases he with rfl | rfl <;> simp
  have hlast : w.mem.getD (a ++ pre ++ c :: t').length 0 = e := by rw [hmem, getD_append_cons]
  unfold strtokAt
  simp only [htok, hfirst, hc0, if_false, hstop, hlast]

/-- What one call does with the text `s` at its place: there is nothing but separators, or it finds
the first token, ends it with a byte 0 and remembers what is behind, if there is anything. -/
theorem strtokAt_cases (hd : d ≠ 0) (hmem : w.mem = a ++ (s ++ 0 :: b)) (hs : 0 ∉ s) :
    (tokens d s = [] ∧ strtokAt d w a.length = (w, none, none)) ∨
      ∃ pre t, 0 ∉ t ∧
        (s = pre ++ t ∧ tokens d s = [t] ∧
            strtokAt d w a.length = (w, some (a ++ pre).length, none) ∨
          ∃ s' w', s = pre ++ (t ++ d :: s') ∧ tokens d s = t :: tokens d s' ∧
            strtokAt d w a.length =
              (w', some (a ++ pre).length, some (a ++ pre ++ t ++ [0]).length) ∧
            w'.mem = a ++ pre ++ t ++ [0] ++ (s' ++ 0 :: b) ∧ w.writes ⊆ w'.writes) := by
  obtain ⟨hnil, hall⟩ | ⟨pre, t, hpre, ht, hdt, ⟨rfl, htok⟩ | ⟨s', rfl, htok⟩⟩ := tokens_cases d s
  · refine .inl ⟨hnil, ?_⟩
    have htok : a.length + ((w.mem.drop a.length).takeWhile (· = d)).length = (a ++ s).length := by
      rw [hmem, List.drop_left, takeWhile_append_of_stop (fun x hx => decide_eq_true (hall x hx))
        (decide_eq_false hd.symm), List.length_append]
    unfold strtokAt
    simp only [htok]
    rw [hmem, ← List.append_assoc, getD_append_cons, if_pos rfl]
  · have h0 : 0 ∉ t := fun h => hs (List.mem_append_right pre h)
    have hmem' : w.mem = a ++ pre ++ t ++ 0 :: b := by simp [hmem]
    refine .inr ⟨pre, t, h0, .inl ⟨rfl, htok, ?_⟩⟩
    rw [strtokAt_token hmem' hpre ht hdt h0 (.inr rfl), if_pos rfl]
  · have h0 : 0 ∉ t := fun h => hs (List.mem_append_right pre (List.mem_append_left _ h))
    have hmem' : w.mem = a ++ pre ++ t ++ d :: (s' ++ 0 :: b) := by simp [hmem]
    refine .inr ⟨pre, t, h0, .inr ⟨s', w.poke (a ++ pre ++ t).length 0, rfl, htok, ?_, ?_, ?_⟩⟩
    · rw [strtokAt_token hmem' hpre ht hdt h0 (.inl rfl), if_neg hd]
      simp only [List.length_append, List.length_singleton]
    · change w.mem.set (a ++ pre ++ t).length 0 = _
      rw [hmem', List.set_append_right _ _ le_rfl, Nat.sub_self, List.set_cons_zero,
        List.append_assoc _ [0], List.singleton_append]
    · exact List.subset_append_left _ _

theorem cStr_append_zero {t b : Bytes} (ht : 0 ∉ t) : cStr (t ++ 0 :: b) = t :=
  takeWhile_append_of_stop (fun _ hx => decide_eq_true fun h => ht (h ▸ hx)) rfl

theorem cStr_drop {mem x t : Bytes} (b : Bytes) (hmem : mem = x ++ (t ++ 0 :: b)) (ht : 0 ∉ t) :
    cStr (mem.drop x.length) = t := by
  rw [hmem, List.drop_left]
  exact cStr_append_zero ht

end Strtok

section Items

variable {w : Work} {a t b : Bytes}

/-- The inner loop reads the first two parts of an item, whose bytes it may change; what is around
the item stays. -/
theorem nameValue_spec (hmem : w.mem = a ++ (t ++ 0 :: b)) (ht : 0 ∉ t) :
    ∃ w', w.writes ⊆ w'.writes ∧ match readItem t with
      | none => nameValue w a.length = (w', none)
      | some (name, value) => ∃ i j t', nameValue w a.length = (w', some (i, j)) ∧
          w'.mem = a ++ (t' ++ 0 :: b) ∧ t'.length = t.length ∧
          cStr (w'.mem.drop i) = name ∧ cStr (w'.mem.drop j) = value := by
  have hfirst : strtokR 61 w (some a.length) none = strtokAt 61 w a.length := rfl
  obtain ⟨hnil, hcall⟩ | ⟨pre, n, hn, ⟨rfl, htok, hcall⟩ |
      ⟨s', w₁, rfl, htok, hcall, hmem₁, hwrites⟩⟩ := @strtokAt_cases 61 _ _ _ _ (by decide) hmem ht
  · refine ⟨w, List.Subset.refl _, ?_⟩
    rw [readItem, hnil, nameValue, hfirst, hcall]
  · refine ⟨w, List.Subset.refl _, ?_⟩
    rw [readItem, htok, nameValue, hfirst, hcall]
    rfl
  · have hs' : 0 ∉ s' := fun h => ht (by simp [h])
    have hsecond : strtokR 61 w₁ none (some (a ++ pre ++ n ++ [0]).length) =
        strtokAt 61 w₁ (a ++ pre ++ n ++ [0]).length := rfl
    obtain ⟨hnil', hcall'⟩ | ⟨pre', v, hv, ⟨rfl, htok', hcall'⟩ |
        ⟨s'', w₂, rfl, htok', hcall', hmem₂, hwrites'⟩⟩ :=
          @strtokAt_cases 61 _ _ _ _ (by decide) hmem₁ hs'
    · refine ⟨w₁, hwrites, ?_⟩
      rw [readItem, htok, hnil', nameValue, hfirst, hcall]
      simp only [hsecond, hcall']
    · refine ⟨w₁, hwrites, ?_⟩
      rw [readItem, htok, htok', nameValue, hfirst, hcall]
      simp only [hsecond, hcall']
      refine ⟨_, _, pre ++ n ++ 0 :: (pre' ++ v), rfl, ?_, ?_, ?_, ?_⟩
      · simp [hmem₁]
      · simp
      · exact cStr_drop (pre' ++ (v ++ 0 :: b)) (by simp [hmem₁]) hn
      · exact cStr_drop b (by simp [hmem₁]) hv
    · refine ⟨w₂, fun i hi => hwrites' (hwrites hi), ?_⟩
      rw [readItem, htok, htok', nameValue, hfirst, hcall]
      simp only [hsecond, hcall']
      refine ⟨_, _, pre ++ n ++ 0 :: (pre' ++ v ++ 0 :: s''), rfl, ?_, ?_, ?_, ?_⟩
      · simp [hmem₂]
      · simp
      · exact cStr_drop (pre' ++ (v ++ 0 :: (s'' ++ 0 :: b))) (by simp [hmem₂]) hn
      · exact cStr_drop (s'' ++ 0 :: b) (by simp [hmem₂]) hv

end Items

section Loop

/-- What the outer `strtok_r` has before it: nothing, or the text from the place in `last` on. -/
inductive Pending (w : Work) : Option ℕ → List Bytes → Prop
  | done : Pending w none []
  | more (a s b : Bytes) (hmem : w.mem = a ++ (s ++ 0 :: b)) (hs : 0 ∉ s) :
    Pending w (some a.length) (tokens 44 s)

/-- What becomes of the items that are left. -/
def outcome (al : List Attribute) (n : ℕ) (items : List Bytes) : Option (List Attribute) :=
  (items.mapM readItem).bind fun pairs =>
    if n = 0 ∧ items = [] then none else some (al ++ pairs.map attributeOf)

theorem outcome_cons (al : List Attribute) (n : ℕ) (item : Bytes) (items : List Bytes) :
    outcome al n (item :: items) =
      (readItem item).bind fun p => outcome (al ++ [attributeOf p]) (n + 1) items := by
  unfold outcome
  rw [List.mapM_cons]
  cases readItem item with
  | none => rfl
  | some p =>
    cases items.mapM readItem with
    | none => rfl
    | some pairs => simp

theorem parseLoop_spec {w : Work} {last : Option ℕ} {toks : List Bytes} (h : Pending w last toks)
    {fuel : ℕ} (hfuel : toks.length < fuel) (al : List Attribute) (n : ℕ) :
    ∃ w', w.writes ⊆ w'.writes ∧
      parseLoop fuel (strtokR 44 w none last).1 (strtokR 44 w none last).2.1
        (strtokR 44 w none last).2.2 al n = some (w', outcome al n toks) := by
  induction fuel generalizing w last toks al n with
  | zero => omega
  | succ fuel ih =>
    have hend : ∀ w : Work, parseLoop (fuel + 1) w none none al n =
        some (w, outcome al n []) := by
      intro w
      rw [parseLoop]
      unfold outcome
      simp
    cases h with
    | done => exact ⟨w, List.Subset.refl _, hend w⟩
    | more a s b hmem hs =>
      have hcall : strtokR 44 w none (some a.length) = strtokAt 44 w a.length := rfl
      rw [hcall]
      obtain ⟨hnil, hat⟩ | ⟨pre, t, ht, ⟨rfl, htok, hat⟩ |
          ⟨s', w₁, rfl, htok, hat, hmem₁, hwrites⟩⟩ := @strtokAt_cases 44 _ _ _ _ (by decide) hmem hs
      · rw [hat, hnil]
        exact ⟨w, List.Subset.refl _, hend w⟩
      · have hmem' : w.mem = a ++ pre ++ (t ++ 0 :: b) := by simp [hmem]
        obtain ⟨w', hwrites, hname⟩ := nameValue_spec hmem' ht
        rw [hat, htok, outcome_cons]
        rw [htok, List.length_singleton] at hfuel
        cases hread : readItem t with
        | none =>
          rw [hread] at hname
          refine ⟨w', hwrites, ?_⟩
          simp only [parseLoop, hname]
          rfl
        | some p =>
          rw [hread] at hname
          obtain ⟨i, j, t', hname, -, -, hn, hv⟩ := hname
          obtain ⟨w'', hwrites', hloop⟩ := @ih w' none [] .done
            (by simp only [List.length_nil]; omega) (al ++ [attributeOf p]) (n + 1)
          refine ⟨w'', fun i hi => hwrites' (hwrites hi), ?_⟩
          simp only [parseLoop, hname, hn, hv]
          exact hloop
      · have hmem' : w₁.mem = a ++ pre ++ (t ++ 0 :: (s' ++ 0 :: b)) := by simp [hmem₁]
        obtain ⟨w', hwrites', hname⟩ := nameValue_spec hmem' ht
        rw [hat, htok, outcome_cons]
        rw [htok, List.length_cons] at hfuel
        cases hread : readItem t with
        | none =>
          rw [hread] at hname
          refine ⟨w', fun i hi => hwrites' (hwrites hi), ?_⟩
          simp only [parseLoop, hname]
          rfl
        | some p =>
          rw [hread] at hname
          obtain ⟨i, j, t', hname, hmem'', hlen, hn, hv⟩ := hname
          -- the item has changed in place, so that the rest is where it was
          have hpending : Pending w' (some (a ++ pre ++ t ++ [0]).length) (tokens 44 s') := by
            have hplace : (a ++ pre ++ t ++ [0]).length = (a ++ pre ++ t' ++ [0]).length := by
              simp [hlen]
            rw [hplace]
            exact .more _ s' b (by simp [hmem'']) fun h => hs (by simp [h])
          obtain ⟨w'', hwrites'', hloop⟩ := ih hpending (by omega) (al ++ [attributeOf p]) (n + 1)
          refine ⟨w'', fun i hi => hwrites'' (hwrites' (hwrites hi)), ?_⟩
          simp only [parseLoop, hname, hn, hv]
          exact hloop

theorem outcome_eq_none_iff (al : List Attribute) (n : ℕ) (items : List Bytes) :
    outcome al n items = none ↔
      n = 0 ∧ items = [] ∨ ∃ item ∈ items, readItem item = none := by
  induction items generalizing al n with
  | nil => simp [outcome]
  | cons item items ih =>
    rw [outcome_cons]
    cases hread : readItem item with
    | none => simp [hread]
    | some p => simp [hread, ih]

theorem readItem_eq_none_iff (item : Bytes) :
    readItem item = none ↔ (tokens 61 item).length < 2 := by
  unfold readItem
  match tokens 61 item with
  | [] => simp
  | [_] => simp
  | _ :: _ :: _ => simp

theorem readItem_pairText {p : Bytes × Bytes} (hp : Word 44 p.1 ∧ Word 44 p.2) :
    readItem (pairText p) = some p := by
  have htok : tokens 61 (pairText p) = [p.1, p.2] := by
    rw [pairText, tokens_append_cons hp.1.ne_nil hp.1.equals,
      tokens_of_notMem hp.2.ne_nil hp.2.equals]
  rw [readItem, htok]

theorem mapM_readItem {pairs : List (Bytes × Bytes)}
    (hpairs : ∀ p ∈ pairs, Word 44 p.1 ∧ Word 44 p.2) :
    (pairs.map pairText).mapM readItem = some pairs := by
  induction pairs with
  | nil => rfl
  | cons p pairs ih =>
    rw [List.map_cons, List.mapM_cons, readItem_pairText (hpairs p List.mem_cons_self),
      ih fun q hq => hpairs q (List.mem_cons_of_mem p hq)]
    rfl

theorem items_pairsText {pairs : List (Bytes × Bytes)}
    (hpairs : ∀ p ∈ pairs, Word 44 p.1 ∧ Word 44 p.2) :
    items (pairsText 44 pairs) = pairs.map pairText := by
  have hzero := zero_notMem_pairsText (by decide) hpairs
  have hcstr : cStr (pairsText 44 pairs) = pairsText 44 pairs := by
    apply List.takeWhile_eq_self_iff.mpr
    intro c hc
    apply decide_eq_true
    rintro rfl
    exact hzero hc
  rw [items, hcstr, pairsText]
  apply tokens_intercalate
  intro t ht
  obtain ⟨p, hp, rfl⟩ := List.mem_map.mp ht
  obtain ⟨hname, hvalue⟩ := hpairs p hp
  refine ⟨by simp [pairText], fun h => ?_⟩
  obtain h | h := List.mem_append.mp h
  · exact hname.separator h
  · obtain h | h := List.mem_cons.mp h
    · cases h
    · exact hvalue.separator h

/-- The function ends; what it returns depends on the items alone; and it writes behind the copy. -/
theorem newFromString_eq (str : Bytes) :
    ∃ writes, newFromString str = some (writes, outcome [] 0 (items str)) ∧
      (cStr str).length ∈ writes := by
  have hzero : 0 ∉ cStr str := by
    intro h
    have hne := List.mem_takeWhile_imp (p := fun c : UInt8 => decide (c ≠ 0)) h
    exact absurd hne (by decide)
  have hpending : Pending (strcpy (cStr str)) (some 0) (items str) :=
    .more [] (cStr str) [] rfl hzero
  obtain ⟨w', hwrites, hloop⟩ := parseLoop_spec hpending
    (Nat.lt_succ_of_le (length_tokens_le 44 (cStr str))) [] 0
  refine ⟨w'.writes, ?_, hwrites (List.mem_range.mpr (Nat.lt_succ_self _))⟩
  have hcall : strtokR 44 (strcpy (cStr str)) (some 0) none =
      strtokR 44 (strcpy (cStr str)) none (some 0) := rfl
  unfold newFromString
  simp only [hcall, hloop, Option.map_some]

end Loop

section Outcome

/-- No string is parsed within the copy. Apart from that a sequence of pairs gives these attributes,
and what is no such sequence is refused exactly when an item has less than two parts. -/
theorem not_parses (str : Bytes) :
    ¬ Parses str ∧ ∃ writes r, newFromString str = some (writes, r) ∧ ReadsPairs str r ∧
      (RefusesBad str r ↔ (∀ item ∈ items str, IsPair item) ∨
        ∃ item ∈ items str, (tokens 61 item).length < 2) ∧
      ¬ WritesInside str writes := by
  obtain ⟨writes, hnew, hwrite⟩ := newFromString_eq str
  have hinside : ¬ WritesInside str writes := fun h => lt_irrefl _ (h _ hwrite)
  refine ⟨?_, writes, _, hnew, ?_, ?_, hinside⟩
  · rintro ⟨writes', r, hnew', -, -, hinside'⟩
    rw [hnew] at hnew'
    obtain ⟨rfl, -⟩ := Prod.mk.inj (Option.some.inj hnew')
    exact hinside hinside'
  · rintro pairs hne hpairs rfl
    rw [items_pairsText hpairs, outcome, mapM_readItem hpairs, Option.bind_some, if_neg,
      List.nil_append]
    simp [hne]
  · rw [RefusesBad, outcome_eq_none_iff]
    simp only [readItem_eq_none_iff, true_and]
    constructor
    · intro h
      by_cases hall : ∀ item ∈ items str, IsPair item
      · exact .inl hall
      · push Not at hall
        obtain hnil | hshort := h hall
        · obtain ⟨item, hitem, -⟩ := hall
          rw [hnil] at hitem
          cases hitem
        · exact .inr hshort
    · rintro (hall | hshort) ⟨item, hitem, hbad⟩
      · exact absurd (hall item hitem) hbad
      · exact .inr hshort

end Outcome

end LibAttributeString

namespace Sample

/-- Three bytes are allocated for the copy of `a=b`, and the fourth is written. -/
theorem not_parses_pair : LibAttributeString.newFromString (lit "a=b") =
      some ([0, 1, 2, 3, 1], some [⟨lit "a", lit "b", 1⟩]) ∧
    ¬ LibAttributeString.Parses (lit "a=b") := by
  have hnew : LibAttributeString.newFromString (lit "a=b") =
      some ([0, 1, 2, 3, 1], some [⟨lit "a", lit "b", 1⟩]) := by decide
  refine ⟨hnew, ?_⟩
  rintro ⟨writes, r, hnew', -, -, hinside⟩
  rw [hnew] at hnew'
  obtain ⟨rfl, -⟩ := Prod.mk.inj (Option.some.inj hnew')
  exact absurd (hinside 3 (by decide)) (by decide)

/-- Three parts at the equals signs are taken for a pair. -/
example : (LibAttributeString.newFromString (lit "a=b=c,d=e")).map Prod.snd =
    some (some [⟨lit "a", lit "b", 1⟩, ⟨lit "d", lit "e", 1⟩]) := by
  decide

end Sample
end Haggle
