import Haggle.HeaderSearch
import Haggle.Printed

/-!
# Writing documents

The content of an element is made into nodes by `xmlStringGetNodeList`, and a document is written by
`xmlDocDumpFormatMemory`. Texts and the values of parameters are escaped, but names are not, and
neither are the names of entities, which are whatever stands between `&` and `;` in a content.
-/

namespace Haggle

/-- The escaping of texts and of parameter values; `<` is always escaped. -/
structure XmlEscape where
  text : Bytes → Bytes
  value : Bytes → Bytes
  text_lt : ∀ s, 60 ∉ text s
  value_lt : ∀ s, 60 ∉ value s

namespace XmlNode

section Content

/-- A text becomes part of the text node behind it. -/
def consText (t : Bytes) : List XmlNode → List XmlNode
  | text t' :: l => text (t ++ t') :: l
  | l => text t :: l

/-- `xmlGetPredefinedEntity`. -/
def predefinedEntity (name : Bytes) : Option Bytes :=
  if name = lit "lt" then some (lit "<")
  else if name = lit "gt" then some (lit ">")
  else if name = lit "amp" then some (lit "&")
  else if name = lit "quot" then some (lit "\"")
  else if name = lit "apos" then some (lit "'")
  else none

/-- `xmlNewReference`, without a document that declares entities. -/
def newReference (name : Bytes) : XmlNode :=
  entityRef (if name.head? = some 38 then name.tail else name) []

def refDigit (base : ℕ) (b : UInt8) : Option ℕ :=
  if isDigit b then some (b.toNat - 48)
  else if base = 16 ∧ 97 ≤ b.toNat ∧ b.toNat ≤ 102 then some (b.toNat - 87)
  else if base = 16 ∧ 65 ≤ b.toNat ∧ b.toNat ≤ 70 then some (b.toNat - 55)
  else none

/-- The number of a character reference, an `int`, and what follows; no number is 0. -/
def charRef (base : ℕ) : ℕ → Bytes → ℕ × Bytes
  | _, [] => (0, [])
  | v, b :: l =>
    if b = 59 then (v, l)
    else match refDigit base b with
      | some d => charRef base ((v * base + d) % 2 ^ 32) l
      | none => (0, b :: l)

/-- `xmlCopyCharMultiByte`; negative numbers are the upper half. -/
def copyChar (v : ℕ) : Bytes :=
  if 2 ^ 31 ≤ v ∨ v < 128 then cStr [v.toUInt8]
  else if v < 2048 then [(192 + v / 64).toUInt8, (128 + v % 64).toUInt8]
  else if v < 65536 then
    [(224 + v / 4096).toUInt8, (128 + v / 64 % 64).toUInt8, (128 + v % 64).toUInt8]
  else if v < 1114112 then
    [(240 + v / 262144).toUInt8, (128 + v / 4096 % 64).toUInt8, (128 + v / 64 % 64).toUInt8,
      (128 + v % 64).toUInt8]
  else []

def consChar (v : ℕ) (r : List XmlNode × Bool) : List XmlNode × Bool :=
  if v = 0 then r else (consText (copyChar v) r.1, r.2)

def consEntity (name : Bytes) (r : List XmlNode × Bool) : List XmlNode × Bool :=
  if name = [] then r
  else match predefinedEntity name with
    | some t => (consText t r.1, r.2)
    | none => (newReference name :: r.1, r.2)

/-- The loop of `xmlStringGetNodeList`, with whether it came to the end: it returns when an entity
is not terminated. -/
def nodeLoop : ℕ → Bytes → List XmlNode × Bool
  | 0, _ => ([], true)
  | _ + 1, [] => ([], true)
  | fuel + 1, b :: l =>
    if b ≠ 38 then
      let r := nodeLoop fuel l
      (consText [b] r.1, r.2)
    else if l.take 2 = lit "#x" then
      let n := charRef 16 0 (l.drop 2)
      consChar n.1 (nodeLoop fuel n.2)
    else if l.take 1 = lit "#" then
      let n := charRef 10 0 (l.drop 1)
      consChar n.1 (nodeLoop fuel n.2)
    else
      match l.dropWhile (· ≠ 59) with
      | [] => ([], false)
      | _ :: rest => consEntity (l.takeWhile (· ≠ 59)) (nodeLoop fuel rest)

/-- `xmlStringGetNodeList`. Without any node there is an empty text. -/
def stringGetNodeList (s : Bytes) : List XmlNode :=
  let value := cStr s
  let r := nodeLoop (value.length + 1) value
  if r.1.isEmpty && r.2 then [text []] else r.1

end Content

section Writing

variable (e : XmlEscape)

/-- `xmlAttrListDumpOutput`. -/
def writeProps (ps : List (Bytes × Bytes)) : Bytes :=
  ps.flatMap fun p => lit " " ++ p.1 ++ lit "=\"" ++ e.value p.2 ++ lit "\""

/-- The indentation of a nesting level. The context has room for thirty of them. -/
def indentation (level : ℕ) : Bytes := List.replicate (2 * min level 30) 32

/-- A CDATA section, in several of them where its end stands in the content. -/
def writeCdata (start : Bytes) : Bytes → Bytes
  | 93 :: 93 :: 62 :: l => lit "<![CDATA[" ++ start ++ lit "]]" ++ lit "]]>" ++ writeCdata [62] l
  | b :: l => writeCdata (start ++ [b]) l
  | [] => if start = [] then [] else lit "<![CDATA[" ++ start ++ lit "]]>"

mutual

/-- `xmlNodeDumpOutputInternal`. An element with text children is written as it is. -/
def write (level : ℕ) (fmt : Bool) : XmlNode → Bytes
  | elem n ps cs =>
    let fmt := fmt && !cs.any isText
    lit "<" ++ n ++ writeProps e ps ++
      if cs.isEmpty then lit "/>"
      else
        lit ">" ++ (if fmt then lit "\n" else []) ++ writeList (level + 1) fmt cs ++
          (if fmt then indentation level else []) ++ lit "</" ++ n ++ lit ">"
  | text t => e.text t
  | cdata c => writeCdata [] c
  | entityRef n _ => lit "&" ++ n ++ lit ";"
  | other => []

/-- `xmlNodeListDumpOutput`. -/
def writeList (level : ℕ) (fmt : Bool) : List XmlNode → Bytes
  | [] => []
  | c :: cs =>
    (if fmt && !c.isText then indentation level else []) ++ write level fmt c ++
      (if fmt then lit "\n" else []) ++ writeList level fmt cs

end

/-- `xmlDocDumpFormatMemory`, of a document with this root. -/
def dumpFormat (x : XmlNode) : Bytes :=
  lit "<?xml version=\"1.0\"?>\n" ++ write e 0 true x ++ lit "\n"

end Writing

end XmlNode

/-- The library with these functions. -/
def XmlEscape.lib (e : XmlEscape) (parse : Bytes → Option XmlNode) : LibXml :=
  ⟨parse, XmlNode.dumpFormat e, XmlNode.stringGetNodeList⟩

/-- What names are made of never ends a tag. -/
def IsXmlName (n : Bytes) : Prop := n ≠ [] ∧ ∀ b ∈ n, b ≠ 47 ∧ b ≠ 60 ∧ b ≠ 62

instance (n : Bytes) : Decidable (IsXmlName n) :=
  decidable_of_iff (n ≠ [] ∧ n.all (fun b => b ≠ 47 ∧ b ≠ 60 ∧ b ≠ 62) = true) (by simp [IsXmlName])

namespace XmlNode

mutual

/-- Elements and parameters have names. -/
def Named : XmlNode → Prop
  | elem n ps cs => IsXmlName n ∧ (∀ p ∈ ps, IsXmlName p.1) ∧ NamedAll cs
  | _ => True

def NamedAll : List XmlNode → Prop
  | [] => True
  | c :: cs => Named c ∧ NamedAll cs

end

mutual

/-- Whether the end tag is written for a node or inside it. -/
def tagIn : XmlNode → Bool
  | elem n _ cs => tagInList cs || (!cs.isEmpty && isHaggle n)
  | cdata c => hasEndTag (writeCdata [] c)
  | entityRef n _ => hasEndTag n
  | text _ => false
  | other => false

def tagInList : List XmlNode → Bool
  | [] => false
  | c :: cs => tagIn c || tagInList cs

end

theorem namedAll_iff {cs : List XmlNode} : NamedAll cs ↔ ∀ c ∈ cs, Named c := by
  induction cs with
  | nil => exact ⟨nofun, fun _ => trivial⟩
  | cons c cs ih => rw [NamedAll, ih, List.forall_mem_cons]

theorem tagInList_eq_any (cs : List XmlNode) : tagInList cs = cs.any tagIn := by
  induction cs with
  | nil => rfl
  | cons c cs ih => rw [tagInList, ih, List.any_cons]

theorem tagInList_append (l cs : List XmlNode) :
    tagInList (l ++ cs) = (tagInList l || tagInList cs) := by
  simp only [tagInList_eq_any, List.any_append]

section Content

/-- The content of an element is texts and references to entities. -/
def IsContent (x : XmlNode) : Prop := (∃ t, x = text t) ∨ ∃ n, x = entityRef n []

theorem isContent_consText {t : Bytes} {l : List XmlNode} (hl : ∀ x ∈ l, IsContent x) :
    ∀ x ∈ consText t l, IsContent x := by
  unfold consText
  split
  · intro x hx
    rcases List.mem_cons.mp hx with rfl | hx
    · exact .inl ⟨_, rfl⟩
    · exact hl x (List.mem_cons_of_mem _ hx)
  · intro x hx
    rcases List.mem_cons.mp hx with rfl | hx
    · exact .inl ⟨_, rfl⟩
    · exact hl x hx

theorem isContent_nodeLoop (fuel : ℕ) (s : Bytes) : ∀ x ∈ (nodeLoop fuel s).1, IsContent x := by
  have hchar : ∀ (v : ℕ) (r : List XmlNode × Bool), (∀ x ∈ r.1, IsContent x) →
      ∀ x ∈ (consChar v r).1, IsContent x := by
    intro v r hr
    unfold consChar
    split_ifs
    · exact hr
    · exact isContent_consText hr
  induction fuel generalizing s with
  | zero => nofun
  | succ fuel ih =>
    cases s with
    | nil => nofun
    | cons b l =>
      unfold nodeLoop
      split_ifs
      · exact isContent_consText (ih l)
      · exact hchar _ _ (ih _)
      · exact hchar _ _ (ih _)
      · split
        · nofun
        · unfold consEntity
          split_ifs
          · exact ih _
          · split
            · exact isContent_consText (ih _)
            · intro x hx
              rcases List.mem_cons.mp hx with rfl | hx
              · exact .inr ⟨_, rfl⟩
              · exact ih _ x hx

theorem isContent_stringGetNodeList {s : Bytes} {x : XmlNode} (hx : x ∈ stringGetNodeList s) :
    IsContent x := by
  unfold stringGetNodeList at hx
  dsimp only at hx
  split_ifs at hx
  · exact .inl ⟨[], List.mem_singleton.mp hx⟩
  · exact isContent_nodeLoop _ _ x hx

end Content

variable (e : XmlEscape)

section Parts

theorem writeProps_lt {ps : List (Bytes × Bytes)} (hps : ∀ p ∈ ps, IsXmlName p.1) :
    60 ∉ writeProps e ps := by
  intro h
  obtain ⟨p, hp, hmem⟩ := List.mem_flatMap.mp h
  have hvalue := e.value_lt p.2
  simp only [List.mem_append, hvalue, or_false] at hmem
  rcases hmem with ((hmem | hmem) | hmem) | hmem
  · exact absurd hmem (by decide)
  · exact ((hps p hp).2 60 hmem).2.1 rfl
  · exact absurd hmem (by decide)
  · exact absurd hmem (by decide)

theorem indentation_lt (level : ℕ) : 60 ∉ indentation level := by
  intro h
  exact absurd (List.eq_of_mem_replicate h) (by decide)

theorem hasEndTag_ite {c : Prop} [Decidable c] {s : Bytes} (hs : 60 ∉ s) (t : Bytes) :
    hasEndTag ((if c then s else []) ++ t) = hasEndTag t := by
  split_ifs
  · exact hasEndTag_text hs t
  · rfl

/-- A start tag, or the tag of an empty element, is no end tag. -/
theorem hasEndTag_start {n : Bytes} (hn : IsXmlName n) {ps : List (Bytes × Bytes)}
    (hps : ∀ p ∈ ps, IsXmlName p.1) {s : Bytes} (hs : 60 ∉ s) (t : Bytes) :
    hasEndTag (lit "<" ++ n ++ writeProps e ps ++ s ++ t) = hasEndTag t := by
  obtain ⟨c, n, rfl⟩ := List.exists_cons_of_ne_nil hn.1
  have hc := (hn.2 c List.mem_cons_self).1
  have hrest : 60 ∉ c :: n ++ writeProps e ps ++ s := by
    intro h
    rcases List.mem_append.mp h with h | h
    · rcases List.mem_append.mp h with h | h
      · exact (hn.2 60 h).2.1 rfl
      · exact writeProps_lt e hps h
    · exact hs h
  have hopen : ∀ l, isEndTag ((60 :: c :: l).take 9) = false := by
    intro l
    simp only [List.take_succ_cons]
    unfold isEndTag
    split
    · rename_i heq
      obtain ⟨-, rfl, -⟩ := List.cons_eq_cons.mp heq |>.imp_right List.cons.inj
      simp [hc]
    · rfl
  calc hasEndTag (lit "<" ++ (c :: n) ++ writeProps e ps ++ s ++ t) =
        hasEndTag (60 :: (c :: n ++ writeProps e ps ++ s ++ t)) := by simp [lit_ofList, String.utf8EncodeChar]
    _ = hasEndTag (c :: n ++ writeProps e ps ++ s ++ t) := by
      rw [hasEndTag]
      simp only [List.cons_append, hopen, Bool.false_or]
    _ = hasEndTag t := hasEndTag_text hrest t

theorem hasEndTag_end {n : Bytes} (hn : IsXmlName n) :
    hasEndTag (lit "</" ++ n) = false ∧ hasEndTag (lit "</" ++ n ++ lit ">") = isHaggle n := by
  have hlt : 60 ∉ 47 :: n := by
    intro h
    rcases List.mem_cons.mp h with h | h
    · exact absurd h (by decide)
    · exact (hn.2 60 h).2.1 rfl
  have hgt : 62 ∉ 47 :: n := by
    intro h
    rcases List.mem_cons.mp h with h | h
    · exact absurd h (by decide)
    · exact (hn.2 62 h).2.2 rfl
  constructor
  · refine hasEndTag_of_gt fun h => ?_
    rcases List.mem_cons.mp h with h | h
    · exact absurd h (by decide)
    · exact hgt h
  · exact hasEndTag_single hlt hgt

theorem hasEndTag_ref (n t : Bytes) :
    hasEndTag (lit "&" ++ n ++ lit ";" ++ t) = (hasEndTag n || hasEndTag t) := by
  calc hasEndTag (lit "&" ++ n ++ lit ";" ++ t) = hasEndTag (lit "&" ++ (n ++ 59 :: t)) := by
        simp [lit_ofList, String.utf8EncodeChar]
    _ = hasEndTag (n ++ 59 :: t) := hasEndTag_text (by decide) _
    _ = _ := hasEndTag_semicolon n t

theorem writeCdata_gt (start c : Bytes) : ∃ s, writeCdata start c = s ++ [62] ∨
    writeCdata start c = [] := by
  induction start, c using writeCdata.induct with
  | case1 start l ih =>
    obtain ⟨s, hs | hs⟩ := ih
    · exact ⟨_, .inl (by rw [writeCdata, hs, ← List.append_assoc])⟩
    · exact ⟨lit "<![CDATA[" ++ start ++ lit "]]" ++ lit "]]", .inl (by
        rw [writeCdata, hs]
        simp [lit_ofList, String.utf8EncodeChar])⟩
  | case2 start b l hne ih =>
    obtain ⟨s, hs⟩ := ih
    refine ⟨s, ?_⟩
    rw [writeCdata]
    · exact hs
    · exact hne
  | case3 => exact ⟨[], .inr rfl⟩
  | case4 start hne =>
    refine ⟨lit "<![CDATA[" ++ start ++ lit "]]", .inl ?_⟩
    rw [writeCdata, if_neg hne]
    simp [lit_ofList, String.utf8EncodeChar]

/-- What is written of an element before its end tag. -/
def writeOpen (level : ℕ) (fmt : Bool) (n : Bytes) (ps : List (Bytes × Bytes)) (s : Bytes) :
    Bytes :=
  lit "<" ++ n ++ writeProps e ps ++ lit ">" ++ (if fmt then lit "\n" else []) ++ s ++
    (if fmt then indentation level else [])

theorem write_elem (level : ℕ) (fmt : Bool) (n : Bytes) (ps : List (Bytes × Bytes))
    (cs : List XmlNode) : write e level fmt (.elem n ps cs) =
      if cs.isEmpty then lit "<" ++ n ++ writeProps e ps ++ lit "/>"
      else writeOpen e level (fmt && !cs.any isText) n ps
        (writeList e (level + 1) (fmt && !cs.any isText) cs) ++ (lit "</" ++ n ++ lit ">") := by
  rw [write]
  by_cases hempty : cs.isEmpty = true
  · rw [if_pos hempty, if_pos hempty]
  · rw [if_neg hempty, if_neg hempty]
    simp only [writeOpen, List.append_assoc]

theorem hasEndTag_writeOpen (level : ℕ) (fmt : Bool) {n : Bytes} (hn : IsXmlName n)
    {ps : List (Bytes × Bytes)} (hps : ∀ p ∈ ps, IsXmlName p.1) {s t : Bytes} {b : Bool}
    (hs : ∀ t, hasEndTag (s ++ t) = (b || hasEndTag t)) :
    hasEndTag (writeOpen e level fmt n ps s ++ t) = (b || hasEndTag t) := by
  have hopen := hasEndTag_start e hn hps (s := lit ">") (by decide)
    ((if fmt then lit "\n" else []) ++ (s ++ ((if fmt then indentation level else []) ++ t)))
  calc hasEndTag (writeOpen e level fmt n ps s ++ t) =
        hasEndTag ((if fmt then lit "\n" else []) ++
          (s ++ ((if fmt then indentation level else []) ++ t))) := by
        rw [← hopen, writeOpen]
        simp only [List.append_assoc]
    _ = hasEndTag (s ++ ((if fmt then indentation level else []) ++ t)) :=
        hasEndTag_ite (by decide) _
    _ = (b || hasEndTag t) := by rw [hs, hasEndTag_ite (indentation_lt level)]

end Parts

section Inside

mutual

/-- The end tag is where an element with that name ends, and in the names of entities. -/
theorem hasEndTag_write (level : ℕ) (fmt : Bool) (t : Bytes) : ∀ {x : XmlNode}, x.Named →
    hasEndTag (write e level fmt x ++ t) = (tagIn x || hasEndTag t)
  | .elem n ps cs, hx => by
    obtain ⟨hn, hps, hcs⟩ := hx
    rw [write_elem, tagIn]
    cases hempty : cs.isEmpty with
    | true =>
      obtain rfl := List.isEmpty_iff.mp hempty
      rw [if_pos rfl, tagInList]
      exact hasEndTag_start e hn hps (by decide) t
    | false =>
      rw [if_neg Bool.false_ne_true, List.append_assoc, hasEndTag_writeOpen e _ _ hn hps
        fun t => hasEndTag_writeList (level + 1) _ t hcs]
      have hend : hasEndTag (lit "</" ++ n ++ lit ">" ++ t) = (isHaggle n || hasEndTag t) := by
        rw [show lit ">" = [62] from rfl, hasEndTag_gt]
        exact congrArg (· || hasEndTag t) (hasEndTag_end hn).2
      rw [hend, Bool.not_false, Bool.true_and, Bool.or_assoc]
  | .text s, _ => by
    rw [write, tagIn, Bool.false_or]
    exact hasEndTag_text (e.text_lt s) t
  | .cdata c, _ => by
    rw [write, tagIn]
    obtain ⟨s, hs | hs⟩ := writeCdata_gt [] c
    · rw [hs, hasEndTag_gt]
    · rw [hs]
      rfl
  | .entityRef n _, _ => hasEndTag_ref n t
  | .other, _ => rfl

theorem hasEndTag_writeList (level : ℕ) (fmt : Bool) (t : Bytes) : ∀ {cs : List XmlNode},
    NamedAll cs → hasEndTag (writeList e level fmt cs ++ t) = (tagInList cs || hasEndTag t)
  | [], _ => rfl
  | c :: cs, ⟨hc, hcs⟩ => by
    rw [writeList, tagInList]
    simp only [List.append_assoc]
    rw [hasEndTag_ite (indentation_lt level), hasEndTag_write level fmt _ hc,
      hasEndTag_ite (by decide), hasEndTag_writeList level fmt t hcs, Bool.or_assoc]

end

/-- A document ends with the `>` of its root, and a line break. -/
theorem dumpFormat_eq (n : Bytes) (ps : List (Bytes × Bytes)) (cs : List XmlNode) :
    ∃ s, lit "<?xml version=\"1.0\"?>\n" ++ write e 0 true (.elem n ps cs) = s ++ [62] ∧
      dumpFormat e (.elem n ps cs) = s ++ [62] ++ [10] := by
  obtain ⟨s, hs⟩ : ∃ s, write e 0 true (.elem n ps cs) = s ++ [62] := by
    rw [write_elem]
    split_ifs
    · exact ⟨lit "<" ++ n ++ writeProps e ps ++ [47], by simp [lit_ofList, String.utf8EncodeChar]⟩
    · exact ⟨_, (List.append_assoc _ _ _).symm⟩
  refine ⟨lit "<?xml version=\"1.0\"?>\n" ++ s, ?_, ?_⟩
  · rw [hs, List.append_assoc]
  · rw [dumpFormat, hs, List.append_assoc]
    simp [lit_ofList, String.utf8EncodeChar]

/-- The first line of a document does not matter, nor the last line break. -/
theorem detected_write {n : Bytes} {ps : List (Bytes × Bytes)} {cs : List XmlNode}
    (h : Named (.elem n ps cs)) :
    Detected (lit "<?xml version=\"1.0\"?>\n" ++ write e 0 true (.elem n ps cs)) ↔
      cs ≠ [] ∧ isHaggle n = true ∧ tagInList cs = false := by
  obtain ⟨hn, hps, hcs⟩ := h
  have hdecl : ∀ t, hasEndTag (lit "<?xml version=\"1.0\"?>\n" ++ t) = hasEndTag t := by
    intro t
    have hsplit : lit "<?xml version=\"1.0\"?>\n" =
        lit "<?xml version=\"1.0\"?" ++ [62] ++ [10] := by decide
    have hnone : hasEndTag (lit "<?xml version=\"1.0\"?" ++ [62]) = false := by decide
    rw [hsplit, List.append_assoc, hasEndTag_gt, hnone, Bool.false_or]
    exact hasEndTag_text (by decide) t
  rw [detected_iff, hdecl, write_elem]
  cases hempty : cs.isEmpty with
  | true =>
    obtain rfl := List.isEmpty_iff.mp hempty
    have hnone := hasEndTag_start e hn hps (s := lit "/>") (by decide) []
    rw [List.append_nil] at hnone
    rw [if_pos rfl, hnone]
    exact ⟨fun h => absurd h.1 (by decide), fun h => absurd rfl h.1⟩
  | false =>
    have hne : cs ≠ [] := fun h => by simp [h] at hempty
    rw [if_neg Bool.false_ne_true]
    have hopen : ∀ t, hasEndTag (writeOpen e 0 (true && !cs.any isText) n ps
        (writeList e (0 + 1) (true && !cs.any isText) cs) ++ t) = (tagInList cs || hasEndTag t) :=
      fun t => hasEndTag_writeOpen e _ _ hn hps fun t => hasEndTag_writeList e _ _ t hcs
    generalize writeOpen e 0 (true && !cs.any isText) n ps
      (writeList e (0 + 1) (true && !cs.any isText) cs) = o at hopen ⊢
    have hlast : (lit "<?xml version=\"1.0\"?>\n" ++ (o ++ (lit "</" ++ n ++ lit ">"))).dropLast =
        lit "<?xml version=\"1.0\"?>\n" ++ (o ++ (lit "</" ++ n)) := by
      rw [show lit ">" = [62] from rfl]
      simp only [← List.append_assoc, List.dropLast_concat]
    rw [hlast, hdecl, hopen, hopen, (hasEndTag_end hn).1, (hasEndTag_end hn).2]
    simp only [Bool.or_false, Bool.or_eq_true]
    constructor
    · rintro ⟨hhas, hnone⟩
      rw [hnone] at hhas
      exact ⟨hne, hhas.resolve_left Bool.false_ne_true, hnone⟩
    · exact fun h => ⟨.inr h.2.1, h.2.2⟩

end Inside

end XmlNode

end Haggle
