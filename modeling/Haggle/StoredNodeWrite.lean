import Haggle.StoredNode

/-!
# What an insertion leaves in the tables of nodes

The statements of an insertion do what they are meant to do if their strings can be pasted. The
links of a new node then name its attributes in their order, and its interfaces are in the table if
no other node has them.
-/

namespace Haggle
namespace StoredNode

open StoredObject (columnText columnBlob columnInt milliseconds)

variable (beyond : Bytes → List Sql.Value → Sql.Table → Option (List Sql.Row × Sql.Table))

section Statements

/-- A list of values that is printed as it is meant, in a statement that fits the buffer. -/
structure Printable (head : Bytes) (vs : List Sql.Operand) : Prop where
  printable : ∀ v ∈ vs, v.printable = true
  wellFormed : ∀ v ∈ vs, v.wellFormed = true
  fits : (head ++ (Sql.operandsText vs ++ lit ");")).length ≤ 7999

/-- Whether a row is in conflict with the rows of a table. -/
def conflicts (unique : List Bytes) (t : Sql.Table) (r : Sql.Row) : Bool :=
  t.rows.any fun x => unique.all fun c => Sql.Row.value x c = Sql.Row.value r c

def append (t : Sql.Table) (r : Sql.Row) : Sql.Table :=
  { t with rows := t.rows ++ [r], rowid := t.rowid + 1 }

theorem insertUnique_eq {unique : List Bytes} {head name : Bytes} {cols : List Bytes}
    {vs : List Sql.Operand} {bound : List Sql.Value} {t : Sql.Table}
    (hhead : Sql.feed .between head = (Sql.insertTokens name cols, .between)) (hcols : cols ≠ [])
    (hne : vs ≠ []) (hp : Printable head vs) (hvs : Sql.numbered 0 vs = true)
    (hres : (Sql.Statement.insert name cols vs).resolves t = true) :
    insertUnique beyond unique (insertCmd head vs) bound t =
      if conflicts unique t (Sql.newRow bound t cols vs) then .constraint
      else .row t.rowid (append t (Sql.newRow bound t cols vs)) := by
  have hcompile := Sql.compile_printed hhead hcols hne hp.printable hp.wellFormed hvs
  have htext : insertCmd head vs = head ++ (Sql.operandsText vs ++ [41, 59]) :=
    List.take_of_length_le hp.fits
  have hnew : ((append t (Sql.newRow bound t cols vs)).rows.drop t.rows.length).any (fun r =>
      t.rows.any fun x => unique.all fun c => Sql.Row.value x c = Sql.Row.value r c) =
      conflicts unique t (Sql.newRow bound t cols vs) := by
    rw [append, List.drop_left]
    simp only [List.any_cons, List.any_nil, Bool.or_false, conflicts]
  have hrun : Sql.run beyond (insertCmd head vs) bound t =
      some ([], append t (Sql.newRow bound t cols vs)) := by
    rw [htext]
    exact Sql.run_eq hcompile hres beyond bound
  have hrowid : ((append t (Sql.newRow bound t cols vs)).rowid : ℤ) - 1 = t.rowid := by
    simp [append]
  simp only [insertUnique, hrun, hnew, hrowid]

end Statements

section Attributes

variable {db : NodeTables} {t : Sql.Table} {a : Attribute}

/-- The name and the value that a row number stands for. -/
def nameValue (t : Sql.Table) (id : ℤ) : Option (Bytes × Bytes) :=
  (t.rows.find? fun r => columnInt r (lit "rowid") = id).map fun r =>
    (columnText r (lit "name"), columnText r (lit "value"))

/-- The rows of the attributes are numbered, and hold texts. -/
structure AttributeTable (t : Sql.Table) : Prop where
  name : t.name = emptyTables.attributes.name
  columns : t.columns = emptyTables.attributes.columns
  texts : ∀ r ∈ t.rows, ∃ n v, Sql.Row.value r (lit "name") = .text n ∧
    Sql.Row.value r (lit "value") = .text v
  bound : ∀ r ∈ t.rows, 0 ≤ columnInt r (lit "rowid") ∧ columnInt r (lit "rowid") < t.rowid
  nodup : (t.rows.map fun r => columnInt r (lit "rowid")).Nodup

/-- An attribute whose strings can be pasted. -/
structure PastableAttribute (a : Attribute) : Prop where
  quotes : 39 ∉ a.name ∧ 39 ∉ a.value
  nul : 0 ∉ a.name ∧ 0 ∉ a.value
  insertFits : (insertAttrHead ++ (Sql.operandsText (insertAttrValues a) ++ lit ");")).length ≤ 7999
  findFits : (lit "SELECT * FROM table_attributes WHERE (name='" ++ (cStr a.name ++
    (lit "' AND value='" ++ (cStr a.value ++ lit "');")))).length ≤ 7999
  weight : (signed a.weight).natAbs < 2 ^ 63

/-- The new row of an attribute. -/
def attributeRow (t : Sql.Table) (a : Attribute) : Sql.Row :=
  Sql.newRow [] t [lit "name", lit "value"] (insertAttrValues a)

/-- Whether a row is the one of an attribute. -/
def isAttribute (a : Attribute) (r : Sql.Row) : Bool :=
  Sql.Row.value r (lit "name") = .text a.name && Sql.Row.value r (lit "value") = .text a.value

theorem PastableAttribute.printable (h : PastableAttribute a) :
    Printable insertAttrHead (insertAttrValues a) where
  printable := by
    simp only [insertAttrValues, List.forall_mem_cons, List.not_mem_nil, false_implies,
      implies_true, and_true, Sql.Operand.printable, decide_eq_true_eq]
    exact ⟨quote_cStr h.quotes.1, quote_cStr h.quotes.2⟩
  wellFormed := by
    simp only [insertAttrValues, List.forall_mem_cons, List.not_mem_nil, false_implies,
      implies_true, Sql.Operand.wellFormed, and_self]
  fits := h.insertFits

theorem attributeRow_values (h : PastableAttribute a) (t : Sql.Table) :
    Sql.Row.value (attributeRow t a) (lit "rowid") = .int t.rowid ∧
      Sql.Row.value (attributeRow t a) (lit "name") = .text a.name ∧
      Sql.Row.value (attributeRow t a) (lit "value") = .text a.value := by
  have hname : Sql.Row.value (attributeRow t a) (lit "name") = .text (cStr a.name) := rfl
  have hvalue : Sql.Row.value (attributeRow t a) (lit "value") = .text (cStr a.value) := rfl
  rw [hname, hvalue, cStr_eq h.nul.1, cStr_eq h.nul.2]
  exact ⟨rfl, rfl, rfl⟩

theorem insertUnique_attribute (ht : AttributeTable t) (h : PastableAttribute a) :
    insertUnique beyond [lit "name", lit "value"]
        (insertCmd insertAttrHead (insertAttrValues a)) [] t =
      if t.rows.any (isAttribute a) then .constraint
      else .row t.rowid (append t (attributeRow t a)) := by
  have hhead : Sql.feed .between insertAttrHead =
      (Sql.insertTokens (lit "table_attributes") [lit "name", lit "value"], .between) := by
    simp only [insertAttrHead, Sql.insertTokens, Sql.columnsTokens, lit_ofList, Sql.ascii_ofList]
    decide
  have hres : (Sql.Statement.insert (lit "table_attributes") [lit "name", lit "value"]
      (insertAttrValues a)).resolves t = true := by
    simp [Sql.Statement.resolves, ht.name, ht.columns, emptyTables, insertAttrValues]
  have hconflict : conflicts [lit "name", lit "value"] t (attributeRow t a) =
      t.rows.any (isAttribute a) := by
    obtain ⟨-, hname, hvalue⟩ := attributeRow_values h t
    simp only [conflicts, List.all_cons, List.all_nil, Bool.and_true, hname, hvalue]
    rfl
  rw [insertUnique_eq beyond hhead (by simp) (by simp [insertAttrValues]) h.printable rfl hres]
  simp only [← hconflict, attributeRow]

/-- The condition of `SQL_FIND_ATTR_CMD`. -/
def onAttribute (a : Attribute) : List Sql.Comparison :=
  [⟨lit "name", .equal, .string a.name⟩, ⟨lit "value", .equal, .string a.value⟩]

theorem compile_findAttrCmd (h : PastableAttribute a) :
    (Sql.tokens (findAttrCmd a)).bind Sql.compile =
      some (.select (lit "table_attributes") (onAttribute a)) := by
  have hselect : Sql.feed .between (lit "SELECT * FROM table_attributes WHERE (name='") =
      ([.word (lit "SELECT"), .symbol 42, .word (lit "FROM"), .word (lit "table_attributes"),
        .word (lit "WHERE"), .symbol 40, .word (lit "name"), .symbol 61], .inString []) := by
    simp only [lit_ofList]
    decide
  have hand : ∀ s, Sql.feed (.inString s) (lit "' AND value='") =
      ([.string s.reverse, .word (lit "AND"), .word (lit "value"), .symbol 61], .inString []) :=
    fun s => rfl
  have hclose : ∀ s, Sql.feed (.inString s) (lit "');") =
      ([.string s.reverse, .symbol 41, .symbol 59], .between) := fun s => rfl
  have htext : findAttrCmd a = lit "SELECT * FROM table_attributes WHERE (name='" ++ (a.name ++
      (lit "' AND value='" ++ (a.value ++ lit "');"))) := by
    rw [findAttrCmd, sqlcmd, List.take_of_length_le h.findFits, cStr_eq h.nul.1, cStr_eq h.nul.2]
  simp only [Sql.tokens, htext, Sql.feed_append, hselect, Sql.feed_inString h.quotes.1,
    Sql.feed_inString h.quotes.2, hand, hclose, Sql.finish, Option.map_some, Option.bind_some,
    List.append_nil, List.reverse_reverse, List.nil_append]
  rfl

theorem holdsAll_onAttribute (ht : AttributeTable t) {r : Sql.Row} (hr : r ∈ t.rows) :
    Sql.holdsAll [] (onAttribute a) r = isAttribute a r := by
  obtain ⟨n, v, hn, hv⟩ := ht.texts r hr
  have hsame : ∀ x y : Bytes, (Sql.Value.text x).same (.text y) = decide (x = y) := by
    intro x y
    simp [Sql.Value.same]
  simp only [Sql.holdsAll, onAttribute, List.all_cons, List.all_nil, Bool.and_true,
    Sql.Comparison.holds, Sql.Operand.eval, hn, hv, hsame, isAttribute, Sql.Value.text.injEq]

/-- The number of a row of the attribute is found if there is one. -/
theorem getAttributeRowId_eq (ht : AttributeTable db.attributes) (h : PastableAttribute a)
    {r : Sql.Row} (hr : db.attributes.rows.find? (isAttribute a) = some r) :
    getAttributeRowId beyond db a = columnInt r (lit "rowid") := by
  have hres : (Sql.Statement.select (lit "table_attributes") (onAttribute a)).resolves
      db.attributes = true := by
    rw [Sql.Statement.resolves, ht.name, ht.columns]
    rfl
  have hfilter : db.attributes.rows.filter (Sql.holdsAll [] (onAttribute a)) =
      db.attributes.rows.filter (isAttribute a) :=
    List.filter_congr fun r hr => holdsAll_onAttribute ht hr
  have hrun := Sql.run_eq (compile_findAttrCmd h) hres beyond []
  rw [Sql.Statement.execute, hfilter] at hrun
  obtain ⟨l, hl⟩ : ∃ l, db.attributes.rows.filter (isAttribute a) = r :: l := by
    rw [← List.head?_filter] at hr
    exact List.head?_eq_some_iff.mp hr
  unfold getAttributeRowId
  rw [hrun, hl]

theorem nameValue_append {id : ℤ} {v : Bytes × Bytes} (h : nameValue t id = some v) (r : Sql.Row) :
    nameValue (append t r) id = some v := by
  obtain ⟨x, hx, hv⟩ := Option.map_eq_some_iff.mp h
  rw [nameValue, append, List.find?_append, hx, Option.some_or, Option.map_some, hv]

theorem AttributeTable.append (ht : AttributeTable t) (h : PastableAttribute a) :
    AttributeTable (append t (attributeRow t a)) := by
  obtain ⟨hrowid, hname, hvalue⟩ := attributeRow_values h t
  have hnew : columnInt (attributeRow t a) (lit "rowid") = t.rowid := by
    rw [columnInt, hrowid]
  refine ⟨ht.name, ht.columns, ?_, ?_, ?_⟩
  · intro r hr
    rcases List.mem_append.mp hr with hr | hr
    · exact ht.texts r hr
    · rw [List.mem_singleton.mp hr]
      exact ⟨a.name, a.value, hname, hvalue⟩
  · intro r hr
    have hrowid : (StoredNode.append t (attributeRow t a)).rowid = t.rowid + 1 := rfl
    rcases List.mem_append.mp hr with hr | hr
    · have hb := ht.bound r hr
      omega
    · rw [List.mem_singleton.mp hr, hnew]
      omega
  · have hfresh : columnInt (attributeRow t a) (lit "rowid") ∉
        t.rows.map fun r => columnInt r (lit "rowid") := by
      intro hmem
      obtain ⟨r, hr, heq⟩ := List.mem_map.mp hmem
      have hb := ht.bound r hr
      omega
    have hmap : (StoredNode.append t (attributeRow t a)).rows.map
        (fun r => columnInt r (lit "rowid")) =
        t.rows.map (fun r => columnInt r (lit "rowid")) ++
          [columnInt (attributeRow t a) (lit "rowid")] := List.map_append
    rw [hmap, ← List.concat_eq_append]
    exact ht.nodup.concat hfresh

/-- A row of the table is found under its number. -/
theorem nameValue_of_mem (ht : AttributeTable t) {r : Sql.Row} (hr : r ∈ t.rows) :
    nameValue t (columnInt r (lit "rowid")) =
      some (columnText r (lit "name"), columnText r (lit "value")) := by
  have hfind : t.rows.find? (fun x => columnInt x (lit "rowid") = columnInt r (lit "rowid")) =
      some r := by
    obtain ⟨x, hx⟩ : ∃ x, t.rows.find?
        (fun x => columnInt x (lit "rowid") = columnInt r (lit "rowid")) = some x := by
      rw [← Option.isSome_iff_exists, List.find?_isSome]
      exact ⟨r, hr, by simp⟩
    have hsame : columnInt x (lit "rowid") = columnInt r (lit "rowid") := by
      simpa using List.find?_some hx
    rw [hx, List.inj_on_of_nodup_map ht.nodup (List.mem_of_find?_eq_some hx) hr hsame]
  rw [nameValue, hfind, Option.map_some]

/-- Behind the first statement for an attribute there is a row for it. -/
theorem insertAttribute_eq (ht : AttributeTable db.attributes) (h : PastableAttribute a) (R : ℤ) :
    ∃ id t, insertAttribute beyond R a db = insertLink beyond R id a.weight
        { db with attributes := t } ∧ AttributeTable t ∧ t.rowid ≤ db.attributes.rowid + 1 ∧
      0 ≤ id ∧ id < t.rowid ∧ nameValue t id = some (a.name, a.value) ∧
      ∀ i v, nameValue db.attributes i = some v → nameValue t i = some v := by
  have hinsert := insertUnique_attribute beyond ht h
  by_cases hany : db.attributes.rows.any (isAttribute a) = true
  · rw [if_pos hany] at hinsert
    obtain ⟨r, hfind⟩ : ∃ r, db.attributes.rows.find? (isAttribute a) = some r := by
      rw [← Option.isSome_iff_exists, List.find?_isSome]
      exact List.any_eq_true.mp hany
    have hr := List.mem_of_find?_eq_some hfind
    have hattr := List.find?_some hfind
    simp only [isAttribute, Bool.and_eq_true, decide_eq_true_eq] at hattr
    have hvalue := nameValue_of_mem ht hr
    simp only [columnText, hattr.1, hattr.2] at hvalue
    have hb := ht.bound r hr
    refine ⟨columnInt r (lit "rowid"), db.attributes, ?_, ht, Nat.le_succ _, hb.1, hb.2, hvalue,
      fun _ _ h => h⟩
    unfold insertAttribute
    simp only [hinsert, getAttributeRowId_eq beyond ht h hfind]
  · rw [if_neg hany] at hinsert
    obtain ⟨hrowid, hname, hvalue⟩ := attributeRow_values h db.attributes
    have ht' := ht.append h
    have hmem : attributeRow db.attributes a ∈
        (append db.attributes (attributeRow db.attributes a)).rows :=
      List.mem_append_right _ (List.mem_singleton_self _)
    have hnew := nameValue_of_mem ht' hmem
    simp only [columnText, columnInt, hrowid, hname, hvalue] at hnew
    refine ⟨db.attributes.rowid, _, ?_, ht', le_refl _, Int.natCast_nonneg _, ?_, hnew,
      fun _ _ h => nameValue_append h _⟩
    · unfold insertAttribute
      simp only [hinsert]
    · exact Int.ofNat_lt.mpr (Nat.lt_succ_self _)

end Attributes

section Links

variable {db : NodeTables}

/-- The attributes of a node, as numbers of rows, and their weights. -/
def linksOf (db : NodeTables) (R : ℤ) : List (ℤ × ℤ) :=
  (db.links.rows.filter (ofNode R)).map fun r =>
    (columnInt r (lit "attr_rowid"), columnInt r (lit "weight"))

structure LinkTable (t : Sql.Table) : Prop where
  name : t.name = emptyTables.links.name
  columns : t.columns = emptyTables.links.columns
  ints : ∀ r ∈ t.rows, ∃ n a : ℤ, Sql.Row.value r (lit "node_rowid") = .int n ∧
    Sql.Row.value r (lit "attr_rowid") = .int a

def linkColumns : List Bytes := [lit "node_rowid", lit "attr_rowid", lit "weight"]

def linkRow (t : Sql.Table) (R id : ℤ) (w : ℕ) : Sql.Row :=
  Sql.newRow [] t linkColumns (insertNodeAttrValues R id w)

theorem linkRow_values (t : Sql.Table) (R id : ℤ) (w : ℕ) :
    Sql.Row.value (linkRow t R id w) (lit "node_rowid") = .int R ∧
      Sql.Row.value (linkRow t R id w) (lit "attr_rowid") = .int id ∧
      Sql.Row.value (linkRow t R id w) (lit "weight") = .int (signed w) :=
  ⟨eval_printed [] R, eval_printed [] id, eval_printed [] (signed w)⟩

theorem length_text_printed {z : ℤ} (hz : z.natAbs < 2 ^ 63) : (printed z).text.length ≤ 20 := by
  have hdigits : (decimal z.natAbs).length ≤ 19 := length_decimal_le (by norm_num) (by omega)
  rw [printed]
  split_ifs <;> simp only [Sql.Operand.text, List.length_cons] <;> omega

theorem printable_link {R id : ℤ} {w : ℕ} (hR : R.natAbs < 2 ^ 63) (hid : id.natAbs < 2 ^ 63)
    (hw : (signed w).natAbs < 2 ^ 63) :
    Printable insertNodeAttrHead (insertNodeAttrValues R id w) where
  printable := by
    simp only [insertNodeAttrValues, List.forall_mem_cons, List.not_mem_nil, false_implies,
      implies_true, printable_printed, and_self]
  wellFormed := by
    simp only [insertNodeAttrValues, List.forall_mem_cons, List.not_mem_nil, false_implies,
      implies_true, wellFormed_printed hR, wellFormed_printed hid, wellFormed_printed hw, and_self]
  fits := by
    have hhead : insertNodeAttrHead.length ≤ 100 := by
      simp only [insertNodeAttrHead, lit_ofList]
      decide
    have h1 := length_text_printed hR
    have h2 := length_text_printed hid
    have h3 := length_text_printed hw
    have hend : (lit ");").length = 2 := rfl
    simp only [insertNodeAttrValues, Sql.operandsText, List.length_append, List.length_cons, hend]
    omega

/-- A link that is not there yet is added behind the others. -/
theorem insertLink_eq (db : NodeTables) (ht : LinkTable db.links) {R id : ℤ} {w : ℕ}
    (hR : R.natAbs < 2 ^ 63) (hid : id.natAbs < 2 ^ 63) (hw : (signed w).natAbs < 2 ^ 63)
    (hnew : ∀ l ∈ linksOf db R, l.1 ≠ id) :
    ∃ t, insertLink beyond R id w db = ({ db with links := t }, true) ∧ LinkTable t ∧
      linksOf { db with links := t } R = linksOf db R ++ [(id, signed w)] ∧
      ∀ r ∈ t.rows, r ∈ db.links.rows ∨ ofNode R r = true := by
  have hhead : Sql.feed .between insertNodeAttrHead =
      (Sql.insertTokens (lit "table_map_nodes_to_attributes_via_rowid") linkColumns, .between) := by
    simp only [insertNodeAttrHead, linkColumns, Sql.insertTokens, Sql.columnsTokens, lit_ofList,
      Sql.ascii_ofList]
    decide
  have hres : (Sql.Statement.insert (lit "table_map_nodes_to_attributes_via_rowid") linkColumns
      (insertNodeAttrValues R id w)).resolves db.links = true := by
    simp [Sql.Statement.resolves, ht.name, ht.columns, emptyTables, linkColumns, insertNodeAttrValues]
  have hnumbered : Sql.numbered 0 (insertNodeAttrValues R id w) = true := by
    have hprinted : ∀ k z vs, Sql.numbered k (printed z :: vs) = Sql.numbered k vs := by
      intro k z vs
      rw [printed]
      split_ifs <;> rfl
    simp only [insertNodeAttrValues, hprinted, Sql.numbered]
  obtain ⟨hnode, hattr, hweight⟩ := linkRow_values db.links R id w
  have hconflict : conflicts [lit "node_rowid", lit "attr_rowid"] db.links
      (linkRow db.links R id w) = false := by
    rw [conflicts, List.any_eq_false]
    intro r hr hall
    simp only [List.all_cons, List.all_nil, Bool.and_true, hnode, hattr, Bool.and_eq_true,
      decide_eq_true_eq] at hall
    have hmem : (id, columnInt r (lit "weight")) ∈ linksOf db R := by
      refine List.mem_map.mpr ⟨r, List.mem_filter.mpr ⟨hr, ?_⟩, ?_⟩
      · simp only [ofNode, columnInt, hall.1, decide_true]
      · simp only [columnInt, hall.2]
    exact hnew _ hmem rfl
  have hinsert : insertUnique beyond [lit "node_rowid", lit "attr_rowid"]
      (insertCmd insertNodeAttrHead (insertNodeAttrValues R id w)) [] db.links =
      .row db.links.rowid (append db.links (linkRow db.links R id w)) := by
    have hcols : linkColumns ≠ [] := by simp [linkColumns]
    have hne : insertNodeAttrValues R id w ≠ [] := by simp [insertNodeAttrValues]
    rw [insertUnique_eq beyond hhead hcols hne (printable_link hR hid hw) hnumbered hres]
    rw [← linkRow, hconflict, if_neg Bool.false_ne_true]
  have htable : LinkTable (append db.links (linkRow db.links R id w)) := by
    refine ⟨ht.name, ht.columns, fun r hr => ?_⟩
    rcases List.mem_append.mp hr with hr | hr
    · exact ht.ints r hr
    · rw [List.mem_singleton.mp hr]
      exact ⟨R, id, hnode, hattr⟩
  have hof : ofNode R (linkRow db.links R id w) = true := by
    simp only [ofNode, columnInt, hnode, decide_true]
  refine ⟨append db.links (linkRow db.links R id w), ?_, htable, ?_, ?_⟩
  · unfold insertLink
    rw [hinsert]
  · simp only [linksOf, append, List.filter_append, List.map_append, List.filter_cons, hof, if_true,
      List.filter_nil, List.map_cons, List.map_nil, columnInt, hattr, hweight]
  · intro r hr
    refine (List.mem_append.mp hr).imp_right fun hr => ?_
    rw [List.mem_singleton.mp hr, hof]

end Links

section Loop

variable {db : NodeTables} {R : ℤ}

def nameAndValue (a : Attribute) : Bytes × Bytes := (a.name, a.value)

/-- The links of a node name these attributes. -/
def Named (db : NodeTables) (R : ℤ) (p : List Attribute) : Prop :=
  (linksOf db R).map (fun l => (nameValue db.attributes l.1, l.2)) =
    p.map fun a => (some (nameAndValue a), signed a.weight)

theorem Named.exists_of_mem {p : List Attribute} (h : Named db R p) {l : ℤ × ℤ}
    (hl : l ∈ linksOf db R) : ∃ a ∈ p, nameValue db.attributes l.1 = some (nameAndValue a) := by
  have hmem : (nameValue db.attributes l.1, l.2) ∈
      p.map fun a => (some (nameAndValue a), signed a.weight) := by
    rw [← h]
    exact List.mem_map_of_mem hl
  obtain ⟨a, ha, heq⟩ := List.mem_map.mp hmem
  exact ⟨a, ha, (congrArg Prod.fst heq).symm⟩

/-- One more attribute. -/
theorem insertAttribute_step (hta : AttributeTable db.attributes) (htl : LinkTable db.links)
    (hR : R.natAbs < 2 ^ 63) {a : Attribute} (ha : PastableAttribute a)
    (hsmall : db.attributes.rowid < 2 ^ 63) {p : List Attribute} (hn : Named db R p)
    (hnew : nameAndValue a ∉ p.map nameAndValue) :
    ∃ ta tl, insertAttribute beyond R a db = ({ db with attributes := ta, links := tl }, true) ∧
      AttributeTable ta ∧ LinkTable tl ∧ ta.rowid ≤ db.attributes.rowid + 1 ∧
      Named { db with attributes := ta, links := tl } R (p ++ [a]) ∧
      ∀ r ∈ tl.rows, r ∈ db.links.rows ∨ ofNode R r = true := by
  obtain ⟨id, ta, heq, hta', hrowid, hnonneg, hid, hvalue, hkeep⟩ :=
    insertAttribute_eq beyond hta ha R
  have hfresh : ∀ l ∈ linksOf { db with attributes := ta } R, l.1 ≠ id := by
    rintro l hl rfl
    obtain ⟨a', ha', hname⟩ := hn.exists_of_mem hl
    have hsame := (hkeep _ _ hname).symm.trans hvalue
    exact hnew (List.mem_map.mpr ⟨a', ha', Option.some.inj hsame⟩)
  obtain ⟨tl, hlink, htl', hlinks, hrows⟩ := insertLink_eq beyond
    { db with attributes := ta } htl hR (by omega) ha.weight hfresh
  refine ⟨ta, tl, heq.trans hlink, hta', htl', hrowid, ?_, hrows⟩
  have hold : (linksOf db R).map (fun l => (nameValue ta l.1, l.2)) =
      (linksOf db R).map fun l => (nameValue db.attributes l.1, l.2) := by
    apply List.map_congr_left
    intro l hl
    obtain ⟨a', -, hname⟩ := hn.exists_of_mem hl
    rw [hkeep _ _ hname, hname]
  have hlinks' : linksOf { db with attributes := ta, links := tl } R =
      linksOf db R ++ [(id, signed a.weight)] := hlinks
  rw [Named, hlinks', List.map_append, List.map_append, ← hn, ← hold]
  simp only [List.map_cons, List.map_nil, hvalue, nameAndValue]

/-- All attributes of a node. -/
theorem insertAttributes_run (l : List Attribute) (db : NodeTables)
    (hta : AttributeTable db.attributes) (htl : LinkTable db.links) (hR : R.natAbs < 2 ^ 63)
    (hl : ∀ a ∈ l, PastableAttribute a) (hsmall : db.attributes.rowid + l.length ≤ 2 ^ 63)
    {p : List Attribute} (hn : Named db R p) (hd : ((p ++ l).map nameAndValue).Nodup) :
    ∃ ta tl, runAll (insertAttribute beyond R) l db =
        ({ db with attributes := ta, links := tl }, true) ∧ AttributeTable ta ∧ LinkTable tl ∧
      Named { db with attributes := ta, links := tl } R (p ++ l) ∧
      ∀ r ∈ tl.rows, r ∈ db.links.rows ∨ ofNode R r = true := by
  induction l generalizing db p with
  | nil =>
    exact ⟨db.attributes, db.links, rfl, hta, htl, by rwa [List.append_nil], fun r hr => .inl hr⟩
  | cons a l ih =>
    rw [List.forall_mem_cons] at hl
    rw [List.length_cons] at hsmall
    have hnew : nameAndValue a ∉ p.map nameAndValue := by
      rw [List.map_append, List.map_cons] at hd
      intro hmem
      exact (List.nodup_append.mp hd).2.2 _ hmem _ List.mem_cons_self rfl
    obtain ⟨ta, tl, hstep, hta', htl', hrowid, hn', hrows⟩ :=
      insertAttribute_step beyond hta htl hR hl.1 (by omega) hn hnew
    obtain ⟨ta', tl', hrun, hta'', htl'', hn'', hrows'⟩ := ih
      { db with attributes := ta, links := tl } (p := p ++ [a]) hta' htl' hl.2
      (by change ta.rowid + l.length ≤ 2 ^ 63; omega) hn' (by rwa [List.append_assoc])
    refine ⟨ta', tl', ?_, hta'', htl'', by rwa [List.append_assoc] at hn'', fun r hr => ?_⟩
    · rw [runAll, hstep]
      exact hrun
    · rcases hrows' r hr with hr | hr
      · exact hrows r hr
      · exact .inr hr

end Loop

section Interfaces

variable {db : NodeTables} {t : Sql.Table} {R : ℤ} {i : Interface}

def interfaceKey (i : Interface) : ℤ × Bytes := (interfaceTypeNumber i.type, i.identifier)

/-- Whether a row is the one of an interface, of whatever node. -/
def isInterface (i : Interface) (r : Sql.Row) : Bool :=
  Sql.Row.value r (lit "type") = .int (interfaceTypeNumber i.type) &&
    Sql.Row.value r (lit "mac") = .blob i.identifier

structure InterfaceTable (t : Sql.Table) : Prop where
  name : t.name = emptyTables.interfaces.name
  columns : t.columns = emptyTables.interfaces.columns

/-- An interface whose readable form can be pasted. -/
structure PastableInterface (R : ℤ) (i : Interface) : Prop where
  quotes : 39 ∉ i.identifierStr
  fits : (insertIfaceHead ++ (Sql.operandsText (insertIfaceValues R i) ++ lit ");")).length ≤ 7999

def interfaceColumns : List Bytes := [lit "type", lit "mac", lit "mac_str", lit "node_rowid"]

def interfaceRow (t : Sql.Table) (R : ℤ) (i : Interface) : Sql.Row :=
  Sql.newRow [.blob i.identifier] t interfaceColumns (insertIfaceValues R i)

theorem interfaceRow_values (t : Sql.Table) (R : ℤ) (i : Interface) :
    Sql.Row.value (interfaceRow t R i) (lit "node_rowid") = .int R ∧
      Sql.Row.value (interfaceRow t R i) (lit "type") = .int (interfaceTypeNumber i.type) ∧
      Sql.Row.value (interfaceRow t R i) (lit "mac") = .blob i.identifier :=
  ⟨eval_printed [.blob i.identifier] R, eval_decimal [.blob i.identifier] _, rfl⟩

theorem interfaceTypeNumber_inj {x y : InterfaceType}
    (h : interfaceTypeNumber x = interfaceTypeNumber y) : x = y := by
  cases x <;> cases y <;> first | rfl | cases h

theorem isInterface_interfaceRow {j : Interface} :
    isInterface j (interfaceRow t R i) = j.same i := by
  obtain ⟨-, htype, hmac⟩ := interfaceRow_values t R i
  rw [isInterface, htype, hmac, Bool.eq_iff_iff, Interface.same_iff]
  simp only [Bool.and_eq_true, decide_eq_true_eq, Sql.Value.int.injEq, Nat.cast_inj,
    Sql.Value.blob.injEq]
  constructor
  · exact fun h => ⟨(interfaceTypeNumber_inj h.1).symm, h.2.symm⟩
  · exact fun h => ⟨by rw [h.1], h.2.symm⟩

theorem PastableInterface.printable (h : PastableInterface R i) (hR : R.natAbs < 2 ^ 63) :
    Printable insertIfaceHead (insertIfaceValues R i) where
  printable := by
    have hstring : (Sql.Operand.string (cStr i.identifierStr)).printable = true := by
      simpa [Sql.Operand.printable] using quote_cStr h.quotes
    simp only [insertIfaceValues, List.forall_mem_cons, List.not_mem_nil, false_implies,
      implies_true, printable_decimal, printable_printed, hstring, and_true, true_and]
    rfl
  wellFormed := by
    have htype : (Sql.Operand.numeral (decimal (interfaceTypeNumber i.type))).wellFormed = true := by
      apply wellFormed_decimal
      cases i.type <;> norm_num [interfaceTypeNumber]
    simp only [insertIfaceValues, List.forall_mem_cons, List.not_mem_nil, false_implies,
      implies_true, htype, wellFormed_printed hR, and_true, true_and]
    exact ⟨rfl, rfl⟩
  fits := h.fits

theorem insertUnique_interface (ht : InterfaceTable t) (hR : R.natAbs < 2 ^ 63)
    (h : PastableInterface R i) :
    insertUnique beyond [lit "type", lit "mac"]
        (insertCmd insertIfaceHead (insertIfaceValues R i)) [.blob i.identifier] t =
      if t.rows.any (isInterface i) then .constraint
      else .row t.rowid (append t (interfaceRow t R i)) := by
  have hhead : Sql.feed .between insertIfaceHead =
      (Sql.insertTokens (lit "table_interfaces") interfaceColumns, .between) := by
    simp only [insertIfaceHead, interfaceColumns, Sql.insertTokens, Sql.columnsTokens, lit_ofList,
      Sql.ascii_ofList]
    decide
  have hres : (Sql.Statement.insert (lit "table_interfaces") interfaceColumns
      (insertIfaceValues R i)).resolves t = true := by
    simp [Sql.Statement.resolves, ht.name, ht.columns, emptyTables, interfaceColumns, insertIfaceValues]
  have hnumbered : Sql.numbered 0 (insertIfaceValues R i) = true := by
    have hprinted : ∀ k z, Sql.numbered k [printed z] = true := by
      intro k z
      rw [printed]
      split_ifs <;> rfl
    simp only [insertIfaceValues, Sql.numbered, hprinted, decide_true, Bool.and_true]
  have hconflict : conflicts [lit "type", lit "mac"] t (interfaceRow t R i) =
      t.rows.any (isInterface i) := by
    obtain ⟨-, htype, hmac⟩ := interfaceRow_values t R i
    simp only [conflicts, List.all_cons, List.all_nil, Bool.and_true, htype, hmac]
    rfl
  have hcols : interfaceColumns ≠ [] := by simp [interfaceColumns]
  have hne : insertIfaceValues R i ≠ [] := by simp [insertIfaceValues]
  rw [insertUnique_eq beyond hhead hcols hne (h.printable hR) hnumbered hres, ← interfaceRow,
    hconflict]

/-- An interface that no node has is added behind the others. -/
theorem insertInterface_eq (ht : InterfaceTable db.interfaces) (hR : R.natAbs < 2 ^ 63)
    (h : PastableInterface R i) (hnew : db.interfaces.rows.any (isInterface i) = false) :
    insertInterface beyond R i db = ({ db with
      interfaces := append db.interfaces (interfaceRow db.interfaces R i) }, true) := by
  have hinsert := insertUnique_interface beyond ht hR h
  rw [hnew, if_neg Bool.false_ne_true] at hinsert
  unfold insertInterface
  rw [hinsert]

end Interfaces

section Insert

variable {db : NodeTables} {n : Node}

/-- The tables of nodes of a data store that is in order: what belongs to a node has the number of
one that was inserted. -/
structure Sound (db : NodeTables) : Prop where
  name : db.nodes.name = emptyTables.nodes.name
  columns : db.nodes.columns = emptyTables.nodes.columns
  attributes : AttributeTable db.attributes
  links : LinkTable db.links
  interfaces : InterfaceTable db.interfaces
  linked : ∀ r ∈ db.links.rows, columnInt r (lit "node_rowid") < db.nodes.rowid
  owned : ∀ r ∈ db.interfaces.rows, columnInt r (lit "node_rowid") < db.nodes.rowid

/-- A node all of whose strings can be pasted. -/
structure Pastable (R : ℕ) (n : Node) : Prop where
  quotes : 39 ∉ n.name
  numbers : (milliseconds n.nodeDescriptionCreateTime).natAbs < 2 ^ 63 ∧
    n.maxDataObjectsInMatch < 2 ^ 63 ∧ n.matchThreshold < 2 ^ 63
  fits : (insertNodeHead ++ (Sql.operandsText (insertNodeValues n) ++ lit ");")).length ≤ 7999
  attributes : ∀ e ∈ n.attrs.toList, PastableAttribute e.2
  interfaces : ∀ i ∈ n.interfaces, PastableInterface R i

/-- A node as its own operations keep it: no attribute and no interface is there twice. -/
structure Distinct (n : Node) : Prop where
  attributes : Attributes.Distinct n.attrs.toList
  interfaces : n.interfaces.Pairwise fun i j => i.same j = false

def nodeColumns : List Bytes :=
  [lit "type", lit "id", lit "id_str", lit "name", lit "bloomfilter",
    lit "nodedescription_createtime", lit "resolution_max_matching_dataobjects",
    lit "resolution_threshold"]

def nodeRow (t : Sql.Table) (n : Node) : Sql.Row :=
  Sql.newRow [.blob n.id.1, .blob n.bloomfilter.raw] t nodeColumns (insertNodeValues n)

theorem quote_idStr (n : Node) : 39 ∉ idStr n := by
  have hdigit : ∀ k < 16, Interface.hexDigit k ≠ 39 := by decide
  intro hmem
  obtain ⟨b, -, hb⟩ := List.mem_flatMap.mp hmem
  have hlt : b.toNat < 256 := UInt8.toNat_lt b
  simp only [Interface.hexByte, List.mem_cons, List.not_mem_nil, or_false] at hb
  rcases hb with hb | hb
  · exact hdigit _ (by omega) hb.symm
  · exact hdigit _ (by omega) hb.symm

theorem Pastable.printable {R : ℕ} (h : Pastable R n) :
    Printable insertNodeHead (insertNodeValues n) where
  printable := by
    have hid : (Sql.Operand.string (cStr (idStr n))).printable = true := by
      simpa [Sql.Operand.printable] using quote_cStr (quote_idStr n)
    have hname : (Sql.Operand.string (cStr n.name)).printable = true := by
      simpa [Sql.Operand.printable] using quote_cStr h.quotes
    have hparam : ∀ k, (Sql.Operand.parameter k).printable = true := fun k => rfl
    simp only [insertNodeValues, List.forall_mem_cons, List.not_mem_nil, false_implies,
      implies_true, printable_decimal, printable_printed, hid, hname, hparam, and_self]
  wellFormed := by
    have htype : (Sql.Operand.numeral (decimal (nodeTypeNumber n.type))).wellFormed = true := by
      apply wellFormed_decimal
      cases n.type <;> norm_num [nodeTypeNumber]
    have hstring : ∀ s, (Sql.Operand.string s).wellFormed = true := fun s => rfl
    have hparam : ∀ k, (Sql.Operand.parameter k).wellFormed = true := fun k => rfl
    simp only [insertNodeValues, List.forall_mem_cons, List.not_mem_nil, false_implies,
      implies_true, htype, hstring, hparam, wellFormed_printed h.numbers.1,
      wellFormed_decimal h.numbers.2.1, wellFormed_decimal h.numbers.2.2, and_self]
  fits := h.fits

theorem insertNodeRow_eq (hs : Sound db) {R : ℕ} (h : Pastable R n) :
    insertNodeRow beyond n db = if db.nodes.rows.any (hasNodeId n.id) then .constraint
      else .row db.nodes.rowid (append db.nodes (nodeRow db.nodes n)) := by
  have hhead : Sql.feed .between insertNodeHead =
      (Sql.insertTokens (lit "table_nodes") nodeColumns, .between) := by
    simp only [insertNodeHead, nodeColumns, Sql.insertTokens, Sql.columnsTokens, lit_ofList,
      Sql.ascii_ofList]
    decide
  have hres : (Sql.Statement.insert (lit "table_nodes") nodeColumns
      (insertNodeValues n)).resolves db.nodes = true := by
    simp [Sql.Statement.resolves, hs.name, hs.columns, emptyTables, nodeColumns, insertNodeValues]
  have hnumbered : Sql.numbered 0 (insertNodeValues n) = true := by
    have hprinted : ∀ k z vs, Sql.numbered k (printed z :: vs) = Sql.numbered k vs := by
      intro k z vs
      rw [printed]
      split_ifs <;> rfl
    simp only [insertNodeValues, Sql.numbered, hprinted, decide_true, Bool.and_self]
  have hconflict : conflicts [lit "id"] db.nodes (nodeRow db.nodes n) =
      db.nodes.rows.any (hasNodeId n.id) := by
    have hid : Sql.Row.value (nodeRow db.nodes n) (lit "id") = .blob n.id.1 := rfl
    simp only [conflicts, List.all_cons, List.all_nil, Bool.and_true, hid]
    rfl
  have hcols : nodeColumns ≠ [] := by simp [nodeColumns]
  have hne : insertNodeValues n ≠ [] := by simp [insertNodeValues]
  rw [insertNodeRow, insertUnique_eq beyond hhead hcols hne h.printable hnumbered hres, ← nodeRow,
    hconflict]

theorem Distinct.nodup (h : Distinct n) :
    ((n.attrs.toList.map Prod.snd).map nameAndValue).Nodup := by
  rw [List.map_map, List.Nodup, List.pairwise_map]
  refine h.attributes.2.imp fun {e f} hef heq => ?_
  have hname : e.2.name = f.2.name := congrArg Prod.fst heq
  have hvalue : e.2.value = f.2.value := congrArg Prod.snd heq
  simp [Attribute.eq, hname, hvalue] at hef

theorem deleteNode_of_absent {id : Digest} (h : db.nodes.rows.any (hasNodeId id) = false) :
    deleteNode id db = db := by
  have hnone : ∀ r ∈ db.nodes.rows, hasNodeId id r = false := by simpa using h
  have hrows : db.nodes.rows.filter (hasNodeId id) = [] := by
    rw [List.filter_eq_nil_iff]
    intro r hr
    simp [hnone r hr]
  have hkeep : (db.nodes.rows.filter fun r => !hasNodeId id r) = db.nodes.rows := by
    rw [List.filter_eq_self]
    intro r hr
    simp [hnone r hr]
  simp only [deleteNode, hrows, hkeep, List.map_nil, List.any_nil, Bool.not_false,
    List.filter_true]

theorem absent_deleteNode (id : Digest) (db : NodeTables) :
    (deleteNode id db).nodes.rows.any (hasNodeId id) = false := by
  rw [List.any_eq_false]
  intro r hr hid
  have hnot := (List.mem_filter.mp hr).2
  rw [hid] at hnot
  cases hnot

theorem Sound.deleteNode (hs : Sound db) (id : Digest) : Sound (deleteNode id db) where
  name := hs.name
  columns := hs.columns
  attributes := hs.attributes
  links := ⟨hs.links.name, hs.links.columns,
    fun r hr => hs.links.ints r (List.mem_of_mem_filter hr)⟩
  interfaces := ⟨hs.interfaces.name, hs.interfaces.columns⟩
  linked r hr := hs.linked r (List.mem_of_mem_filter hr)
  owned r hr := hs.owned r (List.mem_of_mem_filter hr)

/-- A merge replaces the filter and nothing else. -/
theorem mergeNode_eq (merge : NodeFilter → NodeFilter → NodeFilter) (k : NodeKernel)
    (mergeBloomfilter : Bool) (n : Node) (db : NodeTables) :
    ∃ f, (mergeNode merge k mergeBloomfilter n db).1 = { n with bloomfilter := f } := by
  unfold mergeNode
  split_ifs
  · split
    · exact ⟨_, rfl⟩
    · exact ⟨n.bloomfilter, rfl⟩
  · exact ⟨n.bloomfilter, rfl⟩

end Insert

end StoredNode
end Haggle
