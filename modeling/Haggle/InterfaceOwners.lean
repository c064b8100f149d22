import Haggle.Address
import Haggle.FilePathSearch
import Haggle.StoreQueries
import Haggle.StoredNodeWrite
import Haggle.Trace

/-!
# The node of an interface

The table of interfaces has at most one row for a type and an identifier. An insertion that meets a
row of another node leaves it as it is, so that the interface stays with the node that had it first.
A node of no type is looked up by a statement with one condition for each of its interfaces; without
interfaces the statement has no condition, and finds the first row of the table.
-/

namespace Haggle

namespace Interface

/-- An interface as `Interface::create` makes it. -/
def Made (i : Interface) : Prop :=
  match i.type with
  | .undefined => False
  | .applicationPort => i.identifier.length = 2
  | .ethernet | .wifi | .bluetooth => i.identifier.length = 6
  | .applicationLocal | .media => 0 ∉ i.identifier

theorem zero_notMem_macStr (mac : Bytes) : 0 ∉ macStr mac := by
  have hdigit : ∀ k < 16, hexDigit k ≠ 0 := by decide
  have hbyte : ∀ b : UInt8, 0 ∉ hexByte b := by
    intro b hmem
    have hlt : b.toNat < 256 := UInt8.toNat_lt b
    simp only [hexByte, List.mem_cons, List.not_mem_nil, or_false] at hmem
    rcases hmem with h | h
    · exact hdigit _ (by omega) h.symm
    · exact hdigit _ (by omega) h.symm
  induction mac with
  | nil => exact List.not_mem_nil
  | cons b l ih =>
    cases l with
    | nil => exact hbyte b
    | cons c l =>
      rw [macStr.eq_3 b (c :: l) (List.cons_ne_nil c l), List.mem_append, List.mem_cons]
      rintro (h | h | h)
      · exact hbyte b h
      · cases h
      · exact ih h

theorem zero_notMem_decimal (n : ℕ) : 0 ∉ decimal n := by
  intro h
  have hdigit := isDigit_of_mem_decimal h
  cases hdigit

variable {i j : Interface}

theorem Made.zero_notMem (h : i.Made) : 0 ∉ i.identifierStr := by
  have hport : 0 ∉ lit "Application on port " := by decide
  have hlocal : 0 ∉ lit "Application on local unix socket: " := by decide
  unfold Made at h
  unfold identifierStr
  split at h
  · exact h.elim
  all_goals rename_i htype; simp only [htype]
  · rw [List.mem_append]
    exact not_or.mpr ⟨hport, zero_notMem_decimal _⟩
  · exact zero_notMem_macStr _
  · exact zero_notMem_macStr _
  · exact zero_notMem_macStr _
  · rw [List.mem_append]
    exact not_or.mpr ⟨hlocal, h⟩
  · exact h

theorem macStr_injective : Function.Injective macStr := by
  intro x y h
  rw [← Mac.groups_macStr x, ← Mac.groups_macStr y, h]

theorem Made.identifier_eq (hi : i.Made) (hj : j.Made) (htype : i.type = j.type)
    (h : cStr i.identifierStr = cStr j.identifierStr) : i.identifier = j.identifier := by
  rw [cStr_eq hi.zero_notMem, cStr_eq hj.zero_notMem] at h
  unfold Made at hi hj
  unfold identifierStr at h
  rw [← htype] at hj h
  cases ht : i.type
  all_goals simp only [ht] at hi hj h
  · obtain ⟨a, b, ha⟩ := List.length_eq_two.mp hi
    obtain ⟨c, d, hc⟩ := List.length_eq_two.mp hj
    have hvalue := decimal_injective (List.append_cancel_left h)
    have ha' := a.toNat_lt
    have hc' := c.toNat_lt
    simp only [ha, hc, List.foldr_cons, List.foldr_nil, mul_zero, add_zero] at hvalue ⊢
    have hlow : a.toNat = c.toNat := by omega
    have hhigh : b.toNat = d.toNat := by omega
    rw [UInt8.toNat_inj.mp hlow, UInt8.toNat_inj.mp hhigh]
  · exact List.append_cancel_left h
  · exact macStr_injective h
  · exact macStr_injective h
  · exact macStr_injective h
  · exact h

end Interface

namespace StoredNode

open StoredObject (columnText columnInt)

section Lookup

/-- What the lookups ask of a row. -/
def condition (i : Interface) : Bytes :=
  lit "(type = " ++ (decimal (interfaceTypeNumber i.type) ++
    (lit " AND mac_str='" ++ (cStr i.identifierStr ++ lit "')")))

def meets (i : Interface) (r : Sql.Row) : Bool :=
  columnInt r (lit "type") = interfaceTypeNumber i.type &&
    columnText r (lit "mac_str") = cStr i.identifierStr

def selectOwner : Bytes := lit "SELECT node_rowid FROM table_interfaces"

/-- The first row that is selected. -/
def ownerOf (p : Sql.Row → Bool) (t : Sql.Table) : ℤ :=
  match t.rows.find? p with
  | some r => columnInt r (lit "node_rowid")
  | none => -1

def whereClause : List Interface → Bytes
  | [] => []
  | i :: l => lit " WHERE " ++ (condition i ++ l.flatMap fun j => lit " OR " ++ condition j)

def hasQuote (i : Interface) : Bool := 39 ∈ cStr i.identifierStr

/-- `getNodeRowId` of a node that has a type. -/
def ownId (db : NodeTables) (id : Digest) : ℤ :=
  match db.nodes.rows.find? (hasNodeId id) with
  | some r => columnInt r (lit "rowid")
  | none => -1

/-- What is found by a statement whose strings have apostrophes. -/
abbrev Quoted := Sql.Table → List Interface → ℤ

variable (quoted : Quoted)

/-- `getNodeRowId` of an interface. A statement that was cut is not compiled, unless it lost only
its semicolon. -/
def ownerRowId (t : Sql.Table) (i : Interface) : ℤ :=
  if hasQuote i then quoted t [i]
  else if (selectOwner ++ whereClause [i]).length ≤ 7999 then ownerOf (meets i) t
  else -1

/-- `getNodeRowId` of a node. Nothing limits what is written into the buffer for the interfaces of
a node of no type. -/
def nodeRowId (db : NodeTables) (n : Node) : Option ℤ :=
  if n.type ≠ .undefined then some (ownId db n.id)
  else if (selectOwner ++ (whereClause n.interfaces ++ lit ";")).length ≤ 7999 then
    some (if n.interfaces.any hasQuote then quoted db.interfaces n.interfaces
      else ownerOf (fun r => n.interfaces = [] || n.interfaces.any (meets · r)) db.interfaces)
  else none

end Lookup

section Record

variable (beyond : Bytes → List Sql.Value → Sql.Table → Option (List Sql.Row × Sql.Table))
  {db : NodeTables} {t : Sql.Table} {R : ℤ} {i : Interface}

/-- The table behind the statements for the interfaces of a node. -/
def recordInterfaces (R : ℤ) : List Interface → Sql.Table → Sql.Table
  | [], t => t
  | i :: l, t =>
    recordInterfaces R l
      (if t.rows.any (isInterface i) then t else append t (interfaceRow t R i))

/-- An interface of another node is left as it is. -/
theorem insertInterface_known (ht : InterfaceTable db.interfaces) (hR : R.natAbs < 2 ^ 63)
    (h : PastableInterface R i) (hknown : db.interfaces.rows.any (isInterface i) = true) :
    insertInterface beyond R i db = (db, true) := by
  have hinsert := insertUnique_interface beyond ht hR h
  rw [hknown, if_pos rfl] at hinsert
  unfold insertInterface
  rw [hinsert]

theorem insertInterfaces_eq (l : List Interface) (db : NodeTables)
    (ht : InterfaceTable db.interfaces) (hR : R.natAbs < 2 ^ 63)
    (hl : ∀ i ∈ l, PastableInterface R i) :
    runAll (insertInterface beyond R) l db =
      ({ db with interfaces := recordInterfaces R l db.interfaces }, true) := by
  induction l generalizing db with
  | nil => rfl
  | cons i l ih =>
    rw [List.forall_mem_cons] at hl
    rw [runAll, recordInterfaces]
    by_cases hany : db.interfaces.rows.any (isInterface i) = true
    · rw [insertInterface_known beyond ht hR hl.1 hany, if_pos hany]
      exact ih db ht hl.2
    · rw [insertInterface_eq beyond ht hR hl.1 (by simpa using hany), if_neg hany]
      exact ih { db with interfaces := append db.interfaces (interfaceRow db.interfaces R i) }
        ⟨ht.name, ht.columns⟩ hl.2

theorem mem_recordInterfaces {l : List Interface} {r : Sql.Row}
    (hr : r ∈ (recordInterfaces R l t).rows) :
    r ∈ t.rows ∨ ∃ i ∈ l, ∃ t', r = interfaceRow t' R i := by
  induction l generalizing t with
  | nil => exact .inl hr
  | cons i l ih =>
    rw [recordInterfaces] at hr
    rcases ih hr with hr | ⟨j, hj, t', rfl⟩
    · split_ifs at hr with hany
      · exact .inl hr
      · refine (List.mem_append.mp hr).imp_right fun hr => ?_
        exact ⟨i, List.mem_cons_self, t, List.mem_singleton.mp hr⟩
    · exact .inr ⟨j, List.mem_cons_of_mem i hj, t', rfl⟩

theorem prefix_recordInterfaces (R : ℤ) (l : List Interface) (t : Sql.Table) :
    t.rows <+: (recordInterfaces R l t).rows := by
  induction l generalizing t with
  | nil => exact List.prefix_refl t.rows
  | cons i l ih =>
    rw [recordInterfaces]
    split_ifs
    · exact ih t
    · exact (List.prefix_append t.rows [interfaceRow t R i]).trans
        (ih (append t (interfaceRow t R i)))

theorem isInterface_congr {i j : Interface} (h : interfaceKey i = interfaceKey j) (r : Sql.Row) :
    isInterface i r = isInterface j r := by
  have htype : (interfaceTypeNumber i.type : ℤ) = interfaceTypeNumber j.type := congrArg Prod.fst h
  have hmac : i.identifier = j.identifier := congrArg Prod.snd h
  rw [isInterface, isInterface, htype, hmac]

theorem interfaceKey_eq {i j : Interface} {r : Sql.Row} (hi : isInterface i r = true)
    (hj : isInterface j r = true) : interfaceKey i = interfaceKey j := by
  simp only [isInterface, Bool.and_eq_true, decide_eq_true_eq] at hi hj
  have htype := hi.1.symm.trans hj.1
  have hmac := hi.2.symm.trans hj.2
  simp only [Sql.Value.int.injEq, Sql.Value.blob.injEq] at htype hmac
  exact Prod.ext htype hmac

theorem isInterface_self (t : Sql.Table) (R : ℤ) (i : Interface) :
    isInterface i (interfaceRow t R i) = true := by
  rw [isInterface_interfaceRow, Interface.same_iff]
  exact ⟨rfl, rfl⟩

theorem InterfaceTable.record (ht : InterfaceTable t) (R : ℤ) (l : List Interface) :
    InterfaceTable (recordInterfaces R l t) := by
  induction l generalizing t with
  | nil => exact ht
  | cons i l ih =>
    rw [recordInterfaces]
    split_ifs
    · exact ih ht
    · exact ih ⟨ht.name, ht.columns⟩

theorem any_recordInterfaces (R : ℤ) {l : List Interface} (t : Sql.Table) (hi : i ∈ l) :
    ∃ r ∈ (recordInterfaces R l t).rows, isInterface i r = true := by
  induction l generalizing t with
  | nil => exact absurd hi List.not_mem_nil
  | cons j l ih =>
    rw [recordInterfaces]
    rcases List.mem_cons.mp hi with rfl | hi
    · obtain ⟨r, hr, hir⟩ : ∃ r ∈ (if t.rows.any (isInterface i) then t
          else append t (interfaceRow t R i)).rows, isInterface i r = true := by
        split_ifs with hany
        · exact List.any_eq_true.mp hany
        · exact ⟨interfaceRow t R i, List.mem_append_right _ (List.mem_singleton_self _),
            isInterface_self t R i⟩
      exact ⟨r, (prefix_recordInterfaces R l _).subset hr, hir⟩
    · exact ih _ hi

/-- A type and an identifier have at most one row. -/
def Unique (t : Sql.Table) : Prop :=
  t.rows.Pairwise fun r s => ∀ i, isInterface i r = true → isInterface i s = false

theorem Unique.eq {r s : Sql.Row} (h : Unique t) (hr : r ∈ t.rows) (hs : s ∈ t.rows)
    (hir : isInterface i r = true) (his : isInterface i s = true) : r = s := by
  by_contra hne
  have hsymm : Std.Symm fun r s : Sql.Row =>
      ∀ i, isInterface i r = true → isInterface i s = false := by
    refine ⟨fun r s hrs j hj => ?_⟩
    by_contra hjr
    rw [hrs j (by simpa using hjr)] at hj
    cases hj
  have hnot := List.Pairwise.forall h hr hs hne i hir
  rw [his] at hnot
  cases hnot

theorem Unique.record (h : Unique t) (R : ℤ) (l : List Interface) :
    Unique (recordInterfaces R l t) := by
  induction l generalizing t with
  | nil => exact h
  | cons i l ih =>
    rw [recordInterfaces]
    split_ifs with hany
    · exact ih h
    · refine ih (List.pairwise_append.mpr ⟨h, List.pairwise_singleton _ _, ?_⟩)
      intro r hr s hs j hj
      rw [List.mem_singleton.mp hs]
      by_contra hjs
      have hkey := interfaceKey_eq (by simpa using hjs) (isInterface_self t R i)
      rw [isInterface_congr hkey] at hj
      exact hany (List.any_eq_true.mpr ⟨r, hr, hj⟩)

end Record

section Insert

variable (beyond : Bytes → List Sql.Value → Sql.Table → Option (List Sql.Row × Sql.Table))
  {db : NodeTables} {n : Node}

/-- A node whose insertion is executed as it is meant. -/
structure Insertable (db : NodeTables) (n : Node) : Prop where
  type : n.type ≠ .undefined
  distinct : Distinct n
  pastable : Pastable db.nodes.rowid n
  nodes : db.nodes.rowid < 2 ^ 63
  attributes : db.attributes.rowid + n.attrs.toList.length ≤ 2 ^ 63
  made : ∀ i ∈ n.interfaces, i.Made

theorem insertParts_eq (hs : Sound db) (hn : Insertable db n) (t : Sql.Table) :
    ∃ ta tl, insertParts beyond db.nodes.rowid n { db with nodes := t } =
        (⟨t, ta, tl, recordInterfaces db.nodes.rowid n.interfaces db.interfaces⟩, true) ∧
      (t.name = db.nodes.name → t.columns = db.nodes.columns → db.nodes.rowid < t.rowid →
        Sound ⟨t, ta, tl, recordInterfaces db.nodes.rowid n.interfaces db.interfaces⟩) := by
  have hlinks : linksOf { db with nodes := t } db.nodes.rowid = [] := by
    rw [linksOf, List.map_eq_nil_iff, List.filter_eq_nil_iff]
    intro r hr hof
    have hlt := hs.linked r hr
    rw [ofNode, decide_eq_true_eq] at hof
    omega
  have hR : (db.nodes.rowid : ℤ).natAbs < 2 ^ 63 := hn.nodes
  obtain ⟨ta, tl, hrun, hta, htl, hnamed, hlinked⟩ := insertAttributes_run beyond
    (n.attrs.toList.map Prod.snd) { db with nodes := t } (p := []) hs.attributes hs.links hR
    (List.forall_mem_map.mpr hn.pastable.attributes)
    (by rw [List.length_map]; exact hn.attributes)
    (by rw [Named, hlinks]; rfl) hn.distinct.nodup
  have hrun' := insertInterfaces_eq beyond n.interfaces
    { db with nodes := t, attributes := ta, links := tl } hs.interfaces hR hn.pastable.interfaces
  refine ⟨ta, tl, ?_, fun hname hcols hlt => ?_⟩
  · rw [insertParts, hrun]
    exact hrun'
  · refine ⟨hname.trans hs.name, hcols.trans hs.columns, hta, htl, ?_, fun r hr => ?_,
      fun r hr => ?_⟩
    · exact hs.interfaces.record db.nodes.rowid n.interfaces
    · rcases hlinked r hr with hr | hr
      · exact (hs.linked r hr).trans (Int.ofNat_lt.mpr hlt)
      · rw [ofNode, decide_eq_true_eq] at hr
        exact hr ▸ Int.ofNat_lt.mpr hlt
    · rcases mem_recordInterfaces hr with hr | ⟨i, -, t', rfl⟩
      · exact (hs.owned r hr).trans (Int.ofNat_lt.mpr hlt)
      · rw [columnInt, (interfaceRow_values t' db.nodes.rowid i).1]
        exact Int.ofNat_lt.mpr hlt

/-- What an insertion leaves in the tables of nodes and interfaces. -/
theorem insertNode_eq (merge : NodeFilter → NodeFilter → NodeFilter) (k : NodeKernel)
    (mergeBloomfilter : Bool) (hs : Sound db) (hn : Insertable db n) :
    (insertNode beyond merge k mergeBloomfilter n db).ok = true ∧
    Sound (insertNode beyond merge k mergeBloomfilter n db).tables ∧
    (insertNode beyond merge k mergeBloomfilter n db).tables.interfaces =
      recordInterfaces db.nodes.rowid n.interfaces (deleteNode n.id db).interfaces ∧
    ∃ f, (insertNode beyond merge k mergeBloomfilter n db).tables.nodes =
      append (deleteNode n.id db).nodes
        (nodeRow (deleteNode n.id db).nodes { n with bloomfilter := f }) := by
  have hrow := insertNodeRow_eq beyond hs hn.pastable
  by_cases hany : db.nodes.rows.any (hasNodeId n.id) = true
  · rw [if_pos hany] at hrow
    obtain ⟨f, hf⟩ := mergeNode_eq merge k mergeBloomfilter n db
    have hs' := hs.deleteNode n.id
    have hn' : Insertable (deleteNode n.id db) { n with bloomfilter := f } :=
      ⟨hn.type, ⟨hn.distinct.attributes, hn.distinct.interfaces⟩,
        ⟨hn.pastable.quotes, hn.pastable.numbers, hn.pastable.fits, hn.pastable.attributes,
          hn.pastable.interfaces⟩, hn.nodes, hn.attributes, hn.made⟩
    have hrow' := insertNodeRow_eq beyond hs' hn'.pastable
    have habsent := absent_deleteNode n.id db
    rw [if_neg (by rw [habsent]; exact Bool.false_ne_true)] at hrow'
    obtain ⟨ta, tl, hparts, hsound⟩ := insertParts_eq beyond hs' hn'
      (append (deleteNode n.id db).nodes
        (nodeRow (deleteNode n.id db).nodes { n with bloomfilter := f }))
    have hrowid : (deleteNode n.id db).nodes.rowid = db.nodes.rowid := rfl
    simp only [insertNode, if_neg hn.type, hrow, hf, hrow', hparts]
    exact ⟨trivial, hsound rfl rfl (Nat.lt_succ_self _), rfl, f, rfl⟩
  · have habsent : db.nodes.rows.any (hasNodeId n.id) = false := by simpa using hany
    rw [if_neg hany] at hrow
    obtain ⟨ta, tl, hparts, hsound⟩ := insertParts_eq beyond hs hn
      (append db.nodes (nodeRow db.nodes n))
    rw [deleteNode_of_absent habsent]
    simp only [insertNode, if_neg hn.type, hrow, hparts]
    exact ⟨trivial, hsound rfl rfl (Nat.lt_succ_self _), trivial, n.bloomfilter, rfl⟩

end Insert

section Ownership

/-- The tables, and the nodes that were inserted last with an interface. -/
structure Ownership where
  tables : NodeTables
  owner : ℤ × Bytes → Option Digest

def Ownership.start : Ownership := ⟨emptyTables, fun _ => none⟩

/-- A node has the interfaces that it was inserted with last. -/
def give (n : Node) (owner : ℤ × Bytes → Option Digest) (key : ℤ × Bytes) : Option Digest :=
  if key ∈ n.interfaces.map interfaceKey then some n.id
  else if owner key = some n.id then none
  else owner key

inductive Operation
  | insert (k : NodeKernel) (mergeBloomfilter : Bool) (n : Node)
  | lookup (i : Interface)
  | lookupNode (u : Node)

variable (beyond : Bytes → List Sql.Value → Sql.Table → Option (List Sql.Row × Sql.Table))
  (merge : NodeFilter → NodeFilter → NodeFilter) (quoted : Quoted)

def step (s : Ownership) : Operation → Ownership
  | .insert k mergeBloomfilter n =>
    let r := insertNode beyond merge k mergeBloomfilter n s.tables
    ⟨r.tables, if r.ok then give n s.owner else s.owner⟩
  | .lookup _ | .lookupNode _ => s

/-- A lookup by interfaces that is executed as it is meant. -/
structure Readable (u : Node) : Prop where
  type : u.type = .undefined
  made : ∀ i ∈ u.interfaces, i.Made
  quotes : ∀ i ∈ u.interfaces, hasQuote i = false
  fits : (selectOwner ++ (whereClause u.interfaces ++ lit ";")).length ≤ 7999

/-- The strings of an operation can be pasted into its statements, which fit the buffer. -/
def Executable (s : Ownership) : Operation → Prop
  | .insert _ _ n => Insertable s.tables n
  | .lookup i => i.Made ∧ hasQuote i = false ∧ (selectOwner ++ whereClause [i]).length ≤ 7999
  | .lookupNode u => Readable u

/-- None of the interfaces is one of another node. -/
def OwnedBy (s : Ownership) (id : Digest) (l : List Interface) : Prop :=
  ∀ i ∈ l, ∀ id', s.owner (interfaceKey i) = some id' → id' = id

/-- The node of an interface is found by it, and by a node of no type that has it. -/
structure Found (s : Ownership) (id : Digest) (i : Interface) : Prop where
  interface : ownerRowId quoted s.tables.interfaces i = ownId s.tables id
  node : ∀ u, Readable u → i ∈ u.interfaces → OwnedBy s id u.interfaces →
    nodeRowId quoted s.tables u = some (ownId s.tables id)

/-- A node is inserted with interfaces that no other node has, and a node that is looked up has
interfaces, unless there are none at all. -/
def Expected (s : Ownership) : Operation → Prop
  | .insert _ _ n => OwnedBy s n.id n.interfaces
  | .lookup _ => True
  | .lookupNode u => u.interfaces = [] → s.tables.interfaces.rows = []

end Ownership

section Rows

variable {db : NodeTables} {t : Sql.Table} {i j : Interface} {r : Sql.Row}

/-- A row holds the readable form of the interface that it is for. -/
def Described (t : Sql.Table) : Prop :=
  ∀ r ∈ t.rows, ∃ i : Interface, i.Made ∧ isInterface i r = true ∧
    columnText r (lit "mac_str") = cStr i.identifierStr

/-- The rows of the nodes are numbered. -/
structure Numbered (t : Sql.Table) : Prop where
  bound : ∀ r ∈ t.rows, 0 ≤ columnInt r (lit "rowid") ∧ columnInt r (lit "rowid") < t.rowid
  nodup : (t.rows.map fun r => columnInt r (lit "rowid")).Nodup

theorem columnInt_type (h : isInterface i r = true) :
    columnInt r (lit "type") = interfaceTypeNumber i.type := by
  simp only [isInterface, Bool.and_eq_true, decide_eq_true_eq] at h
  rw [columnInt, h.1]

theorem meets_eq (ht : Described t) (hr : r ∈ t.rows) (hj : j.Made) :
    meets j r = isInterface j r := by
  obtain ⟨i, hi, hir, htext⟩ := ht r hr
  rw [Bool.eq_iff_iff, meets, Bool.and_eq_true, decide_eq_true_eq, decide_eq_true_eq,
    columnInt_type hir, htext]
  constructor
  · rintro ⟨htype, hstr⟩
    have hsame := interfaceTypeNumber_inj (Int.ofNat_inj.mp htype)
    have hkey : interfaceKey j = interfaceKey i :=
      Prod.ext htype.symm (hi.identifier_eq hj hsame hstr).symm
    rwa [isInterface_congr hkey]
  · intro hjr
    have hkey := interfaceKey_eq hjr hir
    have htype := congrArg Prod.fst hkey
    have hsame := interfaceTypeNumber_inj (Int.ofNat_inj.mp htype)
    have hmac : j.identifier = i.identifier := congrArg Prod.snd hkey
    refine ⟨htype.symm, ?_⟩
    rw [Interface.identifierStr, Interface.identifierStr, hsame, hmac]

theorem Described.record (ht : Described t) (R : ℤ) {l : List Interface}
    (hl : ∀ i ∈ l, i.Made) : Described (recordInterfaces R l t) := by
  intro r hr
  rcases mem_recordInterfaces hr with hr | ⟨i, hi, t', rfl⟩
  · exact ht r hr
  · exact ⟨i, hl i hi, isInterface_self t' R i, rfl⟩

theorem mem_deleteNode {id : Digest} :
    r ∈ (deleteNode id db).interfaces.rows ↔ r ∈ db.interfaces.rows ∧
      ∀ x ∈ db.nodes.rows, hasNodeId id x = true →
        columnInt r (lit "node_rowid") ≠ columnInt x (lit "rowid") := by
  have hmem : r ∈ (deleteNode id db).interfaces.rows ↔ r ∈ db.interfaces.rows ∧
      (!((db.nodes.rows.filter (hasNodeId id)).map (columnInt · (lit "rowid"))).any
        (ofNode · r)) = true := List.mem_filter
  rw [hmem, Bool.not_eq_true', List.any_eq_false, List.forall_mem_map]
  refine and_congr_right fun _ => ⟨fun h x hx hid => ?_, fun h x hx => ?_⟩
  · have hnot := h x (List.mem_filter.mpr ⟨hx, hid⟩)
    rwa [ofNode, decide_eq_true_eq] at hnot
  · obtain ⟨hx, hid⟩ := List.mem_filter.mp hx
    rw [ofNode, decide_eq_true_eq]
    exact h x hx hid

theorem Numbered.deleteNode (h : Numbered db.nodes) (id : Digest) :
    Numbered (deleteNode id db).nodes where
  bound r hr := h.bound r (List.mem_of_mem_filter hr)
  nodup := h.nodup.sublist ((List.filter_sublist).map _)

theorem Numbered.append (h : Numbered t) (n : Node) : Numbered (append t (nodeRow t n)) := by
  have hnew : columnInt (nodeRow t n) (lit "rowid") = t.rowid := rfl
  have hrowid : (StoredNode.append t (nodeRow t n)).rowid = t.rowid + 1 := rfl
  refine ⟨fun r hr => ?_, ?_⟩
  · rcases List.mem_append.mp hr with hr | hr
    · have hb := h.bound r hr
      omega
    · rw [List.mem_singleton.mp hr, hnew]
      omega
  · have hmap : (StoredNode.append t (nodeRow t n)).rows.map
        (fun r => columnInt r (lit "rowid")) =
        t.rows.map (fun r => columnInt r (lit "rowid")) ++
          [columnInt (nodeRow t n) (lit "rowid")] := List.map_append
    rw [hmap, ← List.concat_eq_append]
    refine h.nodup.concat fun hmem => ?_
    obtain ⟨r, hr, heq⟩ := List.mem_map.mp hmem
    have hb := h.bound r hr
    omega

theorem hasNodeId_ne {id id' : Digest} (hne : id' ≠ id) {r : Sql.Row}
    (h : hasNodeId id' r = true) : hasNodeId id r = false := by
  rw [hasNodeId, decide_eq_true_eq] at h
  rw [hasNodeId, h, decide_eq_false_iff_not, Sql.Value.blob.injEq]
  exact fun heq => hne (Subtype.ext heq)

theorem find?_deleteNode {id id' : Digest} (hne : id' ≠ id) :
    (deleteNode id db).nodes.rows.find? (hasNodeId id') =
      db.nodes.rows.find? (hasNodeId id') := by
  have hrows : (deleteNode id db).nodes.rows = db.nodes.rows.filter fun r => !hasNodeId id r := rfl
  rw [hrows, List.find?_filter]
  congr 1
  funext r
  cases hid : hasNodeId id' r with
  | false => simp
  | true => simp [hasNodeId_ne hne hid]

theorem PastableInterface.lookup_fits {R : ℤ} (h : PastableInterface R i) :
    (selectOwner ++ whereClause [i]).length ≤ 7999 := by
  have hfits := h.fits
  have hhead : insertIfaceHead.length = 66 := by decide
  have hselect : selectOwner.length = 39 := by decide
  have hwhere : (lit " WHERE ").length = 7 := rfl
  have htype : (lit "(type = ").length = 8 := rfl
  have hmac : (lit " AND mac_str='").length = 14 := rfl
  have hend : (lit "')").length = 2 := rfl
  have hclose : (lit ");").length = 2 := rfl
  have hprinted : 0 < (printed R).text.length := by
    have hpos : 0 < (decimal R.natAbs).length := List.length_pos_iff.mpr (decimal_ne_nil _)
    rw [printed]
    split_ifs <;> simp only [Sql.Operand.text, List.length_cons] <;> omega
  simp only [insertIfaceValues, Sql.operandsText, Sql.Operand.text, List.length_append,
    List.length_cons, List.length_nil, hhead, hclose] at hfits
  simp only [whereClause, condition, List.flatMap_nil, List.length_append, List.length_nil,
    hselect, hwhere, htype, hmac, hend]
  omega

end Rows

section History

variable {s : Ownership} {n : Node} {id : Digest} {i : Interface} {p : Sql.Row → Bool}

def HasRow (db : NodeTables) (id : Digest) (R : ℤ) : Prop :=
  ∃ x, db.nodes.rows.find? (hasNodeId id) = some x ∧ columnInt x (lit "rowid") = R

theorem HasRow.ownId_eq {db : NodeTables} {R : ℤ} (h : HasRow db id R) : ownId db id = R := by
  obtain ⟨x, hx, hR⟩ := h
  rw [ownId, hx]
  exact hR

/-- The tables say which node has an interface. -/
structure Recorded (s : Ownership) : Prop where
  sound : Sound s.tables
  numbered : Numbered s.tables.nodes
  described : Described s.tables.interfaces
  unique : Unique s.tables.interfaces
  owned : ∀ r ∈ s.tables.interfaces.rows, ∀ i, isInterface i r = true →
    ∃ id, s.owner (interfaceKey i) = some id ∧ HasRow s.tables id (columnInt r (lit "node_rowid"))
  recorded : ∀ i id, s.owner (interfaceKey i) = some id →
    ∃ r ∈ s.tables.interfaces.rows, isInterface i r = true

theorem ownerOf_eq {R : ℤ} {t : Sql.Table} (hex : ∃ r ∈ t.rows, p r = true)
    (hp : ∀ r ∈ t.rows, p r = true → columnInt r (lit "node_rowid") = R) : ownerOf p t = R := by
  obtain ⟨r, hr⟩ : ∃ r, t.rows.find? p = some r := by
    rw [← Option.isSome_iff_exists, List.find?_isSome]
    exact hex
  rw [ownerOf, hr]
  exact hp r (List.mem_of_find?_eq_some hr) (List.find?_some hr)

variable (quoted : Quoted)

theorem ownerRowId_eq (hq : hasQuote i = false)
    (hfits : (selectOwner ++ whereClause [i]).length ≤ 7999) (t : Sql.Table) :
    ownerRowId quoted t i = ownerOf (meets i) t := by
  rw [ownerRowId, hq, if_neg Bool.false_ne_true, if_pos hfits]

theorem nodeRowId_eq {u : Node} (hu : Readable u) (db : NodeTables) :
    nodeRowId quoted db u = some (ownerOf (fun r => u.interfaces = [] ||
      u.interfaces.any (meets · r)) db.interfaces) := by
  have hquotes : u.interfaces.any hasQuote = false := by
    rw [List.any_eq_false]
    intro i hi
    rw [hu.quotes i hi]
    exact Bool.false_ne_true
  rw [nodeRowId, if_neg (not_not.mpr hu.type), if_pos hu.fits, hquotes,
    if_neg Bool.false_ne_true]

/-- A node of no type is found by an interface that it shares with one other node. -/
theorem Recorded.found_node (h : Recorded s) {u : Node} (hu : Readable u) (hi : i ∈ u.interfaces)
    (howner : s.owner (interfaceKey i) = some id) (hown : OwnedBy s id u.interfaces) :
    nodeRowId quoted s.tables u = some (ownId s.tables id) := by
  obtain ⟨r, hr, hir⟩ := h.recorded i id howner
  rw [nodeRowId_eq quoted hu]
  refine congrArg some (ownerOf_eq ⟨r, hr, ?_⟩ fun r hr hmeets => ?_)
  · rw [Bool.or_eq_true, List.any_eq_true]
    exact .inr ⟨i, hi, by rwa [meets_eq h.described hr (hu.made i hi)]⟩
  · rw [Bool.or_eq_true, decide_eq_true_eq, List.any_eq_true] at hmeets
    rcases hmeets with hnil | ⟨j, hj, hjr⟩
    · rw [hnil] at hi
      exact absurd hi List.not_mem_nil
    · rw [meets_eq h.described hr (hu.made j hj)] at hjr
      obtain ⟨id', howner', hrow⟩ := h.owned r hr j hjr
      rw [← hown j hj id' howner', hrow.ownId_eq]

/-- The lookups find the node that has an interface. -/
theorem Recorded.found (h : Recorded s) (hi : i.Made) (hq : hasQuote i = false)
    (hfits : (selectOwner ++ whereClause [i]).length ≤ 7999)
    (howner : s.owner (interfaceKey i) = some id) : Found quoted s id i := by
  refine ⟨?_, fun u hu hmem hown => h.found_node quoted hu hmem howner hown⟩
  obtain ⟨r, hr, hir⟩ := h.recorded i id howner
  rw [ownerRowId_eq quoted hq hfits]
  refine ownerOf_eq ⟨r, hr, by rwa [meets_eq h.described hr hi]⟩ fun r hr hmeets => ?_
  rw [meets_eq h.described hr hi] at hmeets
  obtain ⟨id', howner', hrow⟩ := h.owned r hr i hmeets
  rw [Option.some.inj (howner.symm.trans howner'), hrow.ownId_eq]

end History

section Steps

variable {beyond : Bytes → List Sql.Value → Sql.Table → Option (List Sql.Row × Sql.Table)}
  {merge : NodeFilter → NodeFilter → NodeFilter} {k : NodeKernel} {m : Bool}
  {s : Ownership} {n : Node} {id : Digest} {i : Interface}

/-- What an insertion makes of the tables of nodes and interfaces. -/
structure Inserts (s s' : Ownership) (n : Node) : Prop where
  sound : Sound s'.tables
  interfaces : s'.tables.interfaces =
    recordInterfaces s.tables.nodes.rowid n.interfaces (deleteNode n.id s.tables).interfaces
  nodes : ∃ f, s'.tables.nodes = append (deleteNode n.id s.tables).nodes
    (nodeRow (deleteNode n.id s.tables).nodes { n with bloomfilter := f })
  owner : s'.owner = give n s.owner

theorem step_insert (h : Recorded s) (hn : Insertable s.tables n) :
    Inserts s (step beyond merge s (.insert k m n)) n := by
  obtain ⟨hok, hsound, hinterfaces, hnodes⟩ := insertNode_eq beyond merge k m h.sound hn
  refine ⟨hsound, hinterfaces, hnodes, ?_⟩
  rw [step, hok, if_pos rfl]

variable {s' : Ownership}

theorem Inserts.hasRow_self (h : Inserts s s' n) : HasRow s'.tables n.id s.tables.nodes.rowid := by
  obtain ⟨f, hnodes⟩ := h.nodes
  have hnone : (deleteNode n.id s.tables).nodes.rows.find? (hasNodeId n.id) = none := by
    rw [List.find?_eq_none]
    simpa using absent_deleteNode n.id s.tables
  have hself : hasNodeId n.id (nodeRow (deleteNode n.id s.tables).nodes
    { n with bloomfilter := f }) = true := decide_eq_true rfl
  refine ⟨nodeRow (deleteNode n.id s.tables).nodes { n with bloomfilter := f }, ?_, rfl⟩
  rw [hnodes, append, List.find?_append, hnone, Option.none_or, List.find?_cons_of_pos hself]

theorem Inserts.hasRow (h : Inserts s s' n) {R : ℤ} (hne : id ≠ n.id)
    (hrow : HasRow s.tables id R) : HasRow s'.tables id R := by
  obtain ⟨f, hnodes⟩ := h.nodes
  obtain ⟨x, hx, hR⟩ := hrow
  refine ⟨x, ?_, hR⟩
  rw [hnodes, append, List.find?_append, find?_deleteNode hne, hx, Option.some_or]

theorem Inserts.numbered (h : Inserts s s' n) (hs : Numbered s.tables.nodes) :
    Numbered s'.tables.nodes := by
  obtain ⟨f, hnodes⟩ := h.nodes
  rw [hnodes]
  exact (hs.deleteNode n.id).append _

theorem Inserts.described (h : Inserts s s' n) (hs : Described s.tables.interfaces)
    (hn : ∀ i ∈ n.interfaces, i.Made) : Described s'.tables.interfaces := by
  have hkept : Described (deleteNode n.id s.tables).interfaces :=
    fun r hr => hs r (mem_deleteNode.mp hr).1
  rw [h.interfaces]
  exact hkept.record s.tables.nodes.rowid hn

theorem Inserts.unique (h : Inserts s s' n) (hs : Unique s.tables.interfaces) :
    Unique s'.tables.interfaces := by
  have hkept : Unique (deleteNode n.id s.tables).interfaces := List.Pairwise.filter _ hs
  rw [h.interfaces]
  exact hkept.record s.tables.nodes.rowid n.interfaces

/-- The interfaces of the other nodes keep their rows. -/
theorem Inserts.kept (h : Inserts s s' n) (hs : Recorded s) {r : Sql.Row}
    (hr : r ∈ s.tables.interfaces.rows) (hne : id ≠ n.id)
    (hrow : HasRow s.tables id (columnInt r (lit "node_rowid"))) :
    r ∈ s'.tables.interfaces.rows := by
  have hmem : r ∈ (deleteNode n.id s.tables).interfaces.rows := by
    refine mem_deleteNode.mpr ⟨hr, fun x hx hid heq => ?_⟩
    obtain ⟨y, hy, hrowid⟩ := hrow
    have hsame := List.inj_on_of_nodup_map hs.numbered.nodup hx (List.mem_of_find?_eq_some hy)
      (heq.symm.trans hrowid.symm)
    have hid' := hasNodeId_ne hne (List.find?_some hy)
    rw [← hsame, hid] at hid'
    cases hid'
  rw [h.interfaces]
  exact (prefix_recordInterfaces _ _ _).subset hmem

theorem give_of_mem {owner : ℤ × Bytes → Option Digest} (hi : i ∈ n.interfaces) :
    give n owner (interfaceKey i) = some n.id :=
  if_pos (List.mem_map_of_mem hi)

/-- A row that is there behind an insertion belongs to the node, or to the one it belonged to. -/
theorem Inserts.owned (h : Inserts s s' n) (hs : Recorded s) (hown : OwnedBy s n.id n.interfaces)
    {r : Sql.Row} (hr : r ∈ s'.tables.interfaces.rows) (hir : isInterface i r = true) :
    ∃ id, s'.owner (interfaceKey i) = some id ∧
      HasRow s'.tables id (columnInt r (lit "node_rowid")) := by
  rw [h.interfaces] at hr
  rcases mem_recordInterfaces hr with hr | ⟨j, hj, t', rfl⟩
  · obtain ⟨hr, hdeleted⟩ := mem_deleteNode.mp hr
    obtain ⟨id, howner, hrow⟩ := hs.owned r hr i hir
    have hne : id ≠ n.id := by
      rintro rfl
      obtain ⟨x, hx, hR⟩ := hrow
      exact hdeleted x (List.mem_of_find?_eq_some hx) (List.find?_some hx) hR.symm
    have hkey : interfaceKey i ∉ n.interfaces.map interfaceKey := by
      intro hmem
      obtain ⟨j, hj, hkey⟩ := List.mem_map.mp hmem
      rw [← hkey] at howner
      exact hne (hown j hj id howner)
    have hother : s.owner (interfaceKey i) ≠ some n.id := by
      rw [howner]
      exact fun h' => hne (Option.some.inj h')
    refine ⟨id, ?_, h.hasRow hne hrow⟩
    rw [h.owner, give, if_neg hkey, if_neg hother, howner]
  · refine ⟨n.id, ?_, ?_⟩
    · rw [h.owner, interfaceKey_eq hir (isInterface_self t' _ j), give_of_mem hj]
    · rw [columnInt, (interfaceRow_values t' _ j).1]
      exact h.hasRow_self

theorem Inserts.recorded (h : Inserts s s' n) (hs : Recorded s)
    (howner : s'.owner (interfaceKey i) = some id) :
    ∃ r ∈ s'.tables.interfaces.rows, isInterface i r = true := by
  rw [h.owner, give] at howner
  split_ifs at howner with hmem hn
  · obtain ⟨j, hj, hkey⟩ := List.mem_map.mp hmem
    obtain ⟨r, hr, hjr⟩ := any_recordInterfaces s.tables.nodes.rowid
      (deleteNode n.id s.tables).interfaces hj
    refine ⟨r, ?_, by rwa [← isInterface_congr hkey]⟩
    rwa [h.interfaces]
  · obtain ⟨r, hr, hir⟩ := hs.recorded i id howner
    obtain ⟨id', howner', hrow⟩ := hs.owned r hr i hir
    have hsame := Option.some.inj (howner.symm.trans howner')
    have hne : id' ≠ n.id := by
      rintro rfl
      exact hn howner'
    exact ⟨r, h.kept hs hr hne hrow, hir⟩

theorem Inserts.keeps (h : Inserts s s' n) (hs : Recorded s) (hn : Insertable s.tables n)
    (hown : OwnedBy s n.id n.interfaces) : Recorded s' where
  sound := h.sound
  numbered := h.numbered hs.numbered
  described := h.described hs.described hn.made
  unique := h.unique hs.unique
  owned _ hr _ hir := h.owned hs hown hr hir
  recorded _ _ howner := h.recorded hs howner

theorem hasQuote_of_pastable {R : ℤ} (h : PastableInterface R i) : hasQuote i = false :=
  decide_eq_false (quote_cStr h.quotes)

/-- An interface of another node is found under that node. -/
theorem Inserts.stale (h : Inserts s s' n) (hs : Recorded s) (hn : Insertable s.tables n)
    (quoted : Quoted) (hi : i ∈ n.interfaces) (howner : s.owner (interfaceKey i) = some id)
    (hne : id ≠ n.id) : ownerRowId quoted s'.tables.interfaces i ≠ ownId s'.tables n.id := by
  obtain ⟨r, hr, hir⟩ := hs.recorded i id howner
  obtain ⟨id', howner', hrow⟩ := hs.owned r hr i hir
  obtain rfl := Option.some.inj (howner'.symm.trans howner)
  have hkept := h.kept hs hr hne hrow
  have hpaste := hn.pastable.interfaces i hi
  have hdescribed := h.described hs.described hn.made
  have hfound : ownerRowId quoted s'.tables.interfaces i = columnInt r (lit "node_rowid") := by
    rw [ownerRowId_eq quoted (hasQuote_of_pastable hpaste) hpaste.lookup_fits]
    refine ownerOf_eq ⟨r, hkept, by rwa [meets_eq hdescribed hkept (hn.made i hi)]⟩ ?_
    intro x hx hmeets
    rw [meets_eq hdescribed hx (hn.made i hi)] at hmeets
    rw [(h.unique hs.unique).eq hx hkept hmeets hir]
  obtain ⟨x, hx, hR⟩ := hrow
  have hbound := hs.numbered.bound x (List.mem_of_find?_eq_some hx)
  rw [hfound, h.hasRow_self.ownId_eq]
  omega

end Steps

section Runs

variable (beyond : Bytes → List Sql.Value → Sql.Table → Option (List Sql.Row × Sql.Table))
  (merge : NodeFilter → NodeFilter → NodeFilter) (quoted : Quoted)

theorem Recorded.step {s : Ownership} (h : Recorded s) {o : Operation} (ho : Executable s o)
    (hexpected : Expected s o) : Recorded (step beyond merge s o) := by
  cases o with
  | insert k m n => exact (step_insert h ho).keeps h ho hexpected
  | lookup i => exact h
  | lookupNode u => exact h

end Runs

end StoredNode

namespace Sample

open StoredNode

end Sample
end Haggle
