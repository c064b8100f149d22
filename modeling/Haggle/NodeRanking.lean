import Haggle.QueryHistory

/-!
# The nodes for a data object

The query for the nodes of a data object orders the nodes that match by how well they do and cuts
the list at the limit. Only then the nodes are made of the rows, and those that are no peers and no
gateways are left out: they have used up places of the list.
-/

namespace Haggle
namespace StoreQueries

open Matching Relational
open StoredObject (columnInt columnText)

section Kinds

variable (k : NodeKernel) (db : NodeTables)

/-- What decides on a node as a target. -/
def kind (n : Node) : Digest × NodeType := (n.id, n.type)

/-- Whether the attributes and the interfaces of a node can be made of their rows. -/
def Fillable (node_rowid : ℤ) : Bool :=
  ((db.links.rows.filter (StoredNode.ofNode node_rowid)).all fun r =>
    (StoredNode.getAttrFromRowId db (columnInt r (lit "attr_rowid")) node_rowid).isSome) &&
    (db.interfaces.rows.filter (StoredNode.ofNode node_rowid)).all fun r =>
      (StoredNode.storedInterface k r).isSome

/-- A loop whose steps keep a value and of which each fails by itself. -/
theorem runAll_keeps {α σ β : Type} {f : α → σ → σ × Bool} {ok : α → Bool} {g : σ → β}
    (hok : ∀ a s, (f a s).2 = ok a) (hg : ∀ a s, g (f a s).1 = g s) (l : List α) (s : σ) :
    (StoredNode.runAll f l s).2 = l.all ok ∧ g (StoredNode.runAll f l s).1 = g s := by
  induction l generalizing s with
  | nil => exact ⟨rfl, rfl⟩
  | cons a l ih =>
    rw [StoredNode.runAll, List.all_cons, ← hok a s]
    have hstep := hg a s
    generalize f a s = r at hstep
    obtain ⟨s', ok'⟩ := r
    cases ok' with
    | false => exact ⟨rfl, hstep⟩
    | true => exact ⟨(ih s').1, (ih s').2.trans hstep⟩

theorem kind_addAttribute (now : Timeval) (n : Node) (a : Attribute) :
    kind (n.addAttribute now a) = kind n := by
  unfold Node.addAttribute Node.stamp
  split_ifs <;> rfl

theorem kind_addInterface (now : Timeval) (n : Node) (i : Interface) :
    kind (n.addInterface now i) = kind n := by
  unfold Node.addInterface Node.stamp
  dsimp only
  split_ifs <;> rfl

theorem fillNode_spec (node_rowid : ℤ) (n : Node) :
    (StoredNode.fillNode k db node_rowid n).2 = Fillable k db node_rowid ∧
      kind (StoredNode.fillNode k db node_rowid n).1 = kind n := by
  obtain ⟨hok, hkind⟩ := @runAll_keeps _ _ _ (StoredNode.addStoredAttribute k db node_rowid)
    (fun r => (StoredNode.getAttrFromRowId db (columnInt r (lit "attr_rowid")) node_rowid).isSome)
    kind (fun r n => by unfold StoredNode.addStoredAttribute; split <;> simp [*])
    (fun r n => by
      unfold StoredNode.addStoredAttribute
      split
      · rfl
      · exact kind_addAttribute k.now n _)
    (db.links.rows.filter (StoredNode.ofNode node_rowid)) n
  unfold StoredNode.fillNode Fillable
  rw [← hok]
  generalize StoredNode.runAll (StoredNode.addStoredAttribute k db node_rowid)
    (db.links.rows.filter (StoredNode.ofNode node_rowid)) n = r at hkind
  obtain ⟨n', ok⟩ := r
  cases ok with
  | false => exact ⟨rfl, hkind⟩
  | true =>
    obtain ⟨hok', hkind'⟩ := @runAll_keeps _ _ _ (StoredNode.addStoredInterface k)
      (fun r => (StoredNode.storedInterface k r).isSome) kind
      (fun r n => by unfold StoredNode.addStoredInterface; split <;> simp [*])
      (fun r n => by
        unfold StoredNode.addStoredInterface
        split
        · rfl
        · exact kind_addInterface k.now n _)
      (db.interfaces.rows.filter (StoredNode.ofNode node_rowid)) n'
    exact ⟨hok', hkind'.trans hkind⟩

/-- The kind of the node that a row is made into. -/
def rowKind (kinds : List (Digest × NodeType)) (r : Sql.Row) : Option (Digest × NodeType) :=
  if Fillable k db (columnInt r (lit "rowid")) then
    match kinds.find? fun x => x.1 = StoredNode.digestOf (columnText r (lit "id")) with
    | some x => some x
    | none => (StoredNode.restoreNode k r).map kind
  else none

theorem map_kind_putNode {m m₀ : Node} {ns : List Node} (hfind : ns.find? (·.id = m.id) = some m₀)
    (hkind : kind m = kind m₀) : (StoredNode.putNode m ns).map kind = ns.map kind := by
  induction ns with
  | nil => rfl
  | cons n ns ih =>
    rw [StoredNode.putNode]
    by_cases hn : n.id = m.id
    · rw [List.find?_cons_of_pos (by simpa using hn)] at hfind
      rw [if_pos hn, List.map_cons, List.map_cons, hkind, Option.some.inj hfind]
    · rw [List.find?_cons_of_neg (by simpa using hn)] at hfind
      rw [if_neg hn, List.map_cons, List.map_cons, ih hfind]

/-- A row is made into a node of its kind, and the nodes in memory keep theirs. -/
theorem createNode_spec (r : Sql.Row) :
    (StoredNode.createNode k db r).1.map kind = rowKind k db (k.nodeStore.map kind) r ∧
      (StoredNode.createNode k db r).2.map kind = k.nodeStore.map kind := by
  have hfind : (k.nodeStore.map kind).find?
      (fun x => x.1 = StoredNode.digestOf (columnText r (lit "id"))) =
        (k.nodeStore.find? (·.id = StoredNode.digestOf (columnText r (lit "id")))).map kind := by
    rw [List.find?_map]
    rfl
  unfold StoredNode.createNode rowKind
  rw [hfind]
  cases hm : k.nodeStore.find? (·.id = StoredNode.digestOf (columnText r (lit "id"))) with
  | some m =>
    obtain ⟨hok, hkind⟩ := fillNode_spec k db (columnInt r (lit "rowid")) m
    dsimp only
    rw [hok]
    generalize StoredNode.fillNode k db (columnInt r (lit "rowid")) m = x at hkind
    obtain ⟨m', ok⟩ := x
    have hid : m'.id = StoredNode.digestOf (columnText r (lit "id")) := by
      have hmid : m.id = StoredNode.digestOf (columnText r (lit "id")) := by
        simpa using List.find?_some hm
      exact (congrArg Prod.fst hkind).trans hmid
    refine ⟨?_, map_kind_putNode (by rw [hid]; exact hm) hkind⟩
    split_ifs
    · exact congrArg some hkind
    · rfl
  | none =>
    cases hr : StoredNode.restoreNode k r with
    | none => exact ⟨by split_ifs <;> rfl, rfl⟩
    | some n =>
      obtain ⟨hok, hkind⟩ := fillNode_spec k db (columnInt r (lit "rowid")) n
      dsimp only
      rw [hok]
      generalize StoredNode.fillNode k db (columnInt r (lit "rowid")) n = x at hkind
      obtain ⟨n', ok⟩ := x
      refine ⟨?_, rfl⟩
      split_ifs
      · exact congrArg some hkind
      · rfl

end Kinds

section Loop

variable (k : NodeKernel) (db : Database)

/-- The identifier of the target that a row of the ranking leads to. -/
def targetId (kinds : List (Digest × NodeType)) (node_rowid : ℤ) : Option Digest :=
  ((db.nodes.nodes.rows.find? fun r => columnInt r (lit "rowid") = node_rowid).bind
    (rowKind k db.nodes kinds)).bind fun x =>
      if x.2 = .peer ∨ x.2 = .gateway then some x.1 else none

theorem getNodeFromRowId_spec (node_rowid : ℤ) :
    ((getNodeFromRowId db k node_rowid).1.filter isTarget).map Node.id =
        targetId k db (k.nodeStore.map kind) node_rowid ∧
      (getNodeFromRowId db k node_rowid).2.map kind = k.nodeStore.map kind := by
  unfold getNodeFromRowId targetId
  cases db.nodes.nodes.rows.find? fun r => columnInt r (lit "rowid") = node_rowid with
  | none => exact ⟨rfl, rfl⟩
  | some r =>
    obtain ⟨hkind, hstore⟩ := createNode_spec k db.nodes r
    refine ⟨?_, hstore⟩
    rw [Option.bind_some, ← hkind]
    cases (StoredNode.createNode k db.nodes r).1 with
    | none => rfl
    | some n =>
      by_cases hn : n.type = .peer ∨ n.type = .gateway
      · have htarget : isTarget n = true := by simpa [isTarget] using hn
        rw [Option.filter_some_pos htarget]
        exact (if_pos hn).symm
      · have htarget : ¬isTarget n = true := by simpa [isTarget] using hn
        rw [Option.filter_some_neg (Bool.not_eq_true _ ▸ htarget)]
        exact (if_neg hn).symm

theorem nodeLoop_spec (rows : List MatchRow) (k' : NodeKernel)
    (hk : k' = { k with nodeStore := k'.nodeStore })
    (hkinds : k'.nodeStore.map kind = k.nodeStore.map kind) :
    (nodeLoop db rows k').1.map Node.id =
        rows.filterMap fun r => targetId k db (k.nodeStore.map kind) r.node_rowid := by
  induction rows generalizing k' with
  | nil => rfl
  | cons r rows ih =>
    obtain ⟨hid, hstore⟩ := getNodeFromRowId_spec k' db r.node_rowid
    have hsame : targetId k' db (k'.nodeStore.map kind) r.node_rowid =
        targetId k db (k.nodeStore.map kind) r.node_rowid := by
      rw [hkinds, hk]
      rfl
    rw [nodeLoop]
    generalize getNodeFromRowId db k' r.node_rowid = x at hid hstore
    obtain ⟨n, ns⟩ := x
    dsimp only at hid hstore ⊢
    have hrest := ih { k' with nodeStore := ns } (by rw [hk]) (hstore.trans hkinds)
    rw [List.map_append, hrest, List.filterMap_cons, ← hsame, ← hid]
    cases n.filter isTarget <;> rfl

theorem isTarget_nodeLoop (rows : List MatchRow) (k : NodeKernel) :
    ∀ n ∈ (nodeLoop db rows k).1, isTarget n = true := by
  induction rows generalizing k with
  | nil => exact fun _ hn => absurd hn List.not_mem_nil
  | cons r rows ih =>
    intro n hn
    rw [nodeLoop] at hn
    rcases List.mem_append.mp hn with hn | hn
    · exact (Option.filter_eq_some_iff.mp (Option.mem_toList.mp hn)).2
    · exact ih _ n hn

end Loop

section Ranking

variable (env : Environment) (db : Database) (attrMatch : ℕ) (dataobject_rowid : ℤ)

/-- What the query asks of a row. -/
def wanted (r : MatchRow) : Bool :=
  atLeast (ratio db.tables r.node_rowid r.weight) (threshold db.tables r.node_rowid) &&
    attrMatch ≤ r.mcount && !r.dataobject_not_match

/-- The nodes that match a data object, the best first. A node whose sum of weights leaves 64 bits
has no ratio. -/
def ranked : List MatchRow :=
  let ls := dataobjectLinks db.tables env.plan dataobject_rowid
  orderByDesc (fun r => [(ratio db.tables r.node_rowid r.weight).map Int64.toInt,
    some (r.mcount : ℤ)])
    ((((groupKeys Link.pair ls).filter fun p => !(sum (weights ls p)).overflow).map fun p =>
      matchRow p (weights ls p)).filter (wanted db attrMatch))

theorem nodeRows_of_overflows (maxResp : ℕ)
    (h : Overflows (dataobjectLinks db.tables env.plan dataobject_rowid)) :
    nodeRows env db maxResp attrMatch dataobject_rowid = none := by
  have hrows := matchRows_of_overflows h
  rw [dataobjectLinks] at hrows
  rw [nodeRows, nodeQuery, matchDataobjectsAndNodes, hrows]
  rfl

/-- The statement gives the best rows up to the limit. -/
theorem nodeRows_eq {maxResp : ℕ} (hmax : 0 < maxResp)
    (h : ¬Overflows (dataobjectLinks db.tables env.plan dataobject_rowid)) :
    nodeRows env db maxResp attrMatch dataobject_rowid =
      some ((ranked env db attrMatch dataobject_rowid).take maxResp) := by
  have hrows := matchRows_eq h
  have hall : (groupKeys Link.pair (dataobjectLinks db.tables env.plan dataobject_rowid)).filter
      (fun p => !(sum (weights (dataobjectLinks db.tables env.plan dataobject_rowid) p)).overflow) =
        groupKeys Link.pair (dataobjectLinks db.tables env.plan dataobject_rowid) := by
    refine List.filter_eq_self.mpr fun p _ => ?_
    rw [Bool.not_eq_true', Bool.eq_false_iff]
    exact fun hp => h ⟨p, hp⟩
  rw [ranked, hall]
  rw [dataobjectLinks] at hrows
  rw [nodeRows, nodeQuery, matchDataobjectsAndNodes, hrows, Option.map_some, Option.map_some]
  dsimp only
  rw [if_pos hmax]
  rfl

end Ranking

section Result

variable (env : Environment) (dObj : DataObject) (maxResp attrMatch : ℕ) (s : State)

/-- The rows that match the data object of a query. -/
def rankedFor : List MatchRow := ranked env s.db attrMatch (s.db.getDataObjectRowId dObj.id)

/-- The target of a row. -/
def targetOf (r : MatchRow) : Option Digest :=
  targetId s.kernel s.db (s.kernel.nodeStore.map kind) r.node_rowid

/-- The result has the best peers and gateways up to the limit, and nothing else. -/
def FindsBest : Prop :=
  ∃ nodes, (doNodeQuery env .executed dObj maxResp attrMatch s).2.posted =
      (if nodes = [] then [] else [.result nodes [dObj]]) ∧
    (∀ n ∈ nodes, isTarget n = true) ∧
    nodes.map Node.id = ((rankedFor env dObj attrMatch s).filterMap (targetOf s)).take maxResp

/-- No target matches; or no sum of weights leaves 64 bits, and the best rows up to the limit all
lead to targets, or none of the others does. -/
def Unmixed : Prop :=
  (rankedFor env dObj attrMatch s).filterMap (targetOf s) = [] ∨
    ¬Overflows (dataobjectLinks s.db.tables env.plan (s.db.getDataObjectRowId dObj.id)) ∧
      ((∀ r ∈ (rankedFor env dObj attrMatch s).take maxResp, (targetOf s r).isSome = true) ∨
        ∀ r ∈ (rankedFor env dObj attrMatch s).drop maxResp, targetOf s r = none)

/-- To cut a list before its entries are looked at is to cut what comes of them if all entries in
front are taken or none behind. -/
theorem filterMap_take_iff {α β : Type} (f : α → Option β) (l : List α) (n : ℕ) :
    (l.take n).filterMap f = (l.filterMap f).take n ↔
      (∀ a ∈ l.take n, (f a).isSome = true) ∨ ∀ a ∈ l.drop n, f a = none := by
  have hsplit : l.filterMap f = (l.take n).filterMap f ++ (l.drop n).filterMap f := by
    rw [← List.filterMap_append, List.take_append_drop]
  have hle : ((l.take n).filterMap f).length ≤ n :=
    (List.length_filterMap_le f _).trans (List.length_take_le n l)
  have hnone : (∀ a ∈ l.drop n, f a = none) ↔ (l.drop n).filterMap f = [] :=
    List.filterMap_eq_nil_iff.symm
  have hsame : ((l.take n).filterMap f).length = (l.take n).length ↔
      ∀ a ∈ l.take n, (f a).isSome = true := List.filterMap_length_eq_length
  rw [hsplit, List.take_append, List.take_of_length_le hle, hnone, ← hsame,
    List.self_eq_append_right, List.take_eq_nil_iff]
  have hdrop : (l.take n).length < n → (l.drop n).filterMap f = [] := by
    intro hlt
    have hlen : l.length ≤ n := by
      rw [List.length_take] at hlt
      omega
    rw [List.drop_eq_nil_of_le hlen]
    rfl
  have hlen := List.length_filterMap_le f (l.take n)
  have hlen' := List.length_take_le n l
  constructor
  · rintro (hzero | hnil)
    · exact .inl (by omega)
    · exact .inr hnil
  · rintro (hsame | hnil)
    · by_cases hlt : (l.take n).length < n
      · exact .inr (hdrop hlt)
      · exact .inl (by omega)
    · exact .inr hnil

/-- What the query reports. -/
theorem doNodeQuery_posted (hmax : 0 < maxResp) :
    ∃ nodes, (doNodeQuery env .executed dObj maxResp attrMatch s).2.posted =
        (if nodes = [] then [] else [.result nodes [dObj]]) ∧
      (∀ n ∈ nodes, isTarget n = true) ∧
      ((Overflows (dataobjectLinks s.db.tables env.plan (s.db.getDataObjectRowId dObj.id)) →
        nodes = []) ∧
      (¬Overflows (dataobjectLinks s.db.tables env.plan (s.db.getDataObjectRowId dObj.id)) →
        nodes.map Node.id =
          ((rankedFor env dObj attrMatch s).take maxResp).filterMap (targetOf s))) := by
  have hview : setView .executed (s.db.getDataObjectRowId dObj.id) s.dataobjectView =
      some (s.db.getDataObjectRowId dObj.id) := rfl
  by_cases hover : Overflows (dataobjectLinks s.db.tables env.plan
      (s.db.getDataObjectRowId dObj.id))
  · refine ⟨[], ?_, fun _ hn => absurd hn List.not_mem_nil, fun _ => rfl, fun h => absurd hover h⟩
    unfold doNodeQuery
    dsimp only
    rw [hview, select, nodeRows_of_overflows env s.db attrMatch _ maxResp hover]
    rfl
  · have hrows := nodeRows_eq env s.db attrMatch (s.db.getDataObjectRowId dObj.id) hmax hover
    have hids := nodeLoop_spec s.kernel s.db ((rankedFor env dObj attrMatch s).take maxResp)
      s.kernel rfl rfl
    refine ⟨_, ?_, ?_, fun h => absurd h hover, fun _ => hids⟩
    · unfold doNodeQuery
      dsimp only
      rw [hview, select, hrows]
      rfl
    · exact isTarget_nodeLoop s.db _ s.kernel

/-- With a limit, the query finds the best targets just if no other node is between them. -/
theorem findsBest_iff (hmax : 0 < maxResp) :
    FindsBest env dObj maxResp attrMatch s ↔ Unmixed env dObj maxResp attrMatch s := by
  obtain ⟨nodes, hposted, htarget, hover, hids⟩ := doNodeQuery_posted env dObj maxResp attrMatch s
    hmax
  have hbest : FindsBest env dObj maxResp attrMatch s ↔
      nodes.map Node.id =
        ((rankedFor env dObj attrMatch s).filterMap (targetOf s)).take maxResp := by
    constructor
    · rintro ⟨nodes', hposted', -, hids'⟩
      rw [hposted] at hposted'
      have hnodes : nodes = nodes' := by
        split_ifs at hposted' with h h'
        · rw [h, h']
        · injection hposted' with hposted'
          injection hposted'
      rw [hnodes, hids']
    · exact fun h => ⟨nodes, hposted, htarget, h⟩
  rw [hbest, Unmixed]
  by_cases ho : Overflows (dataobjectLinks s.db.tables env.plan (s.db.getDataObjectRowId dObj.id))
  · rw [hover ho, List.map_nil, eq_comm, List.take_eq_nil_iff, or_iff_right hmax.ne']
    exact ⟨.inl, fun h => h.resolve_right fun h => h.1 ho⟩
  · rw [hids ho, filterMap_take_iff]
    constructor
    · exact fun h => .inr ⟨ho, h⟩
    · rintro (hnil | ⟨-, h⟩)
      · exact .inr fun r hr => List.filterMap_eq_nil_iff.mp hnil r (List.mem_of_mem_drop hr)
      · exact h

end Result

end StoreQueries

namespace Sample

open StoreQueries

/-- A row of a node of this type with one attribute, which has all its weight. -/
def rankedNode (rowid type sum_weights : ℤ) : Sql.Row :=
  [(lit "rowid", .int rowid), (lit "type", .int type), (lit "id", .blob digest.1),
    (lit "bloomfilter", .blob [1]), (lit "sum_weights", .int sum_weights),
    (lit "resolution_threshold", .int 10)]

/-- An application and a peer match a data object, the application better. -/
def rankedTables : Database :=
  { matchedTables with
    nodes := { matchedTables.nodes with
      nodes := { matchedTables.nodes.nodes with
        rows := [rankedNode 1 2 1, rankedNode 2 3 2] }
      links := { matchedTables.nodes.links with
        rows := [[(lit "node_rowid", .int 1), (lit "attr_rowid", .int 1), (lit "weight", .int 1)],
          [(lit "node_rowid", .int 2), (lit "attr_rowid", .int 1), (lit "weight", .int 1)]] } }
    nodes_pos := by decide }

def rankedStart : State := ⟨rankedTables, some 0, some 0, bareKernel,
  ⟨[], fun _ => true, fun _ => true, fun _ _ => true, []⟩⟩

theorem findsBest_limit :
    FindsBest queryEnvironment matchedObject 2 1 rankedStart ↔
      Unmixed queryEnvironment matchedObject 2 1 rankedStart :=
  findsBest_iff queryEnvironment matchedObject 2 1 rankedStart (by decide)

/-- With a limit of one, the application takes the place of the peer, and nothing is found. -/
theorem not_findsBest_application :
    ¬ FindsBest queryEnvironment matchedObject 1 1 rankedStart := by
  rintro ⟨nodes, hposted, -, hids⟩
  have hnothing : (doNodeQuery queryEnvironment .executed matchedObject 1 1
      rankedStart).2.posted.length = 0 := by decide
  have hpeer : ((rankedFor queryEnvironment matchedObject 1 rankedStart).filterMap
      (targetOf rankedStart)).length = 1 := by decide
  have hlen := congrArg List.length hids
  rw [List.length_take, hpeer, List.length_map] at hlen
  rw [hposted] at hnothing
  split_ifs at hnothing with hnil
  rw [hnil] at hlen
  cases hlen

end Sample
end Haggle
