import Haggle.NodeDescriptions
import Haggle.QueryHistory

/-!
# The query of a delegate for several targets

The data objects for the targets are gathered target by target within one maximum. The result is
reported if the last target that was looked at has a match, and what two targets match is in the
result twice.
-/

namespace Haggle
namespace StoreQueries

open StoredNode (int32 signed)

section Lists

variable {α κ : Type} [DecidableEq κ]

/-- At most as many as the budget allows; without one, all. -/
def cut : Option ℕ → List α → List α
  | none, l => l
  | some n, l => l.take n

/-- What a list has left of a budget. -/
def rest (budget : Option ℕ) (l : List α) : Option ℕ := budget.map (· - l.length)

/-- The first entries with each key that has not been seen. -/
def firsts (key : α → κ) : List κ → List α → List α
  | _, [] => []
  | seen, a :: l => if key a ∈ seen then firsts key seen l else a :: firsts key (key a :: seen) l

theorem cut_nil (budget : Option ℕ) : cut budget ([] : List α) = [] := by
  cases budget with
  | none => rfl
  | some n => exact List.take_nil

theorem cut_append (budget : Option ℕ) (l l' : List α) :
    cut budget (l ++ l') = cut budget l ++ cut (rest budget l) l' := by
  cases budget with
  | none => rfl
  | some n => exact List.take_append

theorem rest_cut (budget : Option ℕ) (l : List α) : rest budget (cut budget l) = rest budget l := by
  cases budget with
  | none => rfl
  | some n =>
    rw [rest, rest, cut, Option.map_some, Option.map_some, List.length_take]
    exact congrArg some (by omega)

theorem rest_nil (budget : Option ℕ) : rest budget ([] : List α) = budget := by
  cases budget <;> rfl

theorem rest_append (budget : Option ℕ) (l l' : List α) :
    rest budget (l ++ l') = rest (rest budget l) l' := by
  cases budget with
  | none => rfl
  | some n =>
    rw [rest, rest, rest, Option.map_some, Option.map_some, Option.map_some, List.length_append]
    exact congrArg some (Nat.sub_add_eq _ _ _)

/-- A budget that is not used up is for something. -/
theorem cut_eq_nil_iff {budget : Option ℕ} (h : budget ≠ some 0) {l : List α} :
    cut budget l = [] ↔ l = [] := by
  cases budget with
  | none => rfl
  | some n =>
    have hn : n ≠ 0 := fun hn => h (congrArg some hn)
    rw [cut, List.take_eq_nil_iff, or_iff_right hn]

theorem firsts_nodup (key : α → κ) (seen : List κ) (l : List α) :
    ((firsts key seen l).map key).Nodup ∧ ∀ a ∈ firsts key seen l, key a ∉ seen := by
  induction l generalizing seen with
  | nil => exact ⟨List.nodup_nil, fun _ ha => absurd ha List.not_mem_nil⟩
  | cons a l ih =>
    rw [firsts]
    split_ifs with ha
    · exact ih seen
    · obtain ⟨hnodup, hseen⟩ := ih (key a :: seen)
      rw [List.map_cons, List.nodup_cons, List.forall_mem_cons]
      refine ⟨⟨fun hmem => ?_, hnodup⟩, ha, fun b hb hmem => ?_⟩
      · obtain ⟨b, hb, hab⟩ := List.mem_map.mp hmem
        exact hseen b hb (hab ▸ List.mem_cons_self)
      · exact hseen b hb (List.mem_cons_of_mem _ hmem)

/-- Where the entries within the budget have different keys, these are the first ones. -/
theorem cut_firsts_of_nodup (key : α → κ) {budget : Option ℕ} {seen : List κ} {l : List α}
    (h : ((cut budget l).map key).Nodup) (hseen : ∀ a ∈ cut budget l, key a ∉ seen) :
    cut budget (firsts key seen l) = cut budget l := by
  induction l generalizing budget seen with
  | nil => rfl
  | cons a l ih =>
    cases budget with
    | some n =>
      cases n with
      | zero => rfl
      | succ n =>
        have hcut : cut (some (n + 1)) (a :: l) = a :: cut (some n) l := rfl
        rw [hcut] at h hseen ⊢
        rw [List.map_cons, List.nodup_cons] at h
        rw [List.forall_mem_cons] at hseen
        rw [firsts, if_neg hseen.1]
        refine congrArg (a :: ·) (ih h.2 fun b hb hmem => ?_)
        rcases List.mem_cons.mp hmem with hba | hmem
        · exact h.1 (hba ▸ List.mem_map_of_mem hb)
        · exact hseen.2 b hb hmem
    | none =>
      rw [cut, List.map_cons, List.nodup_cons] at h
      rw [cut, List.forall_mem_cons] at hseen
      rw [cut, firsts, if_neg hseen.1]
      refine congrArg (a :: ·) (@ih none (key a :: seen) h.2 fun b hb hmem => ?_)
      rcases List.mem_cons.mp hmem with hba | hmem
      · exact h.1 (hba ▸ List.mem_map_of_mem hb)
      · exact hseen.2 b hb hmem

theorem cut_firsts_iff (key : α → κ) (budget : Option ℕ) (l : List α) :
    cut budget l = cut budget (firsts key [] l) ↔ ((cut budget l).map key).Nodup := by
  constructor
  · intro h
    have hsub : (cut budget (firsts key [] l)).Sublist (firsts key [] l) := by
      cases budget with
      | none => exact List.Sublist.refl _
      | some n => exact List.take_sublist _ _
    rw [h]
    exact (firsts_nodup key [] l).1.sublist (hsub.map key)
  · intro h
    exact (cut_firsts_of_nodup key h fun _ _ => List.not_mem_nil).symm

/-- The loop over the rows finds the accepted ones, up to a number that is enough. -/
theorem gather_eq_take {ρ : Type} (accept : ρ → Option α) {enough : ℕ → Bool} {k : ℕ}
    (henough : ∀ i ≤ k, enough i = decide (i = k)) (rows : List ρ) {n : ℕ} (hn : n < k) :
    (gather enough accept n rows).1 = (rows.filterMap accept).take (k - n) := by
  induction rows generalizing n with
  | nil => exact List.take_nil.symm
  | cons r rows ih =>
    rw [gather]
    cases hr : accept r with
    | none =>
      rw [List.filterMap_cons_none hr]
      exact ih hn
    | some a =>
      have hsucc : k - n = k - (n + 1) + 1 := by omega
      rw [List.filterMap_cons_some hr, hsucc, List.take_succ_cons, henough (n + 1) hn]
      dsimp only
      by_cases hlast : n + 1 = k
      · rw [if_pos (decide_eq_true hlast), hlast, Nat.sub_self, List.take_zero]
      · rw [if_neg (by simpa using hlast)]
        exact congrArg (a :: ·) (ih (by omega))

theorem gather_eq_all {ρ : Type} (accept : ρ → Option α) {enough : ℕ → Bool}
    (henough : ∀ i, enough i = false) (rows : List ρ) (n : ℕ) :
    (gather enough accept n rows).1 = rows.filterMap accept := by
  induction rows generalizing n with
  | nil => rfl
  | cons r rows ih =>
    rw [gather]
    cases hr : accept r with
    | none =>
      rw [List.filterMap_cons_none hr]
      exact ih n
    | some a =>
      rw [List.filterMap_cons_some hr]
      dsimp only
      rw [if_neg (by simp [henough])]
      exact congrArg (a :: ·) (ih (n + 1))

/-- The loop finds what the budget allows of the accepted rows. -/
theorem gather_eq {ρ : Type} (accept : ρ → Option α) {budget : Option ℕ} (rows : List ρ)
    (hb : ∀ k ∈ budget, 0 < k) :
    (gather (fun n => ((budget.getD 0 : ℕ) : ℤ) ≠ 0 && ((budget.getD 0 : ℕ) : ℤ) ≤ n) accept 0
        rows).1 = cut budget (rows.filterMap accept) := by
  cases budget with
  | none => exact gather_eq_all accept (fun _ => rfl) rows 0
  | some k =>
    have hk := hb k rfl
    refine gather_eq_take accept (fun i hi => ?_) rows hk
    rw [Option.getD_some, Bool.eq_iff_iff]
    simp
    omega

end Lists

section Loop

/-- The budget of a delegate. A maximum of zero is no maximum. -/
def budgetOf (n : Node) : Option ℕ :=
  if n.maxDataObjectsInMatch = 0 then none else some n.maxDataObjectsInMatch

variable (env : Environment)

/-- The data objects for a target, the best first: those that match, that neither the target nor the
delegate has, and that describe neither. -/
def eligible (delegate : Node) (threshold attrMatch : ℕ) (db : Database) (fs : FileSystem)
    (node : Node) : List DataObject :=
  let rowid := getNodeRowId env db node
  if rowid = -1 then []
  else ((dataObjectRows env db threshold attrMatch rowid).getD []).filterMap fun r =>
    (getDataObjectFromRowId env db fs r.dataobject_rowid).filter
      (candidate env node (some delegate))

variable (delegate : Node) (threshold attrMatch : ℕ)

/-- The query for one target finds what the budget allows. -/
theorem doDataObjectQueryStep2_eq (node : Node) {budget : Option ℕ} (hb : ∀ k ∈ budget, 0 < k)
    (s : State) :
    (doDataObjectQueryStep2 env .executed node (some delegate) ((budget.getD 0 : ℕ) : ℤ) threshold
      attrMatch s).2 =
        cut budget (eligible env delegate threshold attrMatch s.db s.files node) := by
  unfold doDataObjectQueryStep2 eligible
  dsimp only
  split_ifs with hrow
  · exact (cut_nil _).symm
  · have hview : setView .executed (getNodeRowId env s.db node) s.nodeView =
        some (getNodeRowId env s.db node) := rfl
    rw [hview, select]
    cases dataObjectRows env s.db threshold attrMatch (getNodeRowId env s.db node) with
    | none => exact (cut_nil _).symm
    | some rows =>
      exact gather_eq _ rows hb

theorem int32_ofNat {k : ℕ} (hk : k < 2 ^ 31) : (int32 (k : ℤ)).toInt = k := by
  rw [int32, BitVec.toInt_ofInt, Int.bmod_eq_of_le] <;> omega

theorem budgetOf_ne (n : Node) : budgetOf n ≠ some 0 := by
  unfold budgetOf
  split_ifs with hzero
  · nofun
  · exact fun h => hzero (Option.some.inj h)

theorem signed_ofNat {k : ℕ} (hk : k < 2 ^ 31) : signed k = k := by
  rw [signed, BitVec.toInt_ofNat', Int.bmod_eq_of_le] <;> omega

theorem rest_isSome (budget : Option ℕ) (l : List DataObject) :
    (rest budget l).isSome = budget.isSome := Option.isSome_map

/-- A round that is not the last adds what the budget allows and leaves the rest. -/
theorem forNodesLoop_cons {t : Node} {targets : List Node} {budget : Option ℕ}
    (hb : ∀ k ∈ budget, k < 2 ^ 31) (hzero : budget ≠ some 0) (dObjs : List DataObject) (n : ℕ)
    (s : State) :
    let found := cut budget (eligible env delegate threshold attrMatch s.db s.files t)
    ∃ s', s'.db = s.db ∧ s'.files = s.files ∧
      forNodesLoop env delegate threshold attrMatch budget.isSome
          ((t :: targets).map fun t => (t, .executed)) ((budget.getD 0 : ℕ) : ℤ) dObjs n s =
        forNodesLoop env delegate threshold attrMatch (rest budget found).isSome
          (targets.map fun t => (t, .executed)) (((rest budget found).getD 0 : ℕ) : ℤ)
          (dObjs ++ found) found.length s' := by
  intro found
  have hpos : ∀ k ∈ budget, 0 < k := by
    rintro k hk
    obtain rfl := Option.mem_def.mp hk
    exact Nat.pos_of_ne_zero fun hk => hzero (congrArg some hk)
  have hleft : ¬(budget.isSome = true ∧ ((budget.getD 0 : ℕ) : ℤ) ≤ 0) := by
    cases budget with
    | none => exact fun h => Bool.false_ne_true h.1
    | some k => exact fun h => absurd (Int.ofNat_le.mp h.2) (Nat.not_le.mpr (hpos k rfl))
  have hint : (int32 ((budget.getD 0 : ℕ) : ℤ)).toInt = ((budget.getD 0 : ℕ) : ℤ) := by
    cases budget with
    | none => rfl
    | some k => exact int32_ofNat (hb k rfl)
  have hrest : (if budget.isSome = true then ((budget.getD 0 : ℕ) : ℤ) - found.length
      else ((budget.getD 0 : ℕ) : ℤ)) = (((rest budget found).getD 0 : ℕ) : ℤ) := by
    cases budget with
    | none => rfl
    | some k =>
      have hle : found.length ≤ k := List.length_take_le k _
      exact (Int.ofNat_sub hle).symm
  have hfound := doDataObjectQueryStep2_eq env delegate threshold attrMatch t hpos s
  obtain ⟨hdb, hfiles⟩ := doDataObjectQueryStep2_frame env .executed t (some delegate)
    ((budget.getD 0 : ℕ) : ℤ) threshold attrMatch s
  rw [List.map_cons, forNodesLoop, if_neg hleft, hint, rest_isSome]
  generalize doDataObjectQueryStep2 env .executed t (some delegate) ((budget.getD 0 : ℕ) : ℤ)
    threshold attrMatch s = x at hfound hdb hfiles
  obtain ⟨s', l⟩ := x
  obtain rfl : l = found := hfound
  refine ⟨s', hdb, hfiles, ?_⟩
  dsimp only
  rw [hrest]

/-- The loop finds what the budget allows of all, and what it counts in the end is nothing if the
last target that it looked at had nothing. -/
theorem forNodesLoop_spec (targets : List Node) {budget : Option ℕ}
    (hb : ∀ k ∈ budget, k < 2 ^ 31) (dObjs : List DataObject) (n : ℕ) (s : State) :
    let E := eligible env delegate threshold attrMatch s.db s.files
    let r := (forNodesLoop env delegate threshold attrMatch budget.isSome
      (targets.map fun t => (t, .executed)) ((budget.getD 0 : ℕ) : ℤ) dObjs n s).2
    r.1 = dObjs ++ cut budget (targets.flatMap E) ∧
      (r.2 = 0 ↔ (targets = [] ∨ budget = some 0) ∧ n = 0 ∨
        budget ≠ some 0 ∧ (targets.map E).getLast? = some [] ∧
          rest budget (targets.flatMap E) ≠ some 0) := by
  induction targets generalizing budget dObjs n s with
  | nil => simp [forNodesLoop, cut_nil]
  | cons t targets ih =>
    intro E r
    by_cases hzero : budget = some 0
    · obtain rfl := hzero
      have hr : r = (dObjs, n) := by simp [r, forNodesLoop]
      rw [hr]
      simp [cut]
    · obtain ⟨s', hdb, hfiles, hcons⟩ :=
        @forNodesLoop_cons env delegate threshold attrMatch t targets budget hb hzero dObjs n s
      have hr : r = _ := congrArg Prod.snd hcons
      have hb' : ∀ k ∈ rest budget (E t), k < 2 ^ 31 := by
        intro k hk
        obtain ⟨m, hm, rfl⟩ := Option.map_eq_some_iff.mp hk
        exact (Nat.sub_le _ _).trans_lt (hb m hm)
      obtain ⟨hfound, hcount⟩ := @ih (rest budget (E t)) hb' (dObjs ++ cut budget (E t))
        (cut budget (E t)).length s'
      rw [hdb, hfiles] at hfound hcount
      rw [rest_cut] at hr
      rw [hr, List.flatMap_cons, cut_append, ← List.append_assoc]
      refine ⟨hfound, hcount.trans ?_⟩
      rw [List.length_eq_zero_iff, cut_eq_nil_iff hzero, rest_append]
      by_cases hrest : rest budget (E t) = some 0
      · -- The budget is used up here, by a target that has something.
        have hne : E t ≠ [] := by
          intro hnil
          rw [hnil] at hrest
          exact hzero ((rest_nil budget).symm.trans hrest)
        rw [hrest]
        simp [rest, hne, hzero]
      · cases targets with
        | nil => simp [hzero, hrest, rest_nil]
        | cons t' targets => simp [hzero, hrest, E]

end Loop

section Result

variable (env : Environment) (delegate : Node) (targets : List Node) (attrMatch : ℕ) (s : State)

/-- What there is for a target of the query. -/
def eligibleFor (t : Node) : List DataObject :=
  eligible env delegate (delegate.matchThreshold % 2 ^ 32) attrMatch s.db s.files t

/-- The result is reported if there is anything for a target, and has the best data objects for the
targets in their order, each one once, up to the maximum. -/
def Delegated : Prop :=
  (doDataObjectForNodesQuery env delegate (targets.map fun t => (t, .executed)) attrMatch
    s).2.posted =
      if targets.flatMap (eligibleFor env delegate attrMatch s) = [] then []
      else [.result [delegate] (cut (budgetOf delegate)
        (firsts DataObject.id [] (targets.flatMap (eligibleFor env delegate attrMatch s))))]

/-- The maximum is an `int`, nothing within it is for two targets, and the last target that is
looked at is not one there is nothing for, unless there is nothing for any. -/
structure Clear : Prop where
  max : delegate.maxDataObjectsInMatch < 2 ^ 31
  unique : ((cut (budgetOf delegate)
    (targets.flatMap (eligibleFor env delegate attrMatch s))).map DataObject.id).Nodup
  last : targets.flatMap (eligibleFor env delegate attrMatch s) = [] ∨
    rest (budgetOf delegate) (targets.flatMap (eligibleFor env delegate attrMatch s)) = some 0 ∨
    ∃ t ∈ targets.getLast?, eligibleFor env delegate attrMatch s t ≠ []

theorem doDataObjectForNodesQuery_posted (hmax : delegate.maxDataObjectsInMatch < 2 ^ 31) :
    let L := targets.flatMap (eligibleFor env delegate attrMatch s)
    let r := (doDataObjectForNodesQuery env delegate (targets.map fun t => (t, .executed))
      attrMatch s).2.posted
    (r = [] ∨ r = [.result [delegate] (cut (budgetOf delegate) L)]) ∧
      (r ≠ [] ↔ targets ≠ [] ∧ (rest (budgetOf delegate) L = some 0 ∨
        ∃ t ∈ targets.getLast?, eligibleFor env delegate attrMatch s t ≠ [])) := by
  have hb : ∀ k ∈ budgetOf delegate, k < 2 ^ 31 := by
    intro k hk
    unfold budgetOf at hk
    split_ifs at hk
    · cases hk
    · exact (Option.some.inj hk) ▸ hmax
  have hleft : signed delegate.maxDataObjectsInMatch = (((budgetOf delegate).getD 0 : ℕ) : ℤ) := by
    rw [signed_ofNat hmax]
    unfold budgetOf
    split_ifs with hzero
    · rw [hzero]
      rfl
    · rfl
  have hhas : decide ((0 : ℤ) < signed delegate.maxDataObjectsInMatch) =
      (budgetOf delegate).isSome := by
    rw [signed_ofNat hmax]
    unfold budgetOf
    split_ifs with hzero
    · rw [hzero]
      rfl
    · exact decide_eq_true (by omega)
  intro L r
  obtain ⟨hfound, hcount⟩ := forNodesLoop_spec env delegate (delegate.matchThreshold % 2 ^ 32)
    attrMatch targets hb [] 0 s
  have hr : r = if (forNodesLoop env delegate (delegate.matchThreshold % 2 ^ 32) attrMatch
      (budgetOf delegate).isSome (targets.map fun t => (t, .executed))
      (((budgetOf delegate).getD 0 : ℕ) : ℤ) [] 0 s).2.2 = 0 then []
    else [.result [delegate] (cut (budgetOf delegate) L)] := by
    rw [← hhas, ← hleft] at hfound ⊢
    simp only [r, doDataObjectForNodesQuery, hfound]
    rfl
  have hiff : (forNodesLoop env delegate (delegate.matchThreshold % 2 ^ 32) attrMatch
      (budgetOf delegate).isSome (targets.map fun t => (t, .executed))
      (((budgetOf delegate).getD 0 : ℕ) : ℤ) [] 0 s).2.2 ≠ 0 ↔
        targets ≠ [] ∧ (rest (budgetOf delegate) L = some 0 ∨
          ∃ t ∈ targets.getLast?, eligibleFor env delegate attrMatch s t ≠ []) := by
    rw [ne_eq, hcount, List.getLast?_map]
    cases hlast : targets.getLast? with
    | none =>
      rw [List.getLast?_eq_none_iff.mp hlast]
      simp
    | some t =>
      have hne : targets ≠ [] := by
        rintro rfl
        cases hlast
      simp only [hne, budgetOf_ne, false_or, false_and, ne_eq, not_false_eq_true, true_and,
        Option.map_some, Option.some.injEq, Option.mem_def, exists_eq_left', not_and_or, not_not]
      exact or_comm
  rw [hr]
  by_cases hn : (forNodesLoop env delegate (delegate.matchThreshold % 2 ^ 32) attrMatch
      (budgetOf delegate).isSome (targets.map fun t => (t, .executed))
      (((budgetOf delegate).getD 0 : ℕ) : ℤ) [] 0 s).2.2 = 0
  · rw [if_pos hn]
    exact ⟨.inl rfl, fun h => absurd rfl h, fun h => absurd hn (hiff.mpr h)⟩
  · rw [if_neg hn]
    exact ⟨.inr rfl, fun _ => hiff.mp hn, fun _ h => by cases h⟩

/-- With a maximum that is an `int`, the query does what it should just if nothing is found twice
and the last target that is looked at is not one there is nothing for. -/
theorem delegated_iff_clear :
    (Delegated env delegate targets attrMatch s ∧ delegate.maxDataObjectsInMatch < 2 ^ 31) ↔
      Clear env delegate targets attrMatch s := by
  constructor
  · rintro ⟨h, hmax⟩
    obtain ⟨hr, hlast⟩ := doDataObjectForNodesQuery_posted env delegate targets attrMatch s hmax
    rw [Delegated] at h
    rw [h] at hr hlast
    by_cases hnil : targets.flatMap (eligibleFor env delegate attrMatch s) = []
    · refine ⟨hmax, ?_, .inl hnil⟩
      rw [hnil, cut_nil]
      exact List.nodup_nil
    · rw [if_neg hnil] at hr hlast
      refine ⟨hmax, ?_, .inr (hlast.mp nofun).2⟩
      rcases hr with hr | hr
      · cases hr
      · refine (cut_firsts_iff DataObject.id _ _).mp ?_
        injection hr with hr
        injection hr with _ hr
        exact hr.symm
  · rintro ⟨hmax, hunique, hlast⟩
    refine ⟨?_, hmax⟩
    obtain ⟨hr, hposted⟩ := doDataObjectForNodesQuery_posted env delegate targets attrMatch s hmax
    rw [Delegated, ← (cut_firsts_iff DataObject.id _ _).mpr hunique]
    by_cases hnil : targets.flatMap (eligibleFor env delegate attrMatch s) = []
    · rw [if_pos hnil]
      by_contra hne
      obtain ⟨htargets, hrest⟩ := hposted.mp hne
      rw [hnil, rest_nil] at hrest
      rcases hrest with hrest | ⟨t, ht, hfor⟩
      · exact budgetOf_ne delegate hrest
      · exact hfor (List.flatMap_eq_nil_iff.mp hnil t (List.mem_of_getLast? ht))
    · rw [if_neg hnil]
      have htargets : targets ≠ [] := by
        rintro rfl
        exact hnil rfl
      exact hr.resolve_left (hposted.mpr ⟨htargets, hlast.resolve_left hnil⟩)

end Result

end StoreQueries

namespace Sample

open StoreQueries

/-- A stored node matches a stored data object, which both are for. -/
def delegateTables : Database :=
  { matchedTables with
    dataobjects := { StoredObject.emptyTable with rows := [firstRow], rowid := 2 }
    dataobjects_pos := by decide }

def delegateEnvironment : Environment := { queryEnvironment with platform := storePlatform }

def delegateStart : State := ⟨delegateTables, some 0, some 0, bareKernel, emptyDisk⟩

/-- A node that is not in the store. -/
def strangeTarget : Node := { weighted 3 with id := .fill 7 }

/-- There is a data object for the first target and nothing for the second: nothing is reported. -/
theorem not_delegated_strangeTarget :
    ¬ Delegated delegateEnvironment strangeTarget [weighted 3, strangeTarget] 1 delegateStart := by
  intro h
  have hfor : ([weighted 3, strangeTarget].flatMap
      (eligibleFor delegateEnvironment strangeTarget 1 delegateStart)).length = 1 := by
    decide +kernel
  have hposted : (doDataObjectForNodesQuery delegateEnvironment strangeTarget
      ([weighted 3, strangeTarget].map fun t => (t, .executed)) 1 delegateStart).2.posted.length =
        0 := by decide +kernel
  have hne : [weighted 3, strangeTarget].flatMap
      (eligibleFor delegateEnvironment strangeTarget 1 delegateStart) ≠ [] :=
    List.ne_nil_of_length_pos (hfor.symm.subst Nat.one_pos)
  exact Nat.zero_ne_one (hposted.symm.trans (congrArg List.length (h.trans (if_neg hne))))

end Sample
end Haggle
