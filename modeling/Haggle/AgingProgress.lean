import Haggle.AgedObjects
import Haggle.NodeDescriptions

/-!
# Progress of aging

Rows are deleted by the identifiers of the data objects that were made of them. An aging call
removes as many rows as it reports if and only if those identifiers are different ones of stored
rows, and every deletion is carried out. Then a full batch, which makes the data manager ask for the
next one at once, leaves three rows fewer, and the requests come to an end.
-/

namespace Haggle
namespace AgedObjects

open ObjectStore (Ended read maxAgedAtOnce)
open Matching
open StoredObject (columnInt hasId deleteRows)
open StoreQueries (Database View Faults setView)

section Count

variable {α κ : Type} [DecidableEq κ] {p : κ → α → Bool} {l : List α}

theorem countP_any_cons (hp : ∀ i j a, p i a = true → p j a = true → i = j) (i : κ) (is : List κ) :
    l.countP (fun a => (i :: is).any (p · a)) =
      (if i ∈ is then 0 else l.countP (p i)) + l.countP fun a => is.any (p · a) := by
  by_cases hi : i ∈ is
  · rw [if_pos hi, Nat.zero_add]
    refine List.countP_congr fun a _ => ?_
    rw [List.any_cons, Bool.or_eq_true, List.any_eq_true]
    exact or_iff_right_of_imp fun ha => ⟨i, hi, ha⟩
  · rw [if_neg hi]
    induction l with
    | nil => rfl
    | cons a l ih =>
      have hone : p i a = true → is.any (p · a) = false := by
        intro ha
        rw [List.any_eq_false]
        exact fun j hj haj => hi (hp i j a ha haj ▸ hj)
      rw [List.countP_cons, List.countP_cons, List.countP_cons, ih, List.any_cons]
      cases hia : p i a with
      | false => simp [Nat.add_assoc]
      | true =>
        rw [hone hia]
        simp only [Bool.or_false, if_true, if_false, Bool.false_eq_true]
        omega

/-- Keys that at most one entry has take away as many entries as there are keys if and only if they
are different, and each has its entry. -/
theorem countP_any_le (hp : ∀ i j a, p i a = true → p j a = true → i = j)
    (hu : ∀ i, l.countP (p i) ≤ 1) (is : List κ) :
    l.countP (fun a => is.any (p · a)) ≤ is.length ∧
      (l.countP (fun a => is.any (p · a)) = is.length ↔
        is.Nodup ∧ ∀ i ∈ is, ∃ a ∈ l, p i a = true) := by
  induction is with
  | nil => simp
  | cons i is ih =>
    obtain ⟨hle, hiff⟩ := ih
    have hui := hu i
    rw [countP_any_cons hp, List.nodup_cons, List.forall_mem_cons, List.length_cons]
    by_cases hi : i ∈ is
    · rw [if_pos hi]
      refine ⟨by omega, iff_of_false (by omega) fun h => h.1.1 hi⟩
    · rw [if_neg hi]
      refine ⟨by omega, ?_⟩
      rw [← List.countP_pos_iff]
      constructor
      · intro heq
        obtain ⟨hnodup, hfound⟩ := hiff.mp (by omega)
        exact ⟨⟨hi, hnodup⟩, by omega, hfound⟩
      · rintro ⟨⟨-, hnodup⟩, hpos, hfound⟩
        have hrest := hiff.mpr ⟨hnodup, hfound⟩
        omega

end Count

section Deletions

variable {ds : ℕ → Ended} {os : List DataObject} {s : State}

/-- The identifiers whose deletions are carried out. -/
def executed : (ℕ → Ended) → List DataObject → List Digest
  | _, [] => []
  | ds, o :: os => (if ds 0 = .done then [o.id] else []) ++ executed (fun i => ds (i + 1)) os

theorem length_executed_le (ds : ℕ → Ended) (os : List DataObject) :
    (executed ds os).length ≤ os.length := by
  induction os generalizing ds with
  | nil => exact Nat.le_refl _
  | cons o os ih =>
    have hle := ih fun i => ds (i + 1)
    rw [executed, List.length_append, List.length_cons]
    split_ifs <;> simp only [List.length_singleton, List.length_nil] <;> omega

theorem executed_eq (h : ∀ i < os.length, ds i = .done) :
    executed ds os = os.map DataObject.id := by
  induction os generalizing ds with
  | nil => rfl
  | cons o os ih =>
    rw [executed, if_pos (h 0 (Nat.succ_pos _)), ih fun i hi => h (i + 1) (Nat.succ_lt_succ hi)]
    rfl

theorem deleted_of_length_executed (h : (executed ds os).length = os.length) :
    ∀ i < os.length, ds i = .done := by
  induction os generalizing ds with
  | nil => exact fun i hi => absurd hi (Nat.not_lt_zero i)
  | cons o os ih =>
    have hle := length_executed_le (fun i => ds (i + 1)) os
    rw [executed, List.length_append, List.length_cons] at h
    by_cases hd : ds 0 = .done
    · rw [if_pos hd, List.length_singleton] at h
      intro i hi
      cases i with
      | zero => exact hd
      | succ i =>
        have hrest : (executed (fun i => ds (i + 1)) os).length = os.length := by omega
        exact ih hrest i (Nat.lt_of_succ_lt_succ hi)
    · rw [if_neg hd, List.length_nil] at h
      omega

theorem rows_deleteAll (ds : ℕ → Ended) (os : List DataObject) (db : Database) :
    (deleteAll ds os db).dataobjects.rows =
      db.dataobjects.rows.filter fun r => !(executed ds os).any (hasId · r) := by
  induction os generalizing ds db with
  | nil => exact (List.filter_eq_self.mpr fun _ _ => rfl).symm
  | cons o os ih =>
    rw [deleteAll, ih, rows_deleteDataObject, executed]
    split_ifs
    · rw [List.filter_filter]
      refine List.filter_congr fun r _ => ?_
      rw [List.any_append, List.any_cons, List.any_nil, Bool.or_false, Bool.not_or, Bool.and_comm]
    · rfl

theorem eq_of_hasId {i j : Digest} {r : Sql.Row} (hi : hasId i r = true) (hj : hasId j r = true) :
    i = j := by
  rw [hasId, decide_eq_true_eq] at hi hj
  exact Subtype.ext (Sql.Value.blob.inj (hi.symm.trans hj))

theorem eq_of_unique (s : State) {id : Digest} {r r' : Sql.Row} (hr : r ∈ s.rows)
    (hr' : r' ∈ s.rows) (hid : hasId id r = true) (hid' : hasId id r' = true) : r = r' := by
  have hone := s.unique id
  have hmem : r ∈ s.rows.filter (hasId id) := List.mem_filter.mpr ⟨hr, hid⟩
  have hmem' : r' ∈ s.rows.filter (hasId id) := List.mem_filter.mpr ⟨hr', hid'⟩
  change s.rows.countP (hasId id) ≤ 1 at hone
  rw [List.countP_eq_length_filter] at hone
  obtain ⟨a, ha⟩ := List.length_eq_one_iff.mp
    (Nat.le_antisymm hone (List.length_pos_of_mem hmem))
  rw [ha, List.mem_singleton] at hmem hmem'
  exact hmem.trans hmem'.symm

/-- How many rows the deletions leave. -/
theorem length_deleteAll (ds : ℕ → Ended) (os : List DataObject) (s : State) :
    (s.deleteAll ds os).rows.length + s.rows.countP (fun r => (executed ds os).any (hasId · r)) =
      s.rows.length := by
  have hrows : (s.deleteAll ds os).rows =
      s.rows.filter fun r => !(executed ds os).any (hasId · r) := rows_deleteAll ds os s.db
  rw [hrows, ← List.countP_eq_length_filter, Nat.add_comm,
    List.length_eq_countP_add_countP fun r => (executed ds os).any (hasId · r)]
  congr 1
  exact List.countP_congr fun r _ => by simp

/-- There are as many rows fewer as data objects if and only if each of them has a row of its own
and its deletion is carried out. -/
theorem length_deleteAll_iff (ds : ℕ → Ended) (os : List DataObject) (s : State) :
    (s.deleteAll ds os).rows.length + os.length = s.rows.length ↔
      (∀ i < os.length, ds i = .done) ∧ (os.map DataObject.id).Nodup ∧
        ∀ o ∈ os, ∃ r ∈ s.rows, hasId o.id r = true := by
  have hcount := length_deleteAll ds os s
  have hle := length_executed_le ds os
  obtain ⟨hmost, hiff⟩ := countP_any_le (p := hasId) (l := s.rows) (fun _ _ _ => eq_of_hasId)
    s.unique (executed ds os)
  constructor
  · intro h
    have hdone := @deleted_of_length_executed ds os (by omega)
    obtain ⟨hnodup, hfound⟩ := hiff.mp (by omega)
    rw [executed_eq hdone] at hnodup hfound
    exact ⟨hdone, hnodup, fun o ho => hfound o.id (List.mem_map_of_mem ho)⟩
  · rintro ⟨hdone, hnodup, hfound⟩
    rw [executed_eq hdone] at hiff hcount
    have hall := hiff.mpr ⟨hnodup, by rwa [List.forall_mem_map]⟩
    rw [List.length_map] at hall
    omega

end Deletions

section Calls

variable (env : ObjectStore.Environment) (plan : FilterPlan)

/-- The data objects that a call makes of the rows it selects. -/
def batch (x : Call) (minimumAge : ℤ) (s : State) : List DataObject :=
  (fetch env plan x minimumAge s.db (setView x.faults 0 s.view)).elim [] Prod.fst

/-- Only content that is old and not wanted is discarded, and where data objects are reported as
aged there are as many rows fewer. -/
structure AgesWell (x : Call) (minimumAge : ℤ) (keepInBloomfilter : Bool) (s : State) : Prop where
  discards : ∀ r ∈ s.rows, r ∉ (ageDataObjects env plan x minimumAge keepInBloomfilter s).1.rows →
    Discardable s.db x minimumAge r
  fewer : (ageDataObjects env plan x minimumAge keepInBloomfilter s).2.aged ≠ [] →
    (ageDataObjects env plan x minimumAge keepInBloomfilter s).1.rows.length +
      (ageDataObjects env plan x minimumAge keepInBloomfilter s).2.aged.length = s.rows.length

/-- A batch that can be deleted by the identifiers of its data objects: there was no error before it
was full, the deletions are carried out, and the identifiers are different ones, of rows with
content that is old and not wanted. -/
structure Removable (x : Call) (minimumAge : ℤ) (s : State) (os : List DataObject) : Prop where
  completed : x.faults.error = none ∨ os.length = maxAgedAtOnce
  deleted : ∀ i < os.length, x.deletes i = .done
  distinct : (os.map DataObject.id).Nodup
  discardable : ∀ o ∈ os, ∃ r ∈ s.rows, hasId o.id r = true ∧ Discardable s.db x minimumAge r

def Sound (x : Call) (minimumAge : ℤ) (s : State) : Prop :=
  batch env plan x minimumAge s = [] ∨ Removable x minimumAge s (batch env plan x minimumAge s)

variable {env plan} {x : Call} {minimumAge : ℤ} {keepInBloomfilter : Bool} {s : State}

theorem length_aged (env : ObjectStore.Environment) (plan : FilterPlan) (x : Call)
    (minimumAge : ℤ) (keepInBloomfilter : Bool) (s : State) :
    (ageDataObjects env plan x minimumAge keepInBloomfilter s).2.aged.length =
      (batch env plan x minimumAge s).length := by
  unfold ageDataObjects batch
  dsimp only
  cases hf : fetch env plan x minimumAge s.db (setView x.faults 0 s.view) with
  | none => rfl
  | some p =>
    obtain ⟨os, completed⟩ := p
    cases completed with
    | true => exact List.length_map _
    | false => exact List.length_map _

/-- The batch is deleted unless there was an error. -/
theorem rows_ageDataObjects (env : ObjectStore.Environment) (plan : FilterPlan) (x : Call)
    (minimumAge : ℤ) (keepInBloomfilter : Bool) (s : State) :
    (ageDataObjects env plan x minimumAge keepInBloomfilter s).1.rows =
      if x.faults.error = none ∨ (batch env plan x minimumAge s).length = maxAgedAtOnce then
        (s.deleteAll x.deletes (batch env plan x minimumAge s)).rows
      else s.rows := by
  unfold ageDataObjects batch
  dsimp only
  cases hf : fetch env plan x minimumAge s.db (setView x.faults 0 s.view) with
  | none => exact (ite_self s.rows).symm
  | some p =>
    obtain ⟨os, completed⟩ := p
    have hcompleted : completed = true ↔
        x.faults.error = none ∨ os.length = maxAgedAtOnce := by
      obtain ⟨limit, -, hsome⟩ := Option.bind_eq_some_iff.mp hf
      split_ifs at hsome
      obtain ⟨rfl, rfl⟩ := Prod.mk.inj (Option.some.inj hsome)
      simp
    simp only [Option.elim_some, ← hcompleted]
    cases completed with
    | true => rfl
    | false => rfl

theorem rows_ageDataObjects_sublist (env : ObjectStore.Environment) (plan : FilterPlan) (x : Call)
    (minimumAge : ℤ) (keepInBloomfilter : Bool) (s : State) :
    (ageDataObjects env plan x minimumAge keepInBloomfilter s).1.rows.Sublist s.rows := by
  rw [rows_ageDataObjects]
  split_ifs
  · exact rows_deleteAll_sublist _ _ s.db
  · exact List.Sublist.refl _

/-- A call ages well exactly if there is no batch, or one that can be removed. -/
theorem agesWell_iff (env : ObjectStore.Environment) (plan : FilterPlan) (x : Call)
    (minimumAge : ℤ) (keepInBloomfilter : Bool) (s : State) :
    AgesWell env plan x minimumAge keepInBloomfilter s ↔ Sound env plan x minimumAge s := by
  have haged := length_aged env plan x minimumAge keepInBloomfilter s
  have hrows := rows_ageDataObjects env plan x minimumAge keepInBloomfilter s
  unfold Sound
  generalize batch env plan x minimumAge s = os at haged hrows ⊢
  have hdeleted : ∀ r, r ∈ (s.deleteAll x.deletes os).rows ↔
      r ∈ s.rows ∧ ∀ id ∈ executed x.deletes os, hasId id r = false := by
    intro r
    have heq : (s.deleteAll x.deletes os).rows = _ := rows_deleteAll x.deletes os s.db
    rw [heq, List.mem_filter, Bool.not_eq_true', List.any_eq_false]
    simp only [Bool.not_eq_true]
    exact Iff.rfl
  constructor
  · rintro ⟨hdiscards, hfewer⟩
    by_cases hos : os = []
    · exact .inl hos
    have hpos : 0 < os.length := List.length_pos_of_ne_nil hos
    have hlen := hfewer (List.ne_nil_of_length_pos (by omega))
    rw [haged] at hlen
    by_cases hc : x.faults.error = none ∨ os.length = maxAgedAtOnce
    · rw [hrows, if_pos hc] at hlen
      rw [hrows, if_pos hc] at hdiscards
      obtain ⟨hdone, hnodup, hfound⟩ := (length_deleteAll_iff _ _ _).mp hlen
      refine .inr ⟨hc, hdone, hnodup, fun o ho => ?_⟩
      obtain ⟨r, hr, hid⟩ := hfound o ho
      refine ⟨r, hr, hid, hdiscards r hr fun hmem => ?_⟩
      have hexec : o.id ∈ executed x.deletes os := by
        rw [executed_eq hdone]
        exact List.mem_map_of_mem ho
      rw [((hdeleted r).mp hmem).2 o.id hexec] at hid
      cases hid
    · rw [hrows, if_neg hc] at hlen
      omega
  · rintro (rfl | ⟨hc, hdone, hnodup, hfound⟩)
    · have hsame : (ageDataObjects env plan x minimumAge keepInBloomfilter s).1.rows = s.rows :=
        hrows.trans (ite_self s.rows)
      refine ⟨fun r hr hnot => absurd (hsame.symm ▸ hr) hnot, fun hne => ?_⟩
      exact absurd (List.length_eq_zero_iff.mp haged) hne
    · rw [if_pos hc] at hrows
      constructor
      · intro r hr hnot
        rw [hrows, hdeleted] at hnot
        have hgone : ∃ o ∈ os, hasId o.id r = true := by
          by_contra hnone
          refine hnot ⟨hr, fun id hid => ?_⟩
          rw [executed_eq hdone] at hid
          obtain ⟨o, ho, rfl⟩ := List.mem_map.mp hid
          exact Bool.eq_false_iff.mpr fun h => hnone ⟨o, ho, h⟩
        obtain ⟨o, ho, hid⟩ := hgone
        obtain ⟨r', hr', hid', hdiscard⟩ := hfound o ho
        exact eq_of_unique s hr hr' hid hid' ▸ hdiscard
      · intro _
        rw [hrows, haged]
        refine (length_deleteAll_iff _ _ _).mpr ⟨hdone, hnodup, fun o ho => ?_⟩
        obtain ⟨r, hr, hid, -⟩ := hfound o ho
        exact ⟨r, hr, hid⟩

theorem returnedRows_sublist (h : ∀ n ∈ x.interrupted, n = 0) (rows : ℕ → List Sql.Row) :
    (returnedRows x rows).Sublist (rows x.interrupted.length) := by
  unfold returnedRows
  rw [List.flatMap_eq_nil_iff.mpr, List.nil_append]
  · cases x.faults.error with
    | none => exact List.Sublist.refl _
    | some n => exact List.take_sublist _ _
  · intro y hy
    dsimp only
    rw [h y.1 (List.fst_mem_of_mem_zipIdx hy)]
    exact List.take_zero

theorem pairwise_of_unique (s : State) :
    s.rows.Pairwise fun r r' => ∀ id, hasId id r = true → hasId id r' = false := by
  have hcount : ∀ id, s.rows.countP (hasId id) ≤ 1 := s.unique
  generalize s.rows = l at hcount
  induction l with
  | nil => exact List.Pairwise.nil
  | cons r l ih =>
    refine List.Pairwise.cons (fun r' hr' id hid => ?_) (ih fun id => ?_)
    · by_contra hid'
      have htail : 0 < l.countP (hasId id) :=
        List.countP_pos_iff.mpr ⟨r', hr', Bool.not_eq_false _ ▸ hid'⟩
      have hone := hcount id
      rw [List.countP_cons_of_pos hid] at hone
      omega
    · exact ((List.sublist_cons_self r l).countP_le).trans (hcount id)

/-- The data objects of an ordinary call: the view is made anew, the rows are read back under their
own identifiers, and no statement fails. -/
structure Ordinary (env : ObjectStore.Environment) (x : Call) (s : State) : Prop where
  view : x.faults.drop = true ∨ s.view = none ∨ s.view = some 0
  interrupted : ∀ n ∈ x.interrupted, n = 0
  completed : x.faults.error = none
  deleted : ∀ i, x.deletes i = .done
  readBack : ∀ r ∈ s.rows, ∀ o, read env x.files r = some o → hasId o.id r = true

theorem setView_of_ordinary (h : Ordinary env x s) :
    setView x.faults 0 s.view = none ∨ setView x.faults 0 s.view = some 0 := by
  have hdrop : StoreQueries.dropView x.faults s.view = none ∨
      StoreQueries.dropView x.faults s.view = some 0 := by
    unfold StoreQueries.dropView
    split_ifs with hd
    · exact .inl rfl
    · exact h.view.resolve_left hd
  unfold setView
  rcases hdrop with hd | hd <;> rw [hd]
  · unfold StoreQueries.createView
    split_ifs
    · exact .inr rfl
    · exact .inl rfl
  · exact .inr rfl

/-- Data objects that are read back under the identifiers of rows have different ones. -/
theorem nodup_read (h : ∀ r ∈ s.rows, ∀ o, read env x.files r = some o → hasId o.id r = true)
    {rows : List Sql.Row} (hsub : rows.Sublist s.rows) :
    ((rows.filterMap (read env x.files)).map DataObject.id).Nodup := by
  have hpair := (pairwise_of_unique s).sublist hsub
  rw [List.Nodup, List.pairwise_map, List.pairwise_filterMap]
  refine hpair.imp_of_mem fun {r r'} hr hr' hne o ho o' ho' heq => ?_
  have hid := h r (hsub.subset hr) o ho
  have hid' := h r' (hsub.subset hr') o' ho'
  rw [← heq, hne o.id hid] at hid'
  cases hid'

theorem sound_of_ordinary (h : Ordinary env x s) : Sound env plan x minimumAge s := by
  unfold Sound batch fetch
  rcases setView_of_ordinary h with hview | hview
  · rw [hview]
    exact .inl rfl
  · rw [hview, Option.bind_some]
    split_ifs
    · have hsub := returnedRows_sublist h.interrupted (agedRows plan x minimumAge s.db 0)
      have hall : (agedRows plan x minimumAge s.db 0 x.interrupted.length).Sublist s.rows :=
        List.filter_sublist
      refine .inr ⟨.inl h.completed, fun i _ => h.deleted i, ?_, fun o ho => ?_⟩
      · refine List.Nodup.sublist ((List.take_sublist _ _).map _) ?_
        exact nodup_read h.readBack (hsub.trans hall)
      · obtain ⟨r, hr, hread⟩ := List.mem_filterMap.mp (List.mem_of_mem_take ho)
        have hmem := hsub.subset hr
        exact ⟨r, hall.subset hmem, h.readBack r (hall.subset hmem) o hread,
          discardable_of_mem_agedRows hmem⟩
    · exact .inl rfl

end Calls

section Loop

open Aging (onAgedDataObjects)

variable (env : ObjectStore.Environment) (plan : FilterPlan)

/-- The next request to the data store, with the callback of the data manager, which makes the next
request at once behind a full batch. -/
def reage (p : Aging.State × State) (x : Call) : Aging.State × State :=
  match p.1.requests with
  | [] => p
  | (maxAge, keepInBloomfilter) :: _ =>
    let (s, out) := ageDataObjects env plan x (StoredNode.signed maxAge) keepInBloomfilter p.2
    (Aging.step (Aging.step p.1 (.ageDataObjects 0 out.aged.length))
      (.aged p.1.agedEvents.length), s)

/-- The call for the next request is one that ages well. -/
def SoundNext (p : Aging.State × State) (x : Call) : Prop :=
  ∀ maxAge keep rest, p.1.requests = (maxAge, keep) :: rest →
    Sound env plan x (StoredNode.signed maxAge) p.2

variable {env plan} {p : Aging.State × State} {x : Call}

/-- The data manager behind a call: there is a new request if the batch was full. -/
theorem requests_aged (m : Aging.State) {r : ℕ × Bool} {rest : List (ℕ × Bool)}
    (hm : m.requests = r :: rest) (n : ℕ) :
    (Aging.step (Aging.step m (.ageDataObjects 0 n)) (.aged m.agedEvents.length)).requests.length ≤
      rest.length + (if 3 ≤ n then 1 else 0) := by
  have hfirst : Aging.step m (.ageDataObjects 0 n) = { m with
      requests := rest, agedEvents := m.agedEvents ++ [min n 3] } := by
    simp [Aging.step, Aging.ageDataObjects, hm, Aging.maxAgedAtOnce]
  rw [hfirst]
  simp only [Aging.step, List.getElem?_concat_length, Option.elim_some, onAgedDataObjects,
    Aging.maxAgedAtOnce, Aging.onAging]
  split_ifs <;> simp only [List.length_append, List.length_singleton] <;> omega

/-- Requests and rows: three rows pay for one request. -/
def potential (p : Aging.State × State) : ℕ := 3 * p.1.requests.length + p.2.rows.length

theorem potential_reage (hne : p.1.requests ≠ []) (h : SoundNext env plan p x) :
    potential (reage env plan p x) + 3 ≤ potential p := by
  obtain ⟨m, s⟩ := p
  obtain ⟨⟨maxAge, keep⟩, rest, hm⟩ := List.exists_cons_of_ne_nil hne
  have hwell := (agesWell_iff env plan x _ keep s).mpr (h maxAge keep rest hm)
  have hfewer := hwell.fewer
  have hsub := (rows_ageDataObjects_sublist env plan x (StoredNode.signed maxAge) keep s).length_le
  have hm' : m.requests = (maxAge, keep) :: rest := hm
  simp only [reage, potential, hm', List.length_cons]
  have hreq := requests_aged m hm'
    (ageDataObjects env plan x (StoredNode.signed maxAge) keep s).2.aged.length
  generalize ageDataObjects env plan x (StoredNode.signed maxAge) keep s = y at hfewer hsub hreq ⊢
  obtain ⟨s', out⟩ := y
  dsimp only at hfewer hsub hreq ⊢
  split_ifs at hreq with hfull
  · have hlen := hfewer (List.ne_nil_of_length_pos (by omega))
    omega
  · omega

/-- As long as the calls age well, the requests come to an end. -/
theorem requests_run {calls : List Call} (hg : Trace.Guarded (reage env plan) (SoundNext env plan) p
    calls) (hlen : potential p ≤ 3 * calls.length) :
    (Trace.run (reage env plan) p calls).1.requests = [] := by
  induction calls generalizing p with
  | nil =>
    rw [List.length_nil, potential] at hlen
    rw [Trace.run_nil]
    exact List.length_eq_zero_iff.mp (by omega)
  | cons x calls ih =>
    rw [List.length_cons] at hlen
    by_cases hne : p.1.requests = []
    · refine @Trace.invariant _ _ _ (fun q => q.1.requests = []) (fun q y hq => ?_) p hne
        (x :: calls)
      have hsame : reage env plan q y = q := by simp only [reage, hq]
      rwa [hsame]
    · have hdrop := potential_reage hne hg.1
      exact ih hg.2 (by omega)

/-- Aging discards only what is old and not wanted, and removes as many rows as it reports, exactly
if its batch can be removed, as in every ordinary call; and as long as the calls age well, the data
manager does not ask for more than the stored data objects account for. -/
theorem aging_progress (env : ObjectStore.Environment) (plan : FilterPlan) :
    (∀ x minimumAge keepInBloomfilter s, AgesWell env plan x minimumAge keepInBloomfilter s ↔
      Sound env plan x minimumAge s) ∧
    (∀ x minimumAge s, Ordinary env x s → Sound env plan x minimumAge s) ∧
    ∀ p calls, Trace.Guarded (reage env plan) (SoundNext env plan) p calls →
      potential p ≤ 3 * calls.length → (Trace.run (reage env plan) p calls).1.requests = [] :=
  ⟨agesWell_iff env plan, fun _ _ _ => sound_of_ordinary, fun _ _ => requests_run⟩

end Loop

end AgedObjects

namespace Sample

open StoredObject ObjectStore AgedObjects

/-- The stored description, and when it was stored. -/
def agedRow : Sql.Row := firstRow ++ [(lit "timestamp", .int 0)]

def agedStore : AgedObjects.State where
  db :=
    { nodes := StoredNode.emptyTables
      dataobjects := { emptyTable with rows := [agedRow], rowid := 2 }
      dataobjectAttributes := []
      filters := []
      filterAttributes := []
      nodes_pos := fun _ hr => absurd hr List.not_mem_nil
      dataobjects_pos := by decide }
  view := some 0
  unique _ := List.countP_le_length

/-- A call a day later. -/
def dayLater (error : Option ℕ) : AgedObjects.Call where
  clock :=
    { now := 86500
      cutoff := fun _ _ n => some (86500 - n)
      cutoff_le := by
        intro i r n t ht
        rw [← Option.some.inj ht, sub_add_cancel] }
  files := emptyDisk
  faults := ⟨true, true, true, error⟩
  interrupted := []
  deletes _ := .done

def storedOrder : Matching.FilterPlan := ⟨id, fun l => List.Perm.refl l⟩

/-- The statement ends with an error behind the first row: the data object is reported, and it is
still stored. -/
theorem not_agesWell_error :
    ¬ AgesWell describedStore storedOrder (dayLater (some 1)) 86400 false agedStore := by
  rintro ⟨-, hfewer⟩
  have hcall : (ageDataObjects describedStore storedOrder (dayLater (some 1)) 86400 false
      agedStore).2.aged.length = 1 ∧ (ageDataObjects describedStore storedOrder
      (dayLater (some 1)) 86400 false agedStore).1.rows.length = 1 := by decide +kernel
  have hlen := hfewer (List.ne_nil_of_length_pos (by rw [hcall.1]; exact Nat.one_pos))
  rw [hcall.1, hcall.2] at hlen
  exact absurd hlen (by decide)

end Sample
end Haggle
