import Haggle.InterfaceRecords

/-!
# Which interfaces are in the store

Removing and aging only take interfaces out, an `addupdate` brings in none but the one it is about,
and removing an interface leaves no equal one behind.
-/

namespace Haggle
namespace InterfaceStore

variable {s s' s'' : InterfaceStore} {k : InterfaceType × Bytes}

/-- Some record has an interface of that type with that identifier. -/
def Present (s : InterfaceStore) (k : InterfaceType × Bytes) : Prop :=
  ∃ ref ∈ s.ifaces, s.key ref = some k

/-- No object is compared by anything else, and no record is new. -/
structure Shrinks (s s' : InterfaceStore) : Prop where
  key : ∀ ref, s'.key ref = s.key ref
  ifaces : s'.ifaces.Sublist s.ifaces

theorem Shrinks.refl (s : InterfaceStore) : s.Shrinks s := ⟨fun _ => rfl, List.Sublist.refl _⟩

theorem Shrinks.trans (h : s.Shrinks s') (h' : s'.Shrinks s'') : s.Shrinks s'' :=
  ⟨fun ref => (h'.key ref).trans (h.key ref), h'.ifaces.trans h.ifaces⟩

theorem Shrinks.present (h : s.Shrinks s') (hk : s'.Present k) : s.Present k := by
  obtain ⟨ref, href, hkey⟩ := hk
  exact ⟨ref, h.ifaces.subset href, (h.key ref).symm.trans hkey⟩

theorem shrinks_setStored (refs : List ℕ) (b : Bool) : s.Shrinks (s.setStored refs b) :=
  ⟨key_setStored refs b, List.Sublist.refl _⟩

theorem shrinks_records {records : List InterfaceRecord}
    (h : (records.map (·.iface)).Sublist s.ifaces) : s.Shrinks { s with records } :=
  ⟨fun _ => rfl, h⟩

theorem shrinks_modify (ref : ℕ) {f : InterfaceObject → InterfaceObject}
    (hf : ∀ o, (f o).type = o.type ∧ (f o).identifier = o.identifier) :
    s.Shrinks { s with objects := s.objects.modify ref f } :=
  ⟨key_modify ref hf, List.Sublist.refl _⟩

/-- `remove_children` is called for one interface after the other. -/
theorem shrinks_foldl {fuel : ℕ}
    (hspec : ∀ (s : InterfaceStore) (p : Option ℕ), s.Shrinks (removeChildren fuel s p).1)
    (cs : List ℕ) (out : List ℕ) :
    s.Shrinks (cs.foldl (fun r c => ((removeChildren fuel r.1 (some c)).1,
      r.2 ++ (removeChildren fuel r.1 (some c)).2)) (s, out)).1 := by
  induction cs generalizing s out with
  | nil => exact Shrinks.refl s
  | cons c cs ih => exact (hspec s (some c)).trans (ih _)

theorem shrinks_removeChildren (fuel : ℕ) (s : InterfaceStore) (p : Option ℕ) :
    s.Shrinks (removeChildren fuel s p).1 := by
  induction fuel generalizing s p with
  | zero => exact Shrinks.refl s
  | succ fuel ih =>
    refine Shrinks.trans ?_ (shrinks_foldl ih _ _)
    exact (shrinks_setStored _ false).trans (shrinks_records (List.filter_sublist.map _))

theorem shrinks_removeRecord {p : InterfaceObject → Bool} {iface : ℕ} {removed : List ℕ}
    (h : s.removeRecord p = some (iface, s', removed)) :
    Shrinks { s with records := s.records.eraseP fun ir => s.points p ir.iface } s' := by
  obtain ⟨ref, -, hs⟩ := Option.map_eq_some_iff.mp h
  simp only [Prod.mk.injEq] at hs
  obtain ⟨rfl, rfl, -⟩ := hs
  exact (shrinks_removeChildren _ _ _).trans (shrinks_setStored _ _)

theorem shrinks_eraseP (p : InterfaceRecord → Bool) :
    s.Shrinks { s with records := s.records.eraseP p } :=
  shrinks_records (List.eraseP_sublist.map _)

theorem shrinks_removeFirst (p : InterfaceObject → Bool) : s.Shrinks (s.removeFirst p).1 := by
  unfold removeFirst
  cases hs : s.removeRecord p with
  | none => exact Shrinks.refl s
  | some r => exact (shrinks_eraseP _).trans (shrinks_removeRecord hs)

theorem shrinks_removePtr (iface : Option Interface) : s.Shrinks (s.removePtr iface).1 := by
  cases iface with
  | none => exact shrinks_removeChildren _ _ _
  | some i => exact shrinks_removeFirst _

theorem shrinks_removeIdentifier (type : InterfaceType) (identifier : Option Bytes) :
    s.Shrinks (s.removeIdentifier type identifier).1 := by
  cases identifier with
  | none => exact shrinks_removeChildren _ _ _
  | some identifier =>
    unfold removeIdentifier
    simp only
    cases hs : s.removeRecord fun o => o.toInterface.equal type identifier with
    | none => exact Shrinks.refl s
    | some r => exact (shrinks_eraseP _).trans (shrinks_removeRecord hs)

theorem shrinks_age {parent : Option (InterfaceObject → Bool)} {clock : ℕ → Timeval}
    {r : InterfaceStore × List ℕ × Timeval} (h : s.age parent clock = some r) : s.Shrinks r.1 := by
  obtain ⟨⟨kept, dead, t⟩, hloop, rfl⟩ := Option.map_eq_some_iff.mp h
  have hstart : s.Shrinks { s.setStored dead false with records := kept } :=
    (shrinks_setStored dead false).trans (shrinks_records (removes_ageRecords hloop).sublist)
  exact hstart.trans
    (shrinks_foldl (shrinks_removeChildren (s.records.length + 1)) dead.reverse dead)

theorem Wf.not_present_removePtr (h : s.Wf) (i : Interface) :
    ¬(s.removePtr (some i)).1.Present (i.type, i.identifier) := by
  simp only [InterfaceStore.removePtr, InterfaceStore.removeFirst]
  cases hs : s.removeRecord (sameAs i) with
  | none =>
    rintro ⟨ref, href, hkey⟩
    exact key_ne_of_retrieve (Option.map_eq_none_iff.mp hs) ref href hkey
  | some r =>
    intro hp
    obtain ⟨ref, hmem, hkey⟩ := (shrinks_removeRecord hs).present hp
    obtain ⟨iface, hget, -⟩ := Option.map_eq_some_iff.mp hs
    obtain ⟨ir, hir, -⟩ := Option.map_eq_some_iff.mp hget
    have hperm := (removes_eraseP hir).perm
    have hdistinct : List.Pairwise (fun x y => s.key x ≠ s.key y) ([ir.iface] ++
        (s.records.eraseP fun ir => s.points (sameAs i) ir.iface).map (·.iface)) :=
      (hperm.pairwise_iff fun {x y} hxy => Ne.symm hxy).mpr h.distinct
    have hpoints : s.points (sameAs i) ir.iface = true := by simpa using List.find?_some hir
    have hsame : s.key ir.iface = some (i.type, i.identifier) := points_sameAs_iff.mp hpoints
    exact (List.pairwise_cons.mp hdistinct).1 ref hmem (hsame.trans hkey.symm)

theorem shrinks_update {i : Interface} {parent : Option ℕ} {policy : Option InterfacePolicy}
    {r : ℕ × InterfaceStore} (h : s.update i parent policy = some r) : s.Shrinks r.2 := by
  obtain ⟨ir, -, rfl⟩ := Option.map_eq_some_iff.mp h
  refine ⟨fun ref => ?_, ?_⟩
  · simp only [key]
    split_ifs
    · exact key_modify (s := s) ir.iface (f := fun o => { o with isSnooped := false })
        (fun _ => ⟨rfl, rfl⟩) ref
    · rfl
  · rw [InterfaceStore.ifaces, map_iface_modify]
    exact fun _ => rfl

theorem present_addRecord {ref : ℕ} {parent : Option ℕ} {policy : Option InterfacePolicy}
    (h : (s.addRecord ⟨ref, parent, policy⟩).Present k) : s.Present k ∨ s.key ref = some k := by
  obtain ⟨x, hx, hkey⟩ := h
  have hifaces : (s.addRecord ⟨ref, parent, policy⟩).ifaces = s.ifaces ++ [ref] := List.map_append
  rw [hifaces] at hx
  rcases List.mem_append.mp hx with hx | hx
  · exact .inl ⟨x, hx, hkey⟩
  · rw [List.mem_singleton.mp hx] at hkey
    exact .inr hkey

theorem Wf.present_copy (h : s.Wf) {o : InterfaceObject} (hk : (s.copy o).Present k) :
    s.Present k := by
  obtain ⟨x, hx, hkey⟩ := hk
  have hsome := isSome_key_of_points ((h.flags x).mpr hx)
  have hne : x ≠ s.objects.length := by
    rintro rfl
    simp [key] at hsome
  rw [key_copy, if_neg hne] at hkey
  exact ⟨x, hx, hkey⟩

theorem present_addupdateRef {iface parent : Option ℕ} {policy : Option InterfacePolicy}
    {was_added : Bool} (hk : (s.addupdateRef iface parent policy was_added).2.Present k) :
    s.Present k ∨ ∃ i, s.deref iface = some i ∧ k = (i.type, i.identifier) := by
  unfold addupdateRef at hk
  cases iface with
  | none => exact .inl hk
  | some ref =>
    cases hi : s.deref (some ref) with
    | none =>
      rw [hi] at hk
      exact .inl hk
    | some i =>
      rw [hi] at hk
      simp only at hk
      cases hp : s.parentStore (s.deref parent) with
      | none =>
        rw [hp] at hk
        exact .inl hk
      | some p =>
        rw [hp] at hk
        simp only at hk
        cases hu : s.update i p policy with
        | some r =>
          rw [hu] at hk
          exact .inl ((shrinks_update hu).present hk)
        | none =>
          rw [hu] at hk
          have hadd : (s.addRecord ⟨ref, p, policy⟩).Present k := by
            cases was_added with
            | false => exact hk
            | true => exact (shrinks_setStored [ref] true).present hk
          rcases present_addRecord hadd with hold | hnew
          · exact .inl hold
          · rw [key_of_deref hi] at hnew
            exact .inr ⟨i, rfl, (Option.some.inj hnew).symm⟩

theorem Wf.present_addupdateFound (h : s.Wf) {o : InterfaceObject} {parent : Option ℕ}
    {policy : Option InterfacePolicy} {was_added : Bool}
    (hk : (s.addupdateFound (some o) parent policy was_added).2.Present k) :
    s.Present k ∨ k = (o.type, o.identifier) := by
  unfold InterfaceStore.addupdateFound at hk
  simp only at hk
  cases hu : s.update o.toInterface ((s.deref parent).bind fun i => s.retrieve (sameAs i))
      policy with
  | some r =>
    rw [hu] at hk
    exact .inl ((shrinks_update hu).present hk)
  | none =>
    rw [hu] at hk
    rcases present_addRecord hk with hold | hnew
    · exact .inl (h.present_copy ((shrinks_setStored [s.objects.length] true).present hold))
    · rw [key_setStored, key_copy, if_pos rfl] at hnew
      exact .inr (Option.some.inj hnew).symm

end InterfaceStore
end Haggle
