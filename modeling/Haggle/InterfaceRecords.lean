import Haggle.InterfaceStore

/-!
# What the interface store keeps to

No two records have equal interfaces, the parent of a record has a record itself, and the objects
that are marked as stored are just those in the store. Removing an interface removes all that were
discovered on it, directly or not; while that goes on some parents are missing and still have to be
gone through.
-/

namespace Haggle
namespace InterfaceStore

variable {s : InterfaceStore}

/-- The interfaces of the records, and what they are compared by. -/
def ifaces (s : InterfaceStore) : List ℕ := s.records.map (·.iface)

def key (s : InterfaceStore) (ref : ℕ) : Option (InterfaceType × Bytes) :=
  (s.objects[ref]?).map fun o => (o.type, o.identifier)

structure Wf (s : InterfaceStore) : Prop where
  distinct : s.ifaces.Pairwise fun x y => s.key x ≠ s.key y
  parents : ∀ ir ∈ s.records, ∀ q ∈ ir.parent, q ∈ s.ifaces
  flags : ∀ ref, s.points (·.isStored) ref = true ↔ ref ∈ s.ifaces

/-- The store in the middle of a removal: parents that are missing are pending, and the interfaces
that are held are still marked although they have no record any more. -/
structure Partial (s : InterfaceStore) (pending held : List ℕ) : Prop where
  distinct : s.ifaces.Pairwise fun x y => s.key x ≠ s.key y
  parents : ∀ ir ∈ s.records, ∀ q ∈ ir.parent, q ∈ s.ifaces ∨ q ∈ pending
  flags : ∀ ref, s.points (·.isStored) ref = true ↔ ref ∈ s.ifaces ∨ ref ∈ held
  apart : ∀ ref ∈ s.ifaces, ref ∉ held
  known : ∀ p ∈ pending, (s.key p).isSome

theorem Wf.toPartial (h : s.Wf) : s.Partial [] [] :=
  ⟨h.distinct, fun ir hir q hq => .inl (h.parents ir hir q hq), by simpa using h.flags, by simp,
    by simp⟩

theorem Partial.toWf (h : s.Partial [] []) : s.Wf :=
  ⟨h.distinct, by simpa using h.parents, by simpa using h.flags⟩

section Objects

theorem points_sameAs_iff {i : Interface} {ref : ℕ} :
    s.points (sameAs i) ref = true ↔ s.key ref = some (i.type, i.identifier) := by
  unfold points key sameAs
  cases s.objects[ref]? with
  | none => simp
  | some o => simp [Interface.same_iff]

theorem isSome_key_of_points {p : InterfaceObject → Bool} {ref : ℕ} (h : s.points p ref = true) :
    (s.key ref).isSome := by
  unfold points at h
  unfold key
  cases hget : s.objects[ref]? with
  | none =>
    rw [hget] at h
    cases h
  | some o => rfl

theorem key_setStored (refs : List ℕ) (b : Bool) (ref : ℕ) :
    (s.setStored refs b).key ref = s.key ref := by
  unfold key setStored
  simp only [List.getElem?_mapIdx, Option.map_map]
  congr 1
  funext o
  simp only [Function.comp_apply]
  split_ifs <;> rfl

theorem points_setStored (refs : List ℕ) (b : Bool) (ref : ℕ) :
    (s.setStored refs b).points (·.isStored) ref =
      if ref ∈ refs then b && (s.key ref).isSome else s.points (·.isStored) ref := by
  unfold key points setStored
  simp only [List.getElem?_mapIdx]
  cases s.objects[ref]? with
  | none => simp
  | some o =>
    by_cases href : ref ∈ refs
    · simp [href]
    · simp [href]

theorem key_copy (o : InterfaceObject) (ref : ℕ) : (s.copy o).key ref =
    if ref = s.objects.length then some (o.type, o.identifier) else s.key ref := by
  unfold key copy
  rw [List.getElem?_append]
  split_ifs with hlt heq heq
  · omega
  · rfl
  · subst heq
    simp
  · rw [List.getElem?_eq_none (by simp; omega), List.getElem?_eq_none (by omega)]

theorem points_copy (o : InterfaceObject) (ref : ℕ) :
    (s.copy o).points (·.isStored) ref = s.points (·.isStored) ref := by
  unfold points copy
  rw [List.getElem?_append]
  split_ifs with hlt
  · rfl
  · rw [List.getElem?_eq_none (l := s.objects) (by omega)]
    by_cases heq : ref = s.objects.length
    · subst heq
      simp
    · rw [List.getElem?_eq_none (by simp; omega)]

/-- A change of an object that keeps what it is compared by and whether it is marked. -/
theorem key_modify (ref : ℕ) {f : InterfaceObject → InterfaceObject}
    (hf : ∀ o, (f o).type = o.type ∧ (f o).identifier = o.identifier) (x : ℕ) :
    key { s with objects := s.objects.modify ref f } x = s.key x := by
  unfold key
  simp only [List.getElem?_modify]
  cases s.objects[x]? with
  | none => simp
  | some o =>
    by_cases hx : ref = x
    · simp [hx, hf o]
    · simp [hx]

theorem points_modify (ref : ℕ) {f : InterfaceObject → InterfaceObject}
    (hf : ∀ o, (f o).isStored = o.isStored) (x : ℕ) :
    points { s with objects := s.objects.modify ref f } (·.isStored) x =
      s.points (·.isStored) x := by
  unfold points
  simp only [List.getElem?_modify]
  cases s.objects[x]? with
  | none => simp
  | some o =>
    by_cases hx : ref = x
    · simp [hx, hf o]
    · simp [hx]

end Objects

section Removing

variable {pending held : List ℕ}

theorem Partial.nodup (h : s.Partial pending held) : s.ifaces.Nodup :=
  h.distinct.imp fun hkey hxy => hkey (congrArg s.key hxy)

theorem Partial.mono (h : s.Partial pending held) {pending' : List ℕ}
    (hsub : ∀ p ∈ pending, p ∈ pending') (hknown : ∀ p ∈ pending', (s.key p).isSome) :
    s.Partial pending' held :=
  ⟨h.distinct, fun ir hir q hq => (h.parents ir hir q hq).imp_right (hsub q), h.flags, h.apart,
    hknown⟩

/-- Some records are left out, and what becomes of the others keeps their interface and parent. -/
structure Removes (records kept : List InterfaceRecord) (gone : List ℕ) : Prop where
  links : ∀ ir ∈ kept, ∃ ir' ∈ records, ir'.iface = ir.iface ∧ ir'.parent = ir.parent
  sublist : (kept.map (·.iface)).Sublist (records.map (·.iface))
  perm : (gone ++ kept.map (·.iface)).Perm (records.map (·.iface))

theorem Partial.removes (h : s.Partial pending held) {kept : List InterfaceRecord} {gone : List ℕ}
    (hr : Removes s.records kept gone) :
    Partial { s with records := kept } (gone ++ pending) (gone ++ held) := by
  have hmem : ∀ ref, ref ∈ s.ifaces ↔ ref ∈ gone ∨ ref ∈ kept.map (·.iface) := fun ref =>
    hr.perm.mem_iff.symm.trans List.mem_append
  have hnodup := List.nodup_append.mp (hr.perm.nodup_iff.mpr h.nodup)
  refine ⟨h.distinct.sublist hr.sublist, ?_, ?_, ?_, ?_⟩
  · intro ir hir q hq
    obtain ⟨ir', hir', -, hparent⟩ := hr.links ir hir
    rw [← hparent] at hq
    rcases h.parents ir' hir' q hq with hstored | hpending
    · rcases (hmem q).mp hstored with hgone | hkept
      · exact .inr (List.mem_append_left _ hgone)
      · exact .inl hkept
    · exact .inr (List.mem_append_right _ hpending)
  · intro ref
    change s.points (·.isStored) ref = true ↔ ref ∈ kept.map (·.iface) ∨ _
    rw [h.flags, hmem, List.mem_append]
    tauto
  · intro ref href hheld
    rcases List.mem_append.mp hheld with hgone | hheld
    · exact hnodup.2.2 ref hgone ref href rfl
    · exact h.apart ref ((hmem ref).mpr (.inr href)) hheld
  · intro p hp
    rcases List.mem_append.mp hp with hgone | hpending
    · exact isSome_key_of_points ((h.flags p).mpr (.inl ((hmem p).mpr (.inl hgone))))
    · exact h.known p hpending

theorem Partial.unmark {gone : List ℕ} (h : s.Partial pending (gone ++ held))
    (hheld : ∀ ref ∈ gone, ref ∉ held) : (s.setStored gone false).Partial pending held := by
  have hkey : (s.setStored gone false).key = s.key := funext (key_setStored gone false)
  refine ⟨by rw [hkey]; exact h.distinct, h.parents, ?_, ?_, by rw [hkey]; exact h.known⟩
  · intro ref
    rw [points_setStored]
    change _ ↔ ref ∈ s.ifaces ∨ ref ∈ held
    by_cases hgone : ref ∈ gone
    · have hout : ref ∉ s.ifaces := fun hin => h.apart ref hin (List.mem_append_left _ hgone)
      simp [hgone, hout, hheld ref hgone]
    · rw [if_neg hgone, h.flags, List.mem_append]
      simp [hgone]
  · exact fun ref href hin => h.apart ref href (List.mem_append_right _ hin)

theorem Partial.removed (h : s.Partial pending held) {kept : List InterfaceRecord} {gone : List ℕ}
    (hr : Removes s.records kept gone) :
    Partial { s.setStored gone false with records := kept } (gone ++ pending) held := by
  refine (h.removes hr).unmark fun ref hgone => h.apart ref ?_
  exact hr.perm.mem_iff.mp (List.mem_append_left _ hgone)

theorem Partial.drop {p : ℕ} (h : s.Partial (p :: pending) held)
    (hp : ∀ ir ∈ s.records, p ∉ ir.parent) : s.Partial pending held := by
  refine ⟨h.distinct, fun ir hir q hq => ?_, h.flags, h.apart, fun q hq => h.known q (.tail p hq)⟩
  rcases h.parents ir hir q hq with hin | hpending
  · exact .inl hin
  · rcases List.mem_cons.mp hpending with rfl | hpending
    · exact absurd hq (hp ir hir)
    · exact .inr hpending

theorem any_deref_self {p : ℕ} (hp : (s.key p).isSome) :
    ((s.deref (some p)).any fun i => s.points (sameAs i) p) = true := by
  unfold key at hp
  unfold deref
  cases hget : s.objects[p]? with
  | none =>
    rw [hget] at hp
    cases hp
  | some o =>
    simp only [Option.bind_some, hget, Option.map_some, Option.any_some]
    rw [points_sameAs_iff]
    unfold key
    rw [hget]
    rfl

theorem removes_filter (records : List InterfaceRecord) (p : InterfaceRecord → Bool) :
    Removes records (records.filter fun ir => !p ir) ((records.filter p).map (·.iface)) := by
  refine ⟨fun ir hir => ⟨ir, List.mem_of_mem_filter hir, rfl, rfl⟩,
    List.filter_sublist.map _, ?_⟩
  rw [← List.map_append]
  exact (List.filter_append_perm p records).map _

/-- `remove_children` is called with the same fuel for one interface after the other. -/
theorem Partial.removeChildren_loop {fuel : ℕ}
    (hspec : ∀ (s : InterfaceStore) (p : ℕ) (pending : List ℕ), s.records.length < fuel →
      s.Partial (p :: pending) held → (removeChildren fuel s (some p)).1.Partial pending held ∧
        (removeChildren fuel s (some p)).1.records.length ≤ s.records.length)
    (cs : List ℕ) (hfuel : cs ≠ [] → s.records.length < fuel) (h : s.Partial (cs ++ pending) held)
    (out : List ℕ) :
    (cs.foldl (fun r c => ((removeChildren fuel r.1 (some c)).1,
      r.2 ++ (removeChildren fuel r.1 (some c)).2)) (s, out)).1.Partial pending held ∧
    (cs.foldl (fun r c => ((removeChildren fuel r.1 (some c)).1,
      r.2 ++ (removeChildren fuel r.1 (some c)).2)) (s, out)).1.records.length ≤
        s.records.length := by
  induction cs generalizing s out with
  | nil => exact ⟨h, le_rfl⟩
  | cons c cs ih =>
    have hlt := hfuel (List.cons_ne_nil _ _)
    obtain ⟨hleft, hlen⟩ := hspec s c (cs ++ pending) hlt h
    obtain ⟨hrest, hlen'⟩ := ih (fun _ => hlen.trans_lt hlt) hleft _
    exact ⟨hrest, hlen'.trans hlen⟩

/-- All that was discovered on an interface, directly or not, is removed. -/
theorem Partial.removeChildren (fuel : ℕ) : ∀ (s : InterfaceStore) (p : ℕ) (pending : List ℕ),
    s.records.length < fuel → s.Partial (p :: pending) held →
      (removeChildren fuel s (some p)).1.Partial pending held ∧
        (InterfaceStore.removeChildren fuel s (some p)).1.records.length ≤ s.records.length := by
  induction fuel with
  | zero => exact fun s p pending hfuel => absurd hfuel (Nat.not_lt_zero _)
  | succ fuel ih =>
    intro s p pending hfuel h
    have hr := removes_filter s.records fun ir =>
      ir.parent.any fun q => (s.deref (some p)).any fun i => s.points (sameAs i) q
    generalize hgone : (s.records.filter fun ir => ir.parent.any fun q =>
      (s.deref (some p)).any fun i => s.points (sameAs i) q).map (·.iface) = gone at hr
    have hlevel := h.removed hr
    have hlen := hr.perm.length_eq
    have hnext : Partial { s.setStored gone false with records := s.records.filter fun ir =>
        !(ir.parent.any fun q => (s.deref (some p)).any fun i => s.points (sameAs i) q) }
          (p :: (gone.reverse ++ pending)) held := by
      refine hlevel.mono (fun q hq => ?_) fun q hq => hlevel.known q ?_
      · simp only [List.mem_append, List.mem_cons, List.mem_reverse] at hq ⊢
        tauto
      · simp only [List.mem_append, List.mem_cons, List.mem_reverse] at hq ⊢
        tauto
    have hdropped := hnext.drop fun ir hir hp => by
      have hchild := (List.mem_filter.mp hir).2
      rw [Option.mem_def.mp hp] at hchild
      simp [any_deref_self (h.known p List.mem_cons_self)] at hchild
    have hfewer : gone.reverse ≠ [] → (s.records.filter fun ir => !(ir.parent.any fun q =>
        (s.deref (some p)).any fun i => s.points (sameAs i) q)).length < fuel := by
      intro hne
      have hpos : 0 < gone.length := List.length_pos_iff.mpr fun h => hne (by rw [h]; rfl)
      simp only [List.length_append, List.length_map] at hlen
      omega
    unfold InterfaceStore.removeChildren
    simp only
    rw [hgone]
    obtain ⟨hrest, hle⟩ := hdropped.removeChildren_loop ih gone.reverse hfewer gone
    exact ⟨hrest, hle.trans (List.length_filter_le _ _)⟩

theorem Wf.removeChildren_none (h : s.Wf) (fuel : ℕ) :
    (removeChildren (fuel + 1) s none).1.Wf := by
  have hnone : (s.records.filter fun ir => ir.parent.any fun q =>
      (s.deref none).any fun i => s.points (sameAs i) q) = [] := by
    apply List.filter_eq_nil_iff.mpr
    intro ir _
    cases ir.parent <;> simp [deref]
  have hr := removes_filter s.records fun ir =>
    ir.parent.any fun q => (s.deref none).any fun i => s.points (sameAs i) q
  rw [hnone] at hr
  have hlevel := (h.toPartial.removed hr).toWf
  unfold InterfaceStore.removeChildren
  simp only
  rw [hnone]
  exact hlevel

theorem mem_ifaces_of_retrieve {p : InterfaceObject → Bool} {ref : ℕ}
    (h : s.retrieve p = some ref) : ref ∈ s.ifaces := by
  obtain ⟨ir, hir, rfl⟩ := Option.map_eq_some_iff.mp h
  exact List.mem_map_of_mem (List.mem_of_find?_eq_some hir)

theorem removes_eraseP {records : List InterfaceRecord} {p : InterfaceRecord → Bool}
    {ir : InterfaceRecord} (h : records.find? p = some ir) :
    Removes records (records.eraseP p) [ir.iface] := by
  obtain ⟨hp, l₁, l₂, rfl, hl₁⟩ := List.find?_eq_some_iff_append.mp h
  have herase : (l₁ ++ ir :: l₂).eraseP p = l₁ ++ l₂ := by
    rw [List.eraseP_append_right _ fun b hb => by simpa using hl₁ b hb, List.eraseP_cons_of_pos hp]
  rw [herase]
  refine ⟨fun x hx => ⟨x, ?_, rfl, rfl⟩, ?_, ?_⟩
  · exact ((List.sublist_cons_self ir l₂).append_left l₁).subset hx
  · exact ((List.sublist_cons_self ir l₂).append_left l₁).map _
  · rw [List.map_append, List.map_append, List.map_cons]
    rw [List.singleton_append]
    exact List.perm_middle.symm

theorem Wf.removeRecord (h : s.Wf) {p : InterfaceObject → Bool} {iface : ℕ} {s' : InterfaceStore}
    {removed : List ℕ} (hs : s.removeRecord p = some (iface, s', removed)) : s'.Wf := by
  obtain ⟨ref, href, hs⟩ := Option.map_eq_some_iff.mp hs
  obtain ⟨ir, hir, rfl⟩ := Option.map_eq_some_iff.mp href
  simp only [Prod.mk.injEq] at hs
  obtain ⟨rfl, rfl, -⟩ := hs
  have hr := removes_eraseP hir
  have hstart := h.toPartial.removes hr
  have hlen : (s.records.eraseP fun ir => s.points p ir.iface).length < s.records.length := by
    have hperm := hr.perm.length_eq
    simp only [List.length_append, List.length_cons, List.length_nil, List.length_map] at hperm
    omega
  obtain ⟨hrest, -⟩ := Partial.removeChildren s.records.length _ ir.iface [] hlen hstart
  exact (hrest.unmark fun ref _ hin => List.not_mem_nil hin).toWf

theorem Wf.removeFirst (h : s.Wf) (p : InterfaceObject → Bool) : (s.removeFirst p).1.Wf := by
  unfold InterfaceStore.removeFirst
  cases hs : s.removeRecord p with
  | none => exact h
  | some r => exact h.removeRecord hs

theorem Wf.removeName (h : s.Wf) (name : Bytes) : (s.removeName name).1.Wf := by
  unfold InterfaceStore.removeName
  exact h.removeFirst _

theorem Wf.removePtr (h : s.Wf) (iface : Option Interface) : (s.removePtr iface).1.Wf := by
  cases iface with
  | none => exact h.removeChildren_none s.records.length
  | some i => exact h.removeFirst _

theorem Wf.removeRef (h : s.Wf) (iface : Option ℕ) : (s.removeRef iface).1.Wf := by
  unfold InterfaceStore.removeRef
  exact h.removePtr _

theorem Wf.removeIdentifier (h : s.Wf) (type : InterfaceType) (identifier : Option Bytes) :
    (s.removeIdentifier type identifier).1.Wf := by
  cases identifier with
  | none => exact h.removeChildren_none s.records.length
  | some identifier =>
    unfold InterfaceStore.removeIdentifier
    simp only
    cases hs : s.removeRecord fun o => o.toInterface.equal type identifier with
    | none => exact h
    | some r => exact h.removeRecord hs

end Removing

section Aging

/-- The loop of `age` only takes records out, and changes the policies of the others. -/
theorem removes_ageRecords {applies : InterfaceRecord → Bool} {clock : ℕ → Timeval}
    {records kept : List InterfaceRecord} {dead : List ℕ} {t t' : Timeval}
    (h : ageRecords applies clock records t = some (kept, dead, t')) :
    Removes records kept dead := by
  induction records generalizing kept dead t with
  | nil =>
    simp only [ageRecords, Option.some.injEq, Prod.mk.injEq] at h
    obtain ⟨rfl, rfl, -⟩ := h
    exact ⟨nofun, List.Sublist.slnil, List.Perm.nil⟩
  | cons ir l ih =>
    -- A record that stays, with another policy or not.
    have hstays : ∀ t ir', ir'.iface = ir.iface → ir'.parent = ir.parent →
        (ageRecords applies clock l t).map (fun r => (ir' :: r.1, r.2)) = some (kept, dead, t') →
          Removes (ir :: l) kept dead := by
      intro t ir' hiface hparent hmap
      obtain ⟨⟨kept', dead', t''⟩, hrest, hr⟩ := Option.map_eq_some_iff.mp hmap
      simp only [Prod.mk.injEq] at hr
      obtain ⟨rfl, rfl, rfl⟩ := hr
      obtain ⟨hlinks, hsub, hperm⟩ := ih hrest
      refine ⟨?_, ?_, ?_⟩
      · rw [List.forall_mem_cons]
        refine ⟨⟨ir, List.mem_cons_self, hiface.symm, hparent.symm⟩, fun x hx => ?_⟩
        obtain ⟨x', hx', hlink⟩ := hlinks x hx
        exact ⟨x', List.mem_cons_of_mem _ hx', hlink⟩
      · rw [List.map_cons, List.map_cons, hiface]
        exact hsub.cons_cons _
      · rw [List.map_cons, List.map_cons, hiface]
        exact List.perm_middle.trans (hperm.cons _)
    unfold ageRecords at h
    split_ifs at h with happlies
    · cases hcip : ir.cip with
      | none =>
        rw [hcip] at h
        cases h
      | some cip =>
        rw [hcip, Option.bind_some] at h
        split_ifs at h with hdead
        · obtain ⟨⟨kept', dead', t''⟩, hrest, hr⟩ := Option.map_eq_some_iff.mp h
          simp only [Prod.mk.injEq] at hr
          obtain ⟨rfl, rfl, rfl⟩ := hr
          obtain ⟨hlinks, hsub, hperm⟩ := ih hrest
          refine ⟨fun x hx => ?_, ?_, ?_⟩
          · obtain ⟨x', hx', hlink⟩ := hlinks x hx
            exact ⟨x', List.mem_cons_of_mem _ hx', hlink⟩
          · exact hsub.cons _
          · exact hperm.cons _
        · simp only at h
          exact hstays _ { ir with cip := some cip.age } rfl rfl h
    · exact hstays t ir rfl rfl h

theorem Wf.age (h : s.Wf) {parent : Option (InterfaceObject → Bool)} {clock : ℕ → Timeval}
    {r : InterfaceStore × List ℕ × Timeval} (hs : s.age parent clock = some r) : r.1.Wf := by
  obtain ⟨⟨kept, dead, t⟩, hloop, rfl⟩ := Option.map_eq_some_iff.mp hs
  have hr := removes_ageRecords hloop
  have hstart : Partial { s.setStored dead false with records := kept }
      (dead.reverse ++ []) [] := by
    refine (h.toPartial.removed hr).mono (fun q hq => ?_) fun q hq =>
      (h.toPartial.removed hr).known q ?_
    · simpa using hq
    · simpa using hq
  have hlen : kept.length < s.records.length + 1 := by
    have hperm := hr.perm.length_eq
    simp only [List.length_append, List.length_map] at hperm
    omega
  exact (hstart.removeChildren_loop (Partial.removeChildren _) dead.reverse (fun _ => hlen)
    dead).1.toWf

end Aging

section Adding

theorem key_ne_of_retrieve {i : Interface} (h : s.retrieve (sameAs i) = none) :
    ∀ x ∈ s.ifaces, s.key x ≠ some (i.type, i.identifier) := by
  intro x hx hkey
  obtain ⟨ir, hir, rfl⟩ := List.mem_map.mp hx
  have hnone := List.find?_eq_none.mp (Option.map_eq_none_iff.mp h) ir hir
  exact hnone (points_sameAs_iff.mpr hkey)

theorem update_eq_none_iff {i : Interface} {parent : Option ℕ} {policy : Option InterfacePolicy} :
    s.update i parent policy = none ↔ s.retrieve (sameAs i) = none := by
  unfold update retrieve
  rw [Option.map_eq_none_iff, Option.map_eq_none_iff]

theorem Wf.setFlags (h : s.Wf) (ref : ℕ) {f : InterfaceObject → InterfaceObject}
    (hf : ∀ o, ((f o).type = o.type ∧ (f o).identifier = o.identifier) ∧
      (f o).isStored = o.isStored) :
    Wf { s with objects := s.objects.modify ref f } := by
  refine ⟨?_, h.parents, fun x => ?_⟩
  · rw [show key { s with objects := s.objects.modify ref f } = s.key from
      funext (key_modify ref fun o => (hf o).1)]
    exact h.distinct
  · rw [points_modify ref fun o => (hf o).2]
    exact h.flags x

theorem map_iface_modify (s : InterfaceStore) (n : ℕ) {f : InterfaceRecord → InterfaceRecord}
    (hf : ∀ ir, (f ir).iface = ir.iface) : (s.records.modify n f).map (·.iface) = s.ifaces := by
  apply List.ext_getElem?
  intro k
  simp only [ifaces, List.getElem?_map, List.getElem?_modify]
  cases s.records[k]? with
  | none => simp
  | some ir =>
    by_cases hk : n = k
    · simp [hk, hf ir]
    · simp [hk]

/-- One record gets another parent that is in the store, or none. -/
theorem Wf.modifyRecord (h : s.Wf) (n : ℕ) {f : InterfaceRecord → InterfaceRecord}
    (hf : ∀ ir, (f ir).iface = ir.iface)
    (hparent : ∀ ir, ∀ q ∈ (f ir).parent, q ∈ s.ifaces ∨ q ∈ ir.parent) :
    Wf { s with records := s.records.modify n f } := by
  have hifaces := s.map_iface_modify n hf
  have hold : ∀ ir ∈ s.records.modify n f, ∀ q ∈ ir.parent, q ∈ s.ifaces := by
    intro ir hir q hq
    obtain ⟨k, hk⟩ := List.mem_iff_getElem?.mp hir
    rw [List.getElem?_modify] at hk
    obtain ⟨ir', hir', rfl⟩ := Option.map_eq_some_iff.mp hk
    have hmem := List.mem_of_getElem? hir'
    by_cases hn : n = k
    · rw [if_pos hn] at hq
      rcases hparent ir' q hq with hin | hin
      · exact hin
      · exact h.parents ir' hmem q hin
    · rw [if_neg hn] at hq
      exact h.parents ir' hmem q hq
  refine ⟨?_, fun ir hir q hq => ?_, fun ref => ?_⟩
  · change List.Pairwise _ ((s.records.modify n f).map (·.iface))
    rw [hifaces]
    exact h.distinct
  · change q ∈ (s.records.modify n f).map (·.iface)
    rw [hifaces]
    exact hold ir hir q hq
  · change _ ↔ ref ∈ (s.records.modify n f).map (·.iface)
    rw [hifaces]
    exact h.flags ref

theorem Wf.update (h : s.Wf) {i : Interface} {parent : Option ℕ} {policy : Option InterfacePolicy}
    (hparent : ∀ q ∈ parent, q ∈ s.ifaces) {r : ℕ × InterfaceStore}
    (hs : s.update i parent policy = some r) : r.2.Wf := by
  obtain ⟨ir, -, rfl⟩ := Option.map_eq_some_iff.mp hs
  have hrecord := h.modifyRecord (s.records.findIdx fun ir => s.points (sameAs i) ir.iface)
    (f := fun ir' => { ir' with
      parent := if s.points (·.isSnooped) ir.iface then parent else ir'.parent
      cip := policy.map (·.update) }) (fun _ => rfl) fun ir' q hq => by
        simp only at hq
        split_ifs at hq
        · exact .inl (hparent q hq)
        · exact .inr hq
  simp only
  split_ifs at hrecord ⊢
  · exact hrecord.setFlags ir.iface fun o => ⟨⟨rfl, rfl⟩, rfl⟩
  · exact hrecord

theorem Wf.copy (h : s.Wf) (o : InterfaceObject) : (s.copy o).Wf := by
  have hkey : ∀ x ∈ s.ifaces, (s.copy o).key x = s.key x := by
    intro x hx
    have hsome := isSome_key_of_points ((h.flags x).mpr hx)
    rw [key_copy, if_neg]
    rintro rfl
    simp [key] at hsome
  refine ⟨?_, h.parents, fun ref => ?_⟩
  · apply h.distinct.imp_of_mem
    intro x y hx hy hne
    rw [hkey x hx, hkey y hy]
    exact hne
  · rw [points_copy]
    exact h.flags ref

/-- A new record with an interface that is marked. -/
theorem Wf.add (h : s.Wf) {ref : ℕ} {parent : Option ℕ} (policy : Option InterfacePolicy)
    (hsome : (s.key ref).isSome) (hnew : ∀ x ∈ s.ifaces, s.key x ≠ s.key ref)
    (hparent : ∀ q ∈ parent, q ∈ s.ifaces) :
    ((s.addRecord ⟨ref, parent, policy⟩).setStored [ref] true).Wf := by
  have hkey : ((s.addRecord ⟨ref, parent, policy⟩).setStored [ref] true).key = s.key :=
    funext (key_setStored (s := s.addRecord ⟨ref, parent, policy⟩) [ref] true)
  have hifaces : ((s.addRecord ⟨ref, parent, policy⟩).setStored [ref] true).ifaces =
      s.ifaces ++ [ref] := List.map_append
  refine ⟨?_, ?_, fun x => ?_⟩
  · rw [hkey, hifaces, List.pairwise_append]
    refine ⟨h.distinct, List.pairwise_singleton _ _, fun x hx y hy => ?_⟩
    rw [List.mem_singleton.mp hy]
    exact hnew x hx
  · intro ir hir q hq
    rw [hifaces]
    apply List.mem_append_left
    rcases List.mem_append.mp hir with hir | hir
    · exact h.parents ir hir q hq
    · rw [List.mem_singleton.mp hir] at hq
      exact hparent q hq
  · rw [points_setStored, hifaces, List.mem_append]
    change (if x ∈ [ref] then true && (s.key x).isSome else s.points (·.isStored) x) = true ↔ _
    by_cases hx : x = ref
    · subst hx
      simp [hsome]
    · rw [if_neg (by simpa using hx), h.flags]
      simp [hx]

theorem Wf.not_add (h : s.Wf) {ref : ℕ} (hnew : ref ∉ s.ifaces) (parent : Option ℕ)
    (policy : Option InterfacePolicy) : ¬ (s.addRecord ⟨ref, parent, policy⟩).Wf := by
  intro hwf
  have hin : ref ∈ (s.addRecord ⟨ref, parent, policy⟩).ifaces := by
    simp [ifaces, addRecord]
  exact hnew ((h.flags ref).mp ((hwf.flags ref).mpr hin))

end Adding

section Calls

/-- The interface that a call of `addupdate` is about, and the parent that it names. -/
def AddCall.iface (s : InterfaceStore) : AddCall → Option Interface
  | .ref iface _ _ _ => s.deref iface
  | .found iface _ _ _ | .ptr iface _ _ _ => iface.map (·.toInterface)

def AddCall.parent (s : InterfaceStore) : AddCall → Option Interface
  | .ref _ parent _ _ | .found _ parent _ _ => s.deref parent
  | .ptr _ parent _ _ => parent

def MissingParent (s : InterfaceStore) (c : AddCall) : Prop :=
  ∃ i, c.parent s = some i ∧ s.retrieve (sameAs i) = none

/-- The call finds its parent, and no record for its interface. -/
def Adds (s : InterfaceStore) (c : AddCall) : Prop :=
  ¬ s.MissingParent c ∧ ∃ i, c.iface s = some i ∧ s.retrieve (sameAs i) = none

/-- What a call is to respect: the store is in order afterwards, and an interface whose parent is
missing is refused. -/
structure Proper (s : InterfaceStore) (call : Call) : Prop where
  wf : ∀ s', s.step call = some s' → s'.Wf
  refused : ∀ c, call = .addupdate c → s.MissingParent c →
    (s.addupdate c).1.iface = none ∧ (s.addupdate c).2 = s

/-- A new interface is given by reference or with a pointer to its parent only by callers who ask if
it was added, and with a reference to its parent only if that is in the store. -/
def Disciplined (s : InterfaceStore) : Call → Prop
  | .addupdate (.ref iface parent policy was_added) =>
    s.Adds (.ref iface parent policy was_added) → was_added = true
  | .addupdate (.ptr iface parent policy was_added) =>
    s.Adds (.ptr iface parent policy was_added) → was_added = true
  | .addupdate (.found iface parent policy was_added) =>
    s.MissingParent (.found iface parent policy was_added) → iface = none
  | _ => True

/-- The parent that the store has for a parent that is named. -/
theorem parentStore_spec (s : InterfaceStore) (parent : Option Interface) :
    (s.parentStore parent = none ↔ ∃ i, parent = some i ∧ s.retrieve (sameAs i) = none) ∧
      ∀ p, s.parentStore parent = some p → ∀ q ∈ p, q ∈ s.ifaces := by
  cases parent with
  | none =>
    refine ⟨iff_of_false nofun (by simp), ?_⟩
    rintro p ⟨⟩
    exact nofun
  | some i =>
    unfold parentStore
    refine ⟨by simp, fun p hp q hq => ?_⟩
    obtain ⟨ref, href, rfl⟩ := Option.map_eq_some_iff.mp hp
    obtain rfl := Option.some.inj hq
    exact mem_ifaces_of_retrieve href

theorem key_of_deref {ref : ℕ} {i : Interface} (h : s.deref (some ref) = some i) :
    s.key ref = some (i.type, i.identifier) := by
  obtain ⟨o, ho, rfl⟩ := Option.map_eq_some_iff.mp h
  unfold key
  rw [show s.objects[ref]? = some o from ho]
  rfl

theorem Wf.not_mem_of_retrieve {i : Interface} (h : s.retrieve (sameAs i) = none) {ref : ℕ}
    (href : s.deref (some ref) = some i) :
    (s.key ref).isSome ∧ ∀ x ∈ s.ifaces, s.key x ≠ s.key ref := by
  have hkey := key_of_deref href
  refine ⟨by rw [hkey]; rfl, fun x hx => ?_⟩
  rw [hkey]
  exact key_ne_of_retrieve h x hx

/-- The object of a copy is new. -/
theorem Wf.copy_new (h : s.Wf) {o : InterfaceObject}
    (hnone : s.retrieve (sameAs o.toInterface) = none) :
    ((s.copy o).key s.objects.length).isSome ∧
      (∀ x ∈ s.ifaces, (s.copy o).key x ≠ (s.copy o).key s.objects.length) ∧
        s.objects.length ∉ s.ifaces := by
  have hout : s.objects.length ∉ s.ifaces := by
    intro hin
    have hsome := isSome_key_of_points ((h.flags _).mpr hin)
    simp [key] at hsome
  have hkey : (s.copy o).key s.objects.length = some (o.type, o.identifier) := by
    rw [key_copy, if_pos rfl]
  refine ⟨by rw [hkey]; rfl, fun x hx => ?_, hout⟩
  have hne : x ≠ s.objects.length := by
    rintro rfl
    exact hout hx
  rw [hkey, key_copy, if_neg hne]
  exact key_ne_of_retrieve hnone x hx

/-- What a call of `addupdate` is to do: the store is in order afterwards just if the caller asks
whether a new interface was added, and one whose parent is missing is refused. -/
def Answers (s : InterfaceStore) (c : AddCall) (was_added : Bool) : Prop :=
  ((s.addupdate c).2.Wf ↔ (s.Adds c → was_added = true)) ∧
    (s.MissingParent c → (s.addupdate c).1.iface = none ∧ (s.addupdate c).2 = s)

/-- A call that returns nothing and does nothing, as it has no interface or no parent. -/
theorem Wf.answers_refused (h : s.Wf) {c : AddCall} {was_added : Bool}
    (hc : (s.addupdate c).1.iface = none ∧ (s.addupdate c).2 = s) (hadds : ¬ s.Adds c) :
    s.Answers c was_added :=
  ⟨iff_of_true (by rw [hc.2]; exact h) fun h => absurd h hadds, fun _ => hc⟩

theorem Wf.answers_updated {c : AddCall} {was_added : Bool} (hc : (s.addupdate c).2.Wf)
    (hparent : ¬ s.MissingParent c) (hadds : ¬ s.Adds c) : s.Answers c was_added :=
  ⟨iff_of_true hc fun h => absurd h hadds, fun h => absurd h hparent⟩

theorem Wf.answers_ref (h : s.Wf) (iface parent : Option ℕ) (policy : Option InterfacePolicy)
    (was_added : Bool) : s.Answers (.ref iface parent policy was_added) was_added := by
  obtain ⟨hmissing, hparents⟩ := parentStore_spec s (s.deref parent)
  cases hi : s.deref iface with
  | none =>
    refine h.answers_refused ?_ ?_
    · cases iface <;> simp [addupdate, addupdateRef, hi]
    · rintro ⟨-, i, hi', -⟩
      simp [AddCall.iface, hi] at hi'
  | some i =>
    cases iface with
    | none => cases hi
    | some ref =>
      cases hp : s.parentStore (s.deref parent) with
      | none =>
        refine h.answers_refused ?_ fun hadds => hadds.1 (hmissing.mp hp)
        simp [addupdate, addupdateRef, hi, hp]
      | some p =>
        have hparent : ¬ s.MissingParent (.ref (some ref) parent policy was_added) := fun hm =>
          absurd (hmissing.mpr hm) (by simp [hp])
        cases hu : s.update i p policy with
        | some r =>
          refine Wf.answers_updated ?_ hparent ?_
          · simp only [addupdate, addupdateRef, hi, hp, hu]
            exact h.update (hparents p hp) hu
          · rintro ⟨-, i', hi', hnone⟩
            obtain rfl : i = i' := Option.some.inj (hi.symm.trans hi')
            rw [update_eq_none_iff.mpr hnone] at hu
            cases hu
        | none =>
          have hnone := update_eq_none_iff.mp hu
          obtain ⟨hsome, hnew⟩ := Wf.not_mem_of_retrieve hnone hi
          refine ⟨?_, fun hm => absurd hm hparent⟩
          have hadds : s.Adds (.ref (some ref) parent policy was_added) := ⟨hparent, i, hi, hnone⟩
          simp only [addupdate, addupdateRef, hi, hp, hu]
          cases was_added with
          | true => exact iff_of_true (h.add policy hsome hnew (hparents p hp)) fun _ => rfl
          | false =>
            refine iff_of_false (h.not_add (fun hin => hnew ref hin rfl) p policy) fun hall => ?_
            exact absurd (hall hadds) (by decide)

theorem Wf.answers_ptr (h : s.Wf) (iface : Option InterfaceObject) (parent : Option Interface)
    (policy : Option InterfacePolicy) (was_added : Bool) :
    s.Answers (.ptr iface parent policy was_added) was_added := by
  obtain ⟨hmissing, hparents⟩ := parentStore_spec s parent
  cases iface with
  | none =>
    refine h.answers_refused ⟨rfl, rfl⟩ ?_
    rintro ⟨-, i, hi, -⟩
    cases hi
  | some o =>
    cases hp : s.parentStore parent with
    | none =>
      refine h.answers_refused ?_ fun hadds => hadds.1 (hmissing.mp hp)
      simp [addupdate, addupdatePtr, hp]
    | some p =>
      have hparent : ¬ s.MissingParent (.ptr (some o) parent policy was_added) := fun hm =>
        absurd (hmissing.mpr hm) (by rw [hp]; exact nofun)
      cases hu : s.update o.toInterface p policy with
      | some r =>
        refine Wf.answers_updated ?_ hparent ?_
        · simp only [addupdate, addupdatePtr, hp, hu]
          exact h.update (hparents p hp) hu
        · rintro ⟨-, i, hi, hnone⟩
          obtain rfl : o.toInterface = i := Option.some.inj hi
          rw [update_eq_none_iff.mpr hnone] at hu
          cases hu
      | none =>
        have hnone := update_eq_none_iff.mp hu
        obtain ⟨hsome, hnew, hout⟩ := h.copy_new hnone
        refine ⟨?_, fun hm => absurd hm hparent⟩
        have hadds : s.Adds (.ptr (some o) parent policy was_added) := ⟨hparent, _, rfl, hnone⟩
        simp only [addupdate, addupdatePtr, hp, hu]
        cases was_added with
        | true =>
          exact iff_of_true ((h.copy o).add policy hsome hnew (hparents p hp)) fun _ => rfl
        | false =>
          refine iff_of_false ((h.copy o).not_add hout p policy) fun hall => ?_
          exact absurd (hall hadds) (by decide)

/-- The overload that marks its copy anyway keeps the store in order, and never refuses. -/
theorem Wf.addupdateFound (h : s.Wf) (o : InterfaceObject) (parent : Option ℕ)
    (policy : Option InterfacePolicy) (was_added : Bool) :
    (s.addupdateFound (some o) parent policy was_added).2.Wf ∧
      (s.addupdateFound (some o) parent policy was_added).1.iface ≠ none := by
  have hparent : ∀ q ∈ (s.deref parent).bind fun i => s.retrieve (sameAs i), q ∈ s.ifaces := by
    intro q hq
    obtain ⟨i, -, hi⟩ := Option.bind_eq_some_iff.mp hq
    exact mem_ifaces_of_retrieve hi
  unfold InterfaceStore.addupdateFound
  simp only
  cases hu : s.update o.toInterface ((s.deref parent).bind fun i => s.retrieve (sameAs i))
      policy with
  | some r => exact ⟨h.update hparent hu, nofun⟩
  | none =>
    obtain ⟨hsome, hnew, -⟩ := h.copy_new (update_eq_none_iff.mp hu)
    exact ⟨(h.copy o).add policy hsome hnew hparent, nofun⟩

theorem proper_of_step {call : Call} {s₁ : InterfaceStore} (hstep : s.step call = some s₁)
    (hwf : s₁.Wf) (hcall : ∀ c, call ≠ .addupdate c) : s.Proper call := by
  refine ⟨fun s' hs' => ?_, fun c hc => absurd hc (hcall c)⟩
  rw [hstep] at hs'
  rw [← Option.some.inj hs']
  exact hwf

theorem Wf.proper_addupdate_iff (h : s.Wf) (c : AddCall) :
    s.Proper (.addupdate c) ↔ s.Disciplined (.addupdate c) := by
  have hproper : s.Proper (.addupdate c) ↔ (s.addupdate c).2.Wf ∧ (s.MissingParent c →
      (s.addupdate c).1.iface = none ∧ (s.addupdate c).2 = s) := by
    constructor
    · exact fun hp => ⟨hp.wf _ rfl, hp.refused c rfl⟩
    · rintro ⟨hwf, hrefused⟩
      refine ⟨fun s' hs' => Option.some.inj hs' ▸ hwf, fun c' hc' => ?_⟩
      rw [← Call.addupdate.inj hc']
      exact hrefused
  rw [hproper]
  cases c with
  | ref iface parent policy was_added =>
    obtain ⟨hiff, hrefused⟩ := h.answers_ref iface parent policy was_added
    exact ⟨fun hp => hiff.mp hp.1, fun hd => ⟨hiff.mpr hd, hrefused⟩⟩
  | ptr iface parent policy was_added =>
    obtain ⟨hiff, hrefused⟩ := h.answers_ptr iface parent policy was_added
    exact ⟨fun hp => hiff.mp hp.1, fun hd => ⟨hiff.mpr hd, hrefused⟩⟩
  | found iface parent policy was_added =>
    cases iface with
    | none => exact iff_of_true ⟨h, fun _ => ⟨rfl, rfl⟩⟩ fun _ => rfl
    | some o =>
      obtain ⟨hwf, hsome⟩ := h.addupdateFound o parent policy was_added
      constructor
      · exact fun hp hm => absurd (hp.2 hm).1 hsome
      · exact fun hd => ⟨hwf, fun hm => absurd (hd hm) nofun⟩

/-- In a store that is in order the disciplined calls are just the proper ones. -/
theorem Wf.proper_iff (h : s.Wf) (call : Call) : s.Proper call ↔ s.Disciplined call := by
  cases call with
  | addupdate c => exact h.proper_addupdate_iff c
  | create o => exact iff_of_true (proper_of_step rfl (h.copy o) fun c => by simp) trivial
  | setFlags ref isUp isLocal isSnooped =>
    refine iff_of_true (proper_of_step rfl ?_ fun c => by simp) trivial
    exact h.setFlags ref fun o => ⟨⟨rfl, rfl⟩, rfl⟩
  | removeName name =>
    exact iff_of_true (proper_of_step rfl (h.removeName name) fun c => by simp) trivial
  | removePtr iface =>
    exact iff_of_true (proper_of_step rfl (h.removePtr iface) fun c => by simp) trivial
  | removeRef iface =>
    exact iff_of_true (proper_of_step rfl (h.removeRef iface) fun c => by simp) trivial
  | removeIdentifier type identifier =>
    have hwf := h.removeIdentifier type identifier
    exact iff_of_true (proper_of_step rfl hwf fun c => by simp) trivial
  | agePtr parent clock | ageRef parent clock | ageIdentifier type identifier clock =>
    refine iff_of_true ⟨fun s' hs => ?_, fun c hc => by simp at hc⟩ trivial
    obtain ⟨r, hr, rfl⟩ := Option.map_eq_some_iff.mp hs
    exact h.age hr

/-- A store goes through calls, and is gone when one of them ages a record without a policy. -/
def next (st : Option InterfaceStore) (call : Call) : Option InterfaceStore :=
  st.bind fun s => s.step call

/-- A sequence of calls respects the store throughout just if it is disciplined. -/
theorem proper_run_iff (calls : List Call) :
    Trace.Guarded next (fun st call => ∀ s ∈ st, s.Proper call) (some empty) calls ↔
      Trace.Guarded next (fun st call => ∀ s ∈ st, s.Disciplined call) (some empty) calls := by
  apply @Trace.guarded_congr _ _ next _ _ fun st => ∀ s ∈ st, s.Wf
  · intro st call hst
    exact forall₂_congr fun s hs => (hst s hs).proper_iff call
  · intro st call hst hd s' hs'
    obtain ⟨s, hs, hstep⟩ := Option.bind_eq_some_iff.mp hs'
    exact (((hst s hs).proper_iff call).mpr (hd s hs)).wf s' hstep
  · intro s hs
    rw [← Option.some.inj hs]
    exact ⟨List.Pairwise.nil, nofun, fun ref => by simp [points, empty, ifaces]⟩

end Calls

end InterfaceStore

namespace Sample

open InterfaceStore

def wired (mac : Bytes) : InterfaceObject :=
  { type := .ethernet, identifier := mac, addresses := [], isUp := true, name := lit "eth0"
    isLocal := true, isSnooped := false, isStored := false }

/-- An interface that is added by a caller who does not ask whether it was added is in the store
without the mark, and one that is given with a reference to a parent that is not in the store is
added all the same. -/
theorem not_proper_wired :
    (∃ s, Trace.run next (some empty) [.create (wired [0, 0, 0, 0, 0, 1]),
        .addupdate (.ref (some 0) none none false)] = some s ∧
      0 ∈ s.ifaces ∧ s.points (·.isStored) 0 = false ∧ ¬ s.Wf) ∧
    ∃ s, Trace.run next (some empty) [.create (wired [0, 0, 0, 0, 0, 1])] = some s ∧
      s.MissingParent (.found (some (wired [0, 0, 0, 0, 0, 2])) (some 0) none true) ∧
      (s.addupdate (.found (some (wired [0, 0, 0, 0, 0, 2])) (some 0) none true)).1.iface = some 1 ∧
      (s.addupdate (.found (some (wired [0, 0, 0, 0, 0, 2])) (some 0) none true)).2.ifaces =
        [1] := by
  have hin : (0 : ℕ) ∈ ifaces ⟨[wired [0, 0, 0, 0, 0, 1]], [⟨0, none, none⟩]⟩ := by decide
  refine ⟨⟨_, rfl, hin, by decide, fun hwf => ?_⟩, _, rfl, ⟨_, rfl, by decide⟩, by decide,
    by decide⟩
  exact absurd ((hwf.flags 0).mpr hin) (by decide)

end Sample
end Haggle
