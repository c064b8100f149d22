import Haggle.InterfaceAging

/-!
# Every store that calls lead to

Whatever callers do, no two records are equal and every parent has a record, so that what was proved
about removing and aging holds of every store.
-/

namespace Haggle
namespace InterfaceStore

variable {s s' : InterfaceStore}

section Leaving

/-- Records that go take along what hangs on them, so that the others keep their parents. -/
theorem Linked.keep (h : s.Linked) (hkey : s'.key = s.key) (out : List ℕ)
    (hlinks : s'.records.map link = (s.records.filter fun ir => ir.iface ∉ out).map link)
    (hclosed : ∀ x y, x ∈ out → s.Child x y → y ∈ out) : s'.Linked := by
  have hifaces : s'.ifaces = (s.records.filter fun ir => ir.iface ∉ out).map (·.iface) := by
    have hfst := congrArg (List.map Prod.fst) hlinks
    rwa [List.map_map, List.map_map] at hfst
  have hsub : s'.ifaces.Sublist s.ifaces := by
    rw [hifaces]
    exact List.filter_sublist.map _
  refine ⟨?_, fun ir hir q hq => ?_, fun ref href => ?_⟩
  · rw [hkey]
    exact h.distinct.sublist hsub
  · have hmem := List.mem_map_of_mem (f := link) hir
    rw [hlinks] at hmem
    obtain ⟨ir', hir', hlink⟩ := List.mem_map.mp hmem
    obtain ⟨hin, hout⟩ := List.mem_filter.mp hir'
    have hparent : ir'.parent = some q := (Prod.mk.inj hlink).2.trans hq
    obtain ⟨irq, hirq, rfl⟩ := List.mem_map.mp (h.parents ir' hin q hparent)
    rw [hifaces]
    refine List.mem_map_of_mem (List.mem_filter.mpr ⟨hirq, ?_⟩)
    refine decide_eq_true fun hq => of_decide_eq_true hout ?_
    exact hclosed irq.iface ir'.iface hq ⟨ir', hin, rfl, hparent⟩
  · rw [hkey]
    exact h.objects ref (hsub.subset href)

theorem Linked.remove (h : s.Linked) (c : RemoveCall) : (s.remove c).1.Linked := by
  cases hc : c.selects s with
  | none =>
    obtain ⟨htakes, -⟩ := removeChildren_none s.records.length s
    rw [remove_of_none hc]
    refine h.keep htakes.key [] ?_ nofun
    rw [htakes.records]
  | some p =>
    have hremoves := removesSubtrees_of_some h hc
    refine h.keep hremoves.takes.key (s.remove c).2 ?_ fun x y hx hxy => ?_
    · rw [hremoves.takes.records]
    · obtain ⟨r, hr, hpath⟩ := (hremoves.members x).mp hx
      exact (hremoves.members y).mpr ⟨r, hr, hpath.tail hxy⟩

theorem Linked.age (h : s.Linked) {parent : Option (InterfaceObject → Bool)} {clock : ℕ → Timeval}
    {r : InterfaceStore × List ℕ × Timeval} (hr : s.age parent clock = some r) : r.1.Linked := by
  obtain ⟨r', hr', hages, -⟩ := age_spec h (isSome_of_age hr) clock
  obtain rfl := Option.some.inj (hr.symm.trans hr')
  have hkey : r.1.key = s.key := by
    funext ref
    have hset : (s.setStored r.2.1 false).key ref = s.key ref := key_setStored r.2.1 false ref
    rw [← hset]
    unfold InterfaceStore.key
    rw [hages.objects]
  refine h.keep hkey r.2.1 ?_ fun x y hx hxy => ?_
  · rw [hages.records, List.map_map]
    exact List.map_congr_left fun ir _ => link_ageOne ir
  · obtain ⟨d, hd, hdies, hpath⟩ := (hages.members x).mp hx
    exact (hages.members y).mpr ⟨d, hd, hdies, hpath.tail hxy⟩

end Leaving

section Entering

theorem Linked.of_key (h : s.Linked) (hkey : ∀ ref ∈ s.ifaces, s'.key ref = s.key ref)
    (hrecords : s'.records = s.records) : s'.Linked := by
  have hifaces : s'.ifaces = s.ifaces := congrArg (List.map _) hrecords
  refine ⟨?_, ?_, ?_⟩
  · rw [hifaces]
    refine h.distinct.imp_of_mem fun hx hy hne => ?_
    rw [hkey _ hx, hkey _ hy]
    exact hne
  · rw [hrecords, hifaces]
    exact h.parents
  · rw [hifaces]
    exact fun ref href => (hkey ref href).symm ▸ h.objects ref href

theorem Linked.copy (h : s.Linked) (o : InterfaceObject) : (s.copy o).Linked := by
  refine h.of_key (fun ref href => ?_) rfl
  have hsome := h.objects ref href
  rw [key_copy, if_neg]
  rintro rfl
  simp [key] at hsome

theorem Linked.setStored (h : s.Linked) (refs : List ℕ) (b : Bool) :
    (s.setStored refs b).Linked :=
  h.of_key (fun ref _ => key_setStored refs b ref) rfl

/-- One record gets another parent that is in the store, or none. -/
theorem Linked.modifyRecord (h : s.Linked) (n : ℕ) {f : InterfaceRecord → InterfaceRecord}
    (hf : ∀ ir, (f ir).iface = ir.iface)
    (hparent : ∀ ir, ∀ q ∈ (f ir).parent, q ∈ s.ifaces ∨ q ∈ ir.parent) :
    Linked { s with records := s.records.modify n f } := by
  have hifaces : ifaces { s with records := s.records.modify n f } = s.ifaces :=
    s.map_iface_modify n hf
  refine ⟨?_, fun ir hir q hq => ?_, ?_⟩
  · rw [hifaces]
    exact h.distinct
  · rw [hifaces]
    obtain ⟨k, hk⟩ := List.mem_iff_getElem?.mp hir
    rw [List.getElem?_modify] at hk
    obtain ⟨ir', hir', rfl⟩ := Option.map_eq_some_iff.mp hk
    have hold := h.parents ir' (List.mem_of_getElem? hir') q
    split_ifs at hq
    · exact (hparent ir' q hq).elim id hold
    · exact hold hq
  · rw [hifaces]
    exact h.objects

theorem Linked.update (h : s.Linked) {i : Interface} {parent : Option ℕ}
    {policy : Option InterfacePolicy} (hparent : ∀ q ∈ parent, q ∈ s.ifaces)
    {r : ℕ × InterfaceStore} (hs : s.update i parent policy = some r) : r.2.Linked := by
  obtain ⟨ir, -, rfl⟩ := Option.map_eq_some_iff.mp hs
  have hrecord := h.modifyRecord (s.records.findIdx fun ir => s.points (sameAs i) ir.iface)
    (f := fun ir' => { ir' with
      parent := if s.points (·.isSnooped) ir.iface then parent else ir'.parent
      cip := policy.map (·.update) }) (fun _ => rfl) fun ir' q hq => by
        simp only at hq
        split_ifs at hq
        · exact .inl (hparent q hq)
        · exact .inr hq
  refine hrecord.of_key (fun ref _ => ?_) rfl
  simp only
  split_ifs
  · exact key_modify (s := s) ir.iface (f := fun o => { o with isSnooped := false })
      (fun _ => ⟨rfl, rfl⟩) ref
  · rfl

theorem Linked.add (h : s.Linked) {ref : ℕ} {parent : Option ℕ} (policy : Option InterfacePolicy)
    (hsome : (s.key ref).isSome) (hnew : ∀ x ∈ s.ifaces, s.key x ≠ s.key ref)
    (hparent : ∀ q ∈ parent, q ∈ s.ifaces) : (s.addRecord ⟨ref, parent, policy⟩).Linked := by
  have hifaces : (s.addRecord ⟨ref, parent, policy⟩).ifaces = s.ifaces ++ [ref] := List.map_append
  refine ⟨?_, fun ir hir q hq => ?_, fun x hx => ?_⟩
  · rw [hifaces, List.pairwise_append]
    refine ⟨h.distinct, List.pairwise_singleton _ _, fun x hx y hy => ?_⟩
    rw [List.mem_singleton.mp hy]
    exact hnew x hx
  · rw [hifaces]
    apply List.mem_append_left
    rcases List.mem_append.mp hir with hir | hir
    · exact h.parents ir hir q hq
    · rw [List.mem_singleton.mp hir] at hq
      exact hparent q hq
  · rw [hifaces] at hx
    rcases List.mem_append.mp hx with hx | hx
    · exact h.objects x hx
    · rw [List.mem_singleton.mp hx]
      exact hsome

/-- A copy of an interface that is not in the store gets a record. -/
theorem Linked.add_copy (h : s.Linked) {o : InterfaceObject} {parent : Option ℕ}
    (policy : Option InterfacePolicy) (hnone : s.retrieve (sameAs o.toInterface) = none)
    (hparent : ∀ q ∈ parent, q ∈ s.ifaces) :
    ((s.copy o).addRecord ⟨s.objects.length, parent, policy⟩).Linked := by
  have hkey : (s.copy o).key s.objects.length = some (o.type, o.identifier) := by
    rw [key_copy, if_pos rfl]
  refine (h.copy o).add policy (by rw [hkey]; rfl) (fun x hx => ?_) hparent
  have hne : x ≠ s.objects.length := by
    rintro rfl
    have hsome := h.objects _ hx
    simp [key] at hsome
  rw [hkey, key_copy, if_neg hne]
  exact key_ne_of_retrieve hnone x hx

theorem Linked.addupdate (h : s.Linked) (c : AddCall) : (s.addupdate c).2.Linked := by
  cases c with
  | ref iface parent policy was_added =>
    simp only [InterfaceStore.addupdate, addupdateRef]
    cases iface with
    | none => exact h
    | some ref =>
      cases hi : s.deref (some ref) with
      | none => exact h
      | some i =>
        cases hp : s.parentStore (s.deref parent) with
        | none => exact h
        | some p =>
          have hparent := (parentStore_spec s (s.deref parent)).2 p hp
          simp only
          cases hu : s.update i p policy with
          | some r => exact h.update hparent hu
          | none =>
            obtain ⟨hsome, hnew⟩ := Wf.not_mem_of_retrieve (update_eq_none_iff.mp hu) hi
            have hadd := h.add policy hsome hnew hparent
            cases was_added with
            | true => exact hadd.setStored [ref] true
            | false => exact hadd
  | found iface parent policy was_added =>
    simp only [InterfaceStore.addupdate, addupdateFound]
    cases iface with
    | none => exact h
    | some o =>
      have hparent : ∀ q ∈ (s.deref parent).bind fun i => s.retrieve (sameAs i), q ∈ s.ifaces := by
        intro q hq
        obtain ⟨i, -, hi⟩ := Option.bind_eq_some_iff.mp hq
        exact mem_ifaces_of_retrieve hi
      simp only
      cases hu : s.update o.toInterface ((s.deref parent).bind fun i => s.retrieve (sameAs i))
          policy with
      | some r => exact h.update hparent hu
      | none =>
        exact (h.add_copy policy (update_eq_none_iff.mp hu) hparent).setStored _ true
  | ptr iface parent policy was_added =>
    simp only [InterfaceStore.addupdate, addupdatePtr]
    cases iface with
    | none => exact h
    | some o =>
      simp only
      cases hp : s.parentStore parent with
      | none => exact h
      | some p =>
        have hparent := (parentStore_spec s parent).2 p hp
        simp only
        cases hu : s.update o.toInterface p policy with
        | some r => exact h.update hparent hu
        | none =>
          have hadd := h.add_copy policy (update_eq_none_iff.mp hu) hparent
          cases was_added with
          | true => exact hadd.setStored _ true
          | false => exact hadd

end Entering

section Runs

theorem Linked.step (h : s.Linked) {call : Call} (hs : s.step call = some s') : s'.Linked := by
  cases call with
  | create o => exact Option.some.inj hs ▸ h.copy o
  | setFlags ref isUp isLocal isSnooped =>
    obtain rfl := Option.some.inj hs
    exact h.of_key (fun x _ => key_modify (s := s) ref (f := fun o =>
      { o with isUp := isUp, isLocal := isLocal, isSnooped := isSnooped }) (fun _ => ⟨rfl, rfl⟩) x)
        rfl
  | addupdate c => exact Option.some.inj hs ▸ h.addupdate c
  | removeName name => exact Option.some.inj hs ▸ h.remove (.name name)
  | removePtr iface => exact Option.some.inj hs ▸ h.remove (.ptr iface)
  | removeRef iface => exact Option.some.inj hs ▸ h.remove (.ref iface)
  | removeIdentifier type bytes => exact Option.some.inj hs ▸ h.remove (.identifier type bytes)
  | agePtr parent clock | ageRef parent clock | ageIdentifier type identifier clock =>
    obtain ⟨r, hr, rfl⟩ := Option.map_eq_some_iff.mp hs
    exact h.age hr

theorem linked_run {calls : List Call} (hs : Trace.run next (some empty) calls = some s) :
    s.Linked := by
  have hrun : ∀ s' ∈ Trace.run next (some empty) calls, s'.Linked := by
    refine @Trace.invariant _ _ next (fun st => ∀ s' ∈ st, Linked s')
      (fun st call hst s' hs' => ?_) (some empty) ?_ calls
    · obtain ⟨s, hs, hstep⟩ := Option.bind_eq_some_iff.mp hs'
      exact (hst s hs).step hstep
    · intro s' hs'
      obtain rfl := Option.some.inj hs'
      exact ⟨List.Pairwise.nil, nofun, nofun⟩
  exact hrun s hs

/-- In every store that calls lead to, the calls of `remove` take out just the subtrees, but for
those without an interface. -/
theorem removes_run_iff {calls : List Call} (hs : Trace.run next (some empty) calls = some s)
    (c : RemoveCall) :
    s.RemovesSubtrees c ↔ (c.selects s = none → ∀ ir ∈ s.records, ir.parent ≠ none) :=
  (linked_run hs).removesSubtrees_iff c

/-- In every store that calls lead to, the calls of `age` for a parent do alike what they are to do
exactly if its children are settled. -/
theorem ages_run_iff {calls : List Call} (hs : Trace.run next (some empty) calls = some s)
    (k : Option (InterfaceType × Bytes)) (clock : ℕ → Timeval) :
    s.AgesAlike k clock ↔ s.Settled (s.meant k) (s.looksEqual k) clock :=
  (linked_run hs).agesAlike_iff k clock

end Runs

end InterfaceStore

namespace Sample

open InterfaceStore

/-- A network card, and a second one that was discovered on it and expires later. -/
def cardCalls : List InterfaceStore.Call :=
  [.create (wired [0, 0, 0, 0, 0, 1]), .addupdate (.ref (some 0) none (some (.time ⟨1, 0⟩)) true),
    .create (wired [0, 0, 0, 0, 0, 2]),
    .addupdate (.ref (some 1) (some 0) (some (.time ⟨9, 0⟩)) true)]

def cards : InterfaceStore where
  objects := [{ wired [0, 0, 0, 0, 0, 1] with isStored := true },
    { wired [0, 0, 0, 0, 0, 2] with isStored := true }]
  records := [⟨0, none, some (.time ⟨1, 0⟩)⟩, ⟨1, some 0, some (.time ⟨9, 0⟩)⟩]

theorem run_cardCalls : Trace.run next (some empty) cardCalls = some cards := rfl

theorem removesSubtrees_cards :
    cards.RemovesSubtrees (.ptr (some (wired [0, 0, 0, 0, 0, 1]).toInterface)) :=
  (removes_run_iff run_cardCalls _).mpr nofun

/-- The card has no parent, but a call without an interface leaves it in the store. -/
theorem not_removesSubtrees_cards : Trace.run next (some empty) cardCalls = some cards ∧
    ¬ cards.RemovesSubtrees (.ptr none) := by
  refine ⟨rfl, fun h => ?_⟩
  exact (removesSubtrees_iff_of_none rfl).mp h _ List.mem_cons_self rfl

/-- While both are alive all calls do alike. -/
theorem agesAlike_cards : cards.AgesAlike none fun _ => ⟨0, 0⟩ := by
  have hlooks : ∀ ir, cards.looksEqual none ir = cards.meant none ir := fun ir => by
    simp [looksEqual, looks, meant]
  have hdies : ∀ d ∈ cards.records, dies (cards.meant none) (fun _ => ⟨0, 0⟩) d = false := by
    decide
  refine (ages_run_iff run_cardCalls none _).mpr ⟨by decide, ?_, ?_⟩
  · intro ir hir hlooked hmeant
    rw [hlooks, hmeant] at hlooked
    cases hlooked
  · intro ir hir hlooked cip hcip hdead hv
    refine ⟨ir, hir, (hlooks ir).symm.trans hlooked, ?_, cip, hcip, hv, le_refl _⟩
    rintro ⟨d, hd, hdead', -⟩
    rw [hdies d hd] at hdead'
    cases hdead'

/-- The time of the second card is returned, but it goes with the first one. -/
theorem not_agesAlike_cards : Trace.run next (some empty) cardCalls = some cards ∧
    ¬ cards.AgesAlike none fun _ => ⟨5, 0⟩ := by
  refine ⟨rfl, fun h => ?_⟩
  have hsettled := ((linked_run run_cardCalls).agesAlike_iff none _).mp h
  have hfirst : cards.Gone (cards.meant none) (fun _ => ⟨5, 0⟩) 0 :=
    ⟨_, List.mem_cons_self, by decide, .refl⟩
  have hchild : cards.Child 0 1 := ⟨⟨1, some 0, some (.time ⟨9, 0⟩)⟩, .tail _ (.head _), rfl, rfl⟩
  have hsecond : cards.Gone (cards.meant none) (fun _ => ⟨5, 0⟩) 1 := by
    obtain ⟨d, hd, hdies, hpath⟩ := hfirst
    exact ⟨d, hd, hdies, hpath.tail hchild⟩
  obtain ⟨ir, hir, -, hleft, -⟩ := hsettled.lifetime ⟨1, some 0, some (.time ⟨9, 0⟩)⟩
    (.tail _ (.head _)) (by decide) (.time ⟨9, 0⟩) rfl (by decide) (by decide)
  rcases List.mem_cons.mp hir with rfl | hir
  · exact hleft hfirst
  · rw [List.mem_singleton.mp hir] at hleft
    exact hleft hsecond

end Sample
end Haggle
