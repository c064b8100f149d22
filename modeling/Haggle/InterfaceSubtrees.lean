import Haggle.InterfacePresence
import Mathlib.Logic.Relation

/-!
# What is removed from the interface store

Removing an interface takes out just the interfaces that hang on it, each of them once, whatever the
order of the records is. A request without an interface is meant for the interfaces that have no
parent, but finds none.
-/

namespace Reach

variable {α : Type*} {r : α → α → Prop} {D : α → Prop} {p q x : α}

theorem transGen_avoid (hD : ∀ y z, D y → r y z → D z) :
    Relation.TransGen (fun a b => r a b ∧ ¬ D b) q x ↔ Relation.TransGen r q x ∧ ¬ D x := by
  constructor
  · intro h
    induction h with
    | single h => exact ⟨.single h.1, h.2⟩
    | tail _ h ih => exact ⟨ih.1.tail h.1, h.2⟩
  · rintro ⟨h, hx⟩
    induction h with
    | single h => exact .single ⟨h, hx⟩
    | tail _ h ih => exact (ih fun hy => hx (hD _ _ hy h)).tail ⟨h, hx⟩

/-- From the last place of `C` on a path leads through others only. -/
theorem exists_reflTransGen_iff {C : α → Prop} : (∃ c, C c ∧ Relation.ReflTransGen r c x) ↔
    C x ∨ ∃ c, C c ∧ Relation.TransGen (fun a b => r a b ∧ ¬ C b) c x := by
  constructor
  · rintro ⟨c, hc, h⟩
    induction h with
    | refl => exact .inl hc
    | @tail y z _ h ih =>
      by_cases hz : C z
      · exact .inl hz
      · rcases ih with hy | ⟨c', hc', hpath⟩
        · exact .inr ⟨y, hy, .single ⟨h, hz⟩⟩
        · exact .inr ⟨c', hc', hpath.tail ⟨h, hz⟩⟩
  · rintro (h | ⟨c, hc, hpath⟩)
    · exact ⟨x, h, .refl⟩
    · exact ⟨c, hc, (hpath.lift id fun _ _ h => h.1).to_reflTransGen⟩

theorem transGen_level : Relation.TransGen r p x ↔
    r p x ∨ ∃ c, r p c ∧ Relation.TransGen (fun a b => r a b ∧ ¬ r p b) c x :=
  Relation.TransGen.head'_iff.trans exists_reflTransGen_iff

/-- What can be reached without coming back to the start. -/
theorem reflTransGen_iff : Relation.ReflTransGen r p x ↔
    x = p ∨ Relation.TransGen (fun a b => r a b ∧ b ≠ p) p x := by
  have h := @exists_reflTransGen_iff α r x (· = p)
  simpa only [exists_eq_left] using h

end Reach

namespace Haggle
namespace InterfaceStore

variable {s s' s'' s₀ : InterfaceStore} {p c : ℕ} {l l' : List ℕ}

/-- What is compared when the parents of records are gone through: no two records are equal, and
every parent has a record. -/
structure Linked (s : InterfaceStore) : Prop where
  distinct : s.ifaces.Pairwise fun x y => s.key x ≠ s.key y
  parents : ∀ ir ∈ s.records, ∀ q ∈ ir.parent, q ∈ s.ifaces
  objects : ∀ ref ∈ s.ifaces, (s.key ref).isSome

/-- An interface that was discovered on another one. -/
def Child (s : InterfaceStore) (p c : ℕ) : Prop :=
  ∃ ir ∈ s.records, ir.iface = c ∧ ir.parent = some p

def link (ir : InterfaceRecord) : ℕ × Option ℕ := (ir.iface, ir.parent)

/-- A store with the same objects, and with some of the links. -/
structure Within (s₀ s : InterfaceStore) : Prop where
  key : s.key = s₀.key
  links : (s.records.map link).Sublist (s₀.records.map link)

/-- The records of some interfaces are taken out and their marks off, and that is all. -/
structure Takes (s : InterfaceStore) (out : List ℕ) (s' : InterfaceStore) : Prop where
  records : s'.records = s.records.filter fun ir => ir.iface ∉ out
  objects : s'.objects = (s.setStored out false).objects
  once : out.Nodup
  known : ∀ x ∈ out, x ∈ s.ifaces

section Links

theorem Linked.inj (h : s.Linked) {x y : ℕ} (hx : x ∈ s.ifaces) (hy : y ∈ s.ifaces)
    (hkey : s.key x = s.key y) : x = y :=
  List.inj_on_of_nodup_map (List.pairwise_map.mpr h.distinct) hx hy hkey

theorem Linked.nodup (h : s.Linked) : s.ifaces.Nodup :=
  h.distinct.imp fun hkey hxy => hkey (congrArg s.key hxy)

theorem Within.refl (s : InterfaceStore) : s.Within s := ⟨rfl, List.Sublist.refl _⟩

theorem Within.ifaces (h : s₀.Within s) : s.ifaces.Sublist s₀.ifaces := by
  have hfst := h.links.map Prod.fst
  rwa [List.map_map, List.map_map] at hfst

theorem Within.nodup (h : s₀.Within s) (h₀ : s₀.Linked) : s.ifaces.Nodup :=
  h₀.nodup.sublist h.ifaces

theorem Within.parents (h : s₀.Within s) (h₀ : s₀.Linked) {ir : InterfaceRecord}
    (hir : ir ∈ s.records) : ∀ q ∈ ir.parent, q ∈ s₀.ifaces := by
  obtain ⟨ir', hir', hlink⟩ := List.mem_map.mp (h.links.subset (List.mem_map_of_mem hir))
  obtain ⟨-, hparent⟩ := Prod.mk.inj hlink
  rw [← hparent]
  exact h₀.parents ir' hir'

theorem Child.mem (h : s.Child p c) : c ∈ s.ifaces := by
  obtain ⟨ir, hir, rfl, -⟩ := h
  exact List.mem_map_of_mem hir

/-- The comparison of references finds the children. -/
theorem Within.isChild_eq (h : s₀.Within s) (h₀ : s₀.Linked) {p : ℕ} (hp : p ∈ s₀.ifaces)
    {ir : InterfaceRecord} (hir : ir ∈ s.records) :
    (ir.parent.any fun q => (s.deref (some p)).any fun i => s.points (sameAs i) q) =
      decide (ir.parent = some p) := by
  obtain ⟨k, hk⟩ := Option.isSome_iff_exists.mp (h₀.objects p hp)
  rw [← h.key] at hk
  obtain ⟨o, ho, rfl⟩ := Option.map_eq_some_iff.mp hk
  have hderef : s.deref (some p) = some o.toInterface := by
    rw [deref, Option.bind_some, ho]
    rfl
  cases hq : ir.parent with
  | none => simp
  | some q =>
    have hqmem := h.parents h₀ hir q hq
    rw [hderef, Option.any_some, Option.any_some, Bool.eq_iff_iff, points_sameAs_iff,
      decide_eq_true_iff, Option.some.injEq, ← hk]
    constructor
    · intro hkey
      rw [h.key] at hkey
      exact h₀.inj hqmem hp hkey
    · exact congrArg s.key

end Links

section Takes

theorem setStored_nil (s : InterfaceStore) (b : Bool) : (s.setStored [] b).objects = s.objects := by
  unfold setStored
  apply List.ext_getElem?
  intro k
  simp [List.getElem?_mapIdx]

theorem setStored_congr (s : InterfaceStore) (h : ∀ x, x ∈ l ↔ x ∈ l') (b : Bool) :
    s.setStored l b = s.setStored l' b := by
  unfold setStored
  simp only [h]

theorem setStored_append (s : InterfaceStore) (l l' : List ℕ) (b : Bool) :
    ((s.setStored l b).setStored l' b).objects = (s.setStored (l ++ l') b).objects := by
  unfold setStored
  apply List.ext_getElem?
  intro k
  simp only [List.getElem?_mapIdx, Option.map_map]
  congr 1
  funext o
  simp only [Function.comp_apply, List.mem_append]
  split_ifs <;> simp_all

theorem Takes.nil (s : InterfaceStore) : s.Takes [] s :=
  ⟨by simp, (setStored_nil s false).symm, List.nodup_nil, nofun⟩

theorem Takes.key (h : s.Takes l s') : s'.key = s.key := by
  funext ref
  have hset : (s.setStored l false).key ref = s.key ref := key_setStored l false ref
  rw [← hset]
  unfold InterfaceStore.key
  rw [h.objects]

theorem Takes.child_iff (h : s.Takes l s') (a b : ℕ) : s'.Child a b ↔ s.Child a b ∧ b ∉ l := by
  unfold Child
  rw [h.records]
  simp only [List.mem_filter, decide_not, Bool.not_eq_true', decide_eq_false_iff_not]
  constructor
  · rintro ⟨ir, ⟨hir, hout⟩, rfl, hparent⟩
    exact ⟨⟨ir, hir, rfl, hparent⟩, hout⟩
  · rintro ⟨⟨ir, hir, rfl, hparent⟩, hout⟩
    exact ⟨ir, ⟨hir, hout⟩, rfl, hparent⟩

theorem Takes.within (h : s.Takes l s') (hs : s₀.Within s) : s₀.Within s' := by
  refine ⟨h.key.trans hs.key, List.Sublist.trans ?_ hs.links⟩
  rw [h.records]
  exact List.filter_sublist.map _

theorem Takes.length_le (h : s.Takes l s') : s'.records.length ≤ s.records.length := by
  rw [h.records]
  exact List.length_filter_le _ _

theorem Takes.mem_ifaces (h : s.Takes l s') {x : ℕ} (hx : x ∈ s'.ifaces) :
    x ∈ s.ifaces ∧ x ∉ l := by
  obtain ⟨ir, hir, rfl⟩ := List.mem_map.mp hx
  rw [h.records] at hir
  obtain ⟨hmem, hout⟩ := List.mem_filter.mp hir
  exact ⟨List.mem_map_of_mem hmem, by simpa using hout⟩

theorem Takes.trans (h : s.Takes l s') (h' : s'.Takes l' s'') : s.Takes (l ++ l') s'' := by
  refine ⟨?_, ?_, ?_, ?_⟩
  · rw [h'.records, h.records, List.filter_filter]
    congr 1
    funext ir
    simp [Bool.and_comm]
  · rw [h'.objects, ← setStored_append]
    unfold setStored
    rw [h.objects]
    rfl
  · refine List.nodup_append.mpr ⟨h.once, h'.once, fun x hx y hy hxy => ?_⟩
    subst hxy
    exact (h.mem_ifaces (h'.known x hy)).2 hx
  · intro x hx
    rcases List.mem_append.mp hx with hx | hx
    · exact h.known x hx
    · exact (h.mem_ifaces (h'.known x hx)).1

/-- The children of one interface are taken out. -/
theorem takes_children (h : s₀.Within s) (h₀ : s₀.Linked) (p : InterfaceRecord → Bool) :
    s.Takes ((s.records.filter p).map (·.iface))
      { s.setStored ((s.records.filter p).map (·.iface)) false with
        records := s.records.filter fun ir => !p ir } := by
  have hnodup := h.nodup h₀
  refine ⟨?_, rfl, hnodup.sublist (List.filter_sublist.map _), fun x hx => ?_⟩
  · apply List.filter_congr
    intro ir hir
    by_cases hp : p ir
    · have hin : ir.iface ∈ (s.records.filter p).map (·.iface) :=
        List.mem_map_of_mem (List.mem_filter.mpr ⟨hir, hp⟩)
      simp [hp, hin]
    · have hout : ir.iface ∉ (s.records.filter p).map (·.iface) := by
        intro hin
        obtain ⟨ir', hir', heq⟩ := List.mem_map.mp hin
        obtain ⟨hmem, hp'⟩ := List.mem_filter.mp hir'
        exact hp (List.inj_on_of_nodup_map hnodup hmem hir heq ▸ hp')
      simp [hp, hout]
  · exact (List.filter_sublist.map _).subset hx

end Takes

section Removing

/-- What `remove_children` is to do for one interface. -/
def TakesBelow (s : InterfaceStore) (p : ℕ) (r : InterfaceStore × List ℕ) : Prop :=
  s.Takes r.2 r.1 ∧ ∀ x, x ∈ r.2 ↔ Relation.TransGen s.Child p x

/-- What hangs on interfaces is taken out for one after the other. -/
theorem removeChildren_foldl {fuel : ℕ}
    (hspec : ∀ s p, s₀.Within s → p ∈ s₀.ifaces → s.records.length < fuel →
      s.TakesBelow p (removeChildren fuel s (some p)))
    (cs : List ℕ) (hcs : ∀ c ∈ cs, c ∈ s₀.ifaces) (hs : s₀.Within s)
    (hfuel : cs ≠ [] → s.records.length < fuel) (out : List ℕ) :
    ∃ more s', cs.foldl (fun r c => ((removeChildren fuel r.1 (some c)).1,
        r.2 ++ (removeChildren fuel r.1 (some c)).2)) (s, out) = (s', out ++ more) ∧
      s.Takes more s' ∧ ∀ x, x ∈ more ↔ ∃ c ∈ cs, Relation.TransGen s.Child c x := by
  induction cs generalizing s out with
  | nil => exact ⟨[], s, by rw [List.append_nil]; rfl, Takes.nil s, by simp⟩
  | cons c cs ih =>
    have hlt := hfuel (List.cons_ne_nil _ _)
    obtain ⟨htakes, hmem⟩ := hspec s c hs (hcs c List.mem_cons_self) hlt
    obtain ⟨more, s', hfold, hrest, hmore⟩ := ih (fun c' hc' => hcs c' (List.mem_cons_of_mem c hc'))
      (htakes.within hs) (fun _ => htakes.length_le.trans_lt hlt)
      (out ++ (removeChildren fuel s (some c)).2)
    refine ⟨_, s', ?_, htakes.trans hrest, fun x => ?_⟩
    · rw [List.foldl_cons, hfold, List.append_assoc]
    · -- What hangs on the first one is closed, so the others lose nothing else.
      have hclosed : ∀ y z, y ∈ (removeChildren fuel s (some c)).2 → s.Child y z →
          z ∈ (removeChildren fuel s (some c)).2 := fun y z hy hyz =>
        (hmem z).mpr (((hmem y).mp hy).tail hyz)
      have hchild : (removeChildren fuel s (some c)).1.Child =
          fun a b => s.Child a b ∧ b ∉ (removeChildren fuel s (some c)).2 := by
        funext a b
        exact propext (htakes.child_iff a b)
      have hpath : ∀ c', Relation.TransGen (removeChildren fuel s (some c)).1.Child c' x ↔
          Relation.TransGen s.Child c' x ∧ x ∉ (removeChildren fuel s (some c)).2 := by
        intro c'
        rw [hchild]
        exact Reach.transGen_avoid (D := (· ∈ (removeChildren fuel s (some c)).2)) hclosed
      rw [List.mem_append, hmore, List.exists_mem_cons_iff, ← hmem]
      simp only [hpath]
      constructor
      · rintro (hx | ⟨c', hc', hx, -⟩)
        · exact .inl hx
        · exact .inr ⟨c', hc', hx⟩
      · rintro (hx | ⟨c', hc', hx⟩)
        · exact .inl hx
        · by_cases hin : x ∈ (removeChildren fuel s (some c)).2
          · exact .inl hin
          · exact .inr ⟨c', hc', hx, hin⟩

/-- `remove_children` takes out what hangs on the interface, however deep. -/
theorem takesBelow_removeChildren (h₀ : s₀.Linked) (fuel : ℕ) : ∀ (s : InterfaceStore) (p : ℕ),
    s₀.Within s → p ∈ s₀.ifaces → s.records.length < fuel →
      s.TakesBelow p (removeChildren fuel s (some p)) := by
  induction fuel with
  | zero => exact fun s p _ _ hfuel => absurd hfuel (Nat.not_lt_zero _)
  | succ fuel ih =>
    intro s p hs hp hfuel
    have hchildren : (s.records.filter fun ir => ir.parent.any fun q =>
        (s.deref (some p)).any fun i => s.points (sameAs i) q) =
        s.records.filter fun ir => decide (ir.parent = some p) :=
      List.filter_congr fun ir hir => hs.isChild_eq h₀ hp hir
    have hothers : (s.records.filter fun ir => !(ir.parent.any fun q =>
        (s.deref (some p)).any fun i => s.points (sameAs i) q)) =
        s.records.filter fun ir => !decide (ir.parent = some p) :=
      List.filter_congr fun ir hir => by rw [hs.isChild_eq h₀ hp hir]
    have htakes := takes_children hs h₀ fun ir => decide (ir.parent = some p)
    unfold removeChildren
    simp only
    rw [hchildren, hothers]
    generalize hcs : (s.records.filter fun ir => decide (ir.parent = some p)).map (·.iface) = cs
      at htakes
    have hmem : ∀ c, c ∈ cs ↔ s.Child p c := by
      intro c
      rw [← hcs]
      simp only [List.mem_map, List.mem_filter, decide_eq_true_iff, Child]
      exact exists_congr fun ir => and_assoc.trans (and_congr_right fun _ => and_comm)
    have hfewer : cs ≠ [] →
        (s.records.filter fun ir => !decide (ir.parent = some p)).length < fuel := by
      intro hne
      have hpos := List.length_pos_iff.mpr hne
      have hsplit := List.length_eq_length_filter_add (l := s.records)
        fun ir => decide (ir.parent = some p)
      rw [← hcs, List.length_map] at hpos
      omega
    obtain ⟨more, s', hfold, hrest, hmore⟩ := removeChildren_foldl ih cs.reverse
      (fun c hc => hs.ifaces.subset ((hmem c).mp (List.mem_reverse.mp hc)).mem) (htakes.within hs)
      (fun hne => hfewer fun h => hne (by rw [h]; rfl)) cs
    rw [hfold]
    refine ⟨htakes.trans hrest, fun x => ?_⟩
    have hlevel : InterfaceStore.Child { s.setStored cs false with
        records := s.records.filter fun ir => !decide (ir.parent = some p) } =
        fun a b => s.Child a b ∧ ¬ s.Child p b := by
      funext a b
      rw [← hmem b]
      exact propext (htakes.child_iff a b)
    rw [Reach.transGen_level, List.mem_append, hmem, hmore, hlevel]
    simp only [List.mem_reverse, hmem]

/-- No record is a child of nothing. -/
theorem removeChildren_none (fuel : ℕ) (s : InterfaceStore) :
    s.Takes [] (removeChildren (fuel + 1) s none).1 ∧
      (removeChildren (fuel + 1) s none).2 = [] := by
  have hnone : ∀ ir ∈ s.records, (ir.parent.any fun q =>
      (s.deref none).any fun i => s.points (sameAs i) q) = false := by
    intro ir _
    cases ir.parent <;> rfl
  have hchildren : (s.records.filter fun ir => ir.parent.any fun q =>
      (s.deref none).any fun i => s.points (sameAs i) q) = [] :=
    List.filter_eq_nil_iff.mpr fun ir hir => by simp [hnone ir hir]
  unfold removeChildren
  simp only
  rw [hchildren]
  refine ⟨⟨?_, rfl, List.nodup_nil, by simp⟩, rfl⟩
  exact List.filter_congr fun ir hir => by simp [hnone ir hir]

/-- The record of the first interface that is looked for is the only one with it. -/
theorem eraseP_eq_filter (hnodup : s.ifaces.Nodup) {p : InterfaceRecord → Bool}
    {ir : InterfaceRecord} (hir : s.records.find? p = some ir) :
    s.records.eraseP p = s.records.filter fun ir' => ir'.iface ∉ [ir.iface] := by
  obtain ⟨hp, l₁, l₂, hrecords, hl₁⟩ := List.find?_eq_some_iff_append.mp hir
  rw [ifaces, hrecords, List.map_append, List.map_cons] at hnodup
  obtain ⟨-, hcons, hdisjoint⟩ := List.nodup_append.mp hnodup
  have hbefore : ∀ x ∈ l₁, decide (x.iface ∉ [ir.iface]) = true := fun x hx => by
    simpa using hdisjoint x.iface (List.mem_map_of_mem hx) ir.iface List.mem_cons_self
  have hbehind : ∀ x ∈ l₂, decide (x.iface ∉ [ir.iface]) = true := fun x hx => by
    have hne := (List.nodup_cons.mp hcons).1
    simpa using fun h : x.iface = ir.iface => hne (h ▸ List.mem_map_of_mem hx)
  rw [hrecords, List.eraseP_append_right _ fun b hb => by simpa using hl₁ b hb,
    List.eraseP_cons_of_pos hp, List.filter_append, List.filter_eq_self.mpr hbefore,
    List.filter_cons_of_neg (by simp), List.filter_eq_self.mpr hbehind]

/-- An interface is taken out in front of what hangs on it, and loses its mark behind it. -/
theorem Takes.held {ref : ℕ} (hrecords : s'.records = s.records.filter fun ir => ir.iface ∉ [ref])
    (hobjects : s'.objects = s.objects) (href : ref ∈ s.ifaces) (h : s'.Takes l s'') :
    s.Takes (ref :: l) (s''.setStored [ref] false) ∧
      ∀ a b, s'.Child a b ↔ s.Child a b ∧ b ≠ ref := by
  have hfirst : s.Takes [ref] { s.setStored [ref] false with records := s'.records } :=
    ⟨hrecords, rfl, List.nodup_singleton ref, by simpa using href⟩
  have hin : ∀ x ∈ l, x ∈ s.ifaces ∧ x ∉ [ref] := fun x hx => hfirst.mem_ifaces (h.known x hx)
  refine ⟨⟨?_, ?_, ?_, ?_⟩, fun a b => ?_⟩
  · change s''.records = _
    rw [h.records, hrecords, List.filter_filter]
    congr 1
    funext ir
    simp [Bool.and_comm]
  · have hmark : (s''.setStored [ref] false).objects =
        ((s.setStored l false).setStored [ref] false).objects := by
      unfold setStored
      rw [h.objects]
      unfold setStored
      rw [hobjects]
    rw [hmark, setStored_append, setStored_congr s fun x => List.perm_append_comm.mem_iff]
    rfl
  · exact List.nodup_cons.mpr ⟨fun hx => (hin ref hx).2 (List.mem_singleton_self ref), h.once⟩
  · rw [List.forall_mem_cons]
    exact ⟨href, fun x hx => (hin x hx).1⟩
  · rw [ne_eq, ← @List.mem_singleton _ b ref]
    exact hfirst.child_iff a b

/-- The first interface that is looked for is taken out, and all that can be reached from it. -/
theorem removeRecord_takes (h : s.Linked) {p : InterfaceObject → Bool} {iface : ℕ}
    {s' : InterfaceStore} {removed : List ℕ} (hs : s.removeRecord p = some (iface, s', removed)) :
    s.retrieve p = some iface ∧ s.Takes (iface :: removed) s' ∧
      ∀ x, x ∈ iface :: removed ↔ Relation.ReflTransGen s.Child iface x := by
  obtain ⟨ref, href, hs⟩ := Option.map_eq_some_iff.mp hs
  simp only [Prod.mk.injEq] at hs
  obtain ⟨rfl, rfl, rfl⟩ := hs
  refine ⟨href, ?_⟩
  obtain ⟨ir, hir, rfl⟩ := Option.map_eq_some_iff.mp href
  have hmem := List.mem_of_find?_eq_some hir
  have hin : ir.iface ∈ s.ifaces := List.mem_map_of_mem hmem
  have hwithin : s.Within { s with records := s.records.eraseP fun ir => s.points p ir.iface } :=
    ⟨rfl, List.eraseP_sublist.map _⟩
  have hlen : (s.records.eraseP fun ir => s.points p ir.iface).length < s.records.length := by
    rw [List.length_eraseP_of_mem hmem (List.find?_some hir)]
    exact Nat.sub_lt (List.length_pos_of_mem hmem) Nat.one_pos
  obtain ⟨htakes, hbelow⟩ := takesBelow_removeChildren h _ _ ir.iface hwithin hin hlen
  obtain ⟨hall, hchild⟩ := @Takes.held s { s with
    records := s.records.eraseP fun ir => s.points p ir.iface } _ _ ir.iface
      (eraseP_eq_filter h.nodup hir) rfl hin htakes
  refine ⟨hall, fun x => ?_⟩
  rw [List.mem_cons, hbelow, Reach.reflTransGen_iff]
  simp only [funext fun a => funext fun b => propext (hchild a b)]

/-- The number that `remove_children` returns. -/
def countChildren : ℕ → InterfaceStore → Option ℕ → ℕ
  | 0, _, _ => 0
  | fuel + 1, s, parent =>
    let isChild := fun ir : InterfaceRecord =>
      ir.parent.any fun q => (s.deref parent).any fun i => s.points (sameAs i) q
    let children := (s.records.filter isChild).map (·.iface)
    (children.reverse.foldl
      (fun r c => ((removeChildren fuel r.1 (some c)).1, r.2 + countChildren fuel r.1 (some c)))
      ({ s.setStored children false with records := s.records.filter fun ir => !isChild ir },
        children.length)).2

/-- The calls of `remove`. -/
inductive RemoveCall
  | name (name : Bytes)
  | ptr (iface : Option Interface)
  | ref (iface : Option ℕ)
  | identifier (type : InterfaceType) (identifier : Option Bytes)

/-- What a call compares the interfaces with, or nothing if it is given no interface. -/
def RemoveCall.selects (s : InterfaceStore) : RemoveCall → Option (InterfaceObject → Bool)
  | .name n => some fun o => cStr o.name = n
  | .ptr iface => iface.map sameAs
  | .ref iface => (s.deref iface).map sameAs
  | .identifier type bytes => bytes.map fun bytes o => o.toInterface.equal type bytes

def remove (s : InterfaceStore) : RemoveCall → InterfaceStore × List ℕ
  | .name name => s.removeName name
  | .ptr iface => s.removePtr iface
  | .ref iface => s.removeRef iface
  | .identifier type identifier => s.removeIdentifier type identifier

/-- The number that the calls return. -/
def removeCount (s : InterfaceStore) (c : RemoveCall) : ℕ :=
  match c.selects s with
  | none => countChildren (s.records.length + 1) s none
  | some p =>
    match s.retrieve p with
    | none => 0
    | some iface => countChildren s.records.length
        { s with records := s.records.eraseP fun ir => s.points p ir.iface } (some iface) + 1

/-- What a call is to remove, besides what hangs on it: the interface that it is given, or the ones
without a parent. -/
def Root (s : InterfaceStore) (c : RemoveCall) (ref : ℕ) : Prop :=
  match c.selects s with
  | none => ∃ ir ∈ s.records, ir.iface = ref ∧ ir.parent = none
  | some p => s.retrieve p = some ref

/-- Just the subtrees are removed, and they are listed and counted. -/
structure RemovesSubtrees (s : InterfaceStore) (c : RemoveCall) : Prop where
  takes : s.Takes (s.remove c).2 (s.remove c).1
  members : ∀ x, x ∈ (s.remove c).2 ↔ ∃ r, s.Root c r ∧ Relation.ReflTransGen s.Child r x
  count : s.removeCount c = (s.remove c).2.length

theorem countChildren_foldl {fuel : ℕ}
    (hspec : ∀ s p, countChildren fuel s p = (removeChildren fuel s p).2.length) (cs : List ℕ)
    (s : InterfaceStore) (out : List ℕ) :
    (cs.foldl (fun r c => ((removeChildren fuel r.1 (some c)).1,
      r.2 + countChildren fuel r.1 (some c))) (s, out.length)).2 =
    (cs.foldl (fun r c => ((removeChildren fuel r.1 (some c)).1,
      r.2 ++ (removeChildren fuel r.1 (some c)).2)) (s, out)).2.length := by
  induction cs generalizing s out with
  | nil => rfl
  | cons c cs ih =>
    have h := ih (removeChildren fuel s (some c)).1 (out ++ (removeChildren fuel s (some c)).2)
    rw [List.length_append, ← hspec] at h
    exact h

theorem countChildren_eq (fuel : ℕ) (s : InterfaceStore) (p : Option ℕ) :
    countChildren fuel s p = (removeChildren fuel s p).2.length := by
  induction fuel generalizing s p with
  | zero => rfl
  | succ fuel ih => exact countChildren_foldl ih _ _ _

theorem remove_of_some {c : RemoveCall} {p : InterfaceObject → Bool} (hc : c.selects s = some p) :
    (s.remove c).1 = (s.removeFirst p).1 ∧ (s.remove c).2.Perm (s.removeFirst p).2 := by
  cases c with
  | name n =>
    obtain rfl := Option.some.inj hc
    exact ⟨rfl, List.Perm.refl _⟩
  | ptr iface =>
    obtain ⟨i, rfl, rfl⟩ := Option.map_eq_some_iff.mp hc
    exact ⟨rfl, List.Perm.refl _⟩
  | ref iface =>
    obtain ⟨i, hi, rfl⟩ := Option.map_eq_some_iff.mp hc
    rw [remove, removeRef, hi]
    exact ⟨rfl, List.Perm.refl _⟩
  | identifier type bytes =>
    obtain ⟨b, rfl, rfl⟩ := Option.map_eq_some_iff.mp hc
    simp only [remove, removeIdentifier, removeFirst]
    cases s.removeRecord fun o => o.toInterface.equal type b with
    | none => exact ⟨rfl, List.Perm.refl _⟩
    | some r => exact ⟨rfl, List.perm_append_singleton _ _⟩

theorem remove_of_none {c : RemoveCall} (hc : c.selects s = none) :
    s.remove c = removeChildren (s.records.length + 1) s none := by
  cases c with
  | name n => cases hc
  | ptr iface =>
    obtain rfl := Option.map_eq_none_iff.mp hc
    rfl
  | ref iface =>
    rw [remove, removeRef, Option.map_eq_none_iff.mp hc]
    rfl
  | identifier type bytes =>
    obtain rfl := Option.map_eq_none_iff.mp hc
    rfl

theorem Takes.perm (h : s.Takes l s') (hl : l'.Perm l) : s.Takes l' s' := by
  refine ⟨?_, ?_, hl.nodup_iff.mpr h.once, fun x hx => h.known x (hl.mem_iff.mp hx)⟩
  · rw [h.records]
    simp only [hl.mem_iff]
  · rw [h.objects, setStored_congr s fun x => hl.mem_iff]

theorem count_removeFirst {c : RemoveCall} {p : InterfaceObject → Bool}
    (hc : c.selects s = some p) : s.removeCount c = (s.removeFirst p).2.length := by
  unfold removeCount
  rw [hc]
  simp only [removeFirst, removeRecord]
  cases s.retrieve p with
  | none => rfl
  | some iface =>
    simp only [countChildren_eq]
    rfl

theorem removesSubtrees_of_some (h : s.Linked) {c : RemoveCall} {p : InterfaceObject → Bool}
    (hc : c.selects s = some p) : s.RemovesSubtrees c := by
  obtain ⟨hstore, hperm⟩ := remove_of_some hc
  have hcount := count_removeFirst hc
  have hroot : ∀ r, s.Root c r ↔ s.retrieve p = some r := fun r => by
    unfold Root
    rw [hc]
  unfold removeFirst at hstore hperm hcount
  cases hr : s.removeRecord p with
  | none =>
    rw [hr] at hstore hperm hcount
    have hnone : s.retrieve p = none := Option.map_eq_none_iff.mp hr
    refine ⟨?_, fun x => ?_, hcount.trans hperm.length_eq.symm⟩
    · rw [hstore]
      exact (Takes.nil s).perm hperm
    · simp [hperm.mem_iff, hroot, hnone]
  | some r =>
    rw [hr] at hstore hperm hcount
    obtain ⟨hretrieve, htakes, hmem⟩ := removeRecord_takes h hr
    refine ⟨?_, fun x => ?_, hcount.trans hperm.length_eq.symm⟩
    · rw [hstore]
      exact htakes.perm hperm
    · simp only [hperm.mem_iff, hroot, hretrieve]
      exact (hmem x).trans (by simp)

/-- A call without an interface removes nothing. -/
theorem removesSubtrees_iff_of_none {c : RemoveCall} (hc : c.selects s = none) :
    s.RemovesSubtrees c ↔ ∀ ir ∈ s.records, ir.parent ≠ none := by
  have hremove := remove_of_none hc
  obtain ⟨htakes, hnil⟩ := removeChildren_none s.records.length s
  have hroot : ∀ r, s.Root c r ↔ ∃ ir ∈ s.records, ir.iface = r ∧ ir.parent = none := fun r => by
    unfold Root
    rw [hc]
  constructor
  · intro h ir hir hparent
    have hin := (h.members ir.iface).mpr ⟨ir.iface, (hroot _).mpr ⟨ir, hir, rfl, hparent⟩, .refl⟩
    rw [hremove, hnil] at hin
    cases hin
  · intro hall
    refine ⟨?_, fun x => ?_, ?_⟩
    · rw [hremove, hnil]
      exact htakes
    · rw [hremove, hnil]
      refine iff_of_false List.not_mem_nil ?_
      rintro ⟨r, hr, -⟩
      obtain ⟨ir, hir, -, hparent⟩ := (hroot r).mp hr
      exact hall ir hir hparent
    · rw [hremove, hnil, removeCount, hc]
      simp only [countChildren_eq, hnil]

/-- What a call removes is exact, unless it is given no interface and some have no parent. -/
theorem Linked.removesSubtrees_iff (h : s.Linked) (c : RemoveCall) :
    s.RemovesSubtrees c ↔ (c.selects s = none → ∀ ir ∈ s.records, ir.parent ≠ none) := by
  cases hc : c.selects s with
  | none => exact (removesSubtrees_iff_of_none hc).trans (by simp)
  | some p => exact iff_of_true (removesSubtrees_of_some h hc) nofun

end Removing

end InterfaceStore
end Haggle
