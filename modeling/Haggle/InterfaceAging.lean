import Haggle.InterfaceSubtrees

/-!
# Aging the interfaces in the store

All overloads of `age` go over the records once: the dead ones are taken out with what hangs on
them, the other ones are aged and count for the time at which the next one dies, also when they hang
on a dead one and go as well. The overload that is given an identifier takes an interface for the
parent whose identifier is only the beginning of it.
-/

namespace Haggle

namespace InterfacePolicy

theorem lifetime_age (cip : InterfacePolicy) : cip.age.lifetime = cip.lifetime := by
  cases cip <;> rfl

end InterfacePolicy

namespace Timeval

/-- The earliest valid time in a list, or the invalid one if there is none. -/
structure Earliest (l : List Timeval) (t : Timeval) : Prop where
  mem : t ∈ l ∧ t.isValid = true ∨ t = ⟨-1, 0⟩
  least : ∀ t' ∈ l, t'.isValid = true → t.isValid = true ∧ t ≤ t'

/-- The assignment to `*lifetime`. -/
def sooner (lifetime t : Timeval) : Timeval :=
  if t.isValid && (!lifetime.isValid || decide (t.lt lifetime)) then t else lifetime

theorem sooner_spec (a b : Timeval) : (a.sooner b = a ∨ a.sooner b = b ∧ b.isValid = true) ∧
    ∀ c, c = a ∨ c = b → c.isValid = true → (a.sooner b).isValid = true ∧ a.sooner b ≤ c := by
  unfold sooner
  split_ifs with h
  · obtain ⟨hb, hor⟩ := Bool.and_eq_true_iff.mp h
    refine ⟨.inr ⟨rfl, hb⟩, ?_⟩
    rintro c (rfl | rfl) hc
    · have hlt : b.lt c := by simpa [hc] using hor
      exact ⟨hb, le_of_lt hlt⟩
    · exact ⟨hc, le_refl c⟩
  · refine ⟨.inl rfl, ?_⟩
    rintro c (rfl | rfl) hc
    · exact ⟨hc, le_refl c⟩
    · simp only [hc, Bool.true_and, Bool.or_eq_true, not_or, Bool.not_eq_true',
        Bool.not_eq_false, decide_eq_true_iff] at h
      exact ⟨h.1, not_lt.mp h.2⟩

theorem foldl_sooner (l : List Timeval) (t : Timeval) :
    (l.foldl sooner t = t ∨ l.foldl sooner t ∈ l ∧ (l.foldl sooner t).isValid = true) ∧
      ∀ c, c = t ∨ c ∈ l → c.isValid = true →
        (l.foldl sooner t).isValid = true ∧ l.foldl sooner t ≤ c := by
  induction l generalizing t with
  | nil => exact ⟨.inl rfl, fun c hc hv => by simp_all⟩
  | cons a l ih =>
    obtain ⟨hfrom, hleast⟩ := ih (t.sooner a)
    obtain ⟨hone, hboth⟩ := sooner_spec t a
    refine ⟨?_, fun c hc hv => ?_⟩
    · rcases hfrom with heq | ⟨hmem, hv⟩
      · rcases hone with ht | ⟨ha, hv⟩
        · exact .inl (heq.trans ht)
        · refine .inr ?_
          rw [List.foldl_cons, heq, ha]
          exact ⟨List.mem_cons_self, hv⟩
      · exact .inr ⟨List.mem_cons_of_mem a hmem, hv⟩
    · rcases hc with hc | hc
      · obtain ⟨hvalid, hle⟩ := hboth c (.inl hc) hv
        obtain ⟨hvalid', hle'⟩ := hleast _ (.inl rfl) hvalid
        exact ⟨hvalid', hle'.trans hle⟩
      · rcases List.mem_cons.mp hc with hc | hc
        · obtain ⟨hvalid, hle⟩ := hboth c (.inr hc) hv
          obtain ⟨hvalid', hle'⟩ := hleast _ (.inl rfl) hvalid
          exact ⟨hvalid', hle'.trans hle⟩
        · exact hleast c (.inr hc) hv

theorem earliest_foldl (l : List Timeval) : Earliest l (l.foldl sooner ⟨-1, 0⟩) := by
  obtain ⟨hfrom, hleast⟩ := foldl_sooner l ⟨-1, 0⟩
  exact ⟨hfrom.symm, fun t ht hv => hleast t (.inr ht) hv⟩

theorem Earliest.unique {l : List Timeval} {t t' : Timeval} (h : Earliest l t)
    (h' : Earliest l t') : t = t' := by
  rcases h.mem with ⟨hmem, hv⟩ | hnone
  · obtain ⟨hv', hle⟩ := h'.least t hmem hv
    rcases h'.mem with ⟨hmem', -⟩ | hnone'
    · exact le_antisymm (h.least t' hmem' hv').2 hle
    · rw [hnone'] at hv'
      exact absurd hv' (by decide)
  · rcases h'.mem with ⟨hmem', hv'⟩ | hnone'
    · have hv := (h.least t' hmem' hv').1
      rw [hnone] at hv
      exact absurd hv (by decide)
    · rw [hnone, hnone']

end Timeval

namespace InterfaceStore

variable {s s' : InterfaceStore} {applies looked : InterfaceRecord → Bool}
  {clock : ℕ → Timeval} {l kept : List InterfaceRecord} {dead : List ℕ} {t t' : Timeval}

section Loop

def ageOne (applies : InterfaceRecord → Bool) (ir : InterfaceRecord) : InterfaceRecord :=
  if applies ir then { ir with cip := ir.cip.map (·.age) } else ir

def dies (applies : InterfaceRecord → Bool) (clock : ℕ → Timeval) (ir : InterfaceRecord) : Bool :=
  applies ir && ir.cip.any (·.isDead (clock ir.iface))

/-- The times at which records die. -/
def lifetimes (l : List InterfaceRecord) : List Timeval :=
  l.filterMap fun ir => ir.cip.map (·.lifetime)

/-- One pass over the records, all of which have a policy if they are looked at. -/
theorem ageRecords_eq (hcip : ∀ ir ∈ l, applies ir = true → ir.cip.isSome) (t : Timeval) :
    ageRecords applies clock l t =
      some ((l.filter fun ir => !dies applies clock ir).map (ageOne applies),
        (l.filter (dies applies clock)).map (·.iface),
        (lifetimes (l.filter fun ir => applies ir && !dies applies clock ir)).foldl
          Timeval.sooner t) := by
  induction l generalizing t with
  | nil => rfl
  | cons ir l ih =>
    have hrest := ih fun ir' hir' => hcip ir' (List.mem_cons_of_mem ir hir')
    unfold ageRecords
    cases happlies : applies ir with
    | false =>
      have hdies : dies applies clock ir = false := by rw [dies, happlies, Bool.false_and]
      simp [hrest, hdies, happlies, ageOne]
    | true =>
      obtain ⟨cip, hsome⟩ := Option.isSome_iff_exists.mp (hcip ir List.mem_cons_self happlies)
      cases hdead : cip.isDead (clock ir.iface) with
      | true =>
        have hdies : dies applies clock ir = true := by simp [dies, happlies, hsome, hdead]
        simp [hrest, hdies, hsome, hdead]
      | false =>
        have hdies : dies applies clock ir = false := by simp [dies, happlies, hsome, hdead]
        simp only [hsome, Option.bind_some, hdead, InterfacePolicy.lifetime_age, hrest]
        simp [hdies, happlies, hsome, ageOne, lifetimes, Timeval.sooner]

theorem isSome_of_ageRecords (h : (ageRecords applies clock l t).isSome) :
    ∀ ir ∈ l, applies ir = true → ir.cip.isSome := by
  induction l generalizing t with
  | nil => exact nofun
  | cons ir l ih =>
    rw [List.forall_mem_cons]
    unfold ageRecords at h
    split_ifs at h with happlies
    · cases hcip : ir.cip with
      | none =>
        rw [hcip] at h
        cases h
      | some cip =>
        rw [hcip, Option.bind_some] at h
        refine ⟨fun _ => rfl, ?_⟩
        split_ifs at h with hdead
        · exact ih (by simpa using h)
        · exact ih (by simpa using h)
    · exact ⟨fun h => absurd h happlies, ih (by simpa using h)⟩

end Loop

section Subtrees

/-- The records that `age` looks at. -/
def looks (s : InterfaceStore) (parent : Option (InterfaceObject → Bool)) (ir : InterfaceRecord) :
    Bool :=
  s.points (·.isLocal) ir.iface && parent.isNone ||
    (parent.any fun p => ir.parent.any (s.points p)) && !s.points (·.isSnooped) ir.iface

/-- The dead ones of the records that are meant are taken out with what hangs on them, and the other
ones are aged. -/
structure Ages (s : InterfaceStore) (meant : InterfaceRecord → Bool) (clock : ℕ → Timeval)
    (r : InterfaceStore × List ℕ × Timeval) : Prop where
  records : r.1.records = (s.records.filter fun ir => ir.iface ∉ r.2.1).map (ageOne meant)
  objects : r.1.objects = (s.setStored r.2.1 false).objects
  once : r.2.1.Nodup
  members : ∀ x, x ∈ r.2.1 ↔ ∃ d ∈ s.records, dies meant clock d = true ∧
    Relation.ReflTransGen s.Child d.iface x

theorem link_ageOne (ir : InterfaceRecord) : link (ageOne applies ir) = link ir := by
  unfold ageOne
  split_ifs <;> rfl

theorem iface_ageOne (ir : InterfaceRecord) : (ageOne applies ir).iface = ir.iface :=
  congrArg Prod.fst (link_ageOne ir)

theorem child_congr (h : s'.records.map link = s.records.map link) : s'.Child = s.Child := by
  have hlinks : ∀ (s : InterfaceStore) a b, s.Child a b ↔ (b, some a) ∈ s.records.map link := by
    intro s a b
    simp only [Child, link, List.mem_map, Prod.mk.injEq]
  funext a b
  rw [eq_iff_iff, hlinks, hlinks, h]

theorem age_spec (h : s.Linked) {parent : Option (InterfaceObject → Bool)}
    (hcip : ∀ ir ∈ s.records, s.looks parent ir = true → ir.cip.isSome) (clock : ℕ → Timeval) :
    ∃ r, s.age parent clock = some r ∧ s.Ages (s.looks parent) clock r ∧
      Timeval.Earliest (lifetimes (s.records.filter fun ir =>
        s.looks parent ir && !dies (s.looks parent) clock ir)) r.2.2 := by
  have htakes := takes_children (Within.refl s) h (dies (s.looks parent) clock)
  have hloop := @ageRecords_eq (s.looks parent) clock s.records hcip ⟨-1, 0⟩
  generalize hdead : (s.records.filter (dies (s.looks parent) clock)).map (·.iface) = dead
    at htakes hloop
  have hlinks : ((s.records.filter fun ir => !dies (s.looks parent) clock ir).map
      (ageOne (s.looks parent))).map link =
        (s.records.filter fun ir => !dies (s.looks parent) clock ir).map link := by
    rw [List.map_map]
    exact List.map_congr_left fun ir _ => link_ageOne ir
  have hwithin : s.Within { s.setStored dead false with
      records := (s.records.filter fun ir => !dies (s.looks parent) clock ir).map
        (ageOne (s.looks parent)) } :=
    ⟨funext (key_setStored dead false), by rw [hlinks]; exact List.filter_sublist.map _⟩
  obtain ⟨more, s', hfold, hrest, hmore⟩ := removeChildren_foldl
    (takesBelow_removeChildren h (s.records.length + 1)) dead.reverse
    (fun c hc => htakes.known c (List.mem_reverse.mp hc)) hwithin
    (fun _ => Nat.lt_succ_of_le (by rw [List.length_map]; exact List.length_filter_le _ _)) dead
  have hchild := @child_congr
    { s.setStored dead false with
      records := s.records.filter fun ir => !dies (s.looks parent) clock ir }
    { s.setStored dead false with
      records := (s.records.filter fun ir => !dies (s.looks parent) clock ir).map
        (ageOne (s.looks parent)) } hlinks
  refine ⟨(s', dead ++ more, _), ?_, ⟨?_, ?_, ?_, fun x => ?_⟩, Timeval.earliest_foldl _⟩
  · unfold age
    simp only
    change (ageRecords (s.looks parent) clock s.records ⟨-1, 0⟩).map _ = _
    rw [hloop]
    simp only [Option.map_some, hfold]
  · change s'.records = _
    have hkept := htakes.records
    simp only at hkept
    rw [hrest.records]
    simp only
    rw [hkept, List.filter_map, List.filter_filter]
    congr 2
    funext ir
    simp [iface_ageOne, Bool.and_comm]
  · change s'.objects = _
    rw [hrest.objects]
    exact setStored_append s dead more false
  · refine List.nodup_append.mpr ⟨htakes.once, hrest.once, fun x hx y hy hxy => ?_⟩
    subst hxy
    obtain ⟨ir, hir, rfl⟩ := List.mem_map.mp (hrest.known x hy)
    obtain ⟨ir', hir', rfl⟩ := List.mem_map.mp hir
    rw [iface_ageOne] at hx
    exact (htakes.mem_ifaces (List.mem_map_of_mem hir')).2 hx
  · have hlevel : InterfaceStore.Child { s.setStored dead false with
        records := (s.records.filter fun ir => !dies (s.looks parent) clock ir).map
          (ageOne (s.looks parent)) } = fun a b => s.Child a b ∧ ¬ b ∈ dead := by
      rw [hchild]
      funext a b
      exact propext (htakes.child_iff a b)
    have hreach := @Reach.exists_reflTransGen_iff ℕ s.Child x (· ∈ dead)
    simp only [List.mem_append, hmore, hlevel, List.mem_reverse]
    rw [← hreach, ← hdead]
    simp only [List.mem_map, List.mem_filter]
    constructor
    · rintro ⟨_, ⟨d, ⟨hd, hdies⟩, rfl⟩, hpath⟩
      exact ⟨d, hd, hdies, hpath⟩
    · rintro ⟨d, hd, hdies, hpath⟩
      exact ⟨d.iface, ⟨d, ⟨hd, hdies⟩, rfl⟩, hpath⟩

end Subtrees

section Calls

/-- The calls of `age`. -/
inductive AgeCall
  | ptr (parent : Option Interface)
  | ref (parent : Option ℕ)
  | identifier (type : InterfaceType) (identifier : Option Bytes)

/-- What a call compares the parents with. -/
def AgeCall.selects (s : InterfaceStore) : AgeCall → Option (InterfaceObject → Bool)
  | .ptr parent => parent.map sameAs
  | .ref parent => (s.deref parent).map sameAs
  | .identifier type bytes => bytes.map fun bytes o => o.toInterface.equal type bytes

/-- The parent that a call is given. -/
def AgeCall.given (s : InterfaceStore) : AgeCall → Option (InterfaceType × Bytes)
  | .ptr parent => parent.map fun i => (i.type, i.identifier)
  | .ref parent => (s.deref parent).map fun i => (i.type, i.identifier)
  | .identifier type bytes => bytes.map fun bytes => (type, bytes)

def ageCall (s : InterfaceStore) (clock : ℕ → Timeval) :
    AgeCall → Option (InterfaceStore × List ℕ × Timeval)
  | .ptr parent => s.agePtr parent clock
  | .ref parent => s.ageRef parent clock
  | .identifier type identifier => s.ageIdentifier type identifier clock

/-- The children that are not snooped, or the local interfaces. -/
def meant (s : InterfaceStore) : Option (InterfaceType × Bytes) → InterfaceRecord → Bool
  | none, ir => s.points (·.isLocal) ir.iface
  | some k, ir => (ir.parent.any fun q => s.key q = some k) && !s.points (·.isSnooped) ir.iface

/-- What the overload looks at that is given an identifier. -/
def looksEqual (s : InterfaceStore) (k : Option (InterfaceType × Bytes)) : InterfaceRecord → Bool :=
  s.looks (k.map fun k o => o.toInterface.equal k.1 k.2)

/-- Besides, the time that is returned is that of the children that are left. -/
structure AgesChildren (s : InterfaceStore) (k : Option (InterfaceType × Bytes))
    (clock : ℕ → Timeval) (r : InterfaceStore × List ℕ × Timeval) : Prop where
  ages : s.Ages (s.meant k) clock r
  lifetime : Timeval.Earliest
    (lifetimes (s.records.filter fun ir => s.meant k ir && decide (ir.iface ∉ r.2.1))) r.2.2

/-- What all overloads are to do for one parent. -/
structure AgesAlike (s : InterfaceStore) (k : Option (InterfaceType × Bytes))
    (clock : ℕ → Timeval) : Prop where
  ages : ∀ c : AgeCall, c.given s = k → ∃ r, s.ageCall clock c = some r ∧ s.AgesChildren k clock r
  agree : ∀ c c' : AgeCall, c.given s = k → c'.given s = k → ∀ r r', s.ageCall clock c = some r →
    s.ageCall clock c' = some r' → r.1 = r'.1 ∧ r.2.1.Perm r'.2.1 ∧ r.2.2 = r'.2.2

/-- The interface goes with one that is dead. -/
def Gone (s : InterfaceStore) (meant : InterfaceRecord → Bool) (clock : ℕ → Timeval) (x : ℕ) :
    Prop :=
  ∃ d ∈ s.records, dies meant clock d = true ∧ Relation.ReflTransGen s.Child d.iface x

/-- Each record that is looked at has a policy; one that is not meant stays as it is, unless it goes
anyway; and none expires before those that are meant and are left. -/
structure Settled (s : InterfaceStore) (meant looked : InterfaceRecord → Bool)
    (clock : ℕ → Timeval) : Prop where
  policy : ∀ ir ∈ s.records, looked ir = true → ir.cip.isSome
  other : ∀ ir ∈ s.records, looked ir = true → meant ir = false → ¬ s.Gone meant clock ir.iface →
    ∀ cip ∈ ir.cip, cip.isDead (clock ir.iface) = false ∧ cip.age = cip
  lifetime : ∀ ir ∈ s.records, looked ir = true → ∀ cip ∈ ir.cip,
    cip.isDead (clock ir.iface) = false → cip.lifetime.isValid = true →
      ∃ ir' ∈ s.records, meant ir' = true ∧ ¬ s.Gone meant clock ir'.iface ∧
        ∃ cip' ∈ ir'.cip, cip'.lifetime.isValid = true ∧ cip'.lifetime ≤ cip.lifetime

theorem ageCall_eq (s : InterfaceStore) (clock : ℕ → Timeval) (c : AgeCall) :
    s.ageCall clock c = s.age (c.selects s) clock := by
  cases c <;> rfl

theorem mem_lifetimes {t : Timeval} :
    t ∈ lifetimes l ↔ ∃ ir ∈ l, ∃ cip ∈ ir.cip, cip.lifetime = t := by
  simp only [lifetimes, List.mem_filterMap, Option.map_eq_some_iff, Option.mem_def]

theorem dies_iff {ir : InterfaceRecord} : dies applies clock ir = true ↔
    applies ir = true ∧ ∃ cip ∈ ir.cip, cip.isDead (clock ir.iface) = true := by
  rw [dies, Bool.and_eq_true_iff]
  cases ir.cip <;> simp

/-- If what is looked at and is not meant stays as it is, no more interfaces go. -/
theorem Settled.gone_iff (h : s.Settled applies looked clock)
    (hsub : ∀ ir ∈ s.records, applies ir = true → looked ir = true) (x : ℕ) :
    s.Gone looked clock x ↔ s.Gone applies clock x := by
  constructor
  · rintro ⟨d, hd, hdies, hpath⟩
    obtain ⟨hlooked, cip, hcip, hdead⟩ := dies_iff.mp hdies
    cases happlies : applies d with
    | true => exact ⟨d, hd, dies_iff.mpr ⟨happlies, cip, hcip, hdead⟩, hpath⟩
    | false =>
      by_contra hx
      have hgone : ¬ s.Gone applies clock d.iface := by
        rintro ⟨d', hd', hdies', hpath'⟩
        exact hx ⟨d', hd', hdies', hpath'.trans hpath⟩
      have halive := (h.other d hd hlooked happlies hgone cip hcip).1
      rw [hdead] at halive
      cases halive
  · rintro ⟨d, hd, hdies, hpath⟩
    obtain ⟨happlies, hcip⟩ := dies_iff.mp hdies
    exact ⟨d, hd, dies_iff.mpr ⟨hsub d hd happlies, hcip⟩, hpath⟩

/-- The time over all that are looked at is that of the survivors. -/
theorem Settled.earliest (h : s.Settled applies looked clock)
    (hsub : ∀ ir ∈ s.records, applies ir = true → looked ir = true) {out : List ℕ}
    (hout : ∀ x, x ∈ out ↔ s.Gone applies clock x)
    (ht : Timeval.Earliest
      (lifetimes (s.records.filter fun ir => looked ir && !dies looked clock ir)) t) :
    Timeval.Earliest
      (lifetimes (s.records.filter fun ir => applies ir && decide (ir.iface ∉ out))) t := by
  have hsurvives : ∀ ir ∈ s.records, applies ir = true → ¬ s.Gone applies clock ir.iface →
      ∀ cip ∈ ir.cip, cip.lifetime ∈
        lifetimes (s.records.filter fun ir => applies ir && decide (ir.iface ∉ out)) ∧
      cip.lifetime ∈ lifetimes (s.records.filter fun ir => looked ir && !dies looked clock ir) := by
    intro ir hir happlies hgone cip hcip
    have hin : ir.iface ∉ out := fun hx => hgone ((hout _).mp hx)
    have halive : dies looked clock ir = false := by
      rw [Bool.eq_false_iff]
      intro hdies
      exact hgone ((h.gone_iff hsub _).mp ⟨ir, hir, hdies, .refl⟩)
    refine ⟨mem_lifetimes.mpr ⟨ir, List.mem_filter.mpr ⟨hir, ?_⟩, cip, hcip, rfl⟩,
      mem_lifetimes.mpr ⟨ir, List.mem_filter.mpr ⟨hir, ?_⟩, cip, hcip, rfl⟩⟩
    · simp [happlies, hin]
    · simp [hsub ir hir happlies, halive]
  refine ⟨?_, fun t' ht' hv => ?_⟩
  · rcases ht.mem with ⟨hmem, hv⟩ | hnone
    · obtain ⟨ir, hir, cip, hcip, rfl⟩ := mem_lifetimes.mp hmem
      obtain ⟨hmemir, hlooked⟩ := List.mem_filter.mp hir
      obtain ⟨hlooked, halive⟩ := Bool.and_eq_true_iff.mp hlooked
      have hdead : cip.isDead (clock ir.iface) = false := by
        rw [Bool.eq_false_iff]
        intro hdead
        rw [dies_iff.mpr ⟨hlooked, cip, hcip, hdead⟩] at halive
        cases halive
      obtain ⟨ir', hir', happlies, hgone, cip', hcip', hv', hle⟩ :=
        h.lifetime ir hmemir hlooked cip hcip hdead hv
      obtain ⟨hleft, hloop⟩ := hsurvives ir' hir' happlies hgone cip' hcip'
      have heq := le_antisymm hle (ht.least _ hloop hv').2
      exact .inl ⟨heq ▸ hleft, hv⟩
    · exact .inr hnone
  · obtain ⟨ir, hir, cip, hcip, rfl⟩ := mem_lifetimes.mp ht'
    obtain ⟨hmemir, happlies⟩ := List.mem_filter.mp hir
    obtain ⟨happlies, hin⟩ := Bool.and_eq_true_iff.mp happlies
    have hgone : ¬ s.Gone applies clock ir.iface := fun hx =>
      of_decide_eq_true hin ((hout _).mpr hx)
    exact ht.least _ (hsurvives ir hmemir happlies hgone cip hcip).2 hv

/-- What the code does with the records that it looks at is what is to be done with those that are
meant exactly if these are settled. -/
theorem ages_iff_settled (hsub : ∀ ir ∈ s.records, applies ir = true → looked ir = true)
    (hcip : ∀ ir ∈ s.records, looked ir = true → ir.cip.isSome)
    {r : InterfaceStore × List ℕ × Timeval} (hr : s.Ages looked clock r)
    (ht : Timeval.Earliest
      (lifetimes (s.records.filter fun ir => looked ir && !dies looked clock ir)) r.2.2) :
    (s.Ages applies clock r ∧ Timeval.Earliest
      (lifetimes (s.records.filter fun ir => applies ir && decide (ir.iface ∉ r.2.1))) r.2.2) ↔
        s.Settled applies looked clock := by
  constructor
  · rintro ⟨hages, hlifetime⟩
    refine ⟨hcip, fun ir hir hlooked happlies hgone cip hc => ?_,
      fun ir hir hlooked cip hc hdead hv => ?_⟩
    · have hin : ir.iface ∉ r.2.1 := fun hx => hgone ((hages.members _).mp hx)
      constructor
      · rw [Bool.eq_false_iff]
        intro hdead
        exact hin ((hr.members _).mpr ⟨ir, hir, dies_iff.mpr ⟨hlooked, cip, hc, hdead⟩, .refl⟩)
      · have hmap := hr.records.symm.trans hages.records
        have hone := List.map_inj_left.mp hmap ir (List.mem_filter.mpr ⟨hir, by simpa using hin⟩)
        have hfield := congrArg InterfaceRecord.cip hone
        simp only [ageOne, hlooked, happlies, if_true, Bool.false_eq_true, if_false] at hfield
        rw [hc, Option.map_some] at hfield
        exact Option.some.inj hfield
    · have halive : dies looked clock ir = false := by
        rw [Bool.eq_false_iff]
        intro hdies
        obtain ⟨-, cip', hc', hdead'⟩ := dies_iff.mp hdies
        obtain rfl := Option.mem_unique hc hc'
        rw [hdead] at hdead'
        cases hdead'
      have hmem : cip.lifetime ∈
          lifetimes (s.records.filter fun ir => looked ir && !dies looked clock ir) :=
        mem_lifetimes.mpr ⟨ir, List.mem_filter.mpr ⟨hir, by simp [hlooked, halive]⟩, cip, hc, rfl⟩
      obtain ⟨hvalid, hle⟩ := ht.least _ hmem hv
      rcases hlifetime.mem with ⟨hleft, -⟩ | hnone
      · obtain ⟨ir', hir', cip', hc', heq⟩ := mem_lifetimes.mp hleft
        obtain ⟨hmem', happlies⟩ := List.mem_filter.mp hir'
        obtain ⟨happlies, hin⟩ := Bool.and_eq_true_iff.mp happlies
        refine ⟨ir', hmem', happlies, fun hx => ?_, cip', hc', heq ▸ hvalid, heq ▸ hle⟩
        exact of_decide_eq_true hin ((hages.members _).mpr hx)
      · rw [hnone] at hvalid
        exact absurd hvalid (by decide)
  · intro h
    have hmembers : ∀ x, x ∈ r.2.1 ↔ s.Gone applies clock x := fun x =>
      (hr.members x).trans (h.gone_iff hsub x)
    refine ⟨⟨?_, hr.objects, hr.once, hmembers⟩, h.earliest hsub hmembers ht⟩
    rw [hr.records]
    refine List.map_congr_left fun ir hir => ?_
    obtain ⟨hmem, hin⟩ := List.mem_filter.mp hir
    have hgone : ¬ s.Gone applies clock ir.iface := fun hx =>
      of_decide_eq_true hin ((hmembers _).mpr hx)
    unfold ageOne
    cases happlies : applies ir with
    | true => rw [hsub ir hmem happlies]
    | false =>
      cases hlooked : looked ir with
      | false => rfl
      | true =>
        obtain ⟨cip, hc⟩ := Option.isSome_iff_exists.mp (hcip ir hmem hlooked)
        have hsame := (h.other ir hmem hlooked happlies hgone cip hc).2
        simp only [if_true, Bool.false_eq_true, if_false]
        rw [hc, Option.map_some, hsame, ← hc]

theorem Settled.mono {looked' : InterfaceRecord → Bool} (h : s.Settled applies looked clock)
    (hsub : ∀ ir, looked' ir = true → looked ir = true) : s.Settled applies looked' clock :=
  ⟨fun ir hir hl => h.policy ir hir (hsub ir hl), fun ir hir hl => h.other ir hir (hsub ir hl),
    fun ir hir hl => h.lifetime ir hir (hsub ir hl)⟩

theorem meant_le_looksEqual (k : Option (InterfaceType × Bytes)) (ir : InterfaceRecord)
    (h : s.meant k ir = true) : s.looksEqual k ir = true := by
  cases k with
  | none => simpa [looksEqual, looks, meant] using h
  | some k =>
    obtain ⟨hparent, hsnooped⟩ := Bool.and_eq_true_iff.mp h
    cases hq : ir.parent with
    | none =>
      rw [hq] at hparent
      cases hparent
    | some q =>
      rw [hq, Option.any_some, decide_eq_true_iff] at hparent
      obtain ⟨o, ho, rfl⟩ := Option.map_eq_some_iff.mp hparent
      have hpoints : s.points (fun o' => o'.toInterface.equal o.type o.identifier) q = true := by
        rw [points, ho, Option.any_some, Interface.equal]
        simp
      simp [looksEqual, looks, hq, hpoints, hsnooped]

theorem looks_sameAs (i : Interface) (ir : InterfaceRecord) :
    s.looks (some (sameAs i)) ir = s.meant (some (i.type, i.identifier)) ir := by
  have hpoints : s.points (sameAs i) = fun q => decide (s.key q = some (i.type, i.identifier)) :=
    funext fun q => Bool.eq_iff_iff.mpr (points_sameAs_iff.trans decide_eq_true_iff.symm)
  simp only [looks, meant, Option.isNone_some, Bool.and_false, Bool.false_or, Option.any_some]
  rw [hpoints]

/-- A call looks at those that are meant, or it is given an identifier. -/
theorem looks_selects (c : AgeCall) (ir : InterfaceRecord) :
    s.looks (c.selects s) ir = s.meant (c.given s) ir ∨
      s.looks (c.selects s) ir = s.looksEqual (c.given s) ir := by
  have hnone : s.looks none ir = s.meant none ir := by simp [looks, meant]
  cases c with
  | ptr parent =>
    cases parent with
    | none => exact .inl hnone
    | some i => exact .inl (looks_sameAs i ir)
  | ref parent =>
    simp only [AgeCall.selects, AgeCall.given]
    cases s.deref parent with
    | none => exact .inl hnone
    | some i => exact .inl (looks_sameAs i ir)
  | identifier type bytes =>
    refine .inr ?_
    simp only [AgeCall.selects, AgeCall.given, looksEqual, Option.map_map]
    rfl

theorem isSome_of_age {parent : Option (InterfaceObject → Bool)}
    {r : InterfaceStore × List ℕ × Timeval} (h : s.age parent clock = some r) :
    ∀ ir ∈ s.records, s.looks parent ir = true → ir.cip.isSome := by
  obtain ⟨r', hloop, -⟩ := Option.map_eq_some_iff.mp h
  have hsome : (ageRecords (s.looks parent) clock s.records ⟨-1, 0⟩).isSome :=
    Option.isSome_of_eq_some hloop
  exact isSome_of_ageRecords hsome

/-- Calls that do the same for the same interfaces leave the same behind. -/
theorem AgesChildren.agree {k : Option (InterfaceType × Bytes)}
    {r r' : InterfaceStore × List ℕ × Timeval} (h : s.AgesChildren k clock r)
    (h' : s.AgesChildren k clock r') : r.1 = r'.1 ∧ r.2.1.Perm r'.2.1 ∧ r.2.2 = r'.2.2 := by
  have hmem : ∀ x, x ∈ r.2.1 ↔ x ∈ r'.2.1 := fun x =>
    (h.ages.members x).trans (h'.ages.members x).symm
  have hrecords : r.1.records = r'.1.records := by
    rw [h.ages.records, h'.ages.records]
    simp only [hmem]
  have hobjects : r.1.objects = r'.1.objects := by
    rw [h.ages.objects, h'.ages.objects, setStored_congr s hmem]
  refine ⟨?_, (List.perm_ext_iff_of_nodup h.ages.once h'.ages.once).mpr hmem, ?_⟩
  · cases hr : r.1
    cases hr' : r'.1
    rw [hr, hr'] at hrecords hobjects
    simp only at hrecords hobjects
    rw [hrecords, hobjects]
  · have ht := h.lifetime
    simp only [hmem] at ht
    exact ht.unique h'.lifetime

theorem exists_given (s : InterfaceStore) (k : Option (InterfaceType × Bytes)) :
    ∃ c : AgeCall, c.given s = k ∧ ∀ ir, s.looks (c.selects s) ir = s.looksEqual k ir := by
  cases k with
  | none => exact ⟨.identifier .undefined none, rfl, fun ir => rfl⟩
  | some k => exact ⟨.identifier k.1 (some k.2), rfl, fun ir => rfl⟩

/-- All overloads age the children of a parent exactly if these are settled. -/
theorem Linked.agesAlike_iff (h : s.Linked) (k : Option (InterfaceType × Bytes))
    (clock : ℕ → Timeval) :
    s.AgesAlike k clock ↔ s.Settled (s.meant k) (s.looksEqual k) clock := by
  constructor
  · rintro ⟨hages, -⟩
    obtain ⟨c, hgiven, hlooks⟩ := exists_given s k
    obtain ⟨r, hr, hchildren⟩ := hages c hgiven
    rw [ageCall_eq] at hr
    have hcip := isSome_of_age hr
    obtain ⟨r', hr', hloop, ht⟩ := age_spec h hcip clock
    obtain rfl := Option.some.inj (hr.symm.trans hr')
    rw [show s.looks (c.selects s) = s.looksEqual k from funext hlooks] at hcip hloop ht
    refine (ages_iff_settled (fun ir _ => meant_le_looksEqual k ir) hcip hloop ht).mp ?_
    exact ⟨hchildren.ages, hchildren.lifetime⟩
  · intro hsettled
    have hall : ∀ c : AgeCall, c.given s = k →
        ∃ r, s.ageCall clock c = some r ∧ s.AgesChildren k clock r := by
      rintro c rfl
      have hsub : ∀ ir, s.looks (c.selects s) ir = true → s.looksEqual (c.given s) ir = true := by
        intro ir hl
        rcases looks_selects c ir with heq | heq
        · exact meant_le_looksEqual _ ir (heq ▸ hl)
        · exact heq ▸ hl
      have hless : ∀ ir, s.meant (c.given s) ir = true → s.looks (c.selects s) ir = true := by
        intro ir hm
        rcases looks_selects c ir with heq | heq
        · exact heq ▸ hm
        · exact heq ▸ meant_le_looksEqual _ ir hm
      have hcall := hsettled.mono hsub
      obtain ⟨r, hr, hloop, ht⟩ := age_spec h hcall.policy clock
      obtain ⟨hages, hlifetime⟩ :=
        (ages_iff_settled (fun ir _ => hless ir) hcall.policy hloop ht).mpr hcall
      exact ⟨r, (ageCall_eq s clock c).trans hr, hages, hlifetime⟩
    refine ⟨hall, fun c c' hc hc' r r' hr hr' => ?_⟩
    obtain ⟨r₁, hr₁, hone⟩ := hall c hc
    obtain ⟨r₂, hr₂, htwo⟩ := hall c' hc'
    obtain rfl := Option.some.inj (hr.symm.trans hr₁)
    obtain rfl := Option.some.inj (hr'.symm.trans hr₂)
    exact hone.agree htwo

end Calls

end InterfaceStore

end Haggle
