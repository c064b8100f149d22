import Haggle.NodeStore

/-!
# What the node store keeps to

Nodes are compared by their types, their identifiers and the keys of their interfaces, none of which
the store changes. A node that replaces others has no interface with the nodes that stay; it may
still have the identifier of one of them. A node that is added has not the identifier of another
one; it may still share an interface with it.
-/

namespace Haggle

/-- What nodes are compared by. -/
structure NodeSig where
  type : NodeType
  id : Digest
  keys : List (InterfaceType × Bytes)

namespace Node

def keys (interfaces : List Interface) : List (InterfaceType × Bytes) :=
  interfaces.map fun i => (i.type, i.identifier)

def sig (n : Node) : NodeSig := ⟨n.type, n.id, keys n.interfaces⟩

theorem hasInterface_iff {n : Node} {i : Interface} :
    n.hasInterface i = true ↔ (i.type, i.identifier) ∈ n.sig.keys := by
  unfold hasInterface sig keys
  simp only [List.any_eq_true, Interface.same_iff, List.mem_map, Prod.mk.injEq]
  exact ⟨fun ⟨j, hj, h₁, h₂⟩ => ⟨j, hj, h₁.symm, h₂.symm⟩,
    fun ⟨j, hj, h₁, h₂⟩ => ⟨j, hj, h₁.symm, h₂.symm⟩⟩

/-- Two nodes overlap if they have an interface in common. -/
theorem any_hasInterface_iff {n m : Node} :
    (m.interfaces.any fun i => n.hasInterface i) = true ↔ ∃ x ∈ m.sig.keys, x ∈ n.sig.keys := by
  simp only [List.any_eq_true, hasInterface_iff]
  constructor
  · exact fun ⟨i, hi, h⟩ => ⟨_, List.mem_map_of_mem hi, h⟩
  · rintro ⟨x, hx, h⟩
    obtain ⟨i, hi, rfl⟩ := List.mem_map.mp hx
    exact ⟨i, hi, h⟩

theorem same_iff {n m : Node} : n.same m = true ↔
    if n.sig.type = .undefined ∨ m.sig.type = .undefined then ∃ x ∈ n.sig.keys, x ∈ m.sig.keys
    else n.sig.id = m.sig.id := by
  change n.same m = true ↔ if n.type = .undefined ∨ m.type = .undefined then _ else n.id = m.id
  unfold same
  by_cases h : n.type = .undefined ∨ m.type = .undefined
  · rw [if_pos h, if_pos h]
    exact any_hasInterface_iff
  · rw [if_neg h, if_neg h, decide_eq_true_iff]

theorem sig_stamp (now : Timeval) (n : Node) : (n.stamp now).sig = n.sig := by
  unfold stamp
  split_ifs <;> rfl

theorem interfaces_stamp (now : Timeval) (n : Node) : (n.stamp now).interfaces = n.interfaces := by
  unfold stamp
  split_ifs <;> rfl

theorem keys_markFirst {p : Interface → Bool} {isUp : Bool} {l l' : List Interface}
    (h : markFirst p isUp l = some l') : keys l' = keys l := by
  induction l generalizing l' with
  | nil => cases h
  | cons j l ih =>
    unfold markFirst at h
    split_ifs at h
    · obtain rfl := Option.some.inj h
      rfl
    · obtain ⟨l₁, hl₁, rfl⟩ := Option.map_eq_some_iff.mp h
      exact congrArg (_ :: ·) (ih hl₁)

theorem sig_setInterfaceUp (now : Timeval) (n : Node) (i : Interface) :
    (n.setInterfaceUp now i).sig = n.sig := by
  unfold setInterfaceUp
  cases h : markFirst (fun j => i.same j && !j.isUp) true n.interfaces with
  | none => rfl
  | some l =>
    rw [sig_stamp]
    exact congrArg (NodeSig.mk n.type n.id) (keys_markFirst h)

theorem sig_setInterfaceDown (now : Timeval) (n : Node) (i : Interface) :
    (n.setInterfaceDown now i).sig = n.sig := by
  unfold setInterfaceDown
  cases h : markFirst (fun j => i.same j && j.isUp) false n.interfaces with
  | none => rfl
  | some l =>
    rw [sig_stamp]
    exact congrArg (NodeSig.mk n.type n.id) (keys_markFirst h)

/-- An interface is up in a node. -/
def UpAt (n : Node) (x : InterfaceType × Bytes) : Prop :=
  ∃ j ∈ n.interfaces, (j.type, j.identifier) = x ∧ j.isUp = true

theorem upAt_markFirst {p : Interface → Bool} {l l' : List Interface}
    (h : markFirst p true l = some l') :
    (∀ j ∈ l, ∃ j' ∈ l', (j'.type, j'.identifier) = (j.type, j.identifier) ∧
      (j.isUp = true → j'.isUp = true)) ∧ ∃ j ∈ l, p j = true ∧
        ∃ j' ∈ l', (j'.type, j'.identifier) = (j.type, j.identifier) ∧ j'.isUp = true := by
  induction l generalizing l' with
  | nil => cases h
  | cons j l ih =>
    unfold markFirst at h
    split_ifs at h with hp
    · obtain rfl := Option.some.inj h
      refine ⟨?_, j, List.mem_cons_self, hp, _, List.mem_cons_self, rfl, rfl⟩
      rw [List.forall_mem_cons]
      refine ⟨⟨_, List.mem_cons_self, rfl, fun _ => rfl⟩, fun j' hj' => ?_⟩
      exact ⟨j', List.mem_cons_of_mem _ hj', rfl, fun h => h⟩
    · obtain ⟨l₁, hl₁, rfl⟩ := Option.map_eq_some_iff.mp h
      obtain ⟨hkeep, j₁, hj₁, hp₁, j₂, hj₂, hup⟩ := ih hl₁
      refine ⟨?_, j₁, List.mem_cons_of_mem _ hj₁, hp₁, j₂, List.mem_cons_of_mem _ hj₂, hup⟩
      rw [List.forall_mem_cons]
      refine ⟨⟨j, List.mem_cons_self, rfl, fun h => h⟩, fun j' hj' => ?_⟩
      obtain ⟨j'', hj'', h⟩ := hkeep j' hj'
      exact ⟨j'', List.mem_cons_of_mem _ hj'', h⟩

theorem UpAt.setInterfaceUp {n : Node} {x : InterfaceType × Bytes} (h : n.UpAt x) (now : Timeval)
    (i : Interface) : (n.setInterfaceUp now i).UpAt x := by
  unfold Node.setInterfaceUp
  cases hmark : markFirst (fun j => i.same j && !j.isUp) true n.interfaces with
  | none => exact h
  | some l =>
    obtain ⟨j, hj, rfl, hup⟩ := h
    obtain ⟨j', hj', hkey, hup'⟩ := (upAt_markFirst hmark).1 j hj
    refine ⟨j', ?_, hkey, hup' hup⟩
    rw [interfaces_stamp]
    exact hj'

theorem markFirst_eq_none {p : Interface → Bool} {b : Bool} {l : List Interface}
    (h : markFirst p b l = none) : ∀ j ∈ l, p j = false := by
  induction l with
  | nil => exact nofun
  | cons j l ih =>
    unfold markFirst at h
    split_ifs at h with hp
    rw [List.forall_mem_cons]
    exact ⟨by simpa using hp, ih (Option.map_eq_none_iff.mp h)⟩

theorem upAt_setInterfaceUp {n : Node} {i : Interface} (h : n.hasInterface i = true)
    (now : Timeval) : (n.setInterfaceUp now i).UpAt (i.type, i.identifier) := by
  unfold setInterfaceUp
  cases hmark : markFirst (fun j => i.same j && !j.isUp) true n.interfaces with
  | none =>
    obtain ⟨j, hj, hsame⟩ := List.any_eq_true.mp h
    obtain ⟨htype, hid⟩ := Interface.same_iff.mp hsame
    refine ⟨j, hj, by rw [htype, hid], ?_⟩
    simpa [hsame] using markFirst_eq_none hmark j hj
  | some l =>
    obtain ⟨-, j, hj, hp, j', hj', hkey, hup⟩ := upAt_markFirst hmark
    rw [Bool.and_eq_true] at hp
    obtain ⟨htype, hid⟩ := Interface.same_iff.mp hp.1
    refine ⟨j', ?_, by rw [hkey, htype, hid], hup⟩
    rw [interfaces_stamp]
    exact hj'

/-- A node that takes over interfaces keeps what it is compared by and what is up already, and what
is up in a shared interface is up in it. -/
theorem takeUp_spec (now : Timeval) (interfaces : List Interface) (n : Node) :
    (n.takeUp now interfaces).sig = n.sig ∧
      (∀ x, n.UpAt x → (n.takeUp now interfaces).UpAt x) ∧
        ∀ i ∈ interfaces, n.hasInterface i = true → i.isUp = true →
          (n.takeUp now interfaces).UpAt (i.type, i.identifier) := by
  induction interfaces generalizing n with
  | nil => exact ⟨rfl, fun _ h => h, nofun⟩
  | cons i l ih =>
    unfold takeUp
    rw [List.foldl_cons]
    by_cases hi : (n.hasInterface i && i.isUp) = true
    · rw [if_pos hi]
      obtain ⟨hsig, hkeep, hup⟩ := ih (n.setInterfaceUp now i)
      rw [sig_setInterfaceUp] at hsig
      refine ⟨hsig, fun x hx => hkeep x (hx.setInterfaceUp now i), ?_⟩
      rw [List.forall_mem_cons]
      constructor
      · exact fun hhas _ => hkeep _ (upAt_setInterfaceUp hhas now)
      · intro j hj hhas
        apply hup j hj
        rw [hasInterface_iff, sig_setInterfaceUp]
        exact hasInterface_iff.mp hhas
    · rw [if_neg hi]
      obtain ⟨hsig, hkeep, hup⟩ := ih n
      refine ⟨hsig, hkeep, ?_⟩
      rw [List.forall_mem_cons]
      exact ⟨fun hhas hisUp => absurd (by rw [hhas, hisUp]; rfl) hi, hup⟩

end Node

namespace NodeHeap

variable {h h' : NodeHeap}

def sig (h : NodeHeap) (k : ℕ) : Option NodeSig := (h.node k).map Node.sig

def isStored (h : NodeHeap) (k : ℕ) : Bool := (h[k]?).any (·.stored)

def UpAt (h : NodeHeap) (k : ℕ) (x : InterfaceType × Bytes) : Prop :=
  ∃ n, h.node k = some n ∧ n.UpAt x

section Compared

theorem shares_iff {k r : ℕ} : h.shares k r = true ↔
    ∃ a b, h.sig k = some a ∧ h.sig r = some b ∧ ∃ x ∈ b.keys, x ∈ a.keys := by
  unfold shares sig
  cases hr : h.node r with
  | none => simp
  | some m =>
    cases hk : h.node k with
    | none => simp
    | some n =>
      simp only [Option.any_some, Option.map_some, Option.some.injEq, exists_and_left,
        exists_eq_left']
      exact Node.any_hasInterface_iff

theorem sameNode_iff {r k : ℕ} : h.sameNode r k = true ↔ ∃ a b, h.sig r = some a ∧
    h.sig k = some b ∧ if a.type = .undefined ∨ b.type = .undefined then ∃ x ∈ a.keys, x ∈ b.keys
      else a.id = b.id := by
  unfold sameNode sig
  cases hr : h.node r with
  | none => simp
  | some n =>
    cases hk : h.node k with
    | none => simp
    | some m =>
      simp only [Option.any_some, Option.map_some, Option.some.injEq, exists_and_left,
        exists_eq_left']
      exact Node.same_iff

theorem isSome_sig {k : ℕ} : (h.sig k).isSome = (h.node k).isSome := Option.isSome_map

theorem shares_congr (hsig : h'.sig = h.sig) : h'.shares = h.shares := by
  funext k r
  rw [Bool.eq_iff_iff, shares_iff, shares_iff, hsig]

theorem sameNode_congr (hsig : h'.sig = h.sig) : h'.sameNode = h.sameNode := by
  funext r k
  rw [Bool.eq_iff_iff, sameNode_iff, sameNode_iff, hsig]

theorem sameRef_congr (hsig : h'.sig = h.sig) : h'.sameRef = h.sameRef := by
  funext r k
  unfold sameRef
  rw [sameNode_congr hsig, ← isSome_sig, ← isSome_sig, hsig]

theorem shares_symm (k r : ℕ) : h.shares k r = h.shares r k := by
  rw [Bool.eq_iff_iff, shares_iff, shares_iff]
  constructor
  · rintro ⟨a, b, ha, hb, x, hx, hx'⟩
    exact ⟨b, a, hb, ha, x, hx', hx⟩
  · rintro ⟨a, b, ha, hb, x, hx, hx'⟩
    exact ⟨b, a, hb, ha, x, hx', hx⟩

end Compared

section Changes

theorem getElem?_setStored (refs : List ℕ) (b : Bool) (x : ℕ) : (h.setStored refs b)[x]? =
    (h[x]?).map fun o => if x ∈ refs then { o with stored := b } else o :=
  List.getElem?_mapIdx

theorem getElem?_append {x : ℕ} (hx : (h.node x).isSome) (o : NodeObject) :
    (h ++ [o])[x]? = h[x]? := by
  rw [node, Option.isSome_map] at hx
  exact List.getElem?_append_left (by simpa using hx)

theorem node_append {x : ℕ} (hx : (h.node x).isSome) (o : NodeObject) :
    node (h ++ [o]) x = h.node x := by
  unfold node
  rw [NodeHeap.getElem?_append hx]

theorem isStored_append {x : ℕ} (hx : (h.node x).isSome) (o : NodeObject) :
    isStored (h ++ [o]) x = h.isStored x := by
  unfold isStored
  rw [NodeHeap.getElem?_append hx]

theorem node_setStored (refs : List ℕ) (b : Bool) : (h.setStored refs b).node = h.node := by
  funext x
  unfold node
  rw [getElem?_setStored, Option.map_map]
  congr 1
  funext o
  simp only [Function.comp_apply]
  split_ifs <;> rfl

theorem isStored_setStored (refs : List ℕ) (b : Bool) (x : ℕ) :
    (h.setStored refs b).isStored x =
      if x ∈ refs then b && (h.node x).isSome else h.isStored x := by
  unfold isStored node
  rw [getElem?_setStored]
  cases h[x]? with
  | none => simp
  | some o =>
    by_cases hx : x ∈ refs
    · simp [hx]
    · simp [hx]

theorem node_modify (k : ℕ) {f : NodeObject → NodeObject} {g : Node → Node}
    (hf : ∀ o, (f o).node = g o.node) (x : ℕ) :
    node (h.modify k f) x = if x = k then (h.node x).map g else h.node x := by
  unfold node
  rw [List.getElem?_modify]
  cases h[x]? with
  | none => simp
  | some o =>
    by_cases hx : x = k
    · simp [hx, hf o]
    · simp [hx, Ne.symm hx]

theorem isStored_modify (k : ℕ) {f : NodeObject → NodeObject} (hf : ∀ o, (f o).stored = o.stored)
    (x : ℕ) : isStored (h.modify k f) x = h.isStored x := by
  unfold isStored
  rw [List.getElem?_modify]
  cases h[x]? with
  | none => simp
  | some o =>
    by_cases hx : k = x
    · simp [hx, hf o]
    · simp [hx]

theorem node_modifyNode (k : ℕ) (g : Node → Node) (x : ℕ) :
    (h.modifyNode k g).node x = if x = k then (h.node x).map g else h.node x :=
  node_modify k (fun _ => rfl) x

theorem isStored_modifyNode (k : ℕ) (g : Node → Node) (x : ℕ) :
    (h.modifyNode k g).isStored x = h.isStored x :=
  isStored_modify k (f := fun o => { o with node := g o.node }) (fun _ => rfl) x

theorem sig_modifyNode (k : ℕ) {g : Node → Node} (hg : ∀ n, (g n).sig = n.sig) :
    (h.modifyNode k g).sig = h.sig := by
  funext x
  unfold sig
  rw [node_modifyNode]
  split_ifs
  · rw [Option.map_map]
    congr 1
    funext n
    exact hg n
  · rfl

/-- What becomes of the heap when node `k` replaces node `r`. -/
structure Replaced (h : NodeHeap) (k : ℕ) (gone : List ℕ) (h' : NodeHeap) : Prop where
  sig : h'.sig = h.sig
  node : ∀ x, x ≠ k → h'.node x = h.node x
  isStored : ∀ x, h'.isStored x = if x ∈ gone then false else h.isStored x
  keeps : ∀ x, h.UpAt k x → h'.UpAt k x
  takes : ∀ r ∈ gone, ∀ x, h.UpAt r x → (∃ a ∈ h.sig k, x ∈ a.keys) → h'.UpAt k x

theorem Replaced.refl (h : NodeHeap) (k : ℕ) : Replaced h k [] h :=
  ⟨rfl, fun _ _ => rfl, fun _ => by simp, fun _ hx => hx, nofun⟩

theorem Replaced.cons {k r : ℕ} {gone : List ℕ} {h₁ h₂ : NodeHeap} (hr : Replaced h k [r] h₁)
    (hrest : Replaced h₁ k gone h₂) : Replaced h k (r :: gone) h₂ := by
  refine ⟨hrest.sig.trans hr.sig, fun x hx => (hrest.node x hx).trans (hr.node x hx), ?_, ?_, ?_⟩
  · intro x
    rw [hrest.isStored, hr.isStored]
    by_cases hx : x = r
    · simp [hx]
    · simp [hx]
  · exact fun x hx => hrest.keeps x (hr.keeps x hx)
  · rw [List.forall_mem_cons]
    refine ⟨fun x hx hk => hrest.keeps x (hr.takes r (List.mem_singleton_self r) x hx hk), ?_⟩
    intro r' hr' x hx hk
    by_cases heq : r' = k
    · subst heq
      exact hrest.keeps x (hr.keeps x hx)
    · refine hrest.takes r' hr' x ?_ (by rw [hr.sig]; exact hk)
      obtain ⟨n, hn, hup⟩ := hx
      exact ⟨n, (hr.node r' heq).trans hn, hup⟩

theorem replaced_replace (now : Timeval) (k : ℕ) {r : ℕ} (hr : (h.node r).isSome) :
    Replaced h k [r] (h.replace now k r) := by
  obtain ⟨m, hm⟩ := Option.isSome_iff_exists.mp hr
  obtain ⟨old, hold, rfl⟩ := Option.map_eq_some_iff.mp hm
  have heq : h.replace now k r =
      ((h.modifyNode k fun n => n.takeUp now old.node.interfaces).setStored [r] false).modify k
        fun o => { o with nodeDescExch := old.nodeDescExch } := by
    unfold replace
    rw [hold]
  have hnode : ∀ x, (h.replace now k r).node x =
      if x = k then (h.node x).map fun n => n.takeUp now old.node.interfaces else h.node x := by
    intro x
    rw [heq, node_modify k (f := fun o => { o with nodeDescExch := old.nodeDescExch }) (g := id)
      fun _ => rfl, node_setStored, node_modifyNode]
    by_cases hx : x = k
    · simp [hx]
    · simp [hx]
  refine ⟨?_, ?_, ?_, ?_, ?_⟩
  · funext x
    unfold sig
    rw [hnode]
    split_ifs
    · rw [Option.map_map]
      congr 1
      funext n
      exact (Node.takeUp_spec now old.node.interfaces n).1
    · rfl
  · intro x hx
    rw [hnode, if_neg hx]
  · intro x
    rw [heq, isStored_modify k (f := fun o => { o with nodeDescExch := old.nodeDescExch })
      fun _ => rfl, isStored_setStored, isStored_modifyNode, Bool.false_and]
  · rintro x ⟨n, hn, hup⟩
    refine ⟨_, by rw [hnode, if_pos rfl, hn]; rfl, ?_⟩
    exact (Node.takeUp_spec now old.node.interfaces n).2.1 x hup
  · intro r' hr' x hx hk
    obtain rfl := List.mem_singleton.mp hr'
    obtain ⟨n, hn, i, hi, rfl, hup⟩ := hx
    obtain rfl : old.node = n := Option.some.inj (hm.symm.trans hn)
    obtain ⟨a, ha, hkey⟩ := hk
    obtain ⟨nk, hnk, rfl⟩ := Option.map_eq_some_iff.mp ha
    refine ⟨_, by rw [hnode, if_pos rfl, hnk]; rfl, ?_⟩
    exact (Node.takeUp_spec now old.node.interfaces nk).2.2 i hi (Node.hasInterface_iff.mpr hkey)
      hup

end Changes

end NodeHeap

namespace NodeStore

open NodeHeap

variable {s : NodeStore}

/-- No two records are equal or share an interface, and all are marked. -/
structure Wf (s : NodeStore) : Prop where
  distinct : s.records.Pairwise fun x y => s.heap.sameRef x y = false ∧ s.heap.shares x y = false
  marked : ∀ r ∈ s.records, s.heap.isStored r = true

/-- What becomes of the nodes that leave the store: their mark is taken off, and stays off while
they are out of it. -/
def Cleared (s s' : NodeStore) : Prop :=
  ∀ r, (s.heap.node r).isSome → r ∉ s'.records → r ∈ s.records ∨ s.heap.isStored r = false →
    s'.heap.isStored r = false

/-- What a call is to respect. -/
structure Proper (s : NodeStore) (call : Call) : Prop where
  wf : (s.step call).Wf
  cleared : s.Cleared (s.step call)
  transferred : ∀ now k, call = .update now k → ∀ r ∈ (s.update now k).2.1, ∀ x,
    s.heap.UpAt r x → (∃ a ∈ s.heap.sig k, x ∈ a.keys) → (s.step call).heap.UpAt k x

/-- A node is added only if it shares no interface with another one, and by a pointer only if it is
not there. A node that replaces others is equal to none of those that stay. -/
def Disciplined (s : NodeStore) : Call → Prop
  | .add k => (∀ r ∈ s.records, s.heap.sameRef r k = false) →
      ∀ r ∈ s.records, s.heap.shares r k = false
  | .addPtr k => (∀ r ∈ s.records, s.heap.sameNode r k = false) →
      k ∉ s.records ∧ ∀ r ∈ s.records, s.heap.shares r k = false
  | .update _ k => (∃ r ∈ s.records, s.heap.shares k r = true) →
      ∀ r ∈ s.records, s.heap.shares k r = false → s.heap.sameRef r k = false
  | _ => True

section Steps

theorem isSome_node_of_isStored {h : NodeHeap} {r : ℕ} (hr : h.isStored r = true) :
    (h.node r).isSome := by
  unfold NodeHeap.isStored at hr
  unfold NodeHeap.node
  cases hget : h[r]? with
  | none =>
    rw [hget] at hr
    cases hr
  | some o => rfl

theorem Wf.nodup (h : s.Wf) : s.records.Nodup := by
  apply h.distinct.imp_of_mem
  rintro x y hx - ⟨hne, -⟩ rfl
  simp [sameRef, isSome_node_of_isStored (h.marked x hx)] at hne

/-- A change of nodes that keeps what they are compared by and their marks. -/
theorem Wf.congr (h : s.Wf) {heap : NodeHeap} (hsig : heap.sig = s.heap.sig)
    (hstored : ∀ x, heap.isStored x = s.heap.isStored x) :
    Wf { s with heap := heap } ∧ s.Cleared { s with heap := heap } := by
  refine ⟨⟨?_, fun r hr => (hstored r).trans (h.marked r hr)⟩, ?_⟩
  · simp only
    rw [sameRef_congr hsig, shares_congr hsig]
    exact h.distinct
  · rintro r - hout (hin | hr)
    · exact absurd hin hout
    · exact (hstored r).trans hr

theorem sig_setStored (heap : NodeHeap) (refs : List ℕ) (b : Bool) :
    (heap.setStored refs b).sig = heap.sig := by
  unfold NodeHeap.sig
  rw [node_setStored]

/-- Some records are taken out. -/
theorem Wf.shrink (h : s.Wf) {kept gone : List ℕ} (hsub : kept.Sublist s.records)
    (hall : ∀ x ∈ s.records, x ∈ kept ∨ x ∈ gone) (hapart : ∀ x ∈ kept, x ∉ gone) :
    Wf ⟨s.heap.setStored gone false, kept⟩ ∧ s.Cleared ⟨s.heap.setStored gone false, kept⟩ := by
  have hsig := sig_setStored s.heap gone false
  refine ⟨⟨?_, fun r hr => ?_⟩, ?_⟩
  · simp only
    rw [sameRef_congr hsig, shares_congr hsig]
    exact h.distinct.sublist hsub
  · rw [isStored_setStored, if_neg (hapart r hr)]
    exact h.marked r (hsub.subset hr)
  · intro r _ hout hr
    rw [isStored_setStored]
    split_ifs with hgone
    · rfl
    · rcases hr with hin | hr
      · rcases hall r hin with hkept | hgone'
        · exact absurd hkept hout
        · exact absurd hgone' hgone
      · exact hr

theorem Wf.removeFirst (h : s.Wf) (p : ℕ → Bool) :
    (s.removeFirst p).2.Wf ∧ s.Cleared (s.removeFirst p).2 := by
  unfold NodeStore.removeFirst
  cases hfind : s.records.find? p with
  | none => exact h.congr rfl fun _ => rfl
  | some r =>
    obtain ⟨hp, l₁, l₂, hl, hl₁⟩ := List.find?_eq_some_iff_append.mp hfind
    have herase : s.records.eraseP p = l₁ ++ l₂ := by
      rw [hl, List.eraseP_append_right _ fun b hb => by simpa using hl₁ b hb,
        List.eraseP_cons_of_pos hp]
    have hnodup := h.nodup
    rw [hl] at hnodup
    refine h.shrink List.eraseP_sublist ?_ ?_
    · rw [hl, ← hl, herase]
      intro x hx
      rw [hl] at hx
      simp only [List.mem_append, List.mem_cons, List.not_mem_nil, or_false] at hx ⊢
      tauto
    · rw [herase]
      intro x hx hxr
      rw [List.mem_singleton.mp hxr] at hx
      exact (List.nodup_middle.mp hnodup |> List.nodup_cons.mp).1 hx

theorem Wf.removeType (h : s.Wf) (type : NodeType) :
    (s.removeType type).2.Wf ∧ s.Cleared (s.removeType type).2 := by
  refine h.shrink List.filter_sublist (fun x hx => ?_) fun x hkept hgone => ?_
  · by_cases htype : ((s.heap.node x).any fun n => n.type = type) = true
    · exact .inr (List.mem_filter.mpr ⟨hx, htype⟩)
    · exact .inl (List.mem_filter.mpr ⟨hx, by simpa using htype⟩)
  · have hno := (List.mem_filter.mp hkept).2
    have hyes := (List.mem_filter.mp hgone).2
    simp only [hyes] at hno
    cases hno

/-- A node that is put at the end keeps the store in order just if it is equal to no other one and
shares no interface. -/
theorem wf_append_iff {heap : NodeHeap} {records : List ℕ} {k : ℕ} (h : Wf ⟨heap, records⟩)
    (hk : (heap.node k).isSome) : Wf ⟨heap.setStored [k] true, records ++ [k]⟩ ↔
      ∀ r ∈ records, heap.sameRef r k = false ∧ heap.shares r k = false := by
  have hsig := sig_setStored heap [k] true
  have hpair : (records ++ [k]).Pairwise (fun x y => (heap.setStored [k] true).sameRef x y = false ∧
      (heap.setStored [k] true).shares x y = false) ↔
        ∀ r ∈ records, heap.sameRef r k = false ∧ heap.shares r k = false := by
    rw [sameRef_congr hsig, shares_congr hsig, List.pairwise_append]
    constructor
    · exact fun hp r hr => hp.2.2 r hr k (List.mem_singleton_self k)
    · refine fun hp => ⟨h.distinct, List.pairwise_singleton _ _, fun r hr y hy => ?_⟩
      rw [List.mem_singleton.mp hy]
      exact hp r hr
  rw [← hpair]
  refine ⟨fun hwf => hwf.distinct, fun hp => ⟨hp, fun r hr => ?_⟩⟩
  rw [isStored_setStored]
  split_ifs with hrk
  · rw [List.mem_singleton.mp hrk, hk]
    rfl
  · rcases List.mem_append.mp hr with hr | hr
    · exact h.marked r hr
    · exact absurd hr hrk

theorem Wf.addWith (h : s.Wf) (same : ℕ → ℕ → Bool) (k : ℕ) :
    s.Cleared (s.addWith same k).2 ∧ ((s.addWith same k).2.Wf ↔ ((s.heap.node k).isSome →
      (∀ r ∈ s.records, same r k = false) →
        ∀ r ∈ s.records, s.heap.sameRef r k = false ∧ s.heap.shares r k = false)) := by
  unfold NodeStore.addWith
  split_ifs with hrefused
  · refine ⟨(h.congr rfl fun _ => rfl).2, iff_of_true h fun hk hnot => ?_⟩
    rcases Bool.or_eq_true _ _ ▸ hrefused with hnone | hany
    · rw [Option.isNone_iff_eq_none.mp hnone] at hk
      cases hk
    · obtain ⟨r, hr, hsame⟩ := List.any_eq_true.mp hany
      rw [hnot r hr] at hsame
      cases hsame
  · rw [Bool.or_eq_true, not_or, Bool.not_eq_true, Bool.not_eq_true, List.any_eq_false] at hrefused
    have hk : (s.heap.node k).isSome := by simpa using hrefused.1
    refine ⟨fun r _ hout hr => ?_, ?_⟩
    · rw [List.mem_append, not_or] at hout
      rw [isStored_setStored, if_neg hout.2]
      exact hr.resolve_left hout.1
    · rw [wf_append_iff h hk]
      refine ⟨fun hall _ _ => hall, fun hall => hall hk fun r hr => ?_⟩
      simpa using hrefused.2 r hr

theorem updateRecords_spec (now : Timeval) (k : ℕ) (records : List ℕ) (h : NodeHeap) :
    Replaced h k (updateRecords now k h records).2.2 (updateRecords now k h records).1 ∧
      (updateRecords now k h records).2.1 = records.filter (fun r => !h.shares k r) ∧
        (updateRecords now k h records).2.2 = records.filter (h.shares k ·) := by
  induction records generalizing h with
  | nil => exact ⟨.refl h k, rfl, rfl⟩
  | cons r l ih =>
    unfold updateRecords
    by_cases hr : h.shares k r = true
    · have hsome : (h.node r).isSome := by
        obtain ⟨a, b, -, hb, -⟩ := shares_iff.mp hr
        rw [← isSome_sig, hb]
        rfl
      have hreplaced := replaced_replace now k hsome
      obtain ⟨hrest, hkept, hnl⟩ := ih (h.replace now k r)
      rw [if_pos hr, List.filter_cons_of_pos hr, List.filter_cons_of_neg (by simp [hr])]
      rw [shares_congr hreplaced.sig] at hkept hnl
      exact ⟨hreplaced.cons hrest, hkept, congrArg (r :: ·) hnl⟩
    · obtain ⟨hrest, hkept, hnl⟩ := ih h
      rw [if_neg hr, List.filter_cons_of_neg hr, List.filter_cons_of_pos (by simp [hr])]
      exact ⟨hrest, congrArg (r :: ·) hkept, hnl⟩

/-- What `update` does when it finds a record that shares an interface with the node. -/
theorem update_of_shares (now : Timeval) {k : ℕ}
    (hfound : ∃ r ∈ s.records, s.heap.shares k r = true) :
    ∃ heap, Replaced s.heap k (s.records.filter (s.heap.shares k ·)) heap ∧ s.update now k =
      (true, s.records.filter (s.heap.shares k ·),
        ⟨heap.setStored [k] true, s.records.filter (fun r => !s.heap.shares k r) ++ [k]⟩) := by
  obtain ⟨hreplaced, hkept, hnl⟩ := updateRecords_spec now k s.records s.heap
  rw [hnl] at hreplaced
  refine ⟨_, hreplaced, ?_⟩
  have hne : (updateRecords now k s.heap s.records).2.2.isEmpty = false := by
    obtain ⟨r, hr, hshares⟩ := hfound
    rw [hnl, List.isEmpty_eq_false_iff]
    exact List.ne_nil_of_mem (List.mem_filter.mpr ⟨hr, hshares⟩)
  unfold update
  simp only [hne]
  rw [hnl, hkept]
  rfl

theorem update_of_not_shares (now : Timeval) {k : ℕ}
    (hnone : ∀ r ∈ s.records, s.heap.shares k r = false) : s.update now k = (false, [], s) := by
  obtain ⟨-, -, hnl⟩ := updateRecords_spec now k s.records s.heap
  have hempty : s.records.filter (s.heap.shares k ·) = [] := by
    apply List.filter_eq_nil_iff.mpr
    intro r hr
    simp [hnone r hr]
  unfold update
  simp only [hnl, hempty]
  rfl

end Steps

section Runs

theorem Wf.proper_update_iff (h : s.Wf) (now : Timeval) (k : ℕ) :
    s.Proper (.update now k) ↔ s.Disciplined (.update now k) := by
  by_cases hfound : ∃ r ∈ s.records, s.heap.shares k r = true
  · obtain ⟨heap, hreplaced, heq⟩ := update_of_shares now hfound
    have hk : (heap.node k).isSome := by
      obtain ⟨r, -, hr⟩ := hfound
      obtain ⟨a, b, ha, -⟩ := shares_iff.mp hr
      rw [← isSome_sig, hreplaced.sig, ha]
      rfl
    have hkept : Wf ⟨heap, s.records.filter fun r => !s.heap.shares k r⟩ := by
      refine ⟨?_, fun r hr => ?_⟩
      · simp only
        rw [sameRef_congr hreplaced.sig, shares_congr hreplaced.sig]
        exact h.distinct.sublist List.filter_sublist
      · obtain ⟨hr, hnot⟩ := List.mem_filter.mp hr
        rw [hreplaced.isStored, if_neg]
        · exact h.marked r hr
        · intro hin
          rw [(List.mem_filter.mp hin).2] at hnot
          cases hnot
    have hwf : (s.step (.update now k)).Wf ↔ s.Disciplined (.update now k) := by
      simp only [step, heq, Disciplined]
      rw [wf_append_iff hkept hk, sameRef_congr hreplaced.sig, shares_congr hreplaced.sig]
      constructor
      · exact fun hall _ r hr hno => (hall r (List.mem_filter.mpr ⟨hr, by simp [hno]⟩)).1
      · intro hall r hr
        obtain ⟨hr, hno⟩ := List.mem_filter.mp hr
        have hno : s.heap.shares k r = false := by simpa using hno
        exact ⟨hall hfound r hr hno, by rw [shares_symm]; exact hno⟩
    refine ⟨fun hp => hwf.mp hp.wf, fun hd => ⟨hwf.mpr hd, ?_, ?_⟩⟩
    · intro r _ hout hr
      simp only [step, heq] at hout ⊢
      rw [List.mem_append, not_or, List.mem_filter] at hout
      rw [isStored_setStored, if_neg hout.2, hreplaced.isStored]
      split_ifs with hgone
      · rfl
      · rcases hr with hin | hr
        · exact absurd ⟨hin, by simpa [hin] using hgone⟩ hout.1
        · exact hr
    · rintro now' k' ⟨rfl, rfl⟩ r hr x hx hk'
      rw [heq] at hr
      obtain ⟨n, hn, hup⟩ := hreplaced.takes r hr x hx hk'
      refine ⟨n, ?_, hup⟩
      simp only [step, heq]
      rw [node_setStored]
      exact hn
  · have hnone : ∀ r ∈ s.records, s.heap.shares k r = false := by
      intro r hr
      by_contra hne
      exact hfound ⟨r, hr, by simpa using hne⟩
    have heq := update_of_not_shares now hnone
    refine iff_of_true ⟨?_, ?_, ?_⟩ fun h => absurd h hfound
    · simp only [step, heq]
      exact h
    · simp only [step, heq]
      exact (h.congr rfl fun _ => rfl).2
    · rintro now' k' ⟨rfl, rfl⟩ r hr
      rw [heq] at hr
      cases hr

theorem proper_of_step {call : Call} (h : (s.step call).Wf ∧ s.Cleared (s.step call))
    (hcall : ∀ now k, call ≠ .update now k) : s.Proper call :=
  ⟨h.1, h.2, fun now k hc => absurd hc (hcall now k)⟩

theorem Wf.proper_add_iff (h : s.Wf) (k : ℕ) : s.Proper (.add k) ↔ s.Disciplined (.add k) := by
  obtain ⟨hcleared, hwf⟩ := h.addWith s.heap.sameRef k
  have hiff : (s.step (.add k)).Wf ↔ s.Disciplined (.add k) := by
    refine hwf.trans ⟨fun hall hnot r hr => ?_, fun hall _ hnot r hr => ⟨hnot r hr, hall hnot r hr⟩⟩
    by_cases hk : (s.heap.node k).isSome = true
    · exact (hall hk hnot r hr).2
    · rw [Bool.eq_false_iff, Ne, shares_symm, shares_iff]
      rintro ⟨a, b, ha, -⟩
      rw [← isSome_sig, ha] at hk
      exact hk rfl
  exact ⟨fun hp => hiff.mp hp.wf, fun hd =>
    proper_of_step ⟨hiff.mpr hd, hcleared⟩ fun now k => by simp⟩

theorem Wf.proper_addPtr_iff (h : s.Wf) (k : ℕ) :
    s.Proper (.addPtr k) ↔ s.Disciplined (.addPtr k) := by
  obtain ⟨hcleared, hwf⟩ := h.addWith s.heap.sameNode k
  have hiff : (s.step (.addPtr k)).Wf ↔ s.Disciplined (.addPtr k) := by
    refine hwf.trans ⟨fun hall hnot => ?_, fun hall hk hnot r hr => ?_⟩
    · by_cases hk : (s.heap.node k).isSome = true
      · refine ⟨fun hin => ?_, fun r hr => (hall hk hnot r hr).2⟩
        have hself := (hall hk hnot k hin).1
        simp [sameRef, hk] at hself
      · refine ⟨fun hin => hk (isSome_node_of_isStored (h.marked k hin)), fun r hr => ?_⟩
        rw [Bool.eq_false_iff, Ne, shares_symm, shares_iff]
        rintro ⟨a, b, ha, -⟩
        rw [← isSome_sig, ha] at hk
        exact hk rfl
    · obtain ⟨hout, hshares⟩ := hall hnot
      have hne : r ≠ k := by
        rintro rfl
        exact hout hr
      exact ⟨by simp [sameRef, hne, hnot r hr], hshares r hr⟩
  exact ⟨fun hp => hiff.mp hp.wf, fun hd =>
    proper_of_step ⟨hiff.mpr hd, hcleared⟩ fun now k => by simp⟩

theorem Wf.create (h : s.Wf) (o : NodeObject) :
    (s.step (.create o)).Wf ∧ s.Cleared (s.step (.create o)) := by
  have hsig : ∀ x, (s.heap.node x).isSome → (s.step (.create o)).heap.sig x = s.heap.sig x :=
    fun x hx => congrArg (Option.map Node.sig) (node_append hx o)
  refine ⟨⟨?_, fun r hr => ?_⟩, ?_⟩
  · apply h.distinct.imp_of_mem
    rintro x y hx hy ⟨hsame, hshares⟩
    have hx' := isSome_node_of_isStored (h.marked x hx)
    have hy' := isSome_node_of_isStored (h.marked y hy)
    refine ⟨?_, ?_⟩
    · rw [← hsame]
      unfold sameRef
      congr 1
      · rw [← isSome_sig, ← isSome_sig, hsig x hx']
      · rw [Bool.eq_iff_iff, sameNode_iff, sameNode_iff, hsig x hx', hsig y hy']
    · rw [← hshares, Bool.eq_iff_iff, shares_iff, shares_iff, hsig x hx', hsig y hy']
  · have hr' := isSome_node_of_isStored (h.marked r hr)
    exact (isStored_append hr' o).trans (h.marked r hr)
  · rintro r hr hout (hin | hnot)
    · exact absurd hin hout
    · exact (isStored_append hr o).trans hnot

/-- In a store that is in order the disciplined calls are just the proper ones. -/
theorem Wf.proper_iff (h : s.Wf) (call : Call) : s.Proper call ↔ s.Disciplined call := by
  cases call with
  | add k => exact h.proper_add_iff k
  | addPtr k => exact h.proper_addPtr_iff k
  | update now k => exact h.proper_update_iff now k
  | create o => exact iff_of_true (proper_of_step (h.create o) fun now k => by simp) trivial
  | setInterfaceUp now k i =>
    have hsig := sig_modifyNode (h := s.heap) k (Node.sig_setInterfaceUp now · i)
    have hstep := h.congr hsig (isStored_modifyNode k (·.setInterfaceUp now i))
    exact iff_of_true (proper_of_step hstep fun now k => by simp) trivial
  | setInterfaceDown now k i =>
    have hsig := sig_modifyNode (h := s.heap) k (Node.sig_setInterfaceDown now · i)
    have hstep := h.congr hsig (isStored_modifyNode k (·.setInterfaceDown now i))
    exact iff_of_true (proper_of_step hstep fun now k => by simp) trivial
  | removeInterface i =>
    exact iff_of_true (proper_of_step (h.removeFirst _) fun now k => by simp) trivial
  | remove k =>
    exact iff_of_true (proper_of_step (h.removeFirst _) fun now k => by simp) trivial
  | removeType type =>
    exact iff_of_true (proper_of_step (h.removeType type) fun now k => by simp) trivial

/-- A sequence of calls respects the store throughout just if it is disciplined. -/
theorem proper_calls_iff (calls : List Call) :
    Trace.Guarded step Proper empty calls ↔ Trace.Guarded step Disciplined empty calls := by
  apply @Trace.guarded_congr _ _ step _ _ Wf
  · exact fun s call h => h.proper_iff call
  · exact fun s call h hd => ((h.proper_iff call).mpr hd).wf
  · exact ⟨List.Pairwise.nil, nofun⟩

end Runs

end NodeStore

namespace Sample

open NodeStore

def wlanOf (b : UInt8) : Interface := ⟨.wifi, List.replicate 6 b, [], true⟩

/-- A node with an identifier of equal bytes, and an object for it. -/
def plainNode (type : NodeType) (b : UInt8) (interfaces : List Interface) : Node :=
  ⟨type, .fill b, [], HashMap.empty, interfaces, ⟨0, 0⟩, 0, 0,
    ⟨false, []⟩⟩

def newNode (type : NodeType) (b : UInt8) (interfaces : List Interface) : Call :=
  .create ⟨plainNode type b interfaces, false, false⟩

/-- A peer that is known by one interface is found by another one, and then sends a description that
lists that one only. -/
def describedAgain : List Call :=
  [newNode .peer 1 [wlanOf 1], .add 0, newNode .undefined 0 [wlanOf 2], .add 1,
    newNode .peer 1 [wlanOf 2], .update ⟨0, 0⟩ 2]

/-- Two peers with the same interface. -/
def sharedInterface : List Call :=
  [newNode .peer 1 [wlanOf 1], .add 0, newNode .peer 2 [wlanOf 1], .add 1]

theorem not_proper_nodes :
    ((Trace.run step empty describedAgain).records = [0, 2] ∧
      (Trace.run step empty describedAgain).heap.sameNode 0 2 = true ∧
      ¬ (Trace.run step empty describedAgain).Wf) ∧
    (Trace.run step empty sharedInterface).records = [0, 1] ∧
      (Trace.run step empty sharedInterface).heap.shares 0 1 = true ∧
      ¬ (Trace.run step empty sharedInterface).Wf := by
  have htwo : (Trace.run step empty describedAgain).records = [0, 2] := by decide
  have hsame : (Trace.run step empty describedAgain).heap.sameRef 0 2 = true := by decide
  have hboth : (Trace.run step empty sharedInterface).records = [0, 1] := by decide
  have hshares : (Trace.run step empty sharedInterface).heap.shares 0 1 = true := by decide
  refine ⟨⟨htwo, by decide, fun hwf => ?_⟩, hboth, hshares, fun hwf => ?_⟩
  · have hdistinct := hwf.distinct
    rw [htwo, List.pairwise_pair, hsame] at hdistinct
    cases hdistinct.1
  · have hdistinct := hwf.distinct
    rw [hboth, List.pairwise_pair, hshares] at hdistinct
    cases hdistinct.2

end Sample
end Haggle
