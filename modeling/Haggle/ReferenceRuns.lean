import Haggle.ReferenceDeletion

/-!
# Runs of reference counting

References and counters agree behind whatever threads do, as long as the second look at the source
of a copy or an assignment finds what the first one has counted.
-/

namespace Haggle
namespace ReferenceCounting

section Beginning

variable {s s' : State} {o : Obj} {c : Counter} {x : Reference}

/-- An object is allocated where none is. -/
theorem Lives.allocate (h : Lives s) {address : ℕ} (ho : o ∉ s.allocated) (hd : o ∉ s.deleted)
    (haddr : ∀ o' ∈ s.allocated, s.addr o' ≠ address) :
    Lives { s with allocated := o :: s.allocated, addr := Function.update s.addr o address } := by
  have hother : ∀ o' ∈ s.allocated, Function.update s.addr o address o' = s.addr o' := fun o' ho' =>
    Function.update_of_ne (ne_of_mem_of_not_mem ho' ho) _ _
  refine ⟨h.fresh, ?_, h.shared, ?_, ?_, h.endings, ?_, List.nodup_cons.mpr ⟨ho, h.allocated⟩, ?_,
    ?_, h.accounted⟩
  · intro c k hk
    obtain ⟨ha, hr⟩ := h.obj c k hk
    exact ⟨List.mem_cons_of_mem o ha, hr⟩
  · intro c k hk hne
    refine (congrArg s.objects ?_).trans (h.listed c k hk hne)
    exact hother _ (h.obj c k hk).1
  · intro a c hac
    obtain ⟨⟨k, hk, hka⟩, hfree⟩ := h.table a c hac
    exact ⟨⟨k, hk, (hother _ (h.obj c k hk).1).trans hka⟩, hfree⟩
  · intro o₁ ho₁ o₂ ho₂ heq
    change Function.update s.addr o address o₁ = Function.update s.addr o address o₂ at heq
    rcases List.mem_cons.mp ho₁ with h₁ | hm₁ <;> rcases List.mem_cons.mp ho₂ with h₂ | hm₂
    · exact h₁.trans h₂.symm
    · subst h₁
      rw [hother o₂ hm₂, Function.update_self] at heq
      exact absurd heq.symm (haddr o₂ hm₂)
    · subst h₂
      rw [hother o₁ hm₁, Function.update_self] at heq
      exact absurd heq (haddr o₁ hm₁)
    · rw [hother o₁ hm₁, hother o₂ hm₂] at heq
      exact h.addrs o₁ hm₁ o₂ hm₂ heq
  · refine ⟨h.deleted.1, fun o' ho' hmem => ?_⟩
    rcases List.mem_cons.mp hmem with rfl | hmem
    · exact hd ho'
    · exact h.deleted.2 o' ho' hmem
  · intro o'
    obtain ⟨hle, hmem⟩ := h.deletions o'
    exact ⟨hle, fun hpos => ⟨List.mem_cons_of_mem o (hmem hpos).1, (hmem hpos).2⟩⟩

/-- The first reference to an object comes with a new counter. -/
theorem Lives.created (h : Lives s) (ho : o ∈ s.allocated) (hnew : o ∉ s.referenced)
    (refs : List Reference) :
    Lives { s with
      counters := Function.update s.counters s.totNum (some ⟨1, o⟩)
      objects := Function.update s.objects (s.addr o) (some s.totNum)
      totNum := s.totNum + 1
      referenced := o :: s.referenced
      refs := refs } := by
  have hnone := h.fresh s.totNum (Nat.le_refl _)
  have hending : ending s s.totNum = 0 := by
    rw [h.endings, hnone, Option.elim_none]
  have hold : ∀ c k, s.counters c = some k → c ≠ s.totNum ∧ k.obj ≠ o ∧
      s.addr k.obj ≠ s.addr o := by
    intro c k hk
    obtain ⟨ha, hr, -⟩ := h.obj c k hk
    have hobj : k.obj ≠ o := fun heq => hnew (heq ▸ hr)
    refine ⟨?_, hobj, fun heq => hobj (h.addrs _ ha o ho heq)⟩
    rintro rfl
    rw [hnone] at hk
    cases hk
  have hback : ∀ c k, Function.update s.counters s.totNum (some ⟨1, o⟩) c = some k →
      (c = s.totNum ∧ k = ⟨1, o⟩) ∨ s.counters c = some k := by
    intro c k hk
    rw [Function.update_apply] at hk
    split_ifs at hk with hc
    · exact Or.inl ⟨hc, (Option.some.inj hk).symm⟩
    · exact Or.inr hk
  have hforth : ∀ c k, s.counters c = some k →
      Function.update s.counters s.totNum (some ⟨1, o⟩) c = some k := fun c k hk =>
    (Function.update_of_ne (hold c k hk).1 _ _).trans hk
  have hdealloc : deallocating s o = 0 :=
    Nat.eq_zero_of_not_pos fun hpos => hnew ((h.deletions o).2 hpos).2
  refine ⟨?_, ?_, ?_, ?_, ?_, ?_, h.addrs, h.allocated, h.deleted, ?_, ?_⟩
  · intro c hc
    change s.totNum + 1 ≤ c at hc
    exact (Function.update_of_ne (show c ≠ s.totNum by omega) _ _).trans (h.fresh c (by omega))
  · intro c k hk
    rcases hback c k hk with ⟨-, rfl⟩ | hk
    · exact ⟨ho, List.mem_cons_self, hdealloc⟩
    · obtain ⟨ha, hr, hd⟩ := h.obj c k hk
      exact ⟨ha, List.mem_cons_of_mem o hr, hd⟩
  · intro c₁ c₂ k₁ k₂ h₁ h₂ heq
    rcases hback c₁ k₁ h₁ with ⟨hc₁, rfl⟩ | h₁ <;> rcases hback c₂ k₂ h₂ with ⟨hc₂, rfl⟩ | h₂
    · rw [hc₁, hc₂]
    · exact absurd heq.symm (hold c₂ k₂ h₂).2.1
    · exact absurd heq (hold c₁ k₁ h₁).2.1
    · exact h.shared c₁ c₂ k₁ k₂ h₁ h₂ heq
  · intro c k hk hne
    rcases hback c k hk with ⟨rfl, rfl⟩ | hk
    · exact Function.update_self _ _ _
    · exact (Function.update_of_ne (hold c k hk).2.2 _ _).trans (h.listed c k hk hne)
  · intro a c hac
    change Function.update s.objects (s.addr o) (some s.totNum) a = some c at hac
    by_cases ha : a = s.addr o
    · rw [ha, Function.update_self] at hac
      obtain rfl := Option.some.inj hac
      subst ha
      exact ⟨⟨_, Function.update_self _ _ _, rfl⟩, (Nat.add_eq_zero_iff.mp hending).2⟩
    · rw [Function.update_of_ne ha] at hac
      obtain ⟨⟨k, hk, hka⟩, hfree⟩ := h.table a c hac
      exact ⟨⟨k, hforth c k hk, hka⟩, hfree⟩
  · intro c
    change ending s c = (Function.update s.counters s.totNum (some ⟨1, o⟩) c).elim 0 _
    by_cases hc : c = s.totNum
    · rw [hc, hending, Function.update_self]
      rfl
    · rw [Function.update_of_ne hc]
      exact h.endings c
  · intro o'
    obtain ⟨hle, hmem⟩ := h.deletions o'
    exact ⟨hle, fun hpos => ⟨(hmem hpos).1, List.mem_cons_of_mem o (hmem hpos).2⟩⟩
  · intro o' ho'
    rcases List.mem_cons.mp ho' with rfl | ho'
    · exact Or.inl ⟨s.totNum, ⟨1, o'⟩, Function.update_self _ _ _, rfl⟩
    · refine (h.accounted o' ho').imp_left ?_
      rintro ⟨c, k, hk, hobj⟩
      exact ⟨c, k, hforth c k hk, hobj⟩

/-- A reference is made, as a part of an object that is not being destroyed or of none. -/
theorem Enclosed.cons (h : Enclosed s) (hthreads : s'.threads = s.threads)
    (hrefs : s'.refs = x :: s.refs) (hhome : ∀ o ∈ x.home, .dealloc o ∉ s.threads.frames) :
    Enclosed s' := by
  intro l hl pre o post heq y hy hyo
  rw [hthreads] at hl
  rw [hrefs] at hy
  rcases List.mem_cons.mp hy with rfl | hy
  · refine absurd ?_ (hhome o hyo)
    exact List.mem_flatten.mpr ⟨l, hl, heq ▸ List.mem_append_right _ List.mem_cons_self⟩
  · exact h l hl pre o post heq y hy hyo

theorem Enclosed.push (h : Enclosed s) {i : ℕ} {f : Frame} (hf : ∀ o, f ≠ .dealloc o) :
    Enclosed { s with threads := s.threads.push i [f] } := by
  intro l hl pre o post heq y hy hyo
  rcases Pool.mem_push hl with hl | ⟨k, hk, rfl⟩
  · exact h l hl pre o post heq y hy hyo
  · cases pre with
    | nil => exact absurd (List.cons.inj heq).1 (hf o)
    | cons g pre =>
      have hold := h k hk pre o post (List.cons.inj heq).2 y hy hyo
      exact hold.imp (List.mem_cons_of_mem g) (List.mem_cons_of_mem g)

theorem Owned.cons (h : Owned s) (hx : ∀ y ∈ s.refs, y.name ≠ x.name) (hlive : x.live = true)
    (hthreads : s'.threads = s.threads) (hrefs : s'.refs = x :: s.refs) : Owned s' where
  names := by
    rw [hrefs, List.map_cons, List.nodup_cons]
    refine ⟨fun hmem => ?_, h.names⟩
    obtain ⟨y, hy, heq⟩ := List.mem_map.mp hmem
    exact hx y hy heq
  owners r := by
    have hpending : x.pending r = false := by
      rw [Reference.pending, hlive, Bool.not_true, Bool.and_false]
    rw [hthreads, hrefs, List.countP_cons, hpending]
    exact h.owners r

theorem live_cons (hthreads : s'.threads = s.threads) (hrefs : s'.refs = x :: s.refs)
    (c : Counter) :
    live s' c = live s c + if x.countsFor c then 1 else 0 := by
  rw [live, live, hthreads, hrefs, List.countP_cons]
  omega

end Beginning

section Operations

variable {s : State} {i r : ℕ} {home : Option Obj} {junk : Option Counter}

/-- An object with a reference is found in the table, with the counter that its references have. -/
theorem Inv.exists_counter {o : Obj} (h : Inv s) {x : Reference} (hx : x ∈ s.refs)
    (hrefers : s.refersTo x o = true) : ∃ c k, s.counters c = some k ∧ k.obj = o ∧
      k.refcount ≠ 0 ∧ s.objects (s.addr o) = some c := by
  rw [State.refersTo, Bool.and_eq_true, decide_eq_true_eq, Option.map_eq_some_iff] at hrefers
  obtain ⟨hlive, k, hk, hobj⟩ := hrefers
  obtain ⟨c, hc, hk⟩ := Option.bind_eq_some_iff.mp hk
  obtain ⟨k', hk', h0⟩ := h.counted.exists_counter hx hlive hc
  obtain rfl := Option.some.inj (hk.symm.trans hk')
  exact ⟨c, k, hk, hobj, h0, hobj ▸ h.lives.listed c k hk h0⟩

theorem Inv.construct {o : Option Obj} (h : Inv s) (hroom : Room s r home) (ho : Referable s o) :
    Inv (step s (.construct r home o)) := by
  have howned : ∀ (s' : State) c, s'.threads = s.threads → s'.refs = ⟨r, home, c, true⟩ :: s.refs →
      Owned s' := fun s' c hthreads hrefs => h.owned.cons hroom.1 rfl hthreads hrefs
  have henclosed : ∀ (s' : State) c, s'.threads = s.threads →
      s'.refs = ⟨r, home, c, true⟩ :: s.refs → Enclosed s' := fun s' c hthreads hrefs =>
    h.enclosed.cons hthreads hrefs fun o ho => (hroom.2 o ho).2
  have hlive : ∀ (s' : State) c c', s'.threads = s.threads →
      s'.refs = ⟨r, home, some c, true⟩ :: s.refs →
      live s' c' = live s c' + if c' = c then 1 else 0 := by
    intro s' c c' hthreads hrefs
    rw [live_cons hthreads hrefs]
    simp [Reference.countsFor, eq_comm]
  cases o with
  | none =>
    refine ⟨howned _ none rfl rfl, fun c => ?_, ?_, henclosed _ none rfl rfl⟩
    · have hcons := @live_cons s (step s (.construct r home none)) _ rfl rfl c
      exact hcons.trans (h.counted c)
    · exact h.lives.kept ⟨rfl, rfl, rfl, rfl, rfl, rfl, fun _ => rfl, fun _ _ => rfl⟩
  | some o =>
    obtain ⟨ha, hreferenced⟩ := ho o rfl
    cases hc : s.objects (s.addr o) with
    | some c =>
      -- the object that the table has at the address is the one that is there now
      obtain ⟨⟨k, hk, haddr⟩, -⟩ := h.lives.table _ c hc
      obtain ⟨hka, hkr, -⟩ := h.lives.obj c k hk
      obtain rfl := h.lives.addrs _ hka o ha haddr
      obtain ⟨x, hx, hrefers⟩ := hreferenced hkr
      obtain ⟨c', k', hk', -, h0, hc'⟩ := h.exists_counter hx hrefers
      obtain rfl := Option.some.inj (hc.symm.trans hc')
      obtain rfl := Option.some.inj (hk.symm.trans hk')
      have hstep : step s (.construct r home (some k.obj)) =
          { setCounter c (some { k with refcount := k.refcount + 1 }) s with
            refs := ⟨r, home, some c, true⟩ :: s.refs } := by
        simp only [step, create, hc, hk, if_neg h0, incCount]
        rfl
      rw [hstep]
      refine ⟨howned _ (some c) rfl rfl, fun c' => ?_, ?_, henclosed _ (some c) rfl rfl⟩
      · refine (hlive _ c c' ?_ ?_).trans (Eq.trans ?_ (elim_setCounter c' _).symm)
        · rfl
        · rfl
        · rw [h.counted c']
          split_ifs with heq
          · rw [heq, hk, Option.elim_some]
          · rfl
      · refine h.lives.kept (kept_setCounter hk ?_ ?_ (fun _ _ => rfl) rfl)
        · rfl
        · exact iff_of_false (Nat.succ_ne_zero _) h0
    | none =>
      have hnew : o ∉ s.referenced := by
        intro hmem
        obtain ⟨x, hx, hrefers⟩ := hreferenced hmem
        obtain ⟨c, k, -, -, -, hc'⟩ := h.exists_counter hx hrefers
        rw [hc] at hc'
        cases hc'
      have hstep : step s (.construct r home (some o)) = { s with
          counters := Function.update s.counters s.totNum (some ⟨1, o⟩)
          objects := Function.update s.objects (s.addr o) (some s.totNum)
          totNum := s.totNum + 1
          referenced := o :: s.referenced
          refs := ⟨r, home, some s.totNum, true⟩ :: s.refs } := by
        simp only [step, create, hc]
      rw [hstep]
      refine ⟨howned _ (some s.totNum) rfl rfl, fun c' => ?_, h.lives.created ha hnew _,
        henclosed _ (some s.totNum) rfl rfl⟩
      refine (hlive _ s.totNum c' ?_ ?_).trans ?_
      · rfl
      · rfl
      · change _ = (Function.update s.counters s.totNum (some ⟨1, o⟩) c').elim 0 RefCounter.refcount
        rw [h.counted c', Function.update_apply]
        split_ifs with heq
        · rw [heq, h.lives.fresh s.totNum (Nat.le_refl _)]
          rfl
        · rfl

/-- A thread begins with an operation that has counted nothing yet. -/
theorem Inv.push (h : Inv s) (hi : i < s.threads.length) {f : Frame}
    (howns : ∀ r, f.owns r = false) (hcounted : f.counted = none) (hend : f.isEnd = false)
    (hdealloc : ∀ o, f ≠ .dealloc o) : Inv { s with threads := s.threads.push i [f] } := by
  have hcount : ∀ q : Frame → Bool, (s.threads.push i [f]).frames.countP q =
      s.threads.frames.countP q + if q f then 1 else 0 := by
    intro q
    rw [Pool.countP_push hi, List.countP_singleton]
  refine ⟨⟨h.owned.names, fun r => ?_⟩, fun c => ?_, ?_, h.enclosed.push hdealloc⟩
  · rw [hcount, howns r]
    exact h.owned.owners r
  · refine Eq.trans ?_ (h.counted c)
    rw [live, live, hcount, countsFor_none f c hcounted, Nat.add_zero]
  · refine h.lives.kept ⟨rfl, rfl, rfl, rfl, rfl, rfl, fun _ => rfl, fun g hg => ?_⟩
    have hne : f ≠ g := by
      rintro rfl
      rw [hend] at hg
      cases hg
    refine (Pool.count_push hi [f] g).trans ?_
    rw [List.count_singleton, if_neg (by simpa using hne), Nat.add_zero]

/-- A copy begins with storage that holds no reference yet. -/
theorem Inv.copy (h : Inv s) (hi : i < s.threads.length) (hroom : Room s r home) (src : ℕ) :
    Inv (step s (.copy i r home src)) := by
  have hcount : ∀ q : Frame → Bool, (s.threads.push i [.copyCount r src]).frames.countP q =
      s.threads.frames.countP q + if q (.copyCount r src) then 1 else 0 := by
    intro q
    rw [Pool.countP_push hi, List.countP_singleton]
  refine ⟨⟨?_, fun r' => ?_⟩, fun c => ?_, ?_, ?_⟩
  · refine List.nodup_cons.mpr ⟨fun hmem => ?_, h.owned.names⟩
    obtain ⟨y, hy, heq⟩ := List.mem_map.mp hmem
    exact hroom.1 y hy heq
  · refine (hcount _).trans ?_
    change _ = List.countP _ (⟨r, home, none, false⟩ :: s.refs)
    rw [List.countP_cons, h.owned.owners r']
    simp [Frame.owns, Reference.pending]
  · refine Eq.trans ?_ (h.counted c)
    change List.countP _ (⟨r, home, none, false⟩ :: s.refs) +
      (s.threads.push i _).frames.countP _ = _
    rw [hcount, List.countP_cons]
    rfl
  · refine h.lives.kept ⟨rfl, rfl, rfl, rfl, rfl, rfl, fun _ => rfl, fun g hg => ?_⟩
    have hne : Frame.copyCount r src ≠ g := by
      rintro rfl
      cases hg
    refine (Pool.count_push hi _ g).trans ?_
    rw [List.count_singleton, if_neg (by simpa using hne), Nat.add_zero]
  · have hcons : Enclosed { s with refs := ⟨r, home, none, false⟩ :: s.refs } :=
      h.enclosed.cons rfl rfl fun o ho => (hroom.2 o ho).2
    exact hcons.push (by simp)

/-- The counter that the source points to counts, so that it can be counted up. -/
theorem Inv.countedCounter (h : Inv s) {c : Counter} (hc : 0 < live s c) :
    ∃ k, s.counters c = some k ∧ k.refcount ≠ 0 := by
  have hcount := h.counted c
  cases hk : s.counters c with
  | none =>
    rw [hk, Option.elim_none] at hcount
    omega
  | some k =>
    rw [hk, Option.elim_some] at hcount
    exact ⟨k, rfl, by omega⟩

theorem Inv.run {f : Frame} (h : Inv s) (htop : s.threads.top i = some f)
    (hp : f.Proper s) (hs : f.Steady s) : Inv (runFrame i junk s f) := by
  cases f with
  | copyCount r src =>
    obtain ⟨x, hx, rfl, hlive⟩ := hp
    simp only [runFrame, pointer_of_mem h.owned.names hx]
    cases hc : x.refCount with
    | none => exact h.settle htop (fun _ => rfl) rfl fun _ => ⟨by simp, by simp⟩
    | some c =>
      obtain ⟨k, hk, h0⟩ := h.countedCounter (hlive c hc)
      exact h.count htop hk h0 rfl rfl (fun _ => rfl) rfl rfl (fun _ => ⟨by simp, by simp⟩)
        (by simp)
  | copyStore r src counted =>
    obtain ⟨x, hx, rfl, hcounted⟩ := hs
    rw [runFrame, store, pointer_of_mem h.owned.names hx, hcounted]
    exact h.settle htop (fun _ => rfl) rfl fun _ => ⟨by simp, by simp⟩
  | assignCount r src =>
    obtain ⟨x, hx, rfl, hlive⟩ := hp
    simp only [runFrame, pointer_of_mem h.owned.names hx]
    cases hc : x.refCount with
    | none =>
      exact h.skip htop rfl (fun _ => rfl) rfl rfl (fun _ => ⟨by simp, by simp⟩) (by simp)
    | some c =>
      obtain ⟨k, hk, h0⟩ := h.countedCounter (hlive c hc)
      exact h.count htop hk h0 rfl rfl (fun _ => rfl) rfl rfl (fun _ => ⟨by simp, by simp⟩)
        (by simp)
  | assignDrop r src counted =>
    obtain ⟨x, hx, rfl, hlive⟩ := hs
    exact h.drop htop hx hlive rfl (fun _ => rfl) (fun _ => rfl) rfl rfl (by simp) (by simp)
      (by simp)
  | assignStore r src counted =>
    obtain ⟨x, hx, rfl, hcounted⟩ := hs
    rw [runFrame, store, pointer_of_mem h.owned.names hx, hcounted]
    exact h.settle htop (fun _ => rfl) rfl fun _ => ⟨by simp, by simp⟩
  | destroyDrop r =>
    obtain ⟨x, hx, rfl, hlive⟩ := hs
    refine h.drop htop hx hlive rfl (fun _ => rfl) (fun _ => rfl) rfl rfl (by simp) ?_
      (by simp)
    exact fun r hr => congrArg Frame.destroyEnd (Frame.destroyDrop.inj hr)
  | destroyEnd r => exact h.destroyEnd htop
  | erase c => exact h.erase htop
  | free c => exact h.free htop
  | dealloc o => exact h.dealloc htop

theorem inv_step {a : Action} (h : Inv s) (hp : Proper s a) (hs : Steady s a) : Inv (step s a) := by
  cases a with
  | new o address =>
    obtain ⟨ha, hd, haddr⟩ := hp
    exact ⟨⟨h.owned.names, h.owned.owners⟩, h.counted, h.lives.allocate ha hd haddr, h.enclosed⟩
  | construct r home o => exact h.construct hp.1 hp.2
  | copy i r home src => exact h.copy hp.1 hp.2 src
  | assign i r src =>
    rw [step]
    split_ifs
    · exact h
    · exact h.push hp (fun _ => rfl) rfl rfl nofun
  | destroy i r => exact h.push hp (fun _ => rfl) rfl rfl nofun
  | run i junk =>
    cases htop : s.threads.top i with
    | none =>
      rw [step, htop]
      exact h
    | some f =>
      rw [step, htop]
      exact h.run htop (hp f htop) (hs f htop)

/-- References and counters agree throughout a run, as long as the source of every copy and
assignment is still what it was when it is read again. -/
theorem exact_of_steady (n : ℕ) (as : List Action)
    (h : Trace.Guarded step (fun s a => Proper s a ∧ Steady s a) (start n) as) :
    ∀ pre, pre <+: as → Exact (Trace.run step (start n) pre) := by
  rintro pre ⟨rest, rfl⟩
  have hpre := (Trace.guarded_append.mp h).1
  have hinv := Trace.invariant_of_guarded (fun _ _ hs ha => inv_step hs ha.1 ha.2) (inv_start n) hpre
  exact hinv.exact

end Operations

end ReferenceCounting

namespace Sample

open ReferenceCounting

/-- Two threads share an object: one copies a reference while the other one ends it, and deletes the
object with its copy. -/
def sharedReference : List ReferenceCounting.Action :=
  [.new 0 5, .construct 0 none (some 0), .copy 0 1 none 0, .run 0 none, .destroy 1 0, .run 0 none,
    .run 1 none, .run 1 none, .destroy 0 1, .run 0 none, .run 0 none, .run 0 none, .run 0 none,
    .run 0 none]

theorem exact_sharedReference : Exact (Trace.run step (start 2) sharedReference) :=
  exact_of_steady 2 sharedReference (by decide) sharedReference List.prefix_rfl

/-- A list of two objects, the first one holding the reference to the second, and an assignment of
that reference to the one that keeps the first. -/
def nextReference : List ReferenceCounting.Action :=
  [.new 0 5, .construct 0 none (some 0), .new 1 6, .construct 1 (some 0) (some 1), .assign 0 0 1] ++
    List.replicate 8 (.run 0 none)

/-- The assignment ends the last reference to the first object, and with it its source, before it
reads the pointer that it stores. The second object is never deleted. -/
theorem not_exact_nextReference : Trace.Guarded step Proper (start 1) nextReference ∧
    ¬ Exact (Trace.run step (start 1) nextReference) := by
  refine ⟨by decide, fun h => ?_⟩
  have hk : (Trace.run step (start 1) nextReference).counters 1 = some ⟨1, 1⟩ := by decide
  have hcount := h.counted 1 _ hk
  exact absurd hcount (by decide)

end Sample

end Haggle
