import Haggle.ReferenceInvariant

/-!
# The end of a reference and of an object

The thread that has taken the last reference to an object out of the count takes the counter out of
the table, ends the references that are parts of the object, and gives the memory back. References
and counters agree behind each of these steps.
-/

namespace Haggle
namespace ReferenceCounting

section Frames

variable {s : State} {i r : ℕ} {f : Frame} {c : Counter} {k : RefCounter} {x : Reference}
  {junk : Option Counter}

theorem countP_remove (h : (s.refs.map Reference.name).Nodup) (hx : x ∈ s.refs)
    (q : Reference → Bool) :
    (s.refs.filter (·.name ≠ x.name)).countP q + (if q x then 1 else 0) = s.refs.countP q := by
  obtain ⟨l₁, l₂, hl⟩ := List.append_of_mem hx
  have hsame : ∀ l : List Reference, (∀ y ∈ l, y.name ≠ x.name) →
      l.filter (·.name ≠ x.name) = l := fun l hne =>
    List.filter_eq_self.mpr fun y hy => decide_eq_true (hne y hy)
  rw [hl, List.map_append, List.map_cons, List.nodup_append] at h
  have h₁ := hsame l₁ fun y hy => h.2.2 y.name (List.mem_map_of_mem hy) x.name List.mem_cons_self
  have h₂ := hsame l₂ fun y hy heq => (List.nodup_cons.mp h.2.1).1 (heq ▸ List.mem_map_of_mem hy)
  rw [hl, List.filter_append, h₁, List.filter_cons_of_neg (by simp), h₂]
  simp only [List.countP_append, List.countP_cons]
  omega

theorem Inv.destroyEnd (h : Inv s) (htop : s.threads.top i = some (.destroyEnd r)) :
    Inv (goto i [] { s with refs := s.refs.filter (·.name ≠ r) }) := by
  obtain ⟨x, hx, rfl, hlive⟩ := h.owned.exists_pending (Pool.mem_of_top htop)
    (show (Frame.destroyEnd r).owns r = true from decide_eq_true rfl)
  refine ⟨⟨?_, fun r' => ?_⟩, fun c => ?_, ?_, ?_⟩
  · exact h.owned.names.sublist (List.filter_sublist.map _)
  · have hr := countP_remove h.owned.names hx (·.pending r')
    have ht := Pool.countP_replace htop [] (·.owns r')
    have hold := h.owned.owners r'
    simp only [Reference.pending, hlive, Bool.not_false, Bool.and_true] at hr
    rw [List.countP_nil] at ht
    change (s.threads.replace i []).frames.countP _ = (s.refs.filter _).countP _
    have hsame : (if (Frame.destroyEnd x.name).owns r' = true then 1 else 0) =
        if decide (x.name = r') = true then 1 else 0 := rfl
    simp only [Reference.pending] at hold ⊢
    omega
  · have hr := countP_remove h.owned.names hx (·.countsFor c)
    have ht := Pool.countP_replace htop [] (·.countsFor c)
    simp only [Reference.countsFor, hlive, Bool.false_and, Bool.false_eq_true, if_false] at hr
    rw [countsFor_none _ c rfl, List.countP_nil] at ht
    refine Eq.trans ?_ (h.counted c)
    change (s.refs.filter _).countP _ + (s.threads.replace i []).frames.countP _ = live s c
    simp only [live, Reference.countsFor]
    omega
  · refine h.lives.kept ⟨rfl, rfl, rfl, rfl, rfl, rfl, fun _ => rfl, fun g hg => ?_⟩
    exact count_goto_of_quiet htop rfl (fun g hg => absurd hg List.not_mem_nil) hg
  · refine h.enclosed.step htop rfl (fun y hy => ⟨y, (List.mem_filter.mp hy).1, rfl, rfl⟩)
      (fun o ho => absurd ho List.not_mem_nil) (by simp) fun r hr y hy => ?_
    obtain rfl := Frame.destroyEnd.inj hr
    exact of_decide_eq_true (List.mem_filter.mp hy).2

theorem Lives.exists_ended (h : Lives s) (hpos : 0 < ending s c) :
    ∃ k, s.counters c = some k ∧ k.refcount = 0 ∧ ending s c = 1 := by
  have hold := h.endings c
  cases hk : s.counters c with
  | none =>
    rw [hk, Option.elim_none] at hold
    omega
  | some k =>
    rw [hk, Option.elim_some] at hold
    by_cases h0 : k.refcount = 0
    · rw [if_pos h0] at hold
      exact ⟨k, rfl, h0, hold⟩
    · rw [if_neg h0] at hold
      omega

theorem count_pos_of_top (htop : s.threads.top i = some f) : 0 < s.threads.frames.count f :=
  List.count_pos_iff.mpr (Pool.mem_of_top htop)

theorem Inv.erase (h : Inv s) (htop : s.threads.top i = some (.erase c)) :
    Inv (runFrame i junk s (.erase c)) := by
  have hpos := count_pos_of_top htop
  obtain ⟨k, hk, h0, hone⟩ := h.lives.exists_ended (c := c) (by rw [ending]; omega)
  have hstep : runFrame i junk s (.erase c) = goto i [.free c]
      { s with objects := Function.update s.objects (s.addr k.obj) none } := by
    simp only [runFrame, hk]
  rw [ending] at hone
  have hobjects : ∀ a, (runFrame i junk s (.erase c)).objects a =
      if a = s.addr k.obj then none else s.objects a := by
    intro a
    rw [hstep]
    exact Function.update_apply _ _ _ _
  have hframes : ∀ g, (runFrame i junk s (.erase c)).threads.frames.count g +
      (if .erase c = g then 1 else 0) = s.threads.frames.count g +
        if .free c = g then 1 else 0 := by
    intro g
    have hcnt := Pool.count_replace htop [.free c] g
    rw [List.count_singleton] at hcnt
    simp only [beq_iff_eq] at hcnt
    rw [hstep]
    exact hcnt
  have hdealloc : ∀ o, deallocating (runFrame i junk s (.erase c)) o = deallocating s o := by
    intro o
    have hcnt := hframes (.dealloc o)
    rw [if_neg (by simp), if_neg (by simp)] at hcnt
    exact hcnt
  refine ⟨?_, fun c' => ?_, ?_, ?_⟩
  · rw [hstep]
    exact h.owned.goto htop rfl rfl fun r => rfl
  · rw [hstep]
    refine Eq.trans ?_ (h.counted c')
    exact @live_goto s (goto i [.free c] { s with
      objects := Function.update s.objects (s.addr k.obj) none }) i _ [.free c] htop rfl rfl c'
  · have hcounters : (runFrame i junk s (.erase c)).counters = s.counters := by rw [hstep]; rfl
    have haddr : (runFrame i junk s (.erase c)).addr = s.addr := by rw [hstep]; rfl
    have hallocated : (runFrame i junk s (.erase c)).allocated = s.allocated := by rw [hstep]; rfl
    have hreferenced : (runFrame i junk s (.erase c)).referenced = s.referenced := by
      rw [hstep]; rfl
    refine ⟨?_, ?_, ?_, ?_, ?_, ?_, ?_, ?_, ?_, ?_, ?_⟩
    · rw [hstep]
      exact h.lives.fresh
    · intro c' k' hk'
      rw [hdealloc, hallocated, hreferenced]
      exact h.lives.obj c' k' (hcounters ▸ hk')
    · rw [hcounters]
      exact h.lives.shared
    · intro c' k' hk' hne
      rw [hcounters] at hk'
      rw [haddr, hobjects, if_neg]
      · exact h.lives.listed c' k' hk' hne
      · intro heq
        have hobj := h.lives.addrs _ (h.lives.obj c' k' hk').1 _ (h.lives.obj c k hk).1 heq
        obtain rfl := h.lives.shared c' c k' k hk' hk hobj
        rw [hk] at hk'
        exact hne (Option.some.inj hk' ▸ h0)
    · intro a c' hac
      rw [hobjects] at hac
      split_ifs at hac with ha
      obtain ⟨⟨k', hk', hk'addr⟩, hfree⟩ := h.lives.table a c' hac
      rw [hcounters, haddr]
      refine ⟨⟨k', hk', hk'addr⟩, ?_⟩
      have hne : c ≠ c' := by
        rintro rfl
        rw [hk] at hk'
        exact ha (Option.some.inj hk' ▸ hk'addr.symm)
      have hcnt := hframes (.free c')
      rw [if_neg (by simp), if_neg (by simpa using hne)] at hcnt
      omega
    · intro c'
      rw [hcounters, ← h.lives.endings c', ending, ending]
      have he := hframes (.erase c')
      have hf := hframes (.free c')
      simp only [Frame.erase.injEq, Frame.free.injEq, reduceCtorEq, if_false] at he hf
      omega
    · rw [hallocated, haddr]
      exact h.lives.addrs
    · exact hallocated ▸ h.lives.allocated
    · rw [hstep]
      exact h.lives.deleted
    · intro o
      rw [hdealloc, hallocated, hreferenced]
      exact h.lives.deletions o
    · intro o ho
      rw [hdealloc, hcounters]
      rw [hstep] at ho ⊢
      exact h.lives.accounted o ho
  · rw [hstep]
    exact h.enclosed.step htop rfl (fun x hx => ⟨x, hx, rfl, rfl⟩) (by simp) (by simp) (by simp)

/-- The counter is gone, and the references that are parts of the object are next. -/
theorem Lives.freed (h : Lives s) {s' : State} (hk : s.counters c = some k)
    (hone : s.threads.frames.count (.erase c) = 0 ∧ s.threads.frames.count (.free c) = 1)
    (hs' : s' = { setCounter c none s with threads := s'.threads })
    (hframes : ∀ g : Frame, g.isEnd = true → s'.threads.frames.count g +
      (if .free c = g then 1 else 0) = s.threads.frames.count g +
        if .dealloc k.obj = g then 1 else 0) : Lives s' := by
  have hcounters : ∀ c', s'.counters c' = if c' = c then none else s.counters c' := by
    rw [hs']
    exact fun c' => counters_setCounter c' _
  have hback : ∀ c' k', s'.counters c' = some k' → c' ≠ c ∧ s.counters c' = some k' := by
    intro c' k' hk'
    rw [hcounters] at hk'
    split_ifs at hk' with hc
    exact ⟨hc, hk'⟩
  have hdealloc : ∀ o, deallocating s' o = deallocating s o + if k.obj = o then 1 else 0 := by
    intro o
    have hcnt := hframes (.dealloc o) rfl
    simp only [Frame.dealloc.injEq, reduceCtorEq, if_false] at hcnt
    exact hcnt
  have hfree : ∀ c', c' ≠ c → s'.threads.frames.count (.free c') =
      s.threads.frames.count (.free c') := by
    intro c' hc
    have hcnt := hframes (.free c') rfl
    rw [if_neg (by simpa using Ne.symm hc), if_neg (by simp)] at hcnt
    exact hcnt
  have hobjects : s'.objects = s.objects := by rw [hs']; rfl
  have haddr : s'.addr = s.addr := by rw [hs']; rfl
  have hallocated : s'.allocated = s.allocated := by rw [hs']; rfl
  have hreferenced : s'.referenced = s.referenced := by rw [hs']; rfl
  have hdeleted : s'.deleted = s.deleted := by rw [hs']; rfl
  have htotNum : s'.totNum = s.totNum := by rw [hs']; rfl
  refine ⟨?_, ?_, ?_, ?_, ?_, ?_, ?_, ?_, ?_, ?_, ?_⟩
  · intro c' hc'
    rw [hcounters]
    split_ifs
    · rfl
    · exact h.fresh c' (htotNum ▸ hc')
  · intro c' k' hk'
    obtain ⟨hne, hk'⟩ := hback c' k' hk'
    obtain ⟨ha, hr, hd⟩ := h.obj c' k' hk'
    rw [hallocated, hreferenced, hdealloc, hd, if_neg]
    · exact ⟨ha, hr, rfl⟩
    · exact fun heq => hne (h.shared c' c k' k hk' hk heq.symm)
  · intro c₁ c₂ k₁ k₂ h₁ h₂
    exact h.shared c₁ c₂ k₁ k₂ (hback c₁ k₁ h₁).2 (hback c₂ k₂ h₂).2
  · intro c' k' hk'
    rw [hobjects, haddr]
    exact h.listed c' k' (hback c' k' hk').2
  · intro a c' hac
    rw [hobjects] at hac
    obtain ⟨⟨k', hk', hk'addr⟩, hnone⟩ := h.table a c' hac
    have hne : c' ≠ c := by
      rintro rfl
      omega
    rw [hcounters, if_neg hne, haddr, hfree c' hne]
    exact ⟨⟨k', hk', hk'addr⟩, hnone⟩
  · intro c'
    have hold := h.endings c'
    have he := hframes (.erase c') rfl
    have hf := hframes (.free c') rfl
    rw [ending] at hold
    simp only [reduceCtorEq, if_false, Nat.add_zero] at he
    simp only [Frame.free.injEq, reduceCtorEq, if_false, Nat.add_zero] at hf
    rw [ending, hcounters]
    by_cases hc : c' = c
    · subst hc
      rw [if_pos rfl] at hf
      rw [if_pos rfl, Option.elim_none]
      omega
    · rw [if_neg (Ne.symm hc)] at hf
      rw [if_neg hc, ← hold]
      omega
  · rw [hallocated, haddr]
    exact h.addrs
  · exact hallocated ▸ h.allocated
  · rw [hallocated, hdeleted]
    exact h.deleted
  · intro o
    obtain ⟨hle, hmem⟩ := h.deletions o
    obtain ⟨ha, hr, hd⟩ := h.obj c k hk
    rw [hdealloc, hallocated, hreferenced]
    by_cases ho : k.obj = o
    · subst ho
      rw [hd, if_pos rfl]
      exact ⟨Nat.le_refl 1, fun _ => ⟨ha, hr⟩⟩
    · rw [if_neg ho]
      exact ⟨hle, hmem⟩
  · intro o ho
    rw [hreferenced] at ho
    rw [hdealloc, hdeleted]
    rcases h.accounted o ho with ⟨c', k', hk', hobj⟩ | hpos | hdel
    · by_cases hc : c' = c
      · rw [hc, hk] at hk'
        obtain rfl := Option.some.inj hk'
        exact Or.inr (Or.inl (by rw [if_pos hobj]; omega))
      · exact Or.inl ⟨c', k', by rw [hcounters, if_neg hc]; exact hk', hobj⟩
    · exact Or.inr (Or.inl (by omega))
    · exact Or.inr (Or.inr hdel)

theorem Inv.free (h : Inv s) (htop : s.threads.top i = some (.free c)) :
    Inv (runFrame i junk s (.free c)) := by
  have hpos := count_pos_of_top htop
  obtain ⟨k, hk, h0, hone⟩ := h.lives.exists_ended (c := c) (by rw [ending]; omega)
  rw [ending] at hone
  have hstep : runFrame i junk s (.free c) =
      goto i ((s.members k.obj).map (fun x => .destroyDrop x.name) ++ [Frame.dealloc k.obj])
        (setCounter c none s) := by
    simp only [runFrame, hk]
  set fs : List Frame := (s.members k.obj).map (fun x => .destroyDrop x.name) with hfs
  have hmem : ∀ g ∈ fs, ∃ r, g = .destroyDrop r := by
    intro g hg
    obtain ⟨x, -, rfl⟩ := List.mem_map.mp hg
    exact ⟨x.name, rfl⟩
  have hnone : ∀ q : Frame → Bool, (∀ r, q (.destroyDrop r) = false) → fs.countP q = 0 := by
    intro q hq
    rw [List.countP_eq_zero]
    intro g hg
    obtain ⟨r, rfl⟩ := hmem g hg
    rw [hq r]
    exact Bool.false_ne_true
  refine ⟨?_, fun c' => ?_, ?_, ?_⟩
  · rw [hstep]
    refine h.owned.goto htop rfl rfl fun r => ?_
    rw [List.countP_append, hnone _ fun _ => rfl]
    rfl
  · have hl := @live_goto s (goto i (fs ++ [Frame.dealloc k.obj]) (setCounter c none s)) i _ _
      htop rfl
      rfl c'
    rw [List.countP_append, hnone _ fun r => rfl] at hl
    have hold := h.counted c'
    rw [hstep]
    refine Eq.trans (b := live s c') hl (hold.trans ?_)
    change _ = ((setCounter c none s).counters c').elim 0 RefCounter.refcount
    rw [counters_setCounter]
    split_ifs with hc
    · rw [hc, hk]
      exact h0
    · rfl
  · rw [hstep]
    refine h.lives.freed hk ⟨by omega, by omega⟩ rfl fun g hg => ?_
    have hcnt := Pool.count_replace htop (fs ++ [Frame.dealloc k.obj]) g
    have hquiet : fs.count g = 0 := by
      rw [List.count_eq_zero]
      intro hgm
      obtain ⟨r, rfl⟩ := hmem g hgm
      cases hg
    rw [List.count_append, hquiet, List.count_singleton, Nat.zero_add] at hcnt
    simp only [beq_iff_eq] at hcnt
    exact hcnt
  · rw [hstep]
    intro l hl pre o post heq x hx hhome
    rcases Pool.mem_replace htop hl with hl | ⟨rest, hrest, rfl⟩
    · exact h.enclosed l hl pre o post heq x hx hhome
    · rw [List.append_assoc, List.append_eq_append_iff] at heq
      rcases heq with ⟨as, rfl, has⟩ | ⟨bs, hbs, hdealloc⟩
      · cases as with
        | nil =>
          -- the object itself: its parts are ended first
          obtain ⟨ho, -⟩ := List.cons.inj has
          obtain rfl := Frame.dealloc.inj ho
          rw [List.append_nil]
          left
          exact List.mem_map.mpr ⟨x, List.mem_filter.mpr ⟨hx, decide_eq_true hhome⟩, rfl⟩
        | cons a as =>
          obtain ⟨rfl, hrest'⟩ := List.cons.inj has
          have hold := h.enclosed _ hrest (.free c :: as) o post (congrArg (_ :: ·) hrest') x hx
            hhome
          refine hold.imp (fun hm => ?_) fun hm => ?_
          · rcases List.mem_cons.mp hm with hm | hm
            · cases hm
            · exact List.mem_append_right _ (List.mem_cons_of_mem _ hm)
          · rcases List.mem_cons.mp hm with hm | hm
            · cases hm
            · exact List.mem_append_right _ (List.mem_cons_of_mem _ hm)
      · cases bs with
        | nil =>
          obtain ⟨ho, -⟩ := List.cons.inj hdealloc
          obtain rfl := Frame.dealloc.inj ho
          rw [List.append_nil] at hbs
          left
          rw [← hbs]
          exact List.mem_map.mpr ⟨x, List.mem_filter.mpr ⟨hx, decide_eq_true hhome⟩, rfl⟩
        | cons b bs =>
          obtain ⟨rfl, -⟩ := List.cons.inj hdealloc
          obtain ⟨r, hr⟩ := hmem (.dealloc o) (hbs ▸ List.mem_append_right _ List.mem_cons_self)
          cases hr

theorem Inv.dealloc {o : Obj} (h : Inv s) (htop : s.threads.top i = some (.dealloc o)) :
    Inv (runFrame i junk s (.dealloc o)) := by
  have hpos : 0 < deallocating s o := count_pos_of_top htop
  obtain ⟨hle, hmem⟩ := h.lives.deletions o
  obtain ⟨ha, hr⟩ := hmem hpos
  have hrefs : s.refs.filter (·.home ≠ some o) = s.refs := by
    rw [List.filter_eq_self]
    intro x hx
    refine decide_eq_true fun hhome => ?_
    obtain ⟨rest, hrest⟩ := Pool.top_eq_some.mp htop
    rcases h.enclosed _ (List.mem_of_getElem? hrest) [] o rest rfl x hx hhome with hm | hm
    · exact List.not_mem_nil hm
    · exact List.not_mem_nil hm
  have hstep : runFrame i junk s (.dealloc o) = goto i [] { s with
      allocated := s.allocated.erase o, deleted := o :: s.deleted } := by
    simp only [runFrame, hrefs]
  have hframes : ∀ g, (runFrame i junk s (.dealloc o)).threads.frames.count g +
      (if .dealloc o = g then 1 else 0) = s.threads.frames.count g := by
    intro g
    rw [hstep]
    exact Pool.count_replace htop [] g
  have hdealloc : ∀ o', deallocating (runFrame i junk s (.dealloc o)) o' +
      (if o = o' then 1 else 0) = deallocating s o' := by
    intro o'
    have hcnt := hframes (.dealloc o')
    simp only [Frame.dealloc.injEq] at hcnt
    exact hcnt
  have hother : ∀ c k, s.counters c = some k → k.obj ≠ o := by
    intro c k hk heq
    have hd := (h.lives.obj c k hk).2.2
    rw [heq] at hd
    omega
  have hfree : ∀ c, (runFrame i junk s (.dealloc o)).threads.frames.count (.free c) =
      s.threads.frames.count (.free c) := by
    intro c
    have hcnt := hframes (.free c)
    rw [if_neg (by simp)] at hcnt
    exact hcnt
  have hsub : ∀ o' ∈ s.allocated.erase o, o' ∈ s.allocated := fun o' => List.mem_of_mem_erase
  refine ⟨?_, fun c => ?_, ?_, ?_⟩
  · rw [hstep]
    exact h.owned.goto htop rfl rfl fun r => rfl
  · rw [hstep]
    refine Eq.trans ?_ (h.counted c)
    exact @live_goto s (goto i [] { s with
      allocated := s.allocated.erase o, deleted := o :: s.deleted }) i _ [] htop rfl rfl c
  · have hcounters : (runFrame i junk s (.dealloc o)).counters = s.counters := by rw [hstep]; rfl
    have hallocated : (runFrame i junk s (.dealloc o)).allocated = s.allocated.erase o := by
      rw [hstep]; rfl
    have hreferenced : (runFrame i junk s (.dealloc o)).referenced = s.referenced := by
      rw [hstep]; rfl
    have hdeleted : (runFrame i junk s (.dealloc o)).deleted = o :: s.deleted := by
      rw [hstep]; rfl
    refine ⟨?_, ?_, ?_, ?_, ?_, ?_, ?_, ?_, ?_, ?_, ?_⟩
    · rw [hstep]
      exact h.lives.fresh
    · intro c k hk
      rw [hcounters] at hk
      obtain ⟨hka, hkr, hkd⟩ := h.lives.obj c k hk
      have hd := hdealloc k.obj
      rw [hallocated, hreferenced]
      exact ⟨(List.mem_erase_of_ne (hother c k hk)).mpr hka, hkr, by omega⟩
    · rw [hcounters]
      exact h.lives.shared
    · rw [hstep]
      exact h.lives.listed
    · intro a c hac
      rw [hstep] at hac
      rw [hcounters, hfree, hstep]
      exact h.lives.table a c hac
    · intro c
      have hcnt := hframes (.erase c)
      rw [if_neg (by simp)] at hcnt
      rw [ending, hfree, hcounters, ← h.lives.endings c, ending]
      omega
    · rw [hallocated, hstep]
      exact fun o₁ h₁ o₂ h₂ => h.lives.addrs o₁ (hsub o₁ h₁) o₂ (hsub o₂ h₂)
    · exact hallocated ▸ h.lives.allocated.erase o
    · rw [hallocated, hdeleted]
      refine ⟨List.nodup_cons.mpr ⟨fun hd => h.lives.deleted.2 o hd ha, h.lives.deleted.1⟩, ?_⟩
      intro o' ho'
      rcases List.mem_cons.mp ho' with rfl | ho'
      · exact h.lives.allocated.not_mem_erase
      · exact fun hmem => h.lives.deleted.2 o' ho' (hsub o' hmem)
    · intro o'
      have hd := hdealloc o'
      obtain ⟨hle', hmem'⟩ := h.lives.deletions o'
      refine ⟨by omega, fun hpos' => ?_⟩
      have hne : o' ≠ o := by
        rintro rfl
        rw [if_pos rfl] at hd
        omega
      obtain ⟨ha', hr'⟩ := hmem' (by omega)
      rw [hallocated, hreferenced]
      exact ⟨(List.mem_erase_of_ne hne).mpr ha', hr'⟩
    · intro o' ho'
      rw [hreferenced] at ho'
      have hd := hdealloc o'
      rw [hcounters, hdeleted]
      rcases h.lives.accounted o' ho' with hk | hpos' | hdel
      · exact Or.inl hk
      · by_cases heq : o = o'
        · exact Or.inr (Or.inr (heq ▸ List.mem_cons_self))
        · rw [if_neg heq] at hd
          exact Or.inr (Or.inl (by omega))
      · exact Or.inr (Or.inr (List.mem_cons_of_mem o hdel))
  · rw [hstep]
    exact h.enclosed.step htop rfl (fun x hx => ⟨x, hx, rfl, rfl⟩) (by simp) (by simp) (by simp)

end Frames

end ReferenceCounting
end Haggle
