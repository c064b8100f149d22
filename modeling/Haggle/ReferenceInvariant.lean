import Haggle.ReferenceCounting
import Mathlib.Data.List.Nodup

/-!
# References and counters agree

Each operation under way owns the reference that it has taken out of the count. The counters agree
with what references and operations count for, and the deletion of an object begins when its counter
comes to zero.
-/

namespace Haggle
namespace ReferenceCounting

section Invariant

/-- The operation has taken the reference out of the count, and will put it in again or end it. -/
def Frame.owns : Frame → ℕ → Bool
  | .copyCount r _, r' => r = r'
  | .copyStore r _ _, r' => r = r'
  | .assignStore r _ _, r' => r = r'
  | .destroyEnd r, r' => r = r'
  | _, _ => false

def Frame.isEnd : Frame → Bool
  | .erase _ => true
  | .free _ => true
  | .dealloc _ => true
  | _ => false

def Reference.pending (x : Reference) (r : ℕ) : Bool := x.name = r && !x.live

/-- References have different names, and those that do not count have an owner each. -/
structure Owned (s : State) : Prop where
  names : (s.refs.map Reference.name).Nodup
  owners : ∀ r, s.threads.frames.countP (·.owns r) = s.refs.countP (·.pending r)

def Counted (s : State) : Prop := ∀ c, live s c = (s.counters c).elim 0 RefCounter.refcount

/-- Counters and objects: each counter is that of an object in memory that nobody deletes yet, one
for each object, and is in the table as long as it counts. -/
structure Lives (s : State) : Prop where
  fresh : ∀ c, s.totNum ≤ c → s.counters c = none
  obj : ∀ c k, s.counters c = some k →
    k.obj ∈ s.allocated ∧ k.obj ∈ s.referenced ∧ deallocating s k.obj = 0
  shared : ∀ c c' k k', s.counters c = some k → s.counters c' = some k' → k.obj = k'.obj → c = c'
  listed : ∀ c k, s.counters c = some k → k.refcount ≠ 0 → s.objects (s.addr k.obj) = some c
  table : ∀ a c, s.objects a = some c →
    (∃ k, s.counters c = some k ∧ s.addr k.obj = a) ∧ s.threads.frames.count (.free c) = 0
  endings : ∀ c, ending s c = (s.counters c).elim 0 fun k => if k.refcount = 0 then 1 else 0
  addrs : ∀ o ∈ s.allocated, ∀ o' ∈ s.allocated, s.addr o = s.addr o' → o = o'
  allocated : s.allocated.Nodup
  deleted : s.deleted.Nodup ∧ ∀ o ∈ s.deleted, o ∉ s.allocated
  deletions : ∀ o, deallocating s o ≤ 1 ∧
    (0 < deallocating s o → o ∈ s.allocated ∧ o ∈ s.referenced)
  accounted : ∀ o ∈ s.referenced, (∃ c k, s.counters c = some k ∧ k.obj = o) ∨
    0 < deallocating s o ∨ o ∈ s.deleted

/-- The references that are parts of an object are ended before the object is gone. -/
def Enclosed (s : State) : Prop :=
  ∀ l ∈ s.threads, ∀ pre o post, l = pre ++ .dealloc o :: post →
    ∀ x ∈ s.refs, x.home = some o → .destroyDrop x.name ∈ pre ∨ .destroyEnd x.name ∈ pre

structure Inv (s : State) : Prop where
  owned : Owned s
  counted : Counted s
  lives : Lives s
  enclosed : Enclosed s

theorem Inv.exact {s : State} (h : Inv s) : Exact s where
  counted c k hk := by
    have hc := h.counted c
    rw [hk] at hc
    exact hc.symm
  shared := h.lives.shared
  never c hc := by
    have hcount := h.counted c
    have hending := h.lives.endings c
    cases hk : s.counters c with
    | none =>
      rw [hk, Option.elim_none] at hcount
      omega
    | some k =>
      rw [hk, Option.elim_some] at hcount hending
      obtain ⟨hmem, -, hdealloc⟩ := h.lives.obj c k hk
      rw [if_neg (by omega)] at hending
      exact ⟨hending, k, rfl, hmem, hdealloc⟩
  ends c k hk hc := by
    have hcount := h.counted c
    have hending := h.lives.endings c
    rw [hk, Option.elim_some] at hcount hending
    rw [hending, if_pos (by omega)]
  once := h.lives.deleted
  accounted o ho := by
    refine (h.lives.accounted o ho).imp_right (Or.imp_left fun hpos => ?_)
    have hle := (h.lives.deletions o).1
    omega

theorem inv_start (n : ℕ) : Inv (start n) := by
  have hframes : (start n).threads.frames = [] := Pool.frames_idle n
  refine ⟨⟨List.nodup_nil, fun r => ?_⟩, fun c => ?_, ?_, ?_⟩
  · rw [hframes]
    rfl
  · rw [live, hframes]
    rfl
  · refine ⟨fun _ _ => rfl, nofun, nofun, nofun, nofun, fun c => ?_, nofun, List.nodup_nil,
      ⟨List.nodup_nil, nofun⟩, fun o => ?_, nofun⟩
    · rw [ending, hframes]
      rfl
    · rw [deallocating, hframes]
      exact ⟨Nat.zero_le 1, fun h => absurd h (Nat.lt_irrefl 0)⟩
  · intro l _ pre o post _ x hx
    exact absurd hx List.not_mem_nil

end Invariant

section Parts

variable {s s' : State} {i r : ℕ} {f : Frame} {fs : List Frame} {x : Reference}

theorem pointer_of_mem (h : (s.refs.map Reference.name).Nodup) (hx : x ∈ s.refs)
    (junk : Option Counter) : s.pointer x.name junk = x.refCount := by
  have hfind : s.refs.find? (·.name = x.name) = some x := by
    rw [List.find?_eq_some_iff_append]
    obtain ⟨l₁, l₂, hl⟩ := List.append_of_mem hx
    refine ⟨decide_eq_true rfl, l₁, l₂, hl, fun y hy => ?_⟩
    rw [hl, List.map_append, List.map_cons, List.nodup_append] at h
    have hne := h.2.2 y.name (List.mem_map_of_mem hy) x.name List.mem_cons_self
    simpa using hne
  rw [State.pointer, hfind]
  rfl

theorem countP_setRef (h : (s.refs.map Reference.name).Nodup) (hx : x ∈ s.refs)
    (g : Reference → Reference) (q : Reference → Bool) :
    (setRef x.name g s).refs.countP q + (if q x then 1 else 0) =
      s.refs.countP q + (if q (g x) then 1 else 0) := by
  obtain ⟨l₁, l₂, hl⟩ := List.append_of_mem hx
  have hsame : ∀ l : List Reference, (∀ y ∈ l, y.name ≠ x.name) →
      (l.map fun y => if y.name = x.name then g y else y) = l := by
    intro l hne
    refine (List.map_congr_left fun y hy => ?_).trans (List.map_id l)
    exact if_neg (hne y hy)
  rw [hl, List.map_append, List.map_cons, List.nodup_append] at h
  have h₁ := hsame l₁ fun y hy => h.2.2 y.name (List.mem_map_of_mem hy) x.name List.mem_cons_self
  have h₂ := hsame l₂ fun y hy heq => (List.nodup_cons.mp h.2.1).1 (heq ▸ List.mem_map_of_mem hy)
  simp only [setRef, hl, List.map_append, List.map_cons, h₁, h₂, if_true, List.countP_append,
    List.countP_cons]
  omega

theorem names_setRef (r : ℕ) {g : Reference → Reference} (hg : ∀ x, (g x).name = x.name) :
    (setRef r g s).refs.map Reference.name = s.refs.map Reference.name := by
  rw [setRef, List.map_map]
  refine List.map_congr_left fun x _ => ?_
  rw [Function.comp_apply]
  split_ifs
  · exact hg x
  · rfl

theorem Owned.exists_pending (h : Owned s) (hf : f ∈ s.threads.frames) (hr : f.owns r = true) :
    ∃ x ∈ s.refs, x.name = r ∧ x.live = false := by
  have hpos : 0 < s.refs.countP (·.pending r) := by
    rw [← h.owners r]
    exact List.countP_pos_iff.mpr ⟨f, hf, hr⟩
  obtain ⟨x, hx, hp⟩ := List.countP_pos_iff.mp hpos
  rw [Reference.pending, Bool.and_eq_true, decide_eq_true_eq, Bool.not_eq_true'] at hp
  exact ⟨x, hx, hp.1, hp.2⟩

/-- What is replaced is no deletion. -/
theorem count_goto_of_quiet (htop : s.threads.top i = some f) (hf : f.isEnd = false)
    (hfs : ∀ g ∈ fs, g.isEnd = false) {g : Frame} (hg : g.isEnd = true) :
    (goto i fs s).threads.frames.count g = s.threads.frames.count g := by
  have hcount := Pool.count_replace htop fs g
  have hne : f ≠ g := by
    rintro rfl
    rw [hf] at hg
    cases hg
  have hnone : fs.count g = 0 := by
    rw [List.count_eq_zero]
    intro hmem
    have hfalse := hfs g hmem
    rw [hg] at hfalse
    cases hfalse
  rw [if_neg hne, hnone] at hcount
  exact hcount

theorem Owned.step (h : Owned s) (htop : s.threads.top i = some f) (hx : x ∈ s.refs)
    {g : Reference → Reference} (hg : ∀ y, (g y).name = y.name)
    (hrefs : s'.refs = (setRef x.name g s).refs) (hthreads : s'.threads = s.threads.replace i fs)
    (hown : ∀ r, (if (g x).pending r then 1 else 0) + (if f.owns r then 1 else 0) =
      (if x.pending r then 1 else 0) + fs.countP (·.owns r)) : Owned s' where
  names := by
    rw [hrefs, names_setRef _ hg]
    exact h.names
  owners r := by
    have hr := countP_setRef h.names hx g (·.pending r)
    have ht := Pool.countP_replace htop fs (·.owns r)
    have hold := h.owners r
    have hnew := hown r
    rw [hrefs, hthreads]
    omega

theorem Owned.goto (h : Owned s) (htop : s.threads.top i = some f) (hrefs : s'.refs = s.refs)
    (hthreads : s'.threads = s.threads.replace i fs)
    (hown : ∀ r, (if f.owns r then 1 else 0) = fs.countP (·.owns r)) : Owned s' where
  names := hrefs ▸ h.names
  owners r := by
    have ht := Pool.countP_replace htop fs (·.owns r)
    have hold := h.owners r
    have hnew := hown r
    rw [hrefs, hthreads]
    omega

theorem live_step (h : Owned s) (htop : s.threads.top i = some f) (hx : x ∈ s.refs)
    {g : Reference → Reference} (hrefs : s'.refs = (setRef x.name g s).refs)
    (hthreads : s'.threads = s.threads.replace i fs) (c : Counter) :
    live s' c + (if x.countsFor c then 1 else 0) + (if f.countsFor c then 1 else 0) =
      live s c + (if (g x).countsFor c then 1 else 0) + fs.countP (·.countsFor c) := by
  have hr := countP_setRef h.names hx g (·.countsFor c)
  have ht := Pool.countP_replace htop fs (·.countsFor c)
  rw [live, live, hrefs, hthreads]
  omega

theorem live_goto (htop : s.threads.top i = some f) (hrefs : s'.refs = s.refs)
    (hthreads : s'.threads = s.threads.replace i fs) (c : Counter) :
    live s' c + (if f.countsFor c then 1 else 0) = live s c + fs.countP (·.countsFor c) := by
  have ht := Pool.countP_replace htop fs (·.countsFor c)
  rw [live, live, hrefs, hthreads]
  omega

/-- What a step changes neither in the objects nor in the counters but their numbers, and in no
deletion. -/
structure Kept (s s' : State) : Prop where
  allocated : s'.allocated = s.allocated
  addr : s'.addr = s.addr
  objects : s'.objects = s.objects
  totNum : s'.totNum = s.totNum
  referenced : s'.referenced = s.referenced
  deleted : s'.deleted = s.deleted
  counters : ∀ c, (s'.counters c).map (fun k => (k.obj, decide (k.refcount = 0))) =
    (s.counters c).map fun k => (k.obj, decide (k.refcount = 0))
  frames : ∀ f : Frame, f.isEnd = true → s'.threads.frames.count f = s.threads.frames.count f

theorem Kept.back (h : Kept s s') {c : Counter} {k : RefCounter} (hk : s'.counters c = some k) :
    ∃ k', s.counters c = some k' ∧ k'.obj = k.obj ∧ (k'.refcount = 0 ↔ k.refcount = 0) := by
  have heq := h.counters c
  rw [hk, Option.map_some, eq_comm, Option.map_eq_some_iff] at heq
  obtain ⟨k', hk', hpair⟩ := heq
  rw [Prod.mk.injEq, decide_eq_decide] at hpair
  exact ⟨k', hk', hpair.1, hpair.2⟩

theorem Lives.kept (h : Lives s) (hk : Kept s s') : Lives s' where
  fresh c hc := by
    have hnone := h.fresh c (hk.totNum ▸ hc)
    have heq := hk.counters c
    rw [hnone, Option.map_none, Option.map_eq_none_iff] at heq
    exact heq
  obj c k hck := by
    obtain ⟨k', hk', hobj, -⟩ := hk.back hck
    obtain ⟨ha, hr, hd⟩ := h.obj c k' hk'
    rw [← hobj, hk.allocated, hk.referenced, deallocating, hk.frames _ rfl]
    exact ⟨ha, hr, hd⟩
  shared c₁ c₂ k₁ k₂ h₁ h₂ heq := by
    obtain ⟨k₁', h₁', hobj₁, -⟩ := hk.back h₁
    obtain ⟨k₂', h₂', hobj₂, -⟩ := hk.back h₂
    exact h.shared c₁ c₂ k₁' k₂' h₁' h₂' (hobj₁.trans (heq.trans hobj₂.symm))
  listed c k hck hne := by
    obtain ⟨k', hk', hobj, hzero⟩ := hk.back hck
    rw [← hobj, hk.objects, hk.addr]
    exact h.listed c k' hk' fun h0 => hne (hzero.mp h0)
  table a c hac := by
    rw [hk.objects] at hac
    obtain ⟨⟨k', hk', haddr⟩, hfree⟩ := h.table a c hac
    have heq := hk.counters c
    rw [hk', Option.map_some, Option.map_eq_some_iff] at heq
    obtain ⟨k, hck, hpair⟩ := heq
    rw [Prod.mk.injEq] at hpair
    rw [hk.frames _ rfl]
    exact ⟨⟨k, hck, by rw [hpair.1, hk.addr]; exact haddr⟩, hfree⟩
  endings c := by
    rw [ending, hk.frames _ rfl, hk.frames _ rfl]
    refine (h.endings c).trans ?_
    have heq := hk.counters c
    cases hck : s.counters c with
    | none =>
      rw [hck, Option.map_none, Option.map_eq_none_iff] at heq
      rw [heq]
    | some k' =>
      rw [hck, Option.map_some, Option.map_eq_some_iff] at heq
      obtain ⟨k, hck', hpair⟩ := heq
      rw [Prod.mk.injEq, decide_eq_decide] at hpair
      rw [hck', Option.elim_some, Option.elim_some]
      simp only [hpair.2]
  addrs := by
    rw [hk.allocated, hk.addr]
    exact h.addrs
  allocated := hk.allocated ▸ h.allocated
  deleted := by
    rw [hk.allocated, hk.deleted]
    exact h.deleted
  deletions o := by
    rw [deallocating, hk.frames _ rfl, hk.allocated, hk.referenced]
    exact h.deletions o
  accounted o ho := by
    rw [hk.referenced] at ho
    rw [deallocating, hk.frames _ rfl, hk.deleted]
    refine (h.accounted o ho).imp_left ?_
    rintro ⟨c, k', hk', hobj⟩
    have heq := hk.counters c
    rw [hk', Option.map_some, Option.map_eq_some_iff] at heq
    obtain ⟨k, hck, hpair⟩ := heq
    rw [Prod.mk.injEq] at hpair
    exact ⟨c, k, hck, hpair.1.trans hobj⟩

/-- The top of a thread is replaced by frames that delete no object, and no reference becomes part
of an object. -/
theorem Enclosed.step (h : Enclosed s) (htop : s.threads.top i = some f)
    (hthreads : s'.threads = s.threads.replace i fs)
    (hrefs : ∀ x ∈ s'.refs, ∃ y ∈ s.refs, y.name = x.name ∧ y.home = x.home)
    (hfs : ∀ o, .dealloc o ∉ fs) (hdrop : ∀ r, f = .destroyDrop r → .destroyEnd r ∈ fs)
    (hend : ∀ r, f = .destroyEnd r → ∀ x ∈ s'.refs, x.name ≠ r) : Enclosed s' := by
  intro l hl pre o post heq x hx hhome
  obtain ⟨y, hy, hname, hyhome⟩ := hrefs x hx
  rw [hhome] at hyhome
  rw [hthreads] at hl
  rcases Pool.mem_replace htop hl with hl | ⟨k, hk, rfl⟩
  · rw [← hname]
    exact h l hl pre o post heq y hy hyhome
  · rw [List.append_eq_append_iff] at heq
    rcases heq with ⟨as, rfl, hkeq⟩ | ⟨bs, hfs', hdealloc⟩
    · have hold := h (f :: k) hk (f :: as) o post (by rw [hkeq]; rfl) y hy hyhome
      rw [hname] at hold
      rcases hold with hold | hold
      · rcases List.mem_cons.mp hold with hf | hold
        · exact Or.inr (List.mem_append_left _ (hdrop _ hf.symm))
        · exact Or.inl (List.mem_append_right _ hold)
      · rcases List.mem_cons.mp hold with hf | hold
        · exact absurd rfl (hend _ hf.symm x hx)
        · exact Or.inr (List.mem_append_right _ hold)
    · cases bs with
      | nil =>
        have hold := h (f :: k) hk [f] o post (by rw [hdealloc]; rfl) y hy hyhome
        rw [hname] at hold
        rw [List.append_nil] at hfs'
        subst hfs'
        rcases hold with hold | hold
        · exact Or.inr (hdrop _ (List.mem_singleton.mp hold).symm)
        · exact absurd rfl (hend _ (List.mem_singleton.mp hold).symm x hx)
      | cons b bs =>
        obtain ⟨rfl, -⟩ := List.cons.inj hdealloc
        exact absurd (hfs' ▸ List.mem_append_right _ List.mem_cons_self) (hfs o)

end Parts

section Frames

variable {s : State} {i r : ℕ} {f f' : Frame} {c : Counter} {k : RefCounter} {x : Reference}
  {junk : Option Counter}

theorem setRef_home {g : Reference → Reference}
    (hg : ∀ y, (g y).name = y.name ∧ (g y).home = y.home) :
    ∀ x ∈ (setRef r g s).refs, ∃ y ∈ s.refs, y.name = x.name ∧ y.home = x.home := by
  intro x hx
  obtain ⟨y, hy, rfl⟩ := List.mem_map.mp hx
  refine ⟨y, hy, ?_⟩
  split_ifs
  · exact ⟨(hg y).1.symm, (hg y).2.symm⟩
  · exact ⟨rfl, rfl⟩

theorem countsFor_some (f : Frame) (c' : Counter) (h : f.counted = some c) :
    (if f.countsFor c' then 1 else 0) = if c' = c then 1 else 0 := by
  rw [Frame.countsFor, h]
  simp [eq_comm]

theorem countsFor_none (f : Frame) (c' : Counter) (h : f.counted = none) :
    (if f.countsFor c' then 1 else 0) = 0 := by
  simp [Frame.countsFor, h]

theorem incCount_eq (hk : s.counters c = some k) (h0 : k.refcount ≠ 0) :
    incCount c s = setCounter c (some { k with refcount := k.refcount + 1 }) s := by
  rw [incCount, hk]
  exact if_neg h0

theorem elim_setCounter (c' : Counter) (k' : RefCounter) :
    ((setCounter c (some k') s).counters c').elim 0 RefCounter.refcount =
      if c' = c then k'.refcount else (s.counters c').elim 0 RefCounter.refcount := by
  change (Function.update s.counters c (some k') c').elim 0 RefCounter.refcount = _
  rw [Function.update_apply]
  split_ifs <;> rfl

/-- A counter is changed, and neither comes to zero nor leaves it. -/
theorem kept_setCounter {s' : State} (hk : s.counters c = some k) {k' : RefCounter}
    (hobj : k'.obj = k.obj) (h0 : k'.refcount = 0 ↔ k.refcount = 0)
    (hframes : ∀ f : Frame, f.isEnd = true →
      s'.threads.frames.count f = s.threads.frames.count f)
    (hs' : s' = { setCounter c (some k') s with refs := s'.refs, threads := s'.threads }) :
    Kept s s' := by
  rw [hs']
  refine ⟨rfl, rfl, rfl, rfl, rfl, rfl, fun c' => ?_, hframes⟩
  change (Function.update s.counters c (some k') c').map _ = _
  rw [Function.update_apply]
  split_ifs with hc
  · rw [hc, hk, Option.map_some, Option.map_some, hobj, decide_eq_decide.mpr h0]
  · rfl

/-- The counter of the source is counted up for an operation. -/
theorem Inv.count (h : Inv s) (htop : s.threads.top i = some f) (hk : s.counters c = some k)
    (h0 : k.refcount ≠ 0) (hf : f.counted = none) (hf' : f'.counted = some c)
    (howns : ∀ r, f.owns r = f'.owns r) (hend : f.isEnd = false) (hend' : f'.isEnd = false)
    (hdrop : ∀ r, f ≠ .destroyDrop r ∧ f ≠ .destroyEnd r) (hdealloc : ∀ o, f' ≠ .dealloc o) :
    Inv (goto i [f'] (incCount c s)) := by
  rw [incCount_eq hk h0]
  refine ⟨?_, fun c' => ?_, ?_, ?_⟩
  · refine h.owned.goto htop rfl rfl fun r => ?_
    rw [List.countP_singleton, howns r]
  · have hlive := @live_goto s (goto i [f'] (setCounter c (some { k with
      refcount := k.refcount + 1 }) s)) i f [f'] htop rfl rfl c'
    rw [List.countP_singleton, countsFor_none f c' hf, countsFor_some f' c' hf'] at hlive
    have hold := h.counted c'
    refine hlive.trans ?_
    change _ = ((setCounter c _ s).counters c').elim 0 RefCounter.refcount
    rw [elim_setCounter]
    by_cases hc : c' = c
    · rw [hc, hk, Option.elim_some] at hold
      rw [if_pos hc, if_pos hc, hc, hold]
    · rw [if_neg hc, if_neg hc]
      exact hold
  · refine h.lives.kept (kept_setCounter hk ?_ ?_ ?_ rfl)
    · rfl
    · simp [h0]
    · exact fun g hg => count_goto_of_quiet htop hend
        (fun g hg => List.mem_singleton.mp hg ▸ hend') hg
  · refine h.enclosed.step htop rfl (fun x hx => ⟨x, hx, rfl, rfl⟩) ?_ ?_ ?_
    · exact fun o ho => hdealloc o (List.mem_singleton.mp ho).symm
    · exact fun r hr => absurd hr (hdrop r).1
    · exact fun r hr => absurd hr (hdrop r).2

/-- Nothing is counted for an operation. -/
theorem Inv.skip (h : Inv s) (htop : s.threads.top i = some f) (hcounted : f'.counted = f.counted)
    (howns : ∀ r, f.owns r = f'.owns r) (hend : f.isEnd = false) (hend' : f'.isEnd = false)
    (hdrop : ∀ r, f ≠ .destroyDrop r ∧ f ≠ .destroyEnd r) (hdealloc : ∀ o, f' ≠ .dealloc o) :
    Inv (goto i [f'] s) := by
  refine ⟨?_, fun c' => ?_, ?_, ?_⟩
  · refine h.owned.goto htop rfl rfl fun r => ?_
    rw [List.countP_singleton, howns r]
  · have hlive := @live_goto s (goto i [f'] s) i f [f'] htop rfl rfl c'
    have hsame : f'.countsFor c' = f.countsFor c' := by rw [Frame.countsFor, hcounted]; rfl
    rw [List.countP_singleton, hsame] at hlive
    exact (Nat.add_right_cancel hlive).trans (h.counted c')
  · refine h.lives.kept ⟨rfl, rfl, rfl, rfl, rfl, rfl, fun _ => rfl, fun g hg => ?_⟩
    exact count_goto_of_quiet htop hend (fun g hg => List.mem_singleton.mp hg ▸ hend') hg
  · refine h.enclosed.step htop rfl (fun x hx => ⟨x, hx, rfl, rfl⟩) ?_ ?_ ?_
    · exact fun o ho => hdealloc o (List.mem_singleton.mp ho).symm
    · exact fun r hr => absurd hr (hdrop r).1
    · exact fun r hr => absurd hr (hdrop r).2

/-- The reference that an operation owns points to what was counted for it. -/
theorem Inv.settle (h : Inv s) (htop : s.threads.top i = some f)
    (howns : ∀ r', f.owns r' = decide (r = r')) (hend : f.isEnd = false)
    (hdrop : ∀ r, f ≠ .destroyDrop r ∧ f ≠ .destroyEnd r) :
    Inv (goto i [] (setRef r (fun x => { x with refCount := f.counted, live := true }) s)) := by
  obtain ⟨x, hx, rfl, hlive⟩ := h.owned.exists_pending (Pool.mem_of_top htop)
    ((howns r).trans (decide_eq_true rfl))
  have hnames : ∀ y : Reference,
      ({ y with refCount := f.counted, live := true } : Reference).name = y.name := fun _ => rfl
  refine ⟨?_, fun c => ?_, ?_, ?_⟩
  · refine h.owned.step htop hx hnames rfl rfl fun r' => ?_
    simp only [Reference.pending, hlive, howns r', List.countP_nil]
    by_cases hr : x.name = r' <;> simp [hr]
  · have hcount := @live_step s (goto i [] (setRef x.name (fun x => { x with
      refCount := f.counted, live := true }) s)) i f [] x h.owned htop hx _ rfl rfl c
    simp only [Reference.countsFor, hlive, Bool.false_and, Bool.true_and, List.countP_nil]
      at hcount
    have hsame : (if f.countsFor c = true then 1 else 0) =
        if decide (f.counted = some c) = true then 1 else 0 := rfl
    rw [hsame] at hcount
    refine Eq.trans ?_ (h.counted c)
    simp only [Bool.false_eq_true, if_false] at hcount
    omega
  · refine h.lives.kept ⟨rfl, rfl, rfl, rfl, rfl, rfl, fun _ => rfl, fun g hg => ?_⟩
    exact count_goto_of_quiet (s := setRef x.name _ s) htop hend
      (fun g hg => absurd hg List.not_mem_nil) hg
  · refine h.enclosed.step htop rfl (setRef_home fun y => ⟨rfl, rfl⟩)
      (fun o ho => absurd ho List.not_mem_nil) ?_ ?_
    · exact fun r hr => absurd hr (hdrop r).1
    · exact fun r hr => absurd hr (hdrop r).2

theorem counters_setCounter (c' : Counter) (k' : Option RefCounter) :
    (setCounter c k' s).counters c' = if c' = c then k' else s.counters c' := by
  change Function.update s.counters c k' c' = _
  rw [Function.update_apply]

theorem Lives.ended (h : Lives s) {s' : State} (hk : s.counters c = some k) (h0 : k.refcount ≠ 0)
    (hs' : s' = { setCounter c (some { k with refcount := 0 }) s with
      refs := s'.refs, threads := s'.threads })
    (hframes : ∀ g : Frame, g.isEnd = true → s'.threads.frames.count g =
      s.threads.frames.count g + if .erase c = g then 1 else 0) : Lives s' := by
  have hcounters : ∀ c', s'.counters c' =
      if c' = c then some { k with refcount := 0 } else s.counters c' := by
    rw [hs']
    exact fun c' => counters_setCounter c' _
  have hback : ∀ c' k', s'.counters c' = some k' → ∃ k₀, s.counters c' = some k₀ ∧
      k₀.obj = k'.obj ∧ (k'.refcount ≠ 0 → k₀.refcount ≠ 0) := by
    intro c' k' hk'
    rw [hcounters] at hk'
    split_ifs at hk' with hc
    · obtain rfl := Option.some.inj hk'
      exact ⟨k, hc ▸ hk, rfl, fun hne => absurd rfl hne⟩
    · exact ⟨k', hk', rfl, fun hne => hne⟩
  have hforth : ∀ c' k₀, s.counters c' = some k₀ → ∃ k', s'.counters c' = some k' ∧
      k'.obj = k₀.obj := by
    intro c' k₀ hk₀
    rw [hcounters]
    split_ifs with hc
    · rw [hc, hk] at hk₀
      obtain rfl := Option.some.inj hk₀
      exact ⟨_, rfl, rfl⟩
    · exact ⟨k₀, hk₀, rfl⟩
  have hdealloc : ∀ o, deallocating s' o = deallocating s o := by
    intro o
    rw [deallocating, hframes _ rfl, if_neg (by simp), Nat.add_zero, deallocating]
  have hobjects : s'.objects = s.objects := by rw [hs']; rfl
  have haddr : s'.addr = s.addr := by rw [hs']; rfl
  have hallocated : s'.allocated = s.allocated := by rw [hs']; rfl
  have hreferenced : s'.referenced = s.referenced := by rw [hs']; rfl
  have hdeleted : s'.deleted = s.deleted := by rw [hs']; rfl
  have htotNum : s'.totNum = s.totNum := by rw [hs']; rfl
  refine ⟨?_, ?_, ?_, ?_, ?_, ?_, ?_, ?_, ?_, ?_, ?_⟩
  · intro c' hc'
    rw [htotNum] at hc'
    have hnone := h.fresh c' hc'
    rw [hcounters, if_neg, hnone]
    rintro rfl
    rw [hk] at hnone
    cases hnone
  · intro c' k' hk'
    obtain ⟨k₀, hk₀, hobj, -⟩ := hback c' k' hk'
    rw [← hobj, hallocated, hreferenced, hdealloc]
    exact h.obj c' k₀ hk₀
  · intro c₁ c₂ k₁ k₂ h₁ h₂ heq
    obtain ⟨k₁', h₁', hobj₁, -⟩ := hback c₁ k₁ h₁
    obtain ⟨k₂', h₂', hobj₂, -⟩ := hback c₂ k₂ h₂
    exact h.shared c₁ c₂ k₁' k₂' h₁' h₂' (hobj₁.trans (heq.trans hobj₂.symm))
  · intro c' k' hk' hne
    obtain ⟨k₀, hk₀, hobj, hne₀⟩ := hback c' k' hk'
    rw [← hobj, hobjects, haddr]
    exact h.listed c' k₀ hk₀ (hne₀ hne)
  · intro a c' hac
    rw [hobjects] at hac
    obtain ⟨⟨k₀, hk₀, hk₀addr⟩, hfree⟩ := h.table a c' hac
    obtain ⟨k', hk', hobj⟩ := hforth c' k₀ hk₀
    rw [hframes _ rfl, if_neg (by simp), Nat.add_zero, haddr]
    exact ⟨⟨k', hk', by rw [hobj]; exact hk₀addr⟩, hfree⟩
  · intro c'
    have hold := h.endings c'
    rw [ending] at hold
    rw [ending, hframes _ rfl, hframes _ rfl, hcounters,
      if_neg (by simp : ¬Frame.erase c = .free c')]
    by_cases hc : c' = c
    · rw [hc, hk, Option.elim_some, if_neg h0] at hold
      rw [hc, if_pos rfl, if_pos rfl, Option.elim_some, if_pos rfl]
      omega
    · rw [if_neg hc, if_neg (by simpa using Ne.symm hc)]
      exact hold
  · rw [hallocated, haddr]
    exact h.addrs
  · exact hallocated ▸ h.allocated
  · rw [hallocated, hdeleted]
    exact h.deleted
  · intro o
    rw [hdealloc, hallocated, hreferenced]
    exact h.deletions o
  · intro o ho
    rw [hreferenced] at ho
    rw [hdealloc, hdeleted]
    refine (h.accounted o ho).imp_left ?_
    rintro ⟨c', k₀, hk₀, hobj⟩
    obtain ⟨k', hk', hobj'⟩ := hforth c' k₀ hk₀
    exact ⟨c', k', hk', hobj'.trans hobj⟩

theorem Counted.exists_counter (h : Counted s) (hx : x ∈ s.refs) (hlive : x.live = true)
    (hc : x.refCount = some c) : ∃ k, s.counters c = some k ∧ k.refcount ≠ 0 := by
  have hpos : 0 < s.refs.countP (·.countsFor c) :=
    List.countP_pos_iff.mpr ⟨x, hx, by simp [Reference.countsFor, hlive, hc]⟩
  have hold := h c
  rw [live] at hold
  cases hk : s.counters c with
  | none =>
    rw [hk, Option.elim_none] at hold
    omega
  | some k =>
    rw [hk, Option.elim_some] at hold
    exact ⟨k, rfl, by omega⟩

/-- A reference is taken out of the count, and the object is deleted if it was the last one. -/
theorem Inv.drop (h : Inv s) (htop : s.threads.top i = some f) (hx : x ∈ s.refs)
    (hlive : x.live = true) (hcounted : f'.counted = f.counted)
    (hf : ∀ r, f.owns r = false) (hf' : ∀ r, f'.owns r = decide (x.name = r))
    (hend : f.isEnd = false) (hend' : f'.isEnd = false) (hdealloc : ∀ o, f' ≠ .dealloc o)
    (hdrop : ∀ r, f = .destroyDrop r → f' = .destroyEnd r) (hdone : ∀ r, f ≠ .destroyEnd r) :
    Inv (drop i x.name f' junk s) := by
  have hnames : ∀ y : Reference, ({ y with live := false } : Reference).name = y.name :=
    fun _ => rfl
  -- the reference and the operation, whatever becomes of the counter
  have howned : ∀ (s' : State) (fs : List Frame), (∀ g ∈ fs, g.isEnd = true) →
      s'.refs = (setRef x.name (fun y => { y with live := false }) s).refs →
      s'.threads = s.threads.replace i (fs ++ [f']) → Owned s' := by
    intro s' fs hfs hrefs hthreads
    refine h.owned.step htop hx hnames hrefs hthreads fun r => ?_
    have hnone : fs.countP (·.owns r) = 0 := by
      rw [List.countP_eq_zero]
      intro g hg
      have hg' := hfs g hg
      cases g <;> simp_all [Frame.owns, Frame.isEnd]
    rw [List.countP_append, hnone, List.countP_singleton, hf r, hf' r]
    simp [Reference.pending, hlive]
  have hcount : ∀ (s' : State) (fs : List Frame), (∀ g ∈ fs, g.isEnd = true) →
      s'.refs = (setRef x.name (fun y => { y with live := false }) s).refs →
      s'.threads = s.threads.replace i (fs ++ [f']) → ∀ c',
        live s' c' + (if x.refCount = some c' then 1 else 0) = live s c' := by
    intro s' fs hfs hrefs hthreads c'
    have hl := live_step h.owned htop hx hrefs hthreads c'
    have hnone : fs.countP (·.countsFor c') = 0 := by
      rw [List.countP_eq_zero]
      intro g hg
      have hg' := hfs g hg
      cases g <;> simp_all [Frame.countsFor, Frame.counted, Frame.isEnd]
    have hsame : f'.countsFor c' = f.countsFor c' := by rw [Frame.countsFor, hcounted]; rfl
    rw [List.countP_append, hnone, List.countP_singleton, hsame] at hl
    simp only [Reference.countsFor, hlive, Bool.true_and, Bool.false_and, Bool.false_eq_true,
      if_false, decide_eq_true_eq] at hl
    omega
  have henclosed : ∀ (s' : State) (fs : List Frame), (∀ o, .dealloc o ∉ fs) →
      s'.refs = (setRef x.name (fun y => { y with live := false }) s).refs →
      s'.threads = s.threads.replace i (fs ++ [f']) → Enclosed s' := by
    intro s' fs hfs hrefs hthreads
    refine h.enclosed.step htop hthreads ?_ ?_ ?_ ?_
    · rw [hrefs]
      exact setRef_home fun y => ⟨rfl, rfl⟩
    · intro o ho
      rcases List.mem_append.mp ho with ho | ho
      · exact hfs o ho
      · exact hdealloc o (List.mem_singleton.mp ho).symm
    · exact fun r hr => List.mem_append_right _ (List.mem_singleton.mpr (hdrop r hr).symm)
    · exact fun r hr => absurd hr (hdone r)
  have hquiet : ∀ g : Frame, g.isEnd = true →
      (s.threads.replace i [f']).frames.count g = s.threads.frames.count g := fun g hg =>
    count_goto_of_quiet htop hend (fun g hg => List.mem_singleton.mp hg ▸ hend') hg
  rw [ReferenceCounting.drop, pointer_of_mem h.owned.names hx]
  cases hc : x.refCount with
  | none =>
    refine ⟨howned _ [] nofun rfl rfl, fun c' => ?_, ?_, henclosed _ [] nofun rfl rfl⟩
    · have hl := hcount (goto i [f'] (setRef x.name (fun y => { y with live := false }) s)) []
        nofun rfl rfl c'
      rw [hc, if_neg (Option.some_ne_none c').symm] at hl
      exact hl.trans (h.counted c')
    · exact h.lives.kept ⟨rfl, rfl, rfl, rfl, rfl, rfl, fun _ => rfl, hquiet⟩
  | some c =>
    obtain ⟨k, hk, h0⟩ := h.counted.exists_counter hx hlive hc
    have hcounters : ∀ n c', ((setCounter c (some { k with refcount := n }) s).counters c').elim 0
        RefCounter.refcount = if c' = c then n else live s c' := by
      intro n c'
      rw [elim_setCounter, h.counted c']
    have hlc : live s c = k.refcount := by rw [h.counted c, hk, Option.elim_some]
    have hdec : decCount c (setRef x.name (fun y => { y with live := false }) s) =
        (setCounter c (some { k with refcount := k.refcount - 1 })
          (setRef x.name (fun y => { y with live := false }) s), decide (k.refcount - 1 = 0)) := by
      have hk' : (setRef x.name (fun y => { y with live := false }) s).counters c = some k := hk
      rw [decCount, hk']
      exact if_neg h0
    have hlive' : ∀ (s' : State) (fs : List Frame), (∀ g ∈ fs, g.isEnd = true) →
        s'.refs = (setRef x.name (fun y => { y with live := false }) s).refs →
        s'.threads = s.threads.replace i (fs ++ [f']) → ∀ c',
          live s' c' = if c' = c then k.refcount - 1 else live s c' := by
      intro s' fs hfs hrefs hthreads c'
      have hl := hcount s' fs hfs hrefs hthreads c'
      rw [hc] at hl
      by_cases heq : c' = c
      · rw [heq, if_pos rfl, hlc] at hl
        rw [if_pos heq, heq]
        omega
      · rw [if_neg fun h => heq (Option.some.inj h).symm] at hl
        rw [if_neg heq]
        exact hl
    dsimp only
    rw [hdec]
    by_cases hlast : k.refcount - 1 = 0
    · rw [decide_eq_true hlast]
      have hends : ∀ g ∈ [Frame.erase c], g.isEnd = true := by simp [Frame.isEnd]
      refine ⟨howned _ [.erase c] hends rfl rfl, fun c' => ?_, ?_,
        henclosed _ [.erase c] (by simp) rfl rfl⟩
      · refine (hlive' _ [.erase c] hends ?_ ?_ c').trans (hcounters _ c').symm
        · rfl
        · rfl
      · refine h.lives.ended hk h0 (by rw [hlast]; rfl) fun g hg => ?_
        have hcnt := Pool.count_replace htop [.erase c, f'] g
        have hne : f ≠ g := by rintro rfl; rw [hend] at hg; cases hg
        have hne' : f' ≠ g := by rintro rfl; rw [hend'] at hg; cases hg
        rw [if_neg hne, List.count_cons, List.count_singleton] at hcnt
        simp only [beq_iff_eq, hne', if_false, Nat.zero_add] at hcnt
        exact hcnt
    · rw [decide_eq_false hlast]
      refine ⟨howned _ [] nofun rfl rfl, fun c' => ?_, ?_, henclosed _ [] nofun rfl rfl⟩
      · refine (hlive' _ [] nofun ?_ ?_ c').trans (hcounters _ c').symm
        · rfl
        · rfl
      · refine h.lives.kept (kept_setCounter hk ?_ ?_ hquiet rfl)
        · rfl
        · exact iff_of_false hlast h0

end Frames

end ReferenceCounting
end Haggle
