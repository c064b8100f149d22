import Haggle.SendMoves

/-!
# Where the accepted data objects are

Each accepted element is counted once: in the queue, in the hands of a thread, or among the results.
-/

namespace Haggle
namespace Protocol

variable {D : Type} {s : Protocol D} {q q' : GenericQueue (QueueElement D)}
  {res res' : List (SendResult D)} {held held' : List (QueueElement D)}

variable [DecidableEq D]

def count (res : List (SendResult D)) (e : QueueElement D) : ℕ :=
  (res.map SendResult.element).count e

theorem Moves.count_eq (h : Moves q q' res res' held held') (hq : q.Signalled) :
    q'.Signalled ∧ ∀ e, q'.lst.count e + held'.count e + count res' e =
      q.lst.count e + held.count e + count res e := by
  cases h with
  | keep hlst hsignal hres hheld =>
    subst hres hheld
    refine ⟨?_, fun e => by rw [hlst]⟩
    rw [GenericQueue.Signalled, hlst, hsignal]
    exact hq
  | take x hqueue hres hheld =>
    subst hres hheld
    obtain ⟨hlst, hsig⟩ := GenericQueue.take_eq_some hq hqueue
    refine ⟨hsig, fun e => ?_⟩
    rw [hlst, List.count_cons, List.count_cons]
    omega
  | report r hlst hsignal hres hheld =>
    subst hres hheld
    refine ⟨?_, fun e => ?_⟩
    · rw [GenericQueue.Signalled, hlst, hsignal]
      exact hq
    · simp only [count, List.map_append, List.map_cons, List.map_nil, List.count_append,
        List.count_cons, List.count_nil, hlst]
      omega

/-- Every accepted element is in exactly one place. -/
structure Ledger (s : Protocol D) : Prop where
  signal : s.queue.Signalled
  balance : ∀ e, s.accepted.count e =
    s.queue.lst.count e + s.run.held.count e + s.kernel.held.count e + count s.results e
  nodup : s.accepted.Nodup
  fresh : ∀ e ∈ s.accepted, e.id < s.next
  pending : ∀ e, s.kernel = .insert e → e ∉ s.accepted ∧ e.id < s.next

theorem ledger_init (peerNode : Option PeerNode) : Ledger (init peerNode : Protocol D) where
  signal := GenericQueue.signalled_new
  balance _ := rfl
  nodup := List.nodup_nil
  fresh _ h := nomatch h
  pending _ h := nomatch h

theorem Ledger.runStep (h : Ledger s) (i : ThreadInput) (hb : (s.runStep i).broken = false) :
    Ledger (s.runStep i) := by
  obtain ⟨hsig, hcount⟩ := (runStep_moves s i hb).count_eq h.signal
  have hk := runStep_sameKernel s i
  refine ⟨hsig, fun e => ?_, ?_, ?_, ?_⟩
  · have hold := h.balance e
    have hnew := hcount e
    rw [hk.accepted, hk.kernel]
    omega
  · rw [hk.accepted]
    exact h.nodup
  · rw [hk.accepted, hk.next]
    exact h.fresh
  · rw [hk.accepted, hk.next, hk.kernel]
    exact h.pending

theorem Ledger.kernelStep (h : Ledger s) (hoff : s.thr = none → s.run = .off)
    (hb : s.kernelStep.broken = false) : Ledger s.kernelStep := by
  cases kernelStep_effect s hb with
  | moves hmoves haccepted hnext hrun hkernel =>
    obtain ⟨hsig, hcount⟩ := hmoves.count_eq h.signal
    refine ⟨hsig, fun e => ?_, ?_, ?_, fun e he => absurd he (hkernel e)⟩
    · have hold := h.balance e
      have hnew := hcount e
      rw [haccepted, hrun]
      omega
    · rw [haccepted]
      exact h.nodup
    · rw [haccepted, hnext]
      exact h.fresh
  | make dObj peerNode hheld heq =>
    rw [heq]
    refine ⟨h.signal, fun e => ?_, h.nodup,
      fun e he => (h.fresh e he).trans (Nat.lt_succ_self _), ?_⟩
    · have hold := h.balance e
      rw [hheld] at hold
      exact hold
    · intro e he
      obtain rfl := KernelPc.insert.inj he
      exact ⟨fun hmem => absurd (h.fresh _ hmem) (lt_irrefl _), Nat.lt_succ_self _⟩
  | insert e q hkernel hqueue heq =>
    obtain ⟨hnew, hlt⟩ := h.pending e hkernel
    obtain ⟨hlst, hsig⟩ := GenericQueue.insert_eq_some hqueue
    rw [heq]
    refine ⟨hsig, fun x => ?_, ?_, ?_, fun _ => nofun⟩
    · have hold := h.balance x
      simp only [hkernel, KernelPc.held, List.count_nil] at hold
      simp only [hlst, KernelPc.held, List.count_append, List.count_nil]
      omega
    · exact List.Nodup.append h.nodup (List.nodup_singleton e) (by simpa using hnew)
    · intro x hx
      rcases List.mem_append.mp hx with hx | hx
      · exact h.fresh x hx
      · rw [List.mem_singleton.mp hx]
        exact hlt
  | start hheld hthr heq =>
    rw [heq]
    refine ⟨h.signal, fun e => ?_, h.nodup, h.fresh, fun _ => nofun⟩
    have hold := h.balance e
    rw [hheld, hoff hthr] at hold
    exact hold

omit [DecidableEq D] in
/-- An event only sets the kernel thread on its way. -/
theorem onEvent_eq (hk : s.kernel = .idle) (ev : ManagerEvent D) :
    ∃ (pc : KernelPc D) (inRegistry killer : Bool) (events : ℕ),
      s.onEvent ev = { s with
        kernel := pc
        inRegistry := inRegistry
        killer := killer
        deleteEvents := events } ∧ pc.held = [] ∧ ∀ e, pc ≠ .insert e := by
  have hidle : s.kernel.held = [] ∧ ∀ e, s.kernel ≠ .insert e := by
    rw [hk]
    exact ⟨rfl, fun _ => nofun⟩
  cases ev with
  | sendDataObject dObj peer =>
    simp only [onEvent]
    split_ifs
    · exact ⟨_, _, _, _, rfl, rfl, fun _ => nofun⟩
    · exact ⟨_, _, _, _, rfl, hidle⟩
  | interfaceDown =>
    simp only [onEvent]
    split_ifs
    · exact ⟨_, _, _, _, rfl, rfl, fun _ => nofun⟩
    · exact ⟨_, _, _, _, rfl, hidle⟩
  | onShutdown =>
    simp only [onEvent]
    split_ifs
    · exact ⟨_, _, _, _, rfl, rfl, fun _ => nofun⟩
    · exact ⟨_, _, _, _, rfl, hidle⟩
  | onDeleteProtocolEvent =>
    simp only [onEvent]
    split_ifs
    · exact ⟨_, _, _, _, rfl, hidle⟩
    · exact ⟨_, _, _, _, rfl, rfl, fun _ => nofun⟩
    · exact ⟨_, _, _, _, rfl, rfl, fun _ => nofun⟩
    · exact ⟨_, _, _, _, rfl, hidle⟩
  | onProtocolShutdownTimeout =>
    simp only [onEvent]
    split_ifs
    · exact ⟨_, _, _, _, rfl, rfl, fun _ => nofun⟩
    · exact ⟨_, _, _, _, rfl, hidle⟩
  | destroyManager =>
    simp only [onEvent]
    split_ifs
    · exact ⟨_, _, _, _, rfl, rfl, fun _ => nofun⟩
    · exact ⟨_, _, _, _, rfl, hidle⟩

theorem Ledger.onEvent (h : Ledger s) (hk : s.kernel = .idle) (ev : ManagerEvent D) :
    Ledger (s.onEvent ev) := by
  obtain ⟨pc, inRegistry, killer, events, heq, hheld, hpc⟩ := onEvent_eq hk ev
  rw [heq]
  refine ⟨h.signal, fun e => ?_, h.nodup, h.fresh, fun e he => absurd he (hpc e)⟩
  have hold := h.balance e
  rw [hk] at hold
  simp only [hheld]
  exact hold

end Protocol
end Haggle
