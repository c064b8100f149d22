import Haggle.KernelControl
import Haggle.Trace

/-!
# Send results

A data object that `sendDataObject` has accepted gets one result. The manager breaks this when it
deletes a protocol that has not stopped in time: its thread may be sending an object just then, and
nobody reports on it.
-/

namespace Haggle
namespace Protocol

variable {D : Type} [DecidableEq D] {s : Protocol D}

/-- No element has two results, none is lost, and none is without a result when the protocol has
been deleted. -/
structure ExactlyOnce (s : Protocol D) : Prop where
  accepted : ∀ r ∈ s.results, r.element ∈ s.accepted
  once : ∀ e, count s.results e ≤ 1
  kept : ∀ e ∈ s.accepted, count s.results e = 0 →
    e ∈ s.queue.lst ∨ e ∈ s.run.held ∨ e ∈ s.kernel.held
  deleted : s.deleted = true → ∀ e ∈ s.accepted, count s.results e = 1

structure Inv (s : Protocol D) : Prop where
  ledger : Ledger s
  control : Control s

omit [DecidableEq D] in
theorem held_of_not_executing {pc : RunPc D} (h : pc.executing = false) : pc.held = [] := by
  cases pc <;> first | rfl | cases h

theorem Inv.exactlyOnce (h : Inv s) : ExactlyOnce s where
  accepted r hr := by
    have hbalance := h.ledger.balance r.element
    have hpos : 0 < count s.results r.element := List.count_pos_iff.mpr (List.mem_map_of_mem hr)
    exact List.count_pos_iff.mp (by omega)
  once e := by
    have hbalance := h.ledger.balance e
    have hle := List.nodup_iff_count_le_one.mp h.ledger.nodup e
    omega
  kept e he hzero := by
    have hbalance := h.ledger.balance e
    have hpos := List.count_pos_iff.mpr he
    by_contra hnone
    simp only [not_or] at hnone
    rw [List.count_eq_zero_of_not_mem hnone.1, List.count_eq_zero_of_not_mem hnone.2.1,
      List.count_eq_zero_of_not_mem hnone.2.2] at hbalance
    omega
  deleted hdel e he := by
    obtain ⟨hempty, hrun, hkernel, -⟩ := h.control.freed hdel
    have hbalance := h.ledger.balance e
    rw [hempty, held_of_not_executing hrun, hkernel] at hbalance
    simp only [KernelPc.held, List.count_nil, Nat.zero_add] at hbalance
    rw [← hbalance]
    exact List.count_eq_one_of_mem h.ledger.nodup he

/-! ## Events -/

omit [DecidableEq D] in
/-- The kernel thread begins with an event that concerns a registered protocol. -/
theorem Control.begin (h : Control s) (hlive : s.inRegistry = true) {pc : KernelPc D}
    {inRegistry killer : Bool} {deleteEvents : ℕ} (htimed : pc = .timeout → killer = true)
    (hevicts : pc.evicts = false) (halone : pc.clears = true → s.run.executing = false)
    (hended : pc.ends = true → inRegistry = false) (htakes : ∀ b, pc ≠ .clearing .take b)
    (hstopped : killer = true → pc.stops = false → s.thr ≠ some .running)
    (hunstarted : killer = true → s.thr = none →
      pc.sends = false ∧ (s.mode = .done ∨ pc = .setDone)) :
    Control { s with
      kernel := pc
      inRegistry := inRegistry
      killer := killer
      deleteEvents := deleteEvents } where
  unbroken := h.unbroken
  off := h.off
  attached := h.attached
  kept := h.kept
  evicts := hevicts
  alone := halone
  ended := hended
  takes := h.takes
  clearTakes b hb := absurd hb (htakes b)
  stopped := hstopped
  unstarted := hunstarted
  timed := htimed
  freed hdel := by simp [(h.freed hdel).2.2.2] at hlive

omit [DecidableEq D] in
theorem Control.onEvent (h : Control s) (hk : s.kernel = .idle) (ev : ManagerEvent D)
    (ho : Orderly s (.event ev)) : Control (s.onEvent ev) := by
  have hstopped : s.killer = true → s.thr ≠ some .running := fun hkiller =>
    h.stopped hkiller (by rw [hk]; rfl)
  have hdone : s.killer = true → s.thr = none → s.mode = .done :=
    h.done (by simp [hk])
  cases ev with
  | sendDataObject dObj peer =>
    simp only [Protocol.onEvent]
    split_ifs with hlive
    · refine h.begin hlive.1 (by simp) rfl (fun h => by cases h) (fun h => by cases h)
        (fun _ => by simp) (fun hkiller _ => hstopped hkiller) fun hkiller hthr => ?_
      have hmode := hlive.2.symm.trans (hdone hkiller hthr)
      cases hmode
    · exact h
  | interfaceDown =>
    simp only [Protocol.onEvent]
    split_ifs with hlive
    · exact h.begin hlive (by simp) rfl (fun h => by cases h) (fun h => by cases h)
        (fun _ => by simp) (fun _ h => by cases h) fun _ _ => ⟨rfl, .inr rfl⟩
    · exact h
  | onShutdown =>
    simp only [Protocol.onEvent]
    split_ifs with hlive
    · exact h.begin hlive (by simp) rfl (fun h => by cases h) (fun h => by cases h)
        (fun _ => by simp) (fun _ h => by cases h) fun _ _ => ⟨rfl, .inr rfl⟩
    · exact h
  | onDeleteProtocolEvent =>
    have hjoin : (if s.detached = true then .idle else KernelPc.join : KernelPc D) = .join := by
      rw [h.attached]
      rfl
    simp only [Protocol.onEvent]
    rw [hjoin]
    split_ifs with hnone hlive
    · exact h
    · refine h.begin hlive ?_ rfl ?_ (fun _ => rfl) (fun _ => by simp)
        (fun hkiller _ => hstopped hkiller) fun hkiller hthr => ⟨rfl, .inl (hdone hkiller hthr)⟩
      · simp
      · exact fun h => by cases h
    · exact ⟨h.unbroken, h.off, h.attached, h.kept, h.evicts, h.alone, h.ended, h.takes,
        h.clearTakes, h.stopped, h.unstarted, h.timed, h.freed⟩
  | onProtocolShutdownTimeout =>
    simp only [Protocol.onEvent]
    split_ifs with hlive
    · exact h.begin hlive.2 (fun _ => hlive.1) rfl (fun _ => ho hlive.1 hlive.2) (fun _ => rfl)
        (fun _ => by simp) (fun hkiller _ => hstopped hkiller)
        fun hkiller hthr => ⟨rfl, .inl (hdone hkiller hthr)⟩
    · exact h
  | destroyManager =>
    simp only [Protocol.onEvent]
    split_ifs with hlive
    · exact h.begin hlive (by simp) rfl (fun _ => ho hlive) (fun _ => rfl) (fun _ => by simp)
        (fun hkiller _ => hstopped hkiller) fun hkiller hthr => ⟨rfl, .inl (hdone hkiller hthr)⟩
    · exact h

/-! ## Runs -/

theorem Inv.thread (h : Inv s) (i : ThreadInput) : Inv (s.step (.thread i)) := by
  have hsafe : (s.deleted && s.run.executing) = false := by
    cases hdel : s.deleted with
    | false => rfl
    | true => exact (h.control.freed hdel).2.1
  have hcontrol := h.control.runStep h.ledger.signal i
  simp only [step, h.control.unbroken, hsafe, Bool.false_eq_true, if_false]
  exact ⟨h.ledger.runStep i hcontrol.unbroken, hcontrol⟩

theorem Inv.kernel (h : Inv s) : Inv (s.step .kernel) := by
  cases hdel : s.deleted with
  | false =>
    have hcontrol := h.control.kernelStep h.ledger.signal hdel
    simp only [step, h.control.unbroken, hdel, Bool.false_and, Bool.false_eq_true, if_false]
    exact ⟨h.ledger.kernelStep h.control.off.mp hcontrol.unbroken, hcontrol⟩
  | true =>
    -- the kernel thread has nothing more to do with a deleted protocol
    obtain ⟨-, -, hidle, -⟩ := h.control.freed hdel
    simp only [step, h.control.unbroken, hdel, hidle, KernelPc.busy, Bool.and_false,
      Bool.false_eq_true, if_false, kernelStep]
    exact h

theorem Inv.step (h : Inv s) (a : ProtocolStep D) (ho : Orderly s a) : Inv (s.step a) := by
  cases a with
  | thread i => exact h.thread i
  | kernel => exact h.kernel
  | event ev =>
    simp only [Protocol.step, h.control.unbroken, Bool.false_eq_true, if_false]
    split_ifs with hbusy
    · exact h
    · have hidle : s.kernel = .idle := by
        cases hk : s.kernel <;> first | rfl | simp [hk, KernelPc.busy] at hbusy
      exact ⟨h.ledger.onEvent hidle ev, h.control.onEvent hidle ev ho⟩

theorem inv_init (peerNode : Option PeerNode) : Inv (init peerNode : Protocol D) :=
  ⟨ledger_init peerNode, control_init peerNode⟩

theorem inv_run (peerNode : Option PeerNode) {as : List (ProtocolStep D)}
    (hg : Trace.Guarded step Orderly (init peerNode) as) :
    Inv (Trace.run step (init peerNode) as) := by
  have hstep : ∀ (s : Protocol D) (a : ProtocolStep D), Inv s → Orderly s a → Inv (s.step a) :=
    fun s a h ho => h.step a ho
  exact Trace.invariant_of_guarded hstep (inv_init peerNode) hg

/-- Every accepted data object has exactly one result in the end, whatever the two threads do and in
whatever order, if the manager does not delete the protocol while its thread is executing. -/
theorem exactlyOnce_run (peerNode : Option PeerNode) {as : List (ProtocolStep D)}
    (hg : Trace.Guarded step Orderly (init peerNode) as) {pre : List (ProtocolStep D)}
    (hpre : pre <+: as) :
    (Trace.run step (init peerNode) pre).broken = false ∧
      ExactlyOnce (Trace.run step (init peerNode) pre) := by
  obtain ⟨post, rfl⟩ := hpre
  have hinv := inv_run peerNode (Trace.guarded_append.mp hg).1
  exact ⟨hinv.control.unbroken, hinv.exactlyOnce⟩

end Protocol

namespace Sample

def peer : PeerNode := ⟨1, false⟩

/-- One data object is given to a new protocol, whose thread connects and takes it. -/
def sendOne : List (ProtocolStep ℕ) :=
  [.event (.sendDataObject 7 (some peer)), .kernel, .kernel, .kernel, .thread .go, .thread .go,
    .thread .go, .thread (.connectToPeer .success), .thread .go, .thread .go, .thread .go,
    .thread .go]

/-- The object is sent. A second one is accepted; the thread has just waited too long and does not
look at it any more. It has ended when the time to stop is over. -/
def sendTwo : List (ProtocolStep ℕ) :=
  sendOne ++ ([.thread (.sendDataObjectNow .success), .thread .go, .thread .go, .thread .go,
    .thread .go, .thread .go, .thread .go, .thread (.wait .timeout),
    .event (.sendDataObject 8 (some peer)), .kernel, .kernel, .kernel] : List (ProtocolStep ℕ)) ++
    List.replicate 17 (.thread .go : ProtocolStep ℕ) ++ ([.event .onShutdown, .kernel, .kernel,
    .kernel, .event .onProtocolShutdownTimeout] : List (ProtocolStep ℕ)) ++
    List.replicate 8 (.kernel : ProtocolStep ℕ)

/-- The thread is still busy with the object when the time to stop is over. -/
def stopLate : List (ProtocolStep ℕ) :=
  sendOne ++ ([.event .onShutdown, .kernel, .kernel, .kernel, .kernel,
    .event .onProtocolShutdownTimeout, .kernel, .kernel, .kernel] : List (ProtocolStep ℕ))

end Sample

namespace Protocol

theorem exactlyOnce_run_sendTwo :
    (Trace.run step (init none) Sample.sendTwo).accepted = [⟨0, 7⟩, ⟨1, 8⟩] ∧
      (Trace.run step (init none) Sample.sendTwo).deleted = true ∧
      (Trace.run step (init none) Sample.sendTwo).broken = false ∧
      ExactlyOnce (Trace.run step (init none) Sample.sendTwo) := by
  refine ⟨by decide +kernel, by decide +kernel, ?_⟩
  exact exactlyOnce_run none (by decide +kernel) List.prefix_rfl

/-- The protocol is deleted while its thread is sending, and the object has no result. -/
theorem not_exactlyOnce_stopLate :
    (Trace.run step (init none) Sample.stopLate).deleted = true ∧
      ⟨0, 7⟩ ∈ (Trace.run step (init none) Sample.stopLate).accepted ∧
      count (Trace.run step (init none) Sample.stopLate).results ⟨0, 7⟩ = 0 ∧
      ¬ExactlyOnce (Trace.run step (init none) Sample.stopLate) := by
  have hdeleted : (Trace.run step (init none) Sample.stopLate).deleted = true := by decide
  have hmem : ⟨0, 7⟩ ∈ (Trace.run step (init none) Sample.stopLate).accepted := by decide
  have hzero : count (Trace.run step (init none) Sample.stopLate).results ⟨0, 7⟩ = 0 := by
    decide
  refine ⟨hdeleted, hmem, hzero, fun h => ?_⟩
  rw [h.deleted hdeleted _ hmem] at hzero
  cases hzero

end Protocol
end Haggle
