import Haggle.SendControl

/-!
# What the kernel thread does to a protocol

The kernel thread keeps the division of work. Once the manager is in shutdown no thread of a
protocol counts as running: those that ran were cancelled, and no other is started. So the manager
never finds a thread to detach when the time is up, and always deletes.
-/

namespace Haggle

variable {D : Type}

namespace KernelPc

variable {pc : KernelPc D}

theorem ends_of_clears (h : pc.clears = true) : pc.ends = true := by
  cases pc <;> first | rfl | cases h

theorem not_stops_of_ends (h : pc.ends = true) : pc.stops = false ∧ pc ≠ .setDone := by
  cases pc <;> first | exact ⟨rfl, nofun⟩ | cases h

end KernelPc

namespace Protocol

variable {s s' : Protocol D}

/-- A step of the kernel thread that leaves the other thread and the manager alone. -/
structure KernelFrame (s s' : Protocol D) : Prop where
  thr : s'.thr = s.thr
  run : s'.run = s.run
  detached : s'.detached = s.detached
  inRegistry : s'.inRegistry = s.inRegistry
  killer : s'.killer = s.killer
  deleted : s'.deleted = s.deleted
  broken : s'.broken = s.broken

theorem KernelFrame.set {q : GenericQueue (QueueElement D)} {mode : ProtocolMode}
    {connected isRegistered exitSignal : Bool} {peerNode : Option PeerNode}
    {tries errors events next : ℕ} {pc : KernelPc D} {accepted : List (QueueElement D)}
    {res : List (SendResult D)} :
    KernelFrame s { s with
      queue := q
      mode := mode
      connected := connected
      peerNode := peerNode
      isRegistered := isRegistered
      exitSignal := exitSignal
      numConnectTry := tries
      numerr := errors
      kernel := pc
      deleteEvents := events
      next := next
      accepted := accepted
      results := res } :=
  ⟨rfl, rfl, rfl, rfl, rfl, rfl, rfl⟩

theorem Control.frame (h : Control s) (hf : KernelFrame s s') (hdeleted : s.deleted = false)
    (htimed : s'.kernel ≠ .timeout) (hevicts : s'.kernel.evicts = false)
    (halone : s'.kernel.clears = true → s.run.executing = false)
    (hended : s'.kernel.ends = true → s.inRegistry = false)
    (hqueue : s.run = .take → s'.queue.lst ≠ [])
    (htakes : ∀ b, s'.kernel = .clearing .take b → s'.queue.lst ≠ [])
    (hstopped : s.killer = true → s'.kernel.stops = false → s.thr ≠ some .running)
    (hunstarted : s.killer = true → s.thr = none →
      s'.kernel.sends = false ∧ (s'.mode = .done ∨ s'.kernel = .setDone)) : Control s' where
  unbroken := hf.broken.trans h.unbroken
  off := by
    rw [hf.thr, hf.run]
    exact h.off
  attached := hf.detached.trans h.attached
  kept := by
    rw [hf.run]
    exact h.kept
  evicts := hevicts
  alone := by
    rw [hf.run]
    exact halone
  ended := by
    rw [hf.inRegistry]
    exact hended
  takes := by
    rw [hf.run]
    exact hqueue
  clearTakes := htakes
  stopped := by
    rw [hf.killer, hf.thr]
    exact hstopped
  unstarted := by
    rw [hf.killer, hf.thr]
    exact hunstarted
  timed hk := absurd hk htimed
  freed := by
    rw [hf.deleted, hdeleted]
    exact nofun

theorem Control.not_evicts (h : Control s) {pc : KernelPc D} (hk : s.kernel = pc) :
    pc.evicts = false := by
  rw [← hk]
  exact h.evicts

theorem Control.done (h : Control s) (hk : s.kernel ≠ .setDone) (hkiller : s.killer = true)
    (hthr : s.thr = none) : s.mode = .done :=
  (h.unstarted hkiller hthr).2.resolve_right hk

/-- The kernel thread is in a call that does not end the protocol. -/
theorem Control.call (h : Control s) (hf : KernelFrame s s') (hdeleted : s.deleted = false)
    (hends : s'.kernel.ends = false) (hqueue : s.run = .take → s'.queue.lst ≠ [])
    (hstopped : s.killer = true → s'.kernel.stops = false → s.thr ≠ some .running)
    (hunstarted : s.killer = true → s.thr = none →
      s'.kernel.sends = false ∧ (s'.mode = .done ∨ s'.kernel = .setDone)) : Control s' := by
  have htimed : s'.kernel ≠ .timeout := fun hpc => by simp [hpc, KernelPc.ends] at hends
  have hevicts : s'.kernel.evicts = false := by
    cases hpc : s'.kernel <;> first | rfl | simp [hpc, KernelPc.ends] at hends
  refine h.frame hf hdeleted htimed hevicts ?_ ?_ hqueue ?_ hstopped hunstarted
  · intro hclears
    simp [KernelPc.ends_of_clears hclears] at hends
  · rw [hends]
    exact nofun
  · intro b hb
    simp [hb, KernelPc.ends] at hends

theorem Control.setThr (h : Control s) (hthr : s.thr ≠ none) {t : ThreadState} (ht : t ≠ .running)
    (b : Bool) : Control { s with thr := some t, exitSignal := b } where
  unbroken := h.unbroken
  off := iff_of_false nofun fun hoff => hthr (h.off.mpr hoff)
  attached := h.attached
  kept := h.kept
  evicts := h.evicts
  alone := h.alone
  ended := h.ended
  takes := h.takes
  clearTakes := h.clearTakes
  stopped _ _ heq := ht (Option.some.inj heq)
  unstarted _ := nofun
  timed := h.timed
  freed := h.freed

theorem Control.cancel (h : Control s) : Control s.cancel ∧ s.cancel.thr ≠ some .running := by
  unfold Protocol.cancel
  split_ifs with hrun
  · simp only [isRunning, decide_eq_true_eq] at hrun
    have hne : s.thr ≠ none := by
      rw [hrun]
      exact nofun
    have hcancelled : ThreadState.cancelled ≠ .running := nofun
    exact ⟨h.setThr hne hcancelled true, nofun⟩
  · exact ⟨h, by simpa [isRunning] using hrun⟩

/-- The kernel thread returns from a call in which it does not stop the thread. -/
theorem Control.idle (h : Control s) (hf : KernelFrame s s') (hdeleted : s.deleted = false)
    (hk : s'.kernel = .idle) (hqueue : s'.queue = s.queue) (hmode : s'.mode = s.mode)
    (hstops : s.kernel.stops = false) : Control s' := by
  have hsetDone : s.kernel ≠ .setDone := fun hpc => by simp [hpc, KernelPc.stops] at hstops
  have hqueue' : s.run = .take → s'.queue.lst ≠ [] := by
    rw [hqueue]
    exact h.takes
  refine h.call hf hdeleted ?_ hqueue' ?_ ?_ <;> rw [hk]
  · rfl
  · exact fun hkiller _ => h.stopped hkiller hstops
  · intro hkiller hthr
    rw [hmode]
    exact ⟨rfl, .inl (h.done hsetDone hkiller hthr)⟩

/-- The kernel thread goes on to clear the queue, where the thread is not executing. -/
theorem Control.close (h : Control s) (hf : KernelFrame s s') (hdeleted : s.deleted = false)
    (hk : s'.kernel = .close true) (hqueue : s'.queue = s.queue) (hmode : s'.mode = s.mode)
    (hends : s.kernel.ends = true) (hrun : s.run.executing = false) : Control s' := by
  have hstops := KernelPc.not_stops_of_ends hends
  have hqueue' : s.run = .take → s'.queue.lst ≠ [] := by
    rw [hqueue]
    exact h.takes
  refine h.frame hf hdeleted ?_ ?_ (fun _ => hrun) (fun _ => h.ended hends) hqueue' ?_ ?_ ?_ <;>
    rw [hk]
  · exact nofun
  · rfl
  · exact fun _ => nofun
  · exact fun hkiller _ => h.stopped hkiller hstops.1
  · intro hkiller hthr
    rw [hmode]
    exact ⟨rfl, .inl (h.done hstops.2 hkiller hthr)⟩

/-- The kernel thread goes on to clear the queue. -/
theorem Control.clearing (h : Control s) (hf : KernelFrame s s') (hdeleted : s.deleted = false)
    (hclears : s.kernel.clears = true) {pc : ClearPc D}
    (hk : s'.kernel = .clearing pc true) (hmode : s'.mode = s.mode)
    (htakes : pc = .take → s'.queue.lst ≠ []) : Control s' := by
  have hrun : s.run.executing = false := h.alone hclears
  have hends := KernelPc.ends_of_clears hclears
  obtain ⟨hstops, hsetDone⟩ := KernelPc.not_stops_of_ends hends
  refine h.frame hf hdeleted ?_ ?_ (fun _ => hrun) (fun _ => h.ended hends) ?_ ?_ ?_ ?_
  · rw [hk]
    exact nofun
  · rw [hk]
    rfl
  · intro ht
    simp [ht, RunPc.executing] at hrun
  · intro b hb
    rw [hk] at hb
    exact htakes (KernelPc.clearing.inj hb).1
  · exact fun hkiller _ => h.stopped hkiller hstops
  · intro hkiller hthr
    rw [hmode, hk]
    exact ⟨rfl, .inl (h.done hsetDone hkiller hthr)⟩

theorem Control.free (h : Control s) (hclears : s.kernel.clears = true)
    (hempty : s.queue.lst = []) : Control { s with deleted := true, kernel := .idle } := by
  have hends := KernelPc.ends_of_clears hclears
  have hrun : s.run.executing = false := h.alone hclears
  have hpc := KernelPc.not_stops_of_ends hends
  exact ⟨h.unbroken, h.off, h.attached, h.kept, rfl, nofun, nofun, h.takes, fun _ => nofun,
    fun hkiller _ => h.stopped hkiller hpc.1,
    fun hkiller hthr => ⟨rfl, .inl (h.done hpc.2 hkiller hthr)⟩, nofun,
    fun _ => ⟨hempty, hrun, rfl, h.ended hends⟩⟩

theorem Control.joinStep (h : Control s) (hdeleted : s.deleted = false) (hk : s.kernel = .join) :
    Control s.join := by
  have hends : s.kernel.ends = true := by rw [hk]; rfl
  unfold Protocol.join
  split_ifs with hthr
  · exact h.close .set hdeleted rfl rfl rfl hends
      (by rw [h.off.mp hthr]; rfl)
  · split
    next hrun =>
      have hjoined : ThreadState.joined ≠ .running := nofun
      have h' := h.setThr hthr hjoined s.exitSignal
      exact h'.close .set hdeleted rfl rfl rfl hends
        (by rw [hrun]; rfl)
    · exact h

theorem Control.timeoutStep (h : Control s) (hdeleted : s.deleted = false)
    (hk : s.kernel = .timeout) : s.isRunning = false ∧ Control (s.kernelGoto (.close true)) := by
  have hthr : s.thr ≠ some .running := h.stopped (h.timed hk) (by rw [hk]; rfl)
  refine ⟨by simpa [isRunning] using hthr, ?_⟩
  exact h.close .set hdeleted rfl rfl rfl (by rw [hk]; rfl)
    (h.alone (by rw [hk]; rfl))

variable [DecidableEq D]

theorem Control.sendStep (h : Control s) (hdeleted : s.deleted = false)
    (hsends : s.kernel.sends = true) : Control s.kernelStep := by
  have hstops : s.kernel.stops = false := by
    cases hpc : s.kernel <;> first | rfl | simp [hpc, KernelPc.sends] at hsends
  have hstopped : s.killer = true → s.thr ≠ some .running := fun hkiller =>
    h.stopped hkiller hstops
  -- in shutdown no object is sent through a protocol that has no thread
  have hthread : s.killer = true → s.thr ≠ none := fun hkiller hthr => by
    simp [(h.unstarted hkiller hthr).1] at hsends
  have hidle : Control (s.kernelGoto .idle) :=
    h.idle .set hdeleted rfl rfl rfl hstops
  unfold Protocol.kernelStep
  cases hk : s.kernel with
  | makeElement dObj peer =>
    simp only [makeElement]
    split_ifs
    · exact hidle
    · split
      · exact hidle
      · exact h.call .set hdeleted rfl h.takes (fun hkiller _ => hstopped hkiller)
          fun hkiller hthr => absurd hthr (hthread hkiller)
  | insert e =>
    dsimp only
    cases hi : s.queue.insert e with
    | none => exact hidle
    | some q =>
      have hlst := (GenericQueue.insert_eq_some hi).1
      refine h.call .set hdeleted rfl (fun _ => ?_) (fun hkiller _ => hstopped hkiller)
        fun hkiller hthr => absurd hthr (hthread hkiller)
      rw [hlst]
      simp
  | startTxRx =>
    simp only [startTxRx]
    split_ifs with hthr
    · have hkiller : s.killer = true → False := fun hkiller => hthread hkiller hthr
      exact
        { unbroken := h.unbroken
          off := iff_of_false (by simp) (by simp)
          attached := h.attached
          kept := rfl
          evicts := rfl
          alone := fun hclears => by cases hclears
          ended := fun hends => by cases hends
          takes := fun htakes => by cases htakes
          clearTakes := fun _ hclearing => by cases hclearing
          stopped := fun hk _ => absurd hk hkiller
          unstarted := fun hk => absurd hk hkiller
          timed := fun htimed => by cases htimed
          freed := fun hd => by simp [hdeleted] at hd }
    · exact hidle
  | _ => simp [hk, KernelPc.sends] at hsends

theorem Control.stopStep (h : Control s) (hdeleted : s.deleted = false)
    (hstops : s.kernel.stops = true) : Control s.kernelStep := by
  unfold Protocol.kernelStep
  cases hk : s.kernel with
  | setDone =>
    exact h.call .set hdeleted rfl h.takes (fun _ => nofun) fun _ _ => ⟨rfl, .inl rfl⟩
  | hookShutdown =>
    have hdone := h.done (by rw [hk]; exact nofun)
    exact h.call .set hdeleted rfl h.takes (fun _ => nofun) fun hkiller hthr =>
      ⟨rfl, .inl (hdone hkiller hthr)⟩
  | stopThread =>
    have hdone := h.done (by rw [hk]; exact nofun)
    dsimp only
    split
    · exact h.call .set hdeleted rfl h.takes (fun _ => nofun) fun hkiller hthr =>
        ⟨rfl, .inl (hdone hkiller hthr)⟩
    next hrun =>
      have hthr : s.thr ≠ some .running := by simpa [isRunning] using hrun
      split
      · exact h.call .set hdeleted rfl h.takes (fun _ _ => hthr) fun hkiller hthr =>
          ⟨rfl, .inl (hdone hkiller hthr)⟩
      · exact h.call .set hdeleted rfl h.takes (fun _ _ => hthr) fun hkiller hthr =>
          ⟨rfl, .inl (hdone hkiller hthr)⟩
  | cancel =>
    obtain ⟨hc, hthr⟩ := h.cancel
    have hkernel : s.cancel.kernel = .cancel ∧ s.cancel.deleted = false := by
      unfold Protocol.cancel
      split <;> exact ⟨hk, hdeleted⟩
    have hdone := hc.done (by rw [hkernel.1]; exact nofun)
    exact hc.call .set hkernel.2 rfl hc.takes (fun _ _ => hthr) fun hkiller hnone =>
      ⟨rfl, .inl (hdone hkiller hnone)⟩
  | _ => simp [hk, KernelPc.stops] at hstops

theorem Control.clearStep (h : Control s) (hsig : s.queue.Signalled) (hdeleted : s.deleted = false)
    {pc : ClearPc D} {deleting : Bool} (hk : s.kernel = .clearing pc deleting) :
    Control s.kernelStep := by
  obtain rfl : deleting = true := by
    cases deleting with
    | true => rfl
    | false => cases h.not_evicts hk
  have hclears : s.kernel.clears = true := by rw [hk]; rfl
  unfold Protocol.kernelStep
  rw [hk]
  cases pc with
  | test =>
    by_cases hempty : s.queue.lst.isEmpty = true
    · simp only [Protocol.clearStep, if_pos hempty, Bool.or_true]
      exact h.free hclears (List.isEmpty_iff.mp hempty)
    · simp only [Protocol.clearStep, if_neg hempty]
      exact h.clearing .set hdeleted hclears rfl rfl (by simp)
  | retrieve =>
    by_cases hup : s.queue.signal = true
    · simp only [Protocol.clearStep, if_pos hup]
      exact h.clearing .set hdeleted hclears rfl rfl fun _ =>
        hsig.mp hup
    · simp only [Protocol.clearStep, if_neg hup]
      exact h.clearing .set hdeleted hclears rfl rfl (by simp)
  | take =>
    obtain ⟨e, q, hq⟩ := GenericQueue.exists_take (h.clearTakes _ hk)
    simp only [Protocol.clearStep, hq]
    exact h.clearing .set hdeleted hclears rfl rfl (by simp)
  | report e =>
    exact h.clearing .set hdeleted hclears rfl rfl (by simp)

theorem Control.kernelStep (h : Control s) (hsig : s.queue.Signalled)
    (hdeleted : s.deleted = false) : Control s.kernelStep := by
  cases hk : s.kernel with
  | idle =>
    unfold Protocol.kernelStep
    rw [hk]
    exact h
  | unregister =>
    have hstops : s.kernel.stops = false := by rw [hk]; rfl
    unfold Protocol.kernelStep
    rw [hk]
    dsimp only
    split <;>
      exact h.idle .set hdeleted rfl rfl rfl hstops
  | join =>
    unfold Protocol.kernelStep
    rw [hk]
    exact h.joinStep hdeleted hk
  | timeout =>
    obtain ⟨hrun, hclose⟩ := h.timeoutStep hdeleted hk
    unfold Protocol.kernelStep
    simp only [hk, hrun, Bool.false_eq_true, if_false]
    exact hclose
  | close deleting =>
    obtain rfl : deleting = true := by
      cases deleting with
      | true => rfl
      | false => cases h.not_evicts hk
    unfold Protocol.kernelStep
    rw [hk]
    exact h.clearing .set hdeleted (by rw [hk]; rfl) rfl rfl nofun
  | clearing pc deleting => exact h.clearStep hsig hdeleted hk
  | detach => cases h.not_evicts hk
  | detachCancel => cases h.not_evicts hk
  | makeElement dObj peer => exact h.sendStep hdeleted (by rw [hk]; rfl)
  | insert e => exact h.sendStep hdeleted (by rw [hk]; rfl)
  | startTxRx => exact h.sendStep hdeleted (by rw [hk]; rfl)
  | setDone => exact h.stopStep hdeleted (by rw [hk]; rfl)
  | hookShutdown => exact h.stopStep hdeleted (by rw [hk]; rfl)
  | stopThread => exact h.stopStep hdeleted (by rw [hk]; rfl)
  | cancel => exact h.stopStep hdeleted (by rw [hk]; rfl)

end Protocol
end Haggle
