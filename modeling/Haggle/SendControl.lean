import Haggle.SendLedger

/-!
# Which thread does what

The two threads never take from the queue at the same time, as long as the manager does not delete
the protocol under its thread. Here is the invariant that says so, and the steps of the protocol's
own thread.
-/

namespace Haggle

variable {D : Type}

/-- The thread deletes the protocol. -/
def RunPc.deletes : RunPc D → Bool
  | .clearing _ | .acting _ .clear => true
  | _ => false

/-- In `sendDataObject`, past its first test. -/
def KernelPc.sends : KernelPc D → Bool
  | .makeElement _ _ | .insert _ | .startTxRx => true
  | _ => false

/-- In `shutdown`, before it has dealt with the thread. -/
def KernelPc.stops : KernelPc D → Bool
  | .setDone | .hookShutdown | .stopThread | .cancel => true
  | _ => false

/-- The protocol is on its way out of the manager. -/
def KernelPc.ends : KernelPc D → Bool
  | .join | .timeout | .detach | .detachCancel | .close _ | .clearing _ _ => true
  | _ => false

/-- The protocol is dealt with as if its thread had ended. -/
def KernelPc.clears : KernelPc D → Bool
  | .timeout | .close _ | .clearing _ _ => true
  | _ => false

/-- The protocol is left to its thread. -/
def KernelPc.evicts : KernelPc D → Bool
  | .detach | .detachCancel | .close false | .clearing _ false => true
  | _ => false

namespace Protocol

structure Control (s : Protocol D) : Prop where
  unbroken : s.broken = false
  off : s.thr = none ↔ s.run = .off
  attached : s.detached = false
  kept : s.run.deletes = false
  evicts : s.kernel.evicts = false
  alone : s.kernel.clears = true → s.run.executing = false
  ended : s.kernel.ends = true → s.inRegistry = false
  takes : s.run = .take → s.queue.lst ≠ []
  clearTakes : ∀ b, s.kernel = .clearing .take b → s.queue.lst ≠ []
  stopped : s.killer = true → s.kernel.stops = false → s.thr ≠ some .running
  unstarted : s.killer = true → s.thr = none →
    s.kernel.sends = false ∧ (s.mode = .done ∨ s.kernel = .setDone)
  timed : s.kernel = .timeout → s.killer = true
  freed : s.deleted = true →
    s.queue.lst = [] ∧ s.run.executing = false ∧ s.kernel = .idle ∧ s.inRegistry = false

variable {s s' : Protocol D}

theorem control_init (peerNode : Option PeerNode) : Control (init peerNode : Protocol D) where
  unbroken := rfl
  off := iff_of_true rfl rfl
  attached := rfl
  kept := rfl
  evicts := rfl
  alone := nofun
  ended := nofun
  takes := nofun
  clearTakes _ := nofun
  stopped := nofun
  unstarted := nofun
  timed := nofun
  freed := nofun

/-! ## The thread of the protocol -/

/-- What a step of the executing thread can do to the control of the protocol. -/
structure RunEffect (s s' : Protocol D) : Prop where
  broken : s'.broken = s.broken
  deleted : s'.deleted = s.deleted
  thr : s'.thr = s.thr ∨ s'.thr = some .cleanup ∨ s'.thr = some .stopped
  on : s'.run ≠ .off
  kept : s'.run.deletes = false
  takes : s'.run = .take → s'.queue.lst ≠ []

theorem RunEffect.goto {pc : RunPc D} (hoff : pc ≠ .off) (hkept : pc.deletes = false)
    (htakes : pc = .take → s.queue.lst ≠ []) : RunEffect s (s.goto pc) :=
  ⟨rfl, rfl, .inl rfl, hoff, hkept, htakes⟩

theorem RunEffect.act {a : ProtocolAction D} {todo : List (ProtocolAction D)} {next : RunLabel}
    (hkept : (RunPc.acting todo next).deletes = false) :
    RunEffect s ((s.goto (.acting todo next)).act a) := by
  cases a with
  | beginCleanup => exact ⟨rfl, rfl, .inr (.inl rfl), nofun, hkept, nofun⟩
  | endCleanup => exact ⟨rfl, rfl, .inr (.inr rfl), nofun, hkept, nofun⟩
  | _ => exact ⟨rfl, rfl, .inl rfl, nofun, hkept, nofun⟩

theorem watchResult_effect (hsig : s.queue.Signalled) (hrun : s.run = .watch) (e : QueueEvent) :
    RunEffect s (s.watchResult e) := by
  cases e with
  | element =>
    simp only [watchResult]
    split_ifs with hup
    · exact .goto (by simp) rfl fun _ => hsig.mp hup
    · exact ⟨rfl, rfl, .inl rfl, by simp [hrun], by rw [hrun]; rfl, by simp [hrun]⟩
  | _ => exact .goto (fun h => by cases h) rfl fun h => by cases h

theorem connectResult_effect (e : ProtocolEvent) : RunEffect s (s.connectResult e) := by
  cases e with
  | success => exact ⟨rfl, rfl, .inl rfl, nofun, rfl, nofun⟩
  | errorFatal => exact .goto nofun rfl nofun
  | _ =>
    simp only [connectResult]
    split <;> exact ⟨rfl, rfl, .inl rfl, nofun, rfl, nofun⟩

/-- The thread neither breaks nor deletes the protocol, if there is something to take when it
takes. -/
theorem runStep_effect (h : Control s) (hsig : s.queue.Signalled) (hon : s.run.executing = true)
    (i : ThreadInput) : RunEffect s (s.runStep i) := by
  have hsame : RunEffect s s :=
    ⟨rfl, rfl, .inl rfl, fun hoff => by simp [hoff, RunPc.executing] at hon, h.kept, h.takes⟩
  unfold runStep
  cases hrun : s.run with
  | off => exact hsame
  | finished => exact hsame
  | run => exact ⟨rfl, rfl, .inl rfl, nofun, rfl, nofun⟩
  | outerLoop =>
    dsimp only
    split <;> exact .goto nofun rfl nofun
  | connectLoop =>
    dsimp only
    split <;> exact .goto nofun rfl nofun
  | connecting =>
    cases i with
    | connectToPeer e => exact connectResult_effect e
    | _ => exact hsame
  | afterConnect =>
    dsimp only
    split <;> exact .goto nofun rfl nofun
  | retrieve =>
    dsimp only
    split
    next hup => exact .goto nofun rfl fun _ => hsig.mp hup
    · exact .goto nofun rfl nofun
  | watch =>
    cases i with
    | wait e => exact watchResult_effect hsig hrun e
    | _ => exact hsame
  | take =>
    obtain ⟨e, q, hq⟩ := GenericQueue.exists_take (h.takes hrun)
    simp only [hq]
    exact ⟨rfl, rfl, .inl rfl, nofun, rfl, nofun⟩
  | sending e =>
    cases i with
    | sendDataObjectNow r => exact .goto nofun rfl nofun
    | _ => exact hsame
  | receiving =>
    cases i with
    | receiveDataObject r => cases r <;> exact .goto nofun rfl nofun
    | _ => exact hsame
  | countError =>
    dsimp only
    split <;> exact ⟨rfl, rfl, .inl rfl, nofun, rfl, nofun⟩
  | acting todo next =>
    have hkept := h.kept
    rw [hrun] at hkept
    cases todo with
    | nil =>
      cases next with
      | clear => cases hkept
      | _ => exact .goto nofun rfl nofun
    | cons a todo =>
      apply RunEffect.act
      cases next with
      | clear => cases hkept
      | _ => rfl
  | leave => exact .goto nofun rfl nofun
  | cleanup => exact .goto nofun rfl nofun
  | dispose =>
    simp only [h.attached, Bool.false_eq_true, if_false]
    split <;> exact .goto nofun rfl nofun
  | clearing pc =>
    have hkept := h.kept
    rw [hrun] at hkept
    cases hkept

theorem Control.runStep (h : Control s) (hsig : s.queue.Signalled) (i : ThreadInput) :
    Control (s.runStep i) := by
  cases hon : s.run.executing with
  | false =>
    have hidle : s.runStep i = s := by
      unfold Protocol.runStep
      cases hrun : s.run <;> first | rfl | simp [hrun, RunPc.executing] at hon
    rw [hidle]
    exact h
  | true =>
    have heff := runStep_effect h hsig hon i
    have hk := runStep_sameKernel s i
    have hclears : s.kernel.clears = false := by
      by_contra hc
      simp [h.alone (by simpa using hc)] at hon
    have hthr : (s.runStep i).thr ≠ none := by
      have hold : s.thr ≠ none := fun hn => by simp [h.off.mp hn, RunPc.executing] at hon
      rcases heff.thr with heq | heq | heq <;> rw [heq]
      · exact hold
      · exact nofun
      · exact nofun
    refine ⟨heff.broken.trans h.unbroken, iff_of_false hthr heff.on, hk.detached.trans h.attached,
      heff.kept, ?_, ?_, ?_, heff.takes, ?_, ?_, fun _ hn => absurd hn hthr, ?_, ?_⟩
    · rw [hk.kernel]
      exact h.evicts
    · rw [hk.kernel, hclears]
      exact nofun
    · rw [hk.kernel, hk.inRegistry]
      exact h.ended
    · intro b hb
      rw [hk.kernel] at hb
      simp [hb, KernelPc.clears] at hclears
    · rw [hk.killer, hk.kernel]
      intro hkiller hstops
      rcases heff.thr with heq | heq | heq <;> rw [heq]
      · exact h.stopped hkiller hstops
      · exact nofun
      · exact nofun
    · rw [hk.kernel, hk.killer]
      exact h.timed
    · rw [heff.deleted]
      intro hdel
      simp [(h.freed hdel).2.1] at hon

end Protocol
end Haggle
