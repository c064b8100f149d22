import Haggle.ProtocolTeardown

/-!
# How accepted data objects move

An accepted element is in the queue, in the hands of one of the two threads, or has its result. A
step of a thread leaves all where they are, takes one from the queue, or posts the result of one
that the thread holds; only an insertion adds one.
-/

namespace Haggle

variable {D : Type}

def ProtocolAction.held : ProtocolAction D → List (QueueElement D)
  | .addEvent e _ => [e]
  | _ => []

def ClearPc.held : ClearPc D → List (QueueElement D)
  | .report e => [e]
  | _ => []

/-- The elements whose results the thread is going to post. -/
def RunPc.held : RunPc D → List (QueueElement D)
  | .sending e => [e]
  | .acting todo _ => todo.flatMap ProtocolAction.held
  | .clearing pc => pc.held
  | _ => []

def KernelPc.held : KernelPc D → List (QueueElement D)
  | .clearing pc _ => pc.held
  | _ => []

namespace Protocol

/-- What a step of a thread that holds the elements `held` does with them, with the queue and with
the results. -/
inductive Moves (q q' : GenericQueue (QueueElement D)) (res res' : List (SendResult D))
    (held held' : List (QueueElement D)) : Prop
  | keep (hlst : q'.lst = q.lst) (hsignal : q'.signal = q.signal) (hres : res' = res)
      (hheld : held' = held)
  | take (e : QueueElement D) (hqueue : q.take = some (e, q')) (hres : res' = res)
      (hheld : held' = e :: held)
  | report (r : SendResult D) (hlst : q'.lst = q.lst) (hsignal : q'.signal = q.signal)
      (hres : res' = res ++ [r]) (hheld : held = r.element :: held')

variable {s : Protocol D} {q q' : GenericQueue (QueueElement D)} {res res' : List (SendResult D)}
  {held held' : List (QueueElement D)}

theorem Moves.same (hheld : held' = held) : Moves q q res res held held' :=
  .keep rfl rfl rfl hheld

theorem Moves.append (h : Moves q q' res res' held held') (ctx : List (QueueElement D)) :
    Moves q q' res res' (held ++ ctx) (held' ++ ctx) := by
  cases h with
  | keep hlst hsignal hres hheld => exact .keep hlst hsignal hres (by rw [hheld])
  | take e hqueue hres hheld => exact .take e hqueue hres (by rw [hheld, List.cons_append])
  | report r hlst hsignal hres hheld =>
    exact .report r hlst hsignal hres (by rw [hheld, List.cons_append])

theorem act_moves (s : Protocol D) (a : ProtocolAction D) :
    Moves s.queue (s.act a).queue s.results (s.act a).results a.held [] := by
  cases a with
  | addEvent e v => exact .report ⟨e, v, s.peerNode⟩ rfl rfl rfl rfl
  | close => exact .keep rfl rfl rfl rfl
  | _ => exact .same rfl

/-- `broken` is set, or the elements move. -/
theorem clearStep_moves {pc : ClearPc D} {r : Protocol D × Option (ClearPc D)}
    (h : s.clearStep pc = r) (hb : r.1.broken = false) :
    Moves s.queue r.1.queue s.results r.1.results pc.held (r.2.elim [] ClearPc.held) := by
  subst h
  cases pc with
  | test =>
    refine .same ?_
    simp only [clearStep]
    split <;> rfl
  | retrieve =>
    refine .same ?_
    simp only [clearStep]
    split <;> rfl
  | take =>
    simp only [clearStep] at hb ⊢
    cases hq : s.queue.take with
    | none => simp [hq] at hb
    | some r => exact .take r.1 hq rfl rfl
  | report e => exact .report ⟨e, .failure, s.peerNode⟩ rfl rfl rfl rfl

/-! ## The two threads -/

theorem held_handleEvent (e : ProtocolEvent) : (handleEvent e : RunPc D).held = [] := by
  cases e <;> rfl

theorem held_afterReceive (e : ProtocolEvent) : (afterReceive e : RunPc D).held = [] := by
  cases e <;> rfl

theorem held_afterSend (e : QueueElement D) (r : ProtocolEvent) :
    (afterSend e r ++ [ProtocolAction.resetErrors]).flatMap ProtocolAction.held = [e] := by
  cases r <;> rfl

theorem held_label (next : RunLabel) : (next.pc : RunPc D).held = [] := by
  cases next <;> rfl

theorem held_closeIfConnected (s : Protocol D) (l : List (ProtocolAction D)) :
    (s.closeIfConnected ++ l).flatMap ProtocolAction.held = l.flatMap ProtocolAction.held := by
  unfold closeIfConnected
  split <;> rfl

theorem connectResult_moves (s : Protocol D) (e : ProtocolEvent) :
    Moves s.queue (s.connectResult e).queue s.results (s.connectResult e).results []
      (s.connectResult e).run.held := by
  have hretry : (if s.numConnectTry + 1 = connectionAttempts then
      .acting [.close, .setMode .done] .afterConnect
      else RunPc.afterConnect : RunPc D).held = [] := by
    split <;> rfl
  cases e with
  | success => exact .same rfl
  | errorFatal => exact .same rfl
  | _ => exact .same hretry

theorem watchResult_moves (hrun : s.run = .watch) (e : QueueEvent) :
    Moves s.queue (s.watchResult e).queue s.results (s.watchResult e).results []
      (s.watchResult e).run.held := by
  have hhandle : (handleEvent (waitForEvent e) : RunPc D).held = [] := held_handleEvent _
  cases e with
  | element =>
    by_cases hsignal : s.queue.signal = true
    · simp only [watchResult, if_pos hsignal]
      exact .same rfl
    · simp only [watchResult, if_neg hsignal]
      exact .same (by rw [hrun]; rfl)
  | _ => exact .same hhandle

theorem runStep_moves (s : Protocol D) (i : ThreadInput) (hb : (s.runStep i).broken = false) :
    Moves s.queue (s.runStep i).queue s.results (s.runStep i).results s.run.held
      (s.runStep i).run.held := by
  have hsame : Moves s.queue s.queue s.results s.results s.run.held s.run.held :=
    .same rfl
  unfold runStep at hb ⊢
  cases hrun : s.run with
  | off => simpa only [hrun] using hsame
  | finished => simpa only [hrun] using hsame
  | run => exact .same rfl
  | outerLoop =>
    refine .same ?_
    simp only [goto]
    split <;> rfl
  | connectLoop =>
    refine .same ?_
    simp only [goto]
    split <;> rfl
  | connecting =>
    cases i with
    | connectToPeer e => exact connectResult_moves s e
    | _ => simpa only [hrun] using hsame
  | afterConnect =>
    refine .same ?_
    simp only [goto]
    split <;> rfl
  | retrieve =>
    refine .same ?_
    simp only [goto]
    split <;> rfl
  | watch =>
    cases i with
    | wait e => exact watchResult_moves hrun e
    | _ => simpa only [hrun] using hsame
  | take =>
    simp only [hrun] at hb
    cases hq : s.queue.take with
    | none => simp [hq] at hb
    | some r => exact .take r.1 hq rfl rfl
  | sending e =>
    cases i with
    | sendDataObjectNow r => exact .same (held_afterSend e r)
    | _ => simpa only [hrun] using hsame
  | receiving =>
    cases i with
    | receiveDataObject r => exact .same (held_afterReceive r)
    | _ => simpa only [hrun] using hsame
  | countError =>
    refine .same ?_
    dsimp only
    split <;> rfl
  | acting todo next =>
    cases todo with
    | nil => exact .same (held_label next)
    | cons a todo =>
      have hact := (act_moves (s.goto (.acting todo next)) a).append
        (todo.flatMap ProtocolAction.held)
      have hpc : ((s.goto (.acting todo next)).act a).run = .acting todo next := by cases a <;> rfl
      dsimp only
      rw [hpc]
      exact hact
  | leave => exact .same (held_closeIfConnected s _)
  | cleanup => exact .same (held_closeIfConnected s _)
  | dispose =>
    refine .same ?_
    simp only [goto]
    split
    · rfl
    · split <;> rfl
  | clearing pc =>
    rw [hrun] at hb
    dsimp only at hb ⊢
    split at hb
    next heq => exact clearStep_moves heq hb
    next heq => exact clearStep_moves heq hb

/-- What belongs to the kernel thread and the manager. -/
structure SameKernel (s s' : Protocol D) : Prop where
  kernel : s'.kernel = s.kernel
  accepted : s'.accepted = s.accepted
  next : s'.next = s.next
  inRegistry : s'.inRegistry = s.inRegistry
  killer : s'.killer = s.killer
  detached : s'.detached = s.detached

/-- The rest is the thread's own. -/
theorem SameKernel.set {mode : ProtocolMode} {peerNode : Option PeerNode}
    {thr : Option ThreadState} {connected isRegistered exitSignal deleted broken : Bool}
    {tries errors events : ℕ} {pc : RunPc D} :
    SameKernel s { s with
      queue := q
      mode := mode
      connected := connected
      peerNode := peerNode
      isRegistered := isRegistered
      thr := thr
      exitSignal := exitSignal
      numConnectTry := tries
      numerr := errors
      run := pc
      deleteEvents := events
      deleted := deleted
      broken := broken
      results := res } :=
  ⟨rfl, rfl, rfl, rfl, rfl, rfl⟩

theorem SameKernel.trans {s₁ s₂ : Protocol D} (h : SameKernel s s₁) (h' : SameKernel s₁ s₂) :
    SameKernel s s₂ :=
  ⟨h'.kernel.trans h.kernel, h'.accepted.trans h.accepted, h'.next.trans h.next,
    h'.inRegistry.trans h.inRegistry, h'.killer.trans h.killer, h'.detached.trans h.detached⟩

theorem act_sameKernel (s : Protocol D) (a : ProtocolAction D) : SameKernel s (s.act a) := by
  cases a <;> exact .set

theorem clearStep_sameKernel {pc : ClearPc D} {r : Protocol D × Option (ClearPc D)}
    (h : s.clearStep pc = r) : SameKernel s r.1 := by
  subst h
  cases pc with
  | take =>
    simp only [clearStep]
    split <;> exact .set
  | _ => exact .set

theorem runStep_sameKernel (s : Protocol D) (i : ThreadInput) : SameKernel s (s.runStep i) := by
  have hconnect : ∀ e, SameKernel s (s.connectResult e) := by
    intro e
    cases e <;> exact .set
  have hwatch : ∀ e, SameKernel s (s.watchResult e) := by
    intro e
    unfold watchResult
    split
    · split <;> exact .set
    · exact .set
  unfold runStep
  cases s.run with
  | connecting =>
    cases i with
    | connectToPeer e => exact hconnect e
    | _ => exact .set
  | watch =>
    cases i with
    | wait e => exact hwatch e
    | _ => exact .set
  | take =>
    dsimp only
    split <;> exact .set
  | sending e => cases i <;> exact .set
  | receiving => cases i <;> exact .set
  | acting todo next =>
    cases todo with
    | nil => exact .set
    | cons a todo => exact .trans .set (act_sameKernel _ a)
  | clearing pc =>
    dsimp only
    split
    next heq => exact (clearStep_sameKernel heq).trans .set
    next heq => exact (clearStep_sameKernel heq).trans .set
  | _ => exact .set

section Kernel

variable [DecidableEq D]

/-- What a step of the kernel thread can do: move elements, make a new one, insert it, or start the
thread. -/
inductive KernelEffect (s s' : Protocol D) : Prop
  | moves (hmoves : Moves s.queue s'.queue s.results s'.results s.kernel.held s'.kernel.held)
      (haccepted : s'.accepted = s.accepted) (hnext : s'.next = s.next) (hrun : s'.run = s.run)
      (hkernel : ∀ e, s'.kernel ≠ .insert e)
  | make (dObj : D) (peerNode : Option PeerNode) (hheld : s.kernel.held = [])
      (h : s' = { s with
        peerNode := peerNode
        next := s.next + 1
        kernel := .insert ⟨s.next, dObj⟩ })
  | insert (e : QueueElement D) (q : GenericQueue (QueueElement D)) (hkernel : s.kernel = .insert e)
      (hqueue : s.queue.insert e = some q)
      (h : s' = { s with queue := q, accepted := s.accepted ++ [e], kernel := .startTxRx })
  | start (hheld : s.kernel.held = []) (hthr : s.thr = none)
      (h : s' = { s with thr := some .running, run := .run, kernel := .idle })

/-- A step that only changes where the kernel thread is, and flags. -/
theorem KernelEffect.set {s : Protocol D} {mode : ProtocolMode}
    {connected isRegistered exitSignal detached inRegistry killer deleted broken : Bool}
    {peerNode : Option PeerNode} {thr : Option ThreadState} {tries errors events : ℕ}
    {pc : KernelPc D} (hheld : pc.held = s.kernel.held) (hpc : ∀ e, pc ≠ .insert e) :
    KernelEffect s { s with
      mode := mode
      connected := connected
      peerNode := peerNode
      isRegistered := isRegistered
      thr := thr
      exitSignal := exitSignal
      detached := detached
      numConnectTry := tries
      numerr := errors
      kernel := pc
      inRegistry := inRegistry
      deleteEvents := events
      killer := killer
      deleted := deleted
      broken := broken } :=
  .moves (.same hheld) rfl rfl rfl hpc

theorem KernelEffect.clear {s r : Protocol D} {pc : ClearPc D} {next : Option (ClearPc D)}
    {deleting : Bool} (hk : s.kernel = .clearing pc deleting) (h : s.clearStep pc = (r, next))
    (hb : r.broken = false) {s' : Protocol D} (hqueue : s'.queue = r.queue)
    (hresults : s'.results = r.results) (hheld : s'.kernel.held = next.elim [] ClearPc.held)
    (haccepted : s'.accepted = r.accepted) (hnext : s'.next = r.next) (hrun : s'.run = r.run)
    (hkernel : ∀ e, s'.kernel ≠ .insert e) : KernelEffect s s' := by
  have hmoves := clearStep_moves h hb
  have hsame := clearStep_sameKernel h
  have hpc : r.run = s.run := by
    have hrun : (s.clearStep pc).1.run = s.run := by
      cases pc with
      | take =>
        simp only [clearStep]
        split <;> rfl
      | _ => rfl
    rw [h] at hrun
    exact hrun
  refine .moves ?_ (haccepted.trans hsame.accepted) (hnext.trans hsame.next) (hrun.trans hpc)
    hkernel
  rw [hqueue, hresults, hheld, hk]
  exact hmoves

theorem kernelStep_effect (s : Protocol D) (hb : s.kernelStep.broken = false) :
    KernelEffect s s.kernelStep := by
  unfold kernelStep at hb ⊢
  cases hk : s.kernel with
  | idle => exact .set rfl (by rw [hk]; exact fun _ => nofun)
  | makeElement dObj peer =>
    have hidle : KernelEffect s (s.kernelGoto .idle) := .set (by rw [hk]; rfl) fun _ => nofun
    simp only [makeElement]
    split_ifs
    · exact hidle
    · split
      · exact hidle
      next p _ => exact .make dObj (some p) (by rw [hk]; rfl) rfl
  | insert e =>
    dsimp only
    cases hi : s.queue.insert e with
    | none => exact .set (by rw [hk]; rfl) fun _ => nofun
    | some q => exact .insert e q hk hi rfl
  | startTxRx =>
    simp only [startTxRx]
    split_ifs with hthr
    · exact .start (by rw [hk]; rfl) hthr rfl
    · exact .set (by rw [hk]; rfl) fun _ => nofun
  | setDone => exact .set (by rw [hk]; rfl) fun _ => nofun
  | hookShutdown => exact .set (by rw [hk]; rfl) fun _ => nofun
  | stopThread =>
    dsimp only
    split
    · exact .set (by rw [hk]; rfl) fun _ => nofun
    · split <;> exact .set (by rw [hk]; rfl) fun _ => nofun
  | cancel =>
    simp only [cancel]
    split_ifs <;> exact .set (by rw [hk]; rfl) fun _ => nofun
  | unregister =>
    dsimp only
    split_ifs
    · exact .set (by rw [hk]; rfl) fun _ => nofun
    · exact .set (by rw [hk]; rfl) fun _ => nofun
  | join =>
    simp only [join]
    split_ifs
    · exact .set (by rw [hk]; rfl) fun _ => nofun
    · split
      · exact .set (by rw [hk]; rfl) fun _ => nofun
      · exact .set rfl (by rw [hk]; exact fun _ => nofun)
  | timeout =>
    dsimp only
    split <;> exact .set (by rw [hk]; rfl) fun _ => nofun
  | detach => exact .set (by rw [hk]; rfl) fun _ => nofun
  | detachCancel =>
    simp only [cancel]
    split_ifs <;> exact .set (by rw [hk]; rfl) fun _ => nofun
  | close deleting =>
    refine .moves (.keep rfl rfl rfl ?_) rfl rfl rfl fun _ => nofun
    rw [hk]
    rfl
  | clearing pc deleting =>
    rw [hk] at hb
    dsimp only at hb ⊢
    split at hb
    next heq => exact .clear hk heq hb rfl rfl rfl rfl rfl rfl fun _ => nofun
    next heq => exact .clear hk heq hb rfl rfl rfl rfl rfl rfl fun _ => nofun

end Kernel

end Protocol
end Haggle
