import Haggle.SecurityManager

/-!
# Enforcement of the security level

An object of the network that is reported as verified, at a level that requires it, has a signature
that was checked with a stored certificate of its signee. This holds in the runs in which the
objects that have to be signed are signed: one without a signature is reported as verified at once.
-/

namespace Haggle.SecurityManager

variable (ssl : OpenSSL)

/-- The signature of the object is valid under a stored, valid certificate of its signee. -/
def Checked (stored : List Certificate) (o : DataObject) : Prop :=
  ∃ cert ∈ stored, cert.subject = o.signee ∧ ssl.verifyCertificate cert = true ∧
    ∃ sig, o.signature = some sig ∧ ssl.verifySignature cert.pubKey o.id sig = true

def Enforced (s : SecurityManager) : Prop :=
  ∀ e ∈ s.verified, e.remote = true → e.level.requires e.obj = true → Checked ssl s.stored e.obj

/-- The objects that have to be signed are signed, and the certificates that do not come from the
network are valid. -/
def Proper (s : SecurityManager) : Action → Prop
  | .received o dup => dup = false → s.securityLevel.requires o.obj = true →
      o.obj.signatureStatus ≠ .missing
  | .repository certs => ∀ c ∈ certs, ssl.verifyCertificate c = true
  | .generate cert => ∀ c ∈ cert, ssl.verifyCertificate c = true
  | _ => True

/-- What is known of a task in the queue of the helper. -/
def TaskOk : SecurityTask → Prop
  | .generateCertificate cert => ∀ c ∈ cert, ssl.verifyCertificate c = true
  | .verifyCertificate _ => True
  | .verifyDataObject o _ => o.signatureStatus = .unverified

/-- What is known of a task that was returned. -/
def ResultOk (stored : List Certificate) : SecurityTask → Prop
  | .verifyDataObject o _ => o.signatureStatus = .valid → Checked ssl stored o
  | _ => True

structure Inv (s : SecurityManager) : Prop where
  certStore : ∀ p ∈ s.certStore, p.2.subject = p.1 ∧ ssl.verifyCertificate p.2 = true ∧
    p.2 ∈ s.stored
  tasks : ∀ t ∈ s.tasks, TaskOk ssl t
  completed : ∀ t ∈ s.completed, ResultOk ssl s.stored t
  enforced : Enforced ssl s

variable {ssl}

theorem Checked.mono {l l' : List Certificate} {o : DataObject} (h : Checked ssl l o)
    (hl : l ⊆ l') : Checked ssl l' o := by
  obtain ⟨cert, hmem, hcert⟩ := h
  exact ⟨cert, hl hmem, hcert⟩

theorem ResultOk.mono {l l' : List Certificate} {t : SecurityTask} (h : ResultOk ssl l t)
    (hl : l ⊆ l') : ResultOk ssl l' t := by
  cases t with
  | verifyDataObject o remote => exact fun hv => (h hv).mono hl
  | generateCertificate cert => trivial
  | verifyCertificate o => trivial

/-- Only valid certificates are put into the store. -/
theorem Inv.storeCertificate {s : SecurityManager} (h : Inv ssl s) {cert : Certificate}
    (hcert : ssl.verifyCertificate cert = true) (replace : Bool) :
    Inv ssl (s.storeCertificate cert replace) := by
  unfold SecurityManager.storeCertificate
  split_ifs
  · exact h
  · have hsub : s.stored ⊆ s.stored ++ [cert] := List.subset_append_left _ _
    refine ⟨fun p hp => ?_, h.tasks, fun t ht => (h.completed t ht).mono hsub, ?_⟩
    · rcases AssocList.mem_set hp with rfl | hp
      · exact ⟨rfl, hcert, by simp⟩
      · obtain ⟨hsubj, hvalid, hmem⟩ := h.certStore p hp
        exact ⟨hsubj, hvalid, hsub hmem⟩
    · exact fun e he hr hl => (h.enforced e he hr hl).mono hsub

/-- The helper finds a signature valid only with a valid certificate of the signee. -/
theorem Inv.resultOk_verifyDataObject {s : SecurityManager} (h : Inv ssl s) {o : DataObject}
    (ho : o.signatureStatus = .unverified) {cert : Certificate}
    (hcert : s.retrieveCertificate o.signee = some cert) (remote : Bool) :
    ResultOk ssl s.stored (.verifyDataObject (verifyDataObject ssl o cert) remote) := by
  intro hv
  obtain ⟨hsubj, hvalid, hmem⟩ := h.certStore _ (AssocList.mem_of_get hcert)
  unfold verifyDataObject at hv ⊢
  cases hsig : o.signature with
  | none =>
    rw [hsig] at hv
    simp [ho] at hv
  | some sig =>
    rw [hsig] at hv
    dsimp only at hv ⊢
    by_cases hok : ssl.verifySignature cert.pubKey o.id sig = true
    · exact ⟨cert, hmem, hsubj, hvalid, sig, rfl, hok⟩
    · rw [if_neg hok] at hv
      cases hv

/-- The work of the helper. -/
theorem Inv.doTask {s : SecurityManager} (h : Inv ssl s) {t : SecurityTask} (ht : TaskOk ssl t) :
    Inv ssl (doTask ssl s t).1 ∧ ResultOk ssl (doTask ssl s t).1.stored (doTask ssl s t).2 := by
  cases t with
  | generateCertificate cert =>
    refine ⟨?_, trivial⟩
    cases cert with
    | none => exact h
    | some c => exact h.storeCertificate (ht c rfl) false
  | verifyCertificate o =>
    refine ⟨?_, trivial⟩
    unfold SecurityManager.doTask
    dsimp only
    split
    · exact h
    · split_ifs with hc
      · exact h.storeCertificate hc true
      · exact h
  | verifyDataObject o remote =>
    have ho : o.signatureStatus = .unverified := ht
    unfold SecurityManager.doTask
    dsimp only
    cases hcert : s.retrieveCertificate o.signee with
    | none => exact ⟨h, fun hv => by simp [ho] at hv⟩
    | some cert => exact ⟨h, h.resultOk_verifyDataObject ho hcert remote⟩

/-- A posted event. -/
theorem Inv.post {s : SecurityManager} (h : Inv ssl s) {e : VerifiedEvent}
    (he : e.remote = true → e.level.requires e.obj = true → Checked ssl s.stored e.obj) :
    Inv ssl { s with verified := s.verified ++ [e] } := by
  refine ⟨h.certStore, h.tasks, h.completed, fun e' he' => ?_⟩
  rcases List.mem_append.mp he' with he' | he'
  · exact h.enforced e' he'
  · obtain rfl := List.mem_singleton.mp he'
    exact he

theorem Inv.addTask {s : SecurityManager} (h : Inv ssl s) {t : SecurityTask} (ht : TaskOk ssl t) :
    Inv ssl { s with tasks := s.tasks ++ [t] } := by
  refine ⟨h.certStore, fun t' ht' => ?_, h.completed, h.enforced⟩
  rcases List.mem_append.mp ht' with ht' | ht'
  · exact h.tasks t' ht'
  · obtain rfl := List.mem_singleton.mp ht'
    exact ht

/-- A received object waits for the helper, or is reported at once. -/
theorem Inv.onReceivedDataObject {s : SecurityManager} (h : Inv ssl s) {o : DataObject}
    {remote dup : Bool}
    (ho : remote = true → dup = false → s.securityLevel.requires o = true →
      o.signatureStatus = .unverified) :
    Inv ssl (s.onReceivedDataObject o remote dup) := by
  have hiff : s.securityLevel.verifies o = true ↔
      o.signatureStatus = .unverified ∧ s.securityLevel.requires o = true := by
    rw [SecurityLevel.verifies, Bool.and_eq_true, decide_eq_true_eq]
  unfold SecurityManager.onReceivedDataObject
  split_ifs with hdup hver
  · exact h
  · exact h.addTask (hiff.mp hver).1
  · rw [hiff] at hver
    refine h.post fun hr hl => ?_
    exact absurd ⟨ho hr (Bool.eq_false_iff.mpr hdup) hl, hl⟩ hver

/-- The helper is done with a task that passes. -/
theorem Inv.complete {s : SecurityManager} (h : Inv ssl s) {t : SecurityTask}
    (ht : ResultOk ssl s.stored t) : Inv ssl { s with completed := s.completed ++ [t] } := by
  refine ⟨h.certStore, h.tasks, fun t' ht' => ?_, h.enforced⟩
  rcases List.mem_append.mp ht' with ht' | ht'
  · exact h.completed t' ht'
  · obtain rfl := List.mem_singleton.mp ht'
    exact ht

theorem Inv.onSecurityTaskComplete {s : SecurityManager} (h : Inv ssl s) {t : SecurityTask}
    (ht : ResultOk ssl s.stored t) : Inv ssl (s.onSecurityTaskComplete t) := by
  cases t with
  | verifyDataObject o remote =>
    rw [SecurityManager.onSecurityTaskComplete]
    split_ifs with hv
    · exact h.post fun _ _ => ht hv
    · exact h
  | generateCertificate cert => exact h
  | verifyCertificate o => exact h

theorem Inv.storeCertificates {s : SecurityManager} (h : Inv ssl s) {certs : List Certificate}
    (hcerts : ∀ c ∈ certs, ssl.verifyCertificate c = true) :
    Inv ssl (certs.foldl (fun s c => s.storeCertificate c false) s) := by
  induction certs generalizing s with
  | nil => exact h
  | cons c certs ih =>
    exact ih (h.storeCertificate (hcerts c List.mem_cons_self) false)
      fun c' hc' => hcerts c' (List.mem_cons_of_mem _ hc')

theorem Inv.step {s : SecurityManager} (h : Inv ssl s) {a : Action} (ha : Proper ssl s a) :
    Inv ssl (step ssl s a) := by
  cases a with
  | incoming o dup =>
    rw [SecurityManager.step, onIncomingDataObject]
    split_ifs
    · exact h.addTask trivial
    · exact h
  | received o dup =>
    refine h.onReceivedDataObject fun _ hdup hl => ?_
    exact o.status.resolve_left (ha hdup hl)
  | receivedLocal o dup => exact h.onReceivedDataObject fun hr => absurd hr Bool.false_ne_true
  | runTask i =>
    rw [SecurityManager.step]
    cases hi : s.tasks[i]? with
    | none => exact h
    | some t =>
      have hrest : Inv ssl { s with tasks := s.tasks.eraseIdx i } :=
        ⟨h.certStore, fun t ht => h.tasks t (List.mem_of_mem_eraseIdx ht), h.completed, h.enforced⟩
      obtain ⟨hdone, hres⟩ := hrest.doTask (h.tasks t (List.mem_of_getElem? hi))
      exact hdone.complete hres
  | taskComplete i =>
    rw [SecurityManager.step]
    cases hi : s.completed[i]? with
    | none => exact h
    | some t =>
      have hrest : Inv ssl { s with completed := s.completed.eraseIdx i } :=
        ⟨h.certStore, h.tasks, fun t ht => h.completed t (List.mem_of_mem_eraseIdx ht), h.enforced⟩
      exact hrest.onSecurityTaskComplete (h.completed t (List.mem_of_getElem? hi))
  | repository certs => exact h.storeCertificates ha
  | generate cert => exact h.addTask ha
  | config level => exact ⟨h.certStore, h.tasks, h.completed, h.enforced⟩

theorem inv_start (level : SecurityLevel) : Inv ssl (start level) where
  certStore _ hp := absurd hp List.not_mem_nil
  tasks _ ht := absurd ht List.not_mem_nil
  completed _ ht := absurd ht List.not_mem_nil
  enforced _ he := absurd he List.not_mem_nil

/-- In every run in which the objects that have to be signed are signed, every object of the network
that is reported as verified was checked, if the level requires it. -/
theorem run_enforced (level : SecurityLevel) {actions : List Action}
    (hg : Trace.Guarded (step ssl) (Proper ssl) (start level) actions) :
    Enforced ssl (Trace.run (step ssl) (start level) actions) := by
  have hstep : ∀ s a, Inv ssl s → Proper ssl s a → Inv ssl (step ssl s a) :=
    fun _ _ h ha => h.step ha
  exact (Trace.invariant_of_guarded hstep (inv_start level) hg).enforced

end Haggle.SecurityManager

namespace Haggle.Sample

/-- A CA that signs with its name, and keys that are their own signatures. -/
def ssl : OpenSSL where
  fromPEM _ := none
  verifyCertificate c := decide (c.signature = lit "CA")
  verifySignature key _ sig := decide (sig = key)

/-- A signed object is received, checked and reported. -/
def signedRun : List SecurityManager.Action :=
  [.repository [⟨lit "n", lit "k", lit "CA"⟩], .received signed false, .runTask 0, .taskComplete 0]

end Haggle.Sample

namespace Haggle.SecurityManager

theorem run_enforced_sample :
    (Trace.run (step Sample.ssl) (start .high) Sample.signedRun).verified.length = 1 ∧
      Enforced Sample.ssl (Trace.run (step Sample.ssl) (start .high) Sample.signedRun) := by
  refine ⟨by decide, run_enforced .high ⟨?_, ?_, trivial, trivial, trivial⟩⟩
  · intro c hc
    obtain rfl := List.mem_singleton.mp hc
    rfl
  · intro _ _ h
    cases h

/-- At the highest level an object without a signature is reported as verified. -/
theorem run_not_enforced_sample :
    ¬Enforced Sample.ssl (Trace.run (step Sample.ssl) (start .high)
      [.received Sample.unsigned false]) := by
  intro h
  have hmem : ⟨Sample.unsigned.obj, true, .high⟩ ∈ (Trace.run (step Sample.ssl) (start .high)
      [.received Sample.unsigned false]).verified := List.mem_singleton_self _
  obtain ⟨cert, hcert, -⟩ := h _ hmem rfl rfl
  exact absurd hcert List.not_mem_nil

end Haggle.SecurityManager
