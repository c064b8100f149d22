import Haggle.SendDataObject

/-!
# What a sender has written

An invariant of the sender in a transfer of one object: how much of the header and the payload it
has written, in each of its phases, and which control messages it has read by then.
-/

namespace Haggle

theorem CtrlMsg.length_bytes (m : CtrlMsg) : m.bytes.length = ctrlMsgSize := by
  rw [CtrlMsg.bytes, List.length_append, m.id.2]
  rfl

theorem CtrlType.code_toUInt8_injective :
    Function.Injective (fun t : CtrlType => t.code.toUInt8) := by
  intro s t h
  cases s <;> cases t <;> first | rfl | exact absurd h (by decide)

theorem head?_of_ctrlMsgType {m : Bytes} {t : CtrlType} (h : ctrlMsgType m = t.code) :
    m.head? = some t.code.toUInt8 := by
  have hpos : 0 < t.code := by cases t <;> decide
  have hlt : t.code < 256 := by cases t <;> decide
  match m with
  | a :: b :: c :: d :: _ =>
    rw [ctrlMsgType] at h
    have ha : a.toNat = t.code := by omega
    rw [List.head?_cons, ← ha, Nat.toUInt8_eq, UInt8.ofNat_toNat]
  | [] | [_] | [_, _] | [_, _, _] => exact absurd (show 0 = t.code from h) (by omega)

namespace Sender

variable {header payload : Bytes}

/-- The sender has read an ACCEPT. -/
def Accepted (ctrl : Bytes) : Prop := ctrlMsgType ctrl = CtrlType.accept.code

/-- How far a sender is, after the bytes `wrote` were written and the bytes `ctrl` were read. -/
inductive Progress (header payload : Bytes) : Sender → Bytes → Bytes → Prop
  | header {s : Sender} {chunk wrote : Bytes} (hp : s.phase = .writing chunk)
      (hsent : s.hasSentHeader = false) (hwrote : wrote ++ chunk ++ s.headerLeft = header)
      (hleft : s.payloadLeft = payload) : Progress header payload s wrote []
  | awaitAnswer {s : Sender} {n : ℕ} (hp : s.phase = .awaitAnswer n)
      (hsent : s.hasSentHeader = true) (hleft : s.payloadLeft = payload) :
      Progress header payload s header []
  | payload {s : Sender} {chunk w ctrl : Bytes} (hp : s.phase = .writing chunk)
      (hsent : s.hasSentHeader = true) (hw : w ++ chunk ++ s.payloadLeft = payload)
      (hacc : Accepted ctrl) (hlen : ctrl.length = ctrlMsgSize) :
      Progress header payload s (header ++ w) ctrl
  | awaitAck {s : Sender} {n : ℕ} {wrote ctrl : Bytes} (hp : s.phase = .awaitAck n)
      (hwrote : wrote = header ∨ Accepted ctrl ∧ wrote = header ++ payload)
      (hlen : ctrl.length = ctrlMsgSize) : Progress header payload s wrote ctrl
  | done {s : Sender} {e : ProtocolEvent} {wrote ctrl : Bytes} (hp : s.phase = .done e)
      (hwrote : wrote <+: header ∨ Accepted ctrl ∧ wrote <+: header ++ payload)
      (hsuccess : e = .success → ctrl.length = 2 * ctrlMsgSize)
      (hreject : e = .reject → ctrlMsgType ctrl = CtrlType.reject.code) :
      Progress header payload s wrote ctrl

/-- What was written is a part of the header, or the object was accepted. -/
theorem Progress.wrote {s : Sender} {wrote ctrl : Bytes}
    (h : Progress header payload s wrote ctrl) :
    wrote <+: header ∨ Accepted ctrl ∧ wrote <+: header ++ payload := by
  cases h with
  | header _ _ hwrote =>
    rw [List.append_assoc] at hwrote
    exact Or.inl ⟨_, hwrote⟩
  | awaitAnswer => exact Or.inl List.prefix_rfl
  | payload _ _ hw hacc =>
    rw [List.append_assoc] at hw
    exact Or.inr ⟨hacc, (List.prefix_append_right_inj _).mpr ⟨_, hw⟩⟩
  | awaitAck _ hwrote =>
    rcases hwrote with rfl | ⟨hacc, rfl⟩
    · exact Or.inl List.prefix_rfl
    · exact Or.inr ⟨hacc, List.prefix_rfl⟩
  | done _ hwrote => exact hwrote

/-- A sender that returns with success has read two messages. -/
theorem Progress.of_success {s : Sender} {wrote ctrl : Bytes}
    (h : Progress header payload s wrote ctrl) (hs : s.phase = .done .success) :
    ctrl.length = 2 * ctrlMsgSize := by
  cases h with
  | done hp _ hsuccess =>
    rw [hs] at hp
    cases hp
    exact hsuccess rfl
  | header hp | awaitAnswer hp | payload hp | awaitAck hp => simp [hs] at hp

/-- A sender that returns with a rejection has read a REJECT. -/
theorem Progress.of_reject {s : Sender} {wrote ctrl : Bytes}
    (h : Progress header payload s wrote ctrl) (hs : s.phase = .done .reject) :
    ctrlMsgType ctrl = CtrlType.reject.code := by
  cases h with
  | done hp _ _ hreject =>
    rw [hs] at hp
    cases hp
    exact hreject rfl
  | header hp | awaitAnswer hp | payload hp | awaitAck hp => simp [hs] at hp

/-- A sender that gives up. -/
theorem Progress.fail {s : Sender} {wrote ctrl : Bytes} (h : Progress header payload s wrote ctrl)
    {e : ProtocolEvent} (hs : e ≠ .success) (hr : e ≠ .reject) :
    Progress header payload { s with phase := .done e } wrote ctrl :=
  .done rfl h.wrote (fun he => absurd he hs) (fun he => absurd he hr)

/-- The next piece of the header, or the end of it. -/
theorem progress_retrieve_header {s : Sender} {wrote : Bytes} (hsent : s.hasSentHeader = false)
    (hwrote : wrote ++ s.headerLeft = header) (hleft : s.payloadLeft = payload) :
    Progress header payload s.retrieve wrote [] := by
  rw [retrieve, hsent, if_neg Bool.false_ne_true]
  split_ifs with hnil
  · rw [hnil, List.append_nil] at hwrote
    subst hwrote
    exact .awaitAnswer rfl rfl hleft
  · refine .header rfl rfl ?_ hleft
    rw [List.append_assoc, List.take_append_drop, hwrote]

/-- The next piece of the payload, or the end of it. -/
theorem progress_retrieve_payload {s : Sender} {w ctrl : Bytes} (hsent : s.hasSentHeader = true)
    (hw : w ++ s.payloadLeft = payload) (hacc : Accepted ctrl) (hlen : ctrl.length = ctrlMsgSize) :
    Progress header payload s.retrieve (header ++ w) ctrl := by
  rw [retrieve, hsent, if_pos rfl]
  split_ifs with hnil
  · rw [hnil, List.append_nil] at hw
    exact .awaitAck rfl (Or.inr ⟨hacc, by rw [hw]⟩) hlen
  · refine .payload rfl rfl ?_ hacc hlen
    rw [List.append_assoc, List.take_append_drop, hw]

/-- Some bytes of the piece were written. -/
theorem Progress.afterWrite_sent {s : Sender} {wrote ctrl chunk : Bytes}
    (h : Progress header payload s wrote ctrl) (hp : s.phase = .writing chunk) (k : ℕ) :
    Progress header payload (s.afterWrite chunk (.sent k)) (wrote ++ chunk.take k) ctrl := by
  cases h with
  | header hp' hsent hwrote hleft =>
    obtain rfl : chunk = _ := by simpa [hp] using hp'
    rw [afterWrite]
    split_ifs with hnil
    · refine progress_retrieve_header hsent ?_ hleft
      rw [List.take_of_length_le (List.drop_eq_nil_iff.mp hnil), hwrote]
    · refine .header rfl hsent ?_ hleft
      rw [List.append_assoc wrote, List.take_append_drop, hwrote]
  | awaitAnswer hp' => simp [hp'] at hp
  | payload hp' hsent hw hacc hlen =>
    obtain rfl : chunk = _ := by simpa [hp] using hp'
    rw [afterWrite, List.append_assoc]
    split_ifs with hnil
    · refine progress_retrieve_payload hsent ?_ hacc hlen
      rw [List.take_of_length_le (List.drop_eq_nil_iff.mp hnil), hw]
    · refine .payload rfl hsent ?_ hacc hlen
      rw [List.append_assoc _ (chunk.take k), List.take_append_drop, hw]
  | awaitAck hp' => simp [hp'] at hp
  | done hp' => simp [hp'] at hp

/-- Nothing was written: the sender tries again or gives up. -/
theorem afterWrite_idle {s : Sender} {chunk : Bytes} {w : WriteResponse}
    (hsent : ∀ k, w ≠ .sent k) (hs : w ≠ .event .success) (hr : w ≠ .event .reject) :
    (∃ n, s.afterWrite chunk w = { s with blockCount := n }) ∨
      ∃ e, e ≠ .success ∧ e ≠ .reject ∧ s.afterWrite chunk w = { s with phase := .done e } := by
  cases w with
  | event e =>
    have hes : e ≠ .success := fun he => hs (by rw [he])
    refine Or.inr ⟨e, hes, fun he => hr (by rw [he]), ?_⟩
    rw [afterWrite, if_neg hes]
  | sent k => exact absurd rfl (hsent k)
  | closed => exact Or.inr ⟨.peerClosed, by simp, by simp, rfl⟩
  | error e =>
    cases e with
    | wouldBlock =>
      rw [afterWrite]
      split_ifs
      · exact Or.inr ⟨.error, by simp, by simp, rfl⟩
      · exact Or.inl ⟨_, rfl⟩
    | badHandle | notConnected | notASocket | connectionReset =>
      exact Or.inr ⟨.errorFatal, by simp, by simp, rfl⟩
    | _ => exact Or.inr ⟨.error, by simp, by simp, rfl⟩

theorem Progress.wait_write {s : Sender} {wrote ctrl chunk : Bytes}
    (h : Progress header payload s wrote ctrl) (hp : s.phase = .writing chunk) (n : ℕ) :
    Progress header payload { s with blockCount := n } wrote ctrl := by
  cases h with
  | header hp' hsent hwrote hleft => exact .header hp' hsent hwrote hleft
  | awaitAnswer hp' => simp [hp'] at hp
  | payload hp' hsent hw hacc hlen => exact .payload hp' hsent hw hacc hlen
  | awaitAck hp' => simp [hp'] at hp
  | done hp' => simp [hp'] at hp

end Sender

/-- A control message is a read of its size; otherwise the round is repeated, or it fails. -/
theorem receiveControlMessageStep_cases (n : ℕ) {x : ReadResponse} (hs : x ≠ .event .success)
    (hr : x ≠ .event .reject) :
    (∃ k, receiveControlMessageStep n x = .again k ∧ ∀ bytes, x ≠ .data bytes) ∨
      (∃ e, e ≠ .success ∧ e ≠ .reject ∧ receiveControlMessageStep n x = .failed e) ∨
      ∃ m, x = .data m ∧ m.length = ctrlMsgSize ∧ receiveControlMessageStep n x = .message m := by
  cases x with
  | event e =>
    cases e with
    | success => exact absurd rfl hs
    | reject => exact absurd rfl hr
    | _ => exact Or.inr (Or.inl ⟨_, by simp, by simp, rfl⟩)
  | data m =>
    rw [receiveControlMessageStep]
    split_ifs with hlen
    · exact Or.inr (Or.inr ⟨m, rfl, hlen, rfl⟩)
    · exact Or.inr (Or.inl ⟨.error, by simp, by simp, rfl⟩)
  | closed => exact Or.inr (Or.inl ⟨.peerClosed, by simp, by simp, rfl⟩)
  | error e =>
    cases e with
    | wouldBlock =>
      rw [receiveControlMessageStep]
      split_ifs
      · exact Or.inr (Or.inl ⟨.error, by simp, by simp, rfl⟩)
      · exact Or.inl ⟨_, rfl, by simp⟩
    | badHandle | notConnected | notASocket | connectionReset =>
      exact Or.inr (Or.inl ⟨.errorFatal, by simp, by simp, rfl⟩)
    | _ => exact Or.inr (Or.inl ⟨.error, by simp, by simp, rfl⟩)

namespace Sender

variable {header payload : Bytes}

/-- The bytes that a read takes from the stream of control messages. -/
def taken : ReadResponse → Bytes
  | .data bytes => bytes
  | _ => []

theorem Progress.read_answer {s : Sender} {wrote : Bytes} {n : ℕ} {x : ReadResponse}
    {ctrl : Bytes} (h : Progress header payload s wrote ctrl) (hp : s.phase = .awaitAnswer n)
    (hs : x ≠ .event .success) (hr : x ≠ .event .reject) :
    Progress header payload (s.step (.read x)) wrote (ctrl ++ taken x) := by
  cases h with
  | awaitAnswer _ hsent hleft =>
    unfold step
    rw [hp]
    dsimp only
    rcases receiveControlMessageStep_cases n hs hr with ⟨k, hstep, hx⟩ | ⟨e, he, he', hstep⟩ |
      ⟨m, rfl, hlen, hstep⟩
    · have hnil : taken x = [] := by
        cases x <;> first | rfl | exact absurd rfl (hx _)
      rw [hstep, hnil]
      exact .awaitAnswer rfl hsent hleft
    · rw [hstep]
      exact .done rfl (Or.inl List.prefix_rfl) (fun h => absurd h he) (fun h => absurd h he')
    · rw [hstep]
      dsimp only [afterAnswer, taken, List.nil_append]
      split_ifs with hacc hrej hterm
      · have hret : Progress header payload s.retrieve (header ++ []) m :=
          progress_retrieve_payload hsent (by rw [List.nil_append, hleft]) hacc hlen
        rwa [List.append_nil] at hret
      · exact .done rfl (Or.inl List.prefix_rfl) (by simp) (fun _ => hrej)
      · exact .done rfl (Or.inl List.prefix_rfl) (by simp) (by simp)
      · exact .awaitAck rfl (Or.inl rfl) hlen
  | header hp' => simp [hp'] at hp
  | payload hp' => simp [hp'] at hp
  | awaitAck hp' => simp [hp'] at hp
  | done hp' => simp [hp'] at hp

theorem ctrlMsgType_append {m : Bytes} (hm : m.length = ctrlMsgSize) (l : Bytes) :
    ctrlMsgType (m ++ l) = ctrlMsgType m := by
  match m with
  | _ :: _ :: _ :: _ :: _ => rfl
  | [] | [_] | [_, _] | [_, _, _] => simp [ctrlMsgSize] at hm

theorem Progress.read_ack {s : Sender} {wrote : Bytes} {n : ℕ} {x : ReadResponse}
    {ctrl : Bytes} (h : Progress header payload s wrote ctrl) (hp : s.phase = .awaitAck n)
    (hs : x ≠ .event .success) (hr : x ≠ .event .reject) :
    Progress header payload (s.step (.read x)) wrote (ctrl ++ taken x) := by
  cases h with
  | awaitAck _ hwrote hlen =>
    have hacc : Accepted (ctrl ++ taken x) ↔ Accepted ctrl := by
      rw [Accepted, Accepted, ctrlMsgType_append hlen]
    have hpre : wrote <+: header ∨ Accepted (ctrl ++ taken x) ∧ wrote <+: header ++ payload := by
      rcases hwrote with rfl | ⟨h, rfl⟩
      · exact Or.inl List.prefix_rfl
      · exact Or.inr ⟨hacc.mpr h, List.prefix_rfl⟩
    unfold step
    rw [hp]
    dsimp only
    rcases receiveControlMessageStep_cases n hs hr with ⟨k, hstep, hx⟩ | ⟨e, he, he', hstep⟩ |
      ⟨m, rfl, hlen', hstep⟩
    · have hnil : taken x = [] := by
        cases x <;> first | rfl | exact absurd rfl (hx _)
      rw [hstep, hnil, List.append_nil]
      exact .awaitAck rfl hwrote hlen
    · rw [hstep]
      exact .done rfl hpre (fun h => absurd h he) (fun h => absurd h he')
    · rw [hstep]
      dsimp only [afterAck]
      split_ifs
      · refine .done rfl hpre (fun _ => ?_) (by simp)
        rw [taken, List.length_append, hlen, hlen', Nat.two_mul]
      · exact .done rfl hpre (by simp) (by simp)
  | header hp' => simp [hp'] at hp
  | awaitAnswer hp' => simp [hp'] at hp
  | payload hp' => simp [hp'] at hp
  | done hp' => simp [hp'] at hp

end Sender
end Haggle
