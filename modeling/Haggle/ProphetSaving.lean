import Haggle.ProphetExchange
import Haggle.ProphetSelection
import Haggle.TimevalText

/-!
# Saving the metrics

When the kernel shuts down, the module puts its metrics into the repository, as text and under the
identifiers of the nodes. A new module takes the entries in any order, and numbers the nodes anew.
-/

namespace Haggle
namespace Prophet

section Saving

structure RepositoryEntry where
  authority : Bytes
  key : Bytes
  value : Bytes
deriving DecidableEq

/-- The value of an entry, which is printed into 256 bytes. -/
def saveValue (m : Metric) : Bytes :=
  (DoubleText.print m.p ++ lit ":" ++ m.time.getAsString).take 255

/-- `getSaveState`. -/
def getSaveState (s : State) : List RepositoryEntry :=
  (inOrder s.rib).map fun e => ⟨name, s.nodeid e.1, saveValue e.2⟩

/-- `setSaveState`, which passes over the entries of others. -/
def restoreEntry (uninit : Timeval) (s : State) (e : RepositoryEntry) : State :=
  if e.authority ≠ name then s else setSaveState uninit s e.key e.value

/-- One entry after the other; what the variables of the parser hold may differ from key to key. -/
def restoreAll (uninit : Bytes → Timeval) (s : State) (entries : List RepositoryEntry) : State :=
  entries.foldl (fun s e => restoreEntry (uninit e.key) s e) s

/-- The metric and the time of an identifier. -/
def State.entryFor (s : State) (n : Bytes) : Option Metric :=
  (s.number n).bind fun k => AssocList.get s.rib k

/-- The new table gives every identifier the old metric, to six decimals, and the old time. -/
def Restored (A B : State) : Prop :=
  ∀ n, B.entryFor n = (A.entryFor n).map fun m =>
    ⟨(DoubleText.sixDecimals m.p : ℚ) / 1000000, m.time⟩

/-- The two maps are inverse bijections, no number is zero, and the node of the device has number
one. -/
structure State.Numbered (s : State) (thisNode : Bytes) : Prop where
  inverse : ∀ n k, AssocList.get s.nodeid_to_id_number n = some k ↔
    AssocList.get s.id_number_to_nodeid k = some n
  pos : ∀ n k, AssocList.get s.nodeid_to_id_number n = some k → k ≠ 0
  local_node : AssocList.get s.nodeid_to_id_number thisNode = some 1

end Saving

section Numbers

/-- Every identifier keeps its number. -/
def State.Grows (s s' : State) : Prop := ∀ n k, s.number n = some k → s'.number n = some k

variable {s s' : State} (pr : Parameters)

theorem State.Grows.trans {s'' : State} (h : s.Grows s') (h' : s'.Grows s'') : s.Grows s'' :=
  fun n k hn => h' n k (h n k hn)

theorem grows_receiveMetrics (h : s.Wf) {b : ℕ} (hb : s.Named b)
    (clock : ℕ → Timeval × Timeval) (mms : List Metadata) :
    s.Grows (receiveMetrics pr b clock s mms) := by
  induction mms generalizing s clock with
  | nil => exact fun n k hn => hn
  | cons mm mms ih =>
    obtain ⟨hwf, hnamed⟩ := h.receiveMetric pr hb (clock 0) mm
    have hfirst : s.Grows (Prophet.receiveMetric pr b (clock 0) s mm) := by
      intro n k hn
      have hkeep := (h.numbers (nodeIdOf mm)).1.keeps hn
      unfold Prophet.receiveMetric
      simp only
      split_ifs <;> exact hkeep
    exact hfirst.trans (ih hwf (hnamed b hb) fun i => clock (i + 1))

theorem number_targetSteps (prefers : ℚ → ℚ → Bool) (blank : Node) (clock : ℕ → Timeval) (b : ℕ)
    (entries : List (ℕ × Metric)) (r : State × List (Node × ℚ)) (n : Bytes) :
    (entries.foldl (targetStep pr prefers blank clock b) r).1.number n = r.1.number n := by
  induction entries generalizing r with
  | nil => rfl
  | cons e entries ih =>
    rw [List.foldl_cons, ih]
    unfold targetStep
    simp only
    split_ifs
    · rfl
    · cases Node.createWithId blank ((r.1.modifyRib e.1 (ageMetric pr (clock e.1))).nodeid e.1) <;>
        rfl
    · rfl

theorem number_delegateSteps (prefers : ℚ → ℚ → Bool) (retrieve : Bytes → Option Node)
    (other_targets : List Node) (d : ℕ) (P_ad : ℚ) (tables : List (ℕ × Rib))
    (r : State × List (Node × ℚ)) (n : Bytes) :
    (tables.foldl (delegateStep prefers retrieve other_targets d P_ad) r).1.number n =
      r.1.number n := by
  induction tables generalizing r with
  | nil => rfl
  | cons e tables ih =>
    rw [List.foldl_cons, ih]
    unfold delegateStep
    split_ifs
    · rfl
    · cases retrieve (r.1.nodeid e.1) with
      | none => rfl
      | some delegate =>
        simp only
        split_ifs <;> rfl

theorem grows_step (h : s.Wf) (thisNode : Bytes) {op : Op}
    (hs : step pr thisNode s op = some s') : s.Grows s' := by
  intro n k hn
  cases op with
  | newNeighbor type idStr =>
    obtain rfl := Option.some.inj hs
    unfold newNeighbor
    split_ifs
    · exact hn
    · exact (h.numbers idStr).1.keeps hn
  | endNeighbor now type idStr =>
    obtain rfl := Option.some.inj hs
    unfold endNeighbor
    split_ifs
    · exact hn
    · exact (h.numbers idStr).1.keeps hn
  | newRoutingInformation clock m =>
    obtain rfl := Option.some.inj hs
    unfold newRoutingInformation
    split_ifs
    · exact hn
    · obtain ⟨hnumbers, hwf⟩ := h.numbers (nodeIdOf m)
      have hmade := hwf.modifyNeighborRib ⟨_, hnumbers.self⟩ fun r hr => hr
      exact grows_receiveMetrics pr hmade ⟨_, hnumbers.self⟩ clock _ n k (hnumbers.keeps hn)
  | addRoutingInformation clock parent =>
    simp only [Prophet.step, addRoutingInformation] at hs
    split_ifs at hs
    · obtain rfl := Option.some.inj hs
      exact hn
    · cases hs
  | setSaveState uninit key value =>
    obtain rfl := Option.some.inj hs
    exact (h.numbers key).1.keeps hn
  | generateTargetsFor prefers blank limit clock neighbor =>
    obtain rfl := Option.some.inj hs
    have hkeep := (h.numbers neighbor).1.keeps hn
    exact (number_targetSteps pr prefers blank clock _ _ _ n).trans hkeep
  | generateDelegatesFor prefers retrieve other_targets limit now target =>
    obtain rfl := Option.some.inj hs
    have hkeep := (h.numbers target).1.keeps hn
    exact (number_delegateSteps prefers retrieve other_targets _ _ _ _ n).trans hkeep

theorem number_init (thisNode : Bytes) : (State.init thisNode).number thisNode = some 1 := by
  have hempty : State.Wf ⟨[], [], 1, [], []⟩ :=
    ⟨Nat.one_pos, nofun, fun n k => iff_of_false nofun nofun, List.nodup_nil, nofun, nofun⟩
  obtain ⟨hnumbers, -⟩ := hempty.numbers thisNode
  have hself := hnumbers.self
  rw [hnumbers.new rfl] at hself
  exact hself

theorem number_history {thisNode : Bytes} {ops : List Op} {s : State}
    (h : history pr thisNode ops = some s) : s.number thisNode = some 1 := by
  induction ops using List.reverseRecOn generalizing s with
  | nil =>
    obtain rfl := Option.some.inj h
    exact number_init thisNode
  | append_singleton ops op ih =>
    rw [history, Trace.run_append, Trace.run_cons, Trace.run_nil] at h
    cases hops : history pr thisNode ops with
    | none =>
      rw [history] at hops
      rw [hops] at h
      cases h
    | some s₁ =>
      have hs₁ := hops
      rw [history] at hops
      rw [hops, Option.bind_some] at h
      exact grows_step pr (wf_history pr hs₁) thisNode h _ _ (ih hs₁)

theorem State.Wf.numbered (h : s.Wf) {thisNode : Bytes} (hlocal : s.number thisNode = some 1) :
    s.Numbered thisNode :=
  ⟨h.inverse, fun n k hn => (h.bound n k hn).1.ne', hlocal⟩

end Numbers

section Restoring

variable {s : State}

/-- What is parsed from a value. -/
def readValue (uninit : Timeval) (value : Bytes) : Metric :=
  ⟨(DoubleText.scan (splitValue value).1).getD 0, Timeval.ofString uninit (splitValue value).2⟩

/-- An entry gives its identifier what its value says, and leaves all other identifiers alone. -/
theorem entryFor_setSaveState (h : s.Wf) (uninit : Timeval) (key value n : Bytes) :
    (setSaveState uninit s key value).entryFor n =
      if n = key then some (readValue uninit value) else s.entryFor n := by
  obtain ⟨hnumbers, hwf⟩ := h.numbers key
  have hnumber : (setSaveState uninit s key value).number n = (idForString s key).2.number n := rfl
  have hrib : (setSaveState uninit s key value).rib =
      modifyAt .new (idForString s key).1 (fun _ => readValue uninit value) s.rib := by
    rw [← hnumbers.rib]
    rfl
  unfold State.entryFor
  rw [hnumber, hrib]
  split_ifs with hn
  · rw [hn, hnumbers.self, Option.bind_some, get_modifyAt_self]
  · rw [hnumbers.others n hn]
    cases hk : s.number n with
    | none => rfl
    | some k =>
      rw [Option.bind_some, Option.bind_some, get_modifyAt_of_ne]
      rintro rfl
      -- two identifiers with one number
      exact hn (hwf.injective (by rw [hnumbers.others n hn, hk]) hnumbers.self)

theorem restoreAll_spec (uninit : Bytes → Timeval) {entries : List RepositoryEntry} (h : s.Wf)
    (hname : ∀ e ∈ entries, e.authority = name)
    (hkeys : (entries.map RepositoryEntry.key).Nodup) :
    (restoreAll uninit s entries).Wf ∧ s.Grows (restoreAll uninit s entries) ∧
      (∀ e ∈ entries, (restoreAll uninit s entries).entryFor e.key =
        some (readValue (uninit e.key) e.value)) ∧
      ∀ n ∉ entries.map RepositoryEntry.key,
        (restoreAll uninit s entries).entryFor n = s.entryFor n := by
  induction entries generalizing s with
  | nil => exact ⟨h, fun n k hn => hn, nofun, fun n _ => rfl⟩
  | cons e entries ih =>
    rw [List.forall_mem_cons] at hname
    rw [List.map_cons, List.nodup_cons] at hkeys
    have hstep : restoreEntry (uninit e.key) s e =
        setSaveState (uninit e.key) s e.key e.value := by
      rw [restoreEntry, if_neg (not_not_intro hname.1)]
    obtain ⟨hnumbers, hwf⟩ := h.numbers e.key
    have hwf' : (setSaveState (uninit e.key) s e.key e.value).Wf :=
      hwf.modifyRib ⟨_, hnumbers.self⟩ _
    have hgrows : s.Grows (setSaveState (uninit e.key) s e.key e.value) := fun _ _ => hnumbers.keeps
    obtain ⟨hwf'', hgrows', hmem, hothers⟩ := ih hwf' hname.2 hkeys.2
    have hall : restoreAll uninit s (e :: entries) =
        restoreAll uninit (setSaveState (uninit e.key) s e.key e.value) entries := by
      rw [restoreAll, List.foldl_cons, hstep]
      rfl
    rw [hall]
    refine ⟨hwf'', hgrows.trans hgrows', ?_, ?_⟩
    · rw [List.forall_mem_cons]
      refine ⟨?_, hmem⟩
      rw [hothers e.key hkeys.1, entryFor_setSaveState h, if_pos rfl]
    · intro n hn
      rw [List.map_cons, List.mem_cons, not_or] at hn
      rw [hothers n hn.2, entryFor_setSaveState h, if_neg hn.1]

/-- The value of a probability is split where the two parts were put together. -/
theorem readValue_saveValue (uninit : Timeval) {m : Metric} (hm : Probability m.p) :
    readValue uninit (saveValue m) =
      ⟨(DoubleText.sixDecimals m.p : ℚ) / 1000000, Timeval.ofString uninit m.time.getAsString⟩ := by
  have hcolon : ∀ b ∈ DoubleText.print m.p, b ≠ 58 := by
    rintro b hb rfl
    rw [DoubleText.print, if_neg (not_lt.mpr hm.1), List.nil_append] at hb
    obtain h | h := List.mem_append.mp hb
    · cases isDigit_of_mem_decimal h
    · obtain h | h := List.mem_cons.mp h
      · cases h
      · cases Timeval.isDigit_of_mem_padded h
  have hlen := hm.length_print
  have htime : m.time.getAsString.length ≤ 19 := by
    unfold Timeval.getAsString
    split_ifs <;> exact List.length_take_le _ _
  have hlit : lit ":" = [58] := by decide
  have hvalue : saveValue m = DoubleText.print m.p ++ 58 :: m.time.getAsString := by
    rw [saveValue, hlit, List.append_assoc, List.singleton_append, List.take_of_length_le]
    rw [List.length_append, List.length_cons]
    omega
  have htake : (DoubleText.print m.p ++ 58 :: m.time.getAsString).takeWhile (· ≠ 58) =
      DoubleText.print m.p := by
    rw [List.takeWhile_append_of_pos fun b hb => decide_eq_true (hcolon b hb),
      List.takeWhile_cons_of_neg (by decide), List.append_nil]
  have hdrop : (DoubleText.print m.p ++ 58 :: m.time.getAsString).dropWhile (· ≠ 58) =
      58 :: m.time.getAsString := by
    rw [List.dropWhile_append_of_pos fun b hb => decide_eq_true (hcolon b hb),
      List.dropWhile_cons_of_neg (by decide)]
  have hsplit : splitValue (saveValue m) = (DoubleText.print m.p, m.time.getAsString) := by
    rw [hvalue, splitValue, if_pos (by simp), htake, hdrop, List.tail_cons]
  rw [readValue, hsplit]
  simp only [DoubleText.scan_print, Option.getD_some]

end Restoring

section Restart

variable {pr : Parameters} {thisNode : Bytes} {ops : List Op} {A : State}

theorem entryFor_of_mem (h : A.Wf) {e : ℕ × Metric} (he : e ∈ A.rib) :
    A.entryFor (A.nodeid e.1) = some e.2 := by
  obtain ⟨n, hn⟩ := h.rib_named e he
  rw [State.entryFor, h.nodeid_eq hn, hn, Option.bind_some, AssocList.get_of_mem h.rib_nodup he]

theorem exists_mem_of_entryFor (h : A.Wf) {n : Bytes} {m : Metric}
    (hn : A.entryFor n = some m) : ∃ e ∈ A.rib, A.nodeid e.1 = n ∧ e.2 = m := by
  obtain ⟨k, hk, hm⟩ := Option.bind_eq_some_iff.mp hn
  exact ⟨(k, m), AssocList.mem_of_get hm, h.nodeid_eq hk, rfl⟩

theorem mem_getSaveState (s : State) (e : RepositoryEntry) :
    e ∈ getSaveState s ↔ ∃ r ∈ s.rib, e = ⟨name, s.nodeid r.1, saveValue r.2⟩ := by
  rw [getSaveState, List.mem_map]
  simp only [(inOrder_perm s.rib).mem_iff, @eq_comm _ _ e]

theorem nodup_keys_getSaveState (h : A.Wf) :
    ((getSaveState A).map RepositoryEntry.key).Nodup := by
  have hperm : ((getSaveState A).map RepositoryEntry.key).Perm
      (A.rib.map fun e => A.nodeid e.1) := by
    rw [getSaveState, List.map_map]
    exact (inOrder_perm A.rib).map _
  rw [hperm.nodup_iff]
  refine List.Nodup.map_on ?_ (List.Nodup.of_map Prod.fst h.rib_nodup)
  intro e he e' he' heq
  obtain ⟨n, hn⟩ := h.rib_named e he
  obtain ⟨n', hn'⟩ := h.rib_named e' he'
  rw [h.nodeid_eq hn, h.nodeid_eq hn'] at heq
  subst heq
  have hkey : e.1 = e'.1 := Option.some.inj (hn.symm.trans hn')
  have hmetric := AssocList.get_of_mem h.rib_nodup he
  rw [hkey, AssocList.get_of_mem h.rib_nodup he'] at hmetric
  exact Prod.ext hkey (Option.some.inj hmetric).symm

/-- What a new module makes of the entries of an old one. -/
theorem restoreAll_getSaveState (h : A.Wf) (hrange : ∀ e ∈ A.rib, Probability e.2.p)
    (thisNode : Bytes) {entries : List RepositoryEntry} (hperm : entries.Perm (getSaveState A))
    (uninit : Bytes → Timeval) :
    (restoreAll uninit (.init thisNode) entries).Numbered thisNode ∧
      (∀ e ∈ A.rib, (restoreAll uninit (.init thisNode) entries).entryFor (A.nodeid e.1) =
        some ⟨(DoubleText.sixDecimals e.2.p : ℚ) / 1000000,
          Timeval.ofString (uninit (A.nodeid e.1)) e.2.time.getAsString⟩) ∧
      ∀ n, A.entryFor n = none →
        (restoreAll uninit (.init thisNode) entries).entryFor n = none := by
  have hname : ∀ e ∈ entries, e.authority = name := by
    intro e he
    obtain ⟨r, -, rfl⟩ := (mem_getSaveState A e).mp (hperm.mem_iff.mp he)
    rfl
  have hkeys : (entries.map RepositoryEntry.key).Nodup :=
    (hperm.map RepositoryEntry.key).nodup_iff.mpr (nodup_keys_getSaveState h)
  obtain ⟨hwf, hgrows, hmem, hothers⟩ :=
    restoreAll_spec uninit (wf_init thisNode) hname hkeys
  refine ⟨hwf.numbered (hgrows _ _ (number_init thisNode)), fun e he => ?_, fun n hn => ?_⟩
  · rw [← readValue_saveValue _ (hrange e he)]
    exact hmem ⟨name, A.nodeid e.1, saveValue e.2⟩
      (hperm.mem_iff.mpr ((mem_getSaveState A _).mpr ⟨e, he, rfl⟩))
  · rw [hothers n]
    · have hrib : (State.init thisNode).rib = [] := rfl
      unfold State.entryFor
      rw [hrib]
      cases (State.init thisNode).number n <;> rfl
    · intro hkey
      obtain ⟨e, he, rfl⟩ := List.mem_map.mp hkey
      obtain ⟨r, hr, rfl⟩ := (mem_getSaveState A e).mp (hperm.mem_iff.mp he)
      rw [entryFor_of_mem h hr] at hn
      cases hn

/-- If the new module has the old metrics, every time has come back from its text. -/
theorem ofString_of_restored (h : A.Wf) (hrange : ∀ e ∈ A.rib, Probability e.2.p)
    {uninit : Timeval}
    (hback : Restored A (restoreAll (fun _ => uninit) (.init thisNode) (getSaveState A))) :
    ∀ e ∈ A.rib, Timeval.ofString uninit e.2.time.getAsString = e.2.time := by
  intro e he
  obtain ⟨-, hvalue, -⟩ := restoreAll_getSaveState h hrange thisNode
    (List.Perm.refl (getSaveState A)) (fun _ => uninit)
  have hentry := hback (A.nodeid e.1)
  rw [hvalue e he, entryFor_of_mem h he, Option.map_some] at hentry
  exact (Metric.mk.inj (Option.some.inj hentry)).2

/-- After any history whose metrics are probabilities, and whatever the order of the entries and
the contents of the variables are, a new module has the same metrics, to six decimals, and the same
times exactly when the text of every time has all of it. The numbering of both modules is right in
any case. -/
theorem restored_iff (hA : history pr thisNode ops = some A)
    (hrange : ∀ e ∈ A.rib, Probability e.2.p) :
    ((∀ entries, entries.Perm (getSaveState A) → ∀ uninit,
        Restored A (restoreAll uninit (.init thisNode) entries)) ↔
      ∀ e ∈ A.rib, e.2.time.Storable) ∧
      A.Numbered thisNode ∧
      ∀ entries, entries.Perm (getSaveState A) → ∀ uninit,
        (restoreAll uninit (.init thisNode) entries).Numbered thisNode := by
  have hwf := wf_history pr hA
  refine ⟨⟨fun h e he => ?_, fun h entries hperm uninit n => ?_⟩,
    hwf.numbered (number_history pr hA),
    fun entries hperm uninit => (restoreAll_getSaveState hwf hrange thisNode hperm uninit).1⟩
  · rw [← Timeval.ofString_getAsString_iff]
    exact fun uninit => ofString_of_restored hwf hrange (h _ (List.Perm.refl _) _) e he
  · obtain ⟨-, hvalue, hothers⟩ := restoreAll_getSaveState hwf hrange thisNode hperm uninit
    cases hn : A.entryFor n with
    | some m =>
      obtain ⟨e, he, rfl, rfl⟩ := exists_mem_of_entryFor hwf hn
      rw [hvalue e he, Option.map_some, (Timeval.ofString_getAsString_iff e.2.time).mpr (h e he)]
    | none => exact hothers n hn

end Restart

end Prophet

namespace Sample

open Prophet

/-- A module that has met one neighbor. -/
theorem restored_contact : ∃ A, history defaults (lit "a") [.newNeighbor .peer (lit "b")] = some A ∧
    ∀ entries, entries.Perm (getSaveState A) → ∀ uninit,
      Restored A (restoreAll uninit (.init (lit "a")) entries) := by
  have hA : history defaults (lit "a") [.newNeighbor .peer (lit "b")] =
      some (newNeighbor defaults (.init (lit "a")) .peer (lit "b")) := rfl
  have hrib : (newNeighbor defaults (.init (lit "a")) .peer (lit "b")).rib =
      [(2, ⟨0 + (1 - 0) * (3 / 4), ⟨0, 0⟩⟩)] := rfl
  have hrange : ∀ e ∈ (newNeighbor defaults (.init (lit "a")) .peer (lit "b")).rib,
      Probability e.2.p := by
    rw [hrib, List.forall_mem_singleton]
    exact ⟨by norm_num, by norm_num⟩
  refine ⟨_, hA, (restored_iff hA hrange).1.mpr ?_⟩
  rw [hrib, List.forall_mem_singleton]
  decide

/-- A time before 1970, which the repository may hold, is printed one second too early. -/
theorem not_restored_before1970 : ∃ A, history defaults (lit "a")
      [.setSaveState ⟨0, 0⟩ (lit "b") (lit "0.500000:-5.250000")] = some A ∧
    (∀ e ∈ A.rib, Probability e.2.p) ∧
    ¬ ∀ entries, entries.Perm (getSaveState A) → ∀ uninit,
      Restored A (restoreAll uninit (.init (lit "a")) entries) := by
  have hread : readValue ⟨0, 0⟩ (lit "0.500000:-5.250000") = ⟨1 / 2, ⟨-5, 250000⟩⟩ := by
    decide +kernel
  have hA : history defaults (lit "a")
      [.setSaveState ⟨0, 0⟩ (lit "b") (lit "0.500000:-5.250000")] =
        some (setSaveState ⟨0, 0⟩ (.init (lit "a")) (lit "b") (lit "0.500000:-5.250000")) := rfl
  have hrib : (setSaveState ⟨0, 0⟩ (.init (lit "a")) (lit "b") (lit "0.500000:-5.250000")).rib =
      [(2, readValue ⟨0, 0⟩ (lit "0.500000:-5.250000"))] := rfl
  rw [hread] at hrib
  have hrange : ∀ e ∈ (setSaveState ⟨0, 0⟩ (.init (lit "a")) (lit "b")
      (lit "0.500000:-5.250000")).rib, Probability e.2.p := by
    rw [hrib, List.forall_mem_singleton]
    exact ⟨by norm_num, by norm_num⟩
  refine ⟨_, hA, hrange, fun h => ?_⟩
  have htime := ofString_of_restored (wf_history defaults hA) hrange
    (h _ (List.Perm.refl _) fun _ => ⟨0, 0⟩)
  rw [hrib, List.forall_mem_singleton] at htime
  revert htime
  decide

end Sample
end Haggle
