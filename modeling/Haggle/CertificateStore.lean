import Mathlib.Data.List.Find
import Haggle.HashMapEntries
import Haggle.SecurityManager

/-!
# The certificate store

A certificate is an object with a flag that says whether it is stored, and the store maps a subject
to a reference to such an object. `storeCertificate` sets the flag before it looks at the store, and
a certificate that another one replaces keeps its flag.
-/

namespace Haggle

namespace HashMap

variable {K V : Type} [DecidableEq K] [Hash K]

def find (m : HashMap K V) (k : K) : Option V := (m.findFrom k).head?.map Prod.snd

theorem find_eq_head?_values {m : HashMap K V} (hm : m.WF) (k : K) :
    m.find k = (m.values k).head? := by
  have hkey : ∀ e, (m.findFrom k).head? = some e → e.1 = k := by
    intro e he
    unfold findFrom at he
    cases hd : (m.table.getD (m.getIndex k) []).dropWhile (fun e => decide (e.1 ≠ k)) with
    | nil =>
      rw [hd] at he
      cases he
    | cons e' l =>
      rw [hd] at he
      obtain rfl : e' = e := by simpa using he
      have hhead := List.head?_dropWhile_not (fun e : K × V => decide (e.1 ≠ k))
        (m.table.getD (m.getIndex k) [])
      rw [hd] at hhead
      simpa using hhead
  rw [← equalRange_values hm, equalRange, find, List.head?_map]
  cases hf : m.findFrom k with
  | nil => rfl
  | cons e l =>
    have he : e.1 = k := hkey e (by rw [hf]; rfl)
    simp [he]

theorem values_eraseFirst {m : HashMap K V} (hm : m.WF) (k k' : K) :
    (m.eraseFirst k fun _ => true).values k' =
      if k = k' then (m.values k').tail else m.values k' := by
  have hb : bucket (m.eraseFirst k fun _ => true) k' = if m.getIndex k = m.getIndex k' then
      (m.bucket k').eraseP (fun e => e.1 = k && true) else m.bucket k' := bucket_modify hm k k' _ _
  have hfilter : ∀ l : List (K × V),
      ((l.eraseP fun e => e.1 = k && true).filter (fun e => e.1 = k')).map Prod.snd =
        if k = k' then ((l.filter fun e => e.1 = k').map Prod.snd).tail
        else (l.filter fun e => e.1 = k').map Prod.snd := by
    intro l
    simp only [Bool.and_true]
    induction l with
    | nil => simp
    | cons e l ih =>
      by_cases he : e.1 = k
      · by_cases hk : k = k'
        · simp [he, hk]
        · simp [he, hk]
      · by_cases hk : e.1 = k'
        · have hkk : k ≠ k' := fun h => he (hk.trans h.symm)
          rw [if_neg hkk] at ih
          simp [hk, Ne.symm hkk, hkk, ih]
        · simp [he, hk, ih]
  unfold values
  rw [filter_toList (wf_eraseFirst hm k _), filter_toList hm, hb]
  by_cases hi : m.getIndex k = m.getIndex k'
  · rw [if_pos hi, hfilter]
  · have hk : k ≠ k' := fun h => hi (by rw [h])
    rw [if_neg hi, if_neg hk]

omit [Hash K] in
theorem exists_mem_values_iff {m : HashMap K V} {v : V} :
    v ∈ m.toList.map Prod.snd ↔ ∃ k, v ∈ m.values k := by
  simp only [values, List.mem_map, List.mem_filter, decide_eq_true_eq]
  constructor
  · rintro ⟨e, he, rfl⟩
    exact ⟨e.1, e, ⟨he, rfl⟩, rfl⟩
  · rintro ⟨k, e, ⟨he, -⟩, rfl⟩
    exact ⟨e, he, rfl⟩

end HashMap

structure CertificateObject where
  cert : Certificate
  stored : Bool
deriving DecidableEq

/-- `certs` are all certificates there are; `accepted` lists those whose `storeCertificate` returned
true, the latest first. -/
structure CertificateStore where
  certs : List CertificateObject
  certStore : HashMap Bytes ℕ
  accepted : List ℕ

namespace CertificateStore

def subject (s : CertificateStore) (ref : ℕ) : Option Bytes := (s.certs[ref]?).map (·.cert.subject)

def isStored (s : CertificateStore) (ref : ℕ) : Bool := (s.certs[ref]?).any (·.stored)

def setStored (s : CertificateStore) (ref : ℕ) : CertificateStore :=
  { s with certs := s.certs.modify ref fun c => { c with stored := true } }

/-- The insertion, at which the call returns true. -/
def put (s : CertificateStore) (subject : Bytes) (ref : ℕ) : CertificateStore :=
  { s with certStore := s.certStore.insert (subject, ref), accepted := ref :: s.accepted }

def storeCertificate (s : CertificateStore) (ref : ℕ) (replace : Bool) : CertificateStore × Bool :=
  match s.certs[ref]? with
  | none => (s, false)
  | some c =>
    if c.stored then (s, false)
    else
      match s.certStore.find c.cert.subject with
      | some _ =>
        if replace then
          (({ s.setStored ref with
            certStore := s.certStore.eraseFirst c.cert.subject fun _ => true }).put
              c.cert.subject ref, true)
        else (s.setStored ref, false)
      | none => ((s.setStored ref).put c.cert.subject ref, true)

def retrieveCertificate (s : CertificateStore) (subject : Bytes) : Option ℕ :=
  s.certStore.find subject

inductive Act
  | create (cert : Certificate)
  | store (ref : ℕ) (replace : Bool)
  | retrieve (subject : Bytes)

def start : CertificateStore := ⟨[], HashMap.empty, []⟩

def step (s : CertificateStore) : Act → CertificateStore
  | .create cert => { s with certs := s.certs ++ [⟨cert, false⟩] }
  | .store ref replace => (s.storeCertificate ref replace).1
  | .retrieve _ => s

/-- There is one certificate for a subject, the one that was accepted last; the flag tells what is
in the store; what is not there can be put there. -/
structure Consistent (s : CertificateStore) : Prop where
  one : ∀ subject, (s.certStore.values subject).length ≤ 1
  latest : ∀ subject, s.retrieveCertificate subject =
    s.accepted.find? fun ref => s.subject ref = some subject
  flags : ∀ ref, s.isStored ref = true ↔ ref ∈ s.certStore.toList.map Prod.snd
  storable : ∀ ref, (s.subject ref).isSome = true → ref ∉ s.certStore.toList.map Prod.snd →
    (s.storeCertificate ref true).2 = true

/-- A certificate that is not marked as stored finds no other one of its subject in the store. -/
def Vacant (s : CertificateStore) : Act → Prop
  | .store ref _ => ∀ subject, s.subject ref = some subject → s.isStored ref = false →
      s.retrieveCertificate subject = none
  | _ => True

/-- What holds in every state: the store holds the certificate that was accepted last, and an
accepted certificate exists. -/
structure Filed (s : CertificateStore) : Prop where
  wf : s.certStore.WF
  values : ∀ subject, s.certStore.values subject =
    (s.accepted.find? fun ref => s.subject ref = some subject).toList
  exist : ∀ ref ∈ s.accepted, (s.subject ref).isSome = true

variable {s : CertificateStore}

theorem Filed.retrieveCertificate_eq (h : s.Filed) (subject : Bytes) :
    s.retrieveCertificate subject =
      s.accepted.find? fun ref => s.subject ref = some subject := by
  rw [retrieveCertificate, HashMap.find_eq_head?_values h.wf, h.values]
  cases s.accepted.find? fun ref => s.subject ref = some subject <;> rfl

theorem Filed.mem_iff (h : s.Filed) (ref : ℕ) :
    ref ∈ s.certStore.toList.map Prod.snd ↔
      ∃ subject, s.retrieveCertificate subject = some ref := by
  rw [HashMap.exists_mem_values_iff]
  refine exists_congr fun subject => ?_
  rw [h.values, h.retrieveCertificate_eq, Option.mem_toList]

theorem Filed.subject_of_retrieve (h : s.Filed) {subject : Bytes} {ref : ℕ}
    (hr : s.retrieveCertificate subject = some ref) : s.subject ref = some subject := by
  rw [h.retrieveCertificate_eq] at hr
  simpa using List.find?_some hr

@[simp] theorem subject_setStored (s : CertificateStore) (ref x : ℕ) :
    (s.setStored ref).subject x = s.subject x := by
  simp only [subject, setStored, List.getElem?_modify]
  cases s.certs[x]? with
  | none => rfl
  | some c => by_cases hx : ref = x <;> simp [hx]

theorem isStored_setStored (s : CertificateStore) (ref x : ℕ) :
    (s.setStored ref).isStored x =
      ((decide (ref = x) && (s.subject x).isSome) || s.isStored x) := by
  simp only [isStored, setStored, subject, List.getElem?_modify]
  cases s.certs[x]? with
  | none => simp
  | some c => by_cases hx : ref = x <;> simp [hx]

@[simp] theorem isStored_put (s : CertificateStore) (k : Bytes) (ref x : ℕ) :
    (s.put k ref).isStored x = s.isStored x := rfl

theorem subject_create (cert : Certificate) {x : ℕ} (hx : (s.subject x).isSome = true) :
    (step s (.create cert)).subject x = s.subject x := by
  have hlt : x < s.certs.length := by
    by_contra! hn
    simp [subject, List.getElem?_eq_none hn] at hx
  simp only [subject, step, List.getElem?_append_left hlt]

/-- Everything that `storeCertificate` can do. -/
theorem storeCertificate_cases (s : CertificateStore) (ref : ℕ) (replace : Bool) :
    ((s.subject ref = none ∨ s.isStored ref = true) ∧
        s.storeCertificate ref replace = (s, false)) ∨
      ∃ k, s.subject ref = some k ∧ s.isStored ref = false ∧
        (s.retrieveCertificate k = none ∧
            s.storeCertificate ref replace = ((s.setStored ref).put k ref, true) ∨
          ∃ old, s.retrieveCertificate k = some old ∧
            (replace = false ∧ s.storeCertificate ref replace = (s.setStored ref, false) ∨
              replace = true ∧ s.storeCertificate ref replace =
                (({ s.setStored ref with
                  certStore := s.certStore.eraseFirst k fun _ => true }).put k ref, true))) := by
  unfold storeCertificate subject isStored retrieveCertificate
  cases hc : s.certs[ref]? with
  | none => exact .inl ⟨.inl rfl, rfl⟩
  | some c =>
    by_cases hst : c.stored = true
    · exact .inl ⟨.inr hst, if_pos hst⟩
    · refine .inr ⟨c.cert.subject, rfl, Bool.not_eq_true _ ▸ hst, ?_⟩
      simp only [if_neg hst]
      cases hf : s.certStore.find c.cert.subject with
      | none => exact .inl ⟨rfl, rfl⟩
      | some old =>
        refine .inr ⟨old, rfl, ?_⟩
        cases replace with
        | false => exact .inl ⟨rfl, rfl⟩
        | true => exact .inr ⟨rfl, rfl⟩

theorem Filed.start : start.Filed where
  wf := HashMap.wf_empty
  values subject := by simp [CertificateStore.start, HashMap.values, HashMap.empty,
    HashMap.toList_ofTableSize]
  exist ref hr := by simp [CertificateStore.start] at hr

theorem Filed.create (h : s.Filed) (cert : Certificate) : (step s (.create cert)).Filed where
  wf := h.wf
  values subject := by
    have hfind : (s.accepted.find? fun ref => s.subject ref = some subject) =
        s.accepted.find? fun ref => (step s (.create cert)).subject ref = some subject :=
      List.find?_congr fun ref hr => by rw [subject_create cert (h.exist ref hr)]
    exact (h.values subject).trans (congrArg Option.toList hfind)
  exist ref hr := by
    rw [subject_create cert (h.exist ref hr)]
    exact h.exist ref hr

theorem Filed.setStored (h : s.Filed) (ref : ℕ) : (s.setStored ref).Filed where
  wf := h.wf
  values subject := by
    simp only [subject_setStored]
    exact h.values subject
  exist x hx := by
    rw [subject_setStored]
    exact h.exist x hx

/-- An insertion behind the removal of what the subject had. -/
theorem Filed.put (h : s.Filed) {ref : ℕ} {k : Bytes} (hk : s.subject ref = some k)
    {store : HashMap Bytes ℕ} (hwf : store.WF)
    (hvalues : ∀ k', store.values k' = if k = k' then [] else s.certStore.values k') :
    (({ s.setStored ref with certStore := store }).put k ref).Filed where
  wf := HashMap.wf_insert hwf _
  values k' := by
    change (store.insert (k, ref)).values k' = ((ref :: s.accepted).find? fun x =>
      decide ((s.setStored ref).subject x = some k')).toList
    simp only [HashMap.values_insert hwf, hvalues, subject_setStored, List.find?_cons, hk,
      Option.some.injEq]
    by_cases hkk : k = k'
    · simp [hkk]
    · rw [if_neg hkk, if_neg hkk, List.append_nil, h.values k', decide_eq_false hkk]
  exist x hx := by
    change ((s.setStored ref).subject x).isSome = true
    rw [subject_setStored]
    rcases List.mem_cons.mp hx with rfl | hx
    · rw [hk]
      rfl
    · exact h.exist x hx

theorem Filed.values_eq (h : s.Filed) (k : Bytes) :
    s.certStore.values k = (s.retrieveCertificate k).toList := by
  rw [h.values, h.retrieveCertificate_eq]

theorem Filed.values_vacant (h : s.Filed) {k : Bytes} (hnone : s.retrieveCertificate k = none)
    (k' : Bytes) : s.certStore.values k' = if k = k' then [] else s.certStore.values k' := by
  by_cases hkk : k = k'
  · rw [if_pos hkk, ← hkk, h.values_eq, hnone]
    rfl
  · rw [if_neg hkk]

theorem Filed.values_eraseFirst (h : s.Filed) (k k' : Bytes) :
    (s.certStore.eraseFirst k fun _ => true).values k' =
      if k = k' then [] else s.certStore.values k' := by
  rw [HashMap.values_eraseFirst h.wf]
  by_cases hkk : k = k'
  · rw [if_pos hkk, if_pos hkk, ← hkk, h.values_eq]
    cases s.retrieveCertificate k <;> rfl
  · rw [if_neg hkk, if_neg hkk]

theorem Filed.put_vacant (h : s.Filed) {ref : ℕ} {k : Bytes} (hk : s.subject ref = some k)
    (hnone : s.retrieveCertificate k = none) : ((s.setStored ref).put k ref).Filed :=
  h.put hk h.wf (h.values_vacant hnone)

theorem Filed.put_replace (h : s.Filed) {ref : ℕ} {k : Bytes} (hk : s.subject ref = some k) :
    (({ s.setStored ref with
      certStore := s.certStore.eraseFirst k fun _ => true }).put k ref).Filed :=
  h.put hk (HashMap.wf_eraseFirst h.wf _ _) (h.values_eraseFirst k)

theorem Filed.step (h : s.Filed) (a : Act) : (CertificateStore.step s a).Filed := by
  cases a with
  | create cert => exact h.create cert
  | retrieve subject => exact h
  | store ref replace =>
    change (s.storeCertificate ref replace).1.Filed
    rcases storeCertificate_cases s ref replace with ⟨-, heq⟩ | ⟨k, hk, -, hcase⟩
    · exact heq ▸ h
    · rcases hcase with ⟨hnone, heq⟩ | ⟨old, -, ⟨-, heq⟩ | ⟨-, heq⟩⟩
      · exact heq ▸ h.put_vacant hk hnone
      · exact heq ▸ h.setStored ref
      · exact heq ▸ h.put_replace hk

theorem Filed.run (as : List Act) :
    (Trace.run CertificateStore.step CertificateStore.start as).Filed :=
  Trace.invariant (fun _ a h => h.step a) Filed.start as

/-- The flag tells what is in the store. -/
def Flagged (s : CertificateStore) : Prop :=
  ∀ ref, s.isStored ref = true ↔ ∃ k, s.retrieveCertificate k = some ref

/-- All that a state can get wrong is the flags. -/
theorem Filed.consistent_iff (h : s.Filed) : s.Consistent ↔ s.Flagged := by
  constructor
  · exact fun hc ref => (hc.flags ref).trans (h.mem_iff ref)
  · intro hf
    refine ⟨fun k => ?_, h.retrieveCertificate_eq, fun ref => (hf ref).trans (h.mem_iff ref).symm,
      fun ref hsome hnot => ?_⟩
    · rw [h.values_eq]
      cases s.retrieveCertificate k <;> simp
    · have hflag : s.isStored ref ≠ true := fun hst => hnot ((h.mem_iff ref).mpr ((hf ref).mp hst))
      rcases storeCertificate_cases s ref true with ⟨hno | hst, -⟩ | ⟨k, -, -, hcase⟩
      · rw [hno] at hsome
        cases hsome
      · exact absurd hst hflag
      · rcases hcase with ⟨-, heq⟩ | ⟨old, -, ⟨hfalse, -⟩ | ⟨-, heq⟩⟩
        · rw [heq]
        · cases hfalse
        · rw [heq]

/-- A put certificate is the one that is retrieved for its subject, and nothing else changes. -/
theorem Filed.retrieve_put (h : s.Filed) {ref : ℕ} {k : Bytes} {store : HashMap Bytes ℕ}
    (hwf : store.WF)
    (hvalues : ∀ k', store.values k' = if k = k' then [] else s.certStore.values k') (k' : Bytes) :
    (({ s.setStored ref with certStore := store }).put k ref).retrieveCertificate k' =
      if k = k' then some ref else s.retrieveCertificate k' := by
  have hput : (({ s.setStored ref with certStore := store }).put k ref).retrieveCertificate k' =
      ((store.insert (k, ref)).values k').head? :=
    HashMap.find_eq_head?_values (HashMap.wf_insert hwf _) k'
  rw [hput, HashMap.values_insert hwf, hvalues]
  by_cases hkk : k = k'
  · rw [if_pos hkk, if_pos hkk, if_pos hkk]
    rfl
  · rw [if_neg hkk, if_neg hkk, if_neg hkk, List.append_nil, h.values_eq]
    cases s.retrieveCertificate k' <;> rfl

theorem isStored_create (cert : Certificate) (x : ℕ) :
    (step s (.create cert)).isStored x = s.isStored x := by
  simp only [isStored, step, List.getElem?_append]
  by_cases hx : x < s.certs.length
  · rw [if_pos hx]
  · rw [if_neg hx, List.getElem?_eq_none (Nat.le_of_not_lt hx)]
    cases x - s.certs.length <;> rfl

theorem Filed.flagged_put (h : s.Filed) (hf : s.Flagged) {ref : ℕ} {k : Bytes}
    (hk : s.subject ref = some k) (hnone : s.retrieveCertificate k = none) :
    ((s.setStored ref).put k ref).Flagged := by
  intro x
  have hretrieve : ∀ k', ((s.setStored ref).put k ref).retrieveCertificate k' =
      if k = k' then some ref else s.retrieveCertificate k' :=
    h.retrieve_put h.wf (h.values_vacant hnone)
  simp only [isStored_put, isStored_setStored, hretrieve, Bool.or_eq_true, Bool.and_eq_true,
    decide_eq_true_eq, hf x]
  constructor
  · rintro (⟨rfl, -⟩ | ⟨k', hk'⟩)
    · exact ⟨k, if_pos rfl⟩
    · refine ⟨k', ?_⟩
      rw [if_neg, hk']
      rintro rfl
      rw [hnone] at hk'
      cases hk'
  · rintro ⟨k', hk'⟩
    split_ifs at hk' with hkk
    · obtain rfl := Option.some.inj hk'
      exact .inl ⟨rfl, hk ▸ rfl⟩
    · exact .inr ⟨k', hk'⟩

theorem Flagged.not_refused (hf : s.Flagged) {ref : ℕ} {k : Bytes} (hk : s.subject ref = some k)
    (hnew : s.isStored ref = false) : ¬(s.setStored ref).Flagged := by
  intro hafter
  have hmarked : (s.setStored ref).isStored ref = true := by
    rw [isStored_setStored, decide_eq_true rfl, hk]
    rfl
  obtain ⟨k', hk'⟩ := (hafter ref).mp hmarked
  have hbefore : s.isStored ref = true := (hf ref).mpr ⟨k', hk'⟩
  rw [hnew] at hbefore
  cases hbefore

/-- A replaced certificate stays marked. -/
theorem Filed.not_flagged_replace (h : s.Filed) (hf : s.Flagged) {ref old : ℕ} {k : Bytes}
    (hnew : s.isStored ref = false) (hold : s.retrieveCertificate k = some old) :
    ¬(({ s.setStored ref with
      certStore := s.certStore.eraseFirst k fun _ => true }).put k ref).Flagged := by
  intro hafter
  have hmarked : s.isStored old = true := (hf old).mpr ⟨k, hold⟩
  have hstays : (s.setStored ref).isStored old = true := by
    rw [isStored_setStored, hmarked, Bool.or_true]
  obtain ⟨k', hk'⟩ := (hafter old).mp hstays
  rw [h.retrieve_put (HashMap.wf_eraseFirst h.wf _ _) (h.values_eraseFirst k)] at hk'
  split_ifs at hk' with hkk
  · obtain rfl := Option.some.inj hk'
    rw [hnew] at hmarked
    cases hmarked
  · have hsame : some k = some k' :=
      (h.subject_of_retrieve hold).symm.trans (h.subject_of_retrieve hk')
    exact hkk (Option.some.inj hsame)

theorem Filed.flagged_step (h : s.Filed) (hf : s.Flagged) (a : Act) :
    (CertificateStore.step s a).Flagged ↔ s.Vacant a := by
  cases a with
  | create cert => exact iff_of_true (fun x => (by rw [isStored_create]; exact hf x)) trivial
  | retrieve subject => exact iff_of_true hf trivial
  | store ref replace =>
    change (s.storeCertificate ref replace).1.Flagged ↔ _
    rcases storeCertificate_cases s ref replace with ⟨hno, heq⟩ | ⟨k, hk, hnew, hcase⟩
    · rw [heq]
      refine iff_of_true hf fun k hk hnew => ?_
      rcases hno with hno | hst
      · rw [hno] at hk
        cases hk
      · rw [hst] at hnew
        cases hnew
    · rcases hcase with ⟨hnone, heq⟩ | ⟨old, hold, hcase⟩
      · rw [heq]
        refine iff_of_true (h.flagged_put hf hk hnone) fun k' hk' _ => ?_
        obtain rfl := Option.some.inj (hk.symm.trans hk')
        exact hnone
      · have hnot : ¬s.Vacant (.store ref replace) := by
          intro hv
          rw [hv k hk hnew] at hold
          cases hold
        rcases hcase with ⟨-, heq⟩ | ⟨-, heq⟩
        · rw [heq]
          exact iff_of_false (hf.not_refused hk hnew) hnot
        · rw [heq]
          exact iff_of_false (h.not_flagged_replace hf hnew hold) hnot

theorem flagged_start : start.Flagged := by
  intro x
  refine iff_of_false (by simp [isStored, start]) ?_
  rintro ⟨k, hk⟩
  have hr := Filed.start.retrieveCertificate_eq k
  rw [hk] at hr
  cases hr

/-- The store is consistent all the way exactly if no certificate is refused and none replaced. -/
theorem consistent_run_iff (as : List Act) :
    (∀ pre, pre <+: as → (Trace.run step start pre).Consistent) ↔
      Trace.Guarded step Vacant start as := by
  have hiff := @Trace.forall_prefix_iff_guarded _ _ step Vacant (fun s => s.Filed ∧ s.Flagged)
    (fun s a hs => ⟨fun h => (hs.1.flagged_step hs.2 a).mp h.2,
      fun h => ⟨hs.1.step a, (hs.1.flagged_step hs.2 a).mpr h⟩⟩)
    start ⟨Filed.start, flagged_start⟩ as
  rw [← hiff]
  refine forall_congr' fun pre => imp_congr_right fun _ => ?_
  rw [(Filed.run pre).consistent_iff]
  exact ⟨fun h => ⟨Filed.run pre, h⟩, And.right⟩

end CertificateStore

namespace Sample

open CertificateStore

/-- Two certificates of one subject. The second is refused, and no later call stores it. -/
def refusedCertificate : List CertificateStore.Act :=
  [.create ⟨lit "a", lit "k", lit "s"⟩, .create ⟨lit "a", lit "l", lit "t"⟩, .store 0 false,
    .store 1 false]

theorem not_consistent_refusedCertificate :
    ¬∀ as : List CertificateStore.Act, (Trace.run CertificateStore.step start as).Consistent := by
  intro h
  have hstorable := (h refusedCertificate).storable 1 (by rfl) (by decide)
  have hnever : ((Trace.run CertificateStore.step start refusedCertificate).storeCertificate 1
    true).2 = false := by rfl
  rw [hnever] at hstorable
  cases hstorable

end Sample
end Haggle
