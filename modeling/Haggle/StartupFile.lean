import Haggle.PutDataFeed

/-!
# The startup file

The kernel offers the whole rest of a file to `putData`, again and again, and goes on behind the
bytes that `putData` says it has put. A file in which data objects stand one behind the other is
read as it should be if each call returns what it has taken.
-/

namespace Haggle

namespace DataObject

theorem completeHeader_fileSystem (pf : Platform) (fs fs' : FileSystem) (o : DataObject)
    (header : Bytes) : completeHeader pf fs o header = completeHeader pf fs' o header := by
  have hpath : ∀ dm o, parseFilePath fs true dm o = parseFilePath fs' true dm o := by
    intro dm o
    simp only [parseFilePath, setFilePath, if_true]
  simp only [completeHeader, parseMetadata, parseData, hpath]

theorem IsHeader.of_fileSystem {pf : Platform} {fs : FileSystem} {o parsed : DataObject}
    {header : Bytes} (h : o.IsHeader pf fs header parsed) (fs' : FileSystem) :
    o.IsHeader pf fs' header parsed :=
  ⟨h.size, h.first, h.last, (completeHeader_fileSystem pf fs' fs o header).trans h.parses⟩

end DataObject

namespace HaggleKernel

/-- A `DATAOBJECT_RECEIVED` event, with the payload that is in the file of the object, and the
number of bytes up to which the file has been read. -/
structure Received where
  obj : DataObject
  payload : Bytes
  behind : ℕ

/-- What an event tells of an object. -/
def Received.summary (e : Received) : Option Metadata × Bytes × ℕ :=
  (e.obj.metadata, e.payload, e.behind)

/-- The variables of the loop; `rest` is what follows `i`. -/
structure Startup where
  fs : FileSystem
  dObj : Option Incoming
  created : ℕ
  j : ℕ
  i : ℕ
  rest : Bytes
  events : List Received
  ret : Bool

/-- The payload of an object that is complete. -/
def payloadOf (fs : FileSystem) (o : DataObject) : Bytes :=
  if o.dataLen = 0 then [] else (fs.contents o.filepath).getD []

/-- What a round makes of the result of `putData`. -/
def Startup.take (s : Startup) (r : PutResult) : Startup :=
  match r.ret with
  | none =>
    { s with
      fs := r.fs, dObj := some r.inc, j := r.remaining, i := s.i + s.rest.length, rest := [] }
  | some k =>
    if k = 0 ∨ r.remaining = 0 then
      { s with
        fs := r.fs, dObj := none, j := r.remaining, i := s.i + k, rest := s.rest.drop k
        events := s.events ++ [⟨r.inc.obj, payloadOf r.fs r.inc.obj, s.i + k⟩]
        ret := true }
    else
      { s with
        fs := r.fs, dObj := some r.inc, j := r.remaining, i := s.i + k, rest := s.rest.drop k }

section Loop

variable (pf : Platform) (storagepath : Bytes) (hash : ℕ → Bytes)

/-- One round of the loop; `hash` is what is in the memory of a new object. -/
def iterate (s : Startup) : Startup :=
  match s.dObj with
  | some x => s.take (x.putData pf s.fs s.j s.rest)
  | none =>
    let x := Incoming.createForPutting storagepath (hash s.created) pf.plainChar
    { s with created := s.created + 1 }.take (x.putData pf s.fs s.j s.rest)

def loop : ℕ → Startup → Startup
  | 0, s => s
  | n + 1, s => if s.rest = [] then s else loop n (iterate pf storagepath hash s)

def start (fs : FileSystem) (data : Bytes) : Startup :=
  ⟨fs, none, 0, 0, 0, data, [], false⟩

/-- `readStartupDataObject`, for a file that could be read. -/
def readStartupDataObject (fs : FileSystem) (data : Bytes) : Startup :=
  let s := loop pf storagepath hash data.length (start fs data)
  { s with fs := s.dObj.elim s.fs fun x => x.obj.destroy s.fs, dObj := none }

end Loop

/-- A complete data object: a header that can be read, and as many bytes as it says. -/
structure StartupObject (pf : Platform) (storagepath : Bytes) (hash : ℕ → Bytes) where
  header : Bytes
  payload : Bytes
  parsed : ℕ → DataObject
  isHeader : ∀ n fs,
    (DataObject.new storagepath (hash n) pf.plainChar).IsHeader pf fs header (parsed n)
  dataLen : ∀ n, (parsed n).dataLen = payload.length

variable {pf : Platform} {storagepath : Bytes} {hash : ℕ → Bytes}

def StartupObject.bytes (ob : StartupObject pf storagepath hash) : Bytes :=
  ob.header ++ ob.payload

def concat (l : List (StartupObject pf storagepath hash)) : Bytes :=
  l.flatMap StartupObject.bytes

/-- One event for each object, at the end of that object. -/
def expected : ℕ → ℕ → List (StartupObject pf storagepath hash) →
    List (Option Metadata × Bytes × ℕ)
  | _, _, [] => []
  | n, i, ob :: l =>
    ((ob.parsed n).metadata, ob.payload, i + ob.bytes.length) ::
      expected (n + 1) (i + ob.bytes.length) l

/-- The file is read object by object. -/
def Accounted (fs : FileSystem) (l : List (StartupObject pf storagepath hash)) : Prop :=
  (readStartupDataObject pf storagepath hash fs (concat l)).events.map Received.summary =
    expected 0 0 l

section Rounds

theorem events_take (s : Startup) (r : PutResult) : s.events <+: (s.take r).events := by
  unfold Startup.take
  split
  · exact List.prefix_rfl
  · by_cases h : ‹ℕ› = 0 ∨ r.remaining = 0
    · rw [if_pos h]
      exact List.prefix_append _ _
    · rw [if_neg h]

theorem events_iterate (s : Startup) :
    s.events <+: (iterate pf storagepath hash s).events := by
  unfold iterate
  split
  · exact events_take s _
  · exact events_take { s with created := s.created + 1 } _

theorem events_loop (n : ℕ) (s : Startup) :
    s.events <+: (loop pf storagepath hash n s).events := by
  induction n generalizing s with
  | zero => exact List.prefix_rfl
  | succ n ih =>
    unfold loop
    split_ifs
    · exact List.prefix_rfl
    · exact (events_iterate s).trans (ih _)

theorem loop_of_rest {s : Startup} (h : s.rest = []) (n : ℕ) :
    loop pf storagepath hash n s = s := by
  cases n with
  | zero => rfl
  | succ n => exact if_pos h

/-- What a fresh object makes of the rest of a file that begins with `ob`. -/
theorem putData_object (ob : StartupObject pf storagepath hash) (n : ℕ) (fs : FileSystem) (j : ℕ)
    (tail : Bytes) :
    (Incoming.createForPutting storagepath (hash n) pf.plainChar).putData pf fs j (ob.bytes ++ tail) =
      if maxMetadataSize ≤ (ob.bytes ++ tail).length then
        ⟨none, metadataPending, .createForPutting storagepath (hash n) pf.plainChar, fs⟩
      else Incoming.putPayload fs (ob.parsed n) ⟨[], none, 0⟩ ob.header.length
        (ob.payload ++ tail) := by
  have hh := ob.isHeader n fs
  have hbytes : ob.bytes ++ tail = ob.header ++ (ob.payload ++ tail) := List.append_assoc _ _ _
  have hne : ob.header ++ (ob.payload ++ tail) ≠ [] := by
    simp [hh.ne_nil]
  have hdone := DataObject.putHeader_done hh [] ob.header (ob.payload ++ tail) rfl hh.ne_nil
  have hlen : (ob.header ++ (ob.payload ++ tail)).length - (ob.payload ++ tail).length =
      ob.header.length := by
    rw [List.length_append, Nat.add_sub_cancel]
  rw [hbytes, Incoming.putData, if_neg hne]
  simp only [Incoming.createForPutting, List.length_nil, Nat.zero_add, hdone, hlen]
  rfl

/-- The call for an object with a payload leaves the header out of what it returns. -/
theorem putPayload_object {o : DataObject} {payload : Bytes} (ho : o.dataLen = payload.length)
    (hne : payload ≠ []) (fs : FileSystem) (putLen : ℕ) (tail : Bytes) :
    (Incoming.putPayload fs o ⟨[], none, 0⟩ putLen (payload ++ tail)).ret = none ∨
      (Incoming.putPayload fs o ⟨[], none, 0⟩ putLen (payload ++ tail)).ret = some payload.length ∧
        (Incoming.putPayload fs o ⟨[], none, 0⟩ putLen (payload ++ tail)).remaining = 0 := by
  have hpos : 0 < payload.length := List.length_pos_of_ne_nil hne
  have hdata : payload ++ tail ≠ [] := by simp [hne]
  have hlen : ¬(payload ++ tail).length < payload.length := by
    rw [List.length_append]
    omega
  have hcreate : (o.createFilePath fs).dataLen = payload.length := ho
  unfold Incoming.putPayload
  simp only [ho, hcreate, if_neg hpos.ne']
  cases fs.openWrite (o.createFilePath fs).filepath with
  | none => exact .inl rfl
  | some fs' =>
    simp only [Incoming.putFile, if_neg hdata, if_neg hlen, if_pos hpos]
    cases fs'.write (o.createFilePath fs).filepath ((payload ++ tail).take payload.length) with
    | none => exact .inl rfl
    | some fs'' => exact .inr ⟨rfl, rfl⟩

end Rounds

section Progress

/-- An object of which bytes are still to come. -/
def Pending (x : Incoming) : Prop :=
  (x.obj.metadata = none ∧ ∃ header, x.info = some ⟨header, none, 0⟩) ∨
    (x.obj.metadata.isSome = true ∧ ∃ path left, 0 < left ∧ x.info = some ⟨[], some path, left⟩)

theorem putHeader_progress {fs : FileSystem} {o parsed : DataObject} {header data rest : Bytes}
    (h : o.putHeader pf fs header data = .done parsed rest) :
    parsed.metadata.isSome = true ∧ rest.length < data.length := by
  induction data generalizing header with
  | nil => cases h
  | cons b data ih =>
    unfold DataObject.putHeader at h
    by_cases hend : endsHeader (header ++ [b]) = true
    · rw [if_pos hend] at h
      cases hc : o.completeHeader pf fs (header ++ [b]) with
      | mk o' ok =>
        rw [hc] at h
        cases ok with
        | false => cases h
        | true =>
          cases h
          exact ⟨DataObject.isSome_metadata_completeHeader hc, Nat.lt_succ_self _⟩
    · rw [if_neg hend] at h
      obtain ⟨hsome, hlt⟩ := ih h
      exact ⟨hsome, hlt.trans (Nat.lt_succ_self _)⟩

theorem putFile_progress (fs : FileSystem) {o : DataObject} (ho : o.metadata.isSome = true)
    {path : Bytes} {left remaining putLen k : ℕ} (hleft : 0 < left) (hput : data = [] → 0 < putLen)
    (h : (Incoming.putFile fs o ⟨[], some path, left⟩ path remaining putLen data).ret = some k) :
    0 < k ∧
      ((Incoming.putFile fs o ⟨[], some path, left⟩ path remaining putLen data).remaining ≠ 0 →
        Pending (Incoming.putFile fs o ⟨[], some path, left⟩ path remaining putLen data).inc) := by
  unfold Incoming.putFile at h ⊢
  by_cases hdata : data = []
  · rw [if_pos hdata] at h ⊢
    obtain rfl := Option.some.inj h
    exact ⟨hput hdata, fun _ => .inr ⟨ho, path, left, hleft, rfl⟩⟩
  · rw [if_neg hdata] at h ⊢
    by_cases hlt : data.length < left
    · rw [if_pos hlt] at h ⊢
      cases hw : fs.write path data with
      | none =>
        rw [hw] at h
        cases h
      | some fs' =>
        rw [hw] at h
        obtain rfl := Option.some.inj h
        exact ⟨List.length_pos_of_ne_nil hdata,
          fun _ => .inr ⟨ho, path, left - data.length, Nat.sub_pos_of_lt hlt, rfl⟩⟩
    · rw [if_neg hlt, if_pos hleft] at h ⊢
      cases hw : fs.write path (data.take left) with
      | none =>
        simp only [hw] at h
        cases h
      | some fs' =>
        simp only [hw] at h ⊢
        obtain rfl := Option.some.inj h
        exact ⟨hleft, fun hne => absurd rfl hne⟩

theorem putPayload_progress (fs : FileSystem) {o : DataObject} (ho : o.metadata.isSome = true)
    {putLen k : ℕ} (hput : 0 < putLen) {data : Bytes}
    (h : (Incoming.putPayload fs o ⟨[], none, 0⟩ putLen data).ret = some k) :
    0 < k ∧ ((Incoming.putPayload fs o ⟨[], none, 0⟩ putLen data).remaining ≠ 0 →
      Pending (Incoming.putPayload fs o ⟨[], none, 0⟩ putLen data).inc) := by
  unfold Incoming.putPayload at h ⊢
  by_cases hlen : o.dataLen = 0
  · simp only [hlen, if_true] at h ⊢
    obtain rfl := Option.some.inj h
    exact ⟨hput, fun hne => absurd rfl hne⟩
  · simp only [if_neg hlen] at h ⊢
    cases hopen : fs.openWrite (o.createFilePath fs).filepath with
    | none =>
      simp only [hopen] at h
      cases h
    | some fs' =>
      simp only [hopen] at h ⊢
      exact putFile_progress (o := o.createFilePath fs) fs' ho (Nat.pos_of_ne_zero hlen)
        (fun _ => hput) h

/-- A call for a pending object returns an error or a positive number. -/
theorem putData_progress {x : Incoming} (hx : Pending x) {fs : FileSystem} {j k : ℕ} {data : Bytes}
    (hne : data ≠ []) (h : (x.putData pf fs j data).ret = some k) :
    0 < k ∧ ((x.putData pf fs j data).remaining ≠ 0 → Pending (x.putData pf fs j data).inc) := by
  unfold Incoming.putData at h ⊢
  rw [if_neg hne] at h ⊢
  rcases hx with ⟨hnone, header, hinfo⟩ | ⟨hsome, path, left, hleft, hinfo⟩
  · simp only [hinfo, hnone] at h ⊢
    by_cases hsize : maxMetadataSize ≤ header.length + data.length
    · rw [if_pos hsize] at h
      cases h
    · rw [if_neg hsize] at h ⊢
      cases hput : x.obj.putHeader pf fs header data with
      | more header' =>
        rw [hput] at h
        obtain rfl := Option.some.inj h
        exact ⟨List.length_pos_of_ne_nil hne, fun _ => .inl ⟨hnone, header', rfl⟩⟩
      | failed o =>
        rw [hput] at h
        cases h
      | done o rest =>
        rw [hput] at h
        obtain ⟨hsome, hlt⟩ := putHeader_progress hput
        exact putPayload_progress fs hsome (Nat.sub_pos_of_lt hlt) h
  · obtain ⟨m, hm⟩ := Option.isSome_iff_exists.mp hsome
    simp only [hinfo, hm, Incoming.putPayload] at h ⊢
    exact putFile_progress fs hsome hleft (fun hnil => absurd hnil hne) h

theorem take_progress {s : Startup} {r : PutResult} (hne : s.rest ≠ [])
    (hr : ∀ k, r.ret = some k → 0 < k ∧ (r.remaining ≠ 0 → Pending r.inc)) :
    (s.take r).rest.length < s.rest.length ∧
      ((s.take r).rest ≠ [] → ∀ x, (s.take r).dObj = some x → Pending x) := by
  have hpos := List.length_pos_of_ne_nil hne
  unfold Startup.take
  cases hret : r.ret with
  | none => exact ⟨hpos, fun h => absurd rfl h⟩
  | some k =>
    obtain ⟨hk, hpending⟩ := hr k hret
    have hdrop : (s.rest.drop k).length < s.rest.length := by
      rw [List.length_drop]
      omega
    by_cases hdone : k = 0 ∨ r.remaining = 0
    · simp only [if_pos hdone]
      exact ⟨hdrop, fun _ x hx => absurd hx.symm (Option.some_ne_none x)⟩
    · simp only [if_neg hdone]
      refine ⟨hdrop, fun _ x hx => ?_⟩
      obtain rfl := Option.some.inj hx
      exact hpending fun h => hdone (.inr h)

theorem loop_ends {n : ℕ} {s : Startup} (hs : s.rest ≠ [] → ∀ x, s.dObj = some x → Pending x)
    (hn : s.rest.length ≤ n) : (loop pf storagepath hash n s).rest = [] := by
  induction n generalizing s with
  | zero => exact List.length_eq_zero_iff.mp (Nat.le_zero.mp hn)
  | succ n ih =>
    unfold loop
    by_cases hne : s.rest = []
    · rw [if_pos hne]
      exact hne
    · rw [if_neg hne]
      have hround : (iterate pf storagepath hash s).rest.length < s.rest.length ∧
          ((iterate pf storagepath hash s).rest ≠ [] →
            ∀ x, (iterate pf storagepath hash s).dObj = some x → Pending x) := by
        unfold iterate
        cases hd : s.dObj with
        | some x => exact take_progress hne fun k hk => putData_progress (hs hne x hd) hne hk
        | none =>
          have hfresh : Pending (.createForPutting storagepath (hash s.created) pf.plainChar) :=
            .inl ⟨rfl, [], rfl⟩
          exact take_progress (s := { s with created := s.created + 1 }) hne
            fun k hk => putData_progress hfresh hne hk
      exact ih hround.2 (by omega)

theorem readStartupDataObject_ends (fs : FileSystem) (data : Bytes) :
    (readStartupDataObject pf storagepath hash fs data).rest = [] :=
  @loop_ends pf storagepath hash data.length (start fs data)
    (fun _ x hx => absurd hx.symm (Option.some_ne_none x)) le_rfl

end Progress

section Objects

variable {s : Startup} {ob : StartupObject pf storagepath hash} {tail : Bytes}

/-- A rest that is too large for a header is given up. -/
theorem iterate_large (hs : s.dObj = none) (hrest : s.rest = ob.bytes ++ tail)
    (h : maxMetadataSize ≤ s.rest.length) :
    (iterate pf storagepath hash s).rest = [] ∧
      (iterate pf storagepath hash s).events = s.events := by
  unfold iterate
  rw [hs]
  dsimp only
  rw [hrest, putData_object, if_pos (hrest ▸ h)]
  exact ⟨rfl, rfl⟩

/-- An object without a payload is read as a whole. -/
theorem iterate_header (hs : s.dObj = none) (hrest : s.rest = ob.bytes ++ tail)
    (hsize : ¬maxMetadataSize ≤ s.rest.length) (hnone : ob.payload = []) :
    (iterate pf storagepath hash s).dObj = none ∧ (iterate pf storagepath hash s).rest = tail ∧
      (iterate pf storagepath hash s).created = s.created + 1 ∧
      (iterate pf storagepath hash s).i = s.i + ob.bytes.length ∧
      ∃ e, (iterate pf storagepath hash s).events = s.events ++ [e] ∧
        e.summary = ((ob.parsed s.created).metadata, ob.payload, s.i + ob.bytes.length) := by
  have hlen : (ob.parsed s.created).dataLen = 0 := by
    rw [ob.dataLen, hnone, List.length_nil]
  have hbytes : ob.header.length = ob.bytes.length := by
    rw [StartupObject.bytes, hnone, List.append_nil]
  have hput : (Incoming.createForPutting storagepath (hash s.created) pf.plainChar).putData
      pf s.fs s.j s.rest =
      ⟨some ob.bytes.length, 0, ⟨ob.parsed s.created, none⟩, s.fs⟩ := by
    rw [hrest, putData_object, if_neg (hrest ▸ hsize), hbytes]
    simp only [Incoming.putPayload, hlen, if_true]
  unfold iterate
  rw [hs]
  dsimp only
  rw [hput, Startup.take]
  simp only [or_true, if_true]
  refine ⟨trivial, ?_, trivial, trivial, _, rfl, ?_⟩
  · rw [hrest, List.drop_left]
  · simp only [Received.summary, payloadOf, hlen, if_true, hnone]

/-- After an object with a payload the loop is not where the object ends. -/
theorem iterate_payload (hs : s.dObj = none) (hrest : s.rest = ob.bytes ++ tail)
    (hsize : ¬maxMetadataSize ≤ s.rest.length) (hne : ob.payload ≠ []) :
    (iterate pf storagepath hash s).rest = [] ∧
        (iterate pf storagepath hash s).events = s.events ∨
      ∃ e, (iterate pf storagepath hash s).events = s.events ++ [e] ∧
        e.behind = s.i + ob.payload.length := by
  have hput := putData_object ob s.created s.fs s.j tail
  rw [← hrest, if_neg hsize] at hput
  unfold iterate
  rw [hs]
  dsimp only
  rw [hput]
  unfold Startup.take
  rcases putPayload_object (ob.dataLen s.created) hne s.fs ob.header.length tail with
    hret | ⟨hret, hremaining⟩
  · rw [hret]
    exact .inl ⟨rfl, rfl⟩
  · rw [hret]
    simp only [hremaining, or_true, if_true]
    exact .inr ⟨_, rfl, rfl⟩

/-- The loop reads the objects one by one exactly if there is room for the rest of the file and no
object has a payload; the rounds that are left do not matter for what goes wrong. -/
theorem loop_expected (l : List (StartupObject pf storagepath hash)) (hs : s.dObj = none)
    (hrest : s.rest = concat l) {n : ℕ} (hn : l.length ≤ n) :
    (∃ es, (loop pf storagepath hash n s).events = s.events ++ es ∧
      es.map Received.summary = expected s.created s.i l) ↔
      (concat l).length < maxMetadataSize ∧ ∀ ob ∈ l, ob.payload = [] := by
  induction l generalizing s n with
  | nil =>
    rw [loop_of_rest hrest]
    have hroom : (@concat pf storagepath hash []).length < maxMetadataSize := Nat.succ_pos _
    exact ⟨fun _ => ⟨hroom, nofun⟩, fun _ => ⟨[], (List.append_nil _).symm, rfl⟩⟩
  | cons ob l ih =>
    obtain ⟨n, rfl⟩ := Nat.exists_eq_succ_of_ne_zero (by simp at hn; omega : n ≠ 0)
    have hne : s.rest ≠ [] := by
      rw [hrest]
      have hheader := (ob.isHeader 0 s.fs).ne_nil
      simp [concat, StartupObject.bytes, hheader]
    have hcat : s.rest = ob.bytes ++ concat l := hrest
    have hlen : (concat (ob :: l)).length = s.rest.length := by rw [hrest]
    rw [loop, if_neg hne, hlen]
    -- what is wrong after this round stays wrong, since events are only added
    have hstop : (iterate pf storagepath hash s).rest = [] →
        (iterate pf storagepath hash s).events = s.events →
        ¬∃ es, (loop pf storagepath hash n (iterate pf storagepath hash s)).events =
          s.events ++ es ∧ es.map Received.summary = expected s.created s.i (ob :: l) := by
      rintro hnil hevents ⟨es, hes, hsum⟩
      rw [loop_of_rest hnil, hevents] at hes
      have hnone : es = [] := List.append_right_eq_self.mp hes.symm
      rw [hnone] at hsum
      cases hsum
    -- what the round has added is the first event
    have hfirst : ∀ {e : Received} {es : List Received},
        (iterate pf storagepath hash s).events = s.events ++ [e] →
        (loop pf storagepath hash n (iterate pf storagepath hash s)).events = s.events ++ es →
        ∃ es', (loop pf storagepath hash n (iterate pf storagepath hash s)).events =
          s.events ++ [e] ++ es' ∧ es = e :: es' := by
      intro e es he hes
      obtain ⟨es', hes'⟩ := @events_loop pf storagepath hash n (iterate pf storagepath hash s)
      rw [he] at hes'
      refine ⟨es', hes'.symm, ?_⟩
      rw [← hes', List.append_assoc] at hes
      exact (List.append_cancel_left hes).symm
    by_cases hsize : maxMetadataSize ≤ s.rest.length
    · obtain ⟨hnil, hevents⟩ := iterate_large hs hcat hsize
      exact ⟨fun h => absurd h (hstop hnil hevents), fun h => absurd h.1 (Nat.not_lt.mpr hsize)⟩
    · by_cases hpayload : ob.payload = []
      · obtain ⟨hd, hr, hc, hi, e, he, hsum⟩ := iterate_header hs hcat hsize hpayload
        have htail := ih hd hr (Nat.le_of_succ_le_succ hn)
        rw [hc, hi, he] at htail
        have hroom : (concat l).length ≤ s.rest.length := by
          rw [hcat, List.length_append]
          omega
        constructor
        · rintro ⟨es, hes, hall⟩
          obtain ⟨es', hes', rfl⟩ := hfirst he hes
          obtain ⟨-, hnone⟩ := htail.mp ⟨es', hes', (List.cons.inj hall).2⟩
          exact ⟨Nat.lt_of_not_le hsize, List.forall_mem_cons.mpr ⟨hpayload, hnone⟩⟩
        · rintro ⟨hlt, hnone⟩
          obtain ⟨es', hes', hall⟩ :=
            htail.mpr ⟨hroom.trans_lt hlt, (List.forall_mem_cons.mp hnone).2⟩
          refine ⟨e :: es', by rw [hes', List.append_assoc, List.singleton_append], ?_⟩
          rw [List.map_cons, hsum, hall]
          rfl
      · refine ⟨fun h => ?_, fun h => absurd (h.2 ob List.mem_cons_self) hpayload⟩
        rcases iterate_payload hs hcat hsize hpayload with ⟨hnil, hevents⟩ |
          ⟨e, he, hbehind⟩
        · exact absurd h (hstop hnil hevents)
        · obtain ⟨es, hes, hall⟩ := h
          obtain ⟨es', -, rfl⟩ := hfirst he hes
          have hwrong : s.i + ob.payload.length = s.i + ob.bytes.length :=
            hbehind.symm.trans (congrArg (fun x => x.2.2) (List.cons.inj hall).1)
          have hheader := List.length_pos_of_ne_nil (ob.isHeader 0 s.fs).ne_nil
          rw [StartupObject.bytes, List.length_append] at hwrong
          omega

theorem length_le_concat (l : List (StartupObject pf storagepath hash)) :
    l.length ≤ (concat l).length := by
  induction l with
  | nil => exact Nat.zero_le _
  | cons ob l ih =>
    have hheader := List.length_pos_of_ne_nil
      (ob.isHeader 0 ⟨[], fun _ => true, fun _ => true, fun _ _ => true, []⟩).ne_nil
    have hcons : (concat (ob :: l)).length = ob.bytes.length + (concat l).length := by
      rw [← List.length_append]
      rfl
    rw [hcons, StartupObject.bytes, List.length_append, List.length_cons]
    omega

/-- A file of data objects is read as it should be exactly if all of it fits into a header and no
object has a payload. -/
theorem accounted_iff (fs : FileSystem) (l : List (StartupObject pf storagepath hash)) :
    Accounted fs l ↔ (concat l).length < maxMetadataSize ∧ ∀ ob ∈ l, ob.payload = [] := by
  have hloop := @loop_expected pf storagepath hash (start fs (concat l)) l rfl rfl _
    (length_le_concat l)
  rw [← hloop]
  exact ⟨fun h => ⟨_, (List.nil_append _).symm, h⟩, fun ⟨es, hes, hall⟩ => by
    rw [← List.nil_append es] at hall
    unfold Accounted readStartupDataObject
    rw [show (loop pf storagepath hash (concat l).length (start fs (concat l))).events = es from
      hes]
    exact hall⟩

end Objects

end HaggleKernel

namespace Sample

open HaggleKernel

/-- An object of the startup file with a payload of two bytes. -/
def startupObject (payload : Bytes) (h : payload.length = 2) :
    StartupObject (platform 2) (lit "/s") fun _ => List.replicate 20 0 where
  header := header 2
  payload := payload
  parsed _ := parsed 2
  isHeader _ fs := isHeader_two.of_fileSystem fs
  dataLen _ := dataLen_two.trans h.symm

/-- Two objects with a payload give one event. -/
theorem not_accounted_two :
    (readStartupDataObject (platform 2) (lit "/s") (fun _ => List.replicate 20 0) storage
      (concat [startupObject (lit "ab") rfl, startupObject (lit "cd") rfl])).events.length = 1 ∧
    ¬Accounted storage [startupObject (lit "ab") rfl, startupObject (lit "cd") rfl] := by
  have hone : (readStartupDataObject (platform 2) (lit "/s") (fun _ => List.replicate 20 0) storage
      (concat [startupObject (lit "ab") rfl, startupObject (lit "cd") rfl])).events.length = 1 := by
    decide +kernel
  refine ⟨hone, fun h => ?_⟩
  have hlen := congrArg List.length h
  rw [List.length_map, hone] at hlen
  cases hlen

end Sample
end Haggle
