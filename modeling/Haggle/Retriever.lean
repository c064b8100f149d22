import Haggle.ObjectIdentity
import Haggle.PutDataBoundary

/-!
# The data retriever

A retriever gives out the header of a data object and then its file, as much of it as the object has
data. A buffer is filled with the end of the header and the beginning of the file where it can be.
-/

namespace Haggle

/-- `DataObjectDataRetrieverImplementation`; `fp` is what has not been read of the open file. -/
structure Retriever where
  header : Bytes
  fp : Option Bytes
  headerBytesLeft : ℕ
  bytesLeft : ℕ
deriving DecidableEq

/-- The arguments of a call of `retrieve`. -/
structure RetrieveCall where
  len : ℕ
  headerOnly : Bool

namespace Retriever

/-- `getDataObjectDataRetriever`: the constructor, with the result of `isValid`. -/
def create (pf : Platform) (fs : FileSystem) (o : DataObject) : Option Retriever :=
  if 0 < o.dataLen ∧ o.isForLocalApp = false then
    match fs.read o.filepath with
    | none => none
    | some file =>
      if o.header pf = [] then none
      else some ⟨o.header pf, some file, (o.header pf).length, o.dataLen⟩
  else if o.header pf = [] then none
  else some ⟨o.header pf, none, (o.header pf).length, 0⟩

/-- What is still to come of the header. -/
def headerLeft (r : Retriever) : Bytes := r.header.drop (r.header.length - r.headerBytesLeft)

/-- The second part of `retrieve` reads from the file; `got` is in the buffer already. -/
def readFile (r : Retriever) (got : Bytes) (len : ℕ) : Option Bytes × Retriever :=
  match r.fp with
  | none => (some got, r)
  | some rest =>
    let len := min len r.bytesLeft
    let data := rest.take len
    let left := r.bytesLeft - data.length
    if left = 0 then (some (got ++ data), { r with fp := none, bytesLeft := left })
    else if rest.length < len then (some (got ++ data), { r with fp := none, bytesLeft := left })
    -- `fread` has no item of no bytes
    else if len = 0 then (none, { r with fp := some (rest.drop len), bytesLeft := left })
    else (some (got ++ data), { r with fp := some (rest.drop len), bytesLeft := left })

/-- The bytes that are put into the buffer, or `none` for `-1`. -/
def retrieve (r : Retriever) (c : RetrieveCall) : Option Bytes × Retriever :=
  if c.len = 0 then (some [], r)
  else if r.headerBytesLeft ≠ 0 ∧ c.len ≤ r.headerBytesLeft then
    (some (r.headerLeft.take c.len), { r with headerBytesLeft := r.headerBytesLeft - c.len })
  else if c.headerOnly then (some r.headerLeft, { r with headerBytesLeft := 0 })
  else readFile { r with headerBytesLeft := 0 } r.headerLeft (c.len - r.headerBytesLeft)

def after (r : Retriever) : List RetrieveCall → Retriever
  | [] => r
  | c :: cs => (r.retrieve c).2.after cs

/-- What the calls return, together. -/
def retrieved (r : Retriever) : List RetrieveCall → Bytes
  | [] => []
  | c :: cs => (r.retrieve c).1.getD [] ++ (r.retrieve c).2.retrieved cs

theorem after_append (r : Retriever) (cs ds : List RetrieveCall) :
    r.after (cs ++ ds) = (r.after cs).after ds := by
  induction cs generalizing r with
  | nil => rfl
  | cons c cs ih => exact ih _

theorem retrieved_append (r : Retriever) (cs ds : List RetrieveCall) :
    r.retrieved (cs ++ ds) = r.retrieved cs ++ (r.after cs).retrieved ds := by
  induction cs generalizing r with
  | nil => rfl
  | cons c cs ih =>
    simp only [List.cons_append, retrieved, after, ih, List.append_assoc]

/-- The counters fit the header and the file. -/
structure Sound (r : Retriever) : Prop where
  header : r.headerBytesLeft ≤ r.header.length
  file : ∀ rest, r.fp = some rest → 0 < r.bytesLeft ∧ r.bytesLeft ≤ rest.length

/-- What is still to come of the file. -/
def fileLeft (r : Retriever) : Bytes := (r.fp.getD []).take r.bytesLeft

/-- What one call does: it gives out a first part of what is left. -/
structure Advances (r : Retriever) (c : RetrieveCall) (data : Bytes) (r' : Retriever) : Prop where
  sound : r'.Sound
  split : data ++ (r'.headerLeft ++ r'.fileLeft) = r.headerLeft ++ r.fileLeft
  inOrder : r'.headerLeft = [] ∨ r'.fileLeft = r.fileLeft
  headerOnly : c.headerOnly = true → data ++ r'.headerLeft = r.headerLeft
  end_of_data : c.headerOnly = false → data = [] → r.headerLeft ++ r.fileLeft = []

theorem headerLeft_eq_nil {r : Retriever} (h : r.headerBytesLeft = 0) : r.headerLeft = [] := by
  rw [headerLeft, h, Nat.sub_zero, List.drop_length]

theorem length_headerLeft {r : Retriever} (hr : r.Sound) :
    r.headerLeft.length = r.headerBytesLeft := by
  rw [headerLeft, List.length_drop, Nat.sub_sub_self hr.header]

theorem headerLeft_drop {r : Retriever} (hr : r.Sound) {k : ℕ} (hk : k ≤ r.headerBytesLeft) :
    headerLeft { r with headerBytesLeft := r.headerBytesLeft - k } = r.headerLeft.drop k := by
  have hheader := hr.header
  have hpos : r.header.length - (r.headerBytesLeft - k) =
      r.header.length - r.headerBytesLeft + k := by omega
  simp only [headerLeft, hpos, ← List.drop_drop]

/-- Behind the header, a call gives out the next bytes of the file. -/
theorem readFile_spec {r : Retriever} (hr : r.Sound) (h0 : r.headerBytesLeft = 0) (got : Bytes)
    {len : ℕ} (hlen : 0 < len) : (r.readFile got len).1 = some (got ++ r.fileLeft.take len) ∧
      (r.readFile got len).2.Sound ∧ (r.readFile got len).2.headerBytesLeft = 0 ∧
        (r.readFile got len).2.fileLeft = r.fileLeft.drop len := by
  unfold readFile
  cases hfp : r.fp with
  | none => exact ⟨by simp [fileLeft, hfp], hr, h0, by simp [fileLeft, hfp]⟩
  | some rest =>
    obtain ⟨hpos, hrest⟩ := hr.file rest hfp
    have hleft : r.fileLeft = rest.take r.bytesLeft := by rw [fileLeft, hfp, Option.getD_some]
    set n := min len r.bytesLeft with hn
    have hlenData : (rest.take n).length = n := by
      rw [List.length_take]
      omega
    have htake : r.fileLeft.take len = rest.take n := by rw [hleft, List.take_take]
    simp only [hlenData, htake]
    by_cases hdone : r.bytesLeft - n = 0
    · simp only [if_pos hdone]
      refine ⟨trivial, ⟨hr.header, nofun⟩, h0, ?_⟩
      rw [hleft, List.drop_eq_nil_of_le (by rw [List.length_take]; omega)]
      exact List.take_nil
    · simp only [if_neg hdone, if_neg (show ¬rest.length < n by omega),
        if_neg (show ¬n = 0 by omega)]
      refine ⟨trivial, ⟨hr.header, ?_⟩, h0, ?_⟩
      · rintro _ ⟨⟩
        simp only [List.length_drop]
        omega
      · rw [hleft, List.drop_take, show n = len by omega]
        rfl

theorem retrieve_spec {r : Retriever} (hr : r.Sound) {c : RetrieveCall} (hlen : 0 < c.len) :
    ∃ data, (r.retrieve c).1 = some data ∧ r.Advances c data (r.retrieve c).2 := by
  have hlength := length_headerLeft hr
  rw [retrieve, if_neg hlen.ne']
  by_cases hin : r.headerBytesLeft ≠ 0 ∧ c.len ≤ r.headerBytesLeft
  · rw [if_pos hin]
    have hsplit : r.headerLeft.take c.len ++
        headerLeft { r with headerBytesLeft := r.headerBytesLeft - c.len } = r.headerLeft := by
      rw [headerLeft_drop hr hin.2, List.take_append_drop]
    have hne : r.headerLeft.take c.len ≠ [] := by
      refine List.ne_nil_of_length_pos ?_
      rw [List.length_take]
      omega
    exact ⟨_, rfl, ⟨(Nat.sub_le _ _).trans hr.header, hr.file⟩,
      by rw [← List.append_assoc, hsplit]; rfl, .inr rfl, fun _ => hsplit, fun _ h => absurd h hne⟩
  rw [if_neg hin]
  have hrest : Sound { r with headerBytesLeft := 0 } := ⟨Nat.zero_le _, hr.file⟩
  have hnil : headerLeft { r with headerBytesLeft := 0 } = [] := headerLeft_eq_nil rfl
  by_cases honly : c.headerOnly = true
  · rw [if_pos honly]
    refine ⟨_, rfl, hrest, ?_, .inl hnil, fun _ => ?_, fun h => ?_⟩
    · rw [hnil]
      rfl
    · rw [hnil, List.append_nil]
    · rw [honly] at h
      cases h
  · rw [if_neg honly]
    have hmore : 0 < c.len - r.headerBytesLeft := by omega
    obtain ⟨hret, hsound, h0, hleft⟩ := readFile_spec hrest rfl r.headerLeft hmore
    refine ⟨_, hret, hsound, ?_, .inl (headerLeft_eq_nil h0), fun h => absurd h honly, ?_⟩
    · rw [headerLeft_eq_nil h0, List.nil_append, List.append_assoc, hleft, List.take_append_drop]
      rfl
    · intro _ h
      rw [List.append_eq_nil_iff, List.take_eq_nil_iff] at h
      rw [h.1, List.nil_append]
      exact h.2.resolve_left hmore.ne'

section Run

variable {pf : Platform} {fs : FileSystem} {o : DataObject} {r : Retriever}

/-- What the retriever has to give out of the file. -/
def payload (fs : FileSystem) (o : DataObject) : Bytes :=
  ((fs.contents o.filepath).getD []).take o.dataLen

/-- What holds after any calls: what was given out and what is left make up the whole, and the file
is not touched before the end of the header. -/
structure Consistent (header payload : Bytes) (sent : Bytes) (r : Retriever) : Prop where
  sound : r.Sound
  whole : sent ++ (r.headerLeft ++ r.fileLeft) = header ++ payload
  inOrder : r.headerLeft = [] ∨ r.fileLeft = payload

/-- A new retriever has all of the header and of the file to give out. -/
theorem create_spec (hlocal : o.isForLocalApp = false)
    (hfile : o.dataLen ≤ ((fs.contents o.filepath).getD []).length)
    (hr : create pf fs o = some r) :
    r.Sound ∧ r.headerLeft = o.header pf ∧ r.fileLeft = payload fs o := by
  have hstart : ∀ fp n, headerLeft ⟨o.header pf, fp, (o.header pf).length, n⟩ = o.header pf := by
    intro fp n
    rw [headerLeft, Nat.sub_self, List.drop_zero]
  unfold create at hr
  by_cases hlen : 0 < o.dataLen
  · rw [if_pos ⟨hlen, hlocal⟩] at hr
    cases hc : fs.read o.filepath with
    | none =>
      rw [hc] at hr
      cases hr
    | some file =>
      have hcont := FileSystem.read_eq_some hc
      rw [hcont, Option.getD_some] at hfile
      simp only [hc] at hr
      split_ifs at hr
      obtain rfl := Option.some.inj hr
      have hleft : fileLeft ⟨o.header pf, some file, (o.header pf).length, o.dataLen⟩ =
          payload fs o := by
        rw [payload, hcont]
        rfl
      refine ⟨⟨le_rfl, ?_⟩, hstart _ _, hleft⟩
      rintro _ ⟨⟩
      exact ⟨hlen, hfile⟩
  · have hleft : fileLeft ⟨o.header pf, none, (o.header pf).length, 0⟩ = payload fs o := by
      rw [payload, Nat.eq_zero_of_not_pos hlen]
      simp [fileLeft]
    rw [if_neg fun h => hlen h.1] at hr
    split_ifs at hr
    obtain rfl := Option.some.inj hr
    exact ⟨⟨le_rfl, nofun⟩, hstart _ _, hleft⟩

theorem consistent_create (hlocal : o.isForLocalApp = false)
    (hfile : o.dataLen ≤ ((fs.contents o.filepath).getD []).length)
    (hr : create pf fs o = some r) : Consistent (o.header pf) (payload fs o) [] r := by
  obtain ⟨hsound, hheader, hleft⟩ := create_spec hlocal hfile hr
  exact ⟨hsound, by rw [List.nil_append, hheader, hleft], .inr hleft⟩

theorem Consistent.retrieve {header payload sent : Bytes} (h : Consistent header payload sent r)
    {c : RetrieveCall} (hlen : 0 < c.len) :
    Consistent header payload (sent ++ (r.retrieve c).1.getD []) (r.retrieve c).2 := by
  obtain ⟨data, hret, hadv⟩ := retrieve_spec h.sound hlen
  rw [hret, Option.getD_some]
  refine ⟨hadv.sound, ?_, ?_⟩
  · rw [List.append_assoc, hadv.split, h.whole]
  · rcases hadv.inOrder with hnil | heq
    · exact .inl hnil
    · rcases h.inOrder with hnil | hpayload
      · have hlengths := congrArg List.length hadv.split
        simp only [List.length_append, heq, hnil, List.length_nil] at hlengths
        exact .inl (List.length_eq_zero_iff.mp (by omega))
      · exact .inr (heq.trans hpayload)

theorem Consistent.after {header payload sent : Bytes} (h : Consistent header payload sent r)
    {cs : List RetrieveCall} (hlen : ∀ c ∈ cs, 0 < c.len) :
    Consistent header payload (sent ++ r.retrieved cs) (r.after cs) := by
  induction cs generalizing r sent with
  | nil => rwa [retrieved, List.append_nil]
  | cons c cs ih =>
    have hc := h.retrieve (hlen c List.mem_cons_self)
    rw [retrieved, ← List.append_assoc]
    exact ih hc fun d hd => hlen d (List.mem_cons_of_mem _ hd)

/-- The calls end with one that is not for the header only and returns nothing. -/
def Ended (r : Retriever) (cs : List RetrieveCall) : Prop :=
  ∃ pre c, cs = pre ++ [c] ∧ c.headerOnly = false ∧ ((r.after pre).retrieve c).1 = some []

/-- The object is streamed as it should be, in the pieces that `cut` gives the receiver. -/
structure Streams (pf' : Platform) (fs' : FileSystem) (fresh : DataObject) (header payload : Bytes)
    (r : Retriever) (cs : List RetrieveCall) (cut : ℕ → ℕ) : Prop where
  whole : r.retrieved cs = header ++ payload
  headerOnly : ∀ pre c post, cs = pre ++ c :: post → c.headerOnly = true →
    ∃ data, ((r.after pre).retrieve c).1 = some data ∧
      (data = [] ∨ r.retrieved pre ++ data <+: header)
  complete : (Feed.outcome pf' fs' fresh (r.retrieved cs) cut).Complete (r.retrieved cs)

theorem Consistent.whole_of_ended {header payload : Bytes} (h : Consistent header payload [] r)
    {cs : List RetrieveCall} (hlen : ∀ c ∈ cs, 0 < c.len) (hend : r.Ended cs) :
    r.retrieved cs = header ++ payload := by
  obtain ⟨pre, c, rfl, honly, hret⟩ := hend
  have hpre := h.after fun d hd => hlen d (List.mem_append_left _ hd)
  have hc : 0 < c.len := hlen c (List.mem_append_right _ List.mem_cons_self)
  obtain ⟨data, hdata, hadv⟩ := retrieve_spec hpre.sound hc
  obtain rfl : data = [] := Option.some.inj (hdata.symm.trans hret)
  have hwhole := hpre.whole
  rw [hadv.end_of_data honly rfl, List.append_nil, List.nil_append] at hwhole
  rw [retrieved_append, retrieved, hret, hwhole]
  simp [retrieved]

/-- A call for the header only returns a part of the header. -/
theorem Consistent.headerOnly {header payload sent : Bytes} (h : Consistent header payload sent r)
    {c : RetrieveCall} (hlen : 0 < c.len) (honly : c.headerOnly = true) :
    ∃ data, (r.retrieve c).1 = some data ∧ (data = [] ∨ sent ++ data <+: header) := by
  obtain ⟨data, hret, hadv⟩ := retrieve_spec h.sound hlen
  refine ⟨data, hret, ?_⟩
  have hsplit := hadv.headerOnly honly
  rcases h.inOrder with hnil | hpayload
  · rw [hnil, List.append_eq_nil_iff] at hsplit
    exact .inl hsplit.1
  · have hwhole := h.whole
    rw [hpayload, ← List.append_assoc, List.append_cancel_right_eq] at hwhole
    refine .inr ⟨(r.retrieve c).2.headerLeft, ?_⟩
    rw [List.append_assoc, hsplit, hwhole]

/-- What a retriever gives out is the header and the file, and calls for the header only give out
header bytes, always. A new object puts it together as a whole exactly if it begins with a header
that can be parsed, the payload that this header announces ends where the stream ends, counted from
where the receiver goes on, and the storage of the receiver takes it. -/
theorem streams_iff {pf' : Platform} {fs' : FileSystem} {storagepath hash : Bytes}
    (hlocal : o.isForLocalApp = false)
    (hfile : o.dataLen ≤ ((fs.contents o.filepath).getD []).length)
    (hr : create pf fs o = some r) {cs : List RetrieveCall} (hlen : ∀ c ∈ cs, 0 < c.len)
    (hend : r.Ended cs) {cut : ℕ → ℕ} (hcut : ∀ i, 0 < cut i) :
    r.Streams pf' fs' (.new storagepath hash pf'.plainChar) (o.header pf) (payload fs o) cs cut ↔
      ∃ header parsed, header <+: o.header pf ++ payload fs o ∧
        (DataObject.new storagepath hash pf'.plainChar).IsHeader pf' fs' header parsed ∧
          Feed.Agrees cut header parsed.dataLen (o.header pf ++ payload fs o).length ∧
            Feed.Keeps cut fs' parsed header (o.header pf ++ payload fs o).length := by
  have hstart := consistent_create hlocal hfile hr
  have hwhole := hstart.whole_of_ended hlen hend
  rw [← Feed.complete_outcome_iff rfl hcut, ← hwhole]
  refine ⟨fun h => h.complete, fun h => ⟨hwhole, ?_, h⟩⟩
  rintro pre c post rfl honly
  have hpre := hstart.after fun d hd => hlen d (List.mem_append_left _ hd)
  exact hpre.headerOnly (hlen c (List.mem_append_right _ List.mem_cons_self)) honly

end Run

end Retriever

namespace Sample

/-- An object with a file of two bytes. -/
def stored : DataObject := { parsed 2 with filepath := lit "/s/f" }

def disk : FileSystem := { storage with files := [(lit "/s/f", lit "ab")] }

def retriever : Retriever := ⟨header 2, some (lit "ab"), 65, 2⟩

theorem create_stored : Retriever.create (platform 2) disk stored = some retriever := by
  decide +kernel

/-- One buffer for the whole object, and the call that returns nothing. -/
def calls : List RetrieveCall := [⟨4096, false⟩, ⟨4096, false⟩]

theorem ended_calls : retriever.Ended calls := ⟨[⟨4096, false⟩], ⟨4096, false⟩, rfl, rfl, rfl⟩

/-- The receiver is given the same bytes, in pieces of the length of the header. -/
theorem streams_sample : retriever.Streams (platform 2) storage object
    (stored.header (platform 2)) (Retriever.payload disk stored) calls (fun _ => 65) := by
  have hheader : stored.header (platform 2) = header 2 := by decide
  have hpayload : Retriever.payload disk stored = lit "ab" := by decide
  have hlen : (header 2).length = 65 := by decide
  refine (Retriever.streams_iff rfl (by decide) create_stored (by decide) ended_calls
    fun _ => by norm_num).mpr ⟨header 2, parsed 2, ?_, isHeader_two, ?_, ?_⟩
  · rw [hheader]
    exact List.prefix_append _ _
  · rw [hheader, hpayload, dataLen_two]
    refine (@Feed.agrees_payload_iff _ _ (lit "ab") isHeader_two.size).mpr fun j hj hj' => ?_
    cases j with
    | zero => rw [List.length_append, hlen]; decide
    | succ j =>
      rw [hlen, Feed.offset] at hj
      omega
  · exact fun _ _ _ _ => ⟨rfl, fun _ => rfl⟩

/-- The same bytes in one piece, as they were retrieved. -/
theorem not_streams_whole : Retriever.create (platform 2) disk stored = some retriever ∧
    retriever.Ended calls ∧ ¬retriever.Streams (platform 2) storage object
      (stored.header (platform 2)) (Retriever.payload disk stored) calls (fun _ => 4096) := by
  refine ⟨create_stored, ended_calls, fun h => ?_⟩
  have hretrieved : retriever.retrieved calls = header 2 ++ lit "ab" := by decide
  have hconsumed : (Feed.outcome (platform 2) storage object (header 2 ++ lit "ab")
      fun _ => 4096).consumed = 2 := by decide +kernel
  have hcomplete := h.complete.2.2
  rw [hretrieved, hconsumed] at hcomplete
  exact absurd hcomplete (by decide)

end Sample
end Haggle
