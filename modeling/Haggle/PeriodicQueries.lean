import Haggle.Node

/-!
# When data objects are queried again

For every neighbor the data store is queried now and then. The handler queries for those whose turn
it is, and is to come back when it is the turn of the next one; but it takes the time that has gone
by since the last query for the time that is left.
-/

namespace Haggle

namespace Timeval

theorem adjusted_sub {t₁ t₂ : Timeval} (h₁ : Adjusted t₁) (h₂ : Adjusted t₂) :
    Adjusted (sub t₁ t₂) := by
  simp only [sub]
  split <;> split <;> simp only [Adjusted] at * <;> omega

theorem sec_eq_micros {t : Timeval} (h : Adjusted t) : t.sec = t.micros / 1000000 := by
  simp only [Adjusted, micros] at *
  omega

end Timeval

namespace PeriodicQuery

/-- A neighbor, as far as its queries go. -/
structure Neighbor where
  type : NodeType
  id : Digest
  lastDataObjectQueryTime : Timeval

/-- `Timeval(const double)`, for a whole number of seconds. -/
def ofSeconds (n : ℤ) : Timeval := ⟨n, 0⟩

/-- `findMatchingDataObjectsAndTargets`, as far as the query goes: there is none for a node of
undefined type. -/
def findMatchingDataObjectsAndTargets (now : Timeval) (n : Neighbor) : Neighbor :=
  if n.type = .undefined then n else { n with lastDataObjectQueryTime := now }

section Model

variable (interval : ℕ) (now : Timeval) (clock : Digest → Timeval)

/-- The turn of the neighbor has come. -/
def Due (n : Neighbor) : Prop :=
  (ofSeconds interval).lt (now.sub n.lastDataObjectQueryTime)

instance (n : Neighbor) : Decidable (Due interval now n) :=
  inferInstanceAs (Decidable (Timeval.lt _ _))

/-- The loop of `onPeriodicDataObjectQuery`. All times are whole seconds. -/
def queryNeighbors : List Neighbor → ℤ → List Neighbor × ℤ
  | [], nextTimeout => ([], nextTimeout)
  | n :: l, nextTimeout =>
    if Due interval now n then
      let r := queryNeighbors l nextTimeout
      (findMatchingDataObjectsAndTargets (clock n.id) n :: r.1, r.2)
    else
      let elapsed := now.sub n.lastDataObjectQueryTime
      let r := queryNeighbors l (if elapsed.lt (ofSeconds nextTimeout) then elapsed.sec
        else nextTimeout)
      (n :: r.1, r.2)

/-- `onPeriodicDataObjectQuery`: the neighbors with the times of their last queries, and the timeout
of the next event if one is added. -/
def onPeriodicDataObjectQuery (scheduled : Bool) (neighbors : List Neighbor) :
    List Neighbor × Option ℤ :=
  let r := queryNeighbors interval now clock neighbors interval
  (r.1, if 0 < r.1.length ∧ scheduled = false ∧ 0 < interval then some r.2 else none)

end Model

section Timeout

variable {interval : ℕ} {now : Timeval} {clock : Digest → Timeval} {neighbors l : List Neighbor}
  {n : Neighbor}

/-- The microseconds since the last query, and until the next one. -/
def elapsed (now : Timeval) (n : Neighbor) : ℤ :=
  now.micros - n.lastDataObjectQueryTime.micros

def remaining (interval : ℕ) (now : Timeval) (n : Neighbor) : ℤ :=
  interval * 1000000 - elapsed now n

/-- The next event is in time for every neighbor that is not queried now, and it is not at once if
it need not be. -/
structure InTime (interval : ℕ) (now : Timeval) (neighbors : List Neighbor) (timeout : ℤ) :
    Prop where
  soon : ∀ n ∈ neighbors, ¬ Due interval now n → timeout * 1000000 ≤ remaining interval now n
  pause : (∀ n ∈ neighbors, ¬ Due interval now n → 0 < remaining interval now n) → 0 < timeout

/-- For each neighbor that is not queried now, the time since its last query and the whole seconds
of that of some other one do not exceed the interval; and all of these times are a second at least,
unless one of them is the interval. -/
structure Balanced (interval : ℕ) (now : Timeval) (neighbors : List Neighbor) : Prop where
  spread : ∀ n ∈ neighbors, ¬ Due interval now n → ∃ m ∈ neighbors, ¬ Due interval now m ∧
    elapsed now m / 1000000 * 1000000 + elapsed now n ≤ interval * 1000000
  old : (∀ n ∈ neighbors, ¬ Due interval now n → elapsed now n < interval * 1000000) →
    ∀ n ∈ neighbors, ¬ Due interval now n → 1000000 ≤ elapsed now n

/-- The times of the last queries are times, and are over. -/
def Past (now : Timeval) (neighbors : List Neighbor) : Prop :=
  ∀ n ∈ neighbors, n.lastDataObjectQueryTime.Adjusted ∧ 0 ≤ elapsed now n

theorem sec_sub (hnow : now.Adjusted) (hn : n.lastDataObjectQueryTime.Adjusted) :
    (now.sub n.lastDataObjectQueryTime).sec = elapsed now n / 1000000 := by
  rw [Timeval.sec_eq_micros (Timeval.adjusted_sub hnow hn), Timeval.micros_sub, elapsed]

theorem due_iff (hnow : now.Adjusted) (hn : n.lastDataObjectQueryTime.Adjusted) :
    Due interval now n ↔ interval * 1000000 < elapsed now n := by
  have hadjusted := Timeval.adjusted_sub hnow hn
  have hmicros := Timeval.micros_sub now n.lastDataObjectQueryTime
  simp only [Timeval.Adjusted] at hadjusted
  simp only [Due, Timeval.lt, ofSeconds, elapsed]
  rw [← hmicros, Timeval.micros]
  omega

/-- The timeout is the least of the interval and the seconds since the queries that are not made
again. -/
theorem queryNeighbors_timeout (hnow : now.Adjusted) (hl : Past now l) (t : ℤ) :
    ((queryNeighbors interval now clock l t).2 = t ∨ ∃ n ∈ l, ¬ Due interval now n ∧
      (queryNeighbors interval now clock l t).2 = elapsed now n / 1000000) ∧
    (queryNeighbors interval now clock l t).2 ≤ t ∧
    ∀ n ∈ l, ¬ Due interval now n →
      (queryNeighbors interval now clock l t).2 ≤ elapsed now n / 1000000 := by
  induction l generalizing t with
  | nil => exact ⟨.inl rfl, le_rfl, nofun⟩
  | cons n l ih =>
    have hrest := ih fun m hm => hl m (List.mem_cons_of_mem n hm)
    have hsec := sec_sub hnow (hl n List.mem_cons_self).1
    by_cases hdue : Due interval now n
    · have hstep : (queryNeighbors interval now clock (n :: l) t).2 =
          (queryNeighbors interval now clock l t).2 := by
        rw [queryNeighbors, if_pos hdue]
      obtain ⟨hfrom, hle, hall⟩ := hrest t
      rw [hstep]
      refine ⟨hfrom.imp_right ?_, hle, ?_⟩
      · rintro ⟨m, hm, hleft, heq⟩
        exact ⟨m, List.mem_cons_of_mem n hm, hleft, heq⟩
      · rw [List.forall_mem_cons]
        exact ⟨fun h => absurd hdue h, hall⟩
    · have hstep : (queryNeighbors interval now clock (n :: l) t).2 =
          (queryNeighbors interval now clock l (min t (elapsed now n / 1000000))).2 := by
        have hadjusted := Timeval.adjusted_sub hnow (hl n List.mem_cons_self).1
        rw [queryNeighbors, if_neg hdue]
        simp only
        rw [← hsec]
        congr 2
        simp only [Timeval.lt, ofSeconds, Timeval.Adjusted] at hadjusted ⊢
        split_ifs <;> omega
      obtain ⟨hfrom, hle, hall⟩ := hrest (min t (elapsed now n / 1000000))
      rw [hstep]
      refine ⟨?_, hle.trans (min_le_left _ _), ?_⟩
      · rcases hfrom with heq | ⟨m, hm, hleft, heq⟩
        · rcases min_choice t (elapsed now n / 1000000) with hmin | hmin
          · exact .inl (heq.trans hmin)
          · exact .inr ⟨n, List.mem_cons_self, hdue, heq.trans hmin⟩
        · exact .inr ⟨m, List.mem_cons_of_mem n hm, hleft, heq⟩
      · rw [List.forall_mem_cons]
        exact ⟨fun _ => hle.trans (min_le_right _ _), hall⟩

theorem length_queryNeighbors (l : List Neighbor) (t : ℤ) :
    (queryNeighbors interval now clock l t).1.length = l.length := by
  induction l generalizing t with
  | nil => rfl
  | cons n l ih =>
    rw [queryNeighbors]
    split_ifs
    · exact congrArg (· + 1) (ih t)
    · exact congrArg (· + 1) (ih _)

/-- The timeout is right exactly if the times since the last queries are balanced. -/
theorem inTime_iff (hI : 0 < interval) (hnow : now.Adjusted) (hl : Past now l) :
    InTime interval now l (queryNeighbors interval now clock l interval).2 ↔
      Balanced interval now l := by
  obtain ⟨hfrom, hle, hall⟩ := @queryNeighbors_timeout interval now clock l hnow hl interval
  generalize (queryNeighbors interval now clock l interval).2 = t at hfrom hle hall
  have hleft : ∀ n ∈ l, ¬ Due interval now n →
      0 ≤ elapsed now n ∧ elapsed now n ≤ interval * 1000000 := by
    intro n hn hdue
    rw [due_iff hnow (hl n hn).1] at hdue
    exact ⟨(hl n hn).2, by omega⟩
  constructor
  · rintro ⟨hsoon, hpause⟩
    refine ⟨fun n hn hdue => ?_, fun hbefore n hn hdue => ?_⟩
    · have hrem := hsoon n hn hdue
      rw [remaining] at hrem
      rcases hfrom with rfl | ⟨m, hm, hmdue, rfl⟩
      · -- No time is less than the interval, so this one is as long.
        obtain ⟨hpos, hmax⟩ := hleft n hn hdue
        have hsec := hall n hn hdue
        omega
      · exact ⟨m, hm, hmdue, by omega⟩
    · have hpos := hpause fun m hm hmdue => by
        have hlt := hbefore m hm hmdue
        rw [remaining]
        omega
      have hsec := hall n hn hdue
      omega
  · rintro ⟨hspread, hold⟩
    refine ⟨fun n hn hdue => ?_, fun hpos => ?_⟩
    · obtain ⟨m, hm, hmdue, hsum⟩ := hspread n hn hdue
      have hsec := hall m hm hmdue
      rw [remaining]
      omega
    · rcases hfrom with rfl | ⟨m, hm, hmdue, rfl⟩
      · omega
      · have hsecond := hold (fun n hn hdue => by
          have hrem := hpos n hn hdue
          rw [remaining] at hrem
          omega) m hm hmdue
        omega

/-- Unless the event is scheduled already, it is in time exactly if the neighbors are balanced. -/
theorem periodicQuery_iff (hI : 0 < interval) (hnow : now.Adjusted) (hl : Past now neighbors)
    (clock : Digest → Timeval) (scheduled : Bool) :
    (∀ t ∈ (onPeriodicDataObjectQuery interval now clock scheduled neighbors).2,
      InTime interval now neighbors t) ↔ scheduled = true ∨ Balanced interval now neighbors := by
  have hiff := @inTime_iff interval now clock neighbors hI hnow hl
  unfold onPeriodicDataObjectQuery
  simp only [length_queryNeighbors]
  cases scheduled with
  | true => simp
  | false =>
    cases neighbors with
    | nil => exact iff_of_true (by simp) (.inr ⟨nofun, fun _ => nofun⟩)
    | cons n l =>
      rw [if_pos ⟨Nat.succ_pos _, rfl, hI⟩]
      simpa using hiff

end Timeout

end PeriodicQuery

namespace Sample

open PeriodicQuery

/-- A neighbor that was queried last at a time. -/
def queriedAt (sec : ℤ) : PeriodicQuery.Neighbor := 
  ⟨.peer, .fill 1, ⟨sec, 0⟩⟩

theorem past_queriedAt {sec : ℤ} (h : sec ≤ 1000) : Past ⟨1000, 0⟩ [queriedAt sec] := by
  intro n hn
  rw [List.mem_singleton.mp hn]
  refine ⟨by simp [queriedAt, Timeval.Adjusted], ?_⟩
  simp only [elapsed, queriedAt, Timeval.micros]
  omega

/-- A third of the interval has gone by. -/
theorem inTime_queriedAt : InTime 300 ⟨1000, 0⟩ [queriedAt 900] 100 := by
  have hbalanced : Balanced 300 ⟨1000, 0⟩ [queriedAt 900] := by
    refine ⟨fun n hn hdue => ⟨n, hn, hdue, ?_⟩, fun _ n hn _ => ?_⟩
    · rw [List.mem_singleton.mp hn]
      decide
    · rw [List.mem_singleton.mp hn]
      decide
  exact (periodicQuery_iff (by decide) ⟨by decide, by decide⟩ (past_queriedAt (by decide))
    (fun _ => ⟨1000, 0⟩) false).mpr (.inr hbalanced) 100 rfl

/-- One second of the interval is left, and the next event comes after 299. -/
theorem not_inTime_queriedAt : ¬ ∀ t ∈ (onPeriodicDataObjectQuery 300 ⟨1000, 0⟩
    (fun _ => ⟨1000, 0⟩) false [queriedAt 701]).2, InTime 300 ⟨1000, 0⟩ [queriedAt 701] t := by
  intro h
  have hsoon := (h 299 rfl).soon (queriedAt 701) List.mem_cons_self (by decide)
  exact absurd hsoon (by decide)

end Sample
end Haggle
