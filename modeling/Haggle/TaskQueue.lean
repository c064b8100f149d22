import Haggle.Timeval
import Haggle.Trace
import Mathlib.Data.List.Sort
import Mathlib.Data.Multiset.AddSub
import Mathlib.Tactic.Abel
import Mathlib.Tactic.Linarith

/-!
# The task queue of the data store

Other threads hand tasks to the data store: each is put in the queue under the mutex, and the worker
of `DataStore::run` is signalled. The worker waits when the queue is empty and takes the front of the
queue when it is woken up, without another look at the queue. A step of the model is one section
under the mutex, or the execution of the task that the worker has taken.
-/

namespace Haggle

/-- `TaskType`, with the node that a query on data objects is about. -/
inductive TaskType (N : Type)
  | insertDataObject
  | deleteDataObject
  | deleteDataObjectById
  | ageDataObjects
  | insertNode
  | deleteNode
  | retrieveNode
  | retrieveNodeByType
  | retrieveNodeByInterface
  | addFilter
  | deleteFilter
  | filterQuery
  | dataObjectQuery (node : Option N)
  | dataObjectForNodesQuery (node : Option N)
  | nodeQuery
  | insertRepository
  | readRepository
  | deleteRepository
  | dumpDataStore
  | dumpDataStoreToFile
  | exit
deriving DecidableEq

namespace TaskType

variable {N : Type}

/-- What the constructors of `DataStoreTask` choose: 0 is high, 1 medium and 2 low. -/
def priority : TaskType N → ℕ
  | retrieveNodeByType | filterQuery | dataObjectQuery _ | dataObjectForNodesQuery _ => 1
  | nodeQuery | readRepository => 1
  | ageDataObjects | exit => 2
  | _ => 0

/-- The tasks that the worker passes over once it should exit. -/
def isQuery : TaskType N → Bool
  | filterQuery | dataObjectQuery _ | dataObjectForNodesQuery _ | nodeQuery => true
  | _ => false

/-- A pending query that `cancelDataObjectQueries` takes back; `same` is the comparison of nodes. -/
def concerns (same : N → N → Bool) (node : N) : TaskType N → Bool
  | dataObjectQuery n | dataObjectForNodesQuery n => n.any (same · node)
  | _ => false

end TaskType

/-- `DataStoreTask`. The number is the value of `totNum` when the task was made. -/
structure DataStoreTask (N : Type) where
  type : TaskType N
  num : ℕ
  timestamp : Timeval
deriving DecidableEq

namespace TaskQueue

variable {N : Type}

/-- The comparison in `TaskQueue::insert`. -/
def Precedes (task qTask : DataStoreTask N) : Prop :=
  task.type.priority < qTask.type.priority ∨
    task.type.priority = qTask.type.priority ∧ task.timestamp < qTask.timestamp

instance : DecidableRel (@Precedes N) := fun _ _ => inferInstanceAs (Decidable (_ ∨ _))

/-- `TaskQueue::insert`: before the first task that the new one precedes. -/
def insert (taskQ : List (DataStoreTask N)) (task : DataStoreTask N) : List (DataStoreTask N) :=
  taskQ.orderedInsert Precedes task

/-- The loop of `cancelDataObjectQueries`: what stays in the queue and how many were erased. -/
def cancelLoop (same : N → N → Bool) (node : N) : List (DataStoreTask N) →
    List (DataStoreTask N) × ℕ
  | [] => ([], 0)
  | task :: taskQ =>
    let r := cancelLoop same node taskQ
    if task.type.concerns same node then (r.1, r.2 + 1) else (task :: r.1, r.2)

/-- `cancelDataObjectQueries`. -/
def cancelDataObjectQueries (same : N → N → Bool) (node : Option N)
    (taskQ : List (DataStoreTask N)) : ℤ × List (DataStoreTask N) :=
  match node with
  | none => (-1, taskQ)
  | some node => ((cancelLoop same node taskQ).2, (cancelLoop same node taskQ).1)

/-- Where the worker is. In `executing` it has left the mutex with a task, and `faulted` is what
follows the front of an empty queue. -/
inductive Worker (N : Type)
  | ready
  | waiting (signalled : Bool)
  | executing (task : DataStoreTask N)
  | exited
  | faulted
deriving DecidableEq

/-- The queue and the worker, with the history of both: the tasks that were inserted, taken back,
executed and passed over, and what was left in the queue whenever a task was taken. -/
structure State (N : Type) where
  taskQ : List (DataStoreTask N)
  worker : Worker N
  shouldExit : Bool
  totNum : ℕ
  inserted : List (DataStoreTask N)
  cancelled : List (DataStoreTask N)
  executed : List (DataStoreTask N)
  dropped : List (DataStoreTask N)
  taken : List (DataStoreTask N × List (DataStoreTask N))
deriving DecidableEq

def init : State N := ⟨[], .ready, false, 0, [], [], [], [], []⟩

/-- `cond.signal()`. -/
def Worker.signal : Worker N → Worker N
  | .waiting _ => .waiting true
  | w => w

/-- `taskQ.front()` and `taskQ.pop_front()`. -/
def takeFront (s : State N) : State N :=
  match s.taskQ with
  | [] => { s with worker := .faulted }
  | task :: taskQ =>
    { s with taskQ := taskQ, worker := .executing task, taken := s.taken ++ [(task, taskQ)] }

/-- The worker goes on: it looks at the queue, or runs through the switch on the type of its
task. -/
def work (s : State N) : State N :=
  match s.worker with
  | .ready =>
    if s.taskQ = [] then { s with worker := if s.shouldExit then .exited else .waiting false }
    else takeFront s
  | .executing task =>
    if task.type.isQuery && s.shouldExit then
      { s with worker := .ready, dropped := s.dropped ++ [task] }
    else { s with worker := .ready, executed := s.executed ++ [task] }
  | _ => s

inductive Act (N : Type)
  /-- One of the functions that put a task in the queue; `hookCancel` puts the exit task there. -/
  | insert (type : TaskType N) (now : Timeval)
  | cancelQueries (node : Option N)
  /-- `Thread::cancel`, before it calls `hookCancel`. -/
  | cancelThread
  | work
  /-- The worker comes back from `cond.wait`, signalled or not. -/
  | wake
deriving DecidableEq

variable (same : N → N → Bool)

def step (s : State N) : Act N → State N
  | .insert type now =>
    let task : DataStoreTask N := ⟨type, s.totNum, now⟩
    { s with
      taskQ := insert s.taskQ task, totNum := s.totNum + 1, worker := s.worker.signal
      inserted := s.inserted ++ [task] }
  | .cancelQueries node =>
    { s with
      taskQ := (cancelDataObjectQueries same node s.taskQ).2
      cancelled := s.cancelled ++
        node.elim [] fun node => s.taskQ.filter (·.type.concerns same node) }
  | .cancelThread => { s with shouldExit := true }
  | .work => work s
  | .wake =>
    match s.worker with
    | .waiting _ => takeFront s
    | _ => s

section Queue

variable {taskQ : List (DataStoreTask N)} {task : DataStoreTask N}

/-- A higher priority, or the same and an earlier insertion. -/
def Before (task u : DataStoreTask N) : Prop :=
  task.type.priority < u.type.priority ∨
    task.type.priority = u.type.priority ∧ task.num < u.num

/-- A task is put behind those of its priority, if none of them is from the future. -/
theorem pairwise_insert (hsorted : taskQ.Pairwise Before) (hnum : ∀ u ∈ taskQ, u.num < task.num)
    (htime : ∀ u ∈ taskQ, u.type.priority = task.type.priority → u.timestamp ≤ task.timestamp) :
    (insert taskQ task).Pairwise Before := by
  induction taskQ with
  | nil => simp [insert]
  | cons u taskQ ih =>
    obtain ⟨hu, hrest⟩ := List.pairwise_cons.mp hsorted
    rw [insert, List.orderedInsert_cons]
    split_ifs with hprec
    · -- the tasks from here on have a lower priority
      have hlt : task.type.priority < u.type.priority := by
        obtain hlt | ⟨heq, htime'⟩ := hprec
        · exact hlt
        · exact absurd (htime u (by simp) heq.symm) (not_le_of_gt htime')
      refine List.pairwise_cons.mpr ⟨?_, hsorted⟩
      intro v hv
      rcases List.mem_cons.mp hv with rfl | hv
      · exact .inl hlt
      · have hle := hu v hv
        unfold Before at hle ⊢
        omega
    · have hrest' := ih hrest (fun v hv => hnum v (by simp [hv]))
        (fun v hv => htime v (by simp [hv]))
      refine List.pairwise_cons.mpr ⟨?_, hrest'⟩
      intro v hv
      rcases (List.mem_orderedInsert Precedes).mp hv with rfl | hv
      · have hnumu := hnum u (by simp)
        unfold Precedes at hprec
        unfold Before
        omega
      · exact hu v hv

theorem insert_perm : (insert taskQ task).Perm (task :: taskQ) := List.perm_orderedInsert _ _ _

theorem cancelLoop_eq (node : N) (taskQ : List (DataStoreTask N)) :
    cancelLoop same node taskQ = (taskQ.filter (fun t => !t.type.concerns same node),
      taskQ.countP fun t => t.type.concerns same node) := by
  induction taskQ with
  | nil => rfl
  | cons task taskQ ih =>
    rw [cancelLoop, ih]
    by_cases h : task.type.concerns same node
    · simp [h]
    · simp [h]

/-- The loop erases exactly the queries for the node and returns their number. -/
theorem cancelDataObjectQueries_eq (node : N) (taskQ : List (DataStoreTask N)) :
    cancelDataObjectQueries same (some node) taskQ =
      (↑(taskQ.countP fun t => t.type.concerns same node),
        taskQ.filter fun t => !t.type.concerns same node) := by
  rw [cancelDataObjectQueries, cancelLoop_eq]

end Queue

section Invariant

/-- The task that the worker has taken and not finished. -/
def Worker.current : Worker N → List (DataStoreTask N)
  | .executing task => [task]
  | _ => []

def Worker.isWaiting : Worker N → Bool
  | .waiting _ => true
  | _ => false

/-- What holds between any two steps. The tasks that were inserted are in the queue, in the hands of
the worker, taken back, executed or passed over. -/
structure Inv (s : State N) : Prop where
  sorted : s.taskQ.Pairwise Before
  fresh : ∀ t ∈ s.inserted, t.num < s.totNum
  nodup : s.inserted.Nodup
  split : s.inserted.Perm
    (s.taskQ ++ (s.worker.current ++ (s.cancelled ++ (s.executed ++ s.dropped))))
  order : ∀ p ∈ s.taken, ∀ u ∈ p.2, Before p.1 u
  history : s.dropped = [] → s.taken.map Prod.fst = s.executed ++ s.worker.current
  dropped : ∀ t ∈ s.dropped, t.type.isQuery = true ∧ s.shouldExit = true
  waiting : s.worker = .waiting false → s.taskQ = []
  exited : s.worker = .exited → s.taskQ = []
  faulted : s.worker ≠ .faulted

/-- A task is inserted while the worker runs, and not before a task of its priority by the clock; the
worker comes back from its wait to a queue with a task. -/
def Ok (s : State N) : Act N → Prop
  | .insert type now => s.worker ≠ .exited ∧
      ∀ t ∈ s.taskQ, t.type.priority = type.priority → t.timestamp ≤ now
  | .wake => s.worker.isWaiting = true → s.taskQ ≠ []
  | _ => True

/-- The worker does not come to a query when it should exit. -/
def InTime (s : State N) : Act N → Prop
  | .work => ∀ t ∈ s.worker.current, s.shouldExit = true → t.type.isQuery = false
  | _ => True

instance [DecidableEq N] (s : State N) : (a : Act N) → Decidable (Ok s a)
  | .insert _ _ => inferInstanceAs (Decidable (_ ∧ _))
  | .wake => inferInstanceAs (Decidable (_ → _))
  | .cancelQueries _ | .cancelThread | .work => .isTrue trivial

instance (s : State N) : (a : Act N) → Decidable (InTime s a)
  | .work => inferInstanceAs (Decidable (∀ t ∈ s.worker.current, _))
  | .insert _ _ | .cancelQueries _ | .cancelThread | .wake => .isTrue trivial

variable {s : State N}

theorem inv_init : Inv (init : State N) where
  sorted := .nil
  fresh := by simp [init]
  nodup := .nil
  split := .refl _
  order := by simp [init]
  history _ := rfl
  dropped := by simp [init]
  waiting _ := rfl
  exited _ := rfl
  faulted := nofun

theorem Inv.mem_inserted (h : Inv s) {t : DataStoreTask N} (ht : t ∈ s.taskQ) : t ∈ s.inserted :=
  h.split.symm.subset (List.mem_append_left _ ht)

theorem current_signal (w : Worker N) : w.signal.current = w.current := by cases w <;> rfl

theorem Inv.insert (h : Inv s) {type : TaskType N} {now : Timeval} (hok : Ok s (.insert type now)) :
    Inv (step same s (.insert type now)) where
  sorted := by
    apply pairwise_insert h.sorted
    · intro u hu
      exact h.fresh u (h.mem_inserted hu)
    · exact hok.2
  fresh := by
    intro t ht
    rcases List.mem_append.mp ht with ht | ht
    · exact Nat.lt_succ_of_lt (h.fresh t ht)
    · rw [List.mem_singleton.mp ht]
      exact Nat.lt_succ_self _
  nodup := by
    refine List.nodup_append.mpr ⟨h.nodup, List.nodup_singleton _, ?_⟩
    rintro t ht u hu rfl
    have hlt := h.fresh t ht
    rw [List.mem_singleton.mp hu] at hlt
    exact lt_irrefl _ hlt
  split := by
    refine List.perm_append_singleton _ _ |>.trans ?_
    have hperm := (@insert_perm N s.taskQ ⟨type, s.totNum, now⟩).append_right
      (s.worker.current ++ (s.cancelled ++ (s.executed ++ s.dropped)))
    simp only [step, current_signal]
    exact (h.split.cons _).trans hperm.symm
  order := h.order
  history hd := by
    simp only [step, current_signal]
    exact h.history hd
  dropped := h.dropped
  waiting hw := by
    exfalso
    simp only [step] at hw
    cases hs : s.worker <;> simp [hs, Worker.signal] at hw
  exited hw := by
    exfalso
    apply hok.1
    simp only [step] at hw
    cases hs : s.worker <;> simp [hs, Worker.signal] at hw ⊢
  faulted hw := by
    apply h.faulted
    simp only [step] at hw
    cases hs : s.worker <;> simp [hs, Worker.signal] at hw ⊢

theorem Inv.cancelQueries (h : Inv s) (node : Option N) :
    Inv (step same s (.cancelQueries node)) := by
  cases node with
  | none =>
    simp only [step, cancelDataObjectQueries, Option.elim_none, List.append_nil]
    exact h
  | some node =>
    have hsub : ∀ t, t ∈ (s.taskQ.filter fun t => !t.type.concerns same node) → t ∈ s.taskQ :=
      fun t ht => (List.mem_filter.mp ht).1
    simp only [step, cancelDataObjectQueries_eq, Option.elim_some]
    have hnil : s.taskQ = [] → (s.taskQ.filter fun t => !t.type.concerns same node) = [] := by
      intro hq
      rw [hq]
      rfl
    refine ⟨h.sorted.filter _, h.fresh, h.nodup, ?_, h.order, h.history, h.dropped,
      fun hw => hnil (h.waiting hw), fun hw => hnil (h.exited hw), h.faulted⟩
    -- what is erased from the queue is what joins the tasks taken back
    have hfilter := List.filter_append_perm (fun t : DataStoreTask N => !t.type.concerns same node)
      s.taskQ
    simp only [Bool.not_not] at hfilter
    have hsplit := h.split.trans (hfilter.symm.append_right _)
    rw [← Multiset.coe_eq_coe] at hsplit ⊢
    simp only [← Multiset.coe_add] at hsplit ⊢
    rw [hsplit]
    abel

theorem Inv.takeFront (h : Inv s) (hcur : s.worker.current = []) (hne : s.taskQ ≠ []) :
    Inv (takeFront s) := by
  obtain ⟨task, taskQ, hq⟩ := List.exists_cons_of_ne_nil hne
  have hsorted := h.sorted
  rw [hq, List.pairwise_cons] at hsorted
  have hsplit := h.split
  rw [hq, hcur] at hsplit
  simp only [TaskQueue.takeFront, hq]
  refine ⟨hsorted.2, h.fresh, h.nodup, ?_, ?_, ?_, h.dropped, nofun, nofun, nofun⟩
  · refine hsplit.trans ?_
    rw [List.nil_append, List.cons_append]
    exact List.perm_middle.symm
  · intro p hp
    rcases List.mem_append.mp hp with hp | hp
    · exact h.order p hp
    · rw [List.mem_singleton.mp hp]
      exact hsorted.1
  · intro hd
    have hhist := h.history hd
    rw [hcur, List.append_nil] at hhist
    rw [List.map_append, hhist]
    rfl

theorem Inv.finish (h : Inv s) {task : DataStoreTask N} (hw : s.worker = .executing task) :
    Inv (work s) := by
  have hsplit := h.split
  have hhist := h.history
  rw [hw] at hsplit hhist
  simp only [work, hw]
  split_ifs with hq
  · refine ⟨h.sorted, h.fresh, h.nodup, ?_, h.order, ?_, ?_, nofun, nofun, nofun⟩
    · refine hsplit.trans ?_
      rw [← Multiset.coe_eq_coe]
      simp only [← Multiset.coe_add, Worker.current, Multiset.coe_nil]
      abel
    · intro hd
      simp at hd
    · intro t ht
      rcases List.mem_append.mp ht with ht | ht
      · exact h.dropped t ht
      · rw [List.mem_singleton.mp ht]
        simpa using hq
  · refine ⟨h.sorted, h.fresh, h.nodup, ?_, h.order, ?_, h.dropped, nofun, nofun, nofun⟩
    · refine hsplit.trans ?_
      rw [← Multiset.coe_eq_coe]
      simp only [← Multiset.coe_add, Worker.current, Multiset.coe_nil]
      abel
    · intro hd
      rw [hhist hd]
      simp [Worker.current]

theorem Inv.work (h : Inv s) : Inv (work s) := by
  cases hw : s.worker with
  | ready =>
    have hcur : s.worker.current = [] := by rw [hw]; rfl
    simp only [TaskQueue.work, hw]
    split_ifs with hq he
    · refine ⟨h.sorted, h.fresh, h.nodup, ?_, h.order, ?_, h.dropped, nofun, fun _ => hq, nofun⟩
      · have hsplit := h.split
        rwa [hcur] at hsplit
      · have hhist := h.history
        rwa [hcur] at hhist
    · refine ⟨h.sorted, h.fresh, h.nodup, ?_, h.order, ?_, h.dropped, fun _ => hq, nofun, nofun⟩
      · have hsplit := h.split
        rwa [hcur] at hsplit
      · have hhist := h.history
        rwa [hcur] at hhist
    · exact h.takeFront hcur hq
  | executing task => exact h.finish hw
  | waiting _ | exited | faulted =>
    simp only [TaskQueue.work, hw]
    exact h

theorem Inv.step (h : Inv s) {a : Act N} (hok : Ok s a) : Inv (step same s a) := by
  cases a with
  | insert type now => exact h.insert same hok
  | cancelQueries node => exact h.cancelQueries same node
  | cancelThread =>
    exact ⟨h.sorted, h.fresh, h.nodup, h.split, h.order, h.history,
      fun t ht => ⟨(h.dropped t ht).1, rfl⟩, h.waiting, h.exited, h.faulted⟩
  | work => exact h.work
  | wake =>
    cases hw : s.worker with
    | waiting b =>
      have hcur : s.worker.current = [] := by rw [hw]; rfl
      simp only [TaskQueue.step, hw]
      exact h.takeFront hcur (hok (by rw [hw]; rfl))
    | ready | executing _ | exited | faulted =>
      simp only [TaskQueue.step, hw]
      exact h

theorem dropped_step {a : Act N} (hin : InTime s a) (hd : s.dropped = []) :
    (TaskQueue.step same s a).dropped = [] := by
  have hfront : (takeFront s).dropped = s.dropped := by
    unfold takeFront
    split <;> rfl
  cases a with
  | work =>
    simp only [TaskQueue.step, TaskQueue.work]
    cases hw : s.worker with
    | executing task =>
      have hq : (task.type.isQuery && s.shouldExit) = false := by
        cases he : s.shouldExit with
        | false => simp
        | true => simp [hin task (by simp [hw, Worker.current]) he]
      simp [hq, hd]
    | ready =>
      simp only
      split_ifs
      · exact hd
      · exact hd
      · rw [hfront, hd]
    | waiting _ | exited | faulted => exact hd
  | wake =>
    simp only [TaskQueue.step]
    cases s.worker with
    | waiting _ => exact hfront.trans hd
    | ready | executing _ | exited | faulted => exact hd
  | insert _ _ | cancelQueries _ | cancelThread => exact hd

end Invariant

section Drain

/-- The queue has been worked off, and nothing was added or taken back meanwhile. -/
structure Drained (s s' : State N) : Prop where
  taskQ : s'.taskQ = []
  current : s'.worker.current = []
  inserted : s'.inserted = s.inserted
  cancelled : s'.cancelled = s.cancelled
  shouldExit : s'.shouldExit = s.shouldExit

/-- A step that the worker can take on its own: it waits for a signal only when there is nothing to
do. -/
def Enabled (s : State N) (a : Act N) : Prop :=
  a = .work ∨ a = .wake ∧ s.worker = .waiting true ∧ s.taskQ ≠ []

variable {s s' s'' : State N}

theorem Drained.of_step (h : Drained s' s'') (hi : s'.inserted = s.inserted)
    (hc : s'.cancelled = s.cancelled) (he : s'.shouldExit = s.shouldExit) : Drained s s'' :=
  ⟨h.taskQ, h.current, h.inserted.trans hi, h.cancelled.trans hc, h.shouldExit.trans he⟩

theorem Enabled.ok {a : Act N} (h : Enabled s a) : Ok s a := by
  obtain rfl | ⟨rfl, -, hne⟩ := h
  · trivial
  · exact fun _ => hne

/-- The worker finishes its task, then takes and executes what is in the queue. -/
theorem exists_drain_of_executing {task : DataStoreTask N} (hw : s.worker = .executing task) :
    ∃ acts, Trace.Guarded (step same) Enabled s acts ∧
      Drained s (Trace.run (step same) s acts) := by
  -- on the tasks behind the one in hand
  induction hn : s.taskQ.length generalizing s task with
  | zero =>
    refine ⟨[.work], ⟨.inl rfl, trivial⟩, ?_⟩
    have hq := List.length_eq_zero_iff.mp hn
    simp only [Trace.run_cons, Trace.run_nil, step, work, hw]
    split_ifs <;> exact ⟨hq, rfl, rfl, rfl, rfl⟩
  | succ n ih =>
    obtain ⟨t, taskQ, hq⟩ := List.exists_cons_of_length_eq_add_one hn
    have hfin : ∃ d x, work s = { s with worker := .ready, dropped := d, executed := x } := by
      simp only [work, hw]
      split_ifs
      · exact ⟨_, _, rfl⟩
      · exact ⟨_, _, rfl⟩
    obtain ⟨d, x, hfin⟩ := hfin
    have htake : work (work s) = { s with
        taskQ := taskQ, worker := .executing t, taken := s.taken ++ [(t, taskQ)], dropped := d,
        executed := x } := by
      rw [hfin]
      simp [work, takeFront, hq]
    obtain ⟨acts, hacts, hdrain⟩ := @ih (work (work s)) t (by rw [htake]) (by
      rw [htake]
      simpa [hq] using hn)
    refine ⟨.work :: .work :: acts, ⟨.inl rfl, .inl rfl, hacts⟩, ?_⟩
    have hsame : (work (work s)).inserted = s.inserted ∧ (work (work s)).cancelled = s.cancelled ∧
        (work (work s)).shouldExit = s.shouldExit := by
      rw [htake]
      exact ⟨rfl, rfl, rfl⟩
    exact hdrain.of_step hsame.1 hsame.2.1 hsame.2.2

theorem exists_drain_of_take (hne : s.taskQ ≠ []) {a : Act N} (ha : Enabled s a)
    (hstep : step same s a = takeFront s) :
    ∃ acts, Trace.Guarded (step same) Enabled s acts ∧
      Drained s (Trace.run (step same) s acts) := by
  obtain ⟨task, taskQ, hq⟩ := List.exists_cons_of_ne_nil hne
  have hfront : takeFront s = { s with
      taskQ := taskQ, worker := .executing task, taken := s.taken ++ [(task, taskQ)] } := by
    simp only [takeFront, hq]
  obtain ⟨acts, hacts, hdrain⟩ := @exists_drain_of_executing N same (takeFront s) task
    (by rw [hfront])
  rw [← hstep] at hacts hdrain
  refine ⟨a :: acts, ⟨ha, hacts⟩, ?_⟩
  rw [Trace.run_cons]
  have hsame : (step same s a).inserted = s.inserted ∧ (step same s a).cancelled = s.cancelled ∧
      (step same s a).shouldExit = s.shouldExit := by
    rw [hstep, hfront]
    exact ⟨rfl, rfl, rfl⟩
  exact hdrain.of_step hsame.1 hsame.2.1 hsame.2.2

/-- From every state the worker can work off the queue: it never waits unsignalled while there are
tasks, and it does not end before they are done. -/
theorem Inv.exists_drain (h : Inv s) : ∃ acts, Trace.Guarded (TaskQueue.step same) Enabled s acts ∧
    Drained s (Trace.run (TaskQueue.step same) s acts) := by
  have hstay : s.taskQ = [] → s.worker.current = [] →
      ∃ acts, Trace.Guarded (TaskQueue.step same) Enabled s acts ∧
        Drained s (Trace.run (TaskQueue.step same) s acts) :=
    fun hq hc => ⟨[], trivial, hq, hc, rfl, rfl, rfl⟩
  cases hw : s.worker with
  | executing task => exact exists_drain_of_executing same hw
  | ready =>
    by_cases hq : s.taskQ = []
    · exact hstay hq (by rw [hw]; rfl)
    · apply exists_drain_of_take same hq (.inl rfl)
      simp [TaskQueue.step, TaskQueue.work, hw, hq]
  | waiting signalled =>
    by_cases hq : s.taskQ = []
    · exact hstay hq (by rw [hw]; rfl)
    · have hsig : signalled = true := by
        cases signalled with
        | true => rfl
        | false => exact absurd (h.waiting hw) hq
      subst hsig
      apply exists_drain_of_take same hq (.inr ⟨rfl, hw, hq⟩)
      simp [TaskQueue.step, hw]
  | exited => exact hstay (h.exited hw) (by rw [hw]; rfl)
  | faulted => exact absurd hw h.faulted

end Drain

section Runs

theorem cancelled_step (s : State N) (a : Act N) : (step same s a).cancelled = s.cancelled ++
    match a with
    | .cancelQueries (some node) => s.taskQ.filter (·.type.concerns same node)
    | _ => [] := by
  have hfront : (takeFront s).cancelled = s.cancelled := by
    unfold takeFront
    split <;> rfl
  cases a with
  | cancelQueries node => cases node <;> rfl
  | work =>
    rw [List.append_nil]
    simp only [step, work]
    cases s.worker with
    | ready =>
      simp only
      split_ifs
      · rfl
      · rfl
      · exact hfront
    | executing task =>
      simp only
      split_ifs <;> rfl
    | waiting _ | exited | faulted => rfl
  | wake =>
    rw [List.append_nil]
    simp only [step]
    cases s.worker with
    | waiting _ => exact hfront
    | ready | executing _ | exited | faulted => rfl
  | insert _ _ | cancelThread => rw [List.append_nil]; rfl

/-- A task was taken back if it was a pending query for the node of a call. -/
def TakenBack (as : List (Act N)) (t : DataStoreTask N) : Prop :=
  ∃ pre node post, as = pre ++ .cancelQueries (some node) :: post ∧
    t ∈ (Trace.run (step same) init pre).taskQ ∧ t.type.concerns same node = true

theorem takenBack_append_singleton (as : List (Act N)) (a : Act N) (t : DataStoreTask N) :
    TakenBack same (as ++ [a]) t ↔ TakenBack same as t ∨
      ∃ node, a = .cancelQueries (some node) ∧
        t ∈ (Trace.run (step same) init as).taskQ ∧ t.type.concerns same node = true := by
  constructor
  · rintro ⟨pre, node, post, heq, ht⟩
    rcases List.eq_nil_or_concat post with rfl | ⟨post, b, rfl⟩
    · obtain ⟨rfl, ha⟩ := List.append_inj' heq rfl
      exact .inr ⟨node, List.singleton_inj.mp ha, ht⟩
    · rw [List.concat_eq_append, ← List.cons_append, ← List.append_assoc] at heq
      exact .inl ⟨pre, node, post, (List.append_inj' heq rfl).1, ht⟩
  · rintro (⟨pre, node, post, rfl, ht⟩ | ⟨node, rfl, ht⟩)
    · exact ⟨pre, node, post ++ [a], by simp, ht⟩
    · exact ⟨as, node, [], rfl, ht⟩

theorem mem_cancelled_iff (as : List (Act N)) (t : DataStoreTask N) :
    t ∈ (Trace.run (step same) init as).cancelled ↔ TakenBack same as t := by
  induction as using List.reverseRecOn with
  | nil => simp [TakenBack, init]
  | append_singleton as a ih =>
    rw [Trace.run_append, Trace.run_cons, Trace.run_nil, cancelled_step, List.mem_append, ih,
      takenBack_append_singleton]
    apply or_congr_right
    cases a with
    | cancelQueries node =>
      cases node with
      | none => simp
      | some node => simp
    | insert _ _ | cancelThread | work | wake => simp

/-- The queue served well, in the state that a run has reached: no task was taken before one of
higher priority or an earlier one of its own; each inserted task is pending, in hand, taken back or
executed, in one place only; the tasks taken back are the pending queries for the nodes that were
asked for; and if the worker goes on, every task that is left is executed, save the queries it comes
to after it should exit. -/
structure Served (as : List (Act N)) (s : State N) : Prop where
  faulted : s.worker ≠ .faulted
  order : ∀ p ∈ s.taken, ∀ u ∈ p.2, Before p.1 u
  history : s.taken.map Prod.fst = s.executed ++ s.worker.current
  nodup : s.inserted.Nodup
  split : s.inserted.Perm (s.taskQ ++ (s.worker.current ++ (s.cancelled ++ s.executed)))
  cancelled : ∀ t, t ∈ s.cancelled ↔ TakenBack same as t
  ends : ∃ acts s', Trace.Guarded (step same) Enabled s acts ∧
    Trace.run (step same) s acts = s' ∧
    s.inserted.Perm (s.cancelled ++ (s'.executed ++ s'.dropped)) ∧
    ∀ t ∈ s'.dropped, t.type.isQuery = true ∧ s.shouldExit = true

/-- In every run in which no task is inserted after the worker has ended or behind the clock, no
wake-up finds the queue empty and no query is left over at the exit, the queue serves well in every
state that is reached. -/
theorem served_run {as : List (Act N)}
    (hg : Trace.Guarded (step same) (fun s a => Ok s a ∧ InTime s a) init as) :
    Served same as (Trace.run (step same) init as) := by
  have hinv : Inv (Trace.run (step same) init as) :=
    Trace.invariant_of_guarded (fun _ _ h hok => h.step same hok.1) inv_init hg
  have hdrop : (Trace.run (step same) init as).dropped = [] :=
    @Trace.invariant_of_guarded _ _ _ _ (fun s => s.dropped = [])
      (fun _ _ h hok => dropped_step same hok.2 h) _ _ rfl hg
  generalize hs : Trace.run (step same) init as = s at hinv hdrop
  obtain ⟨acts, hacts, hdrain⟩ := hinv.exists_drain same
  have hend : Inv (Trace.run (step same) s acts) :=
    Trace.invariant_of_guarded (fun _ _ h hen => h.step same hen.ok) hinv hacts
  refine ⟨hinv.faulted, hinv.order, hinv.history hdrop, hinv.nodup, ?_, ?_,
    acts, _, hacts, rfl, ?_, ?_⟩
  · have hsplit := hinv.split
    rwa [hdrop, List.append_nil] at hsplit
  · intro t
    rw [← hs]
    exact mem_cancelled_iff same as t
  · have hsplit := hend.split
    rwa [hdrain.taskQ, hdrain.current, hdrain.inserted, hdrain.cancelled] at hsplit
  · intro t ht
    rw [← hdrain.shouldExit]
    exact hend.dropped t ht

end Runs

end TaskQueue

namespace Sample

open TaskQueue

/-- The worker waits; a query for node 1 and an object arrive, the query is executed after the
object, and the thread is cancelled and ends. -/
def taskRun : List (Act ℕ) :=
  [.work, .insert (.dataObjectQuery (some 1)) ⟨5, 0⟩, .insert .insertDataObject ⟨6, 0⟩, .wake, .work,
    .insert (.dataObjectForNodesQuery (some 2)) ⟨7, 0⟩, .cancelQueries (some 2), .work, .work,
    .cancelThread, .insert .exit ⟨8, 0⟩, .work, .work, .work]

/-- The query that woke the worker up is taken back before it comes to the queue. -/
def lateWake : List (Act ℕ) :=
  [.work, .insert (.dataObjectQuery (some 1)) ⟨5, 0⟩, .cancelQueries (some 1), .wake]

theorem served_taskRun : Served (· == ·) taskRun (Trace.run (step (· == ·)) init taskRun) ∧
    (Trace.run (step (· == ·)) init taskRun).executed.map DataStoreTask.num = [1, 0, 3] ∧
    (Trace.run (step (· == ·)) init taskRun).worker = .exited := by
  refine ⟨served_run _ ?_, by decide, by decide⟩
  decide

theorem not_served_lateWake :
    (Trace.run (step (· == ·)) init lateWake).worker = .faulted ∧
      ¬ Served (· == ·) lateWake (Trace.run (step (· == ·)) init lateWake) := by
  have hfault : (Trace.run (step (· == ·)) init lateWake).worker = .faulted := by decide
  exact ⟨hfault, fun h => h.faulted hfault⟩

end Sample
end Haggle
