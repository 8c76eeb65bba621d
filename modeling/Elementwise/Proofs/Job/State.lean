import Elementwise.Proofs.Job.Course

/-!
What the small changes of a job's state leave alone: moving a worker to a phase, and letting it
begin.
-/

namespace Elementwise

theorem Phase.not_running_of_isOver {phase : Phase} (h : phase.isOver = true) :
    phase.isRunning = false := by
  cases phase with
  | finished | dead => rfl
  | _ => cases h

theorem Phase.isOver_of_not_running {phase : Phase} (hbegun : phase ≠ .idle)
    (hrunning : phase.isRunning = false) : phase.isOver = true := by
  cases phase with
  | idle => exact absurd rfl hbegun
  | finished | dead => rfl
  | _ => cases hrunning

theorem Phase.isRunning_of_access {phase : Phase} {w q : Nat} {access : Access}
    (h : phase.access? w = some (q, access)) : phase.isRunning = true := by
  cases phase with
  | draining | sweeping => rfl
  | _ => cases h

theorem Phase.access?_of_not_running {phase : Phase} {w : Nat} (h : phase.isRunning = false) :
    phase.access? w = none := by
  cases phase with
  | draining | sweeping => cases h
  | _ => rfl

theorem Gate.isSome_wait?_of_isOpen {g : Gate} (h : g.isOpen = true) :
    g.wait?.isSome = true := by
  cases hstate : g.state with
  | pending => simp [isOpen, hstate] at h
  | opened | abandoned => simp [wait?, hstate]

theorem Gate.eq_true_of_isOpen {g : Gate} {told : Bool} (h : g.isOpen = true)
    (htold : g.wait? = some told) : told = true := by
  cases hstate : g.state with
  | opened => simpa [wait?, hstate] using htold.symm
  | pending | abandoned => simp [isOpen, hstate] at h

theorem setIfInBounds_self {α : Type} {entries : Array α} {i : Nat} {entry : α}
    (h : entries[i]? = some entry) : entries.setIfInBounds i entry = entries := by
  obtain ⟨hi, rfl⟩ := Array.getElem?_eq_some_iff.mp h
  simp [Array.setIfInBounds, hi]

namespace JobState

/-- Nobody is inside a deque. Between steps a lock is free, or was left poisoned. -/
def Unheld (s : JobState) : Prop :=
  ∀ deque ∈ s.deques, deque.lock = ⟨Lock.free⟩ ∨ deque.lock = ⟨Lock.poisoned⟩

theorem phase_eq {s : JobState} {w : Nat} {worker : Worker} (h : s.workers[w]? = some worker) :
    s.phase w = worker.phase := by
  simp [phase, h]

theorem phase_of_none {s : JobState} {w : Nat} (h : s.workers[w]? = none) : s.phase w = .idle := by
  simp [phase, h]

theorem exists_worker_of_access {s : JobState} {w q : Nat} {access : Access}
    (h : (s.phase w).access? w = some (q, access)) :
    ∃ worker, s.workers[w]? = some worker ∧ worker.phase.access? w = some (q, access) := by
  rcases hworker : s.workers[w]? with - | worker
  · rw [phase_of_none hworker] at h
    cases h
  · exact ⟨worker, rfl, phase_eq hworker ▸ h⟩

theorem any_isRunning_eq_false {s : JobState} :
    (s.workers.any fun worker => worker.phase.isRunning) = false ↔
      ∀ w, (s.phase w).isRunning = false := by
  rw [Array.any_eq_false]
  constructor
  · intro h w
    cases hworker : s.workers[w]? with
    | none =>
        rw [phase_of_none hworker]
        rfl
    | some worker =>
        obtain ⟨hw, rfl⟩ := Array.getElem?_eq_some_iff.mp hworker
        rw [phase_eq hworker]
        simpa using h w hw
  · intro h w hw
    rw [← phase_eq (Array.getElem?_eq_getElem hw), h w]
    decide

theorem lt_size {s : JobState} {w : Nat} {worker : Worker} (h : s.workers[w]? = some worker) :
    w < s.workers.size :=
  (Array.getElem?_eq_some_iff.mp h).1

@[simp] theorem size_workers_setPhase (s : JobState) (w : Nat) (worker : Worker) (phase : Phase) :
    (s.setPhase w worker phase).workers.size = s.workers.size := by
  simp [setPhase]

@[simp] theorem deques_setPhase (s : JobState) (w : Nat) (worker : Worker) (phase : Phase) :
    (s.setPhase w worker phase).deques = s.deques := rfl

@[simp] theorem gate_setPhase (s : JobState) (w : Nat) (worker : Worker) (phase : Phase) :
    (s.setPhase w worker phase).gate = s.gate := rfl

@[simp] theorem memory_setPhase (s : JobState) (w : Nat) (worker : Worker) (phase : Phase) :
    (s.setPhase w worker phase).memory = s.memory := rfl

@[simp] theorem calls_setPhase (s : JobState) (w : Nat) (worker : Worker) (phase : Phase) :
    (s.setPhase w worker phase).calls = s.calls := rfl

@[simp] theorem aborted_setPhase (s : JobState) (w : Nat) (worker : Worker) (phase : Phase) :
    (s.setPhase w worker phase).aborted = s.aborted := rfl

theorem workers_setPhase_self {s : JobState} {w : Nat} (h : w < s.workers.size) (worker : Worker)
    (phase : Phase) : (s.setPhase w worker phase).workers[w]? = some { worker with phase } := by
  simp [setPhase, h]

theorem workers_setPhase_of_ne {s : JobState} {w v : Nat} (h : v ≠ w) (worker : Worker)
    (phase : Phase) : (s.setPhase w worker phase).workers[v]? = s.workers[v]? := by
  simp [setPhase, h.symm]

theorem phase_setPhase_self {s : JobState} {w : Nat} (h : w < s.workers.size) (worker : Worker)
    (phase : Phase) : (s.setPhase w worker phase).phase w = phase :=
  phase_eq (workers_setPhase_self h worker phase)

theorem phase_setPhase_of_ne {s : JobState} {w v : Nat} (h : v ≠ w) (worker : Worker)
    (phase : Phase) : (s.setPhase w worker phase).phase v = s.phase v := by
  simp only [JobState.phase, workers_setPhase_of_ne h]

theorem start_eq {s : JobState} {w : Nat} {worker : Worker} (h : s.workers[w]? = some worker) :
    s.start w = s.setPhase w worker .atGate := by
  rw [start, h]

theorem start_of_none {s : JobState} {w : Nat} (h : s.workers[w]? = none) : s.start w = s := by
  rw [start, h]

theorem phase_start (s : JobState) (w v : Nat) :
    (s.start w).phase v = s.phase v ∨ v = w ∧ (s.start w).phase v = .atGate := by
  unfold start
  split
  · rename_i worker hworker
    by_cases hv : v = w
    · refine .inr ⟨hv, ?_⟩
      rw [hv]
      exact phase_setPhase_self (lt_size hworker) worker .atGate
    · exact .inl (phase_setPhase_of_ne hv worker .atGate)
  · exact .inl rfl

theorem phase_start_self {s : JobState} {w : Nat} (h : w < s.workers.size) :
    (s.start w).phase w = .atGate := by
  unfold start
  rw [Array.getElem?_eq_getElem h]
  exact phase_setPhase_self h _ _

theorem phase_start_of_ne {s : JobState} {w v : Nat} (h : v ≠ w) :
    (s.start w).phase v = s.phase v := by
  rcases s.phase_start w v with hsame | ⟨heq, -⟩
  · exact hsame
  · exact absurd heq h

theorem deques_start (s : JobState) (w : Nat) : (s.start w).deques = s.deques := by
  unfold start
  split <;> rfl

theorem gate_start (s : JobState) (w : Nat) : (s.start w).gate = s.gate := by
  unfold start
  split <;> rfl

theorem aborted_start (s : JobState) (w : Nat) : (s.start w).aborted = s.aborted := by
  unfold start
  split <;> rfl

theorem memory_start (s : JobState) (w : Nat) : (s.start w).memory = s.memory := by
  unfold start
  split <;> rfl

theorem size_workers_start (s : JobState) (w : Nat) :
    (s.start w).workers.size = s.workers.size := by
  unfold start
  split
  · exact size_workers_setPhase ..
  · rfl

theorem calls_start (s : JobState) (w : Nat) : (s.start w).calls = s.calls := by
  unfold start
  split <;> rfl

theorem tally_eq {s : JobState} {w : Nat} {worker : Worker} (h : s.workers[w]? = some worker) :
    s.tally w = worker.tally := by
  simp [tally, h]

/-- Moving a worker to a phase leaves all counters as they are. -/
theorem tally_setPhase {s : JobState} {w : Nat} {worker : Worker}
    (h : s.workers[w]? = some worker) (phase : Phase) (v : Nat) :
    (s.setPhase w worker phase).tally v = s.tally v := by
  by_cases hv : v = w
  · subst hv
    rw [tally_eq h, tally_eq (workers_setPhase_self (lt_size h) worker phase)]
  · simp only [tally, workers_setPhase_of_ne hv]

theorem tally_start (s : JobState) (w v : Nat) : (s.start w).tally v = s.tally v := by
  unfold start
  split
  · rename_i worker hworker
    exact tally_setPhase hworker .atGate v
  · rfl

@[simp] theorem gate_initial (memory : Memory) (gate : Gate) (spans : List Span) :
    (initial memory gate spans).gate = gate := rfl

theorem size_workers_initial (memory : Memory) (gate : Gate) (spans : List Span) :
    (initial memory gate spans).workers.size = spans.length := by
  simp [initial]

theorem worker_initial {memory : Memory} {gate : Gate} {spans : List Span} {w : Nat}
    {worker : Worker} (h : (initial memory gate spans).workers[w]? = some worker) :
    worker = {} := by
  obtain ⟨span, -, heq⟩ := List.mem_map.mp (List.mem_toArray.mp (Array.mem_of_getElem? h))
  exact heq.symm

theorem phase_initial (memory : Memory) (gate : Gate) (spans : List Span) (w : Nat) :
    (initial memory gate spans).phase w = .idle := by
  cases hworker : (initial memory gate spans).workers[w]? with
  | none => exact phase_of_none hworker
  | some worker => rw [phase_eq hworker, worker_initial hworker]

theorem tally_initial (memory : Memory) (gate : Gate) (spans : List Span) (w : Nat) :
    (initial memory gate spans).tally w = {} := by
  cases hworker : (initial memory gate spans).workers[w]? with
  | none => simp [tally, hworker]
  | some worker => rw [tally_eq hworker, worker_initial hworker]

/-- Nobody has passed the gate. -/
def Waiting (s : JobState) : Prop := ∀ w, s.phase w = .idle ∨ s.phase w = .atGate

theorem Waiting.start {s : JobState} (h : s.Waiting) (w : Nat) : (s.start w).Waiting := by
  intro v
  rcases s.phase_start w v with hsame | ⟨-, hgate⟩
  · rw [hsame]
    exact h v
  · exact .inr hgate

theorem waiting_initial (memory : Memory) (gate : Gate) (spans : List Span) :
    (initial memory gate spans).Waiting :=
  fun w => .inl (phase_initial memory gate spans w)

theorem unheld_initial (memory : Memory) (gate : Gate) (spans : List Span) :
    (initial memory gate spans).Unheld := by
  intro deque hdeque
  obtain ⟨span, -, rfl⟩ := List.mem_map.mp (List.mem_toArray.mp hdeque)
  exact .inl rfl

end JobState

end Elementwise
