import Elementwise.Proofs.Executor.Schedule
import Elementwise.Proofs.Launch.Crew
import Elementwise.Proofs.Launch.Progress

/-!
The contract of the thread libraries. Whichever of them is chosen, a launch creates threads in order
up to the first that cannot be created, settles the gate once with their number, and joins all of
them in the same order. So a call comes out the same under each of them.
-/

namespace Elementwise

/-- What a launch tells of a job with a number of workers of which those below `f` have been
launched and joined, and what is left of the job. -/
structure LaunchRecord.Tells (record : LaunchRecord) (gate : Gate) (workers f : Nat)
    (s : JobState) : Prop where
  spawned : record.spawned = f
  refused : record.refused = if f < workers then some f else none
  payloads : record.payloads = s.losses (List.range f)
  ordered : record.payloads.Pairwise fun a b => a.1 < b.1
  gate : s.gate = gate.settle f
  ended : ∀ w < f, (s.phase w).isOver = true
  idle : ∀ w, f ≤ w → s.phase w = .idle

/-- The team of the workers below `f`. -/
def Team.below (workers f : Nat) (hf : f ≤ workers) : Team workers where
  members := List.range f
  refused := if f < workers then some f else none
  ascending := List.pairwise_lt_range
  lt _ hw := Nat.lt_of_lt_of_le (List.mem_range.mp hw) hf
  complete hnone := by
    rw [List.length_range]
    split at hnone
    · cases hnone
    · omega

theorem Team.plan_below {workers f : Nat} (hf : f ≤ workers) :
    (below workers f hf).plan =
      .contract ((List.range workers).take f) (List.range workers)[f]? := by
  have hget : (List.range workers)[f]? = if f < workers then some f else none := by
    split
    · exact List.getElem?_range ‹_›
    · exact List.getElem?_eq_none (by rwa [List.length_range, ← Nat.not_lt])
  rw [List.take_range, Nat.min_eq_left hf, hget]
  rfl

theorem Team.tells_of_joined {workers f : Nat} {hf : f ≤ workers} {gate : Gate} {c : Course}
    (h : c.Joined (Team.below workers f hf) gate) :
    ((Team.below workers f hf).record c.state).Tells gate workers f c.state where
  spawned := List.length_range
  refused := rfl
  payloads := rfl
  ordered := Launch.pairwise_losses _ (Team.below workers f hf).ascending
  gate := h.gate.trans (congrArg gate.settle List.length_range)
  ended _ hw := h.stopped _ (List.mem_range.mpr hw)
  idle w hw := h.manned.idle w fun hmem => Nat.not_lt_of_le hw (List.mem_range.mp hmem)

/-- What the contract says of a launch of some workers of which those in front of position `f` can be
started: the attempts are made in order, then the gate is settled with `f`, and then each is joined.
-/
structure Launch.Keeps (launch : Launch LaunchRecord) (ids : List Nat) (f : Nat) : Prop where
  steps : launch = .contract (ids.take f) ids[f]?
  /-- Each member of a crew begins once and is waited for once, and the payloads are those of the
  members that ended badly, in their order. -/
  crew : ∀ (σ : Type) (crew : Crew σ) (endings : Nat → Option Payload) (s : σ),
    (∀ w s, (crew.finish w s).2 = endings w) →
    crew.run launch s =
      (.ok ⟨f, ids[f]?, (ids.take f).filterMap fun w => (endings w).map fun cause => (w, cause)⟩,
        crew.finishAll (ids.take f) (crew.settle f (crew.beginAll (ids.take f) s)))
  /-- In whatever order the workers of a job take their steps, the launch ends and tells of the job
  what has become of it. -/
  job : ∀ (job : Job) (memory : Memory) (gate : Gate) (spans : List Span),
    gate.state = .pending → ids = List.range spans.length →
    ∃ bound, ∀ (turns : List Turn) (l : Launching),
      Launching.run job turns
          { todo := launch, course := { state := .initial memory gate spans } } = some l →
        turns.length ≤ bound ∧
        (∃ more last ending, l.run job more = some last ∧ last.todo.ending? = some ending) ∧
        ∀ ending, l.todo.ending? = some ending → ∃ record, ending = .ok record ∧
          record.Tells gate ids.length f l.course.state

theorem Launch.keeps_contract {ids : List Nat} {f : Nat} (hf : f ≤ ids.length) :
    (contract (ids.take f) ids[f]?).Keeps ids f where
  steps := rfl
  crew σ crew endings s hendings := by
    rw [Crew.run_contract hendings, List.length_take_of_le hf]
    rfl
  job := by
    rintro job memory gate spans hpending rfl
    rw [List.length_range] at hf
    rw [← Team.plan_below hf]
    let start : Launching :=
      { todo := (Team.below spans.length f hf).plan,
        course := { state := .initial memory gate spans } }
    have hsteady : start.Steady job (Team.below spans.length f hf) gate :=
      .initial _ memory hpending rfl
    refine ⟨start.effort, fun turns l hrun => ?_⟩
    refine ⟨(hsteady.ends hrun).1, (hsteady.run hrun).exists_run, fun ending hending => ?_⟩
    obtain ⟨hjoined, hrecord⟩ := (hsteady.run hrun).stage.joined hending
    rw [List.length_range]
    exact ⟨_, hrecord, Team.tells_of_joined hjoined⟩

namespace Executor

/-- A call under settings with the given choice of threads, in which launcher and workers take the
given turns. -/
def scheduledBy (settings : Settings) (choice : ThreadChoice) (host : Host) (turns : List Turn)
    (memory : Memory) (request : Request) : Except Failure (Option (Outcome × Course)) :=
  (ofSettings? (settings.withThreads choice) host).map fun e =>
    e.scheduled (e.launcher.plan e.host (e.partition request.elements).workers) turns memory request

theorem ofSettings?_withThreads (settings : Settings) (choice : ThreadChoice) (host : Host) :
    ofSettings? (settings.withThreads choice) host =
      (ofSettings? settings host).map fun _ =>
        ⟨settings.withThreads choice, .ofSettings (settings.withThreads choice), host⟩ := by
  have hworkers : (settings.withThreads choice).workers = settings.workers := rfl
  rw [ofSettings?, ofSettings?, hworkers]
  split
  · rfl
  · split <;> rfl

theorem plan_withThreads (settings : Settings) (choice other : ThreadChoice) :
    (Launcher.ofSettings (settings.withThreads choice)).plan =
      (Launcher.ofSettings (settings.withThreads other)).plan :=
  funext fun host => funext fun workers =>
    ThreadLibrary.launch_eq choice.library other.library settings.threadName settings.stackSize host
      (List.range workers)

/-- Calls under settings that differ in the choice of threads alone come out the same. -/
theorem run_withThreads (settings : Settings) (choice other : ThreadChoice) (host : Host)
    (memory : Memory) (request : Request) :
    (ofSettings? (settings.withThreads choice) host).map (fun e => e.run memory request) =
      (ofSettings? (settings.withThreads other) host).map (fun e => e.run memory request) := by
  rw [ofSettings?_withThreads, ofSettings?_withThreads]
  cases ofSettings? settings host with
  | error cause => rfl
  | ok e =>
      simp only [Except.map, run, plan_withThreads settings choice other]
      rfl

theorem scheduledBy_eq (settings : Settings) (choice other : ThreadChoice) (host : Host)
    (turns : List Turn) (memory : Memory) (request : Request) :
    scheduledBy settings choice host turns memory request =
      scheduledBy settings other host turns memory request := by
  rw [scheduledBy, scheduledBy, ofSettings?_withThreads, ofSettings?_withThreads]
  cases ofSettings? settings host with
  | error cause => rfl
  | ok e =>
      simp only [Except.map, plan_withThreads settings choice other]
      rfl

/-- Whichever library creates the threads, a launch keeps the contract. So calls that differ in the
choice of threads alone come out the same. -/
theorem libraries_keep_one_contract :
    (∀ (library : ThreadLibrary) (host : Host) (namePrefix : String) (stackSize : Option Nat)
      (ids : List Nat), ∀ f ≤ ids.length,
      (∀ w ∈ ids, ThreadBuilder.nulFault? (threadName namePrefix w) = none) →
      (∀ w ∈ ids.take f, host.creates stackSize w = true) →
      (∀ w, ids[f]? = some w → host.creates stackSize w = false) →
      (library.launch namePrefix stackSize host ids).Keeps ids f) ∧
    ∀ (settings : Settings) (choice other : ThreadChoice) (host : Host) (memory : Memory)
      (request : Request),
      (ofSettings? (settings.withThreads choice) host).map (fun e => e.run memory request) =
        (ofSettings? (settings.withThreads other) host).map (fun e => e.run memory request) ∧
      ∀ turns, scheduledBy settings choice host turns memory request =
        scheduledBy settings other host turns memory request := by
  constructor
  · intro library host namePrefix stackSize ids f hf hnames hcreates hrefuses
    obtain ⟨hmembers, hrefused⟩ := Team.takeWhile_eq_take hcreates hrefuses
    rw [library.launch_eq_contract hnames, hmembers, hrefused]
    exact Launch.keeps_contract hf
  · intro settings choice other host memory request
    exact ⟨run_withThreads settings choice other host memory request,
      fun turns => scheduledBy_eq settings choice other host turns memory request⟩

/-- The third of four threads cannot be created, and the second worker fails. -/
theorem libraries_keep_one_contract_of_roll_call :
    let host : Host := ⟨4, fun _ w => w != 2, none⟩
    let crew := RollCall.crew "w" [1]
    let call : RollCall := { gate := ⟨4, .degrade, .pending⟩ }
    let left : Except Payload LaunchRecord × RollCall :=
      (.ok ⟨2, some 2, [(1, .workerFailure 1)]⟩,
        { gate := ⟨4, .degrade, .opened⟩,
          seen := [⟨0, "w-0", some true⟩, ⟨1, "w-1", some true⟩] })
    crew.run (StdThreads.launch ⟨"w", none⟩ host [0, 1, 2, 3]) call = left ∧
      crew.run (CrossbeamThreads.launch ⟨"w", none⟩ host [0, 1, 2, 3]) call = left := by
  intro host crew call left
  have hnames (w : Nat) (_ : w ∈ [0, 1, 2, 3]) :
      ThreadBuilder.nulFault? (threadName "w" w) = none :=
    (ThreadBuilder.nulFault?_threadName "w" w).mpr (by decide)
  have hcontract (library : ThreadLibrary) :=
    libraries_keep_one_contract.1 library host "w" none [0, 1, 2, 3] 2 (by decide) hnames
      (by decide) (by decide)
  have hleft (library : ThreadLibrary) :
      crew.run (library.launch "w" none host [0, 1, 2, 3]) call = left := by
    rw [(hcontract library).crew RollCall crew
      (fun w => if w ∈ [1] then some (.workerFailure w) else none) call fun _ _ => rfl]
    decide
  exact ⟨hleft .std, hleft .crossbeam⟩

end Executor

end Elementwise
