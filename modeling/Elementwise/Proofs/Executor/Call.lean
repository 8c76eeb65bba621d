import Elementwise.Executor
import Elementwise.Proofs.Job.Balance
import Elementwise.Proofs.Range.Partition

/-!
Calls whose launch is left open: what is done before the launch, and how the outcome is drawn from
what the launch reports and leaves behind.
-/

namespace Elementwise

theorem JobState.foldr_shares (counter : Tally → Nat) (s : JobState) :
    s.shares.foldr (fun share sum => counter share.tally + sum) 0 =
      total (fun worker => counter worker.tally) s.workers := by
  have hcount (workers : List Worker) (first : Nat) :
      (((workers.zipIdx first).map fun entry => (⟨entry.2, entry.1.tally⟩ : Share)).foldr
          (fun share sum => counter share.tally + sum) 0) =
        (workers.map fun worker => counter worker.tally).sum := by
    induction workers generalizing first with
    | nil => rfl
    | cons worker workers ih =>
        rw [List.zipIdx_cons, List.map_cons, List.foldr_cons, ih (first + 1), List.map_cons,
          List.sum_cons]
  exact hcount s.workers.toList 0

instance : HoldsJob Course where
  ofState state := { state }
  state := Course.state

namespace Executor

/-- A job that has not begun: nobody has started and the gate is not settled. -/
def opening (e : Executor) (memory : Memory) (p : Partition) : Course where
  state := .initial memory (e.gate p) p.ranges

theorem balanced_opening (e : Executor) (memory : Memory) (elements : Nat) :
    (e.opening memory (e.partition elements)).Balanced (List.range elements) := by
  have hbooks := Course.Balanced.initial memory (e.gate (e.partition elements))
    (e.partition elements).ranges
  rwa [partition, Partition.flatMap_toList_ranges] at hbooks

variable {e : Executor} {memory : Memory} {request : Request} {binding : Binding}
  {launch : Job → Partition → Course → Option (Except Payload LaunchRecord × Course)}

theorem call_of_pos
    (hbinding : Binding.ofOperands? request.kernel request.operands = .ok binding)
    (helements : 0 < request.elements) :
    e.call memory request launch =
      (launch (e.job request binding) (e.partition request.elements)
        (e.opening memory (e.partition request.elements))).map fun (ending, c) =>
          (e.conclude (e.partition request.elements) ending c.state, c) := by
  have hworkers : (e.partition request.elements).workers ≠ 0 :=
    Nat.ne_of_gt (Partition.workers_pos helements)
  simp only [call, hbinding, hworkers, if_false]
  exact Option.map_eq_bind.symm

theorem call_of_empty
    (hbinding : Binding.ofOperands? request.kernel request.operands = .ok binding)
    (helements : request.elements = 0) :
    e.call memory request launch =
      some (.returned (.empty e.requestedWorkers), { state := (Session.idle memory).state }) := by
  have hworkers : (e.partition request.elements).workers = 0 := by
    rw [helements]
    exact Partition.workers_split_zero e.requestedWorkers
  simp only [call, hbinding, hworkers, if_true]
  rfl

theorem call_of_error {reason : Rejection}
    (hbinding : Binding.ofOperands? request.kernel request.operands = .error reason) :
    e.call memory request launch =
      some (.failed (.rejected reason), { state := (Session.idle memory).state }) := by
  simp only [call, hbinding]
  rfl

/-- The executor's own calls are among them: those by its launcher, in which each worker runs to its
end when it is joined. -/
theorem run_eq_call (e : Executor) (memory : Memory) (request : Request) :
    some ((e.run memory request).outcome, { state := (e.run memory request).session.state }) =
      e.call memory request fun job p (opening : Course) =>
        let (ending, session) := (crew job request.hooks).run (e.launcher.plan e.host p.workers)
          { state := opening.state }
        some (ending, { state := session.state }) := by
  unfold run call
  cases Binding.ofOperands? request.kernel request.operands with
  | error reason => rfl
  | ok binding =>
      by_cases hworkers : (e.partition request.elements).workers = 0
      · simp only [hworkers, if_true]
        rfl
      · simp only [hworkers, if_false]
        rfl

/-- Once nobody is running the outcome only depends on what the launch reported and on the counters.
-/
theorem conclude_eq_of_over {p : Partition} {record : LaunchRecord} {s : JobState}
    (haborted : s.aborted = none) (hover : ∀ w, (s.phase w).isRunning = false) :
    e.conclude p (.ok record) s =
      match record.payloads with
      | (_, cause) :: _ => .unwound cause
      | [] =>
          match record.refused with
          | none => e.verify (e.report p record.spawned s)
          | some worker =>
              if s.gate.isOpen then e.verify (e.report p record.spawned s)
              else .failed (.threadSpawn worker p.workers) := by
  unfold conclude
  rw [haborted, JobState.any_isRunning_eq_false.mpr hover]
  rfl

theorem conclude_eq_returned {p : Partition} {ending : Except Payload LaunchRecord} {s : JobState}
    {report : Report} (h : e.conclude p ending s = .returned report) :
    ∃ record, ending = .ok record ∧ record.payloads = [] ∧
      (record.refused = none ∨ s.gate.isOpen = true) ∧
        e.verify (e.report p record.spawned s) = .returned report := by
  unfold conclude at h
  split at h
  · cases h
  · split at h
    · cases h
    · split at h
      · cases h
      · rename_i record
        refine ⟨record, rfl, ?_⟩
        split at h
        · cases h
        · rename_i hpayloads
          refine ⟨hpayloads, ?_⟩
          split at h
          · rename_i hrefused
            exact ⟨.inl hrefused, h⟩
          · split at h
            · rename_i hopen
              exact ⟨.inr hopen, h⟩
            · cases h

/-- How a call ends in which the executor itself finds a breach. -/
def raised (e : Executor) (cause : Breach) : Outcome :=
  match e.settings.onBreach with
  | .abort => .aborted cause
  | .unwind => .unwound (.breach cause)

theorem verify_of_ne {report : Report} (hverify : e.settings.verifyCompletion = true)
    (hcompleted : report.completed ≠ report.elements) :
    e.verify report = e.raised (.consistency report.elements report.completed) := by
  rw [verify, if_pos ⟨hverify, hcompleted⟩]
  rfl

theorem verify_of_eq {report : Report} (hcompleted : report.completed = report.elements) :
    e.verify report = .returned report := by
  rw [verify, if_neg fun h => h.2 hcompleted]

theorem verify_cases (e : Executor) (report : Report) :
    e.verify report = .returned report ∨ ∃ cause, e.verify report = e.raised cause := by
  unfold verify
  split
  · exact .inr ⟨_, rfl⟩
  · exact .inl rfl

theorem verify_eq_returned {report report' : Report} (h : e.verify report = .returned report') :
    report' = report := by
  rcases e.verify_cases report with hverify | ⟨cause, hverify⟩
  · rw [hverify] at h
    cases h
    rfl
  · rw [hverify, raised] at h
    split at h <;> cases h

theorem verify_ne_failed (report : Report) (cause : Failure) : e.verify report ≠ .failed cause := by
  rcases e.verify_cases report with hverify | ⟨found, hverify⟩
  · rw [hverify]
    exact Outcome.noConfusion
  · rw [hverify, raised]
    split <;> exact Outcome.noConfusion

/-- After a launch a call only fails for want of a thread, and only behind a gate that is closed. -/
theorem conclude_eq_failed {p : Partition} {ending : Except Payload LaunchRecord} {s : JobState}
    {cause : Failure} (h : e.conclude p ending s = .failed cause) :
    ∃ record w, ending = .ok record ∧ cause = .threadSpawn w p.workers ∧
      record.refused = some w ∧ s.gate.isOpen = false := by
  unfold conclude at h
  split at h
  · cases h
  · split at h
    · cases h
    · split at h
      · cases h
      · rename_i record
        split at h
        · cases h
        · split at h
          · exact absurd h (verify_ne_failed _ cause)
          · rename_i w hrefused
            split at h
            · exact absurd h (verify_ne_failed _ cause)
            · rename_i hclosed
              cases h
              exact ⟨record, w, rfl, rfl, hrefused, Bool.eq_false_of_not_eq_true hclosed⟩

theorem completed_report (e : Executor) (p : Partition) (spawned : Nat) (s : JobState) :
    (e.report p spawned s).completed = total (fun worker => worker.tally.completed) s.workers :=
  s.foldr_shares Tally.completed

theorem stolen_report (e : Executor) (p : Partition) (spawned : Nat) (s : JobState) :
    (e.report p spawned s).stolen = total (fun worker => worker.tally.stolen) s.workers :=
  s.foldr_shares Tally.stolen

end Executor

/-- An executor for two workers. -/
def Executor.twoWorkers : Executor := ⟨{ workers := some 2 }, .ofSettings {}, .ordinary 2⟩

/-- A call for the sum of two rows of three bytes, under a kernel that may unwind. -/
def Request.reversedSum (unwinding : Nat → Option Payload) : Request where
  kernel := .ofFormula .add .int8
  operands := ⟨[⟨2, -1⟩, ⟨3, 0⟩], ⟨4, 1⟩, by decide⟩
  elements := 3
  unwinding := unwinding

/-- This call under a kernel that unwinds at the middle sum. -/
def Request.middleUnwinding : Request :=
  .reversedSum fun index => if index = 1 then some (.kernelFailure 1) else none

end Elementwise
