import Elementwise.Proofs.Executor.Refusal
import Elementwise.Proofs.Job.Attribution

/-!
The report of a call, worker by worker. What a worker counted as its own came from the front of its
range, what it counted as stolen came from the back of the others, and together with what the others
stole from it this makes up its range.
-/

namespace Elementwise

/-- The share of a worker with the range `span` in a call over `n` indices. -/
structure Share.Accounted (share : Share) (n : Nat) (span : Span) (c : Course) : Prop where
  stolen_le : share.tally.stolen ≤ share.tally.completed
  kept : share.tally.completed - share.tally.stolen = c.kept share.worker span
  divided : span.length = c.kept share.worker span + c.stolenFrom share.worker span
  limited : share.tally.stolen ≤ n - span.length

/-- A report on a call over `n` indices that asked for `requested` workers. It agrees with the split
and with what the deques handed out. -/
structure Report.Accounted (report : Report) (n requested : Nat) (members : List Nat) (c : Course) :
    Prop where
  elements : report.elements = n
  chunk : report.chunk = (Partition.split n requested).chunk
  requestedWorkers : report.requestedWorkers = requested
  workers : report.shares.map Share.worker = List.range (Partition.split n requested).workers
  shares : ∀ share ∈ report.shares,
    share.Accounted n ((Partition.split n requested).range share.worker) c
  unstarted : ∀ share ∈ report.shares, share.worker ∉ members → share.tally = {}
  stolen : report.stolen = c.picks.countP fun pick => pick.access = .takeBack
  completed : report.completed = n

namespace Course.Attributed

variable {spans : List Span} {c : Course}

theorem takenBy_of_over (h : c.Attributed spans) (hover : ∀ w, (c.state.phase w).isRunning = false)
    (hunwound : c.unwound = []) {w : Nat} {worker : Worker}
    (hworker : c.state.workers[w]? = some worker) (access : Access) :
    worker.tally.takenBy access =
      c.picks.countP fun pick => pick.worker = w ∧ pick.access = access := by
  have hphase := hover w
  rw [JobState.phase_eq hworker] at hphase
  rw [← h.credit hunwound w worker hworker access, Worker.credit_of_not_running hphase]

theorem total_stolen (h : c.Attributed spans) (hover : ∀ w, (c.state.phase w).isRunning = false)
    (hunwound : c.unwound = []) :
    total (fun worker => worker.tally.stolen) c.state.workers =
      c.picks.countP fun pick => pick.access = .takeBack := by
  rw [← h.credits hunwound]
  unfold total
  congr 1
  refine List.map_congr_left fun worker hworker => ?_
  obtain ⟨w, hw⟩ := Array.mem_iff_getElem?.mp (Array.mem_toList_iff.mp hworker)
  have hphase := hover w
  rw [JobState.phase_eq hw] at hphase
  exact (Worker.credit_of_not_running hphase .takeBack).symm

/-- The account of one worker once everything was handed out and every call was completed. -/
theorem share (h : c.Attributed spans) (hspans : (spans.flatMap Span.toList).Nodup)
    (hover : ∀ w, (c.state.phase w).isRunning = false) (hunwound : c.unwound = [])
    (huntaken : c.state.untakenIndices = []) {share : Share} (hshare : share ∈ c.state.shares)
    {span : Span} (hspan : spans[share.worker]? = some span) :
    share.Accounted c.taken.length span c := by
  obtain ⟨worker, hworker, htally⟩ := JobState.exists_worker_of_mem_shares hshare
  have htaken := h.takenBy_of_over hover hunwound hworker
  have hq : share.worker < c.state.deques.size := by
    rw [h.fit.sizes]
    exact JobState.lt_size hworker
  have hempty := List.flatMap_eq_nil_iff.mp huntaken _
    (Array.mem_toList_iff.mpr (Array.getElem_mem hq))
  -- the deque is empty, so that its whole range was handed out
  have hcount := h.countP_deque (Array.getElem?_eq_getElem hq) hempty hspan
  have hlimit := h.countP_takeBack_le share.worker
  rw [← htaken .takeBack, hcount, c.length_picks] at hlimit
  rw [← htally] at htaken hlimit
  refine ⟨?_, ?_, ?_, Nat.le_sub_of_add_le hlimit⟩
  · rw [htally]
    exact h.stolen_le worker (Array.mem_of_getElem? hworker)
  · rw [← h.countP_takeFront hspans hspan]
    exact htaken .takeFront
  · rw [h.kept_add_stolenFrom hspans hspan, hcount]

end Course.Attributed

namespace Executor

variable {e : Executor} {memory : Memory} {request : Request} {binding : Binding}
  {turns : List Turn} {c : Course}

theorem accounted_empty (requested : Nat) (members : List Nat) (s : JobState) :
    (Report.empty requested).Accounted 0 requested members { state := s } where
  elements := rfl
  chunk := by
    rw [Partition.chunk_split, Nat.zero_div]
    rfl
  requestedWorkers := rfl
  workers := by
    rw [Partition.workers_split_zero]
    rfl
  shares _ hshare := absurd hshare List.not_mem_nil
  unstarted _ hshare := absurd hshare List.not_mem_nil
  stolen := rfl
  completed := rfl

namespace Concluded

variable {team : Team (e.partition request.elements).workers} {outcome : Outcome}
  {report : Report}

theorem attributed (h : e.Concluded memory request binding team outcome c) :
    c.Attributed (e.partition request.elements).ranges :=
  h.keeps _ (Course.Attributed.keeps _ _) (.initial memory _ _)

/-- A call in which every index was completed has handed out every index. -/
theorem taken_of_completed (h : e.Concluded memory request binding team outcome c)
    (hcompleted : c.completed.Perm (List.range request.elements)) :
    c.taken.length = request.elements ∧ c.state.untakenIndices = [] := by
  have htaken := h.balanced.taken_append_perm.length_eq
  have hended := (h.balanced.ended_perm h.joined.not_running).1.length_eq
  have hall := hcompleted.length_eq
  rw [List.length_append, List.length_range] at htaken
  rw [List.length_append] at hended
  rw [List.length_range] at hall
  exact ⟨by omega, List.eq_nil_of_length_eq_zero (by omega)⟩

theorem accounted (h : e.Concluded memory request binding team (.returned report) c)
    (helements : 0 < request.elements) :
    report.Accounted request.elements e.requestedWorkers team.members c := by
  obtain rfl := h.report_of_returned
  have hcompleted := h.completed_of_returned helements
  obtain ⟨htaken, huntaken⟩ := h.taken_of_completed hcompleted
  have hunwound := h.joined.unwound_eq_nil h.of_returned.1
  have hover := h.joined.not_running
  have hworkers := c.state.map_worker_shares.trans (congrArg List.range h.spared.size)
  have hspans : ((e.partition request.elements).ranges.flatMap Span.toList).Nodup := by
    rw [partition, Partition.flatMap_toList_ranges]
    exact List.nodup_range
  exact {
    elements := Partition.elements_split _ _
    chunk := rfl
    requestedWorkers := rfl
    workers := hworkers
    shares := by
      intro share hshare
      have hlt : share.worker < (e.partition request.elements).workers := by
        rw [← List.mem_range, ← hworkers]
        exact List.mem_map_of_mem hshare
      have haccounted := h.attributed.share hspans hover hunwound huntaken hshare
        (Partition.getElem?_ranges hlt)
      rwa [htaken] at haccounted
    unstarted := by
      intro share hshare hout
      rw [JobState.tally_of_mem_shares hshare]
      exact h.spared.tallies share.worker (h.joined.manned.idle share.worker hout)
    stolen := (stolen_report ..).trans (h.attributed.total_stolen hover hunwound)
    completed := h.counted hcompleted _ }

end Concluded

/-- Whatever team was started and in whatever order the turns were taken, the report of a call that
returns accounts for every index. -/
theorem report_accounts_for_every_index (e : Executor) (memory : Memory) (request : Request)
    (team : Team (e.partition request.elements).workers) (turns : List Turn) (report : Report)
    (c : Course)
    (hscheduled : e.scheduled team.plan turns memory request = some (.returned report, c)) :
    report.Accounted request.elements e.requestedWorkers team.members c := by
  cases hbinding : Binding.ofOperands? request.kernel request.operands with
  | error reason =>
      rw [scheduled_of_error hbinding] at hscheduled
      cases hscheduled
  | ok binding =>
      rcases Nat.eq_zero_or_pos request.elements with hzero | hpos
      · rw [scheduled_of_empty hbinding hzero] at hscheduled
        cases hscheduled
        generalize team.members = members
        rw [hzero]
        exact accounted_empty ..
      · exact (concluded_of_scheduled hbinding hpos hscheduled).accounted hpos

/-- The first of two workers does everything before the second one looks. It keeps the one index of
its own range and steals both of the other. -/
theorem report_accounts_for_every_index_of_stolen_range :
    ∃ turns report c,
      twoWorkers.scheduled (Team.all 2).plan turns .reversedSum (.reversedSum fun _ => none) =
        some (.returned report, c) ∧
      report.Accounted 3 2 [0, 1] c ∧ report.stolen = 2 := by
  let turns : List Turn := [.launcher, .launcher, .launcher] ++
    (List.replicate 15 0 ++ List.replicate 3 1).map .worker ++ [.launcher, .launcher]
  have hrun : (Launching.run (twoWorkers.job (.reversedSum fun _ => none) .reversedSum) turns
        { todo := (Team.all 2).plan,
          course := twoWorkers.opening .reversedSum (twoWorkers.partition 3) }).any fun l =>
      l.todo.ending? = some (.ok ⟨2, none, []⟩) ∧ l.course.state.aborted = none ∧
        (twoWorkers.report (twoWorkers.partition 3) 2 l.course.state).completed = 3 ∧
        (twoWorkers.report (twoWorkers.partition 3) 2 l.course.state).stolen = 2 := by
    decide +kernel
  obtain ⟨l, hrun, hlast⟩ := (Option.any_eq_true _ _).mp hrun
  obtain ⟨hending, haborted, hcompleted, hstolen⟩ := of_decide_eq_true hlast
  have hscheduled := scheduled_eq_returned twoWorkers .reversedSum (.reversedSum fun _ => none)
    (Team.all 2) rfl (by decide) hrun hending haborted hcompleted
  have haccounted := report_accounts_for_every_index twoWorkers .reversedSum
    (.reversedSum fun _ => none) (Team.all 2) turns _ l.course hscheduled
  exact ⟨turns, _, l.course, hscheduled, haccounted, hstolen⟩

end Executor

end Elementwise
