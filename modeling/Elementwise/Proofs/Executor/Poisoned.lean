import Elementwise.Proofs.Executor.Unwinding
import Elementwise.Proofs.Job.Poison
import Elementwise.Proofs.Launch.Progress

/-!
Calls in front of a broken deque. If the lock of some deque is poisoned before the gate opens, no
worker comes to a good end, and the call passes on the breach that they found.
-/

namespace Elementwise

namespace Executor

variable {e : Executor} {memory : Memory} {request : Request} {binding : Binding}
  {broken : Nat → Bool} {team : Team (e.partition request.elements).workers} {turns : List Turn}
  {outcome : Outcome} {c : Course} {l : Launching}

/-- The launch of a call some of whose deques are broken. -/
def besieged (e : Executor) (broken : Nat → Bool) (plan : Launch LaunchRecord) (memory : Memory)
    (request : Request) : Launching where
  todo := plan
  course := { state := (e.opening memory (e.partition request.elements)).state.poison broken }

theorem besieged_steady (hpolicy : e.settings.onBreach = .unwind) :
    (e.besieged broken team.plan memory request).Steady (e.job request binding) team
      (e.gate (e.partition request.elements)) := by
  let p := e.partition request.elements
  have hidle (w : Nat) :
      ((JobState.initial memory (e.gate p) p.ranges).poison broken).phase w = .idle :=
    JobState.phase_initial memory (e.gate p) p.ranges w
  have hfit := (JobState.fit_initial memory (e.gate p) p.ranges).poison broken
  have hsize := (JobState.size_workers_initial memory (e.gate p) p.ranges).trans p.length_ranges
  have hlasting := (JobState.Unbroken.initial memory (e.gate p) p.ranges).lasting
    (e.job request binding)
  exact ⟨.of_idle team hidle hfit.sizes hsize, rfl, hlasting.poison hpolicy broken, hfit⟩

/-- No worker of such a call finishes, and a worker that has died found the breach. -/
theorem barred_of_run (hpolicy : e.settings.onBreach = .unwind)
    (hkernel : ∀ index, request.unwinding index = none)
    (hopens : (e.gate (e.partition request.elements)).opensFor team.members.length = true)
    {first : Nat} (hfirst : first < (e.partition request.elements).workers)
    (hbroken : broken first = true)
    (hrun : (e.besieged broken team.plan memory request).run (e.job request binding) turns =
      some l) :
    l.course.Barred (e.besieged broken team.plan memory request).course.state broken first := by
  let p := e.partition request.elements
  have hdamaged : JobState.Damaged (e.job request binding)
      ((JobState.initial memory (e.gate p) p.ranges).poison broken) broken first :=
    JobState.damaged_initial memory (e.gate p) hpolicy hkernel (p.length_ranges ▸ hfirst) hbroken
  exact (besieged_steady hpolicy).keepsOnce_run (Course.Barred.keepsOnce hdamaged) hopens
    (.initial memory (e.gate p) p.ranges) hrun

theorem outcome_of_besieged (hpolicy : e.settings.onBreach = .unwind)
    (hkernel : ∀ index, request.unwinding index = none)
    (hopens : (e.gate (e.partition request.elements)).opensFor team.members.length = true)
    {first : Nat} (hfirst : first < (e.partition request.elements).workers)
    (hbroken : broken first = true)
    (hrun : (e.besieged broken team.plan memory request).run (e.job request binding) turns =
      some l) {ending : Except Payload LaunchRecord} (hending : l.todo.ending? = some ending) :
    e.conclude (e.partition request.elements) ending l.course.state =
      .unwound (.breach (.lockProtocol Lock.poisoned)) := by
  have hsteady := (besieged_steady hpolicy).run hrun
  have hbarred := barred_of_run hpolicy hkernel hopens hfirst hbroken hrun
  obtain ⟨hjoined, rfl⟩ := hsteady.stage.joined hending
  -- the gate only opens for a team with a member, and this one is lost
  have hlosses : l.course.state.losses team.members ≠ [] := by
    obtain ⟨w, hw⟩ := List.exists_mem_of_length_pos
      (Gate.pos_of_opensFor (Nat.zero_lt_of_lt hfirst) hopens)
    intro hnil
    rcases hjoined.finished_or_lost hw with hfinished | ⟨cause, hlost⟩
    · exact hbarred.unfinished w hfinished
    · rw [hnil] at hlost
      exact absurd hlost List.not_mem_nil
  obtain ⟨w, cause, hlost, hconclude, -⟩ :=
    conclude_of_losses hsteady.lasting.aborted hjoined.not_running hlosses
  obtain ⟨held, hdead⟩ := JobState.dead_of_mem_losses hlost
  obtain ⟨-, rfl⟩ := hbarred.dead hdead
  exact hconclude

/-- Some deques of a job are broken when its gate opens. Whatever the team, its workers take a
bounded number of steps, none of them finishes, and each ends with the breach that it found, having
called no index again and got no further than the first broken deque of its first sweep. So a call
in which this happens comes to its end, and passes on the breach. -/
theorem poisoned_deque_fails_call :
    (∀ (job : Job) (memory : Memory) (gate : Gate) (spans : List Span) (broken : Nat → Bool)
        (team turns : List Nat) (c : Course),
      job.onBreach = .unwind → (∀ index, job.unwinding index = none) → gate.isOpen = true →
      (spans.Pairwise fun a b => List.Disjoint a.toList b.toList) →
      (∀ w ∈ team, w < spans.length) → (∃ q < spans.length, broken q = true) →
      job.follow (team.map .start ++ turns.map .step)
          { state := (JobState.initial memory gate spans).poison broken } = some c →
        c.Foiled ((JobState.initial memory gate spans).poison broken) broken team ∧
          turns.length ≤ (2 * spans.length + 6) * (spans.flatMap Span.toList).length +
            team.length * (2 * spans.length + 4)) ∧
    ∀ (e : Executor) (memory : Memory) (request : Request) (binding : Binding)
        (broken : Nat → Bool) (team : Team (e.partition request.elements).workers),
      Binding.ofOperands? request.kernel request.operands = .ok binding →
      e.settings.onBreach = .unwind → (∀ index, request.unwinding index = none) →
      (e.gate (e.partition request.elements)).opensFor team.members.length = true →
      (∃ q < (e.partition request.elements).workers, broken q = true) →
        (∃ bound, ∀ turns l,
          (e.besieged broken team.plan memory request).run (e.job request binding) turns =
            some l →
          turns.length ≤ bound ∧ ∃ more outcome c,
            e.scheduledFrom (.poison broken) team.plan (turns ++ more) memory request =
              some (outcome, c)) ∧
        ∀ turns outcome c,
          e.scheduledFrom (.poison broken) team.plan turns memory request = some (outcome, c) →
          outcome = .unwound (.breach (.lockProtocol Lock.poisoned)) := by
  refine ⟨?_, ?_⟩
  · intro job memory gate spans broken team turns c hpolicy hkernel hopen hdisjoint hteam hbroken
      hfollow
    exact Job.foiled_of_team hpolicy hkernel hopen hdisjoint hteam hbroken hfollow
  · rintro e memory request binding broken team hbinding hpolicy hkernel hopens ⟨q, hq, hbroken⟩
    have helements : 0 < request.elements := by
      refine Nat.pos_of_ne_zero fun hzero => ?_
      rw [hzero, partition, Partition.workers_split_zero] at hq
      cases hq
    refine ⟨⟨(e.besieged broken team.plan memory request).effort, ?_⟩, ?_⟩
    · intro turns l hrun
      obtain ⟨hle, more, last, ending, hmore, hending⟩ := (besieged_steady hpolicy).ends hrun
      exact ⟨hle, more, _, last.course, scheduledFrom_of_run hbinding helements hmore hending⟩
    · intro turns outcome c hscheduled
      obtain ⟨l, ending, hrun, hending, rfl, houtcome⟩ :=
        run_of_scheduledFrom hbinding helements hscheduled
      rw [houtcome]
      exact outcome_of_besieged hpolicy hkernel hopens hq hbroken hrun hending

/-- The last of three deques is broken. The first worker has done its own index and stolen one
before it finds out, and nobody finishes; nor does a call for two workers with both deques broken.
-/
theorem poisoned_deque_fails_call_of_three :
    (∃ c, Job.follow { Job.reversedSum (fun _ => none) with onBreach := .unwind }
        ([0, 1, 2].map .start ++
          (List.replicate 11 0 ++ List.replicate 2 2 ++ List.replicate 4 1).map .step)
        { state := (JobState.initial .reversedSum ⟨3, .abort, .opened⟩
          [⟨0, 1⟩, ⟨1, 2⟩, ⟨2, 3⟩]).poison (· == 2) } = some c ∧
      (c.state.tally 0).stolen = 1 ∧
      ∀ w ∈ [0, 1, 2], c.state.phase w = .dead none (.breach (.lockProtocol Lock.poisoned))) ∧
    ∃ turns c, scheduledFrom
        { twoWorkers with settings := { workers := some 2, onBreach := .unwind } }
        (.poison fun _ => true) (Team.all 2).plan turns .reversedSum (.reversedSum fun _ => none) =
      some (.unwound (.breach (.lockProtocol Lock.poisoned)), c) := by
  have h := poisoned_deque_fails_call
  constructor
  · have hrun : ∃ c, Job.follow { Job.reversedSum (fun _ => none) with onBreach := .unwind }
        ([0, 1, 2].map .start ++
          (List.replicate 11 0 ++ List.replicate 2 2 ++ List.replicate 4 1).map .step)
        { state := (JobState.initial .reversedSum ⟨3, .abort, .opened⟩
          [⟨0, 1⟩, ⟨1, 2⟩, ⟨2, 3⟩]).poison (· == 2) } = some c ∧
      (c.state.tally 0).stolen = 1 ∧ ∀ w ∈ [0, 1, 2], c.state.isReady w = false :=
      ⟨_, rfl, by decide, by decide⟩
    obtain ⟨c, hfollow, hstolen, hstill⟩ := hrun
    have hordered : [(⟨0, 1⟩ : Span), ⟨1, 2⟩, ⟨2, 3⟩].Pairwise fun a b => a.upper ≤ b.lower := by
      decide
    have hdisjoint := hordered.imp fun hle => Span.disjoint_toList hle
    have hfoiled := (h.1 _ _ _ _ _ [0, 1, 2] _ c rfl (fun _ => rfl) rfl hdisjoint (by decide)
      ⟨2, by decide, rfl⟩ hfollow).1
    refine ⟨c, hfollow, hstolen, fun w hw => (hfoiled.ends w hw).resolve_right fun hready => ?_⟩
    rw [hstill w hw] at hready
    cases hready
  · obtain ⟨⟨bound, hends⟩, houtcome⟩ := h.2
      { twoWorkers with settings := { workers := some 2, onBreach := .unwind } } .reversedSum
      (.reversedSum fun _ => none) .reversedSum (fun _ => true) (Team.all 2) rfl rfl (fun _ => rfl)
      (by decide) ⟨0, by decide, rfl⟩
    obtain ⟨-, turns, outcome, c, hscheduled⟩ := hends [] _ rfl
    obtain rfl := houtcome turns outcome c hscheduled
    exact ⟨turns, c, hscheduled⟩

end Executor

end Elementwise
