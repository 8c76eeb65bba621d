import Elementwise.Proofs.Job.Exclusion
import Elementwise.Proofs.Range.Partition

/-!
Runs in small steps and runs of a job. An operation takes effect when it writes the bounds, and from
outside all of it seems to happen there: whatever the workers do in small steps, they also do in a
run of the job in which each operation is one step. So what holds of all runs of the job holds of
all interleavings.
-/

namespace Elementwise

/-- The worker as if its operation had come back, if that has taken effect. -/
def Worker.received (self count : Nat) (worker : Worker) : Deque.Stage → Worker
  | .leaving (.index found) => { worker with phase := worker.phase.receive self count found }
  | _ => worker

namespace JobState

/-- The job as if every operation that has taken effect had come back and no other had begun. -/
def whole (stages : Nat → Deque.Stage) (s : JobState) : JobState :=
  { s.freed with
    workers := s.workers.mapIdx fun w worker => worker.received w s.workers.size (stages w) }

variable {s : JobState} {w : Nat} {stages : Nat → Deque.Stage}

theorem workers_whole {worker : Worker} (hworker : s.workers[w]? = some worker) :
    (s.whole stages).workers[w]? = some (worker.received w s.workers.size (stages w)) := by
  simp [whole, hworker]

theorem deques_whole {q : Nat} {deque : Deque} (hdeque : s.deques[q]? = some deque) :
    (s.whole stages).deques[q]? = some deque.freed := by
  simp [whole, freed, hdeque]

theorem unseen_whole (hstage : stages w = .entering) : Unseen w (whole stages) := by
  constructor
  · intro s
    rcases hworker : s.workers[w]? with - | worker
    · simp [whole, hworker]
    · rw [workers_whole hworker, hstage]
      rfl
  · exact fun s => Array.size_mapIdx
  · exact fun s => rfl
  · exact fun s => rfl
  · exact fun s memory => rfl
  · exact fun s calls => rfl
  · intro s worker phase
    simp only [whole, setPhase, freed, Array.size_setIfInBounds, Array.mapIdx_setIfInBounds, hstage]
    rfl

theorem whole_of_entering (hstages : ∀ w, stages w = .entering)
    (hfree : ∀ deque ∈ s.deques, deque.lock = ⟨Lock.free⟩) : s.whole stages = s := by
  have hdeques : s.deques.map Deque.freed = s.deques := by
    apply Array.ext_getElem?
    intro q
    rcases hdeque : s.deques[q]? with - | ⟨lock, bounds⟩
    · simp [hdeque]
    · obtain rfl := hfree _ (Array.mem_of_getElem? hdeque)
      simp [hdeque, Deque.freed]
  have hworkers : (s.workers.mapIdx fun w worker =>
      worker.received w s.workers.size (stages w)) = s.workers := by
    apply Array.ext_getElem?
    intro w
    rcases hworker : s.workers[w]? with - | worker
    · simp [hworker]
    · simp [hworker, hstages, Worker.received]
  rw [whole, hworkers, freed, hdeques]

theorem map_freed_setIfInBounds {deques : Array Deque} {q : Nat} {deque : Deque}
    (hdeque : deques[q]? = some deque) (lock : Lock) :
    (deques.setIfInBounds q { deque with lock }).map Deque.freed = deques.map Deque.freed := by
  rw [Array.map_setIfInBounds]
  exact setIfInBounds_self (by simp [hdeque, Deque.freed])

/-- A worker and how far its operation has come count for its own entry only. -/
theorem whole_update (stages : Nat → Deque.Stage) (w : Nat) (stage : Deque.Stage) (s : JobState)
    (deques : Array Deque) (new : Worker) :
    { s with deques, workers := s.workers.setIfInBounds w new }.whole
        (Function.update stages w stage) =
      { s.whole stages with
        deques := deques.map Deque.freed
        workers :=
          (s.whole stages).workers.setIfInBounds w (new.received w s.workers.size stage) } := by
  have hworkers : ((s.workers.setIfInBounds w new).mapIdx fun u worker =>
        worker.received u s.workers.size (Function.update stages w stage u)) =
      (s.whole stages).workers.setIfInBounds w (new.received w s.workers.size stage) := by
    rw [Array.mapIdx_setIfInBounds, Function.update_self]
    apply Array.ext_getElem?
    intro u
    by_cases hu : u = w
    · subst hu
      simp [whole, Array.getElem?_setIfInBounds]
    · simp [whole, Array.getElem?_setIfInBounds_ne (Ne.symm hu), Function.update_of_ne hu]
  rw [← hworkers]
  simp only [whole, freed, Array.size_setIfInBounds]

theorem whole_update_stage {worker : Worker} (hworker : s.workers[w]? = some worker)
    (stages : Nat → Deque.Stage) (stage : Deque.Stage) (deques : Array Deque) :
    { s with deques }.whole (Function.update stages w stage) =
      { s.whole stages with
        deques := deques.map Deque.freed
        workers :=
          (s.whole stages).workers.setIfInBounds w (worker.received w s.workers.size stage) } := by
  have hupdate := whole_update stages w stage s deques worker
  rw [setIfInBounds_self hworker] at hupdate
  exact hupdate

theorem whole_with_same {worker : Worker} (hworker : s.workers[w]? = some worker)
    (stages : Nat → Deque.Stage) :
    { s.whole stages with
      deques := s.deques.map Deque.freed
      workers := (s.whole stages).workers.setIfInBounds w
        (worker.received w s.workers.size (stages w)) } = s.whole stages := by
  rw [setIfInBounds_self (workers_whole hworker)]
  rfl

end JobState

namespace Interleaving

variable {job : Job} {v v' : Interleaving} {w q : Nat}

def whole (v : Interleaving) : JobState := v.state.whole v.stages

/-- An operation takes effect in one step, and none of its other steps is seen. -/
theorem Operation.whole (h : Operation v w q v') (hsound : v.Sound) (job : Job) :
    v'.whole = v.whole ∨ job.step v.whole w = some v'.whole := by
  cases h with
  | @acquire access deque haccess hdeque hstage hlock =>
      left
      obtain ⟨worker, hworker, -⟩ := JobState.exists_worker_of_access haccess
      have hsame := JobState.whole_with_same hworker v.stages
      rw [hstage] at hsame
      rw [Interleaving.whole, JobState.whole_update_stage hworker,
        JobState.map_freed_setIfInBounds hdeque]
      exact hsame
  | @read access deque haccess hdeque hstage =>
      left
      obtain ⟨worker, hworker, -⟩ := JobState.exists_worker_of_access haccess
      have hsame := JobState.whole_with_same hworker v.stages
      rw [hstage] at hsame
      exact (JobState.whole_update_stage hworker v.stages _ _).trans hsame
  | @write access deque seen rest found haccess hdeque hstage happly =>
      right
      -- nobody else has been inside, so the worker takes from the bounds as they are now
      have hseen := hsound.seen w q seen deque hstage (inside?_of_stage haccess hstage rfl) hdeque
      obtain ⟨worker, hworker, haccess⟩ := JobState.exists_worker_of_access haccess
      have hbefore : v.whole.workers[w]? = some worker := by
        rw [Interleaving.whole, JobState.workers_whole hworker, hstage]
        rfl
      have hdeques : v.whole.deques[q]? = some deque.freed := JobState.deques_whole hdeque
      have haborted : v.whole.aborted = none := hsound.aborted
      have hsize : v.whole.workers.size = v.state.workers.size := Array.size_mapIdx
      rw [Job.step_of_free haborted hbefore haccess hdeques rfl (hseen ▸ happly), hsize]
      refine congrArg some (Eq.trans ?_ (JobState.whole_update_stage hworker v.stages _ _).symm)
      rw [Array.map_setIfInBounds]
      rfl
  | @release worker access deque found hworker haccess hdeque hstage hlock =>
      left
      have hsame := JobState.whole_with_same hworker v.stages
      rw [hstage] at hsame
      rw [Interleaving.whole, JobState.setPhase, JobState.whole_update,
        JobState.map_freed_setIfInBounds hdeque]
      exact hsame

/-- What happens to the job when something happens in small steps, if anything does. -/
def Event.whole : Event → Elementwise.Event
  | .start w => .start w
  | .settle started => .settle started
  | .step w _ => .step w

namespace Sound

theorem whole_step (h : v.Sound) {spurious : Bool} (hstep : v.step job w spurious = some v') :
    v'.whole = v.whole ∨ job.step v.whole w = some v'.whole := by
  rcases h.step_cases hstep with ⟨hquiet, s', hs', rfl⟩ | rfl | ⟨q, hoperation⟩
  · right
    rw [Interleaving.whole, Job.step_of_unseen (JobState.unseen_whole (h.outside w hquiet)) hquiet,
      hs']
    rfl
  · exact .inl rfl
  · exact hoperation.whole h job

theorem whole_occur (h : v.Sound) {event : Event} (hoccur : v.occur job event = some v')
    (deeds : List Deed) :
    v'.whole = v.whole ∨
      ∃ later, job.occur ⟨v.whole, deeds⟩ event.whole = some ⟨v'.whole, later⟩ := by
  cases event with
  | start w =>
      simp only [Interleaving.occur] at hoccur
      split at hoccur
      · cases hoccur
      · rename_i hrunning
        cases hoccur
        have hunseen := JobState.unseen_whole
          (h.outside w (Phase.access?_of_not_running (Bool.eq_false_of_not_eq_true hrunning)))
        right
        refine ⟨deeds, ?_⟩
        simp only [Job.occur, Event.whole, Interleaving.whole, hunseen.phase_eq, hunseen.start,
          hrunning]
        rfl
  | settle started =>
      cases hoccur
      exact .inr ⟨deeds, rfl⟩
  | step w spurious =>
      refine (h.whole_step hoccur).imp id fun hstep => ?_
      rw [Event.whole, Job.occur, hstep]
      exact ⟨_, rfl⟩

theorem whole_follow (h : v.Sound) {events : List Event}
    (hfollow : Interleaving.follow job events v = some v') (deeds : List Deed) :
    ∃ whole later, whole.Sublist (events.map Event.whole) ∧
      job.follow whole ⟨v.whole, deeds⟩ = some ⟨v'.whole, later⟩ := by
  induction events generalizing v deeds with
  | nil =>
      cases hfollow
      exact ⟨[], deeds, .slnil, rfl⟩
  | cons event rest ih =>
      obtain ⟨middle, hoccur, hrest⟩ := Option.bind_eq_some_iff.mp hfollow
      rcases h.whole_occur hoccur deeds with hsame | ⟨noted, hwhole⟩
      · obtain ⟨whole, later, hsublist, hrun⟩ := ih (h.occur hoccur) hrest deeds
        rw [hsame] at hrun
        exact ⟨whole, later, hsublist.cons _, hrun⟩
      · obtain ⟨whole, later, hsublist, hrun⟩ := ih (h.occur hoccur) hrest noted
        refine ⟨event.whole :: whole, later, hsublist.cons_cons _, ?_⟩
        rw [Job.follow, hwhole]
        exact hrun

theorem free_of_entering (h : v.Sound) (hstages : ∀ w, v.stages w = .entering) {deque : Deque}
    (hdeque : v.state.deques[q]? = some deque) : deque.lock = ⟨Lock.free⟩ := by
  rcases h.locks q deque hdeque with ⟨hfree, -⟩ | ⟨-, u, hinside⟩
  · exact hfree
  · rw [inside?_of_entering (hstages u)] at hinside
    cases hinside

/-- When no operation is under way the job is seen as it is. -/
theorem whole_eq (h : v.Sound) (hstages : ∀ w, v.stages w = .entering) : v.whole = v.state := by
  refine JobState.whole_of_entering hstages fun deque hdeque => ?_
  obtain ⟨q, hq⟩ := Array.getElem?_of_mem hdeque
  exact h.free_of_entering hstages hq

end Sound

theorem follow_operation (haborted : v.state.aborted = none) {worker : Worker} {access : Access}
    {bounds rest : Span} {found : Option Nat} (hworker : v.state.workers[w]? = some worker)
    (haccess : worker.phase.access? w = some (q, access))
    (hdeque : v.state.deques[q]? = some ⟨⟨Lock.free⟩, bounds⟩) (hstage : v.stages w = .entering)
    (happly : access.apply bounds = (.index found, rest)) :
    follow job (List.replicate 4 (.step w false)) v = some {
      state := { v.state with
        deques := v.state.deques.setIfInBounds q ⟨⟨Lock.free⟩, rest⟩ }.setPhase w worker
          (worker.phase.receive w v.state.workers.size found)
      stages := v.stages
      exchanges := v.exchanges ++ [⟨w, q, .acquire⟩, ⟨w, q, .release⟩] } := by
  have hlt : q < v.state.deques.size := (Array.getElem?_eq_some_iff.mp hdeque).1
  have hphase : (v.state.phase w).access? w = some (q, access) := by
    rw [JobState.phase_eq hworker]
    exact haccess
  have hfound (deque : Deque) : (v.state.deques.setIfInBounds q deque)[q]? = some deque :=
    Array.getElem?_setIfInBounds_self_of_lt hlt
  have hacquire := (Operation.acquire hphase hdeque hstage rfl).step haborted job
  have hread := (Operation.read (v := {
      state := { v.state with deques := v.state.deques.setIfInBounds q ⟨⟨Lock.held⟩, bounds⟩ }
      stages := Function.update v.stages w .reading
      exchanges := v.exchanges ++ [⟨w, q, .acquire⟩] })
    hphase (hfound _) (Function.update_self ..)).step haborted job
  have hwrite := (Operation.write (v := {
      state := { v.state with deques := v.state.deques.setIfInBounds q ⟨⟨Lock.held⟩, bounds⟩ }
      stages := Function.update v.stages w (.writing bounds)
      exchanges := v.exchanges ++ [⟨w, q, .acquire⟩] })
    hphase (hfound _) (Function.update_self ..) happly).step haborted job
  have hrelease := (Operation.release (v := {
      state := { v.state with deques := v.state.deques.setIfInBounds q ⟨⟨Lock.held⟩, rest⟩ }
      stages := Function.update v.stages w (.leaving (.index found))
      exchanges := v.exchanges ++ [⟨w, q, .acquire⟩] })
    hworker haccess (hfound _) (Function.update_self ..) rfl).step haborted job
  simp only [Function.update_idem, Array.setIfInBounds_setIfInBounds] at hread hwrite hrelease
  simp only [List.replicate, follow, occur, hacquire, hread, hwrite, hrelease, Option.bind_some,
    ← hstage, Function.update_eq_self, List.append_assoc]
  rfl

namespace Sound

theorem exists_follow_of_step (h : v.Sound) (hstages : ∀ w, v.stages w = .entering) {s' : JobState}
    (hstep : job.step v.state w = some s') :
    ∃ events v', Interleaving.follow job events v = some v' ∧ v'.state = s' ∧
      v'.stages = v.stages := by
  rcases haccess : (v.state.phase w).access? w with - | ⟨q, access⟩
  · refine ⟨[.step w false], { v with state := s' }, ?_, rfl, rfl⟩
    simp [Interleaving.follow, Interleaving.occur, step_of_quiet haccess, hstep]
  · obtain ⟨⟨lock, bounds⟩, hdeque⟩ := h.exists_deque haccess
    obtain rfl : lock = ⟨Lock.free⟩ := h.free_of_entering hstages hdeque
    obtain ⟨worker, hworker, hphase⟩ := JobState.exists_worker_of_access haccess
    obtain ⟨found, rest, happly⟩ := Phase.exists_apply hphase bounds
    rw [Job.step_of_free h.aborted hworker hphase hdeque rfl happly] at hstep
    cases hstep
    exact ⟨_, _, follow_operation h.aborted hworker hphase hdeque (hstages w) happly, rfl, rfl⟩

theorem exists_follow_of_occur (h : v.Sound) (hstages : ∀ w, v.stages w = .entering)
    {event : Elementwise.Event} {deeds : List Deed} {c : Course}
    (hoccur : job.occur ⟨v.state, deeds⟩ event = some c) :
    ∃ events v', Interleaving.follow job events v = some v' ∧ v'.state = c.state ∧
      v'.stages = v.stages := by
  cases event with
  | start w =>
      simp only [Job.occur] at hoccur
      split at hoccur
      · cases hoccur
      · rename_i hrunning
        cases hoccur
        refine ⟨[.start w], { v with state := v.state.start w }, ?_, rfl, rfl⟩
        simp [Interleaving.follow, Interleaving.occur, hrunning]
  | settle started =>
      cases hoccur
      exact ⟨[.settle started], _, rfl, rfl, rfl⟩
  | step w =>
      obtain ⟨s', hstep, rfl⟩ := Option.map_eq_some_iff.mp hoccur
      exact h.exists_follow_of_step hstages hstep

theorem exists_follow (h : v.Sound) (hstages : ∀ w, v.stages w = .entering)
    {events : List Elementwise.Event} {deeds : List Deed} {c : Course}
    (hfollow : job.follow events ⟨v.state, deeds⟩ = some c) :
    ∃ small v', Interleaving.follow job small v = some v' ∧ v'.state = c.state ∧
      ∀ w, v'.stages w = .entering := by
  induction events generalizing v deeds with
  | nil =>
      cases hfollow
      exact ⟨[], v, rfl, rfl, hstages⟩
  | cons event rest ih =>
      obtain ⟨middle, hoccur, hrest⟩ := Option.bind_eq_some_iff.mp hfollow
      obtain ⟨first, v₁, hfirst, hstate, hsame⟩ := h.exists_follow_of_occur hstages hoccur
      obtain ⟨state, noted⟩ := middle
      obtain rfl : v₁.state = state := hstate
      obtain ⟨later, v₂, hlater, hend⟩ := ih (h.follow hfirst) (hsame ▸ hstages) hrest
      refine ⟨first ++ later, v₂, ?_, hend⟩
      rw [follow_append, hfirst]
      exact hlater

end Sound

variable (job : Job) (memory : Memory) (gate : Gate) (spans : List Span)

/-- Whatever happens in small steps also happens in a run of the job in which each operation is one
step, and in the same order. -/
theorem exists_follow_whole {events : List Event}
    (hfollow : follow job events { state := .initial memory gate spans } = some v) :
    ∃ whole c, whole.Sublist (events.map Event.whole) ∧
      job.follow whole { state := .initial memory gate spans } = some c ∧ c.state = v.whole := by
  obtain ⟨whole, later, hsublist, hrun⟩ := (Sound.initial memory gate spans).whole_follow hfollow []
  rw [(Sound.initial memory gate spans).whole_eq fun _ => rfl] at hrun
  exact ⟨whole, _, hsublist, hrun, rfl⟩

/-- Seen from outside, what holds of all runs of a job holds of all its interleavings. -/
theorem exists_of_keeps {property : Course → Prop} (hkeeps : job.Keeps property)
    (hinitial : property { state := .initial memory gate spans }) {events : List Event}
    (hfollow : follow job events { state := .initial memory gate spans } = some v) :
    ∃ c, property c ∧ c.state = v.whole := by
  obtain ⟨whole, c, -, hwhole, hstate⟩ := exists_follow_whole job memory gate spans hfollow
  exact ⟨c, hkeeps.follow hinitial hwhole, hstate⟩

/-- However the small steps come, no index is called twice. -/
theorem called_nodup (hdisjoint : spans.Pairwise fun a b => List.Disjoint a.toList b.toList)
    {events : List Event}
    (hfollow : follow job events { state := .initial memory gate spans } = some v) :
    v.state.called.Nodup := by
  obtain ⟨c, hbalanced, hstate⟩ := exists_of_keeps job memory gate spans
    (Course.Balanced.keeps job _) (.initial memory gate spans) hfollow
  have hcalled := hbalanced.called_nodup (Span.nodup_flatMap_toList hdisjoint)
  rw [hstate] at hcalled
  exact hcalled

/-- The states that a job comes to are those of its interleavings with no operation under way. -/
theorem exists_follow_iff (s : JobState) :
    (∃ events c, job.follow events { state := .initial memory gate spans } = some c ∧
        c.state = s) ↔
      ∃ events v, follow job events { state := .initial memory gate spans } = some v ∧
        v.state = s ∧ ∀ w, v.stages w = .entering := by
  constructor
  · rintro ⟨events, c, hfollow, rfl⟩
    exact (Sound.initial memory gate spans).exists_follow (fun _ => rfl) hfollow
  · rintro ⟨events, v, hfollow, rfl, hstages⟩
    obtain ⟨whole, c, -, hwhole, hstate⟩ := exists_follow_whole job memory gate spans hfollow
    rw [((Sound.initial memory gate spans).follow hfollow).whole_eq hstages] at hstate
    exact ⟨whole, c, hwhole, hstate⟩

end Interleaving

end Elementwise
