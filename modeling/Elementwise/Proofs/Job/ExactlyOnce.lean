import Elementwise.Proofs.Job.Balance
import Elementwise.Proofs.Job.Ending
import Elementwise.Proofs.Job.Sweep
import Elementwise.Proofs.Range.Partition

/-!
Every index once. The ranges of a split are worked off by any workers in any order of steps: no
index is handed out twice or lost on the way, and when the workers have finished each index was
called once.
-/

namespace Elementwise

/-- Once nobody is running and some worker has finished, the calls that were completed and those
that unwound cover every index once. -/
theorem Course.Balanced.covered {c : Course} {elements : Nat} {team : List Nat}
    (h : c.Balanced (List.range elements)) (hmanned : c.state.Manned team)
    (hopen : c.state.gate.isOpen = true) (hover : ∀ w, (c.state.phase w).isRunning = false)
    {w : Nat} (hfinished : c.state.phase w = .finished) :
    (c.completed ++ c.unwound).Perm (List.range elements) ∧
      c.state.called.Perm (List.range elements) := by
  have huntaken := (hmanned.swept hopen).untakenIndices_eq_nil hfinished
  have htaken := h.taken_append_perm
  rw [huntaken, List.append_nil] at htaken
  obtain ⟨hended, hcalled⟩ := h.ended_perm hover
  exact ⟨hended.trans htaken, hcalled.trans htaken⟩

namespace Job

variable {job : Job} {team : List Nat}

theorem manned_occur {c c' : Course} {all : Multiset Nat} (hbalanced : c.Balanced all)
    (hmanned : c.state.Manned team) {event : Event} (hoccur : job.occur c event = some c')
    (hstart : ∀ w, event = .start w → w ∈ team) (hsettle : ∀ started, event ≠ .settle started) :
    c'.state.Manned team ∧ c'.state.gate = c.state.gate := by
  cases event with
  | start w =>
      simp only [occur] at hoccur
      split at hoccur
      · cases hoccur
      · cases hoccur
        exact ⟨hmanned.start (hstart w rfl), JobState.gate_start _ _⟩
  | settle started => exact absurd rfl (hsettle started)
  | step w =>
      obtain ⟨s', hstep, rfl⟩ := Option.map_eq_some_iff.mp hoccur
      have hmove := move_of_step hbalanced.unheld hstep
      exact ⟨hmanned.move hmove, hmove.gate_eq⟩

theorem manned_follow {c c' : Course} {all : Multiset Nat} (hbalanced : c.Balanced all)
    (hmanned : c.state.Manned team) {events : List Event} (hfollow : job.follow events c = some c')
    (hstart : ∀ w, .start w ∈ events → w ∈ team) (hsettle : ∀ started, .settle started ∉ events) :
    c'.state.Manned team ∧ c'.state.gate = c.state.gate := by
  induction events generalizing c with
  | nil =>
      cases hfollow
      exact ⟨hmanned, rfl⟩
  | cons event rest ih =>
      obtain ⟨middle, hoccur, hrest⟩ := Option.bind_eq_some_iff.mp hfollow
      have hfirst := manned_occur hbalanced hmanned hoccur
        (fun w heq => hstart w (heq ▸ List.mem_cons_self))
        (fun started heq => hsettle started (heq ▸ List.mem_cons_self))
      have hlast := ih ((Course.Balanced.keeps job all).occur hbalanced hoccur) hfirst.1 hrest
        (fun w hw => hstart w (List.mem_cons_of_mem event hw))
        (fun started hmem => hsettle started (List.mem_cons_of_mem event hmem))
      exact ⟨hlast.1, hlast.2.trans hfirst.2⟩

/-- Any non-empty team of workers, at an open gate and with a kernel that does not unwind, hands out
the indices of a call without loss or repetition, in every order of steps; and once the team has
finished, the kernel was called on each index once and the counters add up to the number of indices.
-/
theorem every_index_once (job : Job) (memory : Memory) (gate : Gate) (elements requested : Nat)
    (team turns : List Nat) (c : Course) (hopen : gate.isOpen = true)
    (hkernel : ∀ index, job.unwinding index = none) (hteam : team ≠ [])
    (hfollow : job.follow (team.map .start ++ turns.map .step)
      { state := .initial memory gate (Partition.split elements requested).ranges } = some c) :
    (c.taken ++ c.state.untakenIndices).Perm (List.range elements) ∧
      ((∀ w ∈ team, c.state.phase w = .finished) →
        c.state.called.Perm (List.range elements) ∧
          c.completed.Perm (List.range elements) ∧
          total (fun worker => worker.tally.completed) c.state.workers = elements) := by
  let p := Partition.split elements requested
  have hbooks := Course.Balanced.initial memory gate p.ranges
  rw [Partition.flatMap_toList_ranges] at hbooks
  have hbalanced := (Course.Balanced.keeps job _).follow hbooks hfollow
  refine ⟨hbalanced.taken_append_perm, fun hfinished => ?_⟩
  obtain ⟨hmanned, hgate⟩ := manned_follow hbooks
    (JobState.manned_initial memory gate p.ranges team) hfollow (by simp) (by simp)
  have hover (w : Nat) : (c.state.phase w).isRunning = false := by
    by_cases hw : w ∈ team
    · rw [hfinished w hw]
      rfl
    · rw [hmanned.idle w hw]
      rfl
  have hstill : c.state.gate.isOpen = true := by
    rw [hgate]
    exact hopen
  have hunwound : c.unwound = [] :=
    ((Course.Explained.keeps job).follow (.initial job memory gate p.ranges) hfollow).unwound_eq_nil
      hkernel
  obtain ⟨w, hw⟩ := List.exists_mem_of_ne_nil team hteam
  obtain ⟨hcompleted, hcalled⟩ := hbalanced.covered hmanned hstill hover (hfinished w hw)
  rw [hunwound, List.append_nil] at hcompleted
  refine ⟨hcalled, hcompleted, ?_⟩
  rw [hbalanced.counted, hcompleted.length_eq, List.length_range]

/-- Two workers at three indices, taking turns until the first one has finished. -/
theorem every_index_once_of_two_workers :
    ∃ c, (Job.reversedSum fun _ => none).follow
        ([0, 1].map .start ++
          [0, 1, 0, 1, 0, 1, 0, 1, 0, 1, 0, 1, 0, 1, 1, 1, 1, 1].map .step)
        { state := .initial .reversedSum ⟨2, .abort, .opened⟩ (Partition.split 3 2).ranges } =
        some c ∧
      (∀ w ∈ [0, 1], c.state.phase w = .finished) ∧ c.completed.Perm (List.range 3) := by
  have hrun : ∃ c, (Job.reversedSum fun _ => none).follow
        ([0, 1].map .start ++
          [0, 1, 0, 1, 0, 1, 0, 1, 0, 1, 0, 1, 0, 1, 1, 1, 1, 1].map .step)
        { state := .initial .reversedSum ⟨2, .abort, .opened⟩ (Partition.split 3 2).ranges } =
        some c ∧
      ∀ w ∈ [0, 1], c.state.phase w = .finished := ⟨_, rfl, by decide⟩
  obtain ⟨c, hfollow, hfinished⟩ := hrun
  have hend := every_index_once _ _ _ 3 2 [0, 1] _ c rfl (fun _ => rfl) (by decide) hfollow
  exact ⟨c, hfollow, hfinished, (hend.2 hfinished).2.1⟩

end Job

end Elementwise
