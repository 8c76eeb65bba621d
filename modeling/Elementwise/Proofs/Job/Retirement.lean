import Elementwise.Proofs.Job.ExactlyOnce

/-!
When a worker retires. By then every deque is empty, and an index that is not completed yet is owed
by one other worker, which took it and either has it in hand or died of it.
-/

namespace Elementwise

/-- The worker has the index in hand, or died in the call at this index. -/
def Phase.Owes (index : Nat) (phase : Phase) : Prop :=
  index ∈ phase.inHand ∨ ∃ cause, phase = .dead (some index) cause

theorem Phase.not_owes {phase : Phase} (hhand : phase.inHand = 0) (hending : phase.isEnding = false)
    (index : Nat) : ¬ phase.Owes index := by
  rintro (hmem | ⟨cause, rfl⟩)
  · rw [hhand] at hmem
    exact absurd hmem (Multiset.notMem_zero index)
  · cases hending

def Course.Claims (c : Course) (w index : Nat) : Prop :=
  ∃ q access, Deed.accessed w q access (some index) ∈ c.deeds

namespace Job.Move

variable {job : Job} {s s' : JobState} {w : Nat} {deed : Option Deed}

theorem owes (h : Move job s w deed s') {index : Nat} (howes : (s'.phase w).Owes index) :
    (s.phase w).Owes index ∨ ∃ q access, deed = some (.accessed w q access (some index)) := by
  cases h with
  | @enter worker told hworker =>
      rw [JobState.phase_setPhase_self (by exact JobState.lt_size hworker)] at howes
      cases told <;> exact absurd howes (Phase.not_owes rfl rfl index)
  | @take worker q access deque found rest hworker haccess =>
      rw [JobState.phase_setPhase_self (by exact JobState.lt_size hworker)] at howes
      rcases howes with hmem | ⟨cause, hdead⟩
      · rw [(Phase.inHand_receive haccess _ found).2, Multiset.mem_coe, Option.mem_toList] at hmem
        obtain rfl := Option.mem_def.mp hmem
        exact .inr ⟨q, access, rfl⟩
      · have hending := (Phase.isEnding_receive haccess s.workers.size found).2
        rw [hdead] at hending
        cases hending
  | @breach worker q access deque hworker =>
      unfold Job.breach at howes
      split at howes
      · exact .inl howes
      · rw [JobState.phase_setPhase_self (by exact JobState.lt_size hworker)] at howes
        rcases howes with hmem | ⟨cause, hdead⟩
        · exact absurd hmem (Multiset.notMem_zero index)
        · cases hdead
  | @call worker i origin hworker hphase =>
      rw [JobState.phase_setPhase_self (by exact JobState.lt_size hworker)] at howes
      rw [JobState.phase_eq hworker, hphase]
      rcases howes with hmem | ⟨cause, hdead⟩
      · exact .inl (.inl hmem)
      · cases hdead
  | @unwind worker i origin cause hworker hphase =>
      rw [JobState.phase_setPhase_self (by exact JobState.lt_size hworker)] at howes
      rw [JobState.phase_eq hworker, hphase]
      rcases howes with hmem | ⟨cause, hdead⟩
      · exact absurd hmem (Multiset.notMem_zero index)
      · cases hdead
        exact .inl (.inl (Multiset.mem_singleton_self index))
  | @read worker i origin hworker hphase =>
      rw [JobState.phase_setPhase_self (by exact JobState.lt_size hworker)] at howes
      rw [JobState.phase_eq hworker, hphase]
      rcases howes with hmem | ⟨cause, hdead⟩
      · exact .inl (.inl hmem)
      · cases hdead
  | @store worker i origin bits hworker =>
      rw [JobState.phase_setPhase_self (by exact JobState.lt_size hworker)] at howes
      exact absurd howes (Phase.not_owes (Phase.inHand_resume ..) (Phase.isEnding_resume ..) index)

end Job.Move

/-- What a worker owes was handed out to it. -/
structure Course.Accounted (c : Course) : Prop where
  unheld : c.state.Unheld
  claims : ∀ w index, (c.state.phase w).Owes index → c.Claims w index

namespace Course.Accounted

variable {c : Course}

theorem initial (memory : Memory) (gate : Gate) (spans : List Span) :
    Accounted { state := .initial memory gate spans } := by
  refine ⟨JobState.unheld_initial memory gate spans, ?_⟩
  intro w index howes
  rw [JobState.phase_initial] at howes
  exact absurd howes (Phase.not_owes rfl rfl index)

theorem move (h : c.Accounted) {job : Job} {w : Nat} {deed : Option Deed} {s' : JobState}
    (hmove : Job.Move job c.state w deed s') : (c.note deed s').Accounted := by
  refine ⟨hmove.unheld h.unheld, ?_⟩
  intro v index howes
  have hold (hbefore : (c.state.phase v).Owes index) : (c.note deed s').Claims v index := by
    obtain ⟨q, access, hmem⟩ := h.claims v index hbefore
    exact ⟨q, access, List.mem_append_left _ hmem⟩
  by_cases hv : v = w
  · subst hv
    rcases hmove.owes howes with hbefore | ⟨q, access, rfl⟩
    · exact hold hbefore
    · exact ⟨q, access, List.mem_append_right _ List.mem_cons_self⟩
  · rw [Course.state_note, hmove.phase_of_ne hv] at howes
    exact hold howes

theorem keeps (job : Job) : job.Keeps Accounted where
  unheld _ h := h.unheld
  move _ _ _ _ h hmove := h.move hmove
  start c w h hrunning := by
    refine ⟨(Job.keeps_unheld job).start c w h.unheld hrunning, ?_⟩
    intro v index howes
    rcases c.state.phase_start w v with hsame | ⟨-, hgate⟩
    · rw [hsame] at howes
      exact h.claims v index howes
    · rw [hgate] at howes
      exact absurd howes (Phase.not_owes rfl rfl index)
  settle _ _ h := ⟨h.unheld, h.claims⟩

end Course.Accounted

theorem Course.eq_of_claims {c : Course} (hnodup : c.taken.Nodup) {v w index : Nat}
    (hv : c.Claims v index) (hw : c.Claims w index) : v = w := by
  obtain ⟨q, access, hmem⟩ := hv
  obtain ⟨p, access', hmem'⟩ := hw
  have heq : Deed.accessed v q access (some index) = .accessed w p access' (some index) :=
    Deed.eq_of_nodup hnodup hmem hmem' rfl rfl
  injection heq

/-- Where nothing is left in the deques, an index that is not completed is owed by somebody. -/
theorem Course.Balanced.exists_owes {all : Multiset Nat} {c : Course} (h : c.Balanced all)
    (hmourned : c.Mourned) (huntaken : c.state.untakenIndices = []) {index : Nat}
    (hindex : index ∈ all) (hmissing : index ∉ c.completed) :
    ∃ v, (c.state.phase v).Owes index := by
  have htaken := h.taken
  rw [huntaken, Multiset.coe_nil, add_zero] at htaken
  rw [← htaken, ← h.inHand, Multiset.mem_add, Multiset.mem_add] at hindex
  rcases hindex with (hcompleted | hunwound) | hhand
  · exact absurd (Multiset.mem_coe.mp hcompleted) hmissing
  · obtain ⟨deed, hdeed, hkind⟩ := List.mem_filterMap.mp (Multiset.mem_coe.mp hunwound)
    cases deed with
    | unwound v i =>
        cases hkind
        obtain ⟨cause, hdead⟩ := hmourned v index hdeed
        exact ⟨v, .inr ⟨cause, hdead⟩⟩
    | _ => cases hkind
  · obtain ⟨v, worker, hworker, hmem⟩ := mem_total hhand
    refine ⟨v, .inl ?_⟩
    rw [JobState.phase_eq hworker]
    exact hmem

namespace Job

variable {job : Job} {c c' : Course}

theorem emptyAt_follow {events : List Event} (hunheld : c.state.Unheld)
    (hfollow : job.follow events c = some c') {q : Nat} (hempty : c.state.EmptyAt q) :
    c'.state.EmptyAt q := by
  have hkeeps : job.Keeps fun c => c.state.Unheld ∧ c.state.EmptyAt q := {
    unheld := fun _ h => h.1
    move := fun _ _ _ _ h hmove => ⟨hmove.unheld h.1, hmove.emptyAt h.2⟩
    start := by
      intro c w h hrunning
      refine ⟨(Job.keeps_unheld job).start c w h.1 hrunning, ?_⟩
      unfold JobState.EmptyAt
      rw [JobState.deques_start]
      exact h.2
    settle := fun _ _ h => h }
  exact (hkeeps.follow ⟨hunheld, hempty⟩ hfollow).2

theorem mourned_steps {turns : List Nat} (hunheld : c.state.Unheld) (hmourned : c.Mourned)
    (hfollow : job.follow (turns.map .step) c = some c') : c'.Mourned := by
  induction turns generalizing c with
  | nil =>
      cases hfollow
      exact hmourned
  | cons w turns ih =>
      obtain ⟨middle, hoccur, hrest⟩ := Option.bind_eq_some_iff.mp hfollow
      obtain ⟨s', hstep, rfl⟩ := Option.map_eq_some_iff.mp hoccur
      have hmove := move_of_step hunheld hstep
      exact ih (hmove.unheld hunheld) (hmourned.move hmove) hrest

/-- A team that starts before anything was done starts nobody again. -/
theorem mourned_follow {team turns : List Nat} (hunheld : c.state.Unheld) (hdeeds : c.deeds = [])
    (hfollow : job.follow (team.map .start ++ turns.map .step) c = some c') : c'.Mourned := by
  induction team generalizing c with
  | nil =>
      refine mourned_steps hunheld ?_ hfollow
      intro w index hmem
      rw [hdeeds] at hmem
      exact absurd hmem List.not_mem_nil
  | cons w team ih =>
      obtain ⟨middle, hoccur, hrest⟩ := Option.bind_eq_some_iff.mp hfollow
      have hstill := (Job.keeps_unheld job).occur hunheld hoccur
      simp only [occur] at hoccur
      split at hoccur
      · cases hoccur
      · cases hoccur
        exact ih hstill hdeeds hrest

/-- Whatever the ranges, the team and the kernel: once some worker of a team at an open gate has
finished, every deque is empty and stays so whatever happens, and an index that is not completed was
claimed by just one worker, another one, which still owes it. -/
theorem finished_worker_leaves_nothing (job : Job) (memory : Memory) (gate : Gate)
    (spans : List Span) (team turns : List Nat) (c : Course) (w : Nat)
    (hopen : gate.isOpen = true)
    (hdisjoint : spans.Pairwise fun a b => List.Disjoint a.toList b.toList)
    (hfollow : job.follow (team.map .start ++ turns.map .step)
      { state := .initial memory gate spans } = some c)
    (hfinished : c.state.phase w = .finished) :
    (∀ deque ∈ c.state.deques, deque.bounds.toList = []) ∧
      (∀ later c', job.follow later c = some c' →
        ∀ deque ∈ c'.state.deques, deque.bounds.toList = []) ∧
      ∀ index ∈ spans.flatMap Span.toList, index ∉ c.completed →
        ∃ v, v ≠ w ∧ (c.state.phase v).Owes index ∧ ∀ u, c.Claims u index ↔ u = v := by
  have hbooks := Course.Balanced.initial memory gate spans
  have hbalanced := (Course.Balanced.keeps job _).follow hbooks hfollow
  obtain ⟨hmanned, hgate⟩ := manned_follow hbooks
    (JobState.manned_initial memory gate spans team) hfollow (by simp) (by simp)
  have hswept := hmanned.swept (hgate ▸ hopen)
  have hempty : ∀ q, c.state.EmptyAt q := by
    have hphase := hswept.phases w
    rw [hfinished] at hphase
    exact hphase
  have hlater : ∀ later c', job.follow later c = some c' →
      ∀ deque ∈ c'.state.deques, deque.bounds.toList = [] := by
    intro later c' hlater deque hdeque
    obtain ⟨q, hq⟩ := Array.mem_iff_getElem?.mp hdeque
    have hbounds := emptyAt_follow hbalanced.unheld hlater (hempty q) deque hq
    refine List.eq_nil_of_length_eq_zero ?_
    rw [Span.length_toList, Span.length]
    omega
  refine ⟨hlater [] c rfl, hlater, ?_⟩
  intro index hindex hmissing
  have hmourned := mourned_follow (JobState.unheld_initial memory gate spans) rfl hfollow
  have haccounted := (Course.Accounted.keeps job).follow (.initial memory gate spans) hfollow
  -- two workers cannot claim one index, as every index of the ranges is handed out once
  have htaken : c.taken.Nodup := by
    have hall : (spans.flatMap Span.toList).Nodup :=
      List.nodup_flatMap.mpr ⟨fun span _ => List.nodup_range', hdisjoint⟩
    exact List.Nodup.of_append_left (hbalanced.taken_append_perm.nodup_iff.mpr hall)
  obtain ⟨v, howes⟩ := hbalanced.exists_owes hmourned (hswept.untakenIndices_eq_nil hfinished)
    (Multiset.mem_coe.mpr hindex) hmissing
  have hclaims := haccounted.claims v index howes
  refine ⟨v, ?_, howes, fun u => ⟨fun hu => Course.eq_of_claims htaken hu hclaims, ?_⟩⟩
  · rintro rfl
    rw [hfinished] at howes
    exact absurd howes (Phase.not_owes rfl rfl index)
  · rintro rfl
    exact hclaims

/-- The second worker dies at index 5. The first one, when it has finished, has stolen index 6. -/
theorem finished_worker_leaves_nothing_but_debts :
    ∃ c, (Job.reversedSum fun index => if index = 5 then some (.kernelFailure 5) else none).follow
        ([0, 1].map .start ++ [1, 1, 1, 1, 0, 0, 0, 0, 0, 0, 0, 0, 0, 0, 0].map .step)
        { state := .initial .reversedSum ⟨2, .abort, .opened⟩ [⟨0, 1⟩, ⟨5, 7⟩] } = some c ∧
      c.state.phase 0 = .finished ∧ 6 ∈ c.completed ∧
      ∃ v, v ≠ 0 ∧ (c.state.phase v).Owes 5 := by
  have hrun : ∃ c, (Job.reversedSum fun index =>
        if index = 5 then some (.kernelFailure 5) else none).follow
        ([0, 1].map .start ++ [1, 1, 1, 1, 0, 0, 0, 0, 0, 0, 0, 0, 0, 0, 0].map .step)
        { state := .initial .reversedSum ⟨2, .abort, .opened⟩ [⟨0, 1⟩, ⟨5, 7⟩] } = some c ∧
      c.state.phase 0 = .finished ∧ 6 ∈ c.completed ∧ 5 ∉ c.completed :=
    ⟨_, rfl, by decide, by decide, by decide⟩
  obtain ⟨c, hfollow, hfinished, hstolen, hmissing⟩ := hrun
  have hdisjoint : [(⟨0, 1⟩ : Span), ⟨5, 7⟩].Pairwise fun a b =>
      List.Disjoint a.toList b.toList := by
    refine List.pairwise_pair.mpr fun i hi hi' => ?_
    simp only [Span.mem_toList] at hi hi'
    omega
  have hleft := finished_worker_leaves_nothing _ _ _ _ [0, 1] _ c 0 rfl hdisjoint hfollow hfinished
  obtain ⟨v, hne, howes, -⟩ := hleft.2.2 5 (by decide) hmissing
  exact ⟨c, hfollow, hfinished, hstolen, v, hne, howes⟩

end Job

end Elementwise
