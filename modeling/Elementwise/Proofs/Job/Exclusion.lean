import Elementwise.Proofs.Job.Interleaving
import Elementwise.Proofs.Job.Playing
import Elementwise.Proofs.Sync.Sharing

/-!
Locks and workers in small steps. At all times a lock is held just if some worker is inside its
deque, at most one is, and what it has read there is still so when it writes. A worker that is not
inside touches no deque, which is why each worker can be looked at alone.
-/

namespace Elementwise

/-- The stages of an operation that takes an index from a deque whose lock works. -/
def Deque.Stage.isTaking : Deque.Stage → Bool
  | entering | reading | writing _ | leaving (.index _) => true
  | _ => false

namespace Interleaving

variable {job : Job} {v v' : Interleaving} {w q : Nat}

/-- What holds of all workers and locks at all times. -/
structure Sound (v : Interleaving) : Prop where
  aborted : v.state.aborted = none
  fit : v.state.Fit
  outside : ∀ w, (v.state.phase w).access? w = none → v.stages w = .entering
  taking : ∀ w, (v.stages w).isTaking = true
  seen : ∀ (w q : Nat) (span : Span) (deque : Deque), v.stages w = .writing span →
    v.inside? w = some q → v.state.deques[q]? = some deque → span = deque.bounds
  locks : ∀ (q : Nat) (deque : Deque), v.state.deques[q]? = some deque →
    deque.lock = ⟨Lock.free⟩ ∧ (∀ u, v.inside? u ≠ some q) ∨
      deque.lock = ⟨Lock.held⟩ ∧ ∃ u, v.inside? u = some q
  exclusive : ∀ u w q, v.inside? u = some q → v.inside? w = some q → u = w
  exchanges : ∀ w q, v.exchanges.count ⟨w, q, .acquire⟩ =
    v.exchanges.count ⟨w, q, .release⟩ + if v.inside? w = some q then 1 else 0

/-- The ways in which a worker gets on with its operation on a deque. -/
inductive Operation (v : Interleaving) (w q : Nat) : Interleaving → Prop where
  | acquire {access : Access} {deque : Deque}
      (haccess : (v.state.phase w).access? w = some (q, access))
      (hdeque : v.state.deques[q]? = some deque) (hstage : v.stages w = .entering)
      (hlock : deque.lock = ⟨Lock.free⟩) :
      Operation v w q {
        state := { v.state with
          deques := v.state.deques.setIfInBounds q { deque with lock := ⟨Lock.held⟩ } }
        stages := Function.update v.stages w .reading
        exchanges := v.exchanges ++ [⟨w, q, .acquire⟩] }
  | read {access : Access} {deque : Deque}
      (haccess : (v.state.phase w).access? w = some (q, access))
      (hdeque : v.state.deques[q]? = some deque) (hstage : v.stages w = .reading) :
      Operation v w q { v with stages := Function.update v.stages w (.writing deque.bounds) }
  | write {access : Access} {deque : Deque} {seen rest : Span} {found : Option Nat}
      (haccess : (v.state.phase w).access? w = some (q, access))
      (hdeque : v.state.deques[q]? = some deque) (hstage : v.stages w = .writing seen)
      (happly : access.apply seen = (.index found, rest)) :
      Operation v w q { v with
        state := { v.state with
          deques := v.state.deques.setIfInBounds q { deque with bounds := rest } }
        stages := Function.update v.stages w (.leaving (.index found)) }
  | release {worker : Worker} {access : Access} {deque : Deque} {found : Option Nat}
      (hworker : v.state.workers[w]? = some worker)
      (haccess : worker.phase.access? w = some (q, access))
      (hdeque : v.state.deques[q]? = some deque) (hstage : v.stages w = .leaving (.index found))
      (hlock : deque.lock = ⟨Lock.held⟩) :
      Operation v w q {
        state := { v.state with
          deques := v.state.deques.setIfInBounds q { deque with lock := ⟨Lock.free⟩ } }.setPhase w
            worker (worker.phase.receive w v.state.workers.size found)
        stages := Function.update v.stages w .entering
        exchanges := v.exchanges ++ [⟨w, q, .release⟩] }

theorem inside?_of_stage {access : Access} {stage : Deque.Stage}
    (haccess : (v.state.phase w).access? w = some (q, access)) (hstage : v.stages w = stage)
    (hinside : stage.isInside = true) : v.inside? w = some q := by
  simp [inside?, haccess, hstage, hinside]

theorem inside?_of_entering (hstage : v.stages w = .entering) : v.inside? w = none := by
  rw [inside?, hstage]
  rfl

theorem isInside_of_inside? (h : v.inside? w = some q) :
    (v.stages w).isInside = true ∧ ∃ access, (v.state.phase w).access? w = some (q, access) := by
  unfold inside? at h
  split at h
  · rename_i hstage
    obtain ⟨⟨_, access⟩, haccess, rfl⟩ := Option.map_eq_some_iff.mp h
    exact ⟨hstage, access, haccess⟩
  · cases h

theorem step_of_quiet (hquiet : (v.state.phase w).access? w = none) {spurious : Bool} :
    v.step job w spurious = (job.step v.state w).map fun s => { v with state := s } := by
  rcases hworker : v.state.workers[w]? with - | worker
  · simp [step, hworker, Job.step, JobState.isReady, JobState.phase]
  · rw [JobState.phase_eq hworker] at hquiet
    simp [step, hworker, hquiet]

namespace Sound

theorem exists_deque (h : v.Sound) {access : Access}
    (haccess : (v.state.phase w).access? w = some (q, access)) :
    ∃ deque, v.state.deques[q]? = some deque :=
  ⟨_, Array.getElem?_eq_getElem (h.fit.lt_size_of_access haccess)⟩

theorem operation_of_operate (h : v.Sound) {worker : Worker} {access : Access} {spurious : Bool}
    (hworker : v.state.workers[w]? = some worker)
    (haccess : worker.phase.access? w = some (q, access))
    (hoperate : v.operate job w worker q access spurious = some v') :
    v' = v ∨ Operation v w q v' := by
  have hphase := JobState.phase_eq hworker
  unfold operate at hoperate
  rcases hdeque : v.state.deques[q]? with - | ⟨lock, bounds⟩
  · simp [hdeque] at hoperate
  · simp only [hdeque] at hoperate
    have htaking := h.taking w
    have hlock := h.locks q _ hdeque
    have hretry (hentering : v.stages w = .entering) :
        { v with
          state := { v.state with deques := v.state.deques.setIfInBounds q ⟨lock, bounds⟩ }
          stages := Function.update v.stages w .entering
          exchanges := v.exchanges ++ [] } = v := by
      rw [setIfInBounds_self hdeque, List.append_nil,
        Function.update_eq_self_iff.mpr hentering.symm]
    cases hstage : v.stages w with
    | entering =>
        rw [hstage] at hoperate
        rcases hlock with ⟨rfl, -⟩ | ⟨rfl, -⟩
        · rw [Deque.step_entering_free] at hoperate
          rcases spurious with - | -
          · cases hoperate
            exact .inr (.acquire (hphase ▸ haccess) hdeque hstage rfl)
          · exact .inl ((Option.some.inj hoperate).symm.trans (hretry hstage))
        · rw [Deque.step_entering_held] at hoperate
          exact .inl ((Option.some.inj hoperate).symm.trans (hretry hstage))
    | reading =>
        rw [hstage] at hoperate
        have hread : { v with
            state := { v.state with deques := v.state.deques.setIfInBounds q ⟨lock, bounds⟩ }
            stages := Function.update v.stages w (.writing bounds)
            exchanges := v.exchanges ++ [] } = v' := Option.some.inj hoperate
        rw [setIfInBounds_self hdeque, List.append_nil] at hread
        rw [← hread]
        exact .inr (.read (hphase ▸ haccess) hdeque hstage)
    | writing seen =>
        rw [hstage] at hoperate
        obtain ⟨found, rest, happly⟩ := Phase.exists_apply haccess seen
        have hwrite : { v with
            state := { v.state with
              deques := v.state.deques.setIfInBounds q ⟨lock, (access.apply seen).2⟩ }
            stages := Function.update v.stages w (.leaving (access.apply seen).1)
            exchanges := v.exchanges ++ [] } = v' := Option.some.inj hoperate
        rw [happly, List.append_nil] at hwrite
        rw [← hwrite]
        exact .inr (.write (hphase ▸ haccess) hdeque hstage happly)
    | leaving taken =>
        rw [hstage] at hoperate htaking
        rcases taken with found | span
        · have hinside := inside?_of_stage (hphase ▸ haccess) hstage rfl
          -- the lock cannot be free while the worker is inside, so releasing it succeeds
          rcases hlock with ⟨-, hnobody⟩ | ⟨rfl, -⟩
          · exact absurd hinside (hnobody w)
          · rw [Deque.step_leaving_held] at hoperate
            cases hoperate
            exact .inr (.release hworker haccess hdeque hstage rfl)
        · cases htaking
    | _ =>
        rw [hstage] at htaking
        cases htaking

/-- A step is a step of the job on no deque, a failing exchange, or part of an operation. -/
theorem step_cases (h : v.Sound) {spurious : Bool} (hstep : v.step job w spurious = some v') :
    ((v.state.phase w).access? w = none ∧
        ∃ s', job.step v.state w = some s' ∧ v' = { v with state := s' }) ∨
      v' = v ∨ ∃ q, Operation v w q v' := by
  rcases haccess : (v.state.phase w).access? w with - | ⟨q, access⟩
  · rw [step_of_quiet haccess] at hstep
    obtain ⟨s', hquiet, rfl⟩ := Option.map_eq_some_iff.mp hstep
    exact .inl ⟨rfl, s', hquiet, rfl⟩
  · obtain ⟨worker, hworker, hphase⟩ := JobState.exists_worker_of_access haccess
    simp only [step, hworker, hphase, h.aborted, Option.isSome_none, Bool.false_eq_true,
      if_false] at hstep
    refine .inr ((h.operation_of_operate hworker hphase hstep).imp id fun hoperation => ?_)
    exact ⟨q, hoperation⟩

end Sound

namespace Operation

theorem step (h : Operation v w q v') (haborted : v.state.aborted = none) (job : Job) :
    v.step job w false = some v' := by
  have halive : v.state.aborted.isSome = false := by
    rw [haborted]
    rfl
  cases h with
  | @acquire access deque haccess hdeque hstage hlock =>
      obtain ⟨lock, bounds⟩ := deque
      cases hlock
      obtain ⟨worker, hworker, haccess⟩ := JobState.exists_worker_of_access haccess
      simp [Interleaving.step, hworker, haccess, halive, operate, hdeque, hstage,
        Deque.step_entering_free, resume, Deque.Stage.exchange?]
  | @read access deque haccess hdeque hstage =>
      obtain ⟨worker, hworker, haccess⟩ := JobState.exists_worker_of_access haccess
      simp [Interleaving.step, hworker, haccess, halive, operate, hdeque, hstage, Deque.step,
        resume, Deque.Stage.exchange?, setIfInBounds_self hdeque]
  | @write access deque seen rest found haccess hdeque hstage happly =>
      obtain ⟨worker, hworker, haccess⟩ := JobState.exists_worker_of_access haccess
      simp [Interleaving.step, hworker, haccess, halive, operate, hdeque, hstage, Deque.step,
        happly, resume, Deque.Stage.exchange?]
  | @release worker access deque found hworker haccess hdeque hstage hlock =>
      obtain ⟨lock, bounds⟩ := deque
      cases hlock
      simp [Interleaving.step, hworker, haccess, halive, operate, hdeque, hstage,
        Deque.step_leaving_held, resume, Deque.Stage.exchange?]

theorem stage_of_ne (h : Operation v w q v') {u : Nat} (hu : u ≠ w) :
    v'.stages u = v.stages u := by
  cases h with
  | _ => exact Function.update_of_ne hu ..

theorem phase_of_ne (h : Operation v w q v') {u : Nat} (hu : u ≠ w) :
    v'.state.phase u = v.state.phase u := by
  cases h with
  | release => exact JobState.phase_setPhase_of_ne hu _ _
  | _ => rfl

theorem inside?_of_ne (h : Operation v w q v') {u : Nat} (hu : u ≠ w) :
    v'.inside? u = v.inside? u := by
  simp only [inside?, h.stage_of_ne hu, h.phase_of_ne hu]

theorem aborted_eq (h : Operation v w q v') : v'.state.aborted = v.state.aborted := by
  cases h with
  | _ => rfl

theorem fit (h : Operation v w q v') (hsound : v.Sound) : v'.state.Fit := by
  have hfit := hsound.fit
  cases h with
  | read => exact hfit
  | acquire | write => exact ⟨Array.size_setIfInBounds.trans hfit.sizes, hfit.peers⟩
  | @release worker access deque found hworker haccess =>
      refine ⟨?_, fun u peer hpeer => ?_⟩
      · rw [JobState.size_workers_setPhase]
        exact Array.size_setIfInBounds.trans hfit.sizes
      · rw [JobState.size_workers_setPhase]
        by_cases hu : u = w
        · subst hu
          rw [JobState.phase_setPhase_self (by exact JobState.lt_size hworker)] at hpeer
          refine Phase.peer?_receive haccess (JobState.lt_size hworker) ?_ hpeer
          rw [← JobState.phase_eq hworker]
          exact hfit.peers u
        · rw [JobState.phase_setPhase_of_ne hu] at hpeer
          exact hfit.peers u peer hpeer

theorem outside (h : Operation v w q v') (hsound : v.Sound) (u : Nat)
    (hquiet : (v'.state.phase u).access? u = none) : v'.stages u = .entering := by
  by_cases hu : u = w
  · subst hu
    cases h with
    | release => exact Function.update_self ..
    | acquire haccess | read haccess | write haccess =>
        exact absurd (haccess.symm.trans hquiet) (Option.some_ne_none _)
  · rw [h.phase_of_ne hu] at hquiet
    rw [h.stage_of_ne hu]
    exact hsound.outside u hquiet

theorem taking (h : Operation v w q v') (hsound : v.Sound) (u : Nat) :
    (v'.stages u).isTaking = true := by
  by_cases hu : u = w
  · subst hu
    cases h with
    | _ => simp [Deque.Stage.isTaking]
  · rw [h.stage_of_ne hu]
    exact hsound.taking u

/-- Each part of an operation changes no other deque than its own, inside of which nobody else is,
and leaves it free and the worker outside, or held and the worker inside. -/
theorem touches (h : Operation v w q v') (hsound : v.Sound) :
    (∀ u, u ≠ w → v.inside? u ≠ some q) ∧ (v.inside? w = none ∨ v.inside? w = some q) ∧
      ∃ after, v'.state.deques = v.state.deques.setIfInBounds q after ∧
        (after.lock = ⟨Lock.free⟩ ∧ v'.inside? w = none ∨
          after.lock = ⟨Lock.held⟩ ∧ v'.inside? w = some q) := by
  have hothers (hinside : v.inside? w = some q) (u : Nat) (hu : u ≠ w) : v.inside? u ≠ some q :=
    fun hother => hu (hsound.exclusive u w q hother hinside)
  have hheld {deque : Deque} (hdeque : v.state.deques[q]? = some deque)
      (hinside : v.inside? w = some q) : deque.lock = ⟨Lock.held⟩ := by
    rcases hsound.locks q deque hdeque with ⟨-, hnobody⟩ | ⟨hlock, -⟩
    · exact absurd hinside (hnobody w)
    · exact hlock
  cases h with
  | @acquire access deque haccess hdeque hstage hlock =>
      -- the worker gets in because nobody is
      have hnobody : ∀ u, v.inside? u ≠ some q := by
        rcases hsound.locks q deque hdeque with ⟨-, hnobody⟩ | ⟨hlocked, -⟩
        · exact hnobody
        · exact absurd (hlock.symm.trans hlocked) (by decide)
      exact ⟨fun u _ => hnobody u, .inl (inside?_of_entering hstage), _, rfl,
        .inr ⟨rfl, inside?_of_stage haccess (Function.update_self ..) rfl⟩⟩
  | @read access deque haccess hdeque hstage =>
      have hinside := inside?_of_stage haccess hstage rfl
      exact ⟨hothers hinside, .inr hinside, deque, (setIfInBounds_self hdeque).symm,
        .inr ⟨hheld hdeque hinside, inside?_of_stage haccess (Function.update_self ..) rfl⟩⟩
  | @write access deque seen rest found haccess hdeque hstage happly =>
      have hinside := inside?_of_stage haccess hstage rfl
      have hlock := hheld hdeque hinside
      exact ⟨hothers hinside, .inr hinside, _, rfl,
        .inr ⟨hlock, inside?_of_stage haccess (Function.update_self ..) rfl⟩⟩
  | @release worker access deque found hworker haccess hdeque hstage hlock =>
      have hinside := inside?_of_stage (JobState.phase_eq hworker ▸ haccess) hstage rfl
      exact ⟨hothers hinside, .inr hinside, _, rfl,
        .inl ⟨rfl, inside?_of_entering (Function.update_self ..)⟩⟩

theorem inside?_of_other (h : Operation v w q v') (hsound : v.Sound) {u p : Nat} (hp : p ≠ q) :
    v'.inside? u = some p ↔ v.inside? u = some p := by
  by_cases hu : u = w
  · subst hu
    obtain ⟨-, hbefore, after, -, ⟨-, hafter⟩ | ⟨-, hafter⟩⟩ := h.touches hsound
    all_goals rcases hbefore with hbefore | hbefore <;> simp [hbefore, hafter, hp.symm]
  · rw [h.inside?_of_ne hu]

theorem deque_of_other (h : Operation v w q v') (hsound : v.Sound) {p : Nat} (hp : p ≠ q) :
    v'.state.deques[p]? = v.state.deques[p]? := by
  obtain ⟨-, -, after, hdeques, -⟩ := h.touches hsound
  rw [hdeques, Array.getElem?_setIfInBounds_ne hp.symm]

theorem alone (h : Operation v w q v') (hsound : v.Sound) {u : Nat} (hu : v'.inside? u = some q) :
    u = w := by
  by_contra hne
  rw [h.inside?_of_ne hne] at hu
  exact (h.touches hsound).1 u hne hu

theorem locks (h : Operation v w q v') (hsound : v.Sound) {p : Nat} {deque : Deque}
    (hdeque : v'.state.deques[p]? = some deque) :
    deque.lock = ⟨Lock.free⟩ ∧ (∀ u, v'.inside? u ≠ some p) ∨
      deque.lock = ⟨Lock.held⟩ ∧ ∃ u, v'.inside? u = some p := by
  by_cases hp : p = q
  · subst hp
    obtain ⟨-, -, after, hdeques, hafter⟩ := h.touches hsound
    obtain ⟨-, rfl⟩ : p < v.state.deques.size ∧ after = deque := by
      rw [hdeques, Array.getElem?_setIfInBounds_self] at hdeque
      simpa using hdeque
    rcases hafter with ⟨hlock, hout⟩ | ⟨hlock, hin⟩
    · refine .inl ⟨hlock, fun u hu => ?_⟩
      rw [h.alone hsound hu, hout] at hu
      cases hu
    · exact .inr ⟨hlock, w, hin⟩
  · rw [h.deque_of_other hsound hp] at hdeque
    simpa only [ne_eq, h.inside?_of_other hsound hp] using hsound.locks p deque hdeque

theorem exclusive (h : Operation v w q v') (hsound : v.Sound) {t u p : Nat}
    (ht : v'.inside? t = some p) (hu : v'.inside? u = some p) : t = u := by
  by_cases hp : p = q
  · subst hp
    exact (h.alone hsound ht).trans (h.alone hsound hu).symm
  · rw [h.inside?_of_other hsound hp] at ht hu
    exact hsound.exclusive t u p ht hu

theorem seen (h : Operation v w q v') (hsound : v.Sound) {u p : Nat} {span : Span} {deque : Deque}
    (hstage : v'.stages u = .writing span) (hinside : v'.inside? u = some p)
    (hdeque : v'.state.deques[p]? = some deque) : span = deque.bounds := by
  by_cases hu : u = w
  · subst hu
    cases h with
    | read haccess hread =>
        obtain ⟨-, access, hbefore⟩ := isInside_of_inside? hinside
        have hsame := haccess.symm.trans hbefore
        simp only [Option.some.injEq, Prod.mk.injEq] at hsame
        obtain ⟨rfl, -⟩ := hsame
        have hbounds := (Function.update_self ..).symm.trans hstage
        rw [hread] at hdeque
        cases hbounds
        cases hdeque
        rfl
    | _ => cases (Function.update_self ..).symm.trans hstage
  · have hp : p ≠ q := fun hp => hu (h.alone hsound (hp ▸ hinside))
    rw [h.stage_of_ne hu] at hstage
    rw [h.inside?_of_other hsound hp] at hinside
    rw [h.deque_of_other hsound hp] at hdeque
    exact hsound.seen u p span deque hstage hinside hdeque

theorem exchanges (h : Operation v w q v') (hsound : v.Sound) (u p : Nat) :
    v'.exchanges.count ⟨u, p, .acquire⟩ =
      v'.exchanges.count ⟨u, p, .release⟩ + if v'.inside? u = some p then 1 else 0 := by
  have hcount := hsound.exchanges u p
  by_cases hu : u = w
  · subst hu
    cases h with
    | @acquire access deque haccess hdeque hstage hlock =>
        rw [inside?_of_entering hstage] at hcount
        rw [inside?_of_stage (by exact haccess) (Function.update_self ..) rfl]
        simpa [List.count_append, List.count_singleton] using hcount
    | @read access deque haccess hdeque hstage =>
        rw [inside?_of_stage haccess hstage rfl] at hcount
        rw [inside?_of_stage (by exact haccess) (Function.update_self ..) rfl]
        exact hcount
    | @write access deque seen rest found haccess hdeque hstage happly =>
        rw [inside?_of_stage haccess hstage rfl] at hcount
        rw [inside?_of_stage (by exact haccess) (Function.update_self ..) rfl]
        exact hcount
    | @release worker access deque found hworker haccess hdeque hstage hlock =>
        rw [inside?_of_stage (JobState.phase_eq hworker ▸ haccess) hstage rfl] at hcount
        rw [inside?_of_entering (Function.update_self ..)]
        simpa [List.count_append, List.count_singleton] using hcount
  · rw [h.inside?_of_ne hu]
    cases h with
    | acquire | release =>
        simpa [List.count_append, List.count_singleton, Ne.symm hu] using hcount
    | read | write => exact hcount

theorem sound (h : Operation v w q v') (hsound : v.Sound) : v'.Sound where
  aborted := h.aborted_eq.trans hsound.aborted
  fit := h.fit hsound
  outside := h.outside hsound
  taking := h.taking hsound
  seen _ _ _ _ := h.seen hsound
  locks _ _ := h.locks hsound
  exclusive _ _ _ := h.exclusive hsound
  exchanges := h.exchanges hsound

end Operation

namespace Sound

theorem initial (memory : Memory) (gate : Gate) (spans : List Span) :
    Sound { state := .initial memory gate spans } where
  aborted := rfl
  fit := JobState.fit_initial memory gate spans
  outside _ _ := rfl
  taking _ := rfl
  seen _ _ _ _ hstage := by cases hstage
  locks q deque hdeque := by
    have hfree := JobState.Unbroken.initial memory gate spans
    exact .inl ⟨hfree.free deque (Array.mem_of_getElem? hdeque), fun u hu => by cases hu⟩
  exclusive _ _ _ hu := by cases hu
  exchanges _ _ := rfl

/-- What holds of all workers and locks goes on holding when something changes that is no operation
on a deque. -/
theorem of_quiet (h : v.Sound) {s' : JobState} (hdeques : s'.deques = v.state.deques)
    (haborted : s'.aborted = none) (hfit : s'.Fit)
    (hphase : ∀ u, s'.phase u = v.state.phase u ∨ (v.state.phase u).access? u = none) :
    Sound { v with state := s' } := by
  have hinside (u : Nat) : inside? { v with state := s' } u = v.inside? u := by
    rcases hphase u with hsame | hquiet
    · simp only [inside?, hsame]
    · have hstage := h.outside u hquiet
      rw [inside?_of_entering hstage, inside?_of_entering (by exact hstage)]
  refine ⟨haborted, hfit, fun u hquiet => ?_, h.taking, ?_, ?_, ?_, ?_⟩
  · rcases hphase u with hsame | hbefore
    · exact h.outside u (hsame ▸ hquiet)
    · exact h.outside u hbefore
  · simpa only [hinside, hdeques] using h.seen
  · simpa only [hinside, hdeques] using h.locks
  · simpa only [hinside] using h.exclusive
  · simpa only [hinside] using h.exchanges

theorem step (h : v.Sound) {spurious : Bool} (hstep : v.step job w spurious = some v') :
    v'.Sound := by
  rcases h.step_cases hstep with ⟨hquiet, s', hs', rfl⟩ | rfl | ⟨q, hoperation⟩
  · obtain ⟨hdeques, deed, hmove⟩ := Job.move_of_quiet hquiet h.aborted hs'
    refine h.of_quiet hdeques ((JobState.unbroken_freed h.aborted).move hmove).aborted
      (JobState.fit_freed.mp (hmove.fit (JobState.fit_freed.mpr h.fit))) fun u => ?_
    by_cases hu : u = w
    · exact .inr (hu ▸ hquiet)
    · exact .inl (hmove.phase_of_ne hu)
  · exact h
  · exact hoperation.sound h

theorem start (h : v.Sound) (hrunning : (v.state.phase w).isRunning = false) :
    Sound { v with state := v.state.start w } := by
  refine h.of_quiet (v.state.deques_start w) ((v.state.aborted_start w).trans h.aborted)
    (h.fit.start w) fun u => ?_
  rcases v.state.phase_start w u with hsame | ⟨rfl, -⟩
  · exact .inl hsame
  · exact .inr (Phase.access?_of_not_running hrunning)

theorem occur (h : v.Sound) {event : Event} (hoccur : v.occur job event = some v') : v'.Sound := by
  cases event with
  | start w =>
      simp only [Interleaving.occur] at hoccur
      split at hoccur
      · cases hoccur
      · rename_i hrunning
        cases hoccur
        exact h.start (Bool.eq_false_of_not_eq_true hrunning)
  | settle started =>
      cases hoccur
      exact h.of_quiet rfl h.aborted ⟨h.fit.sizes, h.fit.peers⟩ fun u => .inl rfl
  | step w spurious => exact h.step hoccur

theorem follow (h : v.Sound) {events : List Event}
    (hfollow : Interleaving.follow job events v = some v') : v'.Sound := by
  induction events generalizing v with
  | nil =>
      cases hfollow
      exact h
  | cons event rest ih =>
      obtain ⟨middle, hoccur, hrest⟩ := Option.bind_eq_some_iff.mp hfollow
      exact ih (h.occur hoccur) hrest

theorem holds_iff (h : v.Sound) : v.Holds w q ↔ v.inside? w = some q := by
  rw [Holds, h.exchanges w q]
  split
  · exact iff_of_true (Nat.lt_succ_self _) ‹_›
  · exact iff_of_false (Nat.lt_irrefl _) ‹_›

end Sound

end Interleaving

end Elementwise
