import Elementwise.Sync.Lock
import Mathlib.Data.List.Basic
import Mathlib.Tactic.ByContra

/-!
Threads that call a lock as they please, also without holding it. Every exchange is a step, and so
is the store by which a call that has failed poisons the lock. The lock knows no owner, and still no
order of steps hides a release too many: exchanges succeed in turns, a poisoned lock stays poisoned,
and a call that has failed can only raise what it has seen.

Where a violation ends the process, its runs are the beginnings of the runs here.
-/

namespace Elementwise

namespace Lock

/-- The word that the exchange of a call needs. -/
def Call.expects : Call → UInt32
  | acquire => free
  | release => held

/-- The word that the exchange of a call puts in its place. -/
def Call.leaves : Call → UInt32
  | acquire => held
  | release => free

/-- Whose turn it is after a number of successful exchanges. -/
def Call.atTurn (turn : Nat) : Call := if turn % 2 = 0 then acquire else release

def Stage.isUnderWay : Stage → Bool
  | trying _ | poisoning _ => true
  | _ => false

/-- The word on which a call has failed. -/
def Stage.failure? : Stage → Option UInt32
  | poisoning observed | raised observed => some observed
  | _ => none

theorem step_trying (spurious : Bool) (call : Call) (l : Lock) :
    (call = .acquire ∧ step spurious (.trying call) l = (.trying call, l)) ∨
      (l.word = call.expects ∧ step spurious (.trying call) l = (.returned, ⟨call.leaves⟩)) ∨
      (l.word ≠ call.expects ∧ (call = .acquire → l.word ≠ held) ∧
        step spurious (.trying call) l = (.poisoning l.word, l)) := by
  rcases call with - | -
  · by_cases hfree : l.word = free
    · rcases spurious with - | -
      · exact .inr (.inl ⟨hfree, by simp [step, hfree, Call.leaves]⟩)
      · exact .inl ⟨rfl, by simp [step, hfree]⟩
    · by_cases hheld : l.word = held
      · exact .inl ⟨rfl, by simp [step, hheld, held, free]⟩
      · exact .inr (.inr ⟨hfree, fun _ => hheld, by simp [step, hfree, hheld]⟩)
  · by_cases hheld : l.word = held
    · exact .inr (.inl ⟨hheld, by simp [step, hheld, Call.leaves]⟩)
    · exact .inr (.inr ⟨hheld, fun hcall => Call.noConfusion hcall, by simp [step, hheld]⟩)

/-- A call that a thread has made. -/
structure Bid where
  thread : Nat
  call : Call
  stage : Stage
  /-- The word that its last exchange found. -/
  seen : Option UInt32 := none
deriving DecidableEq, Repr

/-- A lock and all calls made on it, in the order in which they began. -/
structure Contest where
  lock : Lock := {}
  bids : List Bid := []
  /-- The calls whose exchange succeeded, in the order in which it did. -/
  wins : List Call := []

namespace Contest

/-- A thread begins a call, or a call takes a step. -/
inductive Event where
  | call (thread : Nat) (call : Call)
  | step (bid : Nat) (spurious : Bool)
deriving DecidableEq, Repr

/-- What the step of a call to a stage makes of it. -/
def moved (bid : Bid) (word : UInt32) (stage : Stage) : Bid :=
  match bid.stage with
  | .trying _ => { bid with stage, seen := some word }
  | _ => { bid with stage }

/-- Lets something happen. A thread begins a call when its last one is over. -/
def occur (c : Contest) : Event → Option Contest
  | .call thread call =>
      if c.bids.any fun bid => bid.thread == thread && bid.stage.isUnderWay then none
      else some { c with bids := c.bids ++ [⟨thread, call, .trying call, none⟩] }
  | .step k spurious =>
      match c.bids[k]? with
      | none => none
      | some bid =>
          if bid.stage.isUnderWay then
            let (stage, lock) := c.lock.step spurious bid.stage
            some {
              lock
              bids := c.bids.set k (moved bid c.lock.word stage)
              wins := if stage = .returned then c.wins ++ [bid.call] else c.wins }
          else none

def follow : List Event → Contest → Option Contest
  | [], c => some c
  | event :: rest, c => (c.occur event).bind (follow rest)

/-- The number of calls of a kind that have returned, which they do with a successful exchange. -/
def returns (c : Contest) (call : Call) : Nat :=
  c.bids.countP fun bid => bid.call = call && bid.stage = .returned

/-- The number of releases that have made their exchange, with success or without. -/
def tried (c : Contest) : Nat :=
  c.bids.countP fun bid => bid.call = .release && bid.stage ≠ .trying .release

/-- What a step of a call does to a contest. -/
inductive Move (c : Contest) (k : Nat) (bid : Bid) : Contest → Prop where
  | retry (hstage : bid.stage = .trying .acquire) :
      Move c k bid { c with bids := c.bids.set k { bid with seen := some c.lock.word } }
  | win {call : Call} (hstage : bid.stage = .trying call) (hword : c.lock.word = call.expects) :
      Move c k bid {
        lock := ⟨call.leaves⟩
        bids := c.bids.set k { bid with stage := .returned, seen := some c.lock.word }
        wins := c.wins ++ [bid.call] }
  | fail {call : Call} (hstage : bid.stage = .trying call) (hword : c.lock.word ≠ call.expects)
      (hheld : call = .acquire → c.lock.word ≠ held) :
      Move c k bid { c with
        bids := c.bids.set k
          { bid with stage := .poisoning c.lock.word, seen := some c.lock.word } }
  | poison {observed : UInt32} (hstage : bid.stage = .poisoning observed) :
      Move c k bid { c with
        lock := ⟨poisoned⟩
        bids := c.bids.set k { bid with stage := .raised observed } }

variable {c c' : Contest} {k : Nat} {bid : Bid}

theorem move_of_step {spurious : Bool} (h : c.occur (.step k spurious) = some c') :
    ∃ bid, c.bids[k]? = some bid ∧ Move c k bid c' := by
  simp only [occur] at h
  rcases hbid : c.bids[k]? with - | bid
  · simp [hbid] at h
  · refine ⟨bid, rfl, ?_⟩
    simp only [hbid] at h
    rcases hstage : bid.stage with call | observed | - | observed
    · simp only [hstage, Stage.isUnderWay, if_true, moved] at h
      rcases step_trying spurious call c.lock with
        ⟨rfl, hstep⟩ | ⟨hword, hstep⟩ | ⟨hword, hheld, hstep⟩
      · rw [hstep, ← hstage] at h
        simp only [hstage, reduceCtorEq, if_false] at h
        rw [← Option.some.inj h, ← hstage]
        exact .retry hstage
      · rw [hstep] at h
        simp only [if_true] at h
        rw [← Option.some.inj h]
        exact .win hstage hword
      · rw [hstep] at h
        simp only [reduceCtorEq, if_false] at h
        rw [← Option.some.inj h]
        exact .fail hstage hword hheld
    · simp only [hstage, Stage.isUnderWay, if_true, moved, step, reduceCtorEq, if_false] at h
      rw [← Option.some.inj h]
      exact .poison hstage
    · simp [hstage, Stage.isUnderWay] at h
    · simp [hstage, Stage.isUnderWay] at h

/-- What a step does to the call that takes it. A call that has failed keeps to its failure. -/
theorem Move.exists_bid (h : Move c k bid c') :
    ∃ after, c'.bids = c.bids.set k after ∧ after.call = bid.call ∧
      ∀ observed, bid.stage.failure? = some observed → after.stage.failure? = some observed := by
  rcases h with ⟨hstage⟩ | ⟨hstage, -⟩ | ⟨hstage, -, -⟩ | ⟨hstage⟩
  · exact ⟨_, rfl, rfl, fun _ hfailure => hfailure⟩
  · refine ⟨_, rfl, rfl, fun observed hfailure => ?_⟩
    rw [hstage] at hfailure
    exact absurd hfailure (by simp [Stage.failure?])
  · refine ⟨_, rfl, rfl, fun observed hfailure => ?_⟩
    rw [hstage] at hfailure
    exact absurd hfailure (by simp [Stage.failure?])
  · refine ⟨_, rfl, rfl, fun observed hfailure => ?_⟩
    rwa [hstage] at hfailure

theorem countP_set (p : Bid → Bool) {bids : List Bid} (hbid : bids[k]? = some bid) (after : Bid) :
    (bids.set k after).countP p + (if p bid then 1 else 0) =
      bids.countP p + if p after then 1 else 0 := by
  obtain ⟨hk, rfl⟩ := List.getElem?_eq_some_iff.mp hbid
  have hle : (if p bids[k] then 1 else 0) ≤ bids.countP p := by
    split
    · rename_i hp
      exact List.countP_pos_iff.mpr ⟨_, List.getElem_mem hk, hp⟩
    · exact Nat.zero_le _
  rw [List.countP_set hk]
  omega

/-- What holds of a lock and its calls at all times. -/
structure Sound (c : Contest) : Prop where
  wins : c.wins = (List.range c.wins.length).map Call.atTurn
  word : c.lock.word = (Call.atTurn c.wins.length).expects ∨ c.lock.word = poisoned
  returns : ∀ call, c.returns call = c.wins.count call
  own : ∀ bid ∈ c.bids, ∀ call, bid.stage = .trying call → call = bid.call
  failed : ∀ bid ∈ c.bids, ∀ observed, bid.stage.failure? = some observed →
    bid.seen = some observed ∧ (observed = free ∨ observed = poisoned)
  raised : ∀ bid ∈ c.bids, ∀ observed, bid.stage = .raised observed → c.lock.word = poisoned

theorem forall_mem_set {motive : Bid → Prop} {bids : List Bid} (hold : ∀ bid ∈ bids, motive bid)
    {after : Bid} (hnew : motive after) : ∀ bid ∈ bids.set k after, motive bid := by
  intro bid hbid
  rcases List.mem_or_eq_of_mem_set hbid with hbid | rfl
  · exact hold bid hbid
  · exact hnew

theorem expects_ne_poisoned (call : Call) : call.expects ≠ poisoned := by
  rcases call with - | - <;> decide

theorem expects_injective {call other : Call} (h : call.expects = other.expects) :
    call = other := by
  rcases call with - | - <;> rcases other with - | -
  · rfl
  · exact absurd h (by decide)
  · exact absurd h (by decide)
  · rfl

theorem ne_held {call : Call} {word : UInt32} (hword : word ≠ call.expects)
    (hheld : call = .acquire → word ≠ held) : word ≠ held := by
  rcases call with - | -
  · exact hheld rfl
  · exact hword

theorem leaves_atTurn (turn : Nat) :
    (Call.atTurn turn).leaves = (Call.atTurn (turn + 1)).expects := by
  rcases Nat.mod_two_eq_zero_or_one turn with hturn | hturn
  · have hnext : (turn + 1) % 2 = 1 := by omega
    simp [Call.atTurn, hturn, hnext, Call.leaves, Call.expects]
  · have hnext : (turn + 1) % 2 = 0 := by omega
    simp [Call.atTurn, hturn, hnext, Call.leaves, Call.expects]

namespace Sound

theorem initial : Sound {} where
  wins := rfl
  word := .inl rfl
  returns _ := rfl
  own _ hbid := absurd hbid List.not_mem_nil
  failed _ hbid := absurd hbid List.not_mem_nil
  raised _ hbid := absurd hbid List.not_mem_nil

theorem word_cases (h : c.Sound) :
    c.lock.word = free ∨ c.lock.word = held ∨ c.lock.word = poisoned := by
  rcases h.word with hword | hword
  · rw [hword]
    rcases Call.atTurn c.wins.length with - | -
    · exact .inl rfl
    · exact .inr (.inl rfl)
  · exact .inr (.inr hword)

theorem call (h : c.Sound) {thread : Nat} {call : Call}
    (hoccur : c.occur (.call thread call) = some c') : c'.Sound := by
  simp only [occur] at hoccur
  split at hoccur
  · exact absurd hoccur (by simp)
  · rw [← Option.some.inj hoccur]
    have hmem {motive : Bid → Prop} (hold : ∀ bid ∈ c.bids, motive bid)
        (hnew : motive ⟨thread, call, .trying call, none⟩) :
        ∀ bid ∈ c.bids ++ [⟨thread, call, .trying call, none⟩], motive bid :=
      List.forall_mem_append.mpr ⟨hold, List.forall_mem_singleton.mpr hnew⟩
    refine ⟨h.wins, h.word, fun other => ?_, hmem h.own ?_, hmem h.failed ?_, hmem h.raised ?_⟩
    · rw [← h.returns other]
      simp [Contest.returns]
    · rintro other heq
      exact (Stage.trying.inj heq).symm
    · rintro observed hfailure
      exact absurd hfailure (by simp [Stage.failure?])
    · rintro observed heq
      exact Stage.noConfusion heq

/-- A step at which no call returns and the lock keeps its word, or is poisoned. -/
theorem of_set (h : c.Sound) (hbid : c.bids[k]? = some bid) {after : Bid} {word : UInt32}
    (hafter : after.stage ≠ .returned) (hbefore : bid.stage ≠ .returned)
    (hword : word = c.lock.word ∨ word = poisoned)
    (hown : ∀ call, after.stage = .trying call → call = after.call)
    (hfailed : ∀ observed, after.stage.failure? = some observed →
      after.seen = some observed ∧ (observed = free ∨ observed = poisoned))
    (hraised : ∀ observed, after.stage = .raised observed → word = poisoned) :
    Sound { c with lock := ⟨word⟩, bids := c.bids.set k after } := by
  refine ⟨h.wins, ?_, fun call => ?_, forall_mem_set h.own hown, forall_mem_set h.failed hfailed,
    forall_mem_set ?_ hraised⟩
  · rcases hword with rfl | hpoisoned
    · exact h.word
    · exact .inr hpoisoned
  · have hcount := countP_set (fun bid => bid.call = call && bid.stage = .returned) hbid after
    simp only [hafter, hbefore, decide_false, Bool.and_false, Bool.false_eq_true,
      if_false] at hcount
    exact hcount.trans (h.returns call)
  · intro other hother observed hstage
    have hpoisoned := h.raised other hother observed hstage
    rcases hword with hword | hword
    · exact hword.trans hpoisoned
    · exact hword

theorem win (h : c.Sound) (hbid : c.bids[k]? = some bid) {call : Call}
    (hstage : bid.stage = .trying call) (hword : c.lock.word = call.expects) :
    Sound {
      lock := ⟨call.leaves⟩
      bids := c.bids.set k { bid with stage := .returned, seen := some c.lock.word }
      wins := c.wins ++ [bid.call] } := by
  obtain rfl : call = bid.call := h.own bid (List.mem_of_getElem? hbid) call hstage
  have hturn : bid.call = Call.atTurn c.wins.length := by
    rcases h.word with hword' | hpoisoned
    · exact expects_injective (hword.symm.trans hword')
    · exact absurd (hword.symm.trans hpoisoned) (expects_ne_poisoned bid.call)
  refine ⟨?_, .inl ?_, fun call => ?_, forall_mem_set h.own ?_, forall_mem_set h.failed ?_,
    forall_mem_set ?_ ?_⟩
  · rw [List.length_append, List.length_singleton, List.range_succ, List.map_append, ← h.wins,
      List.map_singleton, ← hturn]
  · rw [List.length_append, List.length_singleton, ← leaves_atTurn, ← hturn]
  · have hcount := countP_set (fun bid => bid.call = call && bid.stage = .returned) hbid
      { bid with stage := .returned, seen := some c.lock.word }
    simp only [hstage, reduceCtorEq, decide_false, Bool.and_false, Bool.false_eq_true, if_false,
      decide_true, Bool.and_true, decide_eq_true_eq, Nat.add_zero] at hcount
    rw [List.count_append, ← h.returns call, List.count_singleton]
    simp only [beq_iff_eq]
    exact hcount
  · intro call heq
    exact Stage.noConfusion heq
  · intro observed hfailure
    exact absurd hfailure (by simp [Stage.failure?])
  · intro other hother observed hraised
    have hpoisoned := h.raised other hother observed hraised
    exact absurd (hword.symm.trans hpoisoned) (expects_ne_poisoned bid.call)
  · intro observed heq
    exact Stage.noConfusion heq

theorem move (h : c.Sound) (hbid : c.bids[k]? = some bid) (hmove : Move c k bid c') :
    c'.Sound := by
  have hmem := List.mem_of_getElem? hbid
  rcases hmove with ⟨hstage⟩ | ⟨hstage, hword⟩ | ⟨hstage, hword, hheld⟩ | ⟨hstage⟩
  · refine h.of_set hbid ?_ ?_ (.inl rfl) (h.own bid hmem) ?_ ?_
    · simp [hstage]
    · simp [hstage]
    · simp [hstage, Stage.failure?]
    · simp [hstage]
  · exact h.win hbid hstage hword
  · refine h.of_set hbid ?_ ?_ (.inl rfl) ?_ ?_ ?_
    · simp
    · simp [hstage]
    · simp
    · rintro observed hfailure
      obtain rfl := Option.some.inj hfailure
      refine ⟨rfl, ?_⟩
      rcases h.word_cases with hfree | hfound | hpoisoned
      · exact .inl hfree
      · exact absurd hfound (ne_held hword hheld)
      · exact .inr hpoisoned
    · simp
  · have hfailed := h.failed bid hmem
    rw [hstage] at hfailed
    refine h.of_set hbid ?_ ?_ (.inr rfl) ?_ ?_ fun _ _ => rfl
    · simp
    · simp [hstage]
    · simp
    · exact hfailed

theorem occur (h : c.Sound) {event : Event} (hoccur : c.occur event = some c') : c'.Sound := by
  rcases event with ⟨thread, call⟩ | ⟨k, spurious⟩
  · exact h.call hoccur
  · obtain ⟨bid, hbid, hmove⟩ := move_of_step hoccur
    exact h.move hbid hmove

theorem follow (h : c.Sound) {events : List Event} (hfollow : c.follow events = some c') :
    c'.Sound := by
  induction events generalizing c with
  | nil =>
      obtain rfl := Option.some.inj hfollow
      exact h
  | cons event rest ih =>
      obtain ⟨middle, hoccur, hrest⟩ := Option.bind_eq_some_iff.mp hfollow
      exact ih (h.occur hoccur) hrest

end Sound

theorem poisoned_occur (hword : c.lock.word = poisoned) {event : Event}
    (hoccur : c.occur event = some c') :
    c'.lock.word = poisoned ∧ c'.wins = c.wins ∧
      ∀ (k : Nat) (bid : Bid), c'.bids[k]? = some bid → bid.stage = .returned →
        c.bids[k]? = some bid := by
  rcases event with ⟨thread, call⟩ | ⟨j, spurious⟩
  · simp only [occur] at hoccur
    split at hoccur
    · exact absurd hoccur (by simp)
    · rw [← Option.some.inj hoccur]
      refine ⟨hword, rfl, fun k bid hbid hreturned => ?_⟩
      rw [List.getElem?_append] at hbid
      split at hbid
      · exact hbid
      · have hnew := List.mem_singleton.mp (List.mem_of_getElem? hbid)
        rw [hnew] at hreturned
        exact Stage.noConfusion hreturned
  · obtain ⟨bid, hbid, hmove⟩ := move_of_step hoccur
    have hset {after : Bid} (hafter : after.stage ≠ .returned) (k : Nat) (other : Bid)
        (hother : (c.bids.set j after)[k]? = some other) (hreturned : other.stage = .returned) :
        c.bids[k]? = some other := by
      rw [List.getElem?_set] at hother
      split at hother
      · split at hother
        · obtain rfl := Option.some.inj hother
          exact absurd hreturned hafter
        · exact absurd hother (by simp)
      · exact hother
    rcases hmove with ⟨hstage⟩ | ⟨hstage, hexpects⟩ | ⟨hstage, -, -⟩ | ⟨hstage⟩
    · exact ⟨hword, rfl, hset (by simp [hstage])⟩
    · exact absurd (hexpects.symm.trans hword) (expects_ne_poisoned _)
    · exact ⟨hword, rfl, hset (by simp)⟩
    · exact ⟨rfl, rfl, hset (by simp)⟩

theorem poisoned_follow (hword : c.lock.word = poisoned) {events : List Event}
    (hfollow : c.follow events = some c') :
    c'.lock.word = poisoned ∧ c'.wins = c.wins ∧
      ∀ (k : Nat) (bid : Bid), c'.bids[k]? = some bid → bid.stage = .returned →
        c.bids[k]? = some bid := by
  induction events generalizing c with
  | nil =>
      obtain rfl := Option.some.inj hfollow
      exact ⟨hword, rfl, fun _ _ hbid _ => hbid⟩
  | cons event rest ih =>
      obtain ⟨middle, hoccur, hrest⟩ := Option.bind_eq_some_iff.mp hfollow
      obtain ⟨hfirst, hwins, hreturned⟩ := poisoned_occur hword hoccur
      obtain ⟨hlast, hwins', hreturned'⟩ := ih hfirst hrest
      exact ⟨hlast, hwins'.trans hwins, fun k bid hbid hstage =>
        hreturned k bid (hreturned' k bid hbid hstage) hstage⟩

theorem failure_occur (hbid : c.bids[k]? = some bid) {observed : UInt32}
    (hfailure : bid.stage.failure? = some observed) {event : Event}
    (hoccur : c.occur event = some c') :
    ∃ after : Bid, c'.bids[k]? = some after ∧ after.stage.failure? = some observed := by
  have hk := (List.getElem?_eq_some_iff.mp hbid).1
  rcases event with ⟨thread, call⟩ | ⟨j, spurious⟩
  · simp only [occur] at hoccur
    split at hoccur
    · exact absurd hoccur (by simp)
    · rw [← Option.some.inj hoccur, List.getElem?_append_left hk]
      exact ⟨bid, hbid, hfailure⟩
  · obtain ⟨mover, hmover, hmove⟩ := move_of_step hoccur
    obtain ⟨after, hbids, -, hkept⟩ := hmove.exists_bid
    rw [hbids]
    rcases Nat.decEq j k with hne | rfl
    · rw [List.getElem?_set_ne hne]
      exact ⟨bid, hbid, hfailure⟩
    · rw [List.getElem?_set_self hk]
      obtain rfl := Option.some.inj (hmover.symm.trans hbid)
      exact ⟨after, rfl, hkept observed hfailure⟩

theorem failure_follow (hbid : c.bids[k]? = some bid) {observed : UInt32}
    (hfailure : bid.stage.failure? = some observed) {events : List Event}
    (hfollow : c.follow events = some c') :
    ∃ after : Bid, c'.bids[k]? = some after ∧ after.stage.failure? = some observed := by
  induction events generalizing c bid with
  | nil =>
      obtain rfl := Option.some.inj hfollow
      exact ⟨bid, hbid, hfailure⟩
  | cons event rest ih =>
      obtain ⟨middle, hoccur, hrest⟩ := Option.bind_eq_some_iff.mp hfollow
      obtain ⟨next, hnext, hstill⟩ := failure_occur hbid hfailure hoccur
      exact ih hnext hstill hrest

theorem occur_of_poisoning (hbid : c.bids[k]? = some bid) {observed : UInt32}
    (hstage : bid.stage = .poisoning observed) (spurious : Bool) :
    c.occur (.step k spurious) = some { c with
      lock := ⟨poisoned⟩
      bids := c.bids.set k { bid with stage := .raised observed } } := by
  simp [occur, hbid, hstage, Stage.isUnderWay, step, moved]

theorem count_atTurn (turns : Nat) :
    ((List.range turns).map Call.atTurn).count .acquire = (turns + 1) / 2 ∧
      ((List.range turns).map Call.atTurn).count .release = turns / 2 := by
  induction turns with
  | zero => exact ⟨rfl, rfl⟩
  | succ turns ih =>
      rw [List.range_succ, List.map_append, List.map_singleton, List.count_append,
        List.count_append, ih.1, ih.2]
      rcases Nat.mod_two_eq_zero_or_one turns with hturn | hturn
      · simp [Call.atTurn, hturn]
        omega
      · simp [Call.atTurn, hturn]
        omega

theorem Sound.exists_failed (h : c.Sound) (hexcess : c.returns .acquire < c.tried) :
    ∃ (k : Nat) (bid : Bid) (observed : UInt32), c.bids[k]? = some bid ∧ bid.call = .release ∧
      bid.stage.failure? = some observed := by
  have hreleases : c.returns .release ≤ c.returns .acquire := by
    rw [h.returns, h.returns, h.wins, (count_atTurn _).1, (count_atTurn _).2]
    omega
  by_contra hnone
  refine absurd hexcess (Nat.not_lt_of_le (Nat.le_trans ?_ hreleases))
  refine List.countP_mono_left fun bid hmem htried => ?_
  simp only [Bool.and_eq_true, decide_eq_true_eq] at htried ⊢
  refine ⟨htried.1, ?_⟩
  obtain ⟨k, hbid⟩ := List.mem_iff_getElem?.mp hmem
  rcases hstage : bid.stage with call | observed | - | observed
  · obtain rfl : call = .release := (h.own bid hmem call hstage).trans htried.1
    exact absurd hstage htried.2
  · exact absurd ⟨k, bid, observed, hbid, htried.1, by rw [hstage]; rfl⟩ hnone
  · rfl
  · exact absurd ⟨k, bid, observed, hbid, htried.1, by rw [hstage]; rfl⟩ hnone

/-- How misuse of a lock shows. -/
structure Guarded (c : Contest) : Prop where
  word : c.lock.word = free ∨ c.lock.word = held ∨ c.lock.word = poisoned
  /-- The exchanges that succeed are those of an acquire, a release, an acquire, and so on. -/
  wins : c.wins = (List.range c.wins.length).map Call.atTurn
  /-- Once a lock is poisoned it stays so, no exchange on it succeeds, and no call returns. -/
  poisoned : c.lock.word = poisoned → ∀ events c', c.follow events = some c' →
    c'.lock.word = Lock.poisoned ∧ c'.wins = c.wins ∧
      ∀ (k : Nat) (bid : Bid), c'.bids[k]? = some bid → bid.stage = .returned →
        c.bids[k]? = some bid
  /-- A call fails on the word that its exchange found. It has poisoned the lock and raised, or that
  is its next step. -/
  failed : ∀ (k : Nat) (bid : Bid) (observed : UInt32), c.bids[k]? = some bid →
    bid.stage.failure? = some observed →
    bid.seen = some observed ∧ (observed = free ∨ observed = Lock.poisoned) ∧
      (bid.stage = .raised observed ∧ c.lock.word = Lock.poisoned ∨
        ∀ spurious, c.occur (.step k spurious) = some { c with
          lock := ⟨Lock.poisoned⟩
          bids := c.bids.set k { bid with stage := .raised observed } })
  raised : ∀ bid ∈ c.bids, ∀ observed, bid.stage = .raised observed → ∀ policy,
    bid.stage.attempt.answer policy = (Breach.lockProtocol observed).raise policy
  /-- With more releases tried than acquires returned, a release has failed, and whatever happens
  next it does not return. -/
  excess : c.returns .acquire < c.tried → ∃ (k : Nat) (bid : Bid) (observed : UInt32),
    c.bids[k]? = some bid ∧ bid.call = .release ∧ bid.stage.failure? = some observed ∧
      ∀ events c', c.follow events = some c' →
        ∃ after : Bid, c'.bids[k]? = some after ∧ after.stage.failure? = some observed

/-- Whatever calls are made on a lock and in whatever order their steps come, misuse is found, and
nobody gets past a poisoned lock. -/
theorem misuse_detected (events : List Event) (c : Contest) (hfollow : follow events {} = some c) :
    c.Guarded := by
  have h := Sound.initial.follow hfollow
  refine ⟨h.word_cases, h.wins, fun hword _ _ => poisoned_follow hword, ?_, ?_, fun hexcess => ?_⟩
  · intro k bid observed hbid hfailure
    have hmem := List.mem_of_getElem? hbid
    obtain ⟨hseen, hword⟩ := h.failed bid hmem observed hfailure
    refine ⟨hseen, hword, ?_⟩
    rcases hstage : bid.stage with call | found | - | found
    · exact absurd hfailure (by simp [hstage, Stage.failure?])
    · obtain rfl : found = observed := by simpa [hstage, Stage.failure?] using hfailure
      exact .inr (occur_of_poisoning hbid hstage)
    · exact absurd hfailure (by simp [hstage, Stage.failure?])
    · obtain rfl : found = observed := by simpa [hstage, Stage.failure?] using hfailure
      exact .inl ⟨rfl, h.raised bid hmem found hstage⟩
  · intro bid hbid observed hstage policy
    rw [hstage]
    rfl
  · obtain ⟨k, bid, observed, hbid, hcall, hfailure⟩ := h.exists_failed hexcess
    exact ⟨k, bid, observed, hbid, hcall, hfailure, fun _ _ => failure_follow hbid hfailure⟩

/-- A thread releases a lock that it does not hold. Before it gets to poison it another thread
acquires, releases and acquires; that one's second release fails in turn. -/
theorem misuse_detected_after_others :
    ∃ c, follow [.call 1 .release, .step 0 false, .call 0 .acquire, .step 1 true, .step 1 false,
          .call 0 .release, .step 2 false, .call 0 .acquire, .step 3 false, .step 0 false,
          .call 0 .release, .step 4 false] {} = some c ∧
      c.wins = [.acquire, .release, .acquire] ∧ c.lock.word = Lock.poisoned ∧
      c.returns .acquire = 2 ∧ c.tried = 3 ∧
      ∃ (k : Nat) (bid : Bid) (observed : UInt32), c.bids[k]? = some bid ∧ bid.call = .release ∧
        bid.stage.failure? = some observed := by
  have hrun : ∃ c, follow [.call 1 .release, .step 0 false, .call 0 .acquire, .step 1 true,
          .step 1 false, .call 0 .release, .step 2 false, .call 0 .acquire, .step 3 false,
          .step 0 false, .call 0 .release, .step 4 false] {} = some c ∧
      c.wins = [.acquire, .release, .acquire] ∧ c.lock.word = Lock.poisoned ∧
      c.returns .acquire = 2 ∧ c.tried = 3 := ⟨_, rfl, rfl, rfl, rfl, rfl⟩
  obtain ⟨c, hfollow, hwins, hword, hreturns, htried⟩ := hrun
  have hguarded := misuse_detected _ c hfollow
  obtain ⟨k, bid, observed, hbid, hcall, hfailure, -⟩ := hguarded.excess (by omega)
  exact ⟨c, hfollow, hwins, hword, hreturns, htried, k, bid, observed, hbid, hcall, hfailure⟩

end Contest

end Lock

end Elementwise
