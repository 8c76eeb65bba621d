import Elementwise.Launch.Basic
import Mathlib.Data.List.TakeWhile

/-!
The contract of a launch. It creates threads for some workers in ascending order, settles the gate
with their number when there are no more to come, and then joins all of them in the same order. Only
a worker that could not be started keeps it from creating a thread for every one.
-/

namespace Elementwise

namespace Launch

/-- Joins the workers that are left, and reports the payloads behind those of the workers that were
joined before. -/
def joining (spawned : Nat) (refused : Option Nat) :
    List Nat → List (Nat × Payload) → Launch LaunchRecord
  | [], payloads => .result ⟨spawned, refused, payloads⟩
  | w :: rest, payloads => .join w fun payload =>
      joining spawned refused rest (payloads ++ (payload.map fun cause => (w, cause)).toList)

/-- Settles the gate with the number of the workers that were started, and joins them. -/
def settling (started : List Nat) (refused : Option Nat) : Launch LaunchRecord :=
  .settle started.length (joining started.length refused started [])

/-- Creates threads for the given workers, and one in vain if there is a worker that is refused.
Then the gate is settled, and the workers are joined. -/
def contract (started : List Nat) (refused : Option Nat) : Launch LaunchRecord :=
  started.foldr .create (refused.toList.foldr .refuse (settling started refused))

/-- The payloads of those of the given workers that end badly. -/
def losses (endings : Nat → Option Payload) (workers : List Nat) : List (Nat × Payload) :=
  workers.filterMap fun w => (endings w).map fun cause => (w, cause)

theorem losses_append (endings : Nat → Option Payload) (done rest : List Nat) :
    losses endings (done ++ rest) = losses endings done ++ losses endings rest :=
  List.filterMap_append

theorem losses_singleton (endings : Nat → Option Payload) (w : Nat) :
    losses endings [w] = ((endings w).map fun cause => (w, cause)).toList := by
  unfold losses
  cases h : endings w <;> simp [h]

theorem losses_cons (endings : Nat → Option Payload) (w : Nat) (rest : List Nat) :
    losses endings (w :: rest) =
      ((endings w).map fun cause => (w, cause)).toList ++ losses endings rest := by
  rw [← losses_singleton]
  exact losses_append endings [w] rest

/-- Workers that are joined in ascending order are reported in that order. -/
theorem pairwise_losses (endings : Nat → Option Payload) {workers : List Nat}
    (hascending : workers.Pairwise (· < ·)) :
    (losses endings workers).Pairwise fun a b => a.1 < b.1 := by
  refine List.pairwise_filterMap.mpr (hascending.imp fun {v w} hlt a ha b hb => ?_)
  obtain ⟨cause, -, rfl⟩ := Option.map_eq_some_iff.mp ha
  obtain ⟨cause', -, rfl⟩ := Option.map_eq_some_iff.mp hb
  exact hlt

end Launch

/-- The workers that a launch starts, out of a number of them, and one that it could not start. -/
structure Team (workers : Nat) where
  members : List Nat
  refused : Option Nat
  ascending : members.Pairwise (· < ·)
  lt : ∀ w ∈ members, w < workers
  complete : refused = none → members.length = workers

namespace Team

variable {workers : Nat}

/-- The launch of a team. -/
def plan (team : Team workers) : Launch LaunchRecord := .contract team.members team.refused

theorem nodup (team : Team workers) : team.members.Nodup := team.ascending.imp Nat.ne_of_lt

/-- All workers. -/
def all (workers : Nat) : Team workers where
  members := List.range workers
  refused := none
  ascending := List.pairwise_lt_range
  lt _ hw := List.mem_range.mp hw
  complete _ := List.length_range

/-- The workers in front of the first one whose thread cannot be created. -/
def created (creates : Nat → Bool) (workers : Nat) : Team workers where
  members := (List.range workers).takeWhile creates
  refused := (List.range workers).find? fun w => !creates w
  ascending := List.pairwise_lt_range.sublist (List.takeWhile_sublist creates)
  lt _ hw := List.mem_range.mp ((List.takeWhile_sublist creates).subset hw)
  complete hnone := by
    rw [List.takeWhile_eq_self_iff.mpr fun w hw => ?_, List.length_range]
    simpa using List.find?_eq_none.mp hnone w hw

/-- The first failure, if there is one, ends the attempts. -/
theorem takeWhile_eq_take {p : Nat → Bool} {ids : List Nat} {f : Nat}
    (hpasses : ∀ w ∈ ids.take f, p w = true) (hfails : ∀ w, ids[f]? = some w → p w = false) :
    ids.takeWhile p = ids.take f ∧ (ids.find? fun w => !p w) = ids[f]? := by
  induction ids generalizing f with
  | nil => exact ⟨by simp, by simp⟩
  | cons w ids ih =>
      cases f with
      | zero =>
          have hw := hfails w rfl
          exact ⟨by simp [hw], by simp [hw]⟩
      | succ f =>
          have hw := hpasses w (by simp)
          obtain ⟨htake, hfind⟩ := @ih f (fun v hv => hpasses v (by simp [hv])) hfails
          exact ⟨by simp [hw, htake], by simp [hw, hfind]⟩

theorem created_eq {creates : Nat → Bool} {f : Nat} (hf : f < workers)
    (hcreates : ∀ w < f, creates w = true) (hrefuses : creates f = false) :
    (created creates workers).members = List.range f ∧
      (created creates workers).refused = some f := by
  have htake : (List.range workers).take f = List.range f := by
    rw [List.take_range, Nat.min_eq_left (Nat.le_of_lt hf)]
  have hget : (List.range workers)[f]? = some f := List.getElem?_range hf
  have hpasses : ∀ w ∈ (List.range workers).take f, creates w = true :=
    fun w hw => hcreates w (List.mem_range.mp (htake ▸ hw))
  have hfails : ∀ w, (List.range workers)[f]? = some w → creates w = false := by
    intro w hw
    cases hget.symm.trans hw
    exact hrefuses
  obtain ⟨hmembers, hrefused⟩ := takeWhile_eq_take hpasses hfails
  exact ⟨hmembers.trans htake, hrefused.trans hget⟩

end Team

end Elementwise
