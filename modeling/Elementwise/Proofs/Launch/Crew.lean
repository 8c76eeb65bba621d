import Elementwise.Proofs.Launch.Libraries

/-!
Launches that are run on a crew. The launch of the contract lets each of its members begin once,
settles the gate once they all have, and waits for each of them once. A launch that leaves threads to
its scope is where the libraries come apart.
-/

namespace Elementwise

namespace Crew

variable {σ α β : Type} (crew : Crew σ)

/-- A crew all of which has begun. -/
def beginAll (members : List Nat) (s : σ) : σ := members.foldl (fun s w => crew.begin w s) s

/-- A crew all of which has been waited for. -/
def finishAll (members : List Nat) (s : σ) : σ := members.foldl (fun s w => (crew.finish w s).1) s

theorem run_bind (launch : Launch α) (next : α → Launch β) (s : σ) :
    crew.run (launch.bind next) s =
      match crew.run launch s with
      | (.ok value, s) => crew.run (next value) s
      | (.error cause, s) => (.error cause, s) := by
  induction launch generalizing s with
  | result value => rfl
  | unwind cause => rfl
  | create w rest ih => exact ih (crew.begin w s)
  | refuse w rest ih => exact ih s
  | settle started rest ih => exact ih (crew.settle started s)
  | join w rest ih => exact ih (crew.finish w s).2 (crew.finish w s).1

theorem run_foldr_create (members : List Nat) (rest : Launch α) (s : σ) :
    crew.run (members.foldr .create rest) s = crew.run rest (crew.beginAll members s) := by
  induction members generalizing s with
  | nil => rfl
  | cons w members ih => exact ih (crew.begin w s)

theorem run_foldr_refuse (refused : Option Nat) (rest : Launch α) (s : σ) :
    crew.run (refused.toList.foldr .refuse rest) s = crew.run rest s := by
  cases refused <;> rfl

variable {crew} {endings : Nat → Option Payload}

theorem run_joining (hendings : ∀ w s, (crew.finish w s).2 = endings w) (spawned : Nat)
    (refused : Option Nat) (members : List Nat) (payloads : List (Nat × Payload)) (s : σ) :
    crew.run (.joining spawned refused members payloads) s =
      (.ok ⟨spawned, refused, payloads ++ Launch.losses endings members⟩,
        crew.finishAll members s) := by
  induction members generalizing payloads s with
  | nil =>
      rw [Launch.losses, List.filterMap_nil, List.append_nil]
      rfl
  | cons w members ih =>
      rw [Launch.losses_cons, ← List.append_assoc, ← hendings w s]
      exact ih _ (crew.finish w s).1

theorem run_contract (hendings : ∀ w s, (crew.finish w s).2 = endings w) (started : List Nat)
    (refused : Option Nat) (s : σ) :
    crew.run (.contract started refused) s =
      (.ok ⟨started.length, refused, Launch.losses endings started⟩,
        crew.finishAll started (crew.settle started.length (crew.beginAll started s))) := by
  rw [Launch.contract, run_foldr_create, run_foldr_refuse]
  exact run_joining hendings started.length refused started [] _

theorem run_filterMapM_joined (hendings : ∀ w s, (crew.finish w s).2 = endings w)
    (members : List Nat) (s : σ) :
    crew.run (members.filterMapM Launch.joined) s =
      (.ok (Launch.losses endings members), crew.finishAll members s) := by
  induction members generalizing s with
  | nil => rfl
  | cons w members ih =>
      have hjoined : crew.run (Launch.joined w) s =
          (.ok ((endings w).map fun cause => (w, cause)), (crew.finish w s).1) := by
        rw [← hendings w s]
        rfl
      rw [List.filterMapM_cons, Launch.losses_cons]
      refine (crew.run_bind (Launch.joined w) _ s).trans ?_
      rw [hjoined]
      cases endings w with
      | none => exact ih (crew.finish w s).1
      | some cause =>
          refine (crew.run_bind (members.filterMapM Launch.joined) _ _).trans ?_
          rw [ih]
          rfl

/-- What happens around a launch that joins none of the threads that it creates. -/
theorem run_scoped_foldr_create (hendings : ∀ w s, (crew.finish w s).2 = endings w)
    (members : List Nat) (value : α) (s : σ) :
    crew.run ((members.foldr .create (.result value) : Launch α).scoped []) s =
      (.ok (.ok value, Launch.losses endings members),
        crew.finishAll members (crew.beginAll members s)) := by
  rw [Launch.scoped_foldr_create, run_foldr_create, List.nil_append]
  refine (crew.run_bind (members.filterMapM Launch.joined) _ _).trans ?_
  rw [run_filterMapM_joined hendings]
  rfl

/-- The scope of the standard library unwinds if it finds that a thread was lost. -/
theorem run_std_scope (hendings : ∀ w s, (crew.finish w s).2 = endings w) (members : List Nat)
    (value : α) (s : σ) :
    crew.run (StdThreads.scope (members.foldr .create (.result value))) s =
      (if Launch.losses endings members = [] then .ok value else .error .scopedThread,
        crew.finishAll members (crew.beginAll members s)) := by
  refine (crew.run_bind _ _ s).trans ?_
  rw [run_scoped_foldr_create hendings]
  cases Launch.losses endings members <;> rfl

/-- The scope of the crossbeam library gives an error then. -/
theorem run_crossbeam_scope (hendings : ∀ w s, (crew.finish w s).2 = endings w)
    (members : List Nat) (value : α) (s : σ) :
    crew.run (CrossbeamThreads.scope (members.foldr .create (.result value))) s =
      (.ok (if Launch.losses endings members = [] then .ok value
          else .error (Launch.losses endings members)),
        crew.finishAll members (crew.beginAll members s)) := by
  refine (crew.run_bind _ _ s).trans ?_
  rw [run_scoped_foldr_create hendings]
  cases Launch.losses endings members <;> rfl

end Crew

end Elementwise
