import Elementwise.Failure

/-!
Launching the workers of a call: creating a thread for each, settling the gate once it is known how
many there are, and joining them. A launch is code that any crew can run, whatever its members do.
-/

namespace Elementwise

/-- A launch that gives an `α`, as the next thing that it does and the rest of it. A thread can be
created for a worker, or cannot; a thread that is joined tells what its worker unwound with, if it
did; and the launch may unwind by itself. -/
inductive Launch (α : Type) where
  | result (value : α)
  | unwind (cause : Payload)
  | create (worker : Nat) (rest : Launch α)
  | refuse (worker : Nat) (rest : Launch α)
  | settle (started : Nat) (rest : Launch α)
  | join (worker : Nat) (rest : Option Payload → Launch α)

namespace Launch

variable {α β γ : Type}

def bind : Launch α → (α → Launch β) → Launch β
  | result value, next => next value
  | unwind cause, _ => unwind cause
  | create worker rest, next => create worker (rest.bind next)
  | refuse worker rest, next => refuse worker (rest.bind next)
  | settle started rest, next => settle started (rest.bind next)
  | join worker rest, next => join worker fun payload => (rest payload).bind next

instance : Monad Launch where
  pure := result
  bind := bind

theorem bind_assoc (launch : Launch α) (f : α → Launch β) (g : β → Launch γ) :
    (launch.bind f).bind g = launch.bind fun value => (f value).bind g := by
  induction launch with
  | result value => rfl
  | unwind cause => rfl
  | create worker rest ih => exact congrArg (create worker) ih
  | refuse worker rest ih => exact congrArg (refuse worker) ih
  | settle started rest ih => exact congrArg (settle started) ih
  | join worker rest ih => exact congrArg (join worker) (funext ih)

theorem bind_result (launch : Launch α) : launch.bind result = launch := by
  induction launch with
  | result value => rfl
  | unwind cause => rfl
  | create worker rest ih => exact congrArg (create worker) ih
  | refuse worker rest ih => exact congrArg (refuse worker) ih
  | settle started rest ih => exact congrArg (settle started) ih
  | join worker rest ih => exact congrArg (join worker) (funext ih)

instance : LawfulMonad Launch := LawfulMonad.mk' _ bind_result (fun _ _ => rfl) bind_assoc

/-- Settles the gate. -/
def settled (started : Nat) : Launch Unit := settle started (result ())

/-- Joins the thread of a worker. If the worker unwound, this gives what it unwound with. -/
def joined (worker : Nat) : Launch (Option (Nat × Payload)) :=
  join worker fun payload => result (payload.map fun cause => (worker, cause))

/-- How a launch ends with which nothing is left to do. -/
def ending? : Launch α → Option (Except Payload α)
  | result value => some (.ok value)
  | unwind cause => some (.error cause)
  | _ => none

end Launch

/-- What a launch reports: how many workers started, which one could not be started, and the
payloads of those that ended badly, by worker. -/
structure LaunchRecord where
  spawned : Nat
  refused : Option Nat
  payloads : List (Nat × Payload)
deriving DecidableEq, Repr

/-- A launch by script: the order in which workers run, one after another, the first worker that
cannot be started, and the number to settle the gate with. -/
structure LaunchScript where
  order : Option (List Nat) := none
  failAt : Option Nat := none
  settle : Option Nat := none
deriving DecidableEq, Repr, Inhabited

/-- The gate is settled first. Then each worker in the order that was started runs to its end before
the next one begins; a worker may come twice or not at all. Whatever the order, the payloads are
reported by ascending worker. -/
def LaunchScript.launch (script : LaunchScript) (workers : Nat) : Launch LaunchRecord := do
  let started := min (script.failAt.getD workers) workers
  Launch.settled (script.settle.getD started)
  let order := (script.order.getD (List.range workers)).filter (· < started)
  let payloads ← order.filterMapM fun worker => Launch.create worker (Launch.joined worker)
  return {
    spawned := started
    refused := if started < workers then some started else none
    payloads := payloads.mergeSort fun a b => a.1 ≤ b.1 }

/-- A crew with state `σ`: what starting a worker, settling the gate and waiting for the end of a
worker do to it. A worker that ends badly leaves a payload. -/
structure Crew (σ : Type) where
  begin : Nat → σ → σ
  settle : Nat → σ → σ
  finish : Nat → σ → σ × Option Payload

namespace Crew

variable {σ α : Type}

/-- Runs a launch on a crew, to what it gives or unwinds with. -/
def run (crew : Crew σ) : Launch α → σ → Except Payload α × σ
  | .result value, s => (.ok value, s)
  | .unwind cause, s => (.error cause, s)
  | .create worker rest, s => crew.run rest (crew.begin worker s)
  | .refuse _ rest, s => crew.run rest s
  | .settle started rest, s => crew.run rest (crew.settle started s)
  | .join worker rest, s => crew.run (rest (crew.finish worker s).2) (crew.finish worker s).1

/-- Runs a launch for its record. One that unwinds has nothing to report. -/
def launch (crew : Crew σ) (launch : Launch LaunchRecord) (s : σ) : LaunchRecord × σ :=
  let (ending, s) := crew.run launch s
  (ending.toOption.getD ⟨0, none, []⟩, s)

end Crew

end Elementwise
