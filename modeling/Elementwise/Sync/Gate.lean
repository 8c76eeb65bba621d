import Elementwise.Settings.Basic
import Elementwise.Sync.Answer

/-!
The gate that holds workers back until it is known how many of them have started. Settling opens it,
or abandons the call so that the workers leave without taking an index.
-/

namespace Elementwise

inductive GateState where
  | pending
  | opened
  | abandoned
deriving DecidableEq, Repr, Inhabited

structure Gate where
  required : Nat
  onSpawnFailure : SpawnPolicy
  state : GateState := .pending
deriving DecidableEq, Repr, Inhabited

namespace Gate

/-- Whether that many started workers open the gate: exactly the required number, or any at all if
the call may go on with fewer. -/
def opensFor (g : Gate) (started : Nat) : Bool :=
  started == g.required || (decide (0 < started) && g.onSpawnFailure == .degrade)

def settle (g : Gate) (started : Nat) : Gate :=
  { g with state := if g.opensFor started then .opened else .abandoned }

def isOpen (g : Gate) : Bool := g.state == .opened

/-- What a worker that waits is told, if it is told anything yet. -/
def wait? (g : Gate) : Option Bool :=
  match g.state with
  | .pending => none
  | .opened => some true
  | .abandoned => some false

@[simp] theorem isOpen_settle (g : Gate) (started : Nat) :
    (g.settle started).isOpen = g.opensFor started := by
  unfold isOpen settle
  cases g.opensFor started <;> rfl

@[simp] theorem wait?_settle (g : Gate) (started : Nat) :
    (g.settle started).wait? = some (g.opensFor started) := by
  unfold wait? settle
  cases g.opensFor started <;> rfl

inductive Request where
  | settle (started : Nat)
  | wait
  | isOpen
deriving DecidableEq, Repr

def serve (request : Request) (g : Gate) : Answer Bool × Gate :=
  match request with
  | .settle started => (.value (g.settle started).isOpen, g.settle started)
  | .wait =>
      match g.wait? with
      | some told => (.value told, g)
      | none => (.wouldBlock, g)
  | .isOpen => (.value g.isOpen, g)

end Gate

end Elementwise
