import Elementwise.Json.Record
import Elementwise.Settings.Basic
import Elementwise.Text.Numeral

/-!
Settings as a JSON record. Writing gives all eight fields; reading fills in the default of every
field that is missing and passes over members it does not know.
-/

namespace Elementwise

namespace Settings

def fieldNames : List String :=
  ["workers", "verify_completion", "lock", "on_violation", "on_spawn_failure", "backend",
    "thread_name_prefix", "stack_size"]

def ofCount : Option Nat → Json
  | none => .null
  | some count => .natural count

def fieldValues (s : Settings) : List Json :=
  [ofCount s.workers, .bool s.verifyCompletion, .ofLabelled s.lockStrategy, .ofLabelled s.onBreach,
    .ofLabelled s.onSpawnFailure, .ofLabelled s.threads, .string s.threadName, ofCount s.stackSize]

def toJson (s : Settings) : Json := .ofMembers (fieldNames.zip s.fieldValues)

def count? : Json → Option (Option Nat) := Json.optional? (Json.below? Text.wordLimit)

def ofJson? (json : Json) : Option Settings := do
  let defaults : Settings := {}
  match ← json.record? .allowed fieldNames with
  | [workers, verify, lock, breach, spawn, threads, name, stack] =>
      return {
        workers := ← Json.defaulted count? defaults.workers workers
        verifyCompletion := ← Json.defaulted Json.bool? defaults.verifyCompletion verify
        lockStrategy := ← Json.defaulted (Json.labelled? LockStrategy) defaults.lockStrategy lock
        onBreach := ← Json.defaulted (Json.labelled? BreachPolicy) defaults.onBreach breach
        onSpawnFailure := ← Json.defaulted (Json.labelled? SpawnPolicy) defaults.onSpawnFailure spawn
        threads := ← Json.defaulted (Json.labelled? ThreadChoice) defaults.threads threads
        threadName := ← Json.defaulted Json.string? defaults.threadName name
        stackSize := ← Json.defaulted count? defaults.stackSize stack }
  | _ => none

end Settings

end Elementwise
