import Elementwise.Json.Record
import Elementwise.Report.Basic
import Elementwise.Text.Numeral

/-!
Reports as JSON records. Unlike settings, a report has no defaults: every field of the report, of a
share and of the elapsed time has to be there. The elapsed time knows only its own two fields; its
nanoseconds may exceed a second, and the excess is carried into the seconds.
-/

namespace Elementwise

def counter? : Json → Option Nat := Json.below? Text.wordLimit

namespace Share

def fieldNames : List String := ["id", "completed", "stolen"]

def toJson (s : Share) : Json :=
  .ofMembers (fieldNames.zip
    [.natural s.worker, .natural s.tally.completed, .natural s.tally.stolen])

def ofJson? (json : Json) : Option Share := do
  match ← json.record? .allowed fieldNames with
  | [worker, completed, stolen] =>
      return {
        worker := ← Json.required counter? worker
        tally := {
          completed := ← Json.required counter? completed
          stolen := ← Json.required counter? stolen } }
  | _ => none

end Share

namespace Elapsed

def fieldNames : List String := ["secs", "nanos"]

def toJson (e : Elapsed) : Json :=
  .ofMembers (fieldNames.zip [.natural e.seconds, .natural e.nanoseconds])

/-- Nanoseconds are written as a 32-bit word. -/
def nanosecondLimit : Nat := UInt32.size

/-- Carries whole seconds out of the nanoseconds, unless the seconds then leave their word. -/
def carry? (seconds nanoseconds : Nat) : Option Elapsed :=
  let total := seconds + nanoseconds / perSecond
  if total < Text.wordLimit then some ⟨total, nanoseconds % perSecond⟩ else none

def ofJson? (json : Json) : Option Elapsed := do
  match ← json.record? .refused fieldNames with
  | [seconds, nanoseconds] =>
      carry? (← Json.required counter? seconds)
        (← Json.required (Json.below? nanosecondLimit) nanoseconds)
  | _ => none

end Elapsed

namespace Report

def fieldNames : List String :=
  ["elements", "chunk", "requested_workers", "spawned_workers", "workers", "elapsed"]

def toJson (r : Report) : Json :=
  .ofMembers (fieldNames.zip
    [.natural r.elements, .natural r.chunk, .natural r.requestedWorkers,
      .natural r.spawnedWorkers, .array (r.shares.map Share.toJson), r.elapsed.toJson])

def ofJson? (json : Json) : Option Report := do
  match ← json.record? .allowed fieldNames with
  | [elements, chunk, requested, spawned, shares, elapsed] =>
      return {
        elements := ← Json.required counter? elements
        chunk := ← Json.required counter? chunk
        requestedWorkers := ← Json.required counter? requested
        spawnedWorkers := ← Json.required counter? spawned
        shares := ← Json.required (Json.list? Share.ofJson?) shares
        elapsed := ← Json.required Elapsed.ofJson? elapsed }
  | _ => none

end Report

end Elementwise
