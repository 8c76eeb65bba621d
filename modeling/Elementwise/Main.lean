import Elementwise.Demo

/-!
The demonstration as a program. It reads three environment variables, measures the time of each call
and prints the parts as they are made. All workers of a call share the one thread of the program, so
its host has a single core.
-/

namespace Elementwise.Demo

def Part.print (part : Part) : IO Unit := do
  for line in part.output do
    IO.println (line.text ++ line.measured)
  for line in part.errors do
    IO.eprintln line

def readEnvironment : IO (List (String × Option String)) :=
  [Settings.workersKey, Settings.verifyKey, Settings.lockKey].mapM fun key => do
    return (key, ← IO.getEnv key)

/-- Plays the scenes one after another, each under the clock. -/
def perform (e : Executor) : List Scene → IO Nat
  | [] => do
      farewell.print
      return 0
  | scene :: rest => do
      scene.heading.print
      let before ← IO.monoNanosNow
      let played ← IO.lazyPure fun _ => scene.play e
      let after ← IO.monoNanosNow
      let part := scene.tell played (.ofNanoseconds (after - before))
      part.print
      match part.exit with
      | some code => return code
      | none => perform e rest

end Elementwise.Demo

open Elementwise in
def main : IO UInt32 := do
  Demo.banner.print
  let environment ← Demo.readEnvironment
  let code ←
    match Demo.setUp (fun key => (environment.lookup key).join) (.ordinary 1) with
    | .error part => do
        part.print
        pure (part.exit.getD 0)
    | .ok executor => do
        (Demo.introduction executor).print
        Demo.perform executor Demo.scenes
  return code.toUInt32
