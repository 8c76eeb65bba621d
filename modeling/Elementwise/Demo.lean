import Elementwise.Family
import Elementwise.Kernel.Formula
import Elementwise.Settings.Environment
import Elementwise.Text.Lines
import Elementwise.Text.Measure

/-!
A demonstration: a large call of equal cost per element, and a smaller one of uneven cost in which
workers take over each other's elements. Its text is split into what is always the same and what
depends on clocks and schedules.
-/

namespace Elementwise

namespace Demo

/-- A line of output, with what differs from run to run at its end. -/
structure Line where
  text : String
  measured : String := ""
deriving DecidableEq, Repr

/-- A part of the demonstration: lines for the output, texts for the error stream with a line feed
after each, and the exit code if it ends here. -/
structure Part where
  output : List Line := []
  errors : List String := []
  exit : Option Nat := none
deriving DecidableEq, Repr

/-- The lines of the error stream. A text that quotes a value may have several. -/
def Part.errorLines (p : Part) : List String :=
  (Text.lines (p.errors.flatMap fun text => text.toList ++ ['\n'])).map String.ofList

def banner : Part where
  output := [⟨"parvec - Parallel Elementwise Dispatch with Work Stealing", ""⟩, ⟨"", ""⟩]

/-- An executor set up from the environment, or the part that ends the demonstration. -/
def setUp (lookup : String → Option String) (host : Host) : Except Part Executor :=
  match Settings.ofEnvironment lookup with
  | .error reason =>
      .error { errors := ["Invalid environment: " ++ reason.message], exit := some 2 }
  | .ok settings =>
      match Executor.ofSettings? settings host with
      | .error cause =>
          .error { errors := ["Cannot create dispatcher: " ++ cause.message], exit := some 1 }
      | .ok executor => .ok executor

def introduction (e : Executor) : Part where
  output :=
    [⟨s!"Dispatcher using the {e.launcher.name} backend with {e.requestedWorkers} requested workers",
      ""⟩, ⟨"", ""⟩]

/-- A call of a family over new buffers: the run, and the buffer of its output. -/
structure Example where
  run : Run
  output : Buffer

/-- Calls a family of kernels on one input with the given elements. -/
def callOn (e : Executor) (kernels : List Kernel) (t : ScalarType) (count : Nat)
    (value : Nat → UInt64) : Example :=
  let (memory, input) := Memory.empty.allocate t count value
  let (memory, output) := memory.allocate t count fun _ => 0
  let request := Family.build? kernels >>= fun family =>
    family.request? [View.whole input] (View.whole output)
  match request with
  | .ok request => ⟨e.run memory request, output⟩
  | .error reason => ⟨⟨.failed (.rejected reason), .idle memory⟩, output⟩

/-- The part for a call that ended without a report. A breach or an unwinding payload ends the
demonstration. -/
def unfinished (blank : List String) : Outcome → Part
  | .failed cause => { errors := ("  Dispatch failed: " ++ cause.message) :: blank }
  | .aborted cause => { errors := [cause.lastWords], exit := some 134 }
  | .unwound cause => { errors := [cause.message], exit := some 101 }
  | .returned _ | .stuck => { exit := some 101 }

def squareCount : Nat := 1000000

/-- The first example: squares of the numbers from zero up. -/
def squares (e : Executor) : Example :=
  callOn e [.ofFormula .sq .float64, .ofFormula .sq .float32] .float64 squareCount fun index =>
    ScalarType.ofInt64 .float64 (Int64.ofNat index)

def squaresHeading : Part where
  output := [⟨"Example 1: Square of 1,000,000 doubles", ""⟩]

/-- What there is to say about the first example after the given time. The square shown is that of a
whole number and has no fraction. -/
def squaresPart (shown : Example) (time : Elapsed) : Part :=
  match shown.run.outcome with
  | .returned report =>
      let square := (Float.ofBits (shown.output.get shown.run.session.state.memory 999)).toUInt64
      { output :=
          [⟨s!"  Completed {report.completed} elements in ", Text.elapsed time⟩,
            ⟨"  Stolen: ", toString report.stolen⟩,
            ⟨"  output[999] = " ++ toString square.toNat, ""⟩, ⟨"", ""⟩] }
  | outcome => unfinished [""] outcome

/-- Rounds of a linear congruential generator, numbered from `round` on. -/
def churn : Nat → UInt64 → UInt64 → UInt64
  | 0, _, value => value
  | rounds + 1, round, value => churn rounds (round + 1) (value * 6364136223846793005 + round)

/-- A kernel whose cost is high at every sixty-fourth number and low elsewhere. -/
def uneven : Kernel where
  signature := ⟨[.int64], .int64⟩
  eval
    | [n] => churn (if n.toInt64 % 64 = 0 then 20000 else 10) 0 n
    | _ => 0

def unevenCount : Nat := 100000

/-- The second example: the uneven kernel on the numbers from zero up. -/
def unevenCost (e : Executor) : Example :=
  callOn e [uneven] .int64 unevenCount fun index => UInt64.ofNat index

def unevenHeading : Part where
  output := [⟨"Example 2: Uneven per-element cost", ""⟩]

def unevenPart (shown : Example) (time : Elapsed) : Part :=
  match shown.run.outcome with
  | .returned report =>
      let report := { report with elapsed := time }
      { output :=
          ⟨s!"  Completed {report.completed} elements at ",
            Text.twoPlaces report.elementsPerSecond ++ " elements/second"⟩ ::
          report.shares.map fun share =>
            ⟨s!"  worker {share.worker}: ",
              s!"completed {share.tally.completed}, stolen {share.tally.stolen}"⟩ }
  | outcome => unfinished [] outcome

def farewell : Part where
  output := [⟨"", ""⟩, ⟨"Done!", ""⟩]
  exit := some 0

/-- One example: its heading, the call it makes, and what there is to say about it. -/
structure Scene where
  heading : Part
  play : Executor → Example
  tell : Example → Elapsed → Part

def scenes : List Scene :=
  [⟨squaresHeading, squares, squaresPart⟩, ⟨unevenHeading, unevenCost, unevenPart⟩]

/-- One part after another, unless the first one ends the demonstration. -/
def Part.andThen (first second : Part) : Part :=
  if first.exit.isSome then first
  else
    { output := first.output ++ second.output
      errors := first.errors ++ second.errors
      exit := second.exit }

/-- The examples from a scene on, and the end. Every call takes the given time. -/
def showing (e : Executor) (time : Elapsed) : List Scene → Part
  | [] => farewell
  | scene :: rest =>
      scene.heading.andThen ((scene.tell (scene.play e) time).andThen (showing e time rest))

/-- The whole demonstration in an environment, on clocks that show the given time for every call. -/
def transcript (lookup : String → Option String) (host : Host) (time : Elapsed) : Part :=
  banner.andThen
    (match setUp lookup host with
      | .error part => part
      | .ok e => (introduction e).andThen (showing e time scenes))

end Demo

end Elementwise
