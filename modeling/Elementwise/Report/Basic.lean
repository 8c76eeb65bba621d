/-!
What a call returns: how the range was split, how many workers started, and what each of them did.
-/

namespace Elementwise

/-- The counters of one worker: the elements it completed, and how many of them it took from the
range of another worker. -/
structure Tally where
  completed : Nat := 0
  stolen : Nat := 0
deriving DecidableEq, Repr, Inhabited

namespace Tally

def addOwn (t : Tally) : Tally := { t with completed := t.completed + 1 }

def addStolen (t : Tally) : Tally := { completed := t.completed + 1, stolen := t.stolen + 1 }

end Tally

structure Share where
  worker : Nat
  tally : Tally
deriving DecidableEq, Repr, Inhabited

structure Elapsed where
  seconds : Nat := 0
  nanoseconds : Nat := 0
deriving DecidableEq, Repr, Inhabited

namespace Elapsed

def perSecond : Nat := 1000000000

def ofNanoseconds (count : Nat) : Elapsed := ⟨count / perSecond, count % perSecond⟩

/-- The span in seconds, each part rounded before they are added. -/
def toSeconds (e : Elapsed) : Float :=
  e.seconds.toUInt64.toFloat + e.nanoseconds.toUInt64.toFloat / perSecond.toUInt64.toFloat

end Elapsed

/-- The result of a call over `elements` indices. There is a share for every range, also for one
whose worker never started. -/
structure Report where
  elements : Nat
  chunk : Nat
  requestedWorkers : Nat
  spawnedWorkers : Nat
  shares : List Share
  elapsed : Elapsed := {}
deriving DecidableEq, Repr, Inhabited

namespace Report

/-- The report of a call over no index, for which no worker starts. -/
def empty (requestedWorkers : Nat) : Report where
  elements := 0
  chunk := 1
  requestedWorkers := requestedWorkers
  spawnedWorkers := 0
  shares := []

def completed (r : Report) : Nat :=
  r.shares.foldr (fun share total => share.tally.completed + total) 0

/-- The elements that were taken from the range of another worker. -/
def stolen (r : Report) : Nat :=
  r.shares.foldr (fun share total => share.tally.stolen + total) 0

def effectiveWorkers (r : Report) : Nat := r.shares.length

/-- Elements for each second of the call, or zero if no time passed. -/
def elementsPerSecond (r : Report) : Float :=
  let seconds := r.elapsed.toSeconds
  if seconds > 0 then r.elements.toUInt64.toFloat / seconds else 0

end Report

end Elementwise
