import Elementwise.Failure
import Elementwise.Settings.Basic
import Elementwise.Text.Blank
import Elementwise.Text.Numeral

/-!
Settings from environment variables. Three variables are looked at, in a fixed order; blanks around
a value do not matter, and words are read without regard to the case of ASCII letters.
-/

namespace Elementwise

namespace Settings

def workersKey : String := "PARVEC_NUM_THREADS"

def verifyKey : String := "PARVEC_VERIFY"

def lockKey : String := "PARVEC_LOCK"

/-- The number of workers that a value asks for. Zero leaves it to the host. -/
def workersOfText? (text : String) : Option (Option Nat) :=
  (Text.word? (Text.trim text.toList)).map fun count => if count = 0 then none else some count

/-- A value as a word: without blanks around it and in small letters. -/
def keyword (text : String) : String := String.ofList (Text.lowerCase (Text.trim text.toList))

def onWords : List String := ["1", "true", "on", "yes"]

def offWords : List String := ["0", "false", "off", "no"]

def verifyOfText? (text : String) : Option Bool :=
  if keyword text ∈ onWords then some true
  else if keyword text ∈ offWords then some false
  else none

def lockOfText? (text : String) : Option LockStrategy :=
  if keyword text = "spin" then some .spin
  else if keyword text = "backoff" then some .backoff
  else none

/-- The value of one variable: the default if it is unset, and a rejection that quotes the value as
it stands if it cannot be read. -/
def readVariable {α : Type} (lookup : String → Option String) (key : String)
    (read : String → Option α) (default : α) : Except Rejection α :=
  match lookup key with
  | none => .ok default
  | some text =>
      match read text with
      | some value => .ok value
      | none => .error (.invalidVariable key text)

/-- The default settings with the three variables applied. The first value that cannot be read, in
the order workers, verification, lock, is the one rejected. -/
def ofEnvironment (lookup : String → Option String) : Except Rejection Settings := do
  let defaults : Settings := {}
  let workers ← readVariable lookup workersKey workersOfText? defaults.workers
  let verify ← readVariable lookup verifyKey verifyOfText? defaults.verifyCompletion
  let strategy ← readVariable lookup lockKey lockOfText? defaults.lockStrategy
  return { defaults with
    workers := workers, verifyCompletion := verify, lockStrategy := strategy }

end Settings

end Elementwise
