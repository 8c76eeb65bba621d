import Elementwise.Failure

/-!
Arithmetic on natural numbers that fit into 64 bits. An operation has no result where the number
that it should give does not fit.
-/

namespace Elementwise

namespace Word

def add? (a b : Nat) : Option Nat := if a + b < UInt64.size then some (a + b) else none

def sub? (a b : Nat) : Option Nat := if b ≤ a then some (a - b) else none

def mul? (a b : Nat) : Option Nat := if a * b < UInt64.size then some (a * b) else none

@[simp] theorem add?_eq_some_iff {a b c : Nat} :
    add? a b = some c ↔ a + b < UInt64.size ∧ a + b = c := by
  simp [add?]

@[simp] theorem sub?_eq_some_iff {a b c : Nat} : sub? a b = some c ↔ b ≤ a ∧ a - b = c := by
  simp [sub?]

@[simp] theorem mul?_eq_some_iff {a b c : Nat} :
    mul? a b = some c ↔ a * b < UInt64.size ∧ a * b = c := by
  simp [mul?]

end Word

end Elementwise
