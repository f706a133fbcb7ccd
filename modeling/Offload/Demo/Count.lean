/-!
# The number of tasks

The number of tasks is read from an argument: decimal digits, perhaps after a plus sign,
that stand for an unsigned integer of 64 bits. The digits are read from the left, and the
first fault is reported.
-/

namespace Offload.Demo

/-- Why an argument is no number of tasks. -/
inductive CountFault where
  | empty
  | invalidDigit
  | tooLarge
  deriving DecidableEq, Repr

/-- The text of a fault. -/
def CountFault.message : CountFault → String
  | .empty => "cannot parse integer from empty string"
  | .invalidDigit => "invalid digit found in string"
  | .tooLarge => "number too large to fit in target type"

/-- The number of tasks when no argument is given. -/
def defaultCount : Nat := 5

/-- The number that is read when one more character follows. -/
def withDigit (n : Nat) (c : Char) : Except CountFault Nat :=
  if '0' ≤ c ∧ c ≤ '9' then
    let n' := 10 * n + (c.toNat - '0'.toNat)
    if n' < UInt64.size then .ok n' else .error .tooLarge
  else .error .invalidDigit

/-- The number that an argument stands for. -/
def readCount (argument : String) : Except CountFault Nat :=
  match argument.toList with
  | [] => .error .empty
  | ['+'] => .error .invalidDigit
  | '+' :: digits => digits.foldlM withDigit 0
  | digits => digits.foldlM withDigit 0

end Offload.Demo
