import FinalityBridge.Text.ValueError

/-!
# Decimal numbers
-/

namespace FinalityBridge.Decimal

def digit? (c : Char) : Option Nat :=
  if '0' ≤ c ∧ c ≤ '9' then some (c.toNat - '0'.toNat) else none

/-- Reads digits after a number that has been read so far. The first character that is no digit, or
that makes the number reach `bound`, decides the error. -/
def readDigits (bound : Nat) (soFar : Nat) : List Char → Except ValueError Nat
  | [] => .ok soFar
  | c :: rest =>
    match digit? c with
    | none => .error .invalidDigit
    | some d =>
      if 10 * soFar + d < bound then readDigits bound (10 * soFar + d) rest
      else .error .integerTooLarge

/-- Reads a natural number below `bound`, with an optional plus sign. -/
def read (bound : Nat) : List Char → Except ValueError Nat
  | [] => .error .emptyInteger
  | ['+'] => .error .invalidDigit
  | '+' :: digits => readDigits bound 0 digits
  | digits => readDigits bound 0 digits

end FinalityBridge.Decimal
