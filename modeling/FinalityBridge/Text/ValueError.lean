import FinalityBridge.Text.Quoted

/-!
# Texts that are no values
-/

namespace FinalityBridge

inductive ValueError where
  -- A number without digits and sign.
  | emptyInteger
  -- A character of a number that is no digit, or a lone sign.
  | invalidDigit
  -- A number beyond its type.
  | integerTooLarge
  -- Hexadecimal digits that do not pair up.
  | oddHexLength
  -- A byte of a text that is not the code of a hexadecimal digit.
  | invalidHexByte (byte : UInt8) (position : Nat)
  -- A character that is no hexadecimal digit.
  | invalidHexCharacter (character : Char) (position : Nat)
  -- A digest with too few digits, or with something after its last digit.
  | hashLength
  -- A byte string of the wrong size.
  | wrongSize (expected got : Nat) (text : String)
deriving DecidableEq

def ValueError.message : ValueError → String
  | emptyInteger => "cannot parse integer from empty string"
  | invalidDigit => "invalid digit found in string"
  | integerTooLarge => "number too large to fit in target type"
  | oddHexLength => "Odd number of digits"
  | invalidHexByte byte position => s!"Invalid character {Text.quote byte} at position {position}"
  | invalidHexCharacter character position =>
    s!"Invalid character '{character}' at position {position}"
  | hashLength => "Invalid input length"
  | wrongSize expected got text => s!"Expected {expected} bytes, got {got}: {text}"

end FinalityBridge
