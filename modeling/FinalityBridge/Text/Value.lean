import FinalityBridge.Text.Blank
import FinalityBridge.Text.Decimal
import FinalityBridge.Text.Hex

/-!
# Values written as text

The readers of the values that a command line holds: words, byte strings, digests, and lists
separated by commas, whose parts may be surrounded by white space.
-/

namespace FinalityBridge

abbrev ValueReader (α : Type) := String → Except ValueError α

namespace ValueReader

variable {α : Type}

def uint8 : ValueReader UInt8 := fun text => UInt8.ofNat <$> Decimal.read UInt8.size text.toList

def uint32 : ValueReader UInt32 := fun text => UInt32.ofNat <$> Decimal.read UInt32.size text.toList

def uint64 : ValueReader UInt64 := fun text => UInt64.ofNat <$> Decimal.read UInt64.size text.toList

def bytes : ValueReader Bytes := fun text => Hex.read text.toList

def hash : ValueReader Hash := fun text => Hex.readHash text.toList

def list (part : List Char → Except ValueError α) : ValueReader (List α) := fun text =>
  (Text.splitCommas text.toList).mapM fun p => part (Text.trim p)

def addresses : ValueReader (List Address) := list (Hex.readFixed 20)

def hashes : ValueReader (List Hash) := list (Hex.readFixed 32)

def positions : ValueReader (List UInt32) :=
  list fun part => UInt32.ofNat <$> Decimal.read UInt32.size part

end ValueReader

end FinalityBridge
