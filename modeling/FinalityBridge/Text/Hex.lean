import FinalityBridge.Bytes
import FinalityBridge.Text.ValueError

/-!
# Hexadecimal byte strings

Bytes are shown by two lower-case digits each, after `0x`. Two grammars read them back: one for byte
strings of any length, one for digests, which lets blanks stand between the digits. Both take digits
of either case and leave the `0x` out if they like.
-/

namespace FinalityBridge.Hex

def digit (value : Nat) : Char :=
  if value < 10 then Char.ofNat ('0'.toNat + value) else Char.ofNat ('a'.toNat + (value - 10))

def value? (c : Char) : Option Nat :=
  if '0' ≤ c ∧ c ≤ '9' then some (c.toNat - '0'.toNat)
  else if 'a' ≤ c ∧ c ≤ 'f' then some (c.toNat - 'a'.toNat + 10)
  else if 'A' ≤ c ∧ c ≤ 'F' then some (c.toNat - 'A'.toNat + 10)
  else none

def digits (bytes : Bytes) : List Char :=
  bytes.flatMap fun b => [digit (b.toNat / 16), digit (b.toNat % 16)]

def render (bytes : Bytes) : String := "0x" ++ String.ofList (digits bytes)

/-- What follows the mark `0x`, or all of a text that does not begin with it. -/
def unmarked : List Char → List Char
  | '0' :: 'x' :: rest => rest
  | text => text

/-- Reads pairs of digits, given by their codes; `position` is that of the first digit. -/
def readPairs (position : Nat) : Bytes → Except ValueError Bytes
  | high :: low :: rest =>
    match value? (Char.ofUInt8 high), value? (Char.ofUInt8 low) with
    | none, _ => .error (.invalidHexByte high position)
    | some _, none => .error (.invalidHexByte low (position + 1))
    | some h, some l =>
      match readPairs (position + 2) rest with
      | .ok bytes => .ok (UInt8.ofNat (16 * h + l) :: bytes)
      | .error e => .error e
  | _ => .ok []

/-- Reads a byte string of any length. The text is taken byte by byte in UTF-8, and an odd number of
bytes is an error before any other. -/
def read (text : List Char) : Except ValueError Bytes :=
  let codes := (unmarked text).flatMap String.utf8EncodeChar
  if codes.length % 2 = 1 then .error .oddHexLength else readPairs 0 codes

def readFixed (size : Nat) (text : List Char) : Except ValueError (FixedBytes size) :=
  match read text with
  | .error e => .error e
  | .ok bytes =>
    if h : bytes.length = size then .ok ⟨bytes, h⟩
    else .error (.wrongSize size bytes.length (String.ofList text))

/-- The blanks that may stand between the digits of a digest. -/
def IsGap (c : Char) : Prop := c = ' ' ∨ c = '\t' ∨ c = '\n' ∨ c = '\r'

instance (c : Char) : Decidable (IsGap c) := inferInstanceAs (Decidable (_ ∨ _))

/-- Reads the values of `missing` digits, after which only gaps may follow. A character is placed by
the bytes of UTF-8 before it. -/
def readSpaced (position : Nat) : (missing : Nat) → List Char → Except ValueError (List Nat)
  | 0, text => if text.all fun c => IsGap c then .ok [] else .error .hashLength
  | _ + 1, [] => .error .hashLength
  | missing + 1, c :: rest =>
    if IsGap c then readSpaced (position + c.utf8Size) (missing + 1) rest
    else
      match value? c with
      | none => .error (.invalidHexCharacter c position)
      | some value =>
        match readSpaced (position + c.utf8Size) missing rest with
        | .ok values => .ok (value :: values)
        | .error e => .error e

def ofValues : List Nat → Bytes
  | h :: l :: rest => UInt8.ofNat (16 * h + l) :: ofValues rest
  | _ => []

def readHash (text : List Char) : Except ValueError Hash :=
  match readSpaced 0 64 (unmarked text) with
  | .error e => .error e
  | .ok values =>
    match FixedBytes.ofBytes? (ofValues values) with
    | some hash => .ok hash
    | none => .error .hashLength

end FinalityBridge.Hex
