import FinalityBridge.Bytes
import FinalityBridge.Keccak
import FinalityBridge.Secp256k1.Curve

/-!
# Public keys

A public key is a point of the curve that is not at infinity. It is written in one of three forms:
compressed (a tag and the abscissa, 33 bytes), tagged (a tag and both coordinates, 65 bytes) and
raw (both coordinates, 64 bytes). An account's address is taken from the digest of the raw form.
-/

namespace FinalityBridge

open Secp256k1

structure PublicKey where
  x : Nat
  y : Nat
deriving DecidableEq

namespace PublicKey

inductive ParseError where
  | length
  | notAKey
deriving DecidableEq

namespace ParseError

def message : ParseError → String
  | length => "Invalid input length"
  | notAKey => "Invalid public key"

end ParseError

/-- The key with the given coordinates, if they are reduced and solve the equation of the curve. -/
def ofCoordinates? (x y : Nat) : Option PublicKey :=
  if x < fieldSize ∧ y < fieldSize ∧ IsOnCurve x y then some ⟨x, y⟩ else none

/-- The key with the given abscissa, if it is reduced, and ordinate parity. -/
def ofAbscissa? (x : Nat) (odd : Bool) : Option PublicKey :=
  if x < fieldSize then (liftX? x odd).map fun (x, y) => ⟨x, y⟩ else none

/-- The key written by 64 bytes, the coordinates one after the other. -/
def ofRaw? (bytes : Bytes) : Option PublicKey :=
  ofCoordinates? (Bytes.ofBigEndian (bytes.take 32)) (Bytes.ofBigEndian (bytes.drop 32))

/-- The key written by 33 bytes: tag 2 or 3, for an even or odd ordinate, and the abscissa. -/
def ofCompressed? : Bytes → Option PublicKey
  | 2 :: x => ofAbscissa? (Bytes.ofBigEndian x) false
  | 3 :: x => ofAbscissa? (Bytes.ofBigEndian x) true
  | _ => none

/-- The key written by 65 bytes: a tag and both coordinates. Tag 4 says nothing more; tags 6 and 7
say that the ordinate is even or odd. -/
def ofTagged? : Bytes → Option PublicKey
  | 4 :: raw => ofRaw? raw
  | 6 :: raw => (ofRaw? raw).filter fun key => key.y % 2 = 0
  | 7 :: raw => (ofRaw? raw).filter fun key => key.y % 2 = 1
  | _ => none

/-- Reads a public key in any of its three forms, which differ in length. -/
def parse (bytes : Bytes) : Except ParseError PublicKey :=
  let accept (key? : Option PublicKey) : Except ParseError PublicKey :=
    match key? with
    | some key => .ok key
    | none => .error .notAKey
  if bytes.length = 33 then accept (ofCompressed? bytes)
  else if bytes.length = 65 then accept (ofTagged? bytes)
  else if bytes.length = 64 then accept (ofRaw? bytes)
  else .error .length

def toRaw (key : PublicKey) : Bytes := Bytes.bigEndian 32 key.x ++ Bytes.bigEndian 32 key.y

def toTagged (key : PublicKey) : Bytes := 4 :: key.toRaw

/-- The compressed form: the tag 2 or 3, for an even or odd ordinate, and the abscissa. -/
def toCompressed (key : PublicKey) : Bytes :=
  (if key.y % 2 = 1 then 3 else 2) :: Bytes.bigEndian 32 key.x

/-- The address of the account: the last 20 bytes of the digest of the raw form. -/
def address (key : PublicKey) : Address :=
  ⟨(Keccak.digest key.toRaw).bytes.drop 12, by simp⟩

end PublicKey

end FinalityBridge
