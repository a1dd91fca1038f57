import FinalityBridge.Error
import FinalityBridge.Secp256k1.Ecdsa

/-!
# Signatures

A signature over a digest is two scalars and a recovery byte, from which the signer's address is
recovered. The recovery byte is 0 or 1, or the same plus 27. The second scalar must lie in the lower
half of the group, so that no signature can be turned into another one of the same message.
-/

namespace FinalityBridge

structure Signature where
  r : Hash
  s : Hash
  -- The recovery byte.
  v : UInt8
deriving DecidableEq

namespace Signature

open Scale Secp256k1

def codec : Codec Signature :=
  ((Codec.hash.field "Signature::r").pair
    ((Codec.hash.field "Signature::s").pair (Codec.uint8.field "Signature::v"))).map
    (fun (r, s, v) => ⟨r, s, v⟩) (fun sig => (sig.r, sig.s, sig.v))

/-- The signature that 65 bytes write: `r`, `s` and the recovery byte. -/
def ofRaw (raw : FixedBytes 65) : Signature where
  r := ⟨raw.bytes.take 32, by simp⟩
  s := ⟨(raw.bytes.drop 32).take 32, by simp⟩
  v := raw.bytes.get ⟨64, by simp⟩

def toRaw (signature : Signature) : FixedBytes 65 :=
  ⟨signature.r.bytes ++ signature.s.bytes ++ [signature.v], by simp⟩

/-- The parity that a recovery byte stands for: whether the ordinate is odd. -/
def parity? (v : UInt8) : Option Bool :=
  if v = 0 ∨ v = 27 then some false else if v = 1 ∨ v = 28 then some true else none

def signer (digest : Hash) (signature : Signature) : Except Error Address :=
  let r := signature.r.toNat
  let s := signature.s.toNat
  match parity? signature.v with
  | none => .error .malformedSignature
  | some odd =>
    if order ≤ r ∨ order ≤ s ∨ IsHigh s then .error .malformedSignature
    else
      match recover? digest r s odd with
      | some key => .ok key.address
      | none => .error .malformedSignature

end Signature

end FinalityBridge
