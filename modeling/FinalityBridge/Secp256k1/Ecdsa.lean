import FinalityBridge.Sha256
import FinalityBridge.Secp256k1.PublicKey

/-!
# Signing and key recovery

Recoverable signatures on the curve. A nonce is drawn from a deterministic stream keyed by the
secret and the message, and the `s` of a signature is below half the group order, so that a
signature and its negation are never both valid.
-/

namespace FinalityBridge.Secp256k1

/-- Whether a scalar lies in the upper half of the group, to which the middle, half the order
rounded down, counts. -/
def IsHigh (s : Nat) : Prop := order / 2 ≤ s

instance (s : Nat) : Decidable (IsHigh s) := inferInstanceAs (Decidable (_ ≤ _))

/-- The message that a digest stands for: its number, reduced by the group order. -/
def messageScalar (digest : Hash) : Nat := digest.toNat % order

def publicKey? (secret : Nat) : Option PublicKey :=
  (Point.generator.mul secret).toAffine?.map fun (x, y) => ⟨x, y⟩

/-- The public key under which `(r, s)` signs `digest`, if the ordinate of the nonce's point has the
given parity. There is none if `r` or `s` is zero, `r` is the abscissa of no point, or the key would
be at infinity. -/
def recover? (digest : Hash) (r s : Nat) (odd : Bool) : Option PublicKey :=
  if r = 0 ∨ s = 0 then none
  else do
    let (x, y) ← liftX? r odd
    let inverse := invMod order r
    let u1 := subMod order 0 (inverse * messageScalar digest)
    let u2 := inverse * s % order
    let q := (Point.ofAffine x y).mul u2 |>.add (Point.generator.mul u1)
    let (x, y) ← q.toAffine?
    return ⟨x, y⟩

structure NonceStream where
  key : Bytes
  value : Bytes

namespace NonceStream

/-- Mixes `input` into the stream, with a separator byte. -/
def mix (g : NonceStream) (separator : UInt8) (input : Bytes) : NonceStream :=
  let key := (Sha256.hmac g.key (g.value ++ separator :: input)).bytes
  ⟨key, (Sha256.hmac key g.value).bytes⟩

def start (secret : Nat) (digest : Hash) : NonceStream :=
  let input := Bytes.bigEndian 32 secret ++ Bytes.bigEndian 32 (messageScalar digest)
  let empty : NonceStream := ⟨List.replicate 32 0, List.replicate 32 1⟩
  (empty.mix 0 input).mix 1 input

/-- The next string, as a number, and the stream after it. -/
def next (g : NonceStream) : Nat × NonceStream :=
  let value := (Sha256.hmac g.key g.value).bytes
  (Bytes.ofBigEndian value, NonceStream.mix ⟨g.key, value⟩ 0 [])

end NonceStream

/-- A signature and the recovery id that leads back to the key: bit 0 is the parity of the
ordinate of the nonce's point, bit 1 says that its abscissa had to be reduced. -/
structure RecoverableSignature where
  r : Nat
  s : Nat
  recoveryId : Nat

/-- The signature with a given nonce, if its `s` is not zero. -/
def signWith? (secret : Nat) (digest : Hash) (nonce : Nat) : Option RecoverableSignature := do
  let (x, y) ← (Point.generator.mul nonce).toAffine?
  let r := x % order
  let recoveryId := (if order ≤ x then 2 else 0) + y % 2
  let s := invMod order nonce * (r * secret + messageScalar digest) % order
  if s = 0 then none
  else if IsHigh s then some ⟨r, order - s, recoveryId ^^^ 1⟩
  else some ⟨r, s, recoveryId⟩

/-- The signature with the first fitting nonce among the next `attempts` ones of a stream. -/
def signFrom? (secret : Nat) (digest : Hash) : (attempts : Nat) → NonceStream →
    Option RecoverableSignature
  | 0, _ => none
  | attempts + 1, g =>
    let (nonce, rest) := g.next
    let signed := if nonce = 0 ∨ order ≤ nonce then none else signWith? secret digest nonce
    signed <|> signFrom? secret digest attempts rest

/-- The signature of `digest` by a secret scalar. Each nonce of the stream fits but for one chance
in 2¹²⁷, and 32 of them are tried. -/
def sign? (secret : Nat) (digest : Hash) : Option RecoverableSignature :=
  signFrom? secret digest 32 (.start secret digest)

end FinalityBridge.Secp256k1
