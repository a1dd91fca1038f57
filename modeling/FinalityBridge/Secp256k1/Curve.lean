/-!
# The curve secp256k1

Arithmetic modulo a prime, and the group of points of y² = x³ + 7 over the field of
2²⁵⁶ - 2³² - 977 elements. Field elements and scalars are natural numbers; sums of points are taken
in Jacobian coordinates, in which no step divides.
-/

namespace FinalityBridge.Secp256k1

def fieldSize : Nat := 0xfffffffffffffffffffffffffffffffffffffffffffffffffffffffefffffc2f

/-- The number of points of the curve, the point at infinity included. -/
def order : Nat := 0xfffffffffffffffffffffffffffffffebaaedce6af48a03bbfd25e8cd0364141

def powMod (modulus base exponent : Nat) : Nat :=
  if exponent = 0 then 1 % modulus
  else
    let rest := powMod modulus (base * base % modulus) (exponent / 2)
    if exponent % 2 = 1 then base * rest % modulus else rest
termination_by exponent
decreasing_by omega

/-- The inverse modulo a prime of a number that the prime does not divide. -/
def invMod (prime a : Nat) : Nat := powMod prime a (prime - 2)

def subMod (modulus a b : Nat) : Nat := (a + (modulus - b % modulus)) % modulus

def cubic (x : Nat) : Nat := (x * x * x + 7) % fieldSize

/-- Whether `(x, y)` solves the equation of the curve. -/
def IsOnCurve (x y : Nat) : Prop := y * y % fieldSize = cubic x

instance (x y : Nat) : Decidable (IsOnCurve x y) := inferInstanceAs (Decidable (_ = _))

/-- The square root of a field element that is a square. The field size is 3 modulo 4. -/
def squareRoot? (a : Nat) : Option Nat :=
  let root := powMod fieldSize a ((fieldSize + 1) / 4)
  if root * root % fieldSize = a % fieldSize then some root else none

/-- The point with the given abscissa whose ordinate has the given parity. -/
def liftX? (x : Nat) (odd : Bool) : Option (Nat × Nat) :=
  (squareRoot? (cubic x)).map fun y =>
    (x, if decide (y % 2 = 1) = odd then y else (fieldSize - y) % fieldSize)

/-- A point of the curve in Jacobian coordinates: `(x / z², y / z³)`, at infinity if `z` is zero. -/
structure Point where
  x : Nat
  y : Nat
  z : Nat

namespace Point

def infinity : Point := ⟨1, 1, 0⟩

def ofAffine (x y : Nat) : Point := ⟨x, y, 1⟩

def generator : Point :=
  .ofAffine 0x79be667ef9dcbbac55a06295ce870b07029bfcdb2dce28d959f2815b16f81798
    0x483ada7726a3c4655da4fbfc0e1108a8fd17b448a68554199c47d08ffb10d4b8

/-- The coordinates of a point that is not at infinity. -/
def toAffine? (q : Point) : Option (Nat × Nat) :=
  if q.z = 0 then none
  else
    let i := invMod fieldSize q.z
    let i2 := i * i % fieldSize
    some (q.x * i2 % fieldSize, q.y * (i2 * i % fieldSize) % fieldSize)

def double (q : Point) : Point :=
  let y2 := q.y * q.y % fieldSize
  let s := 4 * q.x * y2 % fieldSize
  let m := 3 * q.x * q.x % fieldSize
  let x := subMod fieldSize (m * m) (2 * s)
  ⟨x, subMod fieldSize (m * subMod fieldSize s x) (8 * y2 * y2), 2 * q.y * q.z % fieldSize⟩

def add (q r : Point) : Point :=
  if q.z = 0 then r
  else if r.z = 0 then q
  else
    let qz2 := q.z * q.z % fieldSize
    let rz2 := r.z * r.z % fieldSize
    let u1 := q.x * rz2 % fieldSize
    let u2 := r.x * qz2 % fieldSize
    let s1 := q.y * (rz2 * r.z % fieldSize) % fieldSize
    let s2 := r.y * (qz2 * q.z % fieldSize) % fieldSize
    if u1 = u2 then
      if s1 = s2 then q.double else infinity
    else
      let h := subMod fieldSize u2 u1
      let t := subMod fieldSize s2 s1
      let h2 := h * h % fieldSize
      let h3 := h2 * h % fieldSize
      let v := u1 * h2 % fieldSize
      let x := subMod fieldSize (t * t) (h3 + 2 * v)
      ⟨x, subMod fieldSize (t * subMod fieldSize v x) (s1 * h3),
        h * (q.z * r.z % fieldSize) % fieldSize⟩

/-- The multiple of a point by a scalar, by doubling and adding. -/
def mul (k : Nat) (q : Point) : Point :=
  if k = 0 then infinity
  else
    let half := (mul (k / 2) q).double
    if k % 2 = 1 then half.add q else half
termination_by k
decreasing_by omega

end Point

end FinalityBridge.Secp256k1
