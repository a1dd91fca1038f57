/-!
# Byte strings

Byte strings of any length, byte strings of a fixed length, and the two ways to write a natural
number as bytes.
-/

namespace FinalityBridge

abbrev Bytes := List UInt8

namespace Bytes

/-- The `width` low bytes of `n`, least significant first. -/
def littleEndian : (width : Nat) → (n : Nat) → Bytes
  | 0, _ => []
  | width + 1, n => UInt8.ofNat n :: littleEndian width (n / 256)

/-- The number whose bytes are given, least significant first. -/
def ofLittleEndian : Bytes → Nat
  | [] => 0
  | b :: rest => b.toNat + 256 * ofLittleEndian rest

/-- The `width` low bytes of `n`, most significant first. -/
def bigEndian (width n : Nat) : Bytes := (littleEndian width n).reverse

/-- The number whose bytes are given, most significant first. -/
def ofBigEndian (bytes : Bytes) : Nat := ofLittleEndian bytes.reverse

@[simp] theorem length_littleEndian (width n : Nat) : (littleEndian width n).length = width := by
  induction width generalizing n with
  | zero => rfl
  | succ width ih => simp [littleEndian, ih]

@[simp] theorem length_bigEndian (width n : Nat) : (bigEndian width n).length = width := by
  simp [bigEndian]

end Bytes

structure FixedBytes (size : Nat) where
  -- The bytes, in the order in which they are written.
  bytes : Bytes
  length_bytes : bytes.length = size
deriving DecidableEq

abbrev Hash := FixedBytes 32

abbrev Address := FixedBytes 20

namespace FixedBytes

variable {size : Nat}

@[ext] theorem ext {a b : FixedBytes size} (h : a.bytes = b.bytes) : a = b := by
  cases a; cases b; simp_all

attribute [simp] length_bytes

/-- The bytes as a fixed-size string, if there are exactly `size` of them. -/
def ofBytes? (bytes : Bytes) : Option (FixedBytes size) :=
  if h : bytes.length = size then some ⟨bytes, h⟩ else none

def zero : FixedBytes size := ⟨List.replicate size 0, List.length_replicate⟩

instance : Inhabited (FixedBytes size) := ⟨zero⟩

/-- The number that the bytes write, most significant first. -/
def toNat (value : FixedBytes size) : Nat := Bytes.ofBigEndian value.bytes

/-- The low `size` bytes of `n`, most significant first. -/
def ofNat (n : Nat) : FixedBytes size := ⟨Bytes.bigEndian size n, Bytes.length_bigEndian size n⟩

@[simp] theorem ofBytes?_bytes (value : FixedBytes size) : ofBytes? value.bytes = some value := by
  simp [ofBytes?]

end FixedBytes

end FinalityBridge
