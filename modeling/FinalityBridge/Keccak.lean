import FinalityBridge.Bytes

/-!
# The Keccak-256 digest

The sponge with a rate of 136 bytes over the 24-round permutation of 25 lanes of 64 bits. An input is
padded to whole blocks by a one bit, zeros and a one bit.
-/

namespace FinalityBridge.Keccak

structure Row where
  a : UInt64
  b : UInt64
  c : UInt64
  d : UInt64
  e : UInt64

structure State where
  r0 : Row
  r1 : Row
  r2 : Row
  r3 : Row
  r4 : Row

namespace Row

def xor (s t : Row) : Row := ⟨s.a ^^^ t.a, s.b ^^^ t.b, s.c ^^^ t.c, s.d ^^^ t.d, s.e ^^^ t.e⟩

/-- Each lane is flipped where its right neighbour is clear and the one after it is set. -/
def chi (s : Row) : Row :=
  ⟨s.a ^^^ (~~~s.b &&& s.c), s.b ^^^ (~~~s.c &&& s.d), s.c ^^^ (~~~s.d &&& s.e),
    s.d ^^^ (~~~s.e &&& s.a), s.e ^^^ (~~~s.a &&& s.b)⟩

def zero : Row := ⟨0, 0, 0, 0, 0⟩

end Row

/-- Rotation of a lane to the left by `n` bits, for `n` below 64. -/
def rotateLeft (lane n : UInt64) : UInt64 := (lane <<< n) ||| (lane >>> (64 - n))

namespace State

def zero : State := ⟨.zero, .zero, .zero, .zero, .zero⟩

/-- Every lane takes in the parities of the two neighbouring columns. -/
def theta (s : State) : State :=
  let c := s.r0.xor (s.r1.xor (s.r2.xor (s.r3.xor s.r4)))
  let d : Row :=
    ⟨c.e ^^^ rotateLeft c.b 1, c.a ^^^ rotateLeft c.c 1, c.b ^^^ rotateLeft c.d 1,
      c.c ^^^ rotateLeft c.e 1, c.d ^^^ rotateLeft c.a 1⟩
  ⟨s.r0.xor d, s.r1.xor d, s.r2.xor d, s.r3.xor d, s.r4.xor d⟩

/-- Every lane is rotated by its own offset and moved to its new place. -/
def rhoPi (s : State) : State where
  r0 := ⟨s.r0.a, rotateLeft s.r1.b 44, rotateLeft s.r2.c 43, rotateLeft s.r3.d 21,
    rotateLeft s.r4.e 14⟩
  r1 := ⟨rotateLeft s.r0.d 28, rotateLeft s.r1.e 20, rotateLeft s.r2.a 3, rotateLeft s.r3.b 45,
    rotateLeft s.r4.c 61⟩
  r2 := ⟨rotateLeft s.r0.b 1, rotateLeft s.r1.c 6, rotateLeft s.r2.d 25, rotateLeft s.r3.e 8,
    rotateLeft s.r4.a 18⟩
  r3 := ⟨rotateLeft s.r0.e 27, rotateLeft s.r1.a 36, rotateLeft s.r2.b 10, rotateLeft s.r3.c 15,
    rotateLeft s.r4.d 56⟩
  r4 := ⟨rotateLeft s.r0.c 62, rotateLeft s.r1.d 55, rotateLeft s.r2.e 39, rotateLeft s.r3.a 41,
    rotateLeft s.r4.b 2⟩

def chi (s : State) : State := ⟨s.r0.chi, s.r1.chi, s.r2.chi, s.r3.chi, s.r4.chi⟩

def iota (s : State) (constant : UInt64) : State :=
  { s with r0 := { s.r0 with a := s.r0.a ^^^ constant } }

def round (s : State) (constant : UInt64) : State := s.theta.rhoPi.chi.iota constant

def roundConstants : List UInt64 :=
  [0x0000000000000001, 0x0000000000008082, 0x800000000000808A, 0x8000000080008000,
   0x000000000000808B, 0x0000000080000001, 0x8000000080008081, 0x8000000000008009,
   0x000000000000008A, 0x0000000000000088, 0x0000000080008009, 0x000000008000000A,
   0x000000008000808B, 0x800000000000008B, 0x8000000000008089, 0x8000000000008003,
   0x8000000000008002, 0x8000000000000080, 0x000000000000800A, 0x800000008000000A,
   0x8000000080008081, 0x8000000000008080, 0x0000000080000001, 0x8000000080008008]

def permute (s : State) : State := roundConstants.foldl round s

end State

/-- The number of input bytes that enter the state between two permutations. -/
def rate : Nat := 136

/-- The lane that eight bytes write, least significant first. -/
def lane (bytes : Bytes) : UInt64 := UInt64.ofNat (Bytes.ofLittleEndian bytes)

/-- The five lanes at the front of a byte string; missing bytes count as zero. -/
def rowOf (bytes : Bytes) : Row :=
  ⟨lane (bytes.take 8), lane ((bytes.drop 8).take 8), lane ((bytes.drop 16).take 8),
    lane ((bytes.drop 24).take 8), lane ((bytes.drop 32).take 8)⟩

/-- A block enters the state and the state is permuted. -/
def absorb (s : State) (block : Bytes) : State :=
  State.permute
    { s with
      r0 := s.r0.xor (rowOf block)
      r1 := s.r1.xor (rowOf (block.drop 40))
      r2 := s.r2.xor (rowOf (block.drop 80))
      r3 := s.r3.xor (rowOf (block.drop 120)) }

/-- What follows an input of `length` bytes to fill its last block: one to 136 bytes. -/
def padding (length : Nat) : Bytes :=
  match rate - length % rate with
  | 0 => []
  | 1 => [0x81]
  | n + 2 => 0x01 :: (List.replicate n 0 ++ [0x80])

/-- The state after the given number of blocks of an input. -/
def absorbBlocks : (count : Nat) → State → (input : Bytes) → State
  | 0, s, _ => s
  | count + 1, s, input => absorbBlocks count (absorb s (input.take rate)) (input.drop rate)

def squeeze (s : State) : Bytes :=
  Bytes.littleEndian 8 s.r0.a.toNat ++ Bytes.littleEndian 8 s.r0.b.toNat ++
    Bytes.littleEndian 8 s.r0.c.toNat ++ Bytes.littleEndian 8 s.r0.d.toNat

def digest (input : Bytes) : Hash :=
  ⟨squeeze (absorbBlocks (input.length / rate + 1) .zero (input ++ padding input.length)),
    by simp [squeeze]⟩

end FinalityBridge.Keccak
