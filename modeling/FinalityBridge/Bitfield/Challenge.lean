import FinalityBridge.Bitfield.Quorum
import FinalityBridge.Keccak

/-!
# Challenges

A challenge is a sample of the claimed positions. It is drawn by a shuffle whose choices follow from
a seed that nobody knows when the claim is made, so that any observer can draw it again.
-/

namespace FinalityBridge

/-- Draws an entry for each offset: the entry at the offset leaves the list, and the head of the
list takes its place. It stops at an offset that is out of range. -/
def draw {α : Type} : List α → (offsets : List Nat) → List α
  | head :: rest, 0 :: offsets => head :: draw rest offsets
  | head :: rest, (offset + 1) :: offsets =>
    match rest[offset]? with
    | some entry => entry :: draw (rest.set offset head) offsets
    | none => []
  | _, _ => []

namespace Bitfield

/-- The offset of the `k`-th draw when `remaining` entries are left: the first eight bytes of the
digest of the seed and `k`, least significant first, reduced. -/
def drawOffset (seed : Hash) (k remaining : Nat) : Nat :=
  Bytes.ofLittleEndian ((Keccak.digest (seed.bytes ++ Bytes.littleEndian 4 k)).bytes.take 8) %
    remaining

/-- The offsets of the first `n` draws from `m` entries. -/
def drawOffsets (seed : Hash) (m n : Nat) : List Nat :=
  (List.range n).map fun k => drawOffset seed k (m - k)

/-- A sample of `size` of the claimed positions, or all of them if there are fewer. -/
def challenge (seed : Hash) (claimed : Bitfield) (size : Nat) : Bitfield :=
  let eligible := claimed.ones
  let offsets := drawOffsets seed eligible.length (min eligible.length size)
  (draw eligible offsets).foldl insert (empty claimed.len)

end Bitfield

end FinalityBridge
