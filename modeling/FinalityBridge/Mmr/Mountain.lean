import FinalityBridge.Merkle.Layer

/-!
# Mountains

The leaves of a mountain range are divided into mountains, perfect binary trees of falling height,
one for each bit that is set in the number of leaves. The root of the range bags the peaks of its
mountains from left to right.
-/

namespace FinalityBridge

open Merkle

/-- The place of a perfect binary tree among the leaves of a range. -/
structure Mountain where
  -- The index of its first leaf.
  start : Nat
  height : Nat
deriving DecidableEq

namespace Mountain

def size (m : Mountain) : Nat := 1 <<< m.height

def Covers (m : Mountain) (leafIndex : Nat) : Prop :=
  m.start ≤ leafIndex ∧ leafIndex < m.start + m.size

instance (m : Mountain) (leafIndex : Nat) : Decidable (m.Covers leafIndex) :=
  inferInstanceAs (Decidable (_ ∧ _))

variable {Node : Type}

/-- The leaves of a mountain, among those of the whole range. -/
def leaves (m : Mountain) (all : List Node) : List Node := (all.drop m.start).take m.size

/-- The mountains of height below `height` over the leaves from `start` on, left to right: one for
each of these bits that is set in `leafCount`. -/
def below (leafCount start : Nat) : (height : Nat) → List Mountain
  | 0 => []
  | height + 1 =>
    if leafCount.testBit height then
      ⟨start, height⟩ :: below leafCount (start + (1 <<< height)) height
    else below leafCount start height

/-- The mountains over a number of leaves, left to right. -/
def all (leafCount : Nat) : List Mountain := below leafCount 0 (leafCount.log2 + 1)

/-- The node that stands for a row of peaks, left to right: the first is joined with the second, the
result with the third, and so on. -/
def bag? (join : Node → Node → Node) : List Node → Option Node
  | [] => none
  | peak :: peaks => some (peaks.foldl join peak)

/-- The peak above a leaf at `position` of its mountain, given the siblings on the way. -/
def ascend (join : Node → Node → Node) (position : Nat) (node : Node) : List Node → Node
  | [] => node
  | sibling :: siblings =>
    ascend join (position / 2) (Layer.joinAt join position node sibling) siblings

/-- The node that stands for a range of `leafCount` leaves, when `leaf` is the one at `index` and
`items` are the siblings on the way to its peak, bottom up, followed by the other peaks, left to
right. There is none if the index is out of range or the number of items is not that of the range's
shape. -/
def climb? (join : Node → Node → Node) (leafCount index : Nat) (leaf : Node) (items : List Node) :
    Option Node :=
  let mountains := all leafCount
  if leafCount ≤ index then none
  else
    match mountains.findIdx? fun m => index < m.start + m.size with
    | none => none
    | some i =>
      match mountains[i]? with
      | none => none
      | some m =>
        if items.length = m.height + (mountains.length - 1) then
          let peak := ascend join (index - m.start) leaf (items.take m.height)
          bag? join ((items.drop m.height).insertIdx i peak)
        else none

end Mountain

end FinalityBridge
