import FinalityBridge.Mmr.Inclusion
import FinalityBridge.Mmr.Leaf

/-!
# Mountain ranges

An append-only list of leaf digests, with the root over it and an inclusion proof for each leaf.
-/

namespace FinalityBridge

open Merkle

structure MountainRange where
  leaves : List Hash
deriving DecidableEq, Inhabited

namespace MountainRange

def empty : MountainRange := ⟨[]⟩

def leafCount (range : MountainRange) : Nat := range.leaves.length

/-- Appends a leaf, which gets the number of leaves before it as its index. -/
def push (range : MountainRange) (leaf : Hash) : Nat × MountainRange :=
  (range.leafCount, ⟨range.leaves ++ [leaf]⟩)

def pushLeaf (range : MountainRange) (leaf : Leaf) : Nat × MountainRange :=
  range.push (Leaf.digest leaf.encode)

def peak? (hash : Hasher) (range : MountainRange) (m : Mountain) : Option Hash :=
  Layer.top? (join hash) (m.leaves range.leaves)

def peaks (hash : Hasher) (range : MountainRange) : List Hash :=
  (Mountain.all range.leafCount).filterMap (range.peak? hash)

/-- The root over the leaves, all zeros if there are none. -/
def root (hash : Hasher) (range : MountainRange) : Hash :=
  (Mountain.bag? (join hash) (range.peaks hash)).getD .zero

/-- The proof for the leaf at an index, if the index is in range. -/
def prove? (hash : Hasher) (range : MountainRange) (leafIndex : UInt64) : Option InclusionProof :=
  let index := leafIndex.toNat
  if index < range.leafCount then
    let (own, others) := (Mountain.all range.leafCount).partition fun m => m.Covers index
    some
      { leafIndex
        leafCount := UInt64.ofNat range.leafCount
        items :=
          own.flatMap (fun m => Layer.path (join hash) (m.leaves range.leaves) (index - m.start)) ++
            others.filterMap (range.peak? hash) }
  else none

end MountainRange

end FinalityBridge
