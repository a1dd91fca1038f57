import FinalityBridge.Merkle.Layer

/-!
# Merkle trees over a list of leaves

The lowest layer holds the digest of every leaf. A proof for one leaf lists the siblings on its way
to the root; checking it needs the number of leaves, from which follow the layers in which the node
has no sibling.
-/

namespace FinalityBridge.Merkle

/-- The root over a list of leaves, all zeros if there are none. -/
def root (hash : Hasher) (leaves : List Bytes) : Hash :=
  (Layer.root? (join hash) (leaves.map hash)).getD .zero

/-- A proof that a leaf stands at an index of a list of leaves. -/
structure Proof where
  -- The root over the list.
  root : Hash
  -- The siblings on the way from the leaf to the root, bottom up.
  siblings : List Hash
  -- The number of leaves in the list.
  leafCount : Nat
  leafIndex : Nat
  leaf : Bytes

/-- The proof for the leaf at an index, if the index is in range. -/
def prove? (hash : Hasher) (leaves : List Bytes) (leafIndex : Nat) : Option Proof := do
  let leaf ← leaves[leafIndex]?
  let (siblings, last) := Layer.ascent (join hash) [] (leaves.map hash) leafIndex
  -- There is a leaf, so the last layer has a node.
  let root ← last.head?
  return { root, siblings, leafCount := leaves.length, leafIndex, leaf }

/-- Whether `siblings` lead from `leaf`, at an index of a list of `leafCount` leaves, to `root`.
There must be as many siblings as the way has, no fewer and no more. -/
def verify (hash : Hasher) (root : Hash) (siblings : List Hash) (leafCount leafIndex : Nat)
    (leaf : Bytes) : Bool :=
  decide (leafIndex < leafCount) &&
    Layer.climb? (join hash) leafCount leafIndex (hash leaf) siblings == some (root, [])

def Proof.verifies (hash : Hasher) (proof : Proof) : Bool :=
  verify hash proof.root proof.siblings proof.leafCount proof.leafIndex proof.leaf

end FinalityBridge.Merkle
