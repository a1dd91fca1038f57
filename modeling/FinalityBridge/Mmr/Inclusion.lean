import FinalityBridge.Mmr.Mountain
import FinalityBridge.Scale.Codec

/-!
# Inclusion proofs

A proof that a leaf stands at an index of a mountain range: the siblings on the way to the peak of
its own mountain, bottom up, then the peaks of all other mountains, left to right.
-/

namespace FinalityBridge

open Merkle Scale

/-- A proof that a leaf is included in a mountain range. -/
structure InclusionProof where
  leafIndex : UInt64
  -- The number of leaves of the range.
  leafCount : UInt64
  -- The siblings, then the other peaks.
  items : List Hash
deriving DecidableEq

namespace InclusionProof

def codec : Codec InclusionProof :=
  ((Codec.uint64.field "MmrProof::leaf_index").pair
    ((Codec.uint64.field "MmrProof::leaf_count").pair
      (Codec.hashes.field "MmrProof::items"))).map
    (fun (leafIndex, leafCount, items) => ⟨leafIndex, leafCount, items⟩)
    (fun p => (p.leafIndex, p.leafCount, p.items))

/-- The root to which a proof leads from a leaf, if the index is in range and the number of items
is that of the range's shape. -/
def rootFrom? (hash : Hasher) (proof : InclusionProof) (leaf : Hash) : Option Hash :=
  Mountain.climb? (join hash) proof.leafCount.toNat proof.leafIndex.toNat leaf proof.items

/-- Whether a proof shows `leaf` to be included under `root`. -/
def verify (hash : Hasher) (proof : InclusionProof) (leaf root : Hash) : Bool :=
  proof.rootFrom? hash leaf == some root

end InclusionProof

end FinalityBridge
