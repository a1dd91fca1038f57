import FinalityBridge.Error
import FinalityBridge.Keccak

/-!
# Commitments

What the validators sign: a payload for a block of the followed chain, and the validator set that is
to sign it. Commitments are ordered by validator set and block; the payload plays no part in it.
-/

namespace FinalityBridge

/-- A statement about a finalized block, to be signed by a validator set. -/
structure Commitment where
  -- The root of the mountain range over the leaves of the followed chain.
  payload : Hash
  blockNumber : BlockNumber
  validatorSetId : ValidatorSetId
deriving DecidableEq

namespace Commitment

open Scale

def codec : Codec Commitment :=
  ((Codec.hash.field "Commitment::payload").pair
    ((Codec.uint64.field "Commitment::block_number").pair
      (Codec.uint64.field "Commitment::validator_set_id"))).map
    (fun (payload, blockNumber, validatorSetId) => ⟨payload, blockNumber, validatorSetId⟩)
    (fun c => (c.payload, c.blockNumber, c.validatorSetId))

/-- The message that validators sign: the digest of the written form. -/
def digest (c : Commitment) : Hash := Keccak.digest (codec.encode c)

instance : Ord Commitment where
  compare a b :=
    (compare a.validatorSetId b.validatorSetId).then (compare a.blockNumber b.blockNumber)

instance : LT Commitment := ltOfOrd

instance : LE Commitment := leOfOrd

/-- Sorts commitments; those that are equal in order keep their places. -/
def sort (commitments : List Commitment) : List Commitment :=
  commitments.mergeSort fun a b => (compare a b).isLE

end Commitment

end FinalityBridge
