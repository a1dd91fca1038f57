import FinalityBridge.Scale.Codec

/-!
# What can go wrong

The causes for which a check of the light client fails, and their texts.
-/

namespace FinalityBridge

/-- The number of a block, of the followed chain or of the host chain. -/
abbrev BlockNumber := UInt64

/-- The number of a validator set. Each set carries the number after its predecessor's. -/
abbrev ValidatorSetId := UInt64

structure SessionId where
  value : UInt64
deriving DecidableEq, Inhabited

inductive Error where
  -- The words of a bitfield, or a position in it, need more words than its length does.
  | invalidBitfieldLength (got max : Nat) (validators : UInt32)
  -- Too few signers are claimed.
  | insufficientClaim (got want : Nat)
  -- A validator set id is not the one expected.
  | staleValidatorSet (got want : ValidatorSetId)
  -- A validator set has more members than there are positions.
  | tooManyValidators (got : Nat)
  -- A new validator set does not carry the next id.
  | setIdOutOfOrder (got current : ValidatorSetId)
  -- The signature that opens a session fails its check.
  | invalidInitialSignature (position : UInt32) (reason : Error)
  -- A signer's position is not claimed.
  | unclaimedPosition (position : UInt32)
  -- No key can be recovered from a signature.
  | malformedSignature
  -- A signature is another account's than its membership proof names.
  | signerMismatch (position : UInt32)
  -- A membership proof does not hold.
  | unknownValidator (position : UInt32)
  -- The lock block of a session lies ahead.
  | notMatured (current lockBlock : BlockNumber)
  -- The hash of a session's lock block cannot be had.
  | seedUnavailable (lockBlock : BlockNumber)
  -- The session ended without a result.
  | expired (session : SessionId)
  -- The session is not pending.
  | invalidSessionState (session : SessionId)
  -- There has been no such session.
  | unknownSession (session : SessionId)
  -- The session belongs to another account.
  | notSubmitter (session : SessionId)
  -- A commitment is not the one that opened the session.
  | commitmentMismatch
  -- Signatures and proofs are not those of the challenged positions.
  | bitfieldPositionMismatch (got proofs want : Nat)
  -- A leaf is no leaf, or is not included under the commitment's payload.
  | invalidLeafProof
  -- The session ended with a result.
  | alreadyCompleted (session : SessionId)
  -- A commitment is not newer than the latest one.
  | staleCommitment (got bestKnown : BlockNumber)
  -- Bytes are no written form.
  | codec (error : Scale.DecodeError)
deriving DecidableEq

instance : ToString SessionId := ⟨fun id => toString id.value⟩

namespace Error

def message : Error → String
  | invalidBitfieldLength got max validators =>
    s!"bitfield has {got} words, {validators} validators fit in {max}"
  | insufficientClaim got want => s!"claimed {got} signers, quorum requires {want}"
  | staleValidatorSet got want => s!"validator set id {got} does not match active set {want}"
  | tooManyValidators got => s!"{got} validators do not fit `u32` positions"
  | setIdOutOfOrder got current =>
    s!"validator set id {got} does not follow active set {current}"
  | invalidInitialSignature position reason =>
    s!"initial signature for validator {position} is invalid: {reason.message}"
  | unclaimedPosition position => s!"validator {position} is not part of the claimed bitfield"
  | malformedSignature => "malformed ECDSA signature"
  | signerMismatch position =>
    s!"signature of validator {position} recovers to a different address"
  | unknownValidator position =>
    s!"validator {position} is not a member of the validator set"
  | notMatured current lockBlock =>
    s!"session locked until block {lockBlock}, current block is {current}"
  | seedUnavailable lockBlock =>
    s!"block hash of lock block {lockBlock} is no longer available"
  | expired session => s!"session {session} has expired"
  | invalidSessionState session => s!"session {session} is not pending"
  | unknownSession session => s!"unknown session {session}"
  | notSubmitter session => s!"only the original submitter may act on session {session}"
  | commitmentMismatch => "commitment does not hash to the value recorded in the session"
  | bitfieldPositionMismatch got proofs want =>
    s!"got {got} signatures and {proofs} proofs for a challenge of {want} positions"
  | invalidLeafProof => "MMR leaf is not included under the commitment payload"
  | alreadyCompleted session => s!"session {session} has already been completed"
  | staleCommitment got bestKnown =>
    s!"commitment for block {got} is not newer than block {bestKnown}"
  | codec error => s!"codec error: {error.message}"

end Error

end FinalityBridge
