import FinalityBridge.Bitfield.Quorum
import FinalityBridge.ValidatorSet

/-!
# Sessions

A commitment is verified in two phases. A session is opened with a claim of who signed; when the
host chain has reached the session's lock block, the hash of that block picks the signatures to be
shown, and they must be shown before that hash is forgotten.
-/

namespace FinalityBridge

/-- The delays of the two phases, in blocks of the host chain. -/
structure Config where
  -- From the opening of a session to its lock block, whose hash nobody must know yet.
  lockDelay : BlockNumber
  -- From the lock block to the last block in which the session can be completed.
  seedRetention : BlockNumber
deriving DecidableEq

def Config.standard : Config := ⟨45, 256⟩

def SessionId.codec : Scale.Codec SessionId :=
  (Scale.Codec.uint64.field "SessionId.0").map SessionId.mk SessionId.value

/-- How far a session has come. The last two are final. -/
inductive SessionStatus where
  | pending
  | completed
  | expired
deriving DecidableEq

namespace SessionStatus

def name : SessionStatus → String
  | pending => "Pending"
  | completed => "Completed"
  | expired => "Expired"

end SessionStatus

inductive Outcome where
  | completed
  | expired
deriving DecidableEq

def Outcome.status : Outcome → SessionStatus
  | completed => .completed
  | expired => .expired

/-- Where the host chain stands relative to a session's lock block. -/
inductive Window where
  -- The lock block lies ahead.
  | locked
  -- The hash of the lock block can be used.
  | opened
  -- The hash of the lock block counts as forgotten.
  | closed
deriving DecidableEq

structure Session where
  id : SessionId
  -- The digest of the commitment to be verified.
  commitmentHash : Hash
  -- The validators said to have signed.
  claimed : Bitfield
  -- The account that opened the session, which alone may end it.
  submitter : Address
  -- The validator set that was active when the session was opened.
  validatorSet : ValidatorSet
  -- The block of the host chain whose hash is the seed of the challenge.
  lockBlock : BlockNumber
deriving DecidableEq

/-- Where the host chain, at block `current`, stands relative to a session. -/
def Session.window (s : Session) (current seedRetention : BlockNumber) : Window :=
  if current < s.lockBlock then .locked
  else if seedRetention < current - s.lockBlock then .closed
  else .opened

end FinalityBridge
