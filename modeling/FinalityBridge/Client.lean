import FinalityBridge.Attestation
import FinalityBridge.Bitfield.Challenge
import FinalityBridge.Commitment
import FinalityBridge.Mmr.Inclusion
import FinalityBridge.Mmr.Leaf
import FinalityBridge.Session.Store

/-!
# The light client

A light client follows the finality of a chain. It holds the active validator set, its sessions and
the latest verified commitment. Every operation gives a reply and the client after it; a refused
operation leaves the client as it was, but for one case: a session found beyond the retention of its
seed expires.
-/

namespace FinalityBridge

/-- What a light client sees of the chain that hosts it. -/
structure HostChain where
  -- The current block.
  current : BlockNumber
  -- The hash of a block, as far as it is known.
  hash? : BlockNumber → Option Hash

structure NewCommitment where
  -- The digest of the commitment.
  commitmentHash : Hash
  -- The validator set that is said to have signed it.
  validatorSetId : ValidatorSetId
  -- The packed positions of those said to have signed it.
  claimed : List UInt64
  -- The signature of one of them.
  signature : Signature
  -- The proof of that signer's membership.
  proof : MembershipProof
  submitter : Address

structure CompleteCommitment where
  commitment : Commitment
  -- The signatures of the challenged validators, in ascending order of position.
  signatures : List Signature
  -- The proofs of the signers' membership.
  proofs : List MembershipProof
  -- A written leaf.
  leaf : Bytes
  -- The proof that the leaf is included under the payload of the commitment.
  leafProof : InclusionProof

/-- Whether there are as many signatures and as many proofs as positions, and each proof is for the
position at its place. -/
def CompleteCommitment.isAligned (complete : CompleteCommitment) (positions : List UInt32) : Bool :=
  complete.signatures.length == positions.length && complete.proofs.length == positions.length &&
    (complete.proofs.zip positions).all fun (proof, position) => proof.position == position

structure VerifiedPayload where
  -- The root that is trusted from now on.
  payloadRoot : Hash
  -- A leaf included under it.
  leaf : Leaf
deriving DecidableEq

structure Client where
  -- The active validator set.
  validatorSet : ValidatorSet
  sessions : SessionStore
  config : Config
  -- The block of the latest verified commitment, zero before the first one.
  latestBlock : BlockNumber
  -- The payload of the latest verified commitment, zero before the first one.
  latestRoot : Hash
deriving DecidableEq

namespace Client

def new (initial : ValidatorSet) (config : Config) : Client :=
  ⟨initial, .empty, config, 0, .zero⟩

/-- Replaces the active validator set by its successor. Pending sessions keep theirs. -/
def rotate (client : Client) (next : ValidatorSet) : Except Error Unit × Client :=
  match client.validatorSet.rotate next with
  | .ok set => (.ok (), { client with validatorSet := set })
  | .error e => (.error e, client)

/-- The claim of a new commitment, when all that opening a session asks for holds: the active set is
named, a quorum is claimed, and the signature is that of a claimed member. -/
def checkNew (client : Client) (new : NewCommitment) : Except Error Bitfield := do
  let set := client.validatorSet
  if new.validatorSetId ≠ set.id then
    .error (.staleValidatorSet new.validatorSetId set.id)
  else
    let claimed ← Bitfield.ofClaim new.claimed set.len
    let position := new.proof.position
    if claimed.contains position then
      match set.checkAttestation new.commitmentHash new.signature new.proof with
      | .ok () => .ok claimed
      | .error e => .error (.invalidInitialSignature position e)
    else .error (.invalidInitialSignature position (.unclaimedPosition position))

/-- The lock block of a session opened at a block: later by the lock delay, or the last block number
if there is none so late. -/
def lockBlock (client : Client) (current : BlockNumber) : BlockNumber :=
  UInt64.ofNat (min (current.toNat + client.config.lockDelay.toNat) (UInt64.size - 1))

/-- The session that opens for a commitment, given its id. -/
def newSession (client : Client) (chain : HostChain) (new : NewCommitment) (claimed : Bitfield)
    (id : SessionId) : Session where
  id
  commitmentHash := new.commitmentHash
  claimed
  submitter := new.submitter
  validatorSet := client.validatorSet
  lockBlock := client.lockBlock chain.current

def initiate (client : Client) (chain : HostChain) (new : NewCommitment) :
    Except Error SessionId × Client :=
  match client.checkNew new with
  | .error e => (.error e, client)
  | .ok claimed =>
    (.ok client.sessions.nextId,
      { client with sessions := client.sessions.insert (client.newSession chain new claimed) })

def finish (client : Client) (id : SessionId) (outcome : Outcome) : Client :=
  { client with sessions := client.sessions.finish id outcome }

def expire (client : Client) (ids : List SessionId) : Client :=
  ids.foldl (fun client id => client.finish id .expired) client

/-- Ends a pending session with its result: the payload of the commitment becomes the latest trusted
root. -/
def conclude (client : Client) (id : SessionId) (commitment : Commitment) : Client :=
  { client.finish id .completed with
    latestBlock := commitment.blockNumber
    latestRoot := commitment.payload }

/-- The seed of a session's challenge. A session whose window is closed expires. -/
def seed (client : Client) (chain : HostChain) (session : Session) : Except Error Hash × Client :=
  match session.window chain.current client.config.seedRetention with
  | .locked => (.error (.notMatured chain.current session.lockBlock), client)
  | .closed => (.error (.seedUnavailable session.lockBlock), client.finish session.id .expired)
  | .opened =>
    match chain.hash? session.lockBlock with
    | some hash => (.ok hash, client)
    | none => (.error (.seedUnavailable session.lockBlock), client)

/-- The positions that a session has to show signatures of. -/
def challengeOf (seed : Hash) (session : Session) : Bitfield :=
  Bitfield.challenge seed session.claimed (sampleSize session.validatorSet.len)

/-- The challenge of a pending session, for anyone who asks. -/
def challenge (client : Client) (chain : HostChain) (id : SessionId) :
    Except Error Bitfield × Client :=
  match client.sessions.get id with
  | .error (.alreadyCompleted id) => (.error (.invalidSessionState id), client)
  | .error e => (.error e, client)
  | .ok session =>
    match client.seed chain session with
    | (.ok seed, client) => (.ok (challengeOf seed session), client)
    | (.error e, client) => (.error e, client)

/-- Checks one after the other the signatures of a submission against a validator set. -/
def checkSignatures (set : ValidatorSet) (digest : Hash) :
    List (Signature × MembershipProof) → Except Error Unit
  | [] => .ok ()
  | (signature, proof) :: rest => do
    set.checkAttestation digest signature proof
    checkSignatures set digest rest

/-- Checks what completes a session, given the seed of its challenge. -/
def checkComplete (client : Client) (session : Session) (seed : Hash)
    (complete : CompleteCommitment) : Except Error VerifiedPayload := do
  let commitment := complete.commitment
  let set := session.validatorSet
  let positions := (challengeOf seed session).ones
  if commitment.digest ≠ session.commitmentHash then .error .commitmentMismatch
  else if commitment.validatorSetId ≠ set.id then
    .error (.staleValidatorSet commitment.validatorSetId set.id)
  else if commitment.blockNumber ≤ client.latestBlock then
    .error (.staleCommitment commitment.blockNumber client.latestBlock)
  else if !complete.isAligned positions then
    .error (.bitfieldPositionMismatch complete.signatures.length complete.proofs.length
      positions.length)
  else
    checkSignatures set commitment.digest (complete.signatures.zip complete.proofs)
    match Leaf.decode complete.leaf with
    | .error _ => .error .invalidLeafProof
    | .ok leaf =>
      if complete.leafProof.verify Keccak.digest (Leaf.digest complete.leaf) commitment.payload then
        .ok ⟨commitment.payload, leaf⟩
      else .error .invalidLeafProof

/-- Completes a pending session on behalf of its submitter. -/
def complete (client : Client) (chain : HostChain) (id : SessionId) (caller : Address)
    (complete : CompleteCommitment) : Except Error VerifiedPayload × Client :=
  match client.sessions.get id with
  | .error e => (.error e, client)
  | .ok session =>
    if caller ≠ session.submitter then (.error (.notSubmitter id), client)
    else
      match client.seed chain session with
      | (.error e, after) =>
        if after.sessions.status? id = some .expired then (.error (.expired id), after)
        else (.error e, after)
      | (.ok seed, client) =>
        match client.checkComplete session seed complete with
        | .error e => (.error e, client)
        | .ok payload => (.ok payload, client.conclude id complete.commitment)

/-- Gives up a pending session on behalf of its submitter. -/
def cancel (client : Client) (id : SessionId) (caller : Address) : Except Error Unit × Client :=
  match client.sessions.get id with
  | .error e => (.error e, client)
  | .ok session =>
    if caller ≠ session.submitter then (.error (.notSubmitter id), client)
    else (.ok (), client.finish id .expired)

/-- Expires every pending session whose window is closed at block `current`, and tells which. -/
def expireStale (client : Client) (current : BlockNumber) : List SessionId × Client :=
  let stale := client.sessions.pending.filter fun session =>
    session.window current client.config.seedRetention = .closed
  let ids := stale.map (·.id)
  (ids, client.expire ids)

end Client

end FinalityBridge
