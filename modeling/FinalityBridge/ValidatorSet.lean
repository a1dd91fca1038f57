import FinalityBridge.Error
import FinalityBridge.Keccak
import FinalityBridge.Merkle.Tree

/-!
# Validator sets

A validator set is known by the root of the Merkle tree over its members' addresses, in order, and
by their number. Membership at a position is shown by a proof in that tree.
-/

namespace FinalityBridge

structure ValidatorSet where
  -- The root over the members' addresses.
  root : Hash
  -- The number of members.
  len : UInt32
  id : ValidatorSetId
deriving DecidableEq

/-- A proof that an address is the member at a position. -/
structure MembershipProof where
  address : Address
  position : UInt32
  -- The siblings on the way to the root, bottom up.
  siblings : List Hash
deriving DecidableEq

open Scale

def MembershipProof.codec : Codec MembershipProof :=
  ((Codec.address.field "MembershipProof::address").pair
    ((Codec.uint32.field "MembershipProof::position").pair
      (Codec.hashes.field "MembershipProof::siblings"))).map
    (fun (address, position, siblings) => ⟨address, position, siblings⟩)
    (fun p => (p.address, p.position, p.siblings))

/-- The proof for the member at a position of a list of addresses, if the position is in range. -/
def MembershipProof.ofAddresses? (addresses : List Address) (position : UInt32) :
    Option MembershipProof := do
  let address ← addresses[position.toNat]?
  let proof ← Merkle.prove? Keccak.digest (addresses.map (·.bytes)) position.toNat
  return ⟨address, position, proof.siblings⟩

namespace ValidatorSet

def codec : Codec ValidatorSet :=
  ((Codec.hash.field "ValidatorSet::root").pair
    ((Codec.uint32.field "ValidatorSet::len").pair
      (Codec.uint64.field "ValidatorSet::id"))).map
    (fun (root, len, id) => ⟨root, len, id⟩) (fun s => (s.root, s.len, s.id))

/-- The set whose members have the given addresses, of which there must be fewer than 2³². -/
def ofAddresses (addresses : List Address) (id : ValidatorSetId) : Except Error ValidatorSet :=
  if addresses.length < UInt32.size then
    .ok
      { root := Merkle.root Keccak.digest (addresses.map (·.bytes))
        len := UInt32.ofNat addresses.length
        id }
  else .error (.tooManyValidators addresses.length)

/-- Whether a proof shows its address to be the member at its position. -/
def verify (set : ValidatorSet) (proof : MembershipProof) : Bool :=
  Merkle.verify Keccak.digest set.root proof.siblings set.len.toNat proof.position.toNat
    proof.address.bytes

/-- The set after a rotation from `current` to `next`, which must carry the next id. -/
def rotate (current next : ValidatorSet) : Except Error ValidatorSet :=
  if current.id.toNat + 1 = next.id.toNat then .ok next
  else .error (.setIdOutOfOrder next.id current.id)

end ValidatorSet

end FinalityBridge
