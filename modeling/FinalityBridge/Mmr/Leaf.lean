import FinalityBridge.ValidatorSet

/-!
# Leaves of the mountain range

Every block of the followed chain adds a leaf to the mountain range. It records the block before it,
the heads of the parachains and the validator set that comes next, in 113 bytes.
-/

namespace FinalityBridge

/-- The version of the format of a leaf, packed into a byte: the major version in the three high
bits, the minor one in the five low bits. -/
structure LeafVersion where
  packed : UInt8
deriving DecidableEq, Inhabited

structure NextAuthoritySet where
  id : ValidatorSetId
  len : UInt32
  -- The root over the members' addresses.
  root : Hash
deriving DecidableEq

structure Leaf where
  version : LeafVersion
  parentNumber : UInt32
  parentHash : Hash
  -- A root over the heads of the parachains.
  parachainHeads : Hash
  nextAuthoritySet : NextAuthoritySet
deriving DecidableEq

open Scale

namespace LeafVersion

inductive VersionError where
  | tooBig
deriving DecidableEq

def VersionError.message : VersionError → String
  | tooBig => "Version components are too big."

/-- Whether a major and a minor version fit their three and five bits. -/
def Fits (major minor : UInt8) : Prop := major ≤ 7 ∧ minor ≤ 31

instance (major minor : UInt8) : Decidable (Fits major minor) :=
  inferInstanceAs (Decidable (_ ∧ _))

def ofComponents (major minor : UInt8) : Except VersionError LeafVersion :=
  if Fits major minor then .ok ⟨(major <<< 5) + minor⟩ else .error .tooBig

def components (version : LeafVersion) : UInt8 × UInt8 :=
  (version.packed >>> 5, version.packed &&& 31)

def codec : Codec LeafVersion :=
  (Codec.uint8.field "MmrLeafVersion.0").map LeafVersion.mk LeafVersion.packed

end LeafVersion

namespace NextAuthoritySet

def codec : Codec NextAuthoritySet :=
  ((Codec.uint64.field "BeefyNextAuthoritySet::id").pair
    ((Codec.uint32.field "BeefyNextAuthoritySet::len").pair
      (Codec.hash.field "BeefyNextAuthoritySet::root"))).map
    (fun (id, len, root) => ⟨id, len, root⟩) (fun s => (s.id, s.len, s.root))

def toValidatorSet (next : NextAuthoritySet) : ValidatorSet where
  root := next.root
  len := next.len
  id := next.id

end NextAuthoritySet

namespace Leaf

def codec : Codec Leaf :=
  ((LeafVersion.codec.field "MmrLeaf::version").pair
    (((Codec.uint32.pair Codec.hash).field "MmrLeaf::parent_number_and_hash").pair
      ((Codec.hash.field "MmrLeaf::parachain_heads").pair
        (NextAuthoritySet.codec.field "MmrLeaf::beefy_next_authority_set")))).map
    (fun (version, (parentNumber, parentHash), parachainHeads, next) =>
      ⟨version, parentNumber, parentHash, parachainHeads, next⟩)
    (fun leaf => (leaf.version, (leaf.parentNumber, leaf.parentHash), leaf.parachainHeads,
      leaf.nextAuthoritySet))

def encode (leaf : Leaf) : Bytes := codec.encode leaf

def decode (encoded : Bytes) : Except Error Leaf :=
  match codec.decodeAll encoded with
  | .ok leaf => .ok leaf
  | .error e => .error (.codec e)

/-- The digest under which a written leaf enters the mountain range. -/
def digest (encoded : Bytes) : Hash := Keccak.digest encoded

end Leaf

end FinalityBridge
