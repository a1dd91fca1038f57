import FinalityBridge.Bitfield.Challenge
import FinalityBridge.CommandLine.Command
import FinalityBridge.Mmr.Range
import FinalityBridge.Secp256k1.PublicKey

/-!
# Reports

What a command prints, and why it fails if it does.
-/

namespace FinalityBridge.CommandLine

inductive Failure where
  | publicKey (key : Bytes) (cause : PublicKey.ParseError)
  | positionOutOfBounds (position : UInt32) (count : Nat)
  | invalidMembership (position : UInt32) (address : Address)
  | versionTooBig (major minor : UInt8)
  -- A version that only its constructor finds to be too big.
  | version (cause : LeafVersion.VersionError)
  | leafIndexOutOfBounds (leafIndex : UInt64) (count : Nat)
  | notIncluded (leaf : Hash) (leafIndex : UInt64) (root : Hash)
  -- A proof or a wrapping is no written form.
  | encoding (cause : Scale.DecodeError)
  | refused (cause : Error)
deriving DecidableEq

def hex {size : Nat} (value : FixedBytes size) : String := Hex.render value.bytes

def Failure.message : Failure → String
  | publicKey key cause => s!"Invalid public key {Hex.render key}: {cause.message}"
  | positionOutOfBounds position count => s!"Position out of bounds: {position} vs {count}"
  | invalidMembership position address =>
    s!"Invalid proof for validator #{position} ({hex address})"
  | versionTooBig major minor => s!"Version {major}.{minor} does not fit 3 + 5 bits"
  | version cause => cause.message
  | leafIndexOutOfBounds leafIndex count => s!"Leaf index out of bounds: {leafIndex} vs {count}"
  | notIncluded leaf leafIndex root =>
    s!"Leaf {hex leaf} is not included at index {leafIndex} under {hex root}"
  | encoding cause => cause.message
  | refused cause => cause.message

structure Report where
  output : String
  failure? : Option Failure
deriving DecidableEq

namespace Report

/-- The report of a command that prints nothing if it fails. -/
def ofExcept : Except Failure String → Report
  | .ok output => ⟨output, none⟩
  | .error failure => ⟨"", some failure⟩

/-- The addresses of public keys, up to the first that is no key. -/
def addresses : List Bytes → Report
  | [] => ⟨"", none⟩
  | key :: keys =>
    match PublicKey.parse key with
    | .error cause => ⟨"", some (.publicKey key cause)⟩
    | .ok publicKey =>
      let rest := addresses keys
      { rest with output :=
          s!"[{Hex.render key}] Address:\n\t {hex publicKey.address}\n" ++ rest.output }

/-- What is shown of a set and the proof for one of its members. -/
def membershipText (set : ValidatorSet) (proof : MembershipProof) : String :=
  let encodedSet := Hex.render (ValidatorSet.codec.encode set)
  let encodedProof := Hex.render (MembershipProof.codec.encode proof)
  s!"\nRoot: {hex set.root}\nLength: {set.len}\n" ++
    s!"SCALE-encoded validator set: {encodedSet}\n\nAddress: {hex proof.address}\n" ++
    s!"SCALE-encoded proof: {encodedProof}\n\n"

/-- A set, and the proof for the member at a position. -/
def proveMembership (position : UInt32) (members : List Address) (setId : UInt64) :
    Except Failure String :=
  match MembershipProof.ofAddresses? members position with
  | none => .error (.positionOutOfBounds position members.length)
  | some proof =>
    match ValidatorSet.ofAddresses members setId with
    | .error cause => .error (.refused cause)
    | .ok set => .ok (membershipText set proof)

/-- Whether a written proof of membership holds. The id of the set plays no part in it. -/
def verifyMembership (root : Hash) (len : UInt32) (encoded : Bytes) : Except Failure String :=
  match MembershipProof.codec.decodeAll encoded with
  | .error cause => .error (.encoding cause)
  | .ok proof =>
    let set : ValidatorSet := ⟨root, len, 0⟩
    if set.verify proof then
      .ok s!"\nProof for validator #{proof.position} ({hex proof.address}) is correct.\n\n"
    else .error (.invalidMembership proof.position proof.address)

/-- What is shown of the written form of a leaf. -/
def writtenText (encoded : Bytes) : String :=
  s!"SCALE-encoded leaf: {Hex.render encoded}\nLeaf hash: {hex (Leaf.digest encoded)}\n"

/-- A leaf of the version with these components, written. The components are checked here, before the
version is made of them. -/
def encodeLeaf (major minor : UInt8) (leaf : LeafVersion → Leaf) : Except Failure String :=
  if 7 < major ∨ 31 < minor then .error (.versionTooBig major minor)
  else
    match LeafVersion.ofComponents major minor with
    | .error cause => .error (.version cause)
    | .ok version => .ok (writtenText (leaf version).encode)

def leafText (leaf : Leaf) : String :=
  let next := leaf.nextAuthoritySet
  s!"MmrLeaf \x7b version: MmrLeafVersion({leaf.version.packed}), " ++
    s!"parent_number_and_hash: ({leaf.parentNumber}, {hex leaf.parentHash}), " ++
    s!"parachain_heads: {hex leaf.parachainHeads}, " ++
    s!"beefy_next_authority_set: BeefyNextAuthoritySet \x7b id: {next.id}, len: {next.len}, " ++
    s!"root: {hex next.root} \x7d \x7d"

/-- A written leaf and its digest. What follows the wrapping of a wrapped leaf is left alone. -/
def decodeLeaf (data : Bytes) (wrapped : Bool) : Except Failure String := do
  let encoded ←
    if wrapped then
      match Scale.Codec.bytes.decode data with
      | .ok (inner, _) => .ok inner
      | .error cause => .error (.encoding cause)
    else .ok data
  match Leaf.decode encoded with
  | .error cause => .error (.refused cause)
  | .ok leaf => .ok s!"{leafText leaf}\nLeaf hash: {hex (Leaf.digest encoded)}\n"

/-- What is shown of the root of a mountain range and the proof for one of its leaves. -/
def inclusionText (root : Hash) (proof : InclusionProof) : String :=
  let encoded := Hex.render (InclusionProof.codec.encode proof)
  s!"\nRoot: {hex root}\nSCALE-encoded proof: {encoded}\n\n"

/-- The root of a mountain range, and the proof for the leaf at an index. -/
def proveInclusion (leafIndex : UInt64) (leaves : List Hash) : Except Failure String :=
  let range : MountainRange := ⟨leaves⟩
  match range.prove? Keccak.digest leafIndex with
  | none => .error (.leafIndexOutOfBounds leafIndex range.leafCount)
  | some proof => .ok (inclusionText (range.root Keccak.digest) proof)

/-- Whether a written proof of inclusion holds for the digest of a byte string. -/
def verifyInclusion (root : Hash) (leaf encoded : Bytes) : Except Failure String :=
  match InclusionProof.codec.decodeAll encoded with
  | .error cause => .error (.encoding cause)
  | .ok proof =>
    let digest := Leaf.digest leaf
    if proof.verify Keccak.digest digest root then .ok "\nProof is correct.\n\n"
    else .error (.notIncluded digest proof.leafIndex root)

def listText {α : Type} [ToString α] (items : List α) : String :=
  "[" ++ ", ".intercalate (items.map toString) ++ "]"

/-- What is shown of a claim and its challenge. -/
def challengeText (claimed challenge : Bitfield) : String :=
  s!"\nClaimed:   {claimed.render}\nChallenge: {challenge.render}\n" ++
    s!"Words: {listText challenge.words}\nPositions: {listText challenge.ones}\n\n"

def challenge (seed : Hash) (claimed : List UInt32) (validators : UInt32) (size? : Option UInt32) :
    Except Failure String :=
  match Bitfield.ofPositions claimed validators with
  | .error cause => .error (.refused cause)
  | .ok claimed =>
    let size := (size?.map UInt32.toNat).getD (sampleSize validators)
    .ok (challengeText claimed (Bitfield.challenge seed claimed size))

end Report

def Command.run : Command → Report
  | addresses keys => Report.addresses keys
  | proveMembership position members setId =>
    .ofExcept (Report.proveMembership position members setId)
  | verifyMembership root len proof => .ofExcept (Report.verifyMembership root len proof)
  | encodeLeaf major minor parentNumber parentHash parachainHeads nextSetId nextSetLen nextSetRoot =>
    .ofExcept (Report.encodeLeaf major minor fun version =>
      { version, parentNumber, parentHash, parachainHeads
        nextAuthoritySet := ⟨nextSetId, nextSetLen, nextSetRoot⟩ })
  | decodeLeaf leaf wrapped => .ofExcept (Report.decodeLeaf leaf wrapped)
  | proveInclusion leafIndex leaves => .ofExcept (Report.proveInclusion leafIndex leaves)
  | verifyInclusion root leaf proof => .ofExcept (Report.verifyInclusion root leaf proof)
  | challenge seed claimed validators size? =>
    .ofExcept (Report.challenge seed claimed validators size?)

/-- The answer of the tool to a command line. -/
def respond (words : List String) : Except ArgumentError Report := Command.run <$> Command.parse words

end FinalityBridge.CommandLine
