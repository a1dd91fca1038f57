import FinalityBridge.CommandLine.Arguments

/-!
# Commands

The commands of the tool, and how a command line names them. Asking for help or for the version of
the tool is left out: the words for that (`help`, `--help`, `-h`, `--version`, `-V`) are answered like
all others that name no command and no option.
-/

namespace FinalityBridge.CommandLine

inductive Command where
  -- Derives the addresses of public keys.
  | addresses (keys : List Bytes)
  -- Proves the membership of the validator at a position.
  | proveMembership (position : UInt32) (members : List Address) (setId : UInt64)
  -- Checks a written proof of membership.
  | verifyMembership (root : Hash) (len : UInt32) (proof : Bytes)
  -- Writes a leaf of the mountain range.
  | encodeLeaf (major minor : UInt8) (parentNumber : UInt32) (parentHash parachainHeads : Hash)
      (nextSetId : UInt64) (nextSetLen : UInt32) (nextSetRoot : Hash)
  -- Shows a written leaf, which may be wrapped into a list of bytes.
  | decodeLeaf (leaf : Bytes) (wrapped : Bool)
  -- Proves the inclusion of a leaf.
  | proveInclusion (leafIndex : UInt64) (leaves : List Hash)
  -- Checks a written proof of inclusion.
  | verifyInclusion (root : Hash) (leaf proof : Bytes)
  -- Draws the challenge of a session.
  | challenge (seed : Hash) (claimed : List UInt32) (validators : UInt32) (size? : Option UInt32)
deriving DecidableEq

namespace Command

open ValueReader

/-- Reads the arguments that follow the name of a command. A value that cannot be read is reported
before an option that is given twice. -/
def ofArguments (form : Form) (build : Arguments → Except ArgumentError Command)
    (words : List String) : Except ArgumentError Command :=
  match form.scan words with
  | none => .error .usage
  | some arguments => do
    let command ← build arguments
    if arguments.Distinct then .ok command else .error .usage

/-- The command that a command line names, given without the name of the tool. -/
def parse : List String → Except ArgumentError Command
  | "address" :: words =>
    ofArguments ⟨.oneOrMore, [], []⟩ (fun arguments => do
      let keys ← arguments.positionals.mapM (Arguments.readValue "<public-keys>..." bytes)
      return addresses keys) words
  | "validator-tree" :: "generate-proof" :: words =>
    ofArguments ⟨.exactly 2, [("set-id", .defaulted)], []⟩ (fun arguments => do
      let position ← arguments.positional 0 "position" uint32
      let members ← arguments.positional 1 "addresses" ValueReader.addresses
      let setId ← arguments.optionD "set-id" uint64 0
      return proveMembership position members setId) words
  | "validator-tree" :: "verify-proof" :: words =>
    ofArguments ⟨.exactly 3, [], []⟩ (fun arguments => do
      let root ← arguments.positional 0 "root" hash
      let len ← arguments.positional 1 "len" uint32
      let proof ← arguments.positional 2 "proof" bytes
      return verifyMembership root len proof) words
  | "mmr" :: "encode-leaf" :: words =>
    ofArguments
      ⟨.exactly 0,
        [("major", .defaulted), ("minor", .defaulted), ("parent-number", .required),
          ("parent-hash", .required), ("parachain-heads", .required), ("next-set-id", .required),
          ("next-set-len", .required), ("next-set-root", .required)],
        []⟩ (fun arguments => do
      let major ← arguments.optionD "major" uint8 0
      let minor ← arguments.optionD "minor" uint8 0
      let parentNumber ← arguments.option "parent-number" uint32
      let parentHash ← arguments.option "parent-hash" hash
      let parachainHeads ← arguments.option "parachain-heads" hash
      let nextSetId ← arguments.option "next-set-id" uint64
      let nextSetLen ← arguments.option "next-set-len" uint32
      let nextSetRoot ← arguments.option "next-set-root" hash
      return encodeLeaf major minor parentNumber parentHash parachainHeads nextSetId nextSetLen
        nextSetRoot) words
  | "mmr" :: "decode-leaf" :: words =>
    ofArguments ⟨.exactly 1, [], ["wrapped"]⟩ (fun arguments => do
      let leaf ← arguments.positional 0 "leaf" bytes
      return decodeLeaf leaf (arguments.flags.contains "wrapped")) words
  | "mmr" :: "generate-proof" :: words =>
    ofArguments ⟨.exactly 2, [], []⟩ (fun arguments => do
      let leafIndex ← arguments.positional 0 "leaf-index" uint64
      let leaves ← arguments.positional 1 "leaves" hashes
      return proveInclusion leafIndex leaves) words
  | "mmr" :: "verify-proof" :: words =>
    ofArguments ⟨.exactly 3, [], []⟩ (fun arguments => do
      let root ← arguments.positional 0 "root" hash
      let leaf ← arguments.positional 1 "leaf" bytes
      let proof ← arguments.positional 2 "proof" bytes
      return verifyInclusion root leaf proof) words
  | "challenge" :: words =>
    ofArguments ⟨.exactly 2, [("validators", .required), ("subset-size", .optional)], []⟩ (fun arguments => do
      let seed ← arguments.positional 0 "seed" hash
      let claimed ← arguments.positional 1 "claimed" positions
      let validators ← arguments.option "validators" uint32
      let size? ← arguments.option? "subset-size" uint32
      return challenge seed claimed validators size?) words
  | _ => .error .usage

end Command

end FinalityBridge.CommandLine
