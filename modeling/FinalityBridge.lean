import FinalityBridge.Account
import FinalityBridge.Client
import FinalityBridge.Main
import FinalityBridge.Proofs.Scale.Lawful
import FinalityBridge.Proofs.Merkle.Layer
import FinalityBridge.Proofs.Merkle.Origin
import FinalityBridge.Proofs.Merkle.Membership
import FinalityBridge.Proofs.Merkle.Split
import FinalityBridge.Proofs.Merkle.Binding
import FinalityBridge.Proofs.Merkle.Width
import FinalityBridge.Proofs.Merkle.Climb
import FinalityBridge.Proofs.ValidatorSet
import FinalityBridge.Proofs.Mmr.Mountain
import FinalityBridge.Proofs.Mmr.Accumulator
import FinalityBridge.Proofs.Mmr.Inclusion
import FinalityBridge.Proofs.Mmr.Binding
import FinalityBridge.Proofs.Mmr.Way
import FinalityBridge.Proofs.Mmr.Tiling
import FinalityBridge.Proofs.Bitfield.Positions
import FinalityBridge.Proofs.Bitfield.Sample
import FinalityBridge.Proofs.Bitfield.Fairness
import FinalityBridge.Proofs.Bitfield.Finset
import FinalityBridge.Proofs.Bitfield.Claim
import FinalityBridge.Proofs.Client.Checks
import FinalityBridge.Proofs.Client.Run
import FinalityBridge.Proofs.Client.History
import FinalityBridge.Proofs.Client.Signers
import FinalityBridge.Proofs.Client.Relayer
import FinalityBridge.Proofs.Bytes
import FinalityBridge.Proofs.Client.Succession
import FinalityBridge.Proofs.Client.Sessions
import FinalityBridge.Proofs.Client.Refusal
import FinalityBridge.Proofs.Client.Separation
import FinalityBridge.Proofs.Client.Alignment
import FinalityBridge.Proofs.Client.Sweep
import FinalityBridge.Proofs.Scale.Lists
import FinalityBridge.Proofs.Scale.Records
import FinalityBridge.Proofs.CommandLine.Arguments
import FinalityBridge.Proofs.CommandLine.Challenge
import FinalityBridge.Proofs.CommandLine.Membership
import FinalityBridge.Proofs.CommandLine.Inclusion
import FinalityBridge.Proofs.CommandLine.LeafCheck
import FinalityBridge.Proofs.CommandLine.LeafReading
import FinalityBridge.Proofs.Signature
