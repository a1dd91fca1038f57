import FinalityBridge.Proofs.Client.Alignment
import FinalityBridge.Proofs.CommandLine.Inclusion
import FinalityBridge.Proofs.Mmr.Way

/-!
# The tool's check of a leaf and the client's

The tool checks the inclusion of any byte string, the client only that of leaves. So on byte strings
that are leaves the two agree (`CommandLine.confirms_leaves`). Below the root over two leaves or more the
tool also confirms what is joined there, which is no leaf (`CommandLine.confirms_joined`).
-/

namespace FinalityBridge

/-! ## The client's check -/

/-- A byte string is read as a leaf, and a proof shows it to be included under a root. -/
structure ShowsLeaf (root : Hash) (leaf : Bytes) (proof : InclusionProof) : Prop where
  decodes : ∃ read, Leaf.decode leaf = .ok read
  included : proof.verify Keccak.digest (Leaf.digest leaf) root = true

namespace Client

variable {client : Client} {chain : HostChain} {id : SessionId} {session : Session}
  {complete : CompleteCommitment}

/-- A submission of the submitter passes all checks that come before that of its leaf. -/
structure Supports (client : Client) (chain : HostChain) (id : SessionId) (session : Session)
    (complete : CompleteCommitment) : Prop where
  pending : client.sessions.session? id = some session
  presents : client.Presents session complete
  answers : ∃ challenged, (client.challenge chain id).1 = .ok challenged ∧ Answers complete challenged
  attested : ∀ a ∈ complete.pairs,
    session.validatorSet.checkAttestation complete.commitment.digest a.1 a.2 = .ok ()

/-- What is left to check is that the leaf is one, and included under the payload. -/
theorem Supports.exists_complete_iff (h : client.Supports chain id session complete) :
    (∃ payload, (client.complete chain id session.submitter complete).1 = .ok payload) ↔
      ShowsLeaf complete.commitment.payload complete.leaf complete.leafProof := by
  obtain ⟨challenged, hchallenge, hanswers⟩ := h.answers
  obtain ⟨seed, rfl, hcomplete⟩ := complete_of_challenge h.pending hchallenge complete
  have hok : ∀ payload, (client.complete chain id session.submitter complete).1 = .ok payload ↔
      client.Accepts session seed complete payload := by
    intro payload
    rw [hcomplete, ← checkComplete_eq_ok_iff]
    cases client.checkComplete session seed complete with
    | error e => exact Iff.rfl
    | ok other => exact Iff.rfl
  constructor
  · rintro ⟨payload, hpayload⟩
    have haccepts := (hok payload).1 hpayload
    exact ⟨⟨payload.leaf, haccepts.leaf⟩, haccepts.included⟩
  · rintro ⟨⟨read, hread⟩, hincluded⟩
    refine ⟨⟨complete.commitment.payload, read⟩, (hok _).2 ?_⟩
    exact ⟨h.presents.digest, h.presents.validatorSetId, h.presents.newer,
      hanswers.length_signatures, hanswers.positions, h.attested, hread, hincluded, rfl⟩

end Client

/-! ## The tool's check -/

namespace CommandLine

open Report Merkle

/-- The tool reports that a proof is correct. -/
def Confirms (rootText leafText proofText : String) : Prop :=
  respond ["mmr", "verify-proof", rootText, leafText, proofText] =
    .ok ⟨"\nProof is correct.\n\n", none⟩

section Texts

variable {root : Hash} {leaf encoded : Bytes} {rootText leafText proofText : String}

theorem confirms_iff (hroot : Hex.Spells rootText.toList root.bytes)
    (hleaf : Hex.Spells leafText.toList leaf) (hencoded : Hex.Spells proofText.toList encoded) :
    Confirms rootText leafText proofText ↔
      ∃ proof, InclusionProof.codec.decodeAll encoded = .ok proof ∧
        proof.verify Keccak.digest (Leaf.digest leaf) root = true := by
  rw [Confirms, respond_of_parse (parse_verifyInclusion hroot hleaf hencoded), Except.ok.injEq]
  show Report.ofExcept (verifyInclusion root leaf encoded) = _ ↔ _
  rw [ofExcept_eq_iff, verifyInclusion_eq_ok_iff, and_iff_right rfl]

/-- The tool confirms what the client would take, and of byte strings that are leaves nothing else. -/
theorem confirms_leaves (hroot : Hex.Spells rootText.toList root.bytes)
    (hleaf : Hex.Spells leafText.toList leaf) (hencoded : Hex.Spells proofText.toList encoded) :
    ((∃ proof, InclusionProof.codec.decodeAll encoded = .ok proof ∧ ShowsLeaf root leaf proof) ↔
      leaf.length = 113 ∧ Confirms rootText leafText proofText) ∧
    ∀ (client : Client) (chain : HostChain) (id : SessionId) (session : Session)
      (complete : CompleteCommitment), client.Supports chain id session complete →
      complete.commitment.payload = root → complete.leaf = leaf →
      InclusionProof.codec.decodeAll encoded = .ok complete.leafProof →
      ((∃ payload, (client.complete chain id session.submitter complete).1 = .ok payload) ↔
        leaf.length = 113 ∧ Confirms rootText leafText proofText) := by
  have hagree : (∃ proof, InclusionProof.codec.decodeAll encoded = .ok proof ∧
      ShowsLeaf root leaf proof) ↔ leaf.length = 113 ∧ Confirms rootText leafText proofText := by
    rw [confirms_iff hroot hleaf hencoded, ← Leaf.exists_decode_iff]
    constructor
    · rintro ⟨proof, hdecode, hread, hincluded⟩
      exact ⟨hread, proof, hdecode, hincluded⟩
    · rintro ⟨hread, proof, hdecode, hincluded⟩
      exact ⟨proof, hdecode, hread, hincluded⟩
  refine ⟨hagree, ?_⟩
  rintro client chain id session complete hsupports rfl rfl hdecode
  rw [hsupports.exists_complete_iff, ← hagree]
  constructor
  · intro hshows
    exact ⟨complete.leafProof, hdecode, hshows⟩
  · rintro ⟨proof, hproof, hshows⟩
    rw [hdecode] at hproof
    cases hproof
    exact hshows

end Texts

section Sample

open Client Client.Sample

-- The client completes a session with the second of two leaves, so the tool confirms this leaf.
theorem confirms_second_of_two :
    ∃ session, ((new validatorSet .standard).run openAndRotate).Supports (hostChain 60) ⟨0⟩ session
        submission ∧
      submission.leaf.length = 113 ∧
      Confirms (hex submission.commitment.payload) (Hex.render submission.leaf)
        (Hex.render (InclusionProof.codec.encode submission.leafProof)) := by
  obtain ⟨session, seed, hsession, hcompletes⟩ := complete_eq_ok_iff.1 complete_eq_ok
  have hchallenge := congrArg Prod.fst
    (challenge_of_opened hsession hcompletes.opened hcompletes.hash)
  have hsupports : ((new validatorSet .standard).run openAndRotate).Supports (hostChain 60) ⟨0⟩ session
      submission :=
    ⟨hsession, hcompletes.accepts.presents, ⟨_, hchallenge, hcompletes.accepts.answers⟩,
      hcompletes.accepts.attested⟩
  have hdecode : InclusionProof.codec.decodeAll (InclusionProof.codec.encode submission.leafProof) =
      .ok submission.leafProof :=
    InclusionProof.lawful_codec.decodeAll_eq_ok_iff.2 ⟨by decide, rfl⟩
  have hcompleted := complete_eq_ok
  rw [hcompletes.caller] at hcompleted
  exact ⟨session, hsupports, ((confirms_leaves (Hex.spells_render _) (Hex.spells_render _)
    (Hex.spells_render _)).2 _ _ _ session submission hsupports rfl rfl hdecode).1
      ⟨_, hcompleted⟩⟩

end Sample

/-- What is joined at the root over two leaves, of all ones and of all twos. -/
def pairOfTwo : Bytes := List.replicate 32 0x11 ++ List.replicate 32 0x22

-- The tool confirms what the client refuses.
theorem not_confirms_only_leaves :
    ¬∀ (root : Hash) (leaf encoded : Bytes) (rootText leafText proofText : String),
      Hex.Spells rootText.toList root.bytes → Hex.Spells leafText.toList leaf →
      Hex.Spells proofText.toList encoded →
      (Confirms rootText leafText proofText ↔
        ∃ proof, InclusionProof.codec.decodeAll encoded = .ok proof ∧ ShowsLeaf root leaf proof) := by
  intro hall
  let proof : InclusionProof := ⟨0, 1, []⟩
  have hconfirms : Confirms (hex (Leaf.digest pairOfTwo)) (Hex.render pairOfTwo)
      (Hex.render (InclusionProof.codec.encode proof)) := by
    apply respond_verifyInclusion (Hex.spells_render _) (Hex.spells_render _) (Hex.spells_render _)
    decide +kernel
  obtain ⟨-, -, hdecodes, -⟩ := (hall (Leaf.digest pairOfTwo) pairOfTwo _ _ _ _
    (Hex.spells_render _) (Hex.spells_render _) (Hex.spells_render _)).1 hconfirms
  have hlength := Leaf.exists_decode_iff.1 hdecodes
  exact absurd hlength (by decide)

/-! ## Pairs in place of leaves -/

/-- Whatever two digests are joined on the way below a root, the tool confirms one after the other as if
they were a leaf. -/
theorem confirms_node {left right whole : Origin} {way : List Turn}
    (hfollow : whole.follow? way = some (.node left right)) (hlength : way.length < 64) :
    ∃ proof : InclusionProof, Confirms (hex (whole.digest Keccak.digest))
      (Hex.render ((left.digest Keccak.digest).bytes ++ (right.digest Keccak.digest).bytes))
      (Hex.render (InclusionProof.codec.encode proof)) := by
  obtain ⟨proof, -, hverify⟩ :=
    InclusionProof.exists_verify_of_follow? Keccak.digest hlength hfollow
  exact ⟨proof, respond_verifyInclusion (Hex.spells_render _) (Hex.spells_render _)
    (Hex.spells_render _) hverify⟩

/-- Below the root over two leaves or more the tool confirms a byte string that is no leaf. -/
theorem confirms_joined {range : MountainRange} (h : 2 ≤ range.leafCount) :
    ∃ (pair : Bytes) (proof : InclusionProof), (∀ read, Leaf.decode pair ≠ .ok read) ∧
      Confirms (hex (range.root Keccak.digest)) (Hex.render pair)
        (Hex.render (InclusionProof.codec.encode proof)) := by
  obtain ⟨left, right, htree⟩ := MountainRange.exists_node_tree? h
  obtain ⟨proof, hconfirms⟩ :=
    @confirms_node left right _ [] (Origin.follow?_nil _) (by decide)
  rw [MountainRange.digest_of_tree? htree] at hconfirms
  refine ⟨_, proof, fun read hread => ?_, hconfirms⟩
  have hlength := Leaf.exists_decode_iff.1 ⟨read, hread⟩
  rw [List.length_append, FixedBytes.length_bytes, FixedBytes.length_bytes] at hlength
  cases hlength

end CommandLine

end FinalityBridge
