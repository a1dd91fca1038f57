import Mathlib.Algebra.Group.End
import Mathlib.Data.List.Nodup
import Mathlib.Data.List.OfFn
import FinalityBridge.Proofs.Client.History

/-!
# Submissions that answer a challenge

A completion looks at the signatures of a submission only if there is one for each challenged position,
with a proof for this very position, in ascending order. Whoever permutes, leaves out or adds pairs of
signature and proof to a submission that would be accepted is refused for just that reason. Main
statement: `completes_in_order`.
-/

namespace FinalityBridge

/-! ## Pairs of signature and proof -/

/-- The signatures of a submission, each with the proof that stands beside it. -/
def CompleteCommitment.pairs (complete : CompleteCommitment) : List (Signature × MembershipProof) :=
  complete.signatures.zip complete.proofs

/-- The submission with other signatures and proofs, and all else as it is. -/
def CompleteCommitment.withPairs (complete : CompleteCommitment)
    (pairs : List (Signature × MembershipProof)) : CompleteCommitment :=
  { complete with signatures := pairs.map (·.1), proofs := pairs.map (·.2) }

section Rearranged

variable {α β : Type} {entries others : List α}

/-- The entries in another order, without some of them, or with others added, wherever they stand. -/
inductive Rearranged (entries : List α) : List α → Prop
  | reordered (order : Equiv.Perm (Fin entries.length)) (h : order ≠ 1) :
    Rearranged entries (List.ofFn fun i => entries.get (order i))
  | dropped (kept : List α) (h : kept.Sublist entries) (hlt : kept.length < entries.length) :
    Rearranged entries kept
  | added (more : List α) (h : entries.Sublist more) (hlt : entries.length < more.length) :
    Rearranged entries more

-- Another order shows in what tells the entries apart.
theorem eq_one_of_map_ofFn {key : α → β} {order : Equiv.Perm (Fin entries.length)}
    (hnodup : (entries.map key).Nodup)
    (h : (List.ofFn fun i => entries.get (order i)).map key = entries.map key) : order = 1 := by
  have hkeys : entries.map key = List.ofFn fun i => key (entries.get i) := by
    rw [← List.ofFn_get entries, List.map_ofFn, List.ofFn_get]
    rfl
  rw [hkeys, List.map_ofFn] at h
  have hsame : ∀ i, key (entries.get (order i)) = key (entries.get i) :=
    congrFun (List.ofFn_injective h)
  ext i
  have hentry : entries.get (order i) = entries.get i :=
    List.inj_on_of_nodup_map hnodup (List.get_mem _ _) (List.get_mem _ _) (hsame i)
  exact congrArg Fin.val (List.nodup_iff_injective_get.1 hnodup.of_map hentry)

theorem Rearranged.map_ne {key : α → β} (h : Rearranged entries others)
    (hnodup : (entries.map key).Nodup) : others.map key ≠ entries.map key := by
  intro heq
  have hlength := congrArg List.length heq
  rw [List.length_map, List.length_map] at hlength
  cases h with
  | reordered order hne => exact hne (eq_one_of_map_ofFn hnodup heq)
  | dropped _ _ hlt => omega
  | added _ _ hlt => omega

end Rearranged

/-! ## Refused attestations -/

/-- An attestation is refused for what it is, whatever else is submitted. -/
theorem ValidatorSet.error_of_checkAttestation {set : ValidatorSet} {digest : Hash}
    {signature : Signature} {proof : MembershipProof} {e : Error}
    (h : set.checkAttestation digest signature proof = .error e) :
    e = .malformedSignature ∨ e = .signerMismatch proof.position ∨
      e = .unknownValidator proof.position := by
  unfold checkAttestation at h
  cases hsigner : signature.signer digest with
  | error cause =>
    have hcause : cause = .malformedSignature := by
      unfold Signature.signer at hsigner
      grind
    rw [hsigner] at h
    cases h
    exact .inl hcause
  | ok signer =>
    rw [hsigner] at h
    replace h : (if signer ≠ proof.address then .error (.signerMismatch proof.position)
      else if set.verify proof then .ok ()
      else .error (.unknownValidator proof.position)) = Except.error (α := Unit) e := h
    split at h
    · cases h
      exact .inr (.inl rfl)
    · split at h
      · cases h
      · cases h
        exact .inr (.inr rfl)

namespace Client

theorem exists_of_checkSignatures_eq_error {set : ValidatorSet} {digest : Hash}
    {attestations : List (Signature × MembershipProof)} {e : Error}
    (h : checkSignatures set digest attestations = .error e) :
    ∃ a ∈ attestations, set.checkAttestation digest a.1 a.2 = .error e := by
  induction attestations with
  | nil => cases h
  | cons a rest ih =>
    obtain ⟨signature, proof⟩ := a
    rw [checkSignatures] at h
    cases hfirst : set.checkAttestation digest signature proof with
    | error cause =>
      rw [hfirst] at h
      cases h
      exact ⟨(signature, proof), List.mem_cons_self, hfirst⟩
    | ok _ =>
      rw [hfirst] at h
      obtain ⟨a, ha, herror⟩ := ih h
      exact ⟨a, List.mem_cons_of_mem _ ha, herror⟩

/-! ## Answers to a challenge -/

variable {client : Client} {chain : HostChain} {session : Session} {id : SessionId}
  {caller : Address} {seed : Hash} {challenged : Bitfield} {complete : CompleteCommitment}
  {payload : VerifiedPayload}

/-- The commitment of a submission is the one that the session was opened for, it names the session's
validator set, and it is newer than what was verified last. -/
structure Presents (client : Client) (session : Session) (complete : CompleteCommitment) : Prop where
  digest : complete.commitment.digest = session.commitmentHash
  validatorSetId : complete.commitment.validatorSetId = session.validatorSet.id
  newer : client.latestBlock < complete.commitment.blockNumber

/-- There are as many signatures and as many proofs as challenged positions, and the proofs are for
these positions, in ascending order. -/
structure Answers (complete : CompleteCommitment) (challenged : Bitfield) : Prop where
  length_signatures : complete.signatures.length = challenged.ones.length
  length_proofs : complete.proofs.length = challenged.ones.length
  positions : complete.proofs.map (·.position) = challenged.ones

theorem Accepts.presents (h : client.Accepts session seed complete payload) :
    client.Presents session complete :=
  ⟨h.digest, h.validatorSetId, h.newer⟩

theorem Presents.withPairs (h : client.Presents session complete)
    (pairs : List (Signature × MembershipProof)) :
    client.Presents session (complete.withPairs pairs) :=
  ⟨h.digest, h.validatorSetId, h.newer⟩

theorem Accepts.answers (h : client.Accepts session seed complete payload) :
    Answers complete (challengeOf seed session) :=
  ⟨h.length_signatures, h.length_proofs, h.positions⟩

theorem isAligned_iff_answers :
    complete.isAligned challenged.ones = true ↔ Answers complete challenged := by
  rw [CompleteCommitment.isAligned_iff]
  constructor
  · rintro ⟨hsignatures, hpositions⟩
    refine ⟨hsignatures, ?_, hpositions⟩
    rw [← hpositions, List.length_map]
  · intro h
    exact ⟨h.length_signatures, h.positions⟩

theorem Answers.withPairs_pairs (h : Answers complete challenged) :
    complete.withPairs complete.pairs = complete := by
  have hlength := h.length_signatures.trans h.length_proofs.symm
  unfold CompleteCommitment.withPairs CompleteCommitment.pairs
  rw [List.map_fst_zip (Nat.le_of_eq hlength), List.map_snd_zip (Nat.le_of_eq hlength.symm)]

theorem Answers.map_position_pairs (h : Answers complete challenged) :
    complete.pairs.map (·.2.position) = challenged.ones := by
  have hproofs : complete.pairs.map (·.2) = complete.proofs :=
    congrArg CompleteCommitment.proofs h.withPairs_pairs
  rw [← h.positions, ← hproofs, List.map_map]
  rfl

/-- What is rearranged does not answer the challenge that it answered before. -/
theorem Answers.not_of_rearranged {pairs : List (Signature × MembershipProof)}
    (h : Answers complete challenged) (hpairs : Rearranged complete.pairs pairs) :
    ¬Answers (complete.withPairs pairs) challenged := by
  intro hanswers
  have hnodup : (complete.pairs.map (·.2.position)).Nodup := by
    rw [h.map_position_pairs]
    exact challenged.nodup_ones
  apply hpairs.map_ne hnodup
  rw [h.map_position_pairs, ← hanswers.positions]
  exact (List.map_map ..).symm

theorem checkComplete_of_not_answers (hpresents : client.Presents session complete)
    (h : ¬Answers complete (challengeOf seed session)) :
    client.checkComplete session seed complete =
      .error (.bitfieldPositionMismatch complete.signatures.length complete.proofs.length
        (challengeOf seed session).ones.length) := by
  unfold checkComplete
  rw [if_neg (not_not_intro hpresents.digest), if_neg (not_not_intro hpresents.validatorSetId),
    if_neg (UInt64.not_le.2 hpresents.newer), Bool.eq_false_iff.2 (mt isAligned_iff_answers.1 h)]
  rfl

-- What answers the challenge is refused for a signature or for the leaf only.
theorem checkComplete_of_answers {got proofs want : Nat} (hpresents : client.Presents session complete)
    (h : Answers complete (challengeOf seed session)) :
    client.checkComplete session seed complete ≠
      .error (.bitfieldPositionMismatch got proofs want) := by
  unfold checkComplete
  rw [if_neg (not_not_intro hpresents.digest), if_neg (not_not_intro hpresents.validatorSetId),
    if_neg (UInt64.not_le.2 hpresents.newer), isAligned_iff_answers.2 h, Bool.not_true,
    if_neg Bool.false_ne_true]
  intro herror
  cases hsignatures : checkSignatures session.validatorSet complete.commitment.digest
      (complete.signatures.zip complete.proofs) with
  | error e =>
    obtain ⟨a, -, hattested⟩ := exists_of_checkSignatures_eq_error hsignatures
    rw [hsignatures] at herror
    cases herror
    obtain hcause | hcause | hcause := ValidatorSet.error_of_checkAttestation hattested
    · cases hcause
    · cases hcause
    · cases hcause
  | ok _ =>
    rw [hsignatures] at herror
    cases hleaf : Leaf.decode complete.leaf with
    | error e =>
      rw [hleaf] at herror
      cases herror
    | ok leaf =>
      rw [hleaf] at herror
      simp only [bind, Except.bind] at herror
      split at herror
      · cases herror
      · cases herror

theorem complete_of_challenge (hsession : client.sessions.session? id = some session)
    (hchallenge : (client.challenge chain id).1 = .ok challenged) (complete : CompleteCommitment) :
    ∃ seed, challenged = challengeOf seed session ∧
      client.complete chain id session.submitter complete =
        match client.checkComplete session seed complete with
        | .error e => (.error e, client)
        | .ok payload => (.ok payload, client.conclude id complete.commitment) := by
  obtain ⟨other, seed, hother, hopened, hhash, rfl⟩ := challenge_eq_ok_iff.1 hchallenge
  obtain rfl : session = other := Option.some.inj (hsession.symm.trans hother)
  have hreply := complete_of_submitter hsession chain complete
  rw [seed_eq_ok_iff.2 ⟨hopened, hhash⟩] at hreply
  exact ⟨seed, rfl, hreply⟩

/-- The challenge that anyone is given for a session is the one that its completion asks for. -/
theorem complete_eq_mismatch_iff {got proofs want : Nat}
    (hsession : client.sessions.session? id = some session)
    (hchallenge : (client.challenge chain id).1 = .ok challenged)
    (hpresents : client.Presents session complete) :
    (client.complete chain id session.submitter complete).1 =
        .error (.bitfieldPositionMismatch got proofs want) ↔
      ¬Answers complete challenged ∧ got = complete.signatures.length ∧
        proofs = complete.proofs.length ∧ want = challenged.ones.length := by
  obtain ⟨seed, rfl, hcomplete⟩ := complete_of_challenge hsession hchallenge complete
  by_cases hanswers : Answers complete (challengeOf seed session)
  · have hcheck := @checkComplete_of_answers _ _ _ _ got proofs want hpresents hanswers
    rw [hcomplete]
    refine iff_of_false ?_ fun h => h.1 hanswers
    cases hreply : client.checkComplete session seed complete with
    | error e =>
      rw [hreply] at hcheck
      exact hcheck
    | ok payload => exact nofun
  · rw [hcomplete, checkComplete_of_not_answers hpresents hanswers]
    simp only [Except.error.injEq, Error.bitfieldPositionMismatch.injEq]
    constructor
    · rintro ⟨rfl, rfl, rfl⟩
      exact ⟨hanswers, rfl, rfl, rfl⟩
    · rintro ⟨-, rfl, rfl, rfl⟩
      exact ⟨rfl, rfl, rfl⟩

/-! ## Completions in order -/

/-- A completion is refused for its positions exactly if signatures and proofs do not stand for the
challenge that anyone is given, one pair for each position in ascending order. So of a submission that
is accepted no pair can be left out, none added, and none put in another place. -/
theorem completes_in_order (client : Client) (chain : HostChain) :
    (∀ id session challenged complete, client.sessions.session? id = some session →
      (client.challenge chain id).1 = .ok challenged → client.Presents session complete →
      ∀ got proofs want,
        (client.complete chain id session.submitter complete).1 =
            .error (.bitfieldPositionMismatch got proofs want) ↔
          ¬Answers complete challenged ∧ got = complete.signatures.length ∧
            proofs = complete.proofs.length ∧ want = challenged.ones.length) ∧
    ∀ id caller complete payload, (client.complete chain id caller complete).1 = .ok payload →
      complete.withPairs complete.pairs = complete ∧
        ∀ pairs, Rearranged complete.pairs pairs →
          client.complete chain id caller (complete.withPairs pairs) =
            (.error (.bitfieldPositionMismatch pairs.length pairs.length complete.pairs.length),
              client) := by
  refine ⟨fun id session challenged complete hsession hchallenge hpresents got proofs want =>
    complete_eq_mismatch_iff hsession hchallenge hpresents, ?_⟩
  intro id caller complete payload hok
  obtain ⟨session, seed, hsession, hcompletes⟩ := complete_eq_ok_iff.1 hok
  have hanswers := hcompletes.accepts.answers
  refine ⟨hanswers.withPairs_pairs, fun pairs hpairs => ?_⟩
  have hpresents := hcompletes.accepts.presents.withPairs pairs
  have hreply := checkComplete_of_not_answers hpresents (hanswers.not_of_rearranged hpairs)
  have hpositions := congrArg List.length hanswers.map_position_pairs
  rw [List.length_map] at hpositions
  rw [hcompletes.caller, complete_of_submitter hsession,
    seed_eq_ok_iff.2 ⟨hcompletes.opened, hcompletes.hash⟩]
  dsimp only
  rw [hreply, ← hpositions]
  simp only [CompleteCommitment.withPairs, List.length_map]

namespace Sample

/-- The pairs of both validators, in the wrong order. -/
def swapped : List (Signature × MembershipProof) := submission.pairs.reverse

-- The first pair is left out, or the two are swapped.
theorem first_left_out_or_swapped :
    (∃ session challenged,
      ((new validatorSet .standard).run openAndRotate).sessions.session? ⟨0⟩ = some session ∧
      (((new validatorSet .standard).run openAndRotate).challenge (hostChain 60) ⟨0⟩).1 =
        .ok challenged ∧
      ((new validatorSet .standard).run openAndRotate).Presents session
        (submission.withPairs (submission.pairs.drop 1)) ∧
      (((new validatorSet .standard).run openAndRotate).complete (hostChain 60) ⟨0⟩ session.submitter
        (submission.withPairs (submission.pairs.drop 1))).1 =
          .error (.bitfieldPositionMismatch 1 1 2)) ∧
    (((new validatorSet .standard).run openAndRotate).complete (hostChain 60) ⟨0⟩ .zero
      submission).1 = .ok Sample.payload ∧
    ((new validatorSet .standard).run openAndRotate).complete (hostChain 60) ⟨0⟩ .zero
      (submission.withPairs swapped) =
        (.error (.bitfieldPositionMismatch 2 2 2), (new validatorSet .standard).run openAndRotate) := by
  obtain ⟨hmismatch, hrearranged⟩ :=
    completes_in_order ((new validatorSet .standard).run openAndRotate) (hostChain 60)
  obtain ⟨session, seed, hsession, hcompletes⟩ := complete_eq_ok_iff.1 complete_eq_ok
  have hchallenge := congrArg Prod.fst
    (challenge_of_opened hsession hcompletes.opened hcompletes.hash)
  have hlength : (challengeOf seed session).ones.length = 2 :=
    hcompletes.accepts.length_signatures.symm
  have hpresents := hcompletes.accepts.presents.withPairs (submission.pairs.drop 1)
  refine ⟨⟨session, _, hsession, hchallenge, hpresents, ?_⟩, complete_eq_ok, ?_⟩
  · apply (hmismatch ⟨0⟩ session _ _ hsession hchallenge hpresents 1 1 2).2
    refine ⟨fun hanswers => ?_, rfl, rfl, hlength.symm⟩
    have hone := hanswers.length_signatures
    rw [hlength] at hone
    cases hone
  · let order : Equiv.Perm (Fin submission.pairs.length) :=
      Equiv.swap ⟨0, by decide⟩ ⟨1, by decide⟩
    have horder : order ≠ 1 := mt Equiv.swap_eq_one_iff.1 (by decide)
    exact (hrearranged ⟨0⟩ .zero submission _ complete_eq_ok).2 swapped (.reordered order horder)

end Sample

end Client

end FinalityBridge
