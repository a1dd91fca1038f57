import FinalityBridge.Proofs.Bitfield.Sample
import FinalityBridge.Proofs.Client.History
import FinalityBridge.Proofs.Merkle.Membership

/-!
# Who has signed a completed session

A session keeps a claim with a quorum of its validator set (`claimed_of_mem_pending`), so its
challenge is a full sample, more than a third of the set. What completes it are signatures of just
these validators, one for each position in ascending order, unless byte strings collide in the tree
over the validators' addresses (`signers_of_complete`).
-/

namespace FinalityBridge.Client

open Merkle

variable {initial : ValidatorSet} {config : Config} {calls : List Call} {chain : HostChain}
  {session : Session} {id : SessionId} {caller : Address} {complete : CompleteCommitment}
  {payload : VerifiedPayload} {addresses : List Address}

-- A pending session claims a quorum of the validator set that it keeps.
theorem claimed_of_mem_pending
    (h : session ∈ ((new initial config).run calls).sessions.pending) :
    session.claimed.len = session.validatorSet.len ∧
      quorum session.validatorSet.len ≤ session.claimed.count := by
  rcases mem_pending_run h with hnone | ⟨step, -, chain₀, new₀, claimed, -, hcheck, rfl⟩
  · cases hnone
  · rcases checkNew_eq_ok_iff.1 hcheck with ⟨-, hclaim, -⟩
    rcases Bitfield.ofClaim_spec hclaim with ⟨hlen, hquorum, -⟩
    exact ⟨hlen, hquorum⟩

/-- The byte strings that are hashed when membership proofs are checked against a set of `size`
validators. -/
def membershipInputs (size : Nat) (proofs : List MembershipProof) : List Bytes :=
  proofs.flatMap fun proof =>
    verifyInputs Keccak.digest proof.siblings size proof.position.toNat proof.address.bytes

-- A membership proof under the root over addresses names the address at its position, unless byte
-- strings collide.
theorem address_of_verify {set : ValidatorSet} {proof : MembershipProof}
    (hroot : set.root = root Keccak.digest (addresses.map (·.bytes)))
    (hsize : set.len.toNat = addresses.length) (h : set.verify proof = true) :
    addresses[proof.position.toNat]? = some proof.address ∨
      Collides Keccak.digest (rootInputs Keccak.digest (addresses.map (·.bytes)) ++
        verifyInputs Keccak.digest proof.siblings addresses.length proof.position.toNat
          proof.address.bytes) := by
  unfold ValidatorSet.verify at h
  rw [hroot, hsize, ← List.length_map (·.bytes)] at h
  rw [← List.length_map (·.bytes)]
  rcases eq_of_verify h with ⟨hleaf, -⟩ | hcollides
  · rw [List.getElem?_map, Option.map_eq_some_iff] at hleaf
    rcases hleaf with ⟨address, haddress, hbytes⟩
    rw [haddress, FixedBytes.ext hbytes]
    exact .inl rfl
  · exact .inr hcollides

/-- The signatures over a digest are those of the addresses at the positions, one after the other. -/
def SignedAt (addresses : List Address) (digest : Hash) (positions : List UInt32)
    (signatures : List Signature) : Prop :=
  ∀ (k : Nat) (q : UInt32), positions[k]? = some q → ∃ (signature : Signature) (address : Address),
    signatures[k]? = some signature ∧ addresses[q.toNat]? = some address ∧
      signature.signer digest = .ok address

/-- The signatures that are accepted are of the validators at the challenged positions, unless byte
strings collide. -/
theorem Accepts.signers {client : Client} {seed : Hash}
    (h : client.Accepts session seed complete payload)
    (hroot : session.validatorSet.root = root Keccak.digest (addresses.map (·.bytes)))
    (hsize : session.validatorSet.len.toNat = addresses.length) :
    SignedAt addresses complete.commitment.digest (challengeOf seed session).ones
      complete.signatures ∨
    Collides Keccak.digest (rootInputs Keccak.digest (addresses.map (·.bytes)) ++
      membershipInputs addresses.length complete.proofs) := by
  by_cases hcollides : Collides Keccak.digest (rootInputs Keccak.digest (addresses.map (·.bytes)) ++
      membershipInputs addresses.length complete.proofs)
  · exact .inr hcollides
  · refine .inl fun k q hq => ?_
    have hk := (List.getElem?_eq_some_iff.1 hq).1
    have hsignature : k < complete.signatures.length := by
      rw [h.length_signatures]
      exact hk
    have hproof : k < complete.proofs.length := by
      rw [h.length_proofs]
      exact hk
    have hzip : (complete.signatures[k], complete.proofs[k]) ∈
        complete.signatures.zip complete.proofs := by
      have hlt : k < (complete.signatures.zip complete.proofs).length := by
        rw [List.length_zip]
        omega
      rw [← List.getElem_zip (h := hlt)]
      exact List.getElem_mem hlt
    rcases ValidatorSet.checkAttestation_eq_ok_iff.1 (h.attested _ hzip) with ⟨hsigner, hverify⟩
    have hposition : complete.proofs[k].position = q := by
      rw [← h.positions, List.getElem?_map, List.getElem?_eq_getElem hproof] at hq
      exact Option.some.inj hq
    refine ⟨complete.signatures[k], complete.proofs[k].address,
      List.getElem?_eq_getElem hsignature, ?_, hsigner⟩
    rcases address_of_verify hroot hsize hverify with haddress | hcollides'
    · rwa [hposition] at haddress
    · apply absurd _ hcollides
      apply hcollides'.mono
      apply List.append_subset.2
      refine ⟨List.subset_append_left _ _, fun input hinput => ?_⟩
      apply List.mem_append_right
      exact List.mem_flatMap.2 ⟨complete.proofs[k], List.getElem_mem hproof, hinput⟩

/-- What completes a session are the signatures of the challenged validators of its set, in ascending
order of position: as many as a sample of the set has, or the only one, and always more than a third.
All of them are claimed. -/
theorem signers_of_complete
    (hsession : ((new initial config).run calls).sessions.session? id = some session)
    (hne : addresses ≠ [])
    (hroot : session.validatorSet.root = root Keccak.digest (addresses.map (·.bytes)))
    (hsize : session.validatorSet.len.toNat = addresses.length)
    (hok : (((new initial config).run calls).complete chain id caller complete).1 = .ok payload) :
    ∃ seed positions, chain.hash? session.lockBlock = some seed ∧
      positions = (Bitfield.challenge seed session.claimed
        (sampleSize session.validatorSet.len)).ones ∧
      positions.Pairwise (· < ·) ∧
      positions.length =
        (if addresses.length = 1 then 1 else sampleSize session.validatorSet.len) ∧
      (addresses.length - 1) / 3 < positions.length ∧
      (∀ q ∈ positions, session.claimed.contains q = true ∧ q.toNat < addresses.length) ∧
      complete.signatures.length = positions.length ∧
      complete.proofs.length = positions.length ∧
      (SignedAt addresses complete.commitment.digest positions complete.signatures ∨
      Collides Keccak.digest (rootInputs Keccak.digest (addresses.map (·.bytes)) ++
        membershipInputs addresses.length complete.proofs)) := by
  rcases complete_eq_ok_iff.1 hok with ⟨found, seed, hfound, hcompletes⟩
  rw [hsession] at hfound
  cases hfound
  have haccepts := hcompletes.accepts
  rcases claimed_of_mem_pending (SessionStore.mem_of_session? hsession).1 with ⟨hlen, hquorum⟩
  have hpos : 1 ≤ addresses.length := List.length_pos_iff.2 hne
  rw [← hlen] at hquorum
  have hcount := Bitfield.length_ones_challenge_of_quorum seed (by rw [hlen]; omega) hquorum
  rw [hlen, hsize] at hcount
  refine ⟨seed, _, hcompletes.hash, rfl, Bitfield.ones_ascending _, hcount, ?_, ?_,
    haccepts.length_signatures, haccepts.length_proofs, haccepts.signers hroot hsize⟩
  · rw [hcount]
    by_cases hone : addresses.length = 1
    · rw [if_pos hone]
      omega
    · rw [if_neg hone]
      unfold sampleSize
      omega
  · intro q hq
    have hclaimed := Bitfield.contains_of_mem_ones_challenge hq
    have hlt := Bitfield.lt_of_contains hclaimed
    rw [hlen, hsize] at hlt
    exact ⟨hclaimed, hlt⟩

theorem Sample.signers_of_sample : ∃ session,
    ((new validatorSet .standard).run openAndRotate).sessions.session? ⟨0⟩ = some session ∧
      session.validatorSet.root = root Keccak.digest (Sample.addresses.map (·.bytes)) ∧
      session.validatorSet.len.toNat = Sample.addresses.length ∧
      (((new validatorSet .standard).run openAndRotate).complete (hostChain 60) ⟨0⟩ .zero
        submission).1 = .ok Sample.payload ∧
      ∃ positions, positions.length = 2 ∧
        (SignedAt Sample.addresses commitment.digest positions signatures ∨
        Collides Keccak.digest (rootInputs Keccak.digest (Sample.addresses.map (·.bytes)) ++
          membershipInputs 2 proofs)) := by
  rcases exists_session with ⟨session, hsession, hset⟩
  have hroot : session.validatorSet.root =
      root Keccak.digest (Sample.addresses.map (·.bytes)) := by
    rw [hset]
    rfl
  have hsize : session.validatorSet.len.toNat = Sample.addresses.length := by
    rw [hset]
    rfl
  rcases signers_of_complete hsession (List.cons_ne_nil _ _) hroot hsize complete_eq_ok with
      ⟨seed, positions, -, -, -, hcount, -, -, -, -, hsigned⟩
  rw [hset] at hcount
  exact ⟨session, hsession, hroot, hsize, complete_eq_ok, positions, hcount, hsigned⟩

end FinalityBridge.Client
