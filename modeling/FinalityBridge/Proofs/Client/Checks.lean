import Mathlib.Data.List.Forall2
import FinalityBridge.Client
import FinalityBridge.Proofs.Bitfield.Positions
import FinalityBridge.Proofs.Session.Store

/-!
# What the checks of the light client ask for

Each check goes through exactly if a list of conditions holds, whatever the order in which they are
looked at: for an attestation, for a new commitment (`checkNew_eq_ok_iff`) and for what completes a
session (`checkComplete_eq_ok_iff`).
-/

namespace FinalityBridge

/-! ## Guards -/

section Guards

variable {ε α β : Type}

theorem eq_ok_of_toOption_eq_some {x : Except ε α} {a : α} (h : x.toOption = some a) : x = .ok a := by
  cases x with
  | error e => cases h
  | ok b => exact congrArg Except.ok (Option.some.inj h)

theorem bind_eq_ok_iff {x : Except ε α} {f : α → Except ε β} {b : β} :
    x >>= f = .ok b ↔ ∃ a, x = .ok a ∧ f a = .ok b := by
  cases x with
  | error e => simp [bind, Except.bind]
  | ok a => simp [bind, Except.bind]

theorem bind_unit_eq_ok_iff {x : Except ε Unit} {f : Unit → Except ε β} {b : β} :
    x >>= f = .ok b ↔ x = .ok () ∧ f () = .ok b := by
  rw [bind_eq_ok_iff]
  constructor
  · rintro ⟨_, hx, hf⟩
    exact ⟨hx, hf⟩
  · rintro ⟨hx, hf⟩
    exact ⟨(), hx, hf⟩

theorem ite_error_eq_ok_iff {p : Prop} [Decidable p] {e : ε} {x : Except ε α} {a : α} :
    (if p then .error e else x) = .ok a ↔ ¬p ∧ x = .ok a := by
  by_cases h : p
  · simp [h]
  · simp [h]

theorem ite_else_error_eq_ok_iff {p : Prop} [Decidable p] {e : ε} {x : Except ε α} {a : α} :
    (if p then x else .error e) = .ok a ↔ p ∧ x = .ok a := by
  by_cases h : p
  · simp [h]
  · simp [h]

end Guards

/-! ## Attestations, windows and positions -/

theorem ValidatorSet.checkAttestation_eq_ok_iff {set : ValidatorSet} {digest : Hash}
    {signature : Signature} {proof : MembershipProof} :
    set.checkAttestation digest signature proof = .ok () ↔
      signature.signer digest = .ok proof.address ∧ set.verify proof = true := by
  unfold checkAttestation
  rw [bind_eq_ok_iff]
  constructor
  · rintro ⟨signer, hsigner, h⟩
    rw [ite_error_eq_ok_iff, ite_else_error_eq_ok_iff, ne_eq, Decidable.not_not] at h
    rcases h with ⟨rfl, hverify, -⟩
    exact ⟨hsigner, hverify⟩
  · rintro ⟨hsigner, hverify⟩
    refine ⟨proof.address, hsigner, ?_⟩
    rw [ite_error_eq_ok_iff, ite_else_error_eq_ok_iff]
    exact ⟨Decidable.not_not.2 rfl, hverify, rfl⟩

/-- Where the host chain stands relative to a session, in exact integers. -/
theorem Session.window_eq (session : Session) (current seedRetention : BlockNumber) :
    session.window current seedRetention =
      if current.toNat < session.lockBlock.toNat then .locked
      else if session.lockBlock.toNat + seedRetention.toNat < current.toNat then .closed
      else .opened := by
  unfold window
  by_cases hlocked : current < session.lockBlock
  · rw [if_pos hlocked, if_pos (UInt64.lt_iff_toNat_lt.1 hlocked)]
  · have hle : session.lockBlock ≤ current := UInt64.not_lt.1 hlocked
    have hle' := UInt64.le_iff_toNat_le.1 hle
    have hclosed : seedRetention < current - session.lockBlock ↔
        session.lockBlock.toNat + seedRetention.toNat < current.toNat := by
      rw [UInt64.lt_iff_toNat_lt, UInt64.toNat_sub_of_le current session.lockBlock hle]
      omega
    rw [if_neg hlocked, if_neg (Nat.not_lt.2 hle')]
    simp only [hclosed]

-- A session can be completed from its lock block on for as long as the seed is retained.
theorem Session.window_eq_opened_iff {session : Session} {current seedRetention : BlockNumber} :
    session.window current seedRetention = .opened ↔
      session.lockBlock.toNat ≤ current.toNat ∧
        current.toNat ≤ session.lockBlock.toNat + seedRetention.toNat := by
  rw [window_eq]
  split
  · simp only [reduceCtorEq, false_iff]
    omega
  · split
    · simp only [reduceCtorEq, false_iff]
      omega
    · simp only [true_iff]
      omega

theorem Session.window_eq_closed_iff {session : Session} {current seedRetention : BlockNumber} :
    session.window current seedRetention = .closed ↔
      session.lockBlock.toNat + seedRetention.toNat < current.toNat := by
  rw [window_eq]
  split
  · simp only [reduceCtorEq, false_iff]
    omega
  · split
    · simp only [true_iff]
      assumption
    · simp only [reduceCtorEq, false_iff]
      assumption

-- As many proofs as positions make pairs of all of them, so the proofs stand for just these positions.
theorem CompleteCommitment.isAligned_iff {complete : CompleteCommitment}
    {positions : List UInt32} :
    complete.isAligned positions = true ↔
      complete.signatures.length = positions.length ∧ complete.proofs.map (·.position) = positions := by
  have hzip : complete.proofs.map (·.position) = positions ↔
      complete.proofs.length = positions.length ∧
        ∀ pair ∈ complete.proofs.zip positions, pair.1.position = pair.2 := by
    rw [Prod.forall, ← List.forall₂_iff_zip, ← List.forall₂_map_left_iff, List.forall₂_eq_eq_eq]
  rw [CompleteCommitment.isAligned, hzip, ← and_assoc]
  simp only [Bool.and_eq_true, beq_iff_eq, List.all_eq_true]

namespace Client

variable {client : Client} {session : Session} {seed : Hash} {complete : CompleteCommitment}
  {payload : VerifiedPayload}

theorem toNat_lockBlock (client : Client) (current : BlockNumber) :
    (client.lockBlock current).toNat =
      min (current.toNat + client.config.lockDelay.toNat) (2 ^ 64 - 1) := by
  have hsize : UInt64.size = 2 ^ 64 := rfl
  unfold lockBlock
  rw [UInt64.toNat_ofNat', hsize]
  omega

/-! ## Opening a session -/

theorem checkNew_eq_ok_iff {new : NewCommitment} {claimed : Bitfield} :
    client.checkNew new = .ok claimed ↔
      new.validatorSetId = client.validatorSet.id ∧
        Bitfield.ofClaim new.claimed client.validatorSet.len = .ok claimed ∧
        claimed.contains new.proof.position = true ∧
        client.validatorSet.checkAttestation new.commitmentHash new.signature new.proof = .ok () := by
  unfold checkNew
  rw [ite_error_eq_ok_iff, bind_eq_ok_iff, ne_eq, Decidable.not_not]
  apply and_congr_right
  intro _
  constructor
  · rintro ⟨bitfield, hclaim, h⟩
    rw [ite_else_error_eq_ok_iff] at h
    rcases h with ⟨hposition, h⟩
    split at h
    · injection h with h
      subst h
      exact ⟨hclaim, hposition, by assumption⟩
    · cases h
  · rintro ⟨hclaim, hposition, hattested⟩
    refine ⟨claimed, hclaim, ?_⟩
    rw [ite_else_error_eq_ok_iff, hattested]
    exact ⟨hposition, rfl⟩

/-! ## Completing a session -/

theorem checkSignatures_eq_ok_iff {set : ValidatorSet} {digest : Hash}
    {attestations : List (Signature × MembershipProof)} :
    checkSignatures set digest attestations = .ok () ↔
      ∀ a ∈ attestations, set.checkAttestation digest a.1 a.2 = .ok () := by
  induction attestations with
  | nil => simp [checkSignatures]
  | cons a rest ih =>
    rcases a with ⟨signature, proof⟩
    rw [checkSignatures, List.forall_mem_cons, bind_unit_eq_ok_iff, ih]

/-- What a submission has to meet to complete a session with a result. -/
structure Accepts (client : Client) (session : Session) (seed : Hash) (complete : CompleteCommitment)
    (payload : VerifiedPayload) : Prop where
  digest : complete.commitment.digest = session.commitmentHash
  validatorSetId : complete.commitment.validatorSetId = session.validatorSet.id
  newer : client.latestBlock < complete.commitment.blockNumber
  length_signatures : complete.signatures.length = (challengeOf seed session).ones.length
  positions : complete.proofs.map (·.position) = (challengeOf seed session).ones
  attested : ∀ a ∈ complete.signatures.zip complete.proofs,
    session.validatorSet.checkAttestation complete.commitment.digest a.1 a.2 = .ok ()
  leaf : Leaf.decode complete.leaf = .ok payload.leaf
  included :
    complete.leafProof.verify Keccak.digest (Leaf.digest complete.leaf) complete.commitment.payload = true
  payloadRoot : payload.payloadRoot = complete.commitment.payload

theorem Accepts.length_proofs (h : client.Accepts session seed complete payload) :
    complete.proofs.length = (challengeOf seed session).ones.length := by
  rw [← h.positions, List.length_map]

theorem checkComplete_eq_ok_iff :
    client.checkComplete session seed complete = .ok payload ↔
      client.Accepts session seed complete payload := by
  unfold checkComplete
  simp only [ite_error_eq_ok_iff, bind_unit_eq_ok_iff, checkSignatures_eq_ok_iff, Decidable.not_not,
    ne_eq, UInt64.not_le, Bool.not_eq_true', Bool.not_eq_false, CompleteCommitment.isAligned_iff]
  constructor
  · rintro ⟨hdigest, hset, hnewer, ⟨hsignatures, hpositions⟩, hattested, h⟩
    split at h
    · cases h
    · rw [ite_else_error_eq_ok_iff] at h
      rcases h with ⟨hincluded, h⟩
      injection h with h
      subst h
      exact ⟨hdigest, hset, hnewer, hsignatures, hpositions, hattested, by assumption, hincluded, rfl⟩
  · intro h
    refine ⟨h.digest, h.validatorSetId, h.newer, ⟨h.length_signatures, h.positions⟩, h.attested, ?_⟩
    rw [h.leaf]
    dsimp only
    rw [if_pos h.included, ← h.payloadRoot]

end Client

end FinalityBridge
