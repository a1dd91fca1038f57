import FinalityBridge.Proofs.Client.Signers
import FinalityBridge.Proofs.ValidatorSet

/-!
# An honest relayer gets through

Whoever holds the signatures of a quorum over a commitment can open a session with any one of them
and complete it with those that the challenge asks for, whatever happens to the light client in
between, as long as the session is pending, its window is open and no later block is verified
(`honest_relayer_completes`).
-/

namespace FinalityBridge

open Merkle

/-! ## One proof for each position -/

section Proofs

variable {α β γ : Type} {f : α → Option β} {l : List α} {bs : List β}

theorem exists_mapM (h : ∀ a ∈ l, ∃ b, f a = some b) :
    ∃ bs, l.mapM f = some bs ∧ List.Forall₂ (fun a b => f a = some b) l bs := by
  induction l with
  | nil => exact ⟨[], rfl, .nil⟩
  | cons a l ih =>
    rcases h a List.mem_cons_self with ⟨b, hb⟩
    rcases ih fun a ha => h a (List.mem_cons_of_mem _ ha) with ⟨bs, hbs, hall⟩
    refine ⟨b :: bs, ?_, .cons hb hall⟩
    rw [List.mapM_cons, hb, hbs]
    rfl

theorem map_eq_of_forall₂ {g : β → α} (hall : List.Forall₂ (fun a b => f a = some b) l bs)
    (hg : ∀ a b, f a = some b → g b = a) : bs.map g = l := by
  induction hall with
  | nil => rfl
  | cons hab _ ih => rw [List.map_cons, hg _ _ hab, ih]

theorem exists_of_mem_zip {g : α → γ} {pair : γ × β}
    (hall : List.Forall₂ (fun a b => f a = some b) l bs) (h : pair ∈ (l.map g).zip bs) :
    ∃ a ∈ l, pair.1 = g a ∧ f a = some pair.2 := by
  induction hall with
  | nil => cases h
  | cons hab _ ih =>
    rw [List.map_cons, List.zip_cons_cons, List.mem_cons] at h
    rcases h with rfl | h
    · exact ⟨_, List.mem_cons_self, rfl, hab⟩
    · rcases ih h with ⟨a, ha, hpair⟩
      exact ⟨a, List.mem_cons_of_mem _ ha, hpair⟩

end Proofs

/-! ## The relayer -/

/-- What a relayer claims over a list of validators: the words fit, their bits below the number of
validators are a quorum, and there is a signature of every validator that is claimed. -/
structure HonestClaim (addresses : List Address) (commitment : Commitment) (words : List UInt64)
    (sign : UInt32 → Signature) : Prop where
  fits : words.length ≤ (addresses.length + 63) / 64
  quorum : quorum (UInt32.ofNat addresses.length) ≤
    ((List.range addresses.length).filter (Bitfield.bit words)).length
  signed : ∀ (q : UInt32) (address : Address), Bitfield.bit words q.toNat = true →
    addresses[q.toNat]? = some address → (sign q).signer commitment.digest = .ok address

namespace HonestClaim

variable {addresses : List Address} {commitment : Commitment} {words : List UInt64}
  {sign : UInt32 → Signature} {set : ValidatorSet} {setId : ValidatorSetId} {q : UInt32}
  {proof : MembershipProof} {client : Client} {session : Session} {seed : Hash}

-- Every claimed signature passes the check of an attestation.
theorem checkAttestation_eq_ok (h : HonestClaim addresses commitment words sign)
    (hset : ValidatorSet.ofAddresses addresses setId = .ok set)
    (hq : Bitfield.bit words q.toNat = true)
    (hproof : MembershipProof.ofAddresses? addresses q = some proof) :
    set.checkAttestation commitment.digest (sign q) proof = .ok () := by
  rw [ValidatorSet.checkAttestation_eq_ok_iff]
  refine ⟨?_, ValidatorSet.verify_ofAddresses? hset hproof⟩
  rcases MembershipProof.ofAddresses?_eq_some_iff.1 hproof with ⟨address, haddress, rfl⟩
  exact h.signed q address hq haddress

-- The claim opens a session with the signature of any validator that is claimed.
theorem exists_checkNew (h : HonestClaim addresses commitment words sign)
    (hset : ValidatorSet.ofAddresses addresses commitment.validatorSetId = .ok client.validatorSet)
    (hq : Bitfield.bit words q.toNat = true)
    (hproof : MembershipProof.ofAddresses? addresses q = some proof) (submitter : Address) :
    ∃ claimed, client.checkNew
        ⟨commitment.digest, commitment.validatorSetId, words, sign q, proof, submitter⟩ =
          .ok claimed ∧
      Bitfield.ofClaim words client.validatorSet.len = .ok claimed := by
  rcases ValidatorSet.ofAddresses_eq_ok_iff.1 hset with ⟨hlt, hclient⟩
  have hlen : client.validatorSet.len = UInt32.ofNat addresses.length := by rw [hclient]
  have hsize : client.validatorSet.len.toNat = addresses.length := by
    rw [hlen, UInt32.toNat_ofNat_of_lt' hlt]
  obtain ⟨claimed, hclaimed⟩ : ∃ claimed,
      Bitfield.ofClaim words client.validatorSet.len = .ok claimed := by
    apply Bitfield.exists_ofClaim
    · rw [hsize]
      exact h.fits
    · rw [hsize, hlen]
      exact h.quorum
  refine ⟨claimed, Client.checkNew_eq_ok_iff.2 ⟨?_, hclaimed, ?_, ?_⟩, hclaimed⟩
  · rw [hclient]
  · rcases MembershipProof.ofAddresses?_eq_some_iff.1 hproof with ⟨address, haddress, rfl⟩
    have hmember : q < client.validatorSet.len := by
      rw [UInt32.lt_iff_toNat_lt, hsize]
      exact (List.getElem?_eq_some_iff.1 haddress).1
    rw [(Bitfield.ofClaim_spec hclaimed).2.2, hq, decide_eq_true hmember]
    rfl
  · exact h.checkAttestation_eq_ok hset hq hproof

-- With the signatures that the challenge of a session asks for, the proofs of their membership and
-- a leaf under the commitment, the submission is accepted.
theorem exists_accepts (h : HonestClaim addresses commitment words sign)
    {range : MountainRange} {index : UInt64} {leaf : Leaf}
    (hset : ValidatorSet.ofAddresses addresses commitment.validatorSetId = .ok session.validatorSet)
    (hclaimed : Bitfield.ofClaim words session.validatorSet.len = .ok session.claimed)
    (hhash : session.commitmentHash = commitment.digest)
    (hnewer : client.latestBlock < commitment.blockNumber)
    (hleaf : range.leaves[index.toNat]? = some (Leaf.digest leaf.encode))
    (hcount : range.leafCount < 2 ^ 64)
    (hpayload : commitment.payload = range.root Keccak.digest) (seed : Hash) :
    ∃ proofs leafProof,
      (Client.challengeOf seed session).ones.mapM (MembershipProof.ofAddresses? addresses) =
        some proofs ∧
      range.prove? Keccak.digest index = some leafProof ∧
      client.Accepts session seed
        ⟨commitment, (Client.challengeOf seed session).ones.map sign, proofs, leaf.encode, leafProof⟩
        ⟨range.root Keccak.digest, leaf⟩ := by
  rcases ValidatorSet.ofAddresses_eq_ok_iff.1 hset with ⟨hlt, hsession⟩
  have hsize : session.validatorSet.len.toNat = addresses.length := by
    rw [hsession]
    exact UInt32.toNat_ofNat_of_lt' hlt
  rcases Bitfield.ofClaim_spec hclaimed with ⟨hlen, -, hbits⟩
  -- A challenged position is claimed, so there is a signature and a proof for it.
  have hclaim : ∀ q ∈ (Client.challengeOf seed session).ones,
      Bitfield.bit words q.toNat = true ∧ q.toNat < addresses.length := by
    intro q hq
    have hcontains := Bitfield.contains_of_mem_ones_challenge hq
    rw [hbits, Bool.and_eq_true, decide_eq_true_eq, UInt32.lt_iff_toNat_lt, hsize] at hcontains
    exact hcontains
  rcases exists_mapM fun q hq =>
      MembershipProof.exists_ofAddresses? (hclaim q hq).2 with ⟨proofs, hproofs, hall⟩
  rcases MountainRange.exists_verify_prove? hleaf hcount with ⟨leafProof, hleafProof, hverify⟩
  refine ⟨proofs, leafProof, hproofs, hleafProof, ?_⟩
  exact
    { digest := hhash.symm
      validatorSetId := by rw [hsession]
      newer := hnewer
      length_signatures := List.length_map sign
      positions := by
        apply map_eq_of_forall₂ hall
        intro q proof hproof
        rcases MembershipProof.ofAddresses?_eq_some_iff.1 hproof with ⟨address, -, rfl⟩
        rfl
      attested := by
        intro a ha
        rcases exists_of_mem_zip hall ha with ⟨q, hq, hsign, hproof⟩
        rw [hsign]
        exact h.checkAttestation_eq_ok hset (hclaim q hq).1 hproof
      leaf := Leaf.decode_eq_ok_iff.2 rfl
      included := by
        show leafProof.verify Keccak.digest (Leaf.digest leaf.encode) commitment.payload = true
        rw [hpayload]
        exact hverify
      payloadRoot := hpayload.symm }

-- In its window, a pending session that was opened for the claim is challenged and completed.
theorem exists_complete (h : HonestClaim addresses commitment words sign)
    {range : MountainRange} {index : UInt64} {leaf : Leaf} {chain : HostChain} {id : SessionId}
    (hsession : client.sessions.session? id = some session)
    (hset : ValidatorSet.ofAddresses addresses commitment.validatorSetId = .ok session.validatorSet)
    (hclaimed : Bitfield.ofClaim words session.validatorSet.len = .ok session.claimed)
    (hhash : session.commitmentHash = commitment.digest)
    (hopened : session.window chain.current client.config.seedRetention = .opened)
    (hseed : (chain.hash? session.lockBlock).isSome)
    (hnewer : client.latestBlock < commitment.blockNumber)
    (hleaf : range.leaves[index.toNat]? = some (Leaf.digest leaf.encode))
    (hcount : range.leafCount < 2 ^ 64)
    (hpayload : commitment.payload = range.root Keccak.digest) :
    ∃ challenged proofs leafProof,
      client.challenge chain id = (.ok challenged, client) ∧
      challenged.ones.mapM (MembershipProof.ofAddresses? addresses) = some proofs ∧
      range.prove? Keccak.digest index = some leafProof ∧
      (client.complete chain id session.submitter
        ⟨commitment, challenged.ones.map sign, proofs, leaf.encode, leafProof⟩).1 =
          .ok ⟨range.root Keccak.digest, leaf⟩ := by
  rcases Option.isSome_iff_exists.1 hseed with ⟨seed, hseed⟩
  rcases h.exists_accepts hset hclaimed hhash hnewer hleaf hcount hpayload seed with
      ⟨proofs, leafProof, hproofs, hleafProof, haccepts⟩
  refine ⟨_, proofs, leafProof, Client.challenge_of_opened hsession hopened hseed, hproofs,
    hleafProof, ?_⟩
  exact Client.complete_eq_ok_iff.2 ⟨session, seed, hsession, rfl, hopened, hseed, haccepts⟩

end HonestClaim

namespace Client

/-- An honest relayer gets through. In a client whose active set has the given addresses, a session
opens for the claim with any claimed signature. Whatever is called afterwards, while the session is
pending, its window is open, the hash of its lock block is known and no block as late is verified, the
challenge is given, and the signatures and proofs of its positions complete the session. -/
theorem honest_relayer_completes {initial : ValidatorSet} {config : Config} {calls : List Call}
    {client : Client} {addresses : List Address} {range : MountainRange} {index : UInt64}
    {leaf : Leaf} {commitment : Commitment} {words : List UInt64} {sign : UInt32 → Signature}
    (hclient : client = (new initial config).run calls)
    (hset : ValidatorSet.ofAddresses addresses commitment.validatorSetId = .ok client.validatorSet)
    (hleaf : range.leaves[index.toNat]? = some (Leaf.digest leaf.encode))
    (hrange : range.leafCount < 2 ^ 64) (hpayload : commitment.payload = range.root Keccak.digest)
    (h : HonestClaim addresses commitment words sign) {q : UInt32}
    (hq : Bitfield.bit words q.toNat = true) (hmember : q.toNat < addresses.length)
    (chain₀ : HostChain) (submitter : Address) :
    ∃ proof new₀ id lock, MembershipProof.ofAddresses? addresses q = some proof ∧
      new₀ = ⟨commitment.digest, commitment.validatorSetId, words, sign q, proof, submitter⟩ ∧
      (client.initiate chain₀ new₀).1 = .ok id ∧
      lock.toNat = min (chain₀.current.toNat + config.lockDelay.toNat) (2 ^ 64 - 1) ∧
      ∀ (later : List Call) (client' : Client) (chain : HostChain),
        client' = client.run (.initiate chain₀ new₀ :: later) →
        ((new initial config).openings (calls ++ .initiate chain₀ new₀ :: later)).length < 2 ^ 64 →
        client'.sessions.status? id = some .pending →
        client'.latestBlock < commitment.blockNumber →
        lock.toNat ≤ chain.current.toNat →
        chain.current.toNat ≤ lock.toNat + config.seedRetention.toNat →
        (chain.hash? lock).isSome →
        ∃ challenged proofs leafProof,
          client'.challenge chain id = (.ok challenged, client') ∧
          challenged.ones.mapM (MembershipProof.ofAddresses? addresses) = some proofs ∧
          range.prove? Keccak.digest index = some leafProof ∧
          (client'.complete chain id submitter
            ⟨commitment, challenged.ones.map sign, proofs, leaf.encode, leafProof⟩).1 =
              .ok ⟨range.root Keccak.digest, leaf⟩ := by
  rcases MembershipProof.exists_ofAddresses? hmember with ⟨proof, hproof⟩
  rcases h.exists_checkNew hset hq hproof submitter with ⟨claimed, hcheck, hclaimed⟩
  have hinitiate := congrArg Prod.fst (initiate_of_checkNew chain₀ hcheck)
  refine ⟨proof, _, client.sessions.nextId, client.lockBlock chain₀.current, hproof, rfl, hinitiate,
    ?_, ?_⟩
  · rw [toNat_lockBlock, hclient, config_run]
    rfl
  · intro later client' chain hclient' hcount hpending hnewer hfrom hto hhash
    have hconfig : client'.config = config := by
      rw [hclient', config_run, hclient, config_run]
      rfl
    -- Whatever was called later, the session is as it was opened.
    rw [openings_append, List.length_append, ← hclient] at hcount
    have hwell : client.sessions.WellFormed := by
      rw [hclient]
      exact wellFormed_of_new (by omega)
    rw [hclient'] at hpending
    have hsession := session?_of_initiate hwell hcheck (by omega) hpending
    rw [← hclient'] at hsession
    refine h.exists_complete hsession hset hclaimed rfl ?_ hhash hnewer hleaf hrange hpayload
    rw [Session.window_eq_opened_iff, hconfig]
    exact ⟨hfrom, hto⟩

namespace Sample

/-- The signature of each validator. -/
def sign (q : UInt32) : Signature := signatures.getD q.toNat ⟨.zero, .zero, 0⟩

theorem honestClaim : HonestClaim addresses commitment [3] sign where
  fits := by decide
  quorum := by decide
  signed q address _ haddress := by
    have hsigners : ((sign 0).signer commitment.digest).toOption = some addresses[0] ∧
        ((sign 1).signer commitment.digest).toOption = some addresses[1] := by
      decide +kernel
    have hlt : q.toNat < 2 := (List.getElem?_eq_some_iff.1 haddress).1
    rcases (show q.toNat = 0 ∨ q.toNat = 1 by omega) with hq | hq
    · obtain rfl : q = 0 := UInt32.toNat_inj.1 hq
      obtain rfl : addresses[0] = address := Option.some.inj haddress
      exact eq_ok_of_toOption_eq_some hsigners.1
    · obtain rfl : q = 1 := UInt32.toNat_inj.1 hq
      obtain rfl : addresses[1] = address := Option.some.inj haddress
      exact eq_ok_of_toOption_eq_some hsigners.2

theorem relayer_of_sample :
    ValidatorSet.ofAddresses addresses 0 = .ok validatorSet ∧
      HonestClaim addresses commitment [3] sign ∧
      ∃ id, ((new validatorSet .standard).initiate (hostChain 10) opening).1 = .ok id ∧
        ∃ challenged proofs leafProof,
          ((new validatorSet .standard).run openAndRotate).challenge (hostChain 60) id =
            (.ok challenged, (new validatorSet .standard).run openAndRotate) ∧
          challenged.ones.mapM (MembershipProof.ofAddresses? addresses) = some proofs ∧
          (MountainRange.ofLeaves leaves).prove? Keccak.digest 1 = some leafProof ∧
          (((new validatorSet .standard).run openAndRotate).complete (hostChain 60) id .zero
            ⟨commitment, challenged.ones.map sign, proofs, (MountainRange.blankLeaf 1).encode,
              leafProof⟩).1 = .ok Sample.payload := by
  have hset : ValidatorSet.ofAddresses addresses commitment.validatorSetId = .ok validatorSet :=
    ValidatorSet.ofAddresses_eq_ok_iff.2 ⟨by decide, rfl⟩
  rcases @honest_relayer_completes validatorSet .standard [] _ addresses (MountainRange.ofLeaves leaves)
      1 (MountainRange.blankLeaf 1) commitment [3] sign rfl hset rfl (by decide) rfl honestClaim 1
      (by decide) (by decide) (hostChain 10) .zero with
      ⟨proof, new₀, id, lock, hproof, hnew, hinitiate, hlock, hrelay⟩
  obtain rfl : proof = proofs[1] := by
    have hsome : MembershipProof.ofAddresses? addresses 1 = some proofs[1] := by decide +kernel
    exact Option.some.inj (hproof.symm.trans hsome)
  obtain rfl : new₀ = opening := hnew
  obtain rfl : id = ⟨0⟩ := id_of_initiate hinitiate
  -- What is asked of the later state holds because the session can be completed there.
  rcases complete_eq_ok_iff.1 complete_eq_ok with ⟨session, seed, hsession, hcompletes⟩
  have hpending := SessionStore.status?_eq_pending_iff.2 ⟨session, hsession⟩
  have hlock : lock.toNat = 55 := hlock
  have hfrom : lock.toNat ≤ 60 := by omega
  have hto : 60 ≤ lock.toNat + 256 := by omega
  exact ⟨hset, honestClaim, ⟨0⟩, hinitiate, hrelay [.rotate nextSet] _ (hostChain 60) rfl
    length_openings_lt hpending hcompletes.accepts.newer hfrom hto rfl⟩

end Sample

end Client

end FinalityBridge
