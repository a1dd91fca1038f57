import FinalityBridge.Proofs.Merkle.Binding
import FinalityBridge.ValidatorSet

/-!
# Validator sets made of addresses

A set made of a list of addresses takes the proofs that are made of the same list
(`verify_ofAddresses?`), and its root binds the list: no other one makes a set with that root, whatever
its length (`addresses_eq_of_root_eq`).
-/

namespace FinalityBridge

open Merkle

variable {addresses : List Address} {set : ValidatorSet} {setId : ValidatorSetId}

theorem ValidatorSet.ofAddresses_eq_ok_iff :
    ofAddresses addresses setId = .ok set ↔ addresses.length < 2 ^ 32 ∧
      set = ⟨Merkle.root Keccak.digest (addresses.map (·.bytes)), UInt32.ofNat addresses.length, setId⟩ := by
  unfold ofAddresses
  by_cases h : addresses.length < UInt32.size
  · rw [if_pos h, Except.ok.injEq, eq_comm]
    exact (and_iff_right h).symm
  · rw [if_neg h]
    constructor
    · intro hset
      cases hset
    · intro hset
      exact absurd hset.1 h

/-! ## Proofs of membership -/

section Membership

variable {q : UInt32} {proof : MembershipProof}

theorem MembershipProof.ofAddresses?_eq_some_iff :
    ofAddresses? addresses q = some proof ↔ ∃ address, addresses[q.toNat]? = some address ∧
      proof = ⟨address, q,
        Layer.path (join Keccak.digest) ((addresses.map (·.bytes)).map Keccak.digest) q.toNat⟩ := by
  unfold ofAddresses?
  rw [prove?_eq_map, List.getElem?_map]
  cases addresses[q.toNat]? with
  | none => simp
  | some address => simp [eq_comm]

theorem MembershipProof.exists_ofAddresses? (h : q.toNat < addresses.length) :
    ∃ proof, ofAddresses? addresses q = some proof := by
  refine ⟨_, ofAddresses?_eq_some_iff.2 ⟨addresses[q.toNat], ?_, rfl⟩⟩
  exact List.getElem?_eq_getElem h

-- The proof for a member of a set holds in the set.
theorem ValidatorSet.verify_ofAddresses? (hset : ofAddresses addresses setId = .ok set)
    (hproof : MembershipProof.ofAddresses? addresses q = some proof) : set.verify proof = true := by
  rcases ofAddresses_eq_ok_iff.1 hset with ⟨hlt, rfl⟩
  rcases MembershipProof.ofAddresses?_eq_some_iff.1 hproof with ⟨address, haddress, rfl⟩
  have hleaf : (addresses.map (·.bytes))[q.toNat]? = some address.bytes := by
    rw [List.getElem?_map, haddress]
    rfl
  have hverify := verify_path Keccak.digest hleaf
  unfold verify
  rw [UInt32.toNat_ofNat_of_lt' hlt]
  rwa [List.length_map] at hverify

end Membership

/-! ## The members behind a root -/

-- An address is not as long as two digests.
theorem length_bytes_of_mem_map_bytes : ∀ c ∈ addresses.map (·.bytes), c.length ≠ 64 := by
  intro c hc
  rcases List.mem_map.1 hc with ⟨address, -, rfl⟩
  rw [address.length_bytes]
  decide

/-- The root of a validator set binds the addresses of its members, their order and their number,
unless byte strings collide. -/
theorem ValidatorSet.addresses_eq_of_root_eq {addresses' : List Address} {setId' : ValidatorSetId}
    {set' : ValidatorSet} (hne : addresses ≠ []) (hne' : addresses' ≠ [])
    (hset : ofAddresses addresses setId = .ok set) (hset' : ofAddresses addresses' setId' = .ok set')
    (hroot : set.root = set'.root) :
    addresses = addresses' ∨ Collides Keccak.digest (rootInputs Keccak.digest (addresses.map (·.bytes)) ++
      rootInputs Keccak.digest (addresses'.map (·.bytes))) := by
  rcases ofAddresses_eq_ok_iff.1 hset with ⟨-, rfl⟩
  rcases ofAddresses_eq_ok_iff.1 hset' with ⟨-, rfl⟩
  have hmap : addresses.map (·.bytes) ≠ [] := by rwa [ne_eq, List.map_eq_nil_iff]
  have hmap' : addresses'.map (·.bytes) ≠ [] := by rwa [ne_eq, List.map_eq_nil_iff]
  rcases eq_of_root_eq hmap hmap' length_bytes_of_mem_map_bytes length_bytes_of_mem_map_bytes hroot
    with heq | hcollides
  · exact .inl ((List.map_inj_right fun _ _ => FixedBytes.ext).1 heq)
  · exact .inr hcollides

-- Five members, listed one by one and numbered from zero, in sets of different ids.
theorem ValidatorSet.addresses_eq_of_five :
    let listed : List Address := [.ofNat 0, .ofNat 1, .ofNat 2, .ofNat 3, .ofNat 4]
    let numbered : List Address := (List.range 5).map .ofNat
    ∃ set set', ofAddresses listed 0 = .ok set ∧ ofAddresses numbered 7 = .ok set' ∧
      set.root = set'.root ∧
        (listed = numbered ∨ Collides Keccak.digest (rootInputs Keccak.digest (listed.map (·.bytes)) ++
          rootInputs Keccak.digest (numbered.map (·.bytes)))) := by
  intro listed numbered
  have hset : ofAddresses listed 0 = .ok ⟨Merkle.root Keccak.digest (listed.map (·.bytes)), 5, 0⟩ := rfl
  have hset' : ofAddresses numbered 7 = .ok ⟨Merkle.root Keccak.digest (listed.map (·.bytes)), 5, 7⟩ := rfl
  exact ⟨_, _, hset, hset', rfl,
    addresses_eq_of_root_eq (List.cons_ne_nil _ _) (List.cons_ne_nil _ _) hset hset' rfl⟩

end FinalityBridge
