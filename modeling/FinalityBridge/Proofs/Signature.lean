import FinalityBridge.Proofs.Bytes
import FinalityBridge.Proofs.Client.History

/-!
# Signatures have no twins

The key that signs a message by `r` and `s` also signs it by `r` and the negated `s`, with the other
parity. Of these two only the one whose `s` is in the lower half of the group is taken, so that negating
`s` makes no second signature out of one that is taken (`Signature.not_malleable`). Only the recovery
byte has two spellings.

This needs little of the curve: that a scalar above half the order is high, and that no key is recovered
from zero.
-/

namespace FinalityBridge

open Secp256k1

/-- Which scalars are high, and which key made a signature. -/
structure Secp256k1.Recovery where
  isHigh : Nat → Bool
  recover? : Hash → Nat → Nat → Bool → Option PublicKey
  -- Scalars above half the order are high. Whether the middle is, is left open.
  isHigh_of_lt : ∀ s, s < order → order < 2 * s → isHigh s = true
  -- Neither part of a signature is zero.
  recover?_of_eq_zero : ∀ digest r s odd, r = 0 ∨ s = 0 → recover? digest r s odd = none

/-- The curve as it is. -/
def Secp256k1.Recovery.standard : Recovery where
  isHigh s := decide (IsHigh s)
  recover? := Secp256k1.recover?
  isHigh_of_lt := by
    intro s _ h
    apply decide_eq_true
    unfold IsHigh
    omega
  recover?_of_eq_zero := by
    intro digest r s odd h
    exact if_pos h

namespace Signature

/-- The address of the signer, on any such curve. -/
def signerBy (recovery : Recovery) (digest : Hash) (signature : Signature) : Except Error Address :=
  let r := signature.r.toNat
  let s := signature.s.toNat
  match parity? signature.v with
  | none => .error .malformedSignature
  | some odd =>
    if order ≤ r ∨ order ≤ s ∨ recovery.isHigh s then .error .malformedSignature
    else
      match recovery.recover? digest r s odd with
      | some key => .ok key.address
      | none => .error .malformedSignature

theorem signerBy_standard (digest : Hash) (signature : Signature) :
    signature.signerBy .standard digest = signature.signer digest := by
  unfold signerBy signer
  cases parity? signature.v with
  | none => rfl
  | some odd =>
    have hhigh : Recovery.standard.isHigh signature.s.toNat = true ↔ IsHigh signature.s.toNat :=
      decide_eq_true_iff
    exact if_congr (or_congr_right (or_congr_right hhigh)) rfl rfl

/-! ## Recovery bytes -/

/-- The other spelling of a recovery byte. -/
def respelled (v : UInt8) : UInt8 := if v < 27 then v + 27 else v - 27

theorem parity?_eq_some_iff {v : UInt8} {odd : Bool} :
    parity? v = some odd ↔
      (odd = false ∧ (v = 0 ∨ v = 27)) ∨ (odd = true ∧ (v = 1 ∨ v = 28)) := by
  unfold parity?
  by_cases heven : v = 0 ∨ v = 27
  · rw [if_pos heven]
    rcases heven with rfl | rfl <;> cases odd <;> decide
  · rw [if_neg heven]
    by_cases hodd : v = 1 ∨ v = 28
    · rw [if_pos hodd]
      rcases hodd with rfl | rfl <;> cases odd <;> decide
    · rw [if_neg hodd]
      simp [heven, hodd]

theorem parity?_respelled {v : UInt8} {odd : Bool} (h : parity? v = some odd) :
    parity? (respelled v) = some odd := by
  rw [parity?_eq_some_iff] at h ⊢
  rcases h with ⟨rfl, rfl | rfl⟩ | ⟨rfl, rfl | rfl⟩ <;> decide

/-! ## What is taken -/

variable {recovery : Recovery} {digest : Hash} {signature : Signature} {address : Address}

/-- A signer is found exactly if the recovery byte stands for a parity, both scalars are below the order,
the second one is not high and a key is recovered. -/
theorem signerBy_eq_ok_iff :
    signature.signerBy recovery digest = .ok address ↔
      ∃ odd key, parity? signature.v = some odd ∧ signature.r.toNat < order ∧
        signature.s.toNat < order ∧ recovery.isHigh signature.s.toNat = false ∧
        recovery.recover? digest signature.r.toNat signature.s.toNat odd = some key ∧
        key.address = address := by
  unfold signerBy
  dsimp only
  constructor
  · intro h
    split at h
    · cases h
    · rename_i odd hparity
      obtain ⟨hguard, h⟩ := ite_error_eq_ok_iff.1 h
      rw [not_or, not_or, Nat.not_le, Nat.not_le, Bool.not_eq_true] at hguard
      obtain ⟨hr, hs, hlow⟩ := hguard
      split at h
      · rename_i key hkey
        exact ⟨odd, key, hparity, hr, hs, hlow, hkey, Except.ok.inj h⟩
      · cases h
  · rintro ⟨odd, key, hparity, hr, hs, hlow, hkey, rfl⟩
    have hguard : ¬(order ≤ signature.r.toNat ∨ order ≤ signature.s.toNat ∨
        recovery.isHigh signature.s.toNat = true) := by
      rw [not_or, not_or, Nat.not_le, Nat.not_le, Bool.not_eq_true]
      exact ⟨hr, hs, hlow⟩
    rw [hparity]
    dsimp only
    rw [if_neg hguard, hkey]

-- A high scalar is refused before any key is recovered, whatever the recovery byte.
theorem signerBy_of_isHigh (h : recovery.isHigh signature.s.toNat = true) :
    signature.signerBy recovery digest = .error .malformedSignature := by
  unfold signerBy
  dsimp only
  split
  · rfl
  · exact if_pos (.inr (.inr h))

theorem odd_order : order % 2 = 1 := by decide

theorem order_lt : order < 256 ^ 32 := by decide

-- A scalar that is not high is at most half the order.
theorem two_mul_lt_of_isHigh {s : Nat} (hs : s < order) (hlow : recovery.isHigh s = false) :
    2 * s < order := by
  apply Nat.lt_of_not_le
  intro hle
  have hodd := odd_order
  have hhigh := recovery.isHigh_of_lt s hs (by omega)
  rw [hlow] at hhigh
  cases hhigh

/-- The signature with the negated `s` and some recovery byte. -/
def twin (signature : Signature) (v : UInt8) : Signature :=
  { signature with s := .ofNat (order - signature.s.toNat), v }

theorem toNat_s_twin (signature : Signature) (v : UInt8) :
    (signature.twin v).s.toNat = order - signature.s.toNat := by
  apply FixedBytes.toNat_ofNat
  have hlt := order_lt
  omega

theorem isHigh_twin (hpos : 0 < signature.s.toNat) (hlow : 2 * signature.s.toNat < order) (v : UInt8) :
    recovery.isHigh (signature.twin v).s.toNat = true := by
  rw [toNat_s_twin]
  apply recovery.isHigh_of_lt
  · omega
  · omega

/-- What is true of a signature that is taken. -/
structure IsSoleForm (signer : Hash → Signature → Except Error Address) (digest : Hash)
    (signature : Signature) (address : Address) : Prop where
  v_mem : signature.v ∈ [0, 1, 27, 28]
  r_pos : 0 < signature.r.toNat
  r_lt : signature.r.toNat < order
  s_pos : 0 < signature.s.toNat
  s_le : signature.s.toNat ≤ (order - 1) / 2
  -- The other spelling of its recovery byte makes no difference,
  respelled : signer digest { signature with v := respelled signature.v } = .ok address
  -- and its twin is refused, whatever the message and the recovery byte.
  twin : ∀ other v, signer other (signature.twin v) = .error .malformedSignature

theorem isSoleForm_of_signerBy (h : signature.signerBy recovery digest = .ok address) :
    IsSoleForm (fun digest signature => signature.signerBy recovery digest) digest signature address := by
  obtain ⟨odd, key, hparity, hr, hs, hlow, hkey, haddress⟩ := signerBy_eq_ok_iff.1 h
  -- A key was recovered, so neither part is zero.
  have hzero : ¬(signature.r.toNat = 0 ∨ signature.s.toNat = 0) := by
    intro hzero
    rw [recovery.recover?_of_eq_zero _ _ _ _ hzero] at hkey
    cases hkey
  have hhalf := two_mul_lt_of_isHigh hs hlow
  constructor
  case v_mem =>
    rcases parity?_eq_some_iff.1 hparity with ⟨-, hv | hv⟩ | ⟨-, hv | hv⟩ <;> rw [hv] <;> decide
  case r_pos => omega
  case r_lt => exact hr
  case s_pos => omega
  case s_le => omega
  case respelled =>
    exact signerBy_eq_ok_iff.2 ⟨odd, key, parity?_respelled hparity, hr, hs, hlow, hkey, haddress⟩
  case twin =>
    intro other v
    exact signerBy_of_isHigh (isHigh_twin (by omega) hhalf v)

end Signature

/-! ## Attestations -/

/-- The check of an attestation, on any such curve. -/
def ValidatorSet.checkAttestationBy (recovery : Recovery) (set : ValidatorSet) (digest : Hash)
    (signature : Signature) (proof : MembershipProof) : Except Error Unit := do
  let signer ← signature.signerBy recovery digest
  if signer ≠ proof.address then .error (.signerMismatch proof.position)
  else if set.verify proof then .ok ()
  else .error (.unknownValidator proof.position)

namespace Signature

/-- A signature is taken in one form, but for the spelling of its recovery byte, and no attestation by
its twin is. -/
structure NotMalleable (signer : Hash → Signature → Except Error Address)
    (check : ValidatorSet → Hash → Signature → MembershipProof → Except Error Unit) : Prop where
  isSoleForm : ∀ digest signature address, signer digest signature = .ok address →
    IsSoleForm signer digest signature address
  check_twin : ∀ set digest signature proof, check set digest signature proof = .ok () →
    ∀ otherSet other v otherProof, check otherSet other (signature.twin v) otherProof ≠ .ok ()

theorem notMalleable_signerBy (recovery : Recovery) :
    NotMalleable (fun digest signature => signature.signerBy recovery digest)
      (ValidatorSet.checkAttestationBy recovery) where
  isSoleForm := fun _ _ _ h => isSoleForm_of_signerBy h
  check_twin := by
    intro set digest signature proof h otherSet other v otherProof htwin
    obtain ⟨address, hsigner, -⟩ := bind_eq_ok_iff.1 h
    obtain ⟨twinAddress, hother, -⟩ := bind_eq_ok_iff.1 htwin
    have hrefused := (isSoleForm_of_signerBy hsigner).twin other v
    rw [hother] at hrefused
    cases hrefused

/-- The twin of a signature that is taken is refused, on the curve and by whatever else tells high scalars
and recovers keys. -/
theorem not_malleable :
    NotMalleable (fun digest signature => signature.signer digest) ValidatorSet.checkAttestation ∧
    ∀ recovery, NotMalleable (fun digest signature => signature.signerBy recovery digest)
      (ValidatorSet.checkAttestationBy recovery) := by
  have hsigner : (fun digest (signature : Signature) => signature.signerBy .standard digest) =
      fun digest signature => signature.signer digest := by
    funext digest signature
    exact signerBy_standard digest signature
  have hcheck : ValidatorSet.checkAttestationBy .standard = ValidatorSet.checkAttestation := by
    funext set digest signature proof
    rw [ValidatorSet.checkAttestationBy, signerBy_standard, ValidatorSet.checkAttestation]
  refine ⟨?_, notMalleable_signerBy⟩
  have hstandard := notMalleable_signerBy .standard
  rwa [hsigner, hcheck] at hstandard

open Client.Sample in
/-- A member's signature is taken, also with the other spelling of its recovery byte, and its twin is
refused. -/
theorem taken_without_twin :
    validatorSet.checkAttestation commitment.digest signatures[0] proofs[0] = .ok () ∧
    ({ signatures[0] with v := 28 } : Signature).signer commitment.digest = .ok addresses[0] ∧
    ∀ v, (signatures[0].twin v).signer commitment.digest = .error .malformedSignature := by
  have hcheck : validatorSet.checkAttestation commitment.digest signatures[0] proofs[0] = .ok () := by
    apply eq_ok_of_toOption_eq_some
    decide +kernel
  have hsigner := (ValidatorSet.checkAttestation_eq_ok_iff.1 hcheck).1
  have hform := not_malleable.1.isSoleForm _ _ _ hsigner
  exact ⟨hcheck, hform.respelled, fun v => hform.twin commitment.digest v⟩

end Signature

end FinalityBridge
