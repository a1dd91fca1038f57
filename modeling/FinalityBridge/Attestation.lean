import FinalityBridge.Signature
import FinalityBridge.ValidatorSet

/-!
# Attestations

A member of a validator set attests to a digest by a signature, together with the proof of its
membership.
-/

namespace FinalityBridge

/-- Checks that `signature` over `digest` is that of the member whom `proof` places in `set`. The
signature is checked first, then the signer, then the membership. -/
def ValidatorSet.checkAttestation (set : ValidatorSet) (digest : Hash) (signature : Signature)
    (proof : MembershipProof) : Except Error Unit := do
  let signer ← signature.signer digest
  if signer ≠ proof.address then .error (.signerMismatch proof.position)
  else if set.verify proof then .ok ()
  else .error (.unknownValidator proof.position)

end FinalityBridge
