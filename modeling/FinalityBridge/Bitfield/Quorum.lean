import FinalityBridge.Bitfield.Basic

/-!
# Claims and quorums

A claim names the validators that are said to have signed. It needs a quorum, which is more than two
thirds of the set; of the claimed validators a sample of more than one third of the set is checked.
-/

namespace FinalityBridge

/-- The least number of signers that is more than two thirds of `validators`. -/
def quorum (validators : UInt32) : Nat := 2 * validators.toNat / 3 + 1

/-- The number of signers whose signatures are checked. -/
def sampleSize (validators : UInt32) : Nat := (validators.toNat + 2) / 3 + 1

/-- The bitfield of a claim over `validators` validators, which must name a quorum. -/
def Bitfield.ofClaim (claimed : List UInt64) (validators : UInt32) : Except Error Bitfield := do
  let bitfield ← ofWords claimed validators
  if bitfield.count < quorum validators then
    .error (.insufficientClaim bitfield.count (quorum validators))
  else .ok bitfield

end FinalityBridge
