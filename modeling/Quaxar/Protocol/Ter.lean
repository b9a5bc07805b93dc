import Mathlib.Tactic

/-!
# Transaction results

A result code is an `i32`; its range says what becomes of the transaction.
-/

namespace Quaxar.Protocol

structure Ter where
  toInt : ℤ
deriving DecidableEq

namespace Ter

def telInsufFeeP : Ter := ⟨-394⟩

def temMalformed : Ter := ⟨-299⟩

def temBadFee : Ter := ⟨-295⟩

def temBadRegkey : Ter := ⟨-289⟩

def temBadSignature : Ter := ⟨-282⟩

def temInvalid : Ter := ⟨-277⟩

def temInvalidFlag : Ter := ⟨-276⟩

def temRedundant : Ter := ⟨-275⟩

def temBadSigner : Ter := ⟨-272⟩

def temBadQuorum : Ter := ⟨-271⟩

def temBadWeight : Ter := ⟨-270⟩

def temSeqAndTicket : Ter := ⟨-263⟩

def temArrayEmpty : Ter := ⟨-253⟩

def temArrayTooLarge : Ter := ⟨-252⟩

def temInvalidInnerBatch : Ter := ⟨-250⟩

def tefFailure : Ter := ⟨-199⟩

def tefBadAuth : Ter := ⟨-196⟩

def tefBadLedger : Ter := ⟨-195⟩

def tefException : Ter := ⟨-193⟩

def tefInternal : Ter := ⟨-192⟩

def tefMasterDisabled : Ter := ⟨-188⟩

def tefBadSignature : Ter := ⟨-186⟩

def tefBadQuorum : Ter := ⟨-185⟩

def tefNotMultiSigning : Ter := ⟨-184⟩

def tefNoTicket : Ter := ⟨-180⟩

def terRetry : Ter := ⟨-99⟩

def terNoAccount : Ter := ⟨-96⟩

def terQueued : Ter := ⟨-89⟩

def tesSuccess : Ter := ⟨0⟩

def tecClaim : Ter := ⟨100⟩

def tecNoEntry : Ter := ⟨140⟩

def tecNoSuitableNftokenPage : Ter := ⟨155⟩

def isTesSuccess (code : Ter) : Bool := decide (code.toInt = tesSuccess.toInt)

def isTecClaim (code : Ter) : Bool := decide (tecClaim.toInt ≤ code.toInt)

def isTemMalformed (code : Ter) : Bool :=
  decide (temMalformed.toInt ≤ code.toInt ∧ code.toInt < tefFailure.toInt)

def isTefFailure (code : Ter) : Bool :=
  decide (tefFailure.toInt ≤ code.toInt ∧ code.toInt < terRetry.toInt)

end Ter

end Quaxar.Protocol
