import Quaxar.Basics.BaseUInt
import Quaxar.Protocol.STAmount
import Quaxar.Protocol.Ter

/-!
# What the preflight of a batch checks

The flags of a batch name one of four modes, and the inner transactions are between two and eight,
different from each other and without signatures or fees of their own.
-/

namespace Quaxar.OpenLedger

open Protocol

/-- `BatchTransactionFlags::from_bits`. -/
def batchMode (flags : UInt32) : UInt32 := flags &&& 0x000F0000

def allOrNothing : UInt32 := 0x00010000

def onlyOne : UInt32 := 0x00020000

def untilFailure : UInt32 := 0x00040000

def independent : UInt32 := 0x00080000

def modeContains (mode other : UInt32) : Bool := decide (mode &&& other = other)

def countOnes (bits : UInt32) : ℕ := (List.range 32).countP fun i => bits.toNat.testBit i

structure BatchSignatureFacts where
  hasTxnSignature : Bool
  hasSigners : Bool
  signingPubKeyIsEmpty : Bool

def validateSignatureFacts (facts : BatchSignatureFacts) : Option Ter :=
  if facts.hasTxnSignature then some .temBadSignature
  else if facts.hasSigners then some .temBadSigner
  else if !facts.signingPubKeyIsEmpty then some .temBadRegkey
  else none

/-- What the checks read of an inner transaction. `preflight` is what `preflight_inner_transaction`
returns for it. -/
structure InnerFacts where
  transactionId : Uint256
  txnType : UInt16
  flags : UInt32
  signatureFacts : BatchSignatureFacts
  counterpartySignatureFacts : Option BatchSignatureFacts
  sponsor : Option AccountID
  sponsorSignatureFacts : Option BatchSignatureFacts
  feeIsSponsored : Bool
  feeIsNativeZero : Bool
  account : AccountID
  sequence : UInt32
  ticketSequence : Option UInt32
  isRawTransactionWrapped : Bool
  preflight : Ter

structure BatchPreflightRules where
  lendingV12 : Bool
  fixBatchV12 : Bool

def maxBatchTxCount : ℕ := 8

def txBatch : UInt16 := 71

/-- The vault and lending types. -/
def disabledInnerBatchTxTypes : List UInt16 :=
  [65, 66, 67, 68, 69, 70, 74, 75, 76, 77, 78, 80, 81, 82, 84]

def innerBatchTransactionFlag : UInt32 := 0x40000000

/-- The ids, and the sequences and tickets by account, that have been seen. -/
structure SeenInner where
  uniqueHashes : List Uint256
  accountSeqTicket : List (AccountID × UInt32)

/-- Sequences and tickets of one account share a set. -/
def SeenInner.use (seen : SeenInner) (account : AccountID) (number : UInt32) :
    Except Ter SeenInner :=
  if (account, number) ∈ seen.accountSeqTicket then .error .temRedundant
  else .ok { seen with accountSeqTicket := (account, number) :: seen.accountSeqTicket }

def checkSignatureFacts : Option BatchSignatureFacts → Except Ter Unit
  | none => .ok ()
  | some facts =>
    match validateSignatureFacts facts with
    | some error => .error error
    | none => .ok ()

/-- The sequence, then the ticket, must be new. -/
def useSeqAndTicket (inner : InnerFacts) (seen : SeenInner) : Except Ter SeenInner := do
  let seen ← if inner.sequence ≠ 0 then seen.use inner.account inner.sequence else .ok seen
  match inner.ticketSequence with
  | some ticket => seen.use inner.account ticket
  | none => .ok seen

/-- One round of the loop over the inner transactions. -/
def checkInner (mode : UInt32) (rules : BatchPreflightRules) (seen : SeenInner)
    (inner : InnerFacts) : Except Ter SeenInner := do
  if rules.fixBatchV12 && !inner.isRawTransactionWrapped then throw .temMalformed
  if seen.uniqueHashes.any fun hash => hash = inner.transactionId then throw .temRedundant
  if inner.txnType = txBatch then throw .temInvalid
  if !rules.lendingV12 && decide (inner.txnType ∈ disabledInnerBatchTxTypes) then
    throw .temInvalidInnerBatch
  if inner.flags &&& innerBatchTransactionFlag = 0 then throw .temInvalidFlag
  checkSignatureFacts (some inner.signatureFacts)
  checkSignatureFacts inner.counterpartySignatureFacts
  checkSignatureFacts inner.sponsorSignatureFacts
  if inner.sponsor.isSome && inner.feeIsSponsored then throw .temInvalidFlag
  if !inner.feeIsNativeZero then throw .temBadFee
  if !inner.preflight.isTesSuccess then throw .temInvalidInnerBatch
  if decide (inner.sequence ≠ 0) = inner.ticketSequence.isSome then throw .temSeqAndTicket
  let seen := { seen with uniqueHashes := inner.transactionId :: seen.uniqueHashes }
  if modeContains mode allOrNothing || modeContains mode untilFailure then
    useSeqAndTicket inner seen
  else pure seen

def validateBatchPreflightStructure (flags : UInt32) (innerTransactions : List InnerFacts)
    (rules : BatchPreflightRules) : Ter :=
  let mode := batchMode flags
  if countOnes mode ≠ 1 then .temInvalidFlag
  else if innerTransactions.length ≤ 1 then .temArrayEmpty
  else if innerTransactions.length > maxBatchTxCount then .temArrayTooLarge
  else
    match innerTransactions.foldlM (checkInner mode rules) ⟨[], []⟩ with
    | .error error => error
    | .ok _ => .tesSuccess

theorem batchMode_eq (flags : UInt32) :
    batchMode flags = UInt32.ofNat (flags.toNat / 2 ^ 16 % 2 ^ 4 * 2 ^ 16) := by
  have hmask : (0x000F0000 : ℕ) = (2 ^ 4 - 1) * 2 ^ 16 := by norm_num
  have hlt : flags.toNat / 2 ^ 16 % 2 ^ 4 * 2 ^ 16 < 2 ^ 32 := by omega
  rw [← UInt32.toNat_inj, UInt32.toNat_ofNat_of_lt' hlt, batchMode, UInt32.toNat_and]
  change flags.toNat &&& 0x000F0000 = _
  rw [hmask]
  refine Nat.eq_of_testBit_eq fun i => ?_
  rw [Nat.testBit_and, Nat.testBit_mul_two_pow, Nat.testBit_mul_two_pow, Nat.testBit_mod_two_pow,
    Nat.testBit_div_two_pow, Nat.testBit_two_pow_sub_one]
  by_cases hi : 16 ≤ i
  · rw [Nat.sub_add_cancel hi]
    simp [hi, Bool.and_comm]
  · simp [hi]

theorem batchMode_cases {flags : UInt32} (h : countOnes (batchMode flags) = 1) :
    batchMode flags = allOrNothing ∨ batchMode flags = onlyOne ∨
      batchMode flags = untilFailure ∨ batchMode flags = independent := by
  rw [batchMode_eq] at h ⊢
  have hlt : flags.toNat / 2 ^ 16 % 2 ^ 4 < 2 ^ 4 := Nat.mod_lt _ (by norm_num)
  generalize flags.toNat / 2 ^ 16 % 2 ^ 4 = bits at h hlt ⊢
  interval_cases bits <;> revert h <;> decide

theorem countOnes_of_validate {flags : UInt32} {innerTransactions : List InnerFacts}
    {rules : BatchPreflightRules}
    (h : validateBatchPreflightStructure flags innerTransactions rules = .tesSuccess) :
    countOnes (batchMode flags) = 1 := by
  unfold validateBatchPreflightStructure at h
  dsimp only at h
  split_ifs at h with hcount
  all_goals first | cases h | exact not_not.mp hcount

end Quaxar.OpenLedger
