import Quaxar.TxQ.Views

/-!
# Changes of the queue outside `accept`

Adding a transaction, making room for it in a full queue, forgetting one that was applied
directly or ahead of a new one, and the maintenance when a ledger closes.
-/

namespace Quaxar.TxQ

open Protocol (SeqProxy Ter)
open Std (ExtTreeMap)

abbrev ApplyFlags := UInt32

def ApplyFlags.none : ApplyFlags := 0x00

def ApplyFlags.retry : ApplyFlags := 0x20

structure ApplyResult where
  ter : Ter
  applied : Bool
  metadataPresent : Bool
deriving DecidableEq

/-- What the queue reads of a preflight, and the rest of it. -/
structure PreflightResult (Tx : Type) where
  tx : Tx
  consequences : TxConsequences

structure MaybeTx (Account Tx : Type) where
  feeLevel : FeeLevel64
  txId : Uint256
  account : Account
  lastValid : Option ℕ
  seqProxy : SeqProxy
  retriesRemaining : ℤ
  flags : ApplyFlags
  lastResult : Option Ter
  pfResult : PreflightResult Tx

namespace MaybeTx

variable {Account Tx : Type}

def retriesAllowed : ℤ := 10

def new (txId : Uint256) (feeLevel : FeeLevel64) (account : Account) (lastValid : Option ℕ)
    (seqProxy : SeqProxy) (flags : ApplyFlags) (pfResult : PreflightResult Tx) :
    MaybeTx Account Tx :=
  ⟨feeLevel, txId, account, lastValid, seqProxy, retriesAllowed, flags, none, pfResult⟩

def recordApplyAttemptResult (queued : MaybeTx Account Tx) (result : ApplyResult) :
    MaybeTx Account Tx :=
  { queued with
    retriesRemaining := queued.retriesRemaining - 1
    lastResult := some result.ter }

end MaybeTx

variable {Account Tx : Type} [LinearOrder Account]

abbrev Queue (Account Tx : Type) [LinearOrder Account] := QueueViews Account (MaybeTx Account Tx)

abbrev Accounts (Account Tx : Type) [LinearOrder Account] :=
  ExtTreeMap Account (TxQAccount Account (MaybeTx Account Tx))

structure QueueApplyEnqueueResult (Account : Type) where
  queued : FeeQueueKey Account
  removedReplacement : Option (FeeQueueKey Account)
  accountCreated : Bool
  storedFlags : ApplyFlags

variable (accounts : Accounts Account Tx) (views : Queue Account Tx) (account : Account)

/-- The entry of a transaction in the order of fees. -/
def feeEntry (seqProxy : SeqProxy) (feeLevel : FeeLevel64) (txId : Uint256) :
    FeeQueueEntry Account :=
  ⟨⟨account, seqProxy⟩, ⟨feeLevel, txId, seqProxy⟩⟩

/-- The accounts with a queue for this one. -/
def withAccount : Accounts Account Tx :=
  if accounts[account]?.isNone then accounts.insert account (.new account) else accounts

def enqueueQueueApplyCandidate (replaced : Option (FeeQueueKey Account))
    (account : Account) (txId : Uint256) (lastValid : Option ℕ) (seqProxy : SeqProxy)
    (feeLevel : FeeLevel64) (flags : ApplyFlags) (pfResult : PreflightResult Tx)
    (order : OrderCandidates) :
    Except Panic (QueueApplyEnqueueResult Account × Queue Account Tx) := do
  let removal ← views.removeReplacedCandidate replaced account seqProxy
  let views := removal.2
  let accountCreated := views.accounts[account]?.isNone
  let accounts := withAccount views.accounts account
  let storedFlags := flags &&& ~~~ApplyFlags.retry
  let queued := MaybeTx.new txId feeLevel account lastValid seqProxy storedFlags pfResult
  let queue ← expect "xrpl::TxQ::apply : account created" accounts[account]?
  let queue ← queue.add seqProxy ⟨queued, pfResult.consequences⟩
  let views := { views with accounts := accounts.insert account queue }
  pure (⟨⟨account, seqProxy⟩, removal.1, accountCreated, storedFlags⟩,
    views.insertFeeEntry (feeEntry account seqProxy feeLevel txId) order)

inductive QueueApplyFullQueueDecision (Account : Type)
  | bypass
  | rejectFullSameAccount
  | rejectFullLowerFee (endEffectiveFeeLevel : FeeLevel64)
  | evictCheapest (dropped : FeeQueueKey Account) (endEffectiveFeeLevel : FeeLevel64)

def applyQueueApplyFullQueueDecision (decision : QueueApplyFullQueueDecision Account) :
    Except Panic (QueueApplyFullQueueDecision Account × Queue Account Tx) :=
  match decision with
  | .evictCheapest dropped _ => do
    let removal ← views.removeFeeCandidateByKey dropped
    ensure "xrpl::TxQ::apply : cheapest transaction found" (decide (removal.1 = dropped))
    pure (decision, removal.2)
  | _ => pure (decision, views)

/-- Quotients and remainders are added up apart; `none` stands for a sum out of range. -/
def addFeeLevel (count : ℕ) (total : Option (FeeLevel64 × FeeLevel64)) (feeLevel : FeeLevel64) :
    Option (FeeLevel64 × FeeLevel64) :=
  total.bind fun sums =>
    if sums.1 ≥ FeeLevel64.max - feeLevel / count ∨ sums.2 ≥ FeeLevel64.max - feeLevel % count then
      none
    else some (sums.1 + feeLevel / count, sums.2 + feeLevel % count)

/-- The fee level of the last entry, or the average of its account if that could be lower. -/
def computeEndEffectiveFeeLevel (endTailFeeLevel candidateFeeLevel : FeeLevel64)
    (endAccount : TxQAccount Account (MaybeTx Account Tx)) : Except Panic FeeLevel64 :=
  let count := endAccount.transactions.size
  if endTailFeeLevel > candidateFeeLevel ∨ count = 1 then pure endTailFeeLevel
  else if count = 0 then throw .divideByZero
  else
    let total := (endAccount.transactions.values.map (·.payload.feeLevel)).foldl
      (addFeeLevel count) (some (0, 0))
    pure (match total with
      | none => FeeLevel64.max
      | some sums => sums.1 + sums.2 / count)

def evaluateQueueApplyFullQueue (replacesExisting queueIsFull : Bool) (candidateAccount : Account)
    (candidateFeeLevel : FeeLevel64) (views : Queue Account Tx) :
    Except Panic (QueueApplyFullQueueDecision Account) :=
  if replacesExisting || !queueIsFull then pure .bypass
  else
    match views.feeOrder.reverse.find? fun entry =>
        decide (entry.key.account ≠ candidateAccount) with
    | none => pure .rejectFullSameAccount
    | some lastOtherAccount => do
      let endAccount ← expect "xrpl::TxQ::apply : end account exists"
        views.accounts[lastOtherAccount.key.account]?
      let endEffectiveFeeLevel ← computeEndEffectiveFeeLevel lastOtherAccount.candidate.feeLevel
        candidateFeeLevel endAccount
      if candidateFeeLevel ≤ endEffectiveFeeLevel then
        pure (.rejectFullLowerFee endEffectiveFeeLevel)
      else
        let seqProxy ← expect "xrpl::TxQ::apply : cheapest transaction found"
          endAccount.transactions.keys.getLast?
        pure (.evictCheapest ⟨lastOtherAccount.key.account, seqProxy⟩ endEffectiveFeeLevel)

/-- One recorded attempt of a clear-ahead run. -/
def recordAttempt (queue : TxQAccount Account (MaybeTx Account Tx))
    (attempt : SeqProxy × ApplyResult) : TxQAccount Account (MaybeTx Account Tx) :=
  match queue.transactions[attempt.1]? with
  | none => queue
  | some queued =>
    { queue with
      transactions := queue.transactions.insert attempt.1
        { queued with payload := queued.payload.recordApplyAttemptResult attempt.2 } }

def applyTryClearEffects
    (attempts : List (SeqProxy × ApplyResult)) (removed : List SeqProxy) : Queue Account Tx :=
  if attempts.isEmpty && removed.isEmpty then views
  else
    let accounts := match views.accounts[account]? with
      | none => views.accounts
      | some queue =>
        let queue := attempts.foldl recordAttempt queue
        let queue := removed.foldl (fun queue seqProxy => (queue.remove seqProxy).2) queue
        views.accounts.insert account queue
    let feeOrder := if removed.isEmpty then views.feeOrder
      else views.feeOrder.filter fun entry =>
        decide (entry.key.account ≠ account ∨ entry.key.seqProxy ∉ removed)
    ⟨feeOrder, accounts⟩

structure ClosedLedgerCandidate (Account : Type) where
  account : Account
  seqProxy : SeqProxy
  lastValid : Option ℕ
deriving DecidableEq

structure ClosedLedgerMaintenance (Account : Type) where
  nextMaxSize : ℕ
  expiredCandidates : List (ClosedLedgerCandidate Account)
  emptiedAccounts : List Account

/-- One candidate of the loop over the order of fees. -/
def expireCandidate (ledgerSeq : ℕ)
    (state : Accounts Account Tx × List (ClosedLedgerCandidate Account))
    (candidate : ClosedLedgerCandidate Account) :
    Except Panic (Accounts Account Tx × List (ClosedLedgerCandidate Account)) :=
  if candidate.lastValid.all (ledgerSeq < ·) then pure state
  else do
    let queue ← expect "xrpl::TxQ::processClosedLedger : account found"
      state.1[candidate.account]?
    ensure "xrpl::TxQ::processClosedLedger : account matches key"
      (decide (queue.account = candidate.account))
    let removal := { queue with dropPenalty := true }.remove candidate.seqProxy
    ensure "xrpl::TxQ::processClosedLedger : candidate found in account" removal.1
    pure (state.1.insert candidate.account removal.2, state.2 ++ [candidate])

def removeEmptied : Except Panic (Accounts Account Tx) := do
  ensure "xrpl::TxQ::processClosedLedger : empty account removed" accounts[account]?.isSome
  pure (accounts.erase account)

/-- The free function of the source, on the accounts. -/
def processClosedLedgerAccounts
    (byFeeCandidates : List (ClosedLedgerCandidate Account)) (ledgerSeq currentMaxSize : ℕ)
    (timeLeap : Bool) (txnsExpected ledgersInQueue queueSizeMin : ℕ) :
    Except Panic (ClosedLedgerMaintenance Account × Accounts Account Tx) := do
  let nextMaxSize := if timeLeap then currentMaxSize
    else max (txnsExpected * ledgersInQueue % 2 ^ 64) queueSizeMin
  let expired ← byFeeCandidates.foldlM (expireCandidate ledgerSeq) (accounts, [])
  let emptiedAccounts := (expired.1.toList.filter fun item => item.2.empty).map Prod.fst
  let accounts ← emptiedAccounts.foldlM removeEmptied expired.1
  pure (⟨nextMaxSize, expired.2, emptiedAccounts⟩, accounts)

def closedLedgerCandidate (entry : FeeQueueEntry Account) :
    Except Panic (ClosedLedgerCandidate Account) := do
  let queued ← expect "xrpl::TxQ::processClosedLedger : candidate found in account"
    (views.find entry.key)
  pure ⟨entry.key.account, entry.key.seqProxy, queued.payload.lastValid⟩

/-- The maintenance of the two views. -/
def processClosedLedger (ledgerSeq currentMaxSize : ℕ) (timeLeap : Bool)
    (txnsExpected ledgersInQueue queueSizeMin : ℕ) :
    Except Panic (ClosedLedgerMaintenance Account × Queue Account Tx) := do
  let byFeeCandidates ← views.feeOrder.mapM (closedLedgerCandidate views)
  let result ← processClosedLedgerAccounts views.accounts byFeeCandidates ledgerSeq currentMaxSize
    timeLeap txnsExpected ledgersInQueue queueSizeMin
  let expired := result.1.expiredCandidates.map fun candidate =>
    FeeQueueKey.mk candidate.account candidate.seqProxy
  pure (result.1, ⟨views.feeOrder.filter fun entry => decide (entry.key ∉ expired), result.2⟩)

end Quaxar.TxQ
