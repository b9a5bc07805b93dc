import Quaxar.Lib.Loop
import Quaxar.TxQ.Changes

/-!
# Moving queued transactions into the open ledger

`accept` walks the order of fees and tries each transaction that pays the required fee level.
A caller either hands over a callback (`runQueueAcceptWithCallState`) or is handed every
prepared transaction and resumes the walk with the outcome
(`runQueueAcceptWithCallerPreparedApply`). At the end the order is rebuilt for the next ledger.
-/

namespace Quaxar.TxQ

open Protocol (SeqProxy Ter)

def txqBaseLevel : FeeLevel64 := 256

structure QueueFeeMetricsSnapshot where
  txnsExpected : ℕ
  escalationMultiplier : FeeLevel64
deriving DecidableEq

def saturatingAdd (a b : ℕ) : ℕ := min (a + b) (2 ^ 64 - 1)

def saturatingMul (a b : ℕ) : ℕ := min (a * b) (2 ^ 64 - 1)

/-- `value * mul / div`, or `none` if that is too large. -/
def mulDiv (value mul div : ℕ) : Except Panic (Option ℕ) :=
  if div = 0 then throw .divideByZero
  else pure (if value * mul / div > 2 ^ 64 - 1 then none else some (value * mul / div))

def scaleFeeLevel (snapshot : QueueFeeMetricsSnapshot) (openLedgerTxCount : ℕ) :
    Except Panic FeeLevel64 :=
  if openLedgerTxCount ≤ snapshot.txnsExpected then pure txqBaseLevel
  else do
    let level ← mulDiv snapshot.escalationMultiplier
      (saturatingMul openLedgerTxCount openLedgerTxCount)
      (saturatingMul snapshot.txnsExpected snapshot.txnsExpected)
    pure (level.getD FeeLevel64.max)

def evaluateRequiredFeeLevel (snapshot : QueueFeeMetricsSnapshot) (openLedgerTxCount : ℕ)
    (_flags : ApplyFlags) : Except Panic FeeLevel64 :=
  scaleFeeLevel snapshot openLedgerTxCount

inductive AcceptCandidateGate
  | skipNotFirst
  | tryApply
  | stopInsufficientFee

def evaluateAcceptCandidate (candidateSeqProxy accountFrontSeqProxy : SeqProxy)
    (feeLevelPaid requiredFeeLevel : FeeLevel64) : AcceptCandidateGate :=
  if candidateSeqProxy.isSeq && decide (accountFrontSeqProxy < candidateSeqProxy) then .skipNotFirst
  else if requiredFeeLevel ≤ feeLevelPaid then .tryApply
  else .stopInsufficientFee

inductive PenaltyUpdate
  | none
  | markDropPenalty
  | markRetryPenalty
deriving DecidableEq

inductive FailedCandidateAction
  | removeCurrent
  | keepQueued
  | dropCurrentTicket
  | dropLastFromAccount
deriving DecidableEq

structure FailedCandidateDecision where
  action : FailedCandidateAction
  penaltyUpdate : PenaltyUpdate
  nextRetriesRemaining : ℤ
  lastResult : Option Ter

def decideFailedCandidate (txnResult : Ter) (retriesRemaining : ℤ)
    (accountRetryPenalty accountDropPenalty : Bool) (accountTxnCount : ℕ) (queueNearlyFull : Bool)
    (seqProxy : SeqProxy) : FailedCandidateDecision :=
  if txnResult.isTefFailure || txnResult.isTemMalformed || decide (retriesRemaining ≤ 0) then
    ⟨.removeCurrent, if retriesRemaining ≤ 0 then .markRetryPenalty else .markDropPenalty,
      retriesRemaining, none⟩
  else
    let nextRetriesRemaining := if accountRetryPenalty && decide (retriesRemaining > 2) then 1
      else retriesRemaining - 1
    let action := if accountDropPenalty && decide (accountTxnCount > 1) && queueNearlyFull then
        if seqProxy.isTicket then .dropCurrentTicket else .dropLastFromAccount
      else .keepQueued
    ⟨action, .none, nextRetriesRemaining, some txnResult⟩

variable {Account Tx : Type} [LinearOrder Account]

structure QueueAcceptCandidate (Account : Type) where
  key : FeeQueueKey Account
  txId : Uint256
  feeLevel : FeeLevel64
  retriesRemaining : ℤ
  flags : ApplyFlags

inductive QueueAcceptIteration (Account : Type)
  | skipNotFirst (candidate : QueueAcceptCandidate Account)
      (nextCandidate : Option (FeeQueueKey Account))
  | stopInsufficientFee (candidate : QueueAcceptCandidate Account) (requiredFeeLevel : FeeLevel64)
  | applied (candidate : QueueAcceptCandidate Account) (txnResult : Ter)
      (nextCandidate : Option (FeeQueueKey Account))
  | removedFailed (candidate : QueueAcceptCandidate Account) (txnResult : Ter)
      (penaltyUpdate : PenaltyUpdate) (nextCandidate : Option (FeeQueueKey Account))
  | droppedCurrentTicket (candidate : QueueAcceptCandidate Account) (txnResult : Ter)
      (nextCandidate : Option (FeeQueueKey Account))
  | retainedFailed (candidate : QueueAcceptCandidate Account) (txnResult : Ter)
      (nextRetriesRemaining : ℤ) (droppedLastFromAccount : Bool)
      (removedTail : Option (FeeQueueKey Account)) (nextCandidate : Option (FeeQueueKey Account))

namespace QueueAcceptIteration

def ledgerChanged : QueueAcceptIteration Account → Bool
  | .applied .. => true
  | _ => false

def nextCandidate : QueueAcceptIteration Account → Option (FeeQueueKey Account)
  | .skipNotFirst _ next => next
  | .stopInsufficientFee .. => none
  | .applied _ _ next => next
  | .removedFailed _ _ _ next => next
  | .droppedCurrentTicket _ _ next => next
  | .retainedFailed _ _ _ _ _ next => next

def stopCandidate : QueueAcceptIteration Account → Option (QueueAcceptCandidate Account)
  | .stopInsufficientFee candidate _ => some candidate
  | _ => none

end QueueAcceptIteration

structure PreparedQueueAcceptApply (Account : Type) where
  candidate : QueueAcceptCandidate Account
  requiredFeeLevel : FeeLevel64
  queueNearlyFull : Bool
  candidateIndex : ℕ
  accountRetryPenalty : Bool
  accountDropPenalty : Bool
  accountTxnCount : ℕ
  order : OrderCandidates

inductive QueueAcceptPreparedIteration (Account : Type)
  | complete (iteration : QueueAcceptIteration Account)
  | ready (prepared : PreparedQueueAcceptApply Account)

def queueAcceptIsNearlyFull (currentQueueSize : ℕ) (currentMaxSize : Option ℕ) : Bool :=
  currentMaxSize.any fun maxSize => decide (currentQueueSize ≥ saturatingMul maxSize 95 / 100)

def queueViewNextToOption : QueueViewNext Account → Option (FeeQueueKey Account)
  | .finish => none
  | .feeNext key => some key
  | .accountNext key => some key

variable {σ : Type} (fuel : ℕ) (views : Queue Account Tx) (current : FeeQueueKey Account)
  (requiredFeeLevel : FeeLevel64) (queueNearlyFull : Bool)

/-- The front of the account, its two penalties and the number of its transactions. -/
def queueAcceptAccountState : Except Panic (SeqProxy × Bool × Bool × ℕ) := do
  let queuedAccount ← expect "xrpl::TxQ::accept : account found" views.accounts[current.account]?
  let frontSeqProxy ← expect "xrpl::TxQ::accept : account has queued transactions"
    queuedAccount.transactions.keys.head?
  pure (frontSeqProxy, queuedAccount.retryPenalty, queuedAccount.dropPenalty,
    queuedAccount.transactions.size)

def snapshotCandidate : Except Panic (QueueAcceptCandidate Account) := do
  let queuedAccount ← expect "xrpl::TxQ::accept : account found" views.accounts[current.account]?
  let queued ← expect "xrpl::TxQ::accept : candidate found in account"
    queuedAccount.transactions[current.seqProxy]?
  pure ⟨current, queued.payload.txId, queued.payload.feeLevel, queued.payload.retriesRemaining,
    queued.payload.flags⟩

/-- Skip the transaction, stop at it or try it. -/
def gateCandidate (order : OrderCandidates) (candidateIndex : ℕ)
    (candidate : QueueAcceptCandidate Account)
    (state : SeqProxy × Bool × Bool × ℕ) : QueueAcceptPreparedIteration Account :=
  match evaluateAcceptCandidate current.seqProxy state.1 candidate.feeLevel requiredFeeLevel with
  | .skipNotFirst => .complete (.skipNotFirst candidate (views.nextFeeCandidateKey current))
  | .stopInsufficientFee => .complete (.stopInsufficientFee candidate requiredFeeLevel)
  | .tryApply => .ready ⟨candidate, requiredFeeLevel, queueNearlyFull, candidateIndex,
      state.2.1, state.2.2.1, state.2.2.2, order⟩

def prepareQueueAcceptIteration (order : OrderCandidates) :
    Except Panic (QueueAcceptPreparedIteration Account) := do
  let candidateIndex ← expect "xrpl::TxQ::accept : candidate found in byFee"
    (views.findFeeCandidateIndex current)
  let candidate ← snapshotCandidate views current
  let state ← queueAcceptAccountState views current
  pure (gateCandidate views current requiredFeeLevel queueNearlyFull order candidateIndex candidate
    state)

/-- A change to the queue of an account. -/
def updateAccount (account : Account)
    (f : TxQAccount Account (MaybeTx Account Tx) → TxQAccount Account (MaybeTx Account Tx)) :
    Except Panic (Queue Account Tx) := do
  let queue ← expect "xrpl::TxQ::accept : account found" views.accounts[account]?
  pure { views with accounts := views.accounts.insert account (f queue) }

/-- A change to a queued transaction, with what it returns. -/
def updatePayload {β : Type} (views : Queue Account Tx) (key : FeeQueueKey Account)
    (accountFound candidateFound : String) (f : MaybeTx Account Tx → β × MaybeTx Account Tx) :
    Except Panic (β × Queue Account Tx) := do
  let queue ← expect accountFound views.accounts[key.account]?
  let queued ← expect candidateFound queue.transactions[key.seqProxy]?
  let queue := { queue with
    transactions := queue.transactions.insert key.seqProxy
      { queued with payload := (f queued.payload).2 } }
  pure ((f queued.payload).1, { views with accounts := views.accounts.insert key.account queue })

def markPenalty (account : Account) (update : PenaltyUpdate) : Except Panic (Queue Account Tx) :=
  match update with
  | .none => pure views
  | .markDropPenalty => updateAccount views account ({ · with dropPenalty := true })
  | .markRetryPenalty => updateAccount views account ({ · with retryPenalty := true })

/-- Drop the last transaction of the account, unless it is the current one. -/
def dropTail : Except Panic (Option (FeeQueueKey Account) × Queue Account Tx) := do
  let seqProxy ← expect "xrpl::TxQ::accept : last account candidate exists"
    (views.accounts[current.account]?.bind fun queue => queue.transactions.keys.getLast?)
  let tailKey := FeeQueueKey.mk current.account seqProxy
  if tailKey = current then pure (none, views)
  else
    let removal ← views.removeFeeCandidateByKey tailKey
    pure (some removal.1, removal.2)

def dropTailIf (droppedLast : Bool) (views : Queue Account Tx) (current : FeeQueueKey Account) :
    Except Panic (Option (FeeQueueKey Account) × Queue Account Tx) :=
  if droppedLast then dropTail views current else pure (none, views)

/-- A failed transaction stays, with fewer retries. -/
def retainFailed (candidate : QueueAcceptCandidate Account)
    (txnResult : Ter) (decision : FailedCandidateDecision) :
    Except Panic (QueueAcceptIteration Account × Queue Account Tx) := do
  let current := candidate.key
  let update ← updatePayload views current "xrpl::TxQ::accept : account found"
    "xrpl::TxQ::accept : candidate found in account" fun payload =>
      ((), { payload with
        retriesRemaining := decision.nextRetriesRemaining
        lastResult := decision.lastResult })
  let droppedLast := decide (decision.action = .dropLastFromAccount)
  let removal ← dropTailIf droppedLast update.2 current
  pure (.retainedFailed candidate txnResult decision.nextRetriesRemaining droppedLast removal.1
    (removal.2.nextFeeCandidateKey current), removal.2)

def finalizePreparedQueueAcceptApply
    (prepared : PreparedQueueAcceptApply Account) (applyResult : ApplyResult) :
    Except Panic (QueueAcceptIteration Account × Queue Account Tx) :=
  let candidate := prepared.candidate
  let current := candidate.key
  if applyResult.applied then do
    let advance ← views.eraseAndAdvance prepared.candidateIndex prepared.order
    pure (.applied candidate applyResult.ter (queueViewNextToOption advance.1.next), advance.2)
  else
    let decision := decideFailedCandidate applyResult.ter candidate.retriesRemaining
      prepared.accountRetryPenalty prepared.accountDropPenalty prepared.accountTxnCount
      prepared.queueNearlyFull current.seqProxy
    do
      let views ← markPenalty views current.account decision.penaltyUpdate
      match decision.action with
      | .removeCurrent =>
        let advance ← views.eraseAndAdvance prepared.candidateIndex prepared.order
        pure (.removedFailed candidate applyResult.ter decision.penaltyUpdate
          (queueViewNextToOption advance.1.next), advance.2)
      | .dropCurrentTicket =>
        let advance ← views.eraseAndAdvance prepared.candidateIndex prepared.order
        pure (.droppedCurrentTicket candidate applyResult.ter
          (queueViewNextToOption advance.1.next), advance.2)
      | .keepQueued => retainFailed views candidate applyResult.ter decision
      | .dropLastFromAccount => retainFailed views candidate applyResult.ter decision

/-- What a callback does with a queued transaction: its result, the transaction as the callback
leaves it, and the callback's own state. -/
abbrev ApplyFn (Account Tx σ : Type) :=
  σ → MaybeTx Account Tx → (ApplyResult × σ) × MaybeTx Account Tx

def runPreparedQueueAcceptApply (prepared : PreparedQueueAcceptApply Account)
    (apply : ApplyFn Account Tx σ) (caller : σ) :
    Except Panic ((QueueAcceptIteration Account × σ) × Queue Account Tx) := do
  let outcome ← updatePayload views prepared.candidate.key "xrpl::TxQ::accept : account found"
    "xrpl::TxQ::accept : candidate found in account" (apply caller)
  let final ← finalizePreparedQueueAcceptApply outcome.2 prepared outcome.1.1
  pure ((final.1, outcome.1.2), final.2)

def runQueueAcceptIteration (order : OrderCandidates) (apply : ApplyFn Account Tx σ) (caller : σ) :
    Except Panic ((QueueAcceptIteration Account × σ) × Queue Account Tx) := do
  match ← prepareQueueAcceptIteration views current requiredFeeLevel queueNearlyFull order with
  | .complete iteration => pure ((iteration, caller), views)
  | .ready prepared => runPreparedQueueAcceptApply views prepared apply caller

structure QueueAcceptRebuildResult where
  parentHashUnchanged : Bool
  nextOrder : OrderCandidates
  startingSize : ℕ
  rebuiltSize : ℕ

/-- The entries of one account. -/
def rebuildAccount (item : Account × TxQAccount Account (MaybeTx Account Tx)) :
    Except Panic (List (FeeQueueEntry Account)) := do
  ensure "xrpl::TxQ::accept : account matches key" (decide (item.2.account = item.1))
  pure (item.2.transactions.toList.map fun queued =>
    feeEntry item.1 queued.1 queued.2.payload.feeLevel queued.2.payload.txId)

def rebuildQueueAcceptFeeOrder (previousParentHashComp nextParentHashComp : Uint256) :
    Except Panic (QueueAcceptRebuildResult × Queue Account Tx) := do
  let startingSize := views.feeOrder.length
  let nextOrder := OrderCandidates.mk nextParentHashComp
  let rebuiltEntries ← views.accounts.toList.mapM rebuildAccount
  let rebuilt := rebuiltEntries.flatten.foldl
    (fun views entry => views.insertFeeEntry entry nextOrder) { views with feeOrder := [] }
  let rebuiltSize := rebuilt.feeOrder.length
  ensure "xrpl::TxQ::accept : byFee size match" (decide (rebuiltSize = startingSize))
  pure (⟨decide (previousParentHashComp = nextParentHashComp), nextOrder, startingSize,
    rebuiltSize⟩, rebuilt)

structure QueueAcceptOwnerState where
  parentHashComp : Uint256
deriving DecidableEq

def QueueAcceptOwnerState.currentOrder (owner : QueueAcceptOwnerState) : OrderCandidates :=
  ⟨owner.parentHashComp⟩

structure QueueAcceptCallState where
  openLedgerTxCount : ℕ
  currentMaxSize : Option ℕ
  nextParentHashComp : Uint256
deriving DecidableEq

structure QueueAcceptStageResult (Account : Type) where
  ledgerChanged : Bool
  processedCandidates : ℕ
  stopCandidate : Option (FeeQueueKey Account)

structure QueueAcceptWithMetricsResult (Account : Type) where
  stage : QueueAcceptStageResult Account
  rebuild : QueueAcceptRebuildResult
  ownerState : QueueAcceptOwnerState
  metricsSnapshot : QueueFeeMetricsSnapshot

variable (metrics : QueueFeeMetricsSnapshot) (ownerState : QueueAcceptOwnerState)
  (callState : QueueAcceptCallState) (order : OrderCandidates) (apply : ApplyFn Account Tx σ)
  (caller : σ)

/-- Rebuild the order and move the owner to the next hash, which the result holds. -/
def finalizeQueueAcceptOwnerResult (previousParentHashComp nextParentHashComp : Uint256)
    (stage : QueueAcceptStageResult Account) :
    Except Panic (QueueAcceptWithMetricsResult Account × Queue Account Tx) := do
  let rebuild ← rebuildQueueAcceptFeeOrder views previousParentHashComp nextParentHashComp
  pure (⟨stage, rebuild.1, ⟨nextParentHashComp⟩, metrics⟩, rebuild.2)

/-- The required fee level after `appliedCount` transactions were applied. -/
def requiredAfter (appliedCount : ℕ) : Except Panic FeeLevel64 :=
  evaluateRequiredFeeLevel metrics (saturatingAdd callState.openLedgerTxCount appliedCount)
    .none

/-- The locals of the loop with a callback. -/
structure StageState (Account Tx σ : Type) [LinearOrder Account] where
  views : Queue Account Tx
  current : Option (FeeQueueKey Account)
  ledgerChanged : Bool
  processedCandidates : ℕ
  appliedCount : ℕ
  caller : σ

/-- Count the transactions that a callback applies. -/
def countApplied : ApplyFn Account Tx (ℕ × σ) :=
  fun caller queued =>
    let outcome := apply caller.2 queued
    let count := if outcome.1.1.applied then saturatingAdd caller.1 1 else caller.1
    ((outcome.1.1, count, outcome.1.2), outcome.2)

def stageRound (s : StageState Account Tx σ) :
    Except Panic (StageState Account Tx σ ⊕ QueueAcceptStageResult Account ×
      StageState Account Tx σ) :=
  match s.current with
  | none => pure (.inr (⟨s.ledgerChanged, s.processedCandidates, none⟩, s))
  | some candidateKey => do
    let requiredFeeLevel ← requiredAfter metrics callState s.appliedCount
    let queueNearlyFull :=
      queueAcceptIsNearlyFull s.views.feeOrder.length callState.currentMaxSize
    let outcome ← runQueueAcceptIteration s.views candidateKey requiredFeeLevel queueNearlyFull
      order (countApplied apply) (s.appliedCount, s.caller)
    let iteration := outcome.1.1
    let s' : StageState Account Tx σ := ⟨outcome.2, iteration.nextCandidate,
      s.ledgerChanged || iteration.ledgerChanged, s.processedCandidates + 1, outcome.1.2.1,
      outcome.1.2.2⟩
    match iteration.stopCandidate with
    | some stop => pure (.inr (⟨s'.ledgerChanged, s'.processedCandidates, some stop.key⟩, s'))
    | none => pure (.inl s')

def runQueueAcceptStage :
    Option (Except Panic (QueueAcceptStageResult Account × StageState Account Tx σ)) :=
  Loop.run (fun s => some (stageRound metrics callState order apply s)) fuel
    ⟨views, views.feeOrder.head?.map FeeQueueEntry.key, false, 0, 0, caller⟩

def runQueueAcceptWithCallState :
    Option (Except Panic (QueueAcceptWithMetricsResult Account × Queue Account Tx)) :=
  (runQueueAcceptStage fuel views metrics callState ownerState.currentOrder apply caller).map
    fun outcome => do
      let stage ← outcome
      finalizeQueueAcceptOwnerResult stage.2.views metrics ownerState.parentHashComp
        callState.nextParentHashComp stage.1

structure PreparedQueueAcceptCall (Account : Type) where
  preparedApply : PreparedQueueAcceptApply Account
  metricsSnapshot : QueueFeeMetricsSnapshot
  callState : QueueAcceptCallState
  previousParentHashComp : Uint256
  ledgerChanged : Bool
  processedCandidates : ℕ
  appliedCount : ℕ

inductive QueueAcceptPreparedCallStep (Account : Type)
  | complete (result : QueueAcceptWithMetricsResult Account)
  | ready (call : PreparedQueueAcceptCall Account)

/-- The locals of the loop that looks for the next transaction to try. -/
structure ContinueState (Account : Type) where
  ledgerChanged : Bool
  processedCandidates : ℕ
  current : Option (FeeQueueKey Account)

def continueRound (previousParentHashComp : Uint256) (appliedCount : ℕ)
    (s : ContinueState Account) :
    Except Panic (ContinueState Account ⊕ QueueAcceptPreparedCallStep Account × Queue Account Tx) :=
  let finalize (stage : QueueAcceptStageResult Account) := do
    let result ← finalizeQueueAcceptOwnerResult views metrics previousParentHashComp
      callState.nextParentHashComp stage
    pure (.inr (.complete result.1, result.2))
  match s.current with
  | none => finalize ⟨s.ledgerChanged, s.processedCandidates, none⟩
  | some candidateKey => do
    let requiredFeeLevel ← requiredAfter metrics callState appliedCount
    let queueNearlyFull := queueAcceptIsNearlyFull views.feeOrder.length callState.currentMaxSize
    let prepared ← prepareQueueAcceptIteration views candidateKey requiredFeeLevel queueNearlyFull
      ⟨previousParentHashComp⟩
    match prepared with
    | .complete iteration =>
      let ledgerChanged := s.ledgerChanged || iteration.ledgerChanged
      match iteration.stopCandidate with
      | some stop => finalize ⟨ledgerChanged, s.processedCandidates + 1, some stop.key⟩
      | none => pure (.inl ⟨ledgerChanged, s.processedCandidates + 1, iteration.nextCandidate⟩)
    | .ready preparedApply =>
      pure (.inr (.ready ⟨preparedApply, metrics, callState, previousParentHashComp,
        s.ledgerChanged, s.processedCandidates + 1, appliedCount⟩, views))

def continueQueueAcceptWithCallState
    (previousParentHashComp : Uint256) (ledgerChanged : Bool) (processedCandidates appliedCount : ℕ)
    (current : Option (FeeQueueKey Account)) :
    Option (Except Panic (QueueAcceptPreparedCallStep Account × Queue Account Tx)) :=
  Loop.run (fun s => some (continueRound views metrics callState previousParentHashComp
    appliedCount s)) fuel ⟨ledgerChanged, processedCandidates, current⟩

def prepareQueueAcceptWithCallState :
    Option (Except Panic (QueueAcceptPreparedCallStep Account × Queue Account Tx)) :=
  continueQueueAcceptWithCallState fuel views metrics callState ownerState.parentHashComp
    false 0 0 (views.feeOrder.head?.map FeeQueueEntry.key)

def resumePreparedQueueAcceptWithCallState (call : PreparedQueueAcceptCall Account)
    (applyResult : ApplyResult) :
    Option (Except Panic (QueueAcceptPreparedCallStep Account × Queue Account Tx)) :=
  match finalizePreparedQueueAcceptApply views call.preparedApply applyResult with
  | .error panic => some (.error panic)
  | .ok final =>
    let iteration := final.1
    let applied := if iteration.ledgerChanged then 1 else 0
    continueQueueAcceptWithCallState fuel final.2 call.metricsSnapshot call.callState
      call.previousParentHashComp (call.ledgerChanged || iteration.ledgerChanged)
      call.processedCandidates (saturatingAdd call.appliedCount applied) iteration.nextCandidate

def runPreparedQueueAcceptCall (call : PreparedQueueAcceptCall Account)
    (apply : ApplyFn Account Tx σ) (caller : σ) :
    Option (Except Panic ((QueueAcceptPreparedCallStep Account × Queue Account Tx) × σ)) :=
  match updatePayload views call.preparedApply.candidate.key "quaxar::TxQ::accept : account found"
    "quaxar::TxQ::accept : candidate found in account" (apply caller) with
  | .error panic => some (.error panic)
  | .ok outcome =>
    (resumePreparedQueueAcceptWithCallState fuel outcome.2 call outcome.1.1).map fun step =>
      step.map fun step => (step, outcome.1.2)

/-- One round of the caller's loop. -/
def callerRound (s : (QueueAcceptPreparedCallStep Account × Queue Account Tx) × σ) :
    Option (Except Panic (((QueueAcceptPreparedCallStep Account × Queue Account Tx) × σ) ⊕
      (QueueAcceptWithMetricsResult Account × Queue Account Tx) × σ)) :=
  match s.1.1 with
  | .complete result => some (.ok (.inr ((result, s.1.2), s.2)))
  | .ready call => (runPreparedQueueAcceptCall fuel s.1.2 call apply s.2).map fun step =>
      step.map .inl

def runQueueAcceptWithCallerPreparedApply :
    Option (Except Panic ((QueueAcceptWithMetricsResult Account × Queue Account Tx) × σ)) :=
  match prepareQueueAcceptWithCallState fuel views metrics ownerState callState with
  | none => none
  | some (.error panic) => some (.error panic)
  | some (.ok step) => Loop.run (callerRound fuel apply) fuel (step, caller)

end Quaxar.TxQ
