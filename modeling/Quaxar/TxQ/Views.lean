import Quaxar.Basics.BaseUInt
import Quaxar.Lib.Except
import Quaxar.Protocol.SeqProxy
import Quaxar.Protocol.Ter

/-!
# The transaction queue and its two views

A queued transaction stands in the map of its account, under its sequence proxy, and in one
list of all queued transactions, in the order in which they are tried. `QueueViews` holds both.
Its operations look an entry up in one view and change the other with it. Where the source
asserts that the views agree, the model fails with the text of the assertion.
-/

namespace Quaxar.TxQ

open Protocol (SeqProxy Ter)
open Std (ExtTreeMap)

/-- What stops the program. -/
inductive Panic
  | assertion (message : String)
  | divideByZero
deriving DecidableEq

def expect {α : Type} (message : String) : Option α → Except Panic α
  | some a => .ok a
  | none => .error (.assertion message)

def ensure (message : String) (condition : Bool) : Except Panic Unit :=
  if condition then .ok () else .error (.assertion message)

abbrev FeeLevel64 := ℕ

def FeeLevel64.max : FeeLevel64 := 2 ^ 64 - 1

/-- Ties between fee levels are broken by a hash that changes with every ledger. -/
structure OrderCandidates where
  parentHashComp : Uint256
deriving DecidableEq

def OrderCandidates.comparesByFeeAndTxId (order : OrderCandidates) (lhsFeeLevel : FeeLevel64)
    (lhsTxId : Uint256) (rhsFeeLevel : FeeLevel64) (rhsTxId : Uint256) : Bool :=
  if lhsFeeLevel = rhsFeeLevel then
    decide (lhsTxId.xor order.parentHashComp < rhsTxId.xor order.parentHashComp)
  else decide (lhsFeeLevel > rhsFeeLevel)

structure TxConsequences where
  isBlocker : Bool
  feeDrops : ℕ
  potentialSpendDrops : ℕ
  seqProxy : SeqProxy
  sequencesConsumed : ℕ
deriving DecidableEq

structure MaybeTxCore (T : Type) where
  payload : T
  consequences : TxConsequences

/-- The queue of one account. -/
structure TxQAccount (Account T : Type) where
  account : Account
  transactions : ExtTreeMap SeqProxy (MaybeTxCore T)
  retryPenalty : Bool
  dropPenalty : Bool

structure FeeQueueKey (Account : Type) where
  account : Account
  seqProxy : SeqProxy
deriving DecidableEq

instance FeeQueueKey.instLawfulBEq {Account : Type} [LinearOrder Account] :
    LawfulBEq (FeeQueueKey Account) :=
  inferInstance

structure QueueAdvanceCandidate where
  feeLevel : FeeLevel64
  txId : Uint256
  seqProxy : SeqProxy
deriving DecidableEq

structure FeeQueueEntry (Account : Type) where
  key : FeeQueueKey Account
  candidate : QueueAdvanceCandidate
deriving DecidableEq

inductive QueueViewNext (Account : Type)
  | finish
  | feeNext (key : FeeQueueKey Account)
  | accountNext (key : FeeQueueKey Account)
deriving DecidableEq

structure QueueEraseAdvanceResult (Account : Type) where
  removed : FeeQueueKey Account
  next : QueueViewNext Account

structure QueueViews (Account T : Type) [LinearOrder Account] where
  feeOrder : List (FeeQueueEntry Account)
  accounts : ExtTreeMap Account (TxQAccount Account T)

namespace TxQAccount

variable {Account T : Type}

def new (account : Account) : TxQAccount Account T := ⟨account, ∅, false, false⟩

def empty (queue : TxQAccount Account T) : Bool := queue.transactions.isEmpty

def add (queue : TxQAccount Account T) (seqProxy : SeqProxy) (txn : MaybeTxCore T) :
    Except Panic (TxQAccount Account T) := do
  ensure "xrpl::TxQ::TxQAccount::add : emplace succeeded" queue.transactions[seqProxy]?.isNone
  pure { queue with transactions := queue.transactions.insert seqProxy txn }

/-- Whether there was such a transaction, and the queue without it. -/
def remove (queue : TxQAccount Account T) (seqProxy : SeqProxy) : Bool × TxQAccount Account T :=
  (queue.transactions[seqProxy]?.isSome,
    { queue with transactions := queue.transactions.erase seqProxy })

end TxQAccount

inductive AdvanceTarget
  | finish
  | feeNext (candidate : QueueAdvanceCandidate)
  | accountNext (candidate : QueueAdvanceCandidate)

/-- After an erased transaction comes the next one of its account, if that goes before the next
one in the order of fees. -/
def chooseNextAfterErase (current : QueueAdvanceCandidate) (currentIsFirstForAccount : Bool)
    (accountNext feeNext : Option QueueAdvanceCandidate) (order : OrderCandidates) :
    Except Panic AdvanceTarget := do
  ensure "xrpl::TxQ::eraseAndAdvance : ticket or sequence"
    (current.seqProxy.isTicket || currentIsFirstForAccount)
  let byFee := match feeNext with
    | some candidate => AdvanceTarget.feeNext candidate
    | none => .finish
  match accountNext with
  | none => pure byFee
  | some candidate =>
    let precedes := match feeNext with
      | none => true
      | some next => order.comparesByFeeAndTxId candidate.feeLevel candidate.txId next.feeLevel
          next.txId
    pure (if decide (current.seqProxy < candidate.seqProxy) && precedes then
      .accountNext candidate else byFee)

namespace QueueViews

variable {Account T : Type} [LinearOrder Account] (views : QueueViews Account T)
  (target : FeeQueueKey Account)

/-- The queued transaction under a key. -/
def find (key : FeeQueueKey Account) : Option (MaybeTxCore T) :=
  views.accounts[key.account]?.bind fun queue => queue.transactions[key.seqProxy]?

def findFeeCandidateIndex : Option ℕ :=
  views.feeOrder.findIdx? fun entry => decide (entry.key = target)

def nextFeeCandidateKey : Option (FeeQueueKey Account) :=
  (views.findFeeCandidateIndex target).bind fun index =>
    views.feeOrder[index + 1]?.map FeeQueueEntry.key

/-- Take a transaction out of the queue of its account. -/
def removeQueued (key : FeeQueueKey Account)
    (accountFound removed : String) : Except Panic (QueueViews Account T) := do
  let queue ← expect accountFound views.accounts[key.account]?
  ensure removed (queue.remove key.seqProxy).1
  pure { views with accounts := views.accounts.insert key.account (queue.remove key.seqProxy).2 }

def removeFeeCandidateByKey : Except Panic (FeeQueueKey Account × QueueViews Account T) := do
  let deleteIndex ← expect "xrpl::TxQ::erase : candidate found in byFee"
    (views.findFeeCandidateIndex target)
  let views ← views.removeQueued target "xrpl::TxQ::erase : account found"
    "xrpl::TxQ::erase : account removed"
  let entry ← expect "xrpl::TxQ::erase : candidate found in byFee" views.feeOrder[deleteIndex]?
  pure (entry.key, { views with feeOrder := views.feeOrder.eraseIdx deleteIndex })

/-- In front of the first entry that the new one precedes. -/
def insertFeeEntry (entry : FeeQueueEntry Account)
    (order : OrderCandidates) : QueueViews Account T :=
  let insertIndex := views.feeOrder.findIdx fun existing =>
    order.comparesByFeeAndTxId entry.candidate.feeLevel entry.candidate.txId
      existing.candidate.feeLevel existing.candidate.txId
  { views with feeOrder := views.feeOrder.insertIdx insertIndex entry }

/-- The entry of the next transaction of the same account. -/
def accountNextEntry (queue : TxQAccount Account T)
    (current : FeeQueueKey Account) : Except Panic (Option (FeeQueueEntry Account)) :=
  match queue.transactions.keys.find? (current.seqProxy < ·) with
  | none => pure none
  | some seqProxy =>
    some <$> expect "xrpl::TxQ::eraseAndAdvance : account next found in byFee"
      (views.feeOrder.find? fun entry => decide (entry.key = ⟨current.account, seqProxy⟩))

/-- The key of the target. -/
def advanceKey (target : AdvanceTarget) (accountNext feeNext : Option (FeeQueueEntry Account)) :
    Except Panic (QueueViewNext Account) :=
  match target with
  | .finish => pure .finish
  | .feeNext _ => do
    let entry ← expect "fee-next target must exist" feeNext
    pure (.feeNext entry.key)
  | .accountNext _ => do
    let entry ← expect "account-next target must exist" accountNext
    pure (.accountNext entry.key)

def eraseAndAdvance (views : QueueViews Account T) (candidateIndex : ℕ) (order : OrderCandidates) :
    Except Panic (QueueEraseAdvanceResult Account × QueueViews Account T) := do
  let currentEntry ← expect "xrpl::TxQ::eraseAndAdvance : found in byFee"
    views.feeOrder[candidateIndex]?
  let txqAccount ← expect "xrpl::TxQ::eraseAndAdvance : account found"
    views.accounts[currentEntry.key.account]?
  let currentIsFirstForAccount :=
    decide (txqAccount.transactions.keys.head? = some currentEntry.key.seqProxy)
  let accountNext ← views.accountNextEntry txqAccount currentEntry.key
  let feeNext := views.feeOrder[candidateIndex + 1]?
  let target ← chooseNextAfterErase currentEntry.candidate currentIsFirstForAccount
    (accountNext.map FeeQueueEntry.candidate) (feeNext.map FeeQueueEntry.candidate) order
  let next ← advanceKey target accountNext feeNext
  let views ← { views with feeOrder := views.feeOrder.eraseIdx candidateIndex }.removeQueued
    currentEntry.key "xrpl::TxQ::eraseAndAdvance : account found"
    "xrpl::TxQ::eraseAndAdvance : account found"
  pure (⟨currentEntry.key, next⟩, views)

def removeReplacedCandidate (replaced : Option (FeeQueueKey Account))
    (expectedAccount : Account) (expectedSeqProxy : SeqProxy) :
    Except Panic (Option (FeeQueueKey Account) × QueueViews Account T) :=
  match replaced with
  | none => pure (none, views)
  | some replaced => do
    let deleteIndex ← expect "xrpl::TxQ::removeFromByFee : found in byFee"
      (views.findFeeCandidateIndex replaced)
    ensure "xrpl::TxQ::removeFromByFee : matching sequence"
      (decide (replaced.seqProxy = expectedSeqProxy))
    ensure "xrpl::TxQ::removeFromByFee : matching account"
      (decide (replaced.account = expectedAccount))
    let views ← views.removeQueued replaced "xrpl::TxQ::removeFromByFee : matching transaction"
      "xrpl::TxQ::removeFromByFee : matching transaction"
    let entry ← expect "xrpl::TxQ::removeFromByFee : found in byFee" views.feeOrder[deleteIndex]?
    pure (some entry.key, { views with feeOrder := views.feeOrder.eraseIdx deleteIndex })

def cleanupDirectApplySuccess (appliedAccount : Account) (appliedSeqProxy : SeqProxy) :
    Except Panic (Option (FeeQueueKey Account) × QueueViews Account T) :=
  let replaced := views.accounts[appliedAccount]?.bind fun accountQueue =>
    if accountQueue.transactions[appliedSeqProxy]?.isSome then
      some ⟨appliedAccount, appliedSeqProxy⟩ else none
  views.removeReplacedCandidate replaced appliedAccount appliedSeqProxy

end QueueViews

end Quaxar.TxQ
