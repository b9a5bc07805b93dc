import Quaxar.TxQ.AcceptTrace

/-!
# Every run of the queue

An operation is one of the calls that change the queue, with all its inputs. The main results
are that both views agree after every run from the empty queue, where no assertion can fail,
and that `accept` ends and treats the transactions fairly.
-/

namespace Quaxar.TxQ

open Protocol (SeqProxy Ter)

variable {Account Tx : Type} [LinearOrder Account]

/-- The queue and the mask of its order. -/
structure LiveOwner (Account Tx : Type) [LinearOrder Account] where
  views : Queue Account Tx
  ownerState : QueueAcceptOwnerState

inductive Op (Account Tx : Type) : Type 1
  | enqueue (replaced : Option (FeeQueueKey Account)) (account : Account) (txId : Uint256)
      (lastValid : Option ℕ) (seqProxy : SeqProxy) (feeLevel : FeeLevel64) (flags : ApplyFlags)
      (pfResult : PreflightResult Tx)
  | makeRoom (replacesExisting queueIsFull : Bool) (account : Account) (feeLevel : FeeLevel64)
  | directApplied (account : Account) (seqProxy : SeqProxy)
  | tryClear (account : Account) (attempts : List (SeqProxy × ApplyResult))
      (removed : List SeqProxy)
  | accept {σ : Type} (metrics : QueueFeeMetricsSnapshot)
      (callState : QueueAcceptCallState) (apply : ApplyFn Account Tx σ) (caller : σ)
  | acceptPrepared {σ : Type} (metrics : QueueFeeMetricsSnapshot)
      (callState : QueueAcceptCallState) (apply : ApplyFn Account Tx σ) (caller : σ)
  | closeLedger (ledgerSeq currentMaxSize : ℕ) (timeLeap : Bool)
      (txnsExpected ledgersInQueue queueSizeMin : ℕ)

/-- A transaction that replaces none has a new key, and one that replaces another has its key. -/
def Op.Permitted (q : LiveOwner Account Tx) : Op Account Tx → Prop
  | .enqueue replaced account _ _ seqProxy _ _ _ =>
    replaced = none ∧ q.views.find ⟨account, seqProxy⟩ = none ∨
      replaced = some ⟨account, seqProxy⟩ ∧ (q.views.find ⟨account, seqProxy⟩).isSome = true
  | _ => True

def Op.run (fuel : ℕ) (q : LiveOwner Account Tx) :
    Op Account Tx → Option (Except Panic (LiveOwner Account Tx))
  | .enqueue replaced account txId lastValid seqProxy feeLevel flags pfResult =>
    some ((enqueueQueueApplyCandidate q.views replaced account txId lastValid seqProxy feeLevel
      flags pfResult q.ownerState.currentOrder).map fun result => ⟨result.2, q.ownerState⟩)
  | .makeRoom replacesExisting queueIsFull account feeLevel =>
    some (((evaluateQueueApplyFullQueue replacesExisting queueIsFull account feeLevel q.views).bind
      (applyQueueApplyFullQueueDecision q.views)).map fun result => ⟨result.2, q.ownerState⟩)
  | .directApplied account seqProxy =>
    some ((q.views.cleanupDirectApplySuccess account seqProxy).map fun result =>
      ⟨result.2, q.ownerState⟩)
  | .tryClear account attempts removed =>
    some (.ok ⟨applyTryClearEffects q.views account attempts removed, q.ownerState⟩)
  | .accept metrics callState apply caller =>
    (runQueueAcceptWithCallState fuel q.views metrics q.ownerState callState apply
      caller).map fun out => out.map fun result => ⟨result.2, result.1.ownerState⟩
  | .acceptPrepared metrics callState apply caller =>
    (runQueueAcceptWithCallerPreparedApply fuel q.views metrics q.ownerState callState apply
      caller).map fun out => out.map fun result => ⟨result.1.2, result.1.1.ownerState⟩
  | .closeLedger ledgerSeq currentMaxSize timeLeap txnsExpected ledgersInQueue queueSizeMin =>
    some ((processClosedLedger q.views ledgerSeq currentMaxSize timeLeap txnsExpected ledgersInQueue
      queueSizeMin).map fun result => ⟨result.2, q.ownerState⟩)

/-- What permitted operations make of the empty queue. -/
inductive Reachable : LiveOwner Account Tx → Prop
  | empty (ownerState : QueueAcceptOwnerState) : Reachable ⟨⟨[], ∅⟩, ownerState⟩
  | step {q q' : LiveOwner Account Tx} {op : Op Account Tx} (hq : Reachable q)
      (hop : op.Permitted q)
      (hrun : Loop.Returns (fun fuel => op.run fuel q) (.ok q')) : Reachable q'

variable {q : LiveOwner Account Tx}

theorem Op.run_returns (h : Agrees q.ownerState.currentOrder q.views) {op : Op Account Tx}
    (hop : op.Permitted q) :
    ∃ out, Loop.Returns (fun fuel => op.run fuel q) out ∧
      (out = .error .divideByZero ∨
        ∃ q', out = .ok q' ∧ Agrees q'.ownerState.currentOrder q'.views) := by
  cases op with
  | enqueue replaced account txId lastValid seqProxy feeLevel flags pfResult =>
    obtain ⟨result, views', hok, hagrees⟩ := enqueueQueueApplyCandidate_ok h hop txId lastValid
      feeLevel flags pfResult
    refine ⟨_, Loop.returns_some _, .inr ⟨⟨views', q.ownerState⟩, ?_, hagrees⟩⟩
    rw [hok]
    rfl
  | makeRoom replacesExisting queueIsFull account feeLevel =>
    obtain ⟨decision, hdecision, hdropped⟩ := evaluateQueueApplyFullQueue_ok h.toKeyed
      replacesExisting queueIsFull account feeLevel
    obtain ⟨views', hok, hagrees⟩ := applyQueueApplyFullQueueDecision_ok h hdropped
    refine ⟨_, Loop.returns_some _, .inr ⟨⟨views', q.ownerState⟩, ?_, hagrees⟩⟩
    rw [hdecision, Except.bind, hok]
    rfl
  | directApplied account seqProxy =>
    obtain ⟨removed, views', hok, hagrees⟩ := cleanupDirectApplySuccess_ok h account seqProxy
    refine ⟨_, Loop.returns_some _, .inr ⟨⟨views', q.ownerState⟩, ?_, hagrees⟩⟩
    rw [hok]
    rfl
  | tryClear account attempts removed =>
    exact ⟨_, Loop.returns_some _, .inr ⟨_, rfl,
      h.becomes (becomes_applyTryClearEffects q.views account attempts removed)⟩⟩
  | accept metrics callState apply caller =>
    obtain ⟨out, hreturns, hout⟩ := runQueueAcceptWithCallState_returns h.toKeyed metrics
      q.ownerState callState apply caller
    refine ⟨_, hreturns.map _, ?_⟩
    rcases hout with rfl | ⟨result, views', rfl, hagrees⟩
    · exact .inl rfl
    · exact .inr ⟨_, rfl, hagrees⟩
  | acceptPrepared metrics callState apply caller =>
    obtain ⟨out, hreturns, hout⟩ := runQueueAcceptWithCallerPreparedApply_returns h.toKeyed
      metrics q.ownerState callState apply caller
    refine ⟨_, hreturns.map _, ?_⟩
    rcases hout with ⟨rfl, -⟩ | ⟨result, views', caller', log, rfl, hagrees, -⟩
    · exact .inl rfl
    · exact .inr ⟨_, rfl, hagrees⟩
  | closeLedger ledgerSeq currentMaxSize timeLeap txnsExpected ledgersInQueue queueSizeMin =>
    obtain ⟨result, views', hok, hagrees⟩ := processClosedLedger_ok h ledgerSeq currentMaxSize
      timeLeap txnsExpected ledgersInQueue queueSizeMin
    refine ⟨_, Loop.returns_some _, .inr ⟨⟨views', q.ownerState⟩, ?_, hagrees⟩⟩
    rw [hok]
    rfl

theorem Reachable.agrees (h : Reachable q) : Agrees q.ownerState.currentOrder q.views := by
  induction h with
  | empty ownerState => exact agrees_empty _
  | step hq hop hrun ih =>
    obtain ⟨out, hreturns, hout⟩ := Op.run_returns ih hop
    have heq := hrun.unique hreturns
    rcases hout with rfl | ⟨q', rfl, hagrees⟩
    · cases heq
    · cases heq
      exact hagrees

/-- After every run the two views agree and the order is sorted, and the next operation ends
without a failed assertion. -/
theorem views_agree {q : LiveOwner Account Tx} (h : Reachable q) :
    Agrees q.ownerState.currentOrder q.views ∧
      ∀ op : Op Account Tx, op.Permitted q →
        ∃ out, Loop.Returns (fun fuel => op.run fuel q) out ∧
          ∀ message, out ≠ .error (.assertion message) := by
  refine ⟨h.agrees, fun op hop => ?_⟩
  obtain ⟨out, hreturns, hout⟩ := Op.run_returns h.agrees hop
  refine ⟨out, hreturns, fun message heq => ?_⟩
  rcases hout with rfl | ⟨q', rfl, -⟩
  · cases heq
  · cases heq

def sampleEnqueue (account seq : ℕ) (feeLevel : FeeLevel64) : Op ℕ Unit :=
  .enqueue none account .zero none (SeqProxy.sequence seq) feeLevel 0
    ⟨(), ⟨false, 10, 0, SeqProxy.sequence seq, 1⟩⟩

def enqueued (q : LiveOwner ℕ Unit) (op : Op ℕ Unit) : LiveOwner ℕ Unit :=
  match op.run 0 q with
  | some (.ok q') => q'
  | _ => q

/-- One transaction in the queue of account 7. -/
def oneQueued : LiveOwner ℕ Unit := enqueued ⟨⟨[], ∅⟩, ⟨.zero⟩⟩ (sampleEnqueue 7 1 300)

/-- Two transactions of account 7 and one of account 8. -/
def threeQueued : LiveOwner ℕ Unit :=
  enqueued (enqueued oneQueued (sampleEnqueue 8 1 400)) (sampleEnqueue 7 2 500)

theorem reachable_enqueued {q : LiveOwner ℕ Unit} (hq : Reachable q) (account seq : ℕ)
    (feeLevel : FeeLevel64) (hnew : q.views.find ⟨account, SeqProxy.sequence seq⟩ = none) :
    Reachable (enqueued q (sampleEnqueue account seq feeLevel)) := by
  have hop : (sampleEnqueue account seq feeLevel).Permitted q := .inl ⟨rfl, hnew⟩
  obtain ⟨result, views', hok, -⟩ := enqueueQueueApplyCandidate_ok hq.agrees hop .zero none
    feeLevel 0 ⟨(), ⟨false, 10, 0, SeqProxy.sequence seq, 1⟩⟩
  have hrun : ∀ fuel, (sampleEnqueue account seq feeLevel).run fuel q =
      some (.ok ⟨views', q.ownerState⟩) := by
    intro fuel
    rw [sampleEnqueue, Op.run, hok]
    rfl
  rw [enqueued, hrun]
  exact hq.step hop ⟨0, fun fuel _ => hrun fuel⟩

theorem reachable_oneQueued : Reachable oneQueued := reachable_enqueued (.empty _) 7 1 300 rfl

theorem reachable_threeQueued : Reachable threeQueued :=
  reachable_enqueued (reachable_enqueued reachable_oneQueued 8 1 400 rfl) 7 2 500 rfl

theorem views_agree_threeQueued : Agrees ⟨.zero⟩ threeQueued.views ∧
    ∃ out, Loop.Returns (fun fuel => Op.run fuel threeQueued
      (.directApplied 7 (SeqProxy.sequence 1))) out ∧
        ∀ message, out ≠ .error (.assertion message) :=
  ⟨(views_agree reachable_threeQueued).1, (views_agree reachable_threeQueued).2 _ trivial⟩

/-- `accept` ends whatever the caller answers, and the attempts of every call are fair. -/
theorem runQueueAcceptWithCallerPreparedApply_fair {views : Queue Account Tx} (h : Keyed views)
    (metrics : QueueFeeMetricsSnapshot) (hexpected : 0 < metrics.txnsExpected)
    (ownerState : QueueAcceptOwnerState) (callState : QueueAcceptCallState) :
    (∀ {σ : Type} (apply : ApplyFn Account Tx σ) (caller : σ), ∃ result views' caller' log,
      Loop.Returns (fun fuel => runQueueAcceptWithCallerPreparedApply fuel views metrics
        ownerState callState apply caller) (.ok ((result, views'), caller')) ∧
      Accepts metrics ownerState callState views log (.complete result, views')) ∧
    ∀ log step, Accepts metrics ownerState callState views log step →
      Fair metrics callState views log step.2 := by
  refine ⟨fun apply caller => ?_, fun log step hlog => (hlog.fair h).2⟩
  obtain ⟨out, hreturns, hout⟩ := runQueueAcceptWithCallerPreparedApply_returns h metrics
    ownerState callState apply caller
  rcases hout with ⟨-, hzero⟩ | ⟨result, views', caller', log, rfl, -, hlog⟩
  · omega
  · exact ⟨result, views', caller', log, hreturns, hlog⟩

theorem runQueueAcceptWithCallerPreparedApply_fair_threeQueued : ∃ result views' caller' log,
    Loop.Returns (fun fuel => runQueueAcceptWithCallerPreparedApply fuel threeQueued.views
      ⟨32, 128000⟩ ⟨.zero⟩ ⟨40, some 100, .zero⟩
      (fun tried queued => ((⟨Ter.tesSuccess, true, true⟩, tried + 1), queued)) 0)
        (.ok ((result, views'), caller')) ∧
    Fair ⟨32, 128000⟩ ⟨40, some 100, .zero⟩ threeQueued.views log views' := by
  obtain ⟨hends, hfair⟩ := runQueueAcceptWithCallerPreparedApply_fair
    reachable_threeQueued.agrees.toKeyed ⟨32, 128000⟩ (by decide) ⟨.zero⟩
    ⟨40, some 100, .zero⟩
  obtain ⟨result, views', caller', log, hreturns, hlog⟩ := hends _ 0
  exact ⟨result, views', caller', log, hreturns, hfair log _ hlog⟩

/-- Where no transaction is expected, the first candidate stops the program. -/
theorem runQueueAcceptWithCallerPreparedApply_divideByZero {σ : Type} {views : Queue Account Tx}
    (hviews : views.feeOrder ≠ []) {metrics : QueueFeeMetricsSnapshot}
    (hexpected : metrics.txnsExpected = 0) (ownerState : QueueAcceptOwnerState)
    {callState : QueueAcceptCallState} (hopen : 0 < callState.openLedgerTxCount)
    (apply : ApplyFn Account Tx σ) (caller : σ) :
    Loop.Returns (fun fuel => runQueueAcceptWithCallerPreparedApply fuel views metrics
      ownerState callState apply caller) (.error .divideByZero) := by
  obtain ⟨entry, rest, hfeeOrder⟩ := List.exists_cons_of_ne_nil hviews
  have hrequired : requiredAfter metrics callState 0 = .error .divideByZero := by
    have hcount : ¬ saturatingAdd callState.openLedgerTxCount 0 ≤ 0 := by
      rw [saturatingAdd]
      omega
    rw [requiredAfter, evaluateRequiredFeeLevel, scaleFeeLevel, hexpected, if_neg hcount]
    rfl
  refine ⟨1, fun fuel hfuel => ?_⟩
  obtain ⟨k, rfl⟩ : ∃ k, fuel = k + 1 := ⟨fuel - 1, by omega⟩
  have hround : continueRound views metrics callState ownerState.parentHashComp 0
      ⟨false, 0, some entry.key⟩ = .error .divideByZero := by
    rw [continueRound]
    dsimp only
    rw [hrequired]
    rfl
  have hprepare : prepareQueueAcceptWithCallState (k + 1) views metrics ownerState
      callState = some (.error .divideByZero) := by
    rw [prepareQueueAcceptWithCallState, continueQueueAcceptWithCallState, hfeeOrder]
    have hout : some (continueRound views metrics callState ownerState.parentHashComp 0
        ⟨false, 0, some entry.key⟩) = some (Except.map .inr (.error Panic.divideByZero)) :=
      congrArg some hround
    exact Loop.run_succ_out hout
  dsimp only
  rw [runQueueAcceptWithCallerPreparedApply, hprepare]

theorem runQueueAcceptWithCallerPreparedApply_panics : Keyed oneQueued.views ∧
    Loop.Returns (fun fuel => runQueueAcceptWithCallerPreparedApply fuel oneQueued.views ⟨0, 128000⟩
      ⟨.zero⟩ ⟨1, none, .zero⟩
        (fun _ queued => ((⟨Ter.tesSuccess, true, true⟩, ()), queued)) ())
      (.error .divideByZero) :=
  ⟨reachable_oneQueued.agrees.toKeyed,
    runQueueAcceptWithCallerPreparedApply_divideByZero (by decide) rfl _ (by decide) _ _⟩

end Quaxar.TxQ
