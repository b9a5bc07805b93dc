import Quaxar.TxQ.LedgerClose

/-!
# The two loops of `accept`

Whatever the callback does to the transactions it tries, the views stay keyed from round to
round, every round leaves less to visit, and the order is rebuilt from the accounts at the end.
The only way to fail is the division in the fee level, where no transaction is expected.
-/

namespace Quaxar.TxQ

open Protocol (SeqProxy Ter)
open Except (ok_bind)

variable {Account Tx σ : Type} [LinearOrder Account]

/-- Nothing is known of a transaction that a callback has seen. -/
def unseen : MaybeTxCore (MaybeTx Account Tx) → Unit := fun _ => ()

theorem scaleFeeLevel_cases (snapshot : QueueFeeMetricsSnapshot) (count : ℕ) :
    scaleFeeLevel snapshot count = .error .divideByZero ∧ snapshot.txnsExpected = 0 ∨
      ∃ level, scaleFeeLevel snapshot count = .ok level := by
  rw [scaleFeeLevel]
  by_cases hcount : count ≤ snapshot.txnsExpected
  · rw [if_pos hcount]
    exact .inr ⟨_, rfl⟩
  rw [if_neg hcount, mulDiv]
  by_cases hzero : saturatingMul snapshot.txnsExpected snapshot.txnsExpected = 0
  · rw [if_pos hzero]
    refine .inl ⟨rfl, ?_⟩
    simpa [saturatingMul] using hzero
  · rw [if_neg hzero]
    exact .inr ⟨_, rfl⟩

theorem requiredAfter_cases (metrics : QueueFeeMetricsSnapshot)
    (callState : QueueAcceptCallState) (appliedCount : ℕ) :
    requiredAfter metrics callState appliedCount = .error .divideByZero ∧
        metrics.txnsExpected = 0 ∨
      ∃ level, requiredAfter metrics callState appliedCount = .ok level :=
  scaleFeeLevel_cases _ _

variable {views : Queue Account Tx} {key : FeeQueueKey Account}

omit [LinearOrder Account] in
theorem stable_unseen : Stable (unseen : MaybeTxCore (MaybeTx Account Tx) → Unit) :=
  fun _ _ _ => rfl

theorem runQueueAcceptIteration_ok (hkeyed : Keyed views) (h : (views.find key).isSome = true)
    (required : FeeLevel64) (nearlyFull : Bool) (order : OrderCandidates)
    (apply : ApplyFn Account Tx σ) (caller : σ) :
    ∃ iteration caller' views', runQueueAcceptIteration views key required nearlyFull order apply
        caller = .ok ((iteration, caller'), views') ∧ Round unseen views key iteration views' := by
  rw [runQueueAcceptIteration]
  rcases prepareQueueAcceptIteration_ok hkeyed h required nearlyFull order with
    ⟨candidate, hskip⟩ | ⟨candidate, hstop⟩ | ⟨prepared, hready, hprepared⟩
  · rw [hskip]
    exact ⟨_, caller, views, rfl, round_skip hkeyed h candidate⟩
  · rw [hstop]
    exact ⟨_, caller, views, rfl, .refl views, by simp [QueueAcceptIteration.removed],
      by simp [QueueAcceptIteration.nextCandidate], by simp [QueueAcceptIteration.stopCandidate]⟩
  · obtain ⟨queued, hqueued, -, -⟩ := hprepared.queued
    rw [← hprepared.key_eq] at hqueued
    obtain ⟨views₁, hupdate, h₁⟩ := updatePayload_ok (π := unseen) hqueued
      "xrpl::TxQ::accept : account found" "xrpl::TxQ::accept : candidate found in account"
      (apply caller) rfl
    obtain ⟨iteration, views₂, hfinal, hfinalized⟩ := finalizePreparedQueueAcceptApply_ok
      stable_unseen hkeyed hprepared h₁ (apply caller queued.payload).1.1
    refine ⟨iteration, (apply caller queued.payload).1.2, views₂, ?_, hfinalized.round hprepared⟩
    rw [hready, ok_bind]
    dsimp only
    rw [runPreparedQueueAcceptApply, hupdate, ok_bind, hfinal]
    rfl

theorem finalizeQueueAcceptOwnerResult_ok (h : Keyed views)
    (metrics : QueueFeeMetricsSnapshot) (previous next : Uint256)
    (stage : QueueAcceptStageResult Account) :
    ∃ result views', finalizeQueueAcceptOwnerResult views metrics previous next stage =
        .ok (result, views') ∧ result.ownerState = ⟨next⟩ ∧ Agrees ⟨next⟩ views' ∧
      views'.accounts = views.accounts := by
  obtain ⟨rebuild, views', hrebuild, hagrees, haccounts⟩ :=
    rebuildQueueAcceptFeeOrder_ok h previous next
  refine ⟨⟨stage, rebuild, ⟨next⟩, metrics⟩, views', ?_, rfl, hagrees, haccounts⟩
  rw [finalizeQueueAcceptOwnerResult, hrebuild]
  rfl

/-- The views are keyed and the current key is queued. -/
structure AtQueued (views : Queue Account Tx) (current : Option (FeeQueueKey Account)) : Prop where
  keyed : Keyed views
  queued : ∀ key, current = some key → (views.find key).isSome = true

theorem Keyed.atQueued_head (h : Keyed views) :
    AtQueued views (views.feeOrder.head?.map FeeQueueEntry.key) where
  keyed := h
  queued key hkey := by
    obtain ⟨entry, hentry, rfl⟩ := Option.map_eq_some_iff.mp hkey
    exact (h.mem_iff entry.key).mp (List.mem_map_of_mem (List.mem_of_mem_head? hentry))

theorem stageRound_cases (metrics : QueueFeeMetricsSnapshot)
    (callState : QueueAcceptCallState) (order : OrderCandidates) (apply : ApplyFn Account Tx σ)
    (s : StageState Account Tx σ) (hs : AtQueued s.views s.current) :
    (∃ s', stageRound metrics callState order apply s = .ok (.inl s') ∧
      AtQueued s'.views s'.current ∧
      toVisit s'.views s'.current < toVisit s.views s.current) ∨
    ∃ out : Except Panic (QueueAcceptStageResult Account × StageState Account Tx σ),
      stageRound metrics callState order apply s = out.map .inr ∧
      (out = .error .divideByZero ∨ ∃ stage s', out = .ok (stage, s') ∧ Keyed s'.views) := by
  rw [stageRound]
  rcases hcurrent : s.current with _ | key
  · exact .inr ⟨.ok (_, s), rfl, .inr ⟨_, s, rfl, hs.keyed⟩⟩
  dsimp only
  have hkey := hs.queued key hcurrent
  rcases requiredAfter_cases metrics callState s.appliedCount with
    ⟨hzero, -⟩ | ⟨required, hrequired⟩
  · rw [hzero]
    exact .inr ⟨.error .divideByZero, rfl, .inl rfl⟩
  rw [hrequired, ok_bind]
  obtain ⟨iteration, caller', views', hrun, hround⟩ := runQueueAcceptIteration_ok hs.keyed hkey
    required (queueAcceptIsNearlyFull s.views.feeOrder.length callState.currentMaxSize) order
    (countApplied apply) (s.appliedCount, s.caller)
  rw [hrun, ok_bind]
  dsimp only
  have hkeyed' := hround.becomes.keyed hs.keyed
  rcases hstop : iteration.stopCandidate with _ | stop
  · exact .inl ⟨_, rfl, ⟨hkeyed', hround.next_queued⟩, hround.toVisit_lt hs.keyed hkey hstop⟩
  · exact .inr ⟨.ok (_, _), rfl, .inr ⟨_, _, rfl, hkeyed'⟩⟩

/-- The loop with a callback ends, and what it leaves is keyed. -/
theorem runQueueAcceptStage_returns (h : Keyed views) (metrics : QueueFeeMetricsSnapshot)
    (callState : QueueAcceptCallState) (order : OrderCandidates) (apply : ApplyFn Account Tx σ)
    (caller : σ) :
    ∃ out, Loop.Returns (fun fuel => runQueueAcceptStage fuel views metrics callState order
        apply caller) out ∧
      (out = .error .divideByZero ∨ ∃ stage s', out = .ok (stage, s') ∧ Keyed s'.views) := by
  obtain ⟨out, hout, hrun⟩ := Loop.total
    (fun _ s => some (stageRound metrics callState order apply s)) 0
    (fun s => toVisit s.views s.current) (fun s => AtQueued s.views s.current)
    _ (fun s hs => by
      rcases stageRound_cases metrics callState order apply s hs with
        ⟨s', hround, hnext⟩ | ⟨out, hround, hout⟩
      · exact .inl ⟨s', fun _ _ => congrArg some hround, hnext⟩
      · exact .inr ⟨out, fun _ _ => congrArg some hround, hout⟩)
    (s := ⟨views, views.feeOrder.head?.map FeeQueueEntry.key, false, 0, 0, caller⟩) h.atQueued_head
  exact ⟨out, ⟨_, fun fuel hfuel => hrun 0 le_rfl fuel hfuel⟩, hout⟩

theorem runQueueAcceptWithCallState_returns (h : Keyed views)
    (metrics : QueueFeeMetricsSnapshot) (ownerState : QueueAcceptOwnerState)
    (callState : QueueAcceptCallState) (apply : ApplyFn Account Tx σ) (caller : σ) :
    ∃ out, Loop.Returns (fun fuel => runQueueAcceptWithCallState fuel views metrics
        ownerState callState apply caller) out ∧
      (out = .error .divideByZero ∨ ∃ result views', out = .ok (result, views') ∧
        Agrees result.ownerState.currentOrder views') := by
  obtain ⟨out, hreturns, hout⟩ := runQueueAcceptStage_returns h metrics callState
    ownerState.currentOrder apply caller
  refine ⟨_, hreturns.map _, ?_⟩
  rcases hout with rfl | ⟨stage, s', rfl, hkeyed⟩
  · exact .inl rfl
  · obtain ⟨result, views', hresult, howner, hagrees, -⟩ := finalizeQueueAcceptOwnerResult_ok hkeyed
      metrics ownerState.parentHashComp callState.nextParentHashComp stage
    refine .inr ⟨result, views', hresult, ?_⟩
    rw [howner]
    exact hagrees

/-- What looking for the next transaction to try comes to. -/
inductive Continued (metrics : QueueFeeMetricsSnapshot) (callState : QueueAcceptCallState)
    (previous : Uint256) (appliedCount : ℕ) (views : Queue Account Tx)
    (current : Option (FeeQueueKey Account)) :
    QueueAcceptPreparedCallStep Account × Queue Account Tx → Prop
  | complete {result : QueueAcceptWithMetricsResult Account} {views' : Queue Account Tx}
      (hagrees : Agrees result.ownerState.currentOrder views')
      (haccounts : views'.accounts = views.accounts) :
      Continued metrics callState previous appliedCount views current
        (.complete result, views')
  | ready {call : PreparedQueueAcceptCall Account} {key : FeeQueueKey Account}
      {required : FeeLevel64}
      (hrequired : requiredAfter metrics callState appliedCount = .ok required)
      (hready : Ready views key required
        (queueAcceptIsNearlyFull views.feeOrder.length callState.currentMaxSize) ⟨previous⟩
        call.preparedApply)
      (hmetrics : call.metricsSnapshot = metrics) (hcallState : call.callState = callState)
      (hprevious : call.previousParentHashComp = previous)
      (hcount : call.appliedCount = appliedCount)
      (hvisit : toVisit views (some key) ≤ toVisit views current) :
      Continued metrics callState previous appliedCount views current (.ready call, views)

variable (metrics : QueueFeeMetricsSnapshot) (callState : QueueAcceptCallState)
  (previous : Uint256) (appliedCount : ℕ) {current : Option (FeeQueueKey Account)}

variable {metrics callState previous appliedCount} in
theorem Continued.mono {current' : Option (FeeQueueKey Account)}
    {step : QueueAcceptPreparedCallStep Account × Queue Account Tx}
    (hle : toVisit views current ≤ toVisit views current')
    (h : Continued metrics callState previous appliedCount views current step) :
    Continued metrics callState previous appliedCount views current' step := by
  cases h with
  | complete hagrees haccounts => exact .complete hagrees haccounts
  | ready hrequired hready hmetrics hcallState hprevious hcount hvisit =>
    exact .ready hrequired hready hmetrics hcallState hprevious hcount (hvisit.trans hle)

theorem continueRound_cases (hkeyed : Keyed views) (s : ContinueState Account)
    (hs : ∀ key, s.current = some key → (views.find key).isSome = true) :
    (∃ s', continueRound views metrics callState previous appliedCount s = .ok (.inl s') ∧
      (∀ key, s'.current = some key → (views.find key).isSome = true) ∧
      toVisit views s'.current < toVisit views s.current) ∨
    ∃ out : Except Panic (QueueAcceptPreparedCallStep Account × Queue Account Tx),
      continueRound views metrics callState previous appliedCount s = out.map .inr ∧
      ((out = .error .divideByZero ∧ metrics.txnsExpected = 0) ∨ ∃ step, out = .ok step ∧
        Continued metrics callState previous appliedCount views s.current step) := by
  have hfinish := fun stage => finalizeQueueAcceptOwnerResult_ok hkeyed metrics previous
    callState.nextParentHashComp stage
  rw [continueRound]
  rcases hcurrent : s.current with _ | key
  · obtain ⟨result, views', hresult, howner, hagrees, haccounts⟩ :=
      hfinish ⟨s.ledgerChanged, s.processedCandidates, none⟩
    dsimp only
    rw [hresult]
    exact .inr ⟨.ok (.complete result, views'), rfl,
      .inr ⟨_, rfl, .complete (howner ▸ hagrees) haccounts⟩⟩
  dsimp only
  have hkey := hs key hcurrent
  rcases requiredAfter_cases metrics callState appliedCount with
    ⟨hzero, hexpected⟩ | ⟨required, hrequired⟩
  · rw [hzero]
    exact .inr ⟨.error .divideByZero, rfl, .inl ⟨rfl, hexpected⟩⟩
  rw [hrequired, ok_bind]
  rcases prepareQueueAcceptIteration_ok hkeyed hkey required
    (queueAcceptIsNearlyFull views.feeOrder.length callState.currentMaxSize) ⟨previous⟩ with
    ⟨candidate, hskip⟩ | ⟨candidate, hstop⟩ | ⟨prepared, hok, hprepared⟩
  · rw [hskip]
    exact .inl ⟨_, rfl, nextFeeCandidateKey_queued hkeyed hkey, toVisit_next_lt hkeyed hkey⟩
  · rw [hstop, ok_bind]
    obtain ⟨result, views', hresult, howner, hagrees, haccounts⟩ :=
      hfinish ⟨s.ledgerChanged || false, s.processedCandidates + 1, some candidate.key⟩
    refine .inr ⟨.ok (.complete result, views'), ?_,
      .inr ⟨_, rfl, .complete (howner ▸ hagrees) haccounts⟩⟩
    simp only [QueueAcceptIteration.stopCandidate, QueueAcceptIteration.ledgerChanged]
    rw [hresult]
    rfl
  · rw [hok]
    exact .inr ⟨.ok (.ready _, views), rfl,
      .inr ⟨_, rfl, .ready hrequired hprepared rfl rfl rfl rfl le_rfl⟩⟩

/-- Looking for the next transaction ends within a round for every entry. -/
theorem continueQueueAcceptWithCallState_returns (hkeyed : Keyed views) (ledgerChanged : Bool)
    (processedCandidates : ℕ)
    (hcurrent : ∀ key, current = some key → (views.find key).isSome = true) :
    ∃ out, (∀ fuel > toVisit views current, continueQueueAcceptWithCallState fuel views
        metrics callState previous ledgerChanged processedCandidates appliedCount current =
          some out) ∧
      ((out = .error .divideByZero ∧ metrics.txnsExpected = 0) ∨ ∃ step, out = .ok step ∧
        Continued metrics callState previous appliedCount views current step) := by
  obtain ⟨out, hout, hrun⟩ := Loop.total
    (fun _ s => some (continueRound views metrics callState previous appliedCount s)) 0
    (fun s => toVisit views s.current)
    (fun s => (∀ key, s.current = some key → (views.find key).isSome = true) ∧
      toVisit views s.current ≤ toVisit views current)
    (fun out => (out = .error .divideByZero ∧ metrics.txnsExpected = 0) ∨
      ∃ step, out = .ok step ∧
        Continued metrics callState previous appliedCount views current step)
    (fun s hs => by
      rcases continueRound_cases metrics callState previous appliedCount hkeyed s hs.1 with
        ⟨s', hround, hnext, hlt⟩ | ⟨out, hround, hout⟩
      · exact .inl ⟨s', fun _ _ => congrArg some hround, ⟨hnext, (hlt.le.trans hs.2)⟩, hlt⟩
      · refine .inr ⟨out, fun _ _ => congrArg some hround, ?_⟩
        rcases hout with hzero | ⟨step, rfl, hstep⟩
        · exact .inl hzero
        · exact .inr ⟨step, rfl, hstep.mono hs.2⟩)
    (s := ⟨ledgerChanged, processedCandidates, current⟩) ⟨hcurrent, le_rfl⟩
  exact ⟨out, fun fuel hfuel => hrun 0 le_rfl fuel hfuel, hout⟩

end Quaxar.TxQ
