import Quaxar.TxQ.AcceptLoops

/-!
# What `accept` tries and what leaves the queue

`Accepts` lists the attempts of a call whose caller is handed each prepared transaction. The
caller may answer with any outcome and leave any transaction behind. `Fair` says what every such
list satisfies, and the call itself ends after finitely many attempts.
-/

namespace Quaxar.TxQ

open Protocol (SeqProxy Ter)

variable {Account Tx σ : Type} [LinearOrder Account]

/-- A transaction that was tried: the queue at that time, its key and the outcome. -/
structure Attempt (Account Tx : Type) [LinearOrder Account] where
  views : Queue Account Tx
  key : FeeQueueKey Account
  result : ApplyResult

def appliedIn (log : List (Attempt Account Tx)) : ℕ := log.countP (·.result.applied)

/-- The attempts of a call, and where the call stands after them. -/
inductive Accepts (metrics : QueueFeeMetricsSnapshot) (ownerState : QueueAcceptOwnerState)
    (callState : QueueAcceptCallState) (views₀ : Queue Account Tx) :
    List (Attempt Account Tx) → QueueAcceptPreparedCallStep Account × Queue Account Tx → Prop
  | start {step : QueueAcceptPreparedCallStep Account × Queue Account Tx}
      (hstart : Loop.Returns (fun fuel => prepareQueueAcceptWithCallState fuel views₀
        metrics ownerState callState) (.ok step)) :
      Accepts metrics ownerState callState views₀ [] step
  | attempt {log : List (Attempt Account Tx)} {call : PreparedQueueAcceptCall Account}
      {views : Queue Account Tx} {queued : MaybeTxCore (MaybeTx Account Tx)} {τ : Type}
      {apply : ApplyFn Account Tx τ} {caller caller' : τ}
      {step : QueueAcceptPreparedCallStep Account × Queue Account Tx}
      (hlog : Accepts metrics ownerState callState views₀ log (.ready call, views))
      (hqueued : views.find call.preparedApply.candidate.key = some queued)
      (hrun : Loop.Returns (fun fuel => runPreparedQueueAcceptCall fuel views call apply caller)
        (.ok (step, caller'))) :
      Accepts metrics ownerState callState views₀
        (log ++ [⟨views, call.preparedApply.candidate.key, (apply caller queued.payload).1.1⟩]) step

/-- An attempt that is allowed once `applied` transactions were applied. -/
structure Attempt.Allowed (metrics : QueueFeeMetricsSnapshot)
    (callState : QueueAcceptCallState) (applied : ℕ) (a : Attempt Account Tx) : Prop where
  keyed : Keyed a.views
  pays : ∃ queued required, a.views.find a.key = some queued ∧
    requiredAfter metrics callState applied = .ok required ∧
    required ≤ queued.payload.feeLevel
  isFirst : a.key.seqProxy.isSeq = true → IsFirst a.views a.key

/-- Why a key may leave with an attempt that was not applied: the transaction cannot succeed or
was retried too often, or the account is under a penalty while the queue is nearly full. -/
def Attempt.Drops (callState : QueueAcceptCallState) (a : Attempt Account Tx)
    (key : FeeQueueKey Account) : Prop :=
  ∃ queue queued, a.views.accounts[a.key.account]? = some queue ∧
    a.views.find a.key = some queued ∧
    (key = a.key ∧ (a.result.ter.isTefFailure = true ∨ a.result.ter.isTemMalformed = true ∨
        queued.payload.retriesRemaining ≤ 0) ∨
      queue.dropPenalty = true ∧ queue.transactions.size > 1 ∧
        queueAcceptIsNearlyFull a.views.feeOrder.length callState.currentMaxSize = true ∧
        (key = a.key ∧ key.seqProxy.isTicket = true ∨
          a.key.seqProxy.isSeq = true ∧ IsTail a.views a.key key))

/-- What holds of the attempts of a call that leads from `views₀` to `views`. -/
structure Fair (metrics : QueueFeeMetricsSnapshot) (callState : QueueAcceptCallState)
    (views₀ : Queue Account Tx) (log : List (Attempt Account Tx)) (views : Queue Account Tx) :
    Prop where
  keyed : Keyed views
  allowed : ∀ before a after, log = before ++ a :: after →
    a.Allowed metrics callState (appliedIn before)
  /-- No transaction enters the queue. -/
  within : ∀ a ∈ log, ∀ key, (views.find key).isSome = true → (a.views.find key).isSome = true
  /-- An applied transaction is in neither view afterwards. -/
  gone : ∀ a ∈ log, a.result.applied = true →
    views.find a.key = none ∧ a.key ∉ views.feeOrder.map FeeQueueEntry.key
  gone_later : log.Pairwise fun a b => a.result.applied = true →
    b.views.find a.key = none ∧ a.key ∉ b.views.feeOrder.map FeeQueueEntry.key
  ordered : log.Pairwise fun a b => a.result.applied = true → b.result.applied = true →
    a.key.account = b.key.account → a.key.seqProxy.isSeq = true → b.key.seqProxy.isSeq = true →
    a.key.seqProxy < b.key.seqProxy
  /-- Whatever leaves was applied or dropped. -/
  left : ∀ key, (views₀.find key).isSome = true → views.find key = none →
    ∃ a ∈ log, a.result.applied = true ∧ key = a.key ∨
      a.result.applied = false ∧ a.Drops callState key

variable {key : FeeQueueKey Account} {previous : Uint256} {count : ℕ}
  {current : Option (FeeQueueKey Account)}
  {step : QueueAcceptPreparedCallStep Account × Queue Account Tx} {required : FeeLevel64}
  {order : OrderCandidates} {metrics : QueueFeeMetricsSnapshot} {callState : QueueAcceptCallState}
  {views views₀ views₁ : Queue Account Tx} {log : List (Attempt Account Tx)}

theorem Keyed.not_mem (h : Keyed views) (hnone : views.find key = none) :
    key ∉ views.feeOrder.map FeeQueueEntry.key := by
  rw [h.mem_iff, hnone]
  simp

theorem Continued.find_eq
    (h : Continued metrics callState previous count views current step)
    (key : FeeQueueKey Account) : step.2.find key = views.find key := by
  cases h with
  | complete hagrees haccounts => rw [QueueViews.find, QueueViews.find, haccounts]
  | ready => rfl

theorem Continued.keyed (hkeyed : Keyed views)
    (h : Continued metrics callState previous count views current step) : Keyed step.2 := by
  cases h with
  | complete hagrees haccounts => exact hagrees.toKeyed
  | ready => exact hkeyed

theorem fair_nil (h : Keyed views) (hfind : ∀ key, views.find key = views₀.find key) :
    Fair metrics callState views₀ [] views where
  keyed := h
  allowed before a after hlog := by simp at hlog
  within a ha := by cases ha
  gone a ha := by cases ha
  gone_later := List.Pairwise.nil
  ordered := List.Pairwise.nil
  left key hsome hnone := by
    rw [hfind] at hnone
    rw [hnone] at hsome
    cases hsome

variable {prepared : PreparedQueueAcceptApply Account} {result : ApplyResult}

theorem Attempt.drops_of_fails {other : FeeQueueKey Account} (hready : Ready views key required
      (queueAcceptIsNearlyFull views.feeOrder.length callState.currentMaxSize) order prepared)
    (h : Fails views prepared result.ter other) :
    (Attempt.mk views key result).Drops callState other := by
  obtain ⟨queued, hqueued, -, hretries⟩ := hready.queued
  obtain ⟨queue, hqueue, hpenalty, hcount⟩ := hready.account
  refine ⟨queue, queued, hqueue, hqueued, ?_⟩
  rw [Fails, hready.key_eq, hretries, hpenalty, hcount, hready.nearlyFull_eq] at h
  exact h

variable {π : MaybeTxCore _ → Unit}

theorem Becomes.isSome_of_isSome {keep : FeeQueueKey Account → Bool}
    (h : Becomes π keep views views₁) (hsome : (views₁.find key).isSome = true) :
    (views.find key).isSome = true := by
  rw [h.isSome_find, Bool.and_eq_true] at hsome
  exact hsome.2

theorem Becomes.removed_eq {removed : Option (FeeQueueKey Account)}
    (h : Becomes π (keepBut removed) views views₁) (hsome : (views.find key).isSome = true)
    (hnone : views₁.find key = none) : removed = some key := by
  have hisSome := h.isSome_find key
  rw [hnone, Option.isSome_none, hsome, Bool.and_true] at hisSome
  cases removed with
  | none => cases hisSome
  | some other =>
    have heq : key = other := by simpa [keepBut, keepOthers] using hisSome
    rw [heq]

/-- What was applied earlier for an account has a lower sequence than what is queued now. -/
theorem Fair.lt_of_applied (h : Fair metrics callState views₀ log views)
    {a : Attempt Account Tx} (ha : a ∈ log) (happlied : a.result.applied = true)
    (hkey : (views.find key).isSome = true) (haccount : a.key.account = key.account)
    (hseq : a.key.seqProxy.isSeq = true) : a.key.seqProxy < key.seqProxy := by
  obtain ⟨before, after, hsplit⟩ := List.append_of_mem ha
  have hle := (h.allowed before a after hsplit).isFirst hseq key haccount.symm
    (h.within a ha key hkey)
  refine lt_of_le_of_ne hle fun heq => ?_
  have hsame : key = a.key := by
    obtain ⟨account, seqProxy⟩ := key
    obtain rfl : a.key.account = account := haccount
    obtain rfl : a.key.seqProxy = seqProxy := heq
    rfl
  rw [hsame, (h.gone a ha happlied).1] at hkey
  cases hkey

theorem Fair.snoc (h : Fair metrics callState views₀ log views)
    (hrequired : requiredAfter metrics callState (appliedIn log) = .ok required)
    (hready : Ready views key required
      (queueAcceptIsNearlyFull views.feeOrder.length callState.currentMaxSize) order prepared)
    {iteration : QueueAcceptIteration Account}
    (hfinal : Finalized unseen views prepared result iteration views₁) {views' : Queue Account Tx}
    (hkeyed : Keyed views') (hfind : ∀ key, views'.find key = views₁.find key) :
    Fair metrics callState views₀ (log ++ [⟨views, key, result⟩]) views' := by
  obtain ⟨queued, hqueued, hfee, -⟩ := hready.queued
  have hkey := hready.key_eq
  have hshrinks : ∀ other, (views'.find other).isSome = true →
      (views.find other).isSome = true := by
    intro other hsome
    rw [hfind] at hsome
    exact hfinal.becomes.isSome_of_isSome hsome
  have hgone : ∀ a ∈ log ++ [⟨views, key, result⟩], a.result.applied = true →
      views'.find a.key = none := by
    intro a ha happlied
    rw [← Option.not_isSome_iff_eq_none]
    rcases List.mem_append.mp ha with ha | ha
    · intro hsome
      have hthen := hshrinks a.key hsome
      rw [(h.gone a ha happlied).1] at hthen
      cases hthen
    · obtain rfl := List.mem_singleton.mp ha
      rw [hfind, hfinal.becomes.isSome_find, hfinal.applied happlied, hkey]
      simp [keepBut, keepOthers]
  refine ⟨hkeyed, ?_, ?_, fun a ha happlied => ?_, ?_, ?_, ?_⟩
  · intro before a after hlog
    rcases List.eq_nil_or_concat after with rfl | ⟨after, last, rfl⟩
    · obtain ⟨rfl, hsingle⟩ := List.append_inj' hlog rfl
      obtain rfl := List.singleton_inj.mp hsingle
      exact ⟨h.keyed, ⟨queued, required, hqueued, hrequired, hfee ▸ hready.required_le⟩,
        hready.isFirst⟩
    · have hlog' : log ++ [⟨views, key, result⟩] = (before ++ a :: after) ++ [last] := by
        simpa using hlog
      exact h.allowed before a after (List.append_inj' hlog' rfl).1
  · intro a ha other hsome
    rcases List.mem_append.mp ha with ha | ha
    · exact h.within a ha other (hshrinks other hsome)
    · obtain rfl := List.mem_singleton.mp ha
      exact hshrinks other hsome
  · exact ⟨hgone a ha happlied, hkeyed.not_mem (hgone a ha happlied)⟩
  · refine List.pairwise_append.mpr ⟨h.gone_later, List.pairwise_singleton _ _, ?_⟩
    intro a ha b hb happlied
    obtain rfl := List.mem_singleton.mp hb
    exact h.gone a ha happlied
  · refine List.pairwise_append.mpr ⟨h.ordered, List.pairwise_singleton _ _, ?_⟩
    intro a ha b hb happlied _ haccount hseq _
    obtain rfl := List.mem_singleton.mp hb
    exact h.lt_of_applied ha happlied (by rw [hqueued]; rfl) haccount hseq
  · intro other hsome hother
    by_cases hstill : views.find other = none
    · obtain ⟨a, ha, hwhy⟩ := h.left other hsome hstill
      exact ⟨a, List.mem_append_left _ ha, hwhy⟩
    refine ⟨⟨views, key, result⟩, List.mem_append_right _ (List.mem_singleton_self _), ?_⟩
    have hremoved := hfinal.becomes.removed_eq (Option.isSome_iff_ne_none.mpr hstill)
      ((hfind other).symm.trans hother)
    rcases happlied : result.applied with _ | _
    · exact .inr ⟨rfl, Attempt.drops_of_fails hready (hfinal.fails happlied other hremoved)⟩
    · rw [hfinal.applied happlied, hkey] at hremoved
      exact .inl ⟨rfl, (Option.some.inj hremoved).symm⟩

variable {ownerState : QueueAcceptOwnerState}

/-- Where a call stands: its counter and the transaction it prepared. -/
structure Stands (metrics : QueueFeeMetricsSnapshot) (callState : QueueAcceptCallState)
    (log : List (Attempt Account Tx))
    (step : QueueAcceptPreparedCallStep Account × Queue Account Tx) : Prop where
  keyed : Keyed step.2
  complete : ∀ result, step.1 = .complete result → Agrees result.ownerState.currentOrder step.2
  ready : ∀ call, step.1 = .ready call →
    call.metricsSnapshot = metrics ∧ call.callState = callState ∧
    call.appliedCount = min (appliedIn log) (2 ^ 64 - 1) ∧
    ∃ required order, requiredAfter metrics callState (appliedIn log) = .ok required ∧
      Ready step.2 call.preparedApply.candidate.key required
        (queueAcceptIsNearlyFull step.2.feeOrder.length callState.currentMaxSize) order
        call.preparedApply

theorem requiredAfter_min (count : ℕ) :
    requiredAfter metrics callState (min count (2 ^ 64 - 1)) =
      requiredAfter metrics callState count := by
  have hsum : saturatingAdd callState.openLedgerTxCount (min count (2 ^ 64 - 1)) =
      saturatingAdd callState.openLedgerTxCount count := by
    rw [saturatingAdd, saturatingAdd]
    omega
  rw [requiredAfter, requiredAfter, hsum]

theorem Continued.stands (hkeyed : Keyed views)
    (h : Continued metrics callState previous (min (appliedIn log) (2 ^ 64 - 1)) views
      current step) : Stands metrics callState log step := by
  refine ⟨h.keyed hkeyed, ?_, ?_⟩
  · rintro result hstep
    cases h with
    | complete hagrees haccounts =>
      cases hstep
      exact hagrees
    | ready => cases hstep
  · rintro call hstep
    cases h with
    | complete => cases hstep
    | ready hrequired hready hmetrics hcallState hprevious hcount hvisit =>
      cases hstep
      rw [requiredAfter_min] at hrequired
      have hkey := hready.key_eq
      subst hkey
      exact ⟨hmetrics, hcallState, hcount, _, _, hrequired, hready⟩

theorem runPreparedQueueAcceptCall_returns {call : PreparedQueueAcceptCall Account}
    {nearlyFull : Bool} {queued : MaybeTxCore (MaybeTx Account Tx)} (hkeyed : Keyed views)
    (hready : Ready views key required nearlyFull order call.preparedApply)
    (hqueued : views.find key = some queued) (apply : ApplyFn Account Tx σ) (caller : σ) :
    ∃ iteration views₁ out,
      Finalized unseen views call.preparedApply (apply caller queued.payload).1.1 iteration views₁ ∧
      (∀ fuel ≥ toVisit views (some key),
        runPreparedQueueAcceptCall fuel views call apply caller = some out) ∧
      (out = .error .divideByZero ∧ call.metricsSnapshot.txnsExpected = 0 ∨
        ∃ step, out = .ok (step, (apply caller queued.payload).1.2) ∧
          Continued call.metricsSnapshot call.callState call.previousParentHashComp
            (saturatingAdd call.appliedCount
              (if (apply caller queued.payload).1.1.applied = true then 1 else 0))
            views₁ iteration.nextCandidate step) := by
  have hkey := hready.key_eq
  have hsome : (views.find key).isSome = true := by
    rw [hqueued]
    rfl
  subst hkey
  obtain ⟨views', hupdate, h'⟩ := updatePayload_ok (π := unseen) hqueued
    "quaxar::TxQ::accept : account found" "quaxar::TxQ::accept : candidate found in account"
    (apply caller) rfl
  obtain ⟨iteration, views₁, hfinal, hfinalized⟩ := finalizePreparedQueueAcceptApply_ok
    stable_unseen hkeyed hready h' (apply caller queued.payload).1.1
  have hlt := (hfinalized.round hready).toVisit_lt hkeyed hsome hfinalized.stop_eq
  obtain ⟨out, hrun, hout⟩ := continueQueueAcceptWithCallState_returns call.metricsSnapshot
    call.callState call.previousParentHashComp
    (saturatingAdd call.appliedCount
      (if (apply caller queued.payload).1.1.applied = true then 1 else 0))
    (hfinalized.becomes.keyed hkeyed)
    (call.ledgerChanged || iteration.ledgerChanged) call.processedCandidates hfinalized.next_queued
  refine ⟨iteration, views₁, out.map fun step => (step, (apply caller queued.payload).1.2),
    hfinalized, fun fuel hfuel => ?_, ?_⟩
  · rw [runPreparedQueueAcceptCall, hupdate]
    dsimp only
    rw [resumePreparedQueueAcceptWithCallState, hfinal]
    dsimp only
    rw [hfinalized.ledgerChanged_eq] at hrun ⊢
    rw [hrun fuel (lt_of_lt_of_le hlt hfuel)]
    rfl
  · rcases hout with ⟨rfl, hzero⟩ | ⟨step, rfl, hstep⟩
    · exact .inl ⟨rfl, hzero⟩
    · exact .inr ⟨step, rfl, hstep⟩

theorem prepareQueueAcceptWithCallState_returns (hkeyed : Keyed views)
    (metrics : QueueFeeMetricsSnapshot) (ownerState : QueueAcceptOwnerState)
    (callState : QueueAcceptCallState) :
    ∃ out, (∀ fuel > toVisit views (views.feeOrder.head?.map FeeQueueEntry.key),
        prepareQueueAcceptWithCallState fuel views metrics ownerState callState =
          some out) ∧
      (out = .error .divideByZero ∧ metrics.txnsExpected = 0 ∨ ∃ step, out = .ok step ∧
        Continued metrics callState ownerState.parentHashComp 0 views
          (views.feeOrder.head?.map FeeQueueEntry.key) step) :=
  continueQueueAcceptWithCallState_returns metrics callState ownerState.parentHashComp 0
    hkeyed false 0 hkeyed.atQueued_head.queued

theorem appliedIn_append (log : List (Attempt Account Tx)) (a : Attempt Account Tx) :
    appliedIn (log ++ [a]) = appliedIn log + if a.result.applied = true then 1 else 0 := by
  rw [appliedIn, appliedIn, List.countP_append, List.countP_singleton]

/-- Every attempt leaves the call standing, and the attempts are fair. -/
theorem Accepts.fair (hkeyed : Keyed views₀)
    (h : Accepts metrics ownerState callState views₀ log step) :
    Stands metrics callState log step ∧
      Fair metrics callState views₀ log step.2 := by
  induction h with
  | start hstart =>
    obtain ⟨out, hrun, hout⟩ :=
      prepareQueueAcceptWithCallState_returns hkeyed metrics ownerState callState
    have heq := hstart.unique ⟨_, fun fuel hfuel => hrun fuel hfuel⟩
    rcases hout with ⟨rfl, -⟩ | ⟨step', rfl, hstep⟩
    · cases heq
    · cases heq
      have hstands : Stands metrics callState [] _ := Continued.stands hkeyed hstep
      exact ⟨hstands, fair_nil (hstep.keyed hkeyed) hstep.find_eq⟩
  | @attempt log call views queued τ apply caller caller' step hlog hqueued hrun ih =>
    obtain ⟨hstands, hfair⟩ := ih
    obtain ⟨hmetrics, hcallState, hcount, required, order, hrequired, hready⟩ :=
      hstands.ready call rfl
    obtain ⟨iteration, views₁, out, hfinal, hreturns, hout⟩ :=
      runPreparedQueueAcceptCall_returns hstands.keyed hready hqueued apply caller
    have heq := hrun.unique ⟨_, fun fuel hfuel => hreturns fuel hfuel⟩
    rcases hout with ⟨rfl, -⟩ | ⟨step', rfl, hstep⟩
    · cases heq
    · cases heq
      rw [hmetrics, hcallState, hcount] at hstep
      have hkeyed₁ := hfinal.becomes.keyed hstands.keyed
      have hnext : saturatingAdd (min (appliedIn log) (2 ^ 64 - 1))
          (if (apply caller queued.payload).1.1.applied = true then 1 else 0) =
          min (appliedIn (log ++ [⟨views, call.preparedApply.candidate.key,
            (apply caller queued.payload).1.1⟩])) (2 ^ 64 - 1) := by
        rw [appliedIn_append, saturatingAdd]
        dsimp only
        omega
      rw [hnext] at hstep
      exact ⟨hstep.stands hkeyed₁,
        hfair.snoc hrequired hready hfinal (hstep.keyed hkeyed₁) hstep.find_eq⟩

/-- A bound for the rounds of the caller's loop. -/
def callerRounds (step : QueueAcceptPreparedCallStep Account × Queue Account Tx) : ℕ :=
  match step.1 with
  | .complete _ => 0
  | .ready call => toVisit step.2 (some call.preparedApply.candidate.key) + 1

/-- A call that was handed a prepared transaction, within the fuel of its inner loops. -/
structure InCall (metrics : QueueFeeMetricsSnapshot) (ownerState : QueueAcceptOwnerState)
    (callState : QueueAcceptCallState) (views₀ : Queue Account Tx) (bound : ℕ)
    (step : QueueAcceptPreparedCallStep Account × Queue Account Tx) : Prop where
  accepts : ∃ log, Accepts metrics ownerState callState views₀ log step
  rounds_le : callerRounds step ≤ bound

theorem Continued.callerRounds_le
    (h : Continued metrics callState previous count views current step) :
    callerRounds step ≤ toVisit views current + 1 := by
  cases h with
  | complete => exact Nat.zero_le _
  | ready hrequired hready hmetrics hcallState hprevious hcount hvisit =>
    have hkey := hready.key_eq
    subst hkey
    exact Nat.succ_le_succ hvisit

theorem callerRound_cases (hkeyed : Keyed views₀) {bound : ℕ} (apply : ApplyFn Account Tx σ)
    (s : (QueueAcceptPreparedCallStep Account × Queue Account Tx) × σ)
    (hs : InCall metrics ownerState callState views₀ bound s.1) :
    (∃ s', (∀ fuel ≥ bound, callerRound fuel apply s = some (.ok (.inl s'))) ∧
      InCall metrics ownerState callState views₀ bound s'.1 ∧
      callerRounds s'.1 < callerRounds s.1) ∨
    ∃ out : Except Panic ((QueueAcceptWithMetricsResult Account × Queue Account Tx) × σ),
      (∀ fuel ≥ bound, callerRound fuel apply s = some (out.map .inr)) ∧
      (out = .error .divideByZero ∧ metrics.txnsExpected = 0 ∨
        ∃ result views' caller' log, out = .ok ((result, views'), caller') ∧
          Agrees result.ownerState.currentOrder views' ∧
          Accepts metrics ownerState callState views₀ log (.complete result, views')) := by
  obtain ⟨⟨stage, views⟩, caller⟩ := s
  obtain ⟨log, hlog⟩ := hs.accepts
  obtain ⟨hstands, -⟩ := hlog.fair hkeyed
  cases stage with
  | complete result =>
    exact .inr ⟨.ok ((result, views), caller), fun _ _ => rfl,
      .inr ⟨result, views, caller, log, rfl, hstands.complete result rfl, hlog⟩⟩
  | ready call =>
    obtain ⟨hmetrics, -, -, required, order, -, hready⟩ := hstands.ready call rfl
    obtain ⟨queued, hqueued, -, -⟩ := hready.queued
    obtain ⟨iteration, views₁, out, hfinal, hreturns, hout⟩ :=
      runPreparedQueueAcceptCall_returns hstands.keyed hready hqueued apply caller
    have hle : toVisit views (some call.preparedApply.candidate.key) + 1 ≤ bound := hs.rounds_le
    have hround : ∀ fuel ≥ bound, callerRound fuel apply ((.ready call, views), caller) =
        some (out.map .inl) := by
      intro fuel hfuel
      rw [callerRound]
      dsimp only
      rw [hreturns fuel (Nat.le_of_succ_le (hle.trans hfuel))]
      rfl
    rcases hout with ⟨rfl, hzero⟩ | ⟨step, rfl, hstep⟩
    · exact .inr ⟨.error .divideByZero, hround, .inl ⟨rfl, hmetrics ▸ hzero⟩⟩
    · have hlt := (hfinal.round hready).toVisit_lt hstands.keyed (by rw [hqueued]; rfl)
        hfinal.stop_eq
      have hrounds : callerRounds step <
          toVisit views (some call.preparedApply.candidate.key) + 1 :=
        lt_of_le_of_lt hstep.callerRounds_le (Nat.succ_lt_succ hlt)
      have hnext := Accepts.attempt hlog hqueued ⟨_, fun fuel hfuel => hreturns fuel hfuel⟩
      exact .inl ⟨(step, (apply caller queued.payload).1.2), hround,
        ⟨⟨_, hnext⟩, hrounds.le.trans hle⟩, hrounds⟩

/-- `accept` for a caller that is handed every prepared transaction. -/
theorem runQueueAcceptWithCallerPreparedApply_returns (hkeyed : Keyed views₀)
    (metrics : QueueFeeMetricsSnapshot) (ownerState : QueueAcceptOwnerState)
    (callState : QueueAcceptCallState) (apply : ApplyFn Account Tx σ) (caller : σ) :
    ∃ out, Loop.Returns (fun fuel => runQueueAcceptWithCallerPreparedApply fuel views₀
        metrics ownerState callState apply caller) out ∧
      (out = .error .divideByZero ∧ metrics.txnsExpected = 0 ∨
        ∃ result views' caller' log, out = .ok ((result, views'), caller') ∧
          Agrees result.ownerState.currentOrder views' ∧
          Accepts metrics ownerState callState views₀ log (.complete result, views')) := by
  obtain ⟨start, hstart, hcases⟩ :=
    prepareQueueAcceptWithCallState_returns hkeyed metrics ownerState callState
  rcases hcases with ⟨rfl, hzero⟩ | ⟨step, rfl, hstep⟩
  · refine ⟨.error .divideByZero, ⟨toVisit views₀ (views₀.feeOrder.head?.map FeeQueueEntry.key) + 1,
      fun fuel hfuel => ?_⟩, .inl ⟨rfl, hzero⟩⟩
    dsimp only
    rw [runQueueAcceptWithCallerPreparedApply, hstart fuel hfuel]
  · have hstep' : Accepts metrics ownerState callState views₀ [] step :=
      .start ⟨_, fun fuel hfuel => hstart fuel hfuel⟩
    obtain ⟨out, hout, hrun⟩ := Loop.total (fun fuel => callerRound fuel apply)
      (toVisit views₀ (views₀.feeOrder.head?.map FeeQueueEntry.key) + 1)
      (fun s => callerRounds s.1)
      (fun s => InCall metrics ownerState callState views₀
        (toVisit views₀ (views₀.feeOrder.head?.map FeeQueueEntry.key) + 1) s.1)
      _ (callerRound_cases hkeyed apply) (s := (step, caller))
      ⟨⟨[], hstep'⟩, hstep.callerRounds_le⟩
    refine ⟨out, ⟨toVisit views₀ (views₀.feeOrder.head?.map FeeQueueEntry.key) + 2,
      fun fuel hfuel => ?_⟩, hout⟩
    dsimp only
    rw [runQueueAcceptWithCallerPreparedApply, hstart fuel (by omega)]
    exact hrun fuel (by omega) fuel (lt_of_le_of_lt hstep.callerRounds_le hfuel)

end Quaxar.TxQ
