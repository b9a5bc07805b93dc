import Quaxar.TxQ.Agreement

/-!
# One round of `accept`

What preparing a transaction promises, and what the outcome of trying it does to the queue:
at most one key leaves, and `Finalized` says which and why.
-/

namespace Quaxar.TxQ

open Protocol (SeqProxy Ter)
open Except (ok_bind)

variable {Account Tx γ : Type} [LinearOrder Account]

section Updates

/-- `π` does not show what the queue itself changes of a transaction. -/
def Stable (π : MaybeTxCore (MaybeTx Account Tx) → γ) : Prop :=
  ∀ (queued : MaybeTxCore (MaybeTx Account Tx)) (retriesRemaining : ℤ) (lastResult : Option Ter),
    π { queued with payload := { queued.payload with retriesRemaining, lastResult } } = π queued

variable {π : MaybeTxCore (MaybeTx Account Tx) → γ} {views : Queue Account Tx}
  {key : FeeQueueKey Account} {queued : MaybeTxCore (MaybeTx Account Tx)}

theorem updatePayload_ok {β : Type} (h : views.find key = some queued) (accountFound found : String)
    (f : MaybeTx Account Tx → β × MaybeTx Account Tx)
    (hf : π { queued with payload := (f queued.payload).2 } = π queued) :
    ∃ views', updatePayload views key accountFound found f = .ok ((f queued.payload).1, views') ∧
      Becomes π keepAll views views' := by
  obtain ⟨queue, hqueue, hqueued⟩ := exists_queue h
  refine ⟨_, by rw [updatePayload, hqueue, expect_some, ok_bind, hqueued]; rfl, ?_⟩
  refine becomes_insert hqueue rfl (by simp [keepAll]) ?_ fun _ _ => rfl
  intro seqProxy
  rw [keepAll_apply, if_pos rfl]
  rw [OrderedMap.getElem?_insert]
  split_ifs with heq
  · subst heq
    rw [hqueued, Option.map_some, Option.map_some, hf]
  · rfl

theorem updateAccount_ok (h : (views.find key).isSome = true)
    (f : TxQAccount Account (MaybeTx Account Tx) → TxQAccount Account (MaybeTx Account Tx))
    (hf : ∀ queue, (f queue).account = queue.account ∧
      (f queue).transactions = queue.transactions) :
    ∃ views', updateAccount views key.account f = .ok views' ∧ Becomes π keepAll views views' := by
  obtain ⟨queued, hqueued⟩ := Option.isSome_iff_exists.mp h
  obtain ⟨queue, hqueue, -⟩ := exists_queue hqueued
  refine ⟨_, by rw [updateAccount, hqueue]; rfl, ?_⟩
  refine becomes_insert hqueue (hf queue).1 (by simp [keepAll]) ?_ fun _ _ => rfl
  intro seqProxy
  rw [(hf queue).2, keepAll_apply, if_pos rfl]

theorem markPenalty_ok (h : (views.find key).isSome = true) (update : PenaltyUpdate) :
    ∃ views', markPenalty views key.account update = .ok views' ∧
      Becomes π keepAll views views' := by
  cases update with
  | none => exact ⟨views, rfl, .refl views⟩
  | markDropPenalty => exact updateAccount_ok h _ fun _ => ⟨rfl, rfl⟩
  | markRetryPenalty => exact updateAccount_ok h _ fun _ => ⟨rfl, rfl⟩

/-- The key is the last one of the account of another. -/
structure IsTail (views : Queue Account Tx) (key tail : FeeQueueKey Account) : Prop where
  ne : tail ≠ key
  account_eq : tail.account = key.account
  isSome_find : (views.find tail).isSome = true
  le : ∀ other : FeeQueueKey Account, other.account = key.account →
    (views.find other).isSome = true → other.seqProxy ≤ tail.seqProxy

theorem dropTail_ok (π : MaybeTxCore (MaybeTx Account Tx) → γ) (hkeyed : Keyed views)
    (h : (views.find key).isSome = true) :
    dropTail views key = .ok (none, views) ∨
      ∃ tail views', dropTail views key = .ok (some tail, views') ∧ IsTail views key tail ∧
        Becomes π (keepOthers tail) views views' := by
  obtain ⟨queued, hqueued⟩ := Option.isSome_iff_exists.mp h
  obtain ⟨queue, hqueue, htransaction⟩ := exists_queue hqueued
  obtain ⟨-, last, hlast⟩ := OrderedMap.exists_of_mem_keys
    (OrderedMap.mem_iff_exists.mpr ⟨queued, htransaction⟩)
  obtain ⟨hmem, hle⟩ := OrderedMap.getLast?_keys_eq_some hlast
  have hstart : (views.accounts[key.account]?.bind fun queue => queue.transactions.keys.getLast?) =
      some last := by
    rw [hqueue, Option.bind_some, hlast]
  rw [dropTail, hstart, expect_some, ok_bind]
  by_cases heq : FeeQueueKey.mk key.account last = key
  · rw [if_pos heq]
    exact .inl rfl
  · have hmem_iff : ∀ seqProxy, (views.find ⟨key.account, seqProxy⟩).isSome = true ↔
        seqProxy ∈ queue.transactions := by
      intro seqProxy
      rw [find_eq_of_queue hqueue, Std.ExtTreeMap.mem_iff_isSome_getElem?]
    have hlast' := (hmem_iff last).mpr hmem
    obtain ⟨views', hremove, hbecomes⟩ := removeFeeCandidateByKey_ok π hkeyed hlast'
    refine .inr ⟨⟨key.account, last⟩, views', ?_, ⟨heq, rfl, hlast', ?_⟩, hbecomes⟩
    · rw [if_neg heq, hremove]
      rfl
    · rintro ⟨account, seqProxy⟩ haccount hsome
      obtain rfl : account = key.account := haccount
      exact hle seqProxy ((hmem_iff seqProxy).mp hsome)

end Updates

variable {views : Queue Account Tx} {key : FeeQueueKey Account} {required : FeeLevel64}
  {nearlyFull : Bool} {order : OrderCandidates}

/-- A transaction that may be tried. -/
structure Ready (views : Queue Account Tx) (key : FeeQueueKey Account) (required : FeeLevel64)
    (nearlyFull : Bool) (order : OrderCandidates) (prepared : PreparedQueueAcceptApply Account) :
    Prop where
  key_eq : prepared.candidate.key = key
  index : ∃ entry, views.feeOrder[prepared.candidateIndex]? = some entry ∧ entry.key = key
  queued : ∃ queued, views.find key = some queued ∧
    prepared.candidate.feeLevel = queued.payload.feeLevel ∧
    prepared.candidate.retriesRemaining = queued.payload.retriesRemaining
  account : ∃ queue, views.accounts[key.account]? = some queue ∧
    prepared.accountDropPenalty = queue.dropPenalty ∧
    prepared.accountTxnCount = queue.transactions.size
  required_le : required ≤ prepared.candidate.feeLevel
  isFirst : key.seqProxy.isSeq = true → IsFirst views key
  nearlyFull_eq : prepared.queueNearlyFull = nearlyFull
  order_eq : prepared.order = order

theorem prepareQueueAcceptIteration_ok (hkeyed : Keyed views) (h : (views.find key).isSome = true)
    (required : FeeLevel64) (nearlyFull : Bool) (order : OrderCandidates) :
    (∃ candidate, prepareQueueAcceptIteration views key required nearlyFull order =
      .ok (.complete (.skipNotFirst candidate (views.nextFeeCandidateKey key)))) ∨
    (∃ candidate, prepareQueueAcceptIteration views key required nearlyFull order =
      .ok (.complete (.stopInsufficientFee candidate required))) ∨
    ∃ prepared, prepareQueueAcceptIteration views key required nearlyFull order =
      .ok (.ready prepared) ∧ Ready views key required nearlyFull order prepared := by
  obtain ⟨i, entry, hi, hentry, hindex⟩ := hkeyed.exists_index h
  obtain ⟨queued, hqueued⟩ := Option.isSome_iff_exists.mp h
  obtain ⟨queue, hqueue, htransaction⟩ := exists_queue hqueued
  have hmem := OrderedMap.mem_iff_exists.mpr ⟨queued, htransaction⟩
  obtain ⟨⟨front, hfront⟩, -⟩ := OrderedMap.exists_of_mem_keys hmem
  have hstart : prepareQueueAcceptIteration views key required nearlyFull order =
      .ok (gateCandidate views key required nearlyFull order i ⟨key, queued.payload.txId,
        queued.payload.feeLevel, queued.payload.retriesRemaining, queued.payload.flags⟩
        (front, queue.retryPenalty, queue.dropPenalty, queue.transactions.size)) := by
    rw [prepareQueueAcceptIteration, hindex, snapshotCandidate, queueAcceptAccountState, hqueue,
      expect_some, expect_some, ok_bind, ok_bind, ok_bind, htransaction, hfront]
    rfl
  rw [hstart, gateCandidate, evaluateAcceptCandidate]
  by_cases hskip : (key.seqProxy.isSeq && decide (front < key.seqProxy)) = true
  · rw [if_pos hskip]
    exact .inl ⟨_, rfl⟩
  · rw [if_neg hskip]
    by_cases hfee : required ≤ queued.payload.feeLevel
    · rw [if_pos hfee]
      refine .inr (.inr ⟨_, rfl, rfl, ⟨entry, hi, hentry⟩, ⟨queued, hqueued, rfl, rfl⟩,
        ⟨queue, hqueue, rfl, rfl⟩, hfee, ?_, rfl, rfl⟩)
      intro hseq
      have hge : ¬ front < key.seqProxy := by simpa [hseq] using hskip
      have hle := (OrderedMap.head?_keys_eq_some.mp hfront).2 key.seqProxy hmem
      rw [← isFirst_iff hqueue h, hfront, le_antisymm hle (not_lt.mp hge)]
    · rw [if_neg hfee]
      exact .inr (.inl ⟨_, rfl⟩)

/-- The key that a round takes out of the queue. -/
def QueueAcceptIteration.removed : QueueAcceptIteration Account → Option (FeeQueueKey Account)
  | .skipNotFirst .. => none
  | .stopInsufficientFee .. => none
  | .applied candidate _ _ => some candidate.key
  | .removedFailed candidate _ _ _ => some candidate.key
  | .droppedCurrentTicket candidate _ _ => some candidate.key
  | .retainedFailed _ _ _ _ removedTail _ => removedTail

/-- Keep every key but this one, if there is one. -/
def keepBut : Option (FeeQueueKey Account) → FeeQueueKey Account → Bool
  | none => keepAll
  | some key => keepOthers key

/-- Why a key leaves the queue although its transaction was not applied. -/
def Fails (views : Queue Account Tx) (prepared : PreparedQueueAcceptApply Account) (ter : Ter)
    (key : FeeQueueKey Account) : Prop :=
  (key = prepared.candidate.key ∧
    (ter.isTefFailure = true ∨ ter.isTemMalformed = true ∨
      prepared.candidate.retriesRemaining ≤ 0)) ∨
  (prepared.accountDropPenalty = true ∧ prepared.accountTxnCount > 1 ∧
    prepared.queueNearlyFull = true ∧
    (key = prepared.candidate.key ∧ key.seqProxy.isTicket = true ∨
      prepared.candidate.key.seqProxy.isSeq = true ∧ IsTail views prepared.candidate.key key))

/-- What became of a transaction that was tried. -/
structure Finalized (π : MaybeTxCore (MaybeTx Account Tx) → γ) (views : Queue Account Tx)
    (prepared : PreparedQueueAcceptApply Account) (result : ApplyResult)
    (iteration : QueueAcceptIteration Account) (views' : Queue Account Tx) : Prop where
  becomes : Becomes π (keepBut iteration.removed) views views'
  ledgerChanged_eq : iteration.ledgerChanged = result.applied
  stop_eq : iteration.stopCandidate = none
  applied : result.applied = true → iteration.removed = some prepared.candidate.key
  fails : result.applied = false → ∀ key, iteration.removed = some key →
    Fails views prepared result.ter key
  next_queued : ∀ key, iteration.nextCandidate = some key → (views'.find key).isSome = true
  next_eq : iteration.removed = none →
    iteration.nextCandidate = views'.nextFeeCandidateKey prepared.candidate.key

variable {π : MaybeTxCore (MaybeTx Account Tx) → γ} {prepared : PreparedQueueAcceptApply Account}

theorem nextFeeCandidateKey_queued (hkeyed : Keyed views) (h : (views.find key).isSome = true)
    (next : FeeQueueKey Account) (hnext : views.nextFeeCandidateKey key = some next) :
    (views.find next).isSome = true := by
  obtain ⟨i, entry, hi, rfl, -⟩ := hkeyed.exists_index h
  rw [hkeyed.nextFeeCandidateKey_eq hi] at hnext
  obtain ⟨entry', hentry', rfl⟩ := Option.map_eq_some_iff.mp hnext
  exact hkeyed.isSome_find hentry'

variable {views' : Queue Account Tx}

theorem Becomes.queued (h : Becomes π keepAll views views')
    (hkey : (views.find key).isSome = true) : (views'.find key).isSome = true := by
  rw [h.isSome_find, hkey]
  rfl

theorem IsTail.of_becomes {tail : FeeQueueKey Account} (h : Becomes π keepAll views views')
    (htail : IsTail views' key tail) : IsTail views key tail := by
  have hfind : ∀ other, (views'.find other).isSome = (views.find other).isSome :=
    fun other => h.isSome_find other
  exact ⟨htail.ne, htail.account_eq, (hfind tail).symm.trans htail.isSome_find,
    fun other haccount hsome => htail.le other haccount ((hfind other).trans hsome)⟩

/-- The index of a prepared transaction survives changes that keep all keys. -/
theorem Ready.eraseAndAdvance (hready : Ready views key required nearlyFull order prepared)
    (hkeyed : Keyed views) (h : Becomes π keepAll views views') :
    ∃ next views'', views'.eraseAndAdvance prepared.candidateIndex prepared.order =
        .ok (⟨key, next⟩, views'') ∧ Becomes π (keepOthers key) views views'' ∧
      ∀ key, queueViewNextToOption next = some key → (views''.find key).isSome = true := by
  obtain ⟨entry, hi, rfl⟩ := hready.index
  have hfeeOrder : views'.feeOrder = views.feeOrder := by
    rw [h.feeOrder_eq]
    simp [keepAll]
  rw [← hfeeOrder] at hi
  obtain ⟨next, views'', herase, hbecomes, hnext⟩ := eraseAndAdvance_ok π (h.keyed hkeyed) hi
    (fun hseq => h.isFirst (hready.isFirst hseq)) prepared.order
  exact ⟨next, views'', herase, h.after hbecomes, hnext⟩

theorem decideFailedCandidate_cases (ter : Ter) (retriesRemaining : ℤ)
    (retryPenalty dropPenalty : Bool) (txnCount : ℕ) (nearlyFull : Bool) (seqProxy : SeqProxy) :
    let action := (decideFailedCandidate ter retriesRemaining retryPenalty dropPenalty txnCount
      nearlyFull seqProxy).action
    (action = .removeCurrent ∧
      (ter.isTefFailure = true ∨ ter.isTemMalformed = true ∨ retriesRemaining ≤ 0)) ∨
    (action = .dropCurrentTicket ∧ dropPenalty = true ∧ txnCount > 1 ∧ nearlyFull = true ∧
      seqProxy.isTicket = true) ∨
    (action = .dropLastFromAccount ∧ dropPenalty = true ∧ txnCount > 1 ∧ nearlyFull = true ∧
      seqProxy.isSeq = true) ∨
    action = .keepQueued := by
  unfold decideFailedCandidate
  by_cases hremove :
      (ter.isTefFailure || ter.isTemMalformed || decide (retriesRemaining ≤ 0)) = true
  · rw [if_pos hremove]
    exact .inl ⟨rfl, by simpa [or_assoc] using hremove⟩
  · rw [if_neg hremove]
    by_cases hdrop : (dropPenalty && decide (txnCount > 1) && nearlyFull) = true
    · dsimp only
      rw [if_pos hdrop]
      obtain ⟨⟨hpenalty, hcount⟩, hfull⟩ :
          (dropPenalty = true ∧ txnCount > 1) ∧ nearlyFull = true := by
        simpa using hdrop
      cases hticket : seqProxy.isTicket with
      | true => exact .inr (.inl ⟨if_pos rfl, hpenalty, hcount, hfull, rfl⟩)
      | false =>
        refine .inr (.inr (.inl ⟨if_neg (by simp), hpenalty, hcount, hfull, ?_⟩))
        rw [SeqProxy.isTicket_eq_not] at hticket
        simpa using hticket
    · dsimp only
      rw [if_neg hdrop]
      exact .inr (.inr (.inr rfl))

/-- A failed transaction that stays, and perhaps the last one of its account leaves. -/
theorem retainFailed_ok (hπ : Stable π) (hkeyed : Keyed views)
    {candidate : QueueAcceptCandidate Account} (h : (views.find candidate.key).isSome = true)
    (ter : Ter) (decision : FailedCandidateDecision) :
    ∃ iteration views', retainFailed views candidate ter decision = .ok (iteration, views') ∧
      Becomes π (keepBut iteration.removed) views views' ∧ iteration.ledgerChanged = false ∧
      iteration.stopCandidate = none ∧
      iteration.nextCandidate = views'.nextFeeCandidateKey candidate.key ∧
      (views'.find candidate.key).isSome = true ∧
      ∀ tail, iteration.removed = some tail →
        decision.action = .dropLastFromAccount ∧ IsTail views candidate.key tail := by
  obtain ⟨queued, hqueued⟩ := Option.isSome_iff_exists.mp h
  obtain ⟨views₁, hupdate, h₁⟩ := updatePayload_ok (π := π) hqueued
    "xrpl::TxQ::accept : account found" "xrpl::TxQ::accept : candidate found in account"
    (fun payload => ((), { payload with
      retriesRemaining := decision.nextRetriesRemaining, lastResult := decision.lastResult }))
    (hπ queued _ _)
  have hkey₁ := h₁.queued h
  by_cases hdrop : decision.action = .dropLastFromAccount
  · rw [retainFailed, hupdate, ok_bind, decide_eq_true hdrop]
    dsimp only
    rw [dropTailIf, if_pos rfl]
    rcases dropTail_ok π (h₁.keyed hkeyed) hkey₁ with hnone | ⟨tail, views₂, hsome, htail, h₂⟩
    · rw [hnone]
      exact ⟨_, views₁, rfl, h₁, rfl, rfl, rfl, hkey₁, by simp [QueueAcceptIteration.removed]⟩
    · rw [hsome]
      refine ⟨_, views₂, rfl, h₁.after h₂, rfl, rfl, rfl, ?_, ?_⟩
      · rw [h₂.isSome_find, hkey₁, keepOthers, decide_eq_true htail.ne.symm]
        rfl
      · rintro _ ⟨⟩
        exact ⟨hdrop, htail.of_becomes h₁⟩
  · rw [retainFailed, hupdate, ok_bind, decide_eq_false hdrop]
    exact ⟨_, views₁, rfl, h₁, rfl, rfl, rfl, hkey₁, by simp [QueueAcceptIteration.removed]⟩

theorem finalizePreparedQueueAcceptApply_ok (hπ : Stable π) (hkeyed : Keyed views)
    (hready : Ready views key required nearlyFull order prepared)
    (h : Becomes π keepAll views views') (result : ApplyResult) :
    ∃ iteration views'', finalizePreparedQueueAcceptApply views' prepared result =
        .ok (iteration, views'') ∧ Finalized π views prepared result iteration views'' := by
  obtain ⟨queued, hqueued, -, -⟩ := hready.queued
  have hkey := hready.key_eq
  subst hkey
  have hsome : (views.find prepared.candidate.key).isSome = true := by
    rw [hqueued]
    rfl
  by_cases happlied : result.applied = true
  · obtain ⟨next, views'', herase, hbecomes, hnext⟩ := hready.eraseAndAdvance hkeyed h
    refine ⟨.applied prepared.candidate result.ter (queueViewNextToOption next), views'', ?_,
      hbecomes, happlied.symm, rfl, fun _ => rfl, ?_, hnext, by
        simp [QueueAcceptIteration.removed]⟩
    · rw [finalizePreparedQueueAcceptApply, if_pos happlied, herase]
      rfl
    · rw [happlied]
      simp
  · have hnot : result.applied = false := by simpa using happlied
    rw [finalizePreparedQueueAcceptApply, if_neg happlied]
    dsimp only
    generalize hdecision : decideFailedCandidate result.ter prepared.candidate.retriesRemaining
      prepared.accountRetryPenalty prepared.accountDropPenalty prepared.accountTxnCount
      prepared.queueNearlyFull prepared.candidate.key.seqProxy = decision
    have hcases := decideFailedCandidate_cases result.ter prepared.candidate.retriesRemaining
      prepared.accountRetryPenalty prepared.accountDropPenalty prepared.accountTxnCount
      prepared.queueNearlyFull prepared.candidate.key.seqProxy
    rw [hdecision] at hcases
    obtain ⟨views₁, hmark, h₁⟩ := markPenalty_ok (π := π) (h.queued hsome) decision.penaltyUpdate
    rw [hmark, ok_bind]
    have hall := h.after h₁
    -- both ways of keeping the transaction
    have hretain : ∀ hreason : decision.action = .dropLastFromAccount →
          prepared.accountDropPenalty = true ∧ prepared.accountTxnCount > 1 ∧
          prepared.queueNearlyFull = true ∧ prepared.candidate.key.seqProxy.isSeq = true,
        ∃ iteration views'', retainFailed views₁ prepared.candidate result.ter decision =
          .ok (iteration, views'') ∧ Finalized π views prepared result iteration views'' := by
      intro hreason
      obtain ⟨iteration, views₂, hok, h₂, hchanged, hstop, hnext, hkey₂, htail⟩ :=
        retainFailed_ok hπ (hall.keyed hkeyed) (hall.queued hsome) result.ter decision
      have hbecomes := hall.after h₂
      refine ⟨iteration, views₂, hok, hbecomes, hchanged.trans hnot.symm, hstop, ?_, ?_, ?_, ?_⟩
      · rw [hnot]
        simp
      · intro _ tail hremoved
        obtain ⟨hact, hisTail⟩ := htail tail hremoved
        obtain ⟨hdrop, hcount, hfull, hseq⟩ := hreason hact
        exact .inr ⟨hdrop, hcount, hfull, .inr ⟨hseq, hisTail.of_becomes hall⟩⟩
      · intro next hnext'
        rw [hnext] at hnext'
        exact nextFeeCandidateKey_queued (hbecomes.keyed hkeyed) hkey₂ next hnext'
      · exact fun _ => hnext
    obtain ⟨next, views'', herase, hbecomes, hnext⟩ := hready.eraseAndAdvance hkeyed hall
    rcases hcases with ⟨hact, hreason⟩ | ⟨hact, hdrop, hcount, hfull, hticket⟩ |
      ⟨hact, hdrop, hcount, hfull, hseq⟩ | hact
    · rw [hact]
      refine ⟨.removedFailed prepared.candidate result.ter decision.penaltyUpdate
        (queueViewNextToOption next), views'', by rw [herase]; rfl, hbecomes, hnot.symm, rfl,
        by rw [hnot]; simp, ?_, hnext, by simp [QueueAcceptIteration.removed]⟩
      rintro _ _ ⟨⟩
      exact .inl ⟨rfl, hreason⟩
    · rw [hact]
      refine ⟨.droppedCurrentTicket prepared.candidate result.ter (queueViewNextToOption next),
        views'', by rw [herase]; rfl, hbecomes, hnot.symm, rfl, by rw [hnot]; simp, ?_, hnext,
        by simp [QueueAcceptIteration.removed]⟩
      rintro _ _ ⟨⟩
      exact .inr ⟨hdrop, hcount, hfull, .inl ⟨rfl, hticket⟩⟩
    · rw [hact]
      exact hretain fun _ => ⟨hdrop, hcount, hfull, hseq⟩
    · rw [hact]
      exact hretain fun hlast => by
        rw [hact] at hlast
        cases hlast

variable {iteration : QueueAcceptIteration Account}

/-- What a round does, whether or not it tries the transaction. -/
structure Round (π : MaybeTxCore (MaybeTx Account Tx) → γ) (views : Queue Account Tx)
    (key : FeeQueueKey Account) (iteration : QueueAcceptIteration Account)
    (views' : Queue Account Tx) : Prop where
  becomes : Becomes π (keepBut iteration.removed) views views'
  removed_queued : ∀ other, iteration.removed = some other → (views.find other).isSome = true
  next_queued : ∀ other, iteration.nextCandidate = some other → (views'.find other).isSome = true
  next_eq : iteration.removed = none → iteration.stopCandidate = none →
    iteration.nextCandidate = views'.nextFeeCandidateKey key

theorem Finalized.round {result : ApplyResult}
    (hready : Ready views key required nearlyFull order prepared)
    (h : Finalized π views prepared result iteration views') :
    Round π views key iteration views' := by
  obtain ⟨queued, hqueued, -, -⟩ := hready.queued
  have hkey := hready.key_eq
  subst hkey
  refine ⟨h.becomes, fun other hother => ?_, h.next_queued, fun hnone _ => h.next_eq hnone⟩
  have hcurrent : (views.find prepared.candidate.key).isSome = true := by
    rw [hqueued]
    rfl
  cases happlied : result.applied with
  | true =>
    rw [h.applied happlied] at hother
    cases hother
    exact hcurrent
  | false =>
    rcases h.fails happlied other hother with ⟨rfl, -⟩ | ⟨-, -, -, ⟨rfl, -⟩ | ⟨-, htail⟩⟩
    · exact hcurrent
    · exact hcurrent
    · exact htail.isSome_find

theorem round_skip (hkeyed : Keyed views) (h : (views.find key).isSome = true)
    (candidate : QueueAcceptCandidate Account) :
    Round π views key (.skipNotFirst candidate (views.nextFeeCandidateKey key)) views :=
  ⟨.refl views, by simp [QueueAcceptIteration.removed], nextFeeCandidateKey_queued hkeyed h,
    fun _ _ => rfl⟩

/-- The number of entries from a key on. -/
def remaining (views : Queue Account Tx) : Option (FeeQueueKey Account) → ℕ
  | none => 0
  | some key => views.feeOrder.length - (views.findFeeCandidateIndex key).getD 0

theorem remaining_le (views : Queue Account Tx) (current : Option (FeeQueueKey Account)) :
    remaining views current ≤ views.feeOrder.length := by
  cases current with
  | none => exact Nat.zero_le _
  | some key => exact Nat.sub_le _ _

/-- A bound for the rounds to come: visiting all entries once more for each that leaves. -/
def toVisit (views : Queue Account Tx) (current : Option (FeeQueueKey Account)) : ℕ :=
  views.feeOrder.length * (views.feeOrder.length + 1) + remaining views current

theorem toVisit_lt_of_length_lt (h : views'.feeOrder.length < views.feeOrder.length)
    (current current' : Option (FeeQueueKey Account)) :
    toVisit views' current' < toVisit views current := by
  have hle := remaining_le views' current'
  calc views'.feeOrder.length * (views'.feeOrder.length + 1) + remaining views' current'
      < (views'.feeOrder.length + 1) * (views'.feeOrder.length + 1) := by linarith
    _ ≤ views.feeOrder.length * (views.feeOrder.length + 1) := Nat.mul_le_mul h (by omega)
    _ ≤ _ := Nat.le_add_right _ _

theorem toVisit_next_lt (hkeyed : Keyed views) (h : (views.find key).isSome = true) :
    toVisit views (views.nextFeeCandidateKey key) < toVisit views (some key) := by
  obtain ⟨i, entry, hi, rfl, hindex⟩ := hkeyed.exists_index h
  have hlt := (List.getElem?_eq_some_iff.mp hi).1
  rw [hkeyed.nextFeeCandidateKey_eq hi, toVisit, toVisit]
  refine Nat.add_lt_add_left ?_ _
  simp only [remaining, hindex, Option.getD_some]
  rcases hnext : views.feeOrder[i + 1]? with _ | entry'
  · exact Nat.sub_pos_of_lt hlt
  · have hindex' : views.findFeeCandidateIndex entry'.key = some (i + 1) :=
      SortedList.findIdx?_key hkeyed.nodup hnext
    simp only [Option.map_some, hindex', Option.getD_some]
    omega

theorem Becomes.length_lt {other : FeeQueueKey Account} (hkeyed : Keyed views)
    (h : Becomes π (keepOthers other) views views') (hother : (views.find other).isSome = true) :
    views'.feeOrder.length < views.feeOrder.length := by
  obtain ⟨entry, hentry, rfl⟩ := List.mem_map.mp ((hkeyed.mem_iff other).mpr hother)
  rw [h.feeOrder_eq, List.length_filter_lt_length_iff_exists]
  exact ⟨entry, hentry, by simp [keepOthers]⟩

theorem Becomes.toVisit_eq (h : Becomes π keepAll views views')
    (current : Option (FeeQueueKey Account)) : toVisit views' current = toVisit views current := by
  have hfeeOrder : views'.feeOrder = views.feeOrder := by
    rw [h.feeOrder_eq]
    simp
  have hremaining : remaining views' current = remaining views current := by
    cases current with
    | none => rfl
    | some key => simp only [remaining, QueueViews.findFeeCandidateIndex, hfeeOrder]
  rw [toVisit, toVisit, hfeeOrder, hremaining]

theorem Round.toVisit_lt (hkeyed : Keyed views) (hkey : (views.find key).isSome = true)
    (h : Round π views key iteration views') (hstop : iteration.stopCandidate = none) :
    toVisit views' iteration.nextCandidate < toVisit views (some key) := by
  have hbecomes := h.becomes
  rcases hremoved : iteration.removed with _ | other
  · rw [hremoved] at hbecomes
    have hkey' : (views'.find key).isSome = true := hbecomes.queued hkey
    have hall : Becomes π keepAll views views' := hbecomes
    rw [h.next_eq hremoved hstop, ← hall.toVisit_eq (some key)]
    exact toVisit_next_lt (hall.keyed hkeyed) hkey'
  · rw [hremoved] at hbecomes
    exact toVisit_lt_of_length_lt
      (Becomes.length_lt hkeyed hbecomes (h.removed_queued other hremoved)) _ _

end Quaxar.TxQ
