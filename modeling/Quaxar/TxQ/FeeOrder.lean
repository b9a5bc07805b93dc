import Quaxar.TxQ.Iteration

/-!
# The order of fees

`Agrees` adds to `Keyed` that every entry of the order carries the fee level and the id of its
transaction and that the order is sorted. Every change outside `accept` keeps it, and so does
rebuilding the order for another ledger.
-/

namespace Quaxar.TxQ

open Protocol (SeqProxy Ter)
open Std (ExtTreeMap)
open Except (ok_bind)

variable {Account Tx : Type} [LinearOrder Account]

/-- Higher fee levels come first, and then smaller ids under the mask of the ledger. -/
def rank (order : OrderCandidates) (entry : FeeQueueEntry Account) : ℕᵒᵈ ×ₗ Uint256 :=
  toLex (OrderDual.toDual entry.candidate.feeLevel, entry.candidate.txId.xor order.parentHashComp)

/-- The order of two entries. -/
def Precedes (order : OrderCandidates) (a b : FeeQueueEntry Account) : Prop :=
  b.candidate.feeLevel < a.candidate.feeLevel ∨
    (a.candidate.feeLevel = b.candidate.feeLevel ∧
      a.candidate.txId.xor order.parentHashComp ≤ b.candidate.txId.xor order.parentHashComp)

variable {order : OrderCandidates} {a b : FeeQueueEntry Account}

omit [LinearOrder Account] in
theorem precedes_iff : Precedes order a b ↔ rank order a ≤ rank order b := by
  rw [rank, rank, Prod.Lex.toLex_le_toLex]
  simp [Precedes]

omit [LinearOrder Account] in
theorem compares_iff : order.comparesByFeeAndTxId a.candidate.feeLevel a.candidate.txId
    b.candidate.feeLevel b.candidate.txId = decide (rank order a < rank order b) := by
  rw [OrderCandidates.comparesByFeeAndTxId, Bool.eq_iff_iff, decide_eq_true_iff, rank, rank,
    Prod.Lex.toLex_lt_toLex]
  by_cases heq : a.candidate.feeLevel = b.candidate.feeLevel
  · rw [if_pos heq, decide_eq_true_iff]
    simp [heq]
  · rw [if_neg heq, decide_eq_true_iff]
    simp [heq]

theorem insertFeeEntry_eq {T : Type} (views : QueueViews Account T) (entry : FeeQueueEntry Account)
    (order : OrderCandidates) : views.insertFeeEntry entry order =
      ⟨SortedList.insertBy (rank order) entry views.feeOrder, views.accounts⟩ := by
  rw [QueueViews.insertFeeEntry, SortedList.insertBy]
  simp only [compares_iff]

/-- What the order of fees shows of a transaction. -/
def standing (queued : MaybeTxCore (MaybeTx Account Tx)) : FeeLevel64 × Uint256 :=
  (queued.payload.feeLevel, queued.payload.txId)

/-- The two views agree, and the order of fees is sorted. -/
structure Agrees (order : OrderCandidates) (views : Queue Account Tx) :
    Prop extends Keyed views where
  candidate_eq : ∀ entry ∈ views.feeOrder, (views.find entry.key).map standing =
    some (entry.candidate.feeLevel, entry.candidate.txId)
  sorted : views.feeOrder.Pairwise (Precedes order)

variable {views views' : Queue Account Tx} {key : FeeQueueKey Account}
  {keep : FeeQueueKey Account → Bool}

theorem agrees_empty (order : OrderCandidates) : Agrees order (⟨[], ∅⟩ : Queue Account Tx) where
  account_eq account queue h := by simp at h
  nodup := List.nodup_nil
  mem_iff key := by simp [QueueViews.find]
  seqProxy_eq := by simp
  candidate_eq := by simp
  sorted := List.Pairwise.nil

theorem Agrees.becomes (h : Agrees order views) (hbecomes : Becomes standing keep views views') :
    Agrees order views' where
  toKeyed := hbecomes.keyed h.toKeyed
  candidate_eq entry hentry := by
    rw [hbecomes.feeOrder_eq, List.mem_filter] at hentry
    rw [hbecomes.find_eq, if_pos hentry.2]
    exact h.candidate_eq entry hentry.1
  sorted := by
    rw [hbecomes.feeOrder_eq]
    exact h.sorted.filter _

theorem agrees_of_entries (haccount : ∀ (account : Account) (queue : TxQAccount Account _),
      views.accounts[account]? = some queue → queue.account = account)
    (hnodup : (views.feeOrder.map FeeQueueEntry.key).Nodup)
    (hmem : ∀ entry, entry ∈ views.feeOrder ↔ ∃ queued, views.find entry.key = some queued ∧
      entry.candidate = ⟨queued.payload.feeLevel, queued.payload.txId, entry.key.seqProxy⟩)
    (hsort : views.feeOrder.Pairwise fun a b => rank order a ≤ rank order b) :
    Agrees order views where
  account_eq := haccount
  nodup := hnodup
  mem_iff key := by
    rw [List.mem_map, Option.isSome_iff_exists]
    constructor
    · rintro ⟨entry, hentry, rfl⟩
      obtain ⟨queued, hqueued, -⟩ := (hmem entry).mp hentry
      exact ⟨queued, hqueued⟩
    · rintro ⟨queued, hqueued⟩
      exact ⟨⟨key, ⟨queued.payload.feeLevel, queued.payload.txId, key.seqProxy⟩⟩,
        (hmem _).mpr ⟨queued, hqueued, rfl⟩, rfl⟩
  seqProxy_eq entry hentry := by
    obtain ⟨queued, -, hcandidate⟩ := (hmem entry).mp hentry
    rw [hcandidate]
  candidate_eq entry hentry := by
    obtain ⟨queued, hqueued, hcandidate⟩ := (hmem entry).mp hentry
    rw [hqueued, hcandidate]
    rfl
  sorted := hsort.imp precedes_iff.mpr

theorem Agrees.mem_feeOrder (h : Agrees order views) (entry : FeeQueueEntry Account) :
    entry ∈ views.feeOrder ↔ ∃ queued, views.find entry.key = some queued ∧
      entry.candidate = ⟨queued.payload.feeLevel, queued.payload.txId, entry.key.seqProxy⟩ := by
  have hshape : ∀ entry ∈ views.feeOrder, ∀ queued, views.find entry.key = some queued →
      entry.candidate = ⟨queued.payload.feeLevel, queued.payload.txId, entry.key.seqProxy⟩ := by
    intro entry hentry queued hqueued
    have hcandidate := h.candidate_eq entry hentry
    rw [hqueued] at hcandidate
    obtain ⟨hfee, hid⟩ := Prod.mk.inj (Option.some.inj hcandidate)
    rw [hfee, hid, ← h.seqProxy_eq entry hentry]
  constructor
  · intro hentry
    obtain ⟨queued, hqueued⟩ := Option.isSome_iff_exists.mp
      ((h.mem_iff entry.key).mp (List.mem_map_of_mem hentry))
    exact ⟨queued, hqueued, hshape entry hentry queued hqueued⟩
  · rintro ⟨queued, hqueued, hcandidate⟩
    obtain ⟨entry', hentry', hkey⟩ := List.mem_map.mp
      ((h.mem_iff entry.key).mpr (by rw [hqueued]; rfl))
    have hcandidate' := hshape entry' hentry' queued (by rw [hkey, hqueued])
    have heq : entry = entry' := by
      obtain ⟨key, candidate⟩ := entry
      obtain ⟨key', candidate'⟩ := entry'
      obtain rfl : key' = key := hkey
      exact congrArg _ (hcandidate.trans hcandidate'.symm)
    exact heq ▸ hentry'

theorem Agrees.insert (h : Agrees order views) {queued : MaybeTxCore (MaybeTx Account Tx)}
    (hnone : views.find key = none)
    (haccount : ∀ (account : Account) (queue : TxQAccount Account _),
      views'.accounts[account]? = some queue → queue.account = account)
    (hfind : ∀ other, views'.find other = if other = key then some queued else views.find other)
    (hfeeOrder : views'.feeOrder = SortedList.insertBy (rank order)
      (feeEntry key.account key.seqProxy queued.payload.feeLevel queued.payload.txId)
      views.feeOrder) : Agrees order views' := by
  have hperm := SortedList.insertBy_perm (rank order)
    (feeEntry key.account key.seqProxy queued.payload.feeLevel queued.payload.txId) views.feeOrder
  refine agrees_of_entries haccount ?_ ?_ ?_
  · rw [hfeeOrder, (hperm.map _).nodup_iff, List.map_cons, List.nodup_cons]
    refine ⟨fun hmem => ?_, h.nodup⟩
    have hsome := (h.mem_iff key).mp hmem
    rw [hnone] at hsome
    cases hsome
  · intro entry
    rw [hfeeOrder, hperm.mem_iff, List.mem_cons, h.mem_feeOrder, hfind]
    by_cases hkey : entry.key = key
    · subst hkey
      rw [if_pos rfl, hnone]
      constructor
      · rintro (heq | ⟨_, ⟨⟩, -⟩)
        exact ⟨queued, rfl, by rw [heq]; rfl⟩
      · rintro ⟨_, ⟨⟩, hcandidate⟩
        refine .inl ?_
        obtain ⟨key, candidate⟩ := entry
        exact congrArg _ hcandidate
    · rw [if_neg hkey]
      refine or_iff_right ?_
      rintro rfl
      exact hkey rfl
  · rw [hfeeOrder]
    exact SortedList.pairwise_insertBy (h.sorted.imp precedes_iff.mp)

variable {T γ : Type}

theorem removeReplacedCandidate_ok {views : QueueViews Account T} (π : MaybeTxCore T → γ)
    (hkeyed : Keyed views) (hkey : (views.find key).isSome = true) :
    ∃ views', views.removeReplacedCandidate (some key) key.account key.seqProxy =
      .ok (some key, views') ∧ Becomes π (keepOthers key) views views' := by
  obtain ⟨i, entry, hi, rfl, hindex⟩ := hkeyed.exists_index hkey
  obtain ⟨queued, hqueued⟩ := Option.isSome_iff_exists.mp hkey
  obtain ⟨queue, hqueue, htransaction⟩ := exists_queue hqueued
  refine ⟨_, ?_, becomes_removeQueued π hkeyed hi hqueue⟩
  rw [QueueViews.removeReplacedCandidate, hindex, expect_some, ok_bind,
    decide_eq_true rfl, ensure_true, ok_bind, decide_eq_true rfl, ensure_true,
    ok_bind, removeQueued_eq views hqueue htransaction, ok_bind, hi]
  rfl

theorem withAccount_spec (hkeyed : Keyed views) (account : Account) :
    ∃ queue, (withAccount views.accounts account)[account]? = some queue ∧
      queue.account = account ∧
      (∀ seqProxy, queue.transactions[seqProxy]? = views.find ⟨account, seqProxy⟩) ∧
      ∀ other, other ≠ account →
        (withAccount views.accounts account)[other]? = views.accounts[other]? := by
  rcases hqueue : views.accounts[account]? with _ | queue
  · have haccounts : withAccount views.accounts account =
        views.accounts.insert account (.new account) := if_pos (by rw [hqueue]; rfl)
    refine ⟨.new account, ?_, rfl, fun seqProxy => ?_, fun other hne => ?_⟩
    · rw [haccounts, OrderedMap.getElem?_insert, if_pos rfl]
    · rw [QueueViews.find, hqueue]
      simp [TxQAccount.new]
    · rw [haccounts, OrderedMap.getElem?_insert, if_neg (Ne.symm hne)]
  · have haccounts : withAccount views.accounts account = views.accounts :=
      if_neg (by rw [hqueue]; simp)
    exact ⟨queue, by rw [haccounts, hqueue], hkeyed.account_eq account queue hqueue,
      fun seqProxy => (find_eq_of_queue hqueue seqProxy).symm, fun other _ => by rw [haccounts]⟩

variable {account : Account} {seqProxy : SeqProxy}

theorem Agrees.addQueued (h : Agrees order views) (hnone : views.find ⟨account, seqProxy⟩ = none)
    (queued : MaybeTxCore (MaybeTx Account Tx)) :
    ∃ queue queue', (withAccount views.accounts account)[account]? = some queue ∧
      queue.add seqProxy queued = .ok queue' ∧
      Agrees order ⟨SortedList.insertBy (rank order) (feeEntry account seqProxy
        queued.payload.feeLevel queued.payload.txId) views.feeOrder,
        (withAccount views.accounts account).insert account queue'⟩ := by
  obtain ⟨queue, hqueue, haccount, htransactions, hother⟩ := withAccount_spec h.toKeyed account
  let queue' := { queue with transactions := queue.transactions.insert seqProxy queued }
  have hlookup : ∀ other : Account,
      ((withAccount views.accounts account).insert account queue')[other]? =
        if account = other then some queue' else views.accounts[other]? := by
    intro other
    rw [OrderedMap.getElem?_insert]
    split_ifs with heq
    · rfl
    · exact hother other (Ne.symm heq)
  refine ⟨queue, queue', hqueue, ?_, h.insert hnone ?_ ?_ rfl⟩
  · rw [TxQAccount.add, htransactions, hnone]
    rfl
  · intro other queue'' hqueue''
    rw [hlookup] at hqueue''
    split_ifs at hqueue'' with heq
    · cases hqueue''
      exact haccount.trans heq
    · exact h.account_eq other queue'' hqueue''
  · rintro ⟨other, s⟩
    rw [QueueViews.find, hlookup]
    by_cases heq : account = other
    · subst heq
      rw [if_pos rfl]
      change (queue.transactions.insert seqProxy queued)[s]? = _
      rw [OrderedMap.getElem?_insert, htransactions]
      by_cases hs : seqProxy = s
      · subst hs
        rw [if_pos rfl, if_pos rfl]
      · rw [if_neg hs, if_neg fun hkey => hs (FeeQueueKey.mk.inj hkey).2.symm]
    · rw [if_neg heq, if_neg fun hkey => heq (FeeQueueKey.mk.inj hkey).1.symm]
      rfl

/-- A transaction is enqueued under a new key or replaces the one under its key. -/
theorem enqueueQueueApplyCandidate_ok (h : Agrees order views)
    {replaced : Option (FeeQueueKey Account)}
    (hreplaced : replaced = none ∧ views.find ⟨account, seqProxy⟩ = none ∨
      replaced = some ⟨account, seqProxy⟩ ∧ (views.find ⟨account, seqProxy⟩).isSome = true)
    (txId : Uint256) (lastValid : Option ℕ) (feeLevel : FeeLevel64) (flags : ApplyFlags)
    (pfResult : PreflightResult Tx) :
    ∃ result views', enqueueQueueApplyCandidate views replaced account txId lastValid seqProxy
      feeLevel flags pfResult order = .ok (result, views') ∧ Agrees order views' := by
  obtain ⟨removed, views₁, hremoval, h₁, hnone⟩ : ∃ removed views₁,
      views.removeReplacedCandidate replaced account seqProxy = .ok (removed, views₁) ∧
      Agrees order views₁ ∧ views₁.find ⟨account, seqProxy⟩ = none := by
    rcases hreplaced with ⟨rfl, hnone⟩ | ⟨rfl, hsome⟩
    · exact ⟨none, views, rfl, h, hnone⟩
    · obtain ⟨views₁, hremove, hbecomes⟩ := removeReplacedCandidate_ok standing h.toKeyed hsome
      refine ⟨_, views₁, hremove, h.becomes hbecomes, ?_⟩
      rw [← Option.not_isSome_iff_eq_none, hbecomes.isSome_find]
      simp [keepOthers]
  obtain ⟨queue, queue', hqueue, hadd, h₂⟩ := h₁.addQueued hnone
    ⟨MaybeTx.new txId feeLevel account lastValid seqProxy (flags &&& ~~~ApplyFlags.retry) pfResult,
      pfResult.consequences⟩
  refine ⟨⟨⟨account, seqProxy⟩, removed, views₁.accounts[account]?.isNone,
    flags &&& ~~~ApplyFlags.retry⟩, _, ?_, h₂⟩
  rw [enqueueQueueApplyCandidate, hremoval, ok_bind]
  dsimp only
  rw [hqueue, expect_some, ok_bind, hadd, ok_bind, insertFeeEntry_eq]
  rfl

omit [LinearOrder Account] in
theorem computeEndEffectiveFeeLevel_ok {queue : TxQAccount Account (MaybeTx Account Tx)}
    (h : queue.transactions.size ≠ 0) (tail candidate : FeeLevel64) :
    ∃ level, computeEndEffectiveFeeLevel tail candidate queue = .ok level := by
  rw [computeEndEffectiveFeeLevel]
  dsimp only
  split_ifs
  · exact ⟨_, rfl⟩
  · exact ⟨_, rfl⟩

/-- The transaction that makes room for another is queued. -/
theorem evaluateQueueApplyFullQueue_ok (h : Keyed views) (replacesExisting queueIsFull : Bool)
    (account : Account) (feeLevel : FeeLevel64) :
    ∃ decision, evaluateQueueApplyFullQueue replacesExisting queueIsFull account feeLevel views =
        .ok decision ∧
      ∀ dropped level, decision = .evictCheapest dropped level →
        (views.find dropped).isSome = true := by
  rw [evaluateQueueApplyFullQueue]
  by_cases hbypass : (replacesExisting || !queueIsFull) = true
  · rw [if_pos hbypass]
    exact ⟨.bypass, rfl, by simp⟩
  rw [if_neg hbypass]
  rcases hlast : views.feeOrder.reverse.find? fun entry => decide (entry.key.account ≠ account) with
    _ | last
  · rw [hlast]
    exact ⟨.rejectFullSameAccount, rfl, by simp⟩
  have hentry : last ∈ views.feeOrder := List.mem_reverse.mp (List.mem_of_find?_eq_some hlast)
  obtain ⟨queued, hqueued⟩ := Option.isSome_iff_exists.mp
    ((h.mem_iff last.key).mp (List.mem_map_of_mem hentry))
  obtain ⟨queue, hqueue, htransaction⟩ := exists_queue hqueued
  have hmem := OrderedMap.mem_iff_exists.mpr ⟨queued, htransaction⟩
  obtain ⟨-, cheapest, hcheapest⟩ := OrderedMap.exists_of_mem_keys hmem
  have hsize : queue.transactions.size ≠ 0 := by
    intro hzero
    rw [← ExtTreeMap.length_keys, List.length_eq_zero_iff] at hzero
    rw [hzero] at hcheapest
    cases hcheapest
  obtain ⟨level, hlevel⟩ := computeEndEffectiveFeeLevel_ok hsize last.candidate.feeLevel feeLevel
  rw [hlast]
  dsimp only
  rw [hqueue, expect_some, ok_bind, hlevel, ok_bind]
  by_cases hfee : feeLevel ≤ level
  · rw [if_pos hfee]
    exact ⟨_, rfl, by simp⟩
  · rw [if_neg hfee, hcheapest, expect_some, ok_bind]
    refine ⟨_, rfl, ?_⟩
    rintro _ _ ⟨⟩
    rw [find_eq_of_queue hqueue, ← ExtTreeMap.mem_iff_isSome_getElem?]
    exact (OrderedMap.getLast?_keys_eq_some hcheapest).1

theorem applyQueueApplyFullQueueDecision_ok (h : Agrees order views)
    {decision : QueueApplyFullQueueDecision Account}
    (hdropped : ∀ dropped level, decision = .evictCheapest dropped level →
      (views.find dropped).isSome = true) :
    ∃ views', applyQueueApplyFullQueueDecision views decision = .ok (decision, views') ∧
      Agrees order views' := by
  cases decision with
  | bypass => exact ⟨views, rfl, h⟩
  | rejectFullSameAccount => exact ⟨views, rfl, h⟩
  | rejectFullLowerFee level => exact ⟨views, rfl, h⟩
  | evictCheapest dropped level =>
    obtain ⟨views', hremove, hbecomes⟩ := removeFeeCandidateByKey_ok standing h.toKeyed
      (hdropped dropped level rfl)
    refine ⟨views', ?_, h.becomes hbecomes⟩
    rw [applyQueueApplyFullQueueDecision, hremove, ok_bind, decide_eq_true rfl]
    rfl

theorem cleanupDirectApplySuccess_ok (h : Agrees order views) (account : Account)
    (seqProxy : SeqProxy) :
    ∃ removed views', views.cleanupDirectApplySuccess account seqProxy = .ok (removed, views') ∧
      Agrees order views' := by
  rw [QueueViews.cleanupDirectApplySuccess]
  rcases hqueue : views.accounts[account]? with _ | queue
  · exact ⟨none, views, rfl, h⟩
  · rw [Option.bind_some]
    by_cases hsome : queue.transactions[seqProxy]?.isSome = true
    · rw [if_pos hsome]
      have hkey : (views.find ⟨account, seqProxy⟩).isSome = true := by
        rw [find_eq_of_queue hqueue, hsome]
      obtain ⟨views', hremove, hbecomes⟩ := removeReplacedCandidate_ok standing h.toKeyed hkey
      exact ⟨_, views', hremove, h.becomes hbecomes⟩
    · rw [if_neg hsome]
      exact ⟨none, views, rfl, h⟩

omit [LinearOrder Account] in
/-- Recording attempts changes nothing that the order of fees shows. -/
theorem foldl_recordAttempt (attempts : List (SeqProxy × ApplyResult))
    (queue : TxQAccount Account (MaybeTx Account Tx)) :
    (attempts.foldl recordAttempt queue).account = queue.account ∧
      ∀ seqProxy : SeqProxy,
        ((attempts.foldl recordAttempt queue).transactions[seqProxy]?).map standing =
        (queue.transactions[seqProxy]?).map standing := by
  induction attempts generalizing queue with
  | nil => exact ⟨rfl, fun _ => rfl⟩
  | cons attempt attempts ih =>
    obtain ⟨haccount, htransactions⟩ := ih (recordAttempt queue attempt)
    rw [List.foldl_cons, haccount]
    simp only [htransactions]
    rw [recordAttempt]
    rcases hqueued : queue.transactions[attempt.1]? with _ | queued
    · exact ⟨rfl, fun _ => rfl⟩
    · refine ⟨rfl, fun seqProxy => ?_⟩
      dsimp only
      rw [OrderedMap.getElem?_insert]
      split_ifs with heq
      · subst heq
        rw [hqueued]
        rfl
      · rfl

omit [LinearOrder Account] in
theorem foldl_remove (removed : List SeqProxy) (queue : TxQAccount Account (MaybeTx Account Tx)) :
    (removed.foldl (fun queue seqProxy => (queue.remove seqProxy).2) queue).account =
        queue.account ∧
      ∀ seqProxy : SeqProxy,
        (removed.foldl (fun queue seqProxy => (queue.remove seqProxy).2)
          queue).transactions[seqProxy]? =
          if seqProxy ∈ removed then none else queue.transactions[seqProxy]? := by
  induction removed generalizing queue with
  | nil => exact ⟨rfl, fun _ => by simp⟩
  | cons first removed ih =>
    obtain ⟨haccount, htransactions⟩ := ih (queue.remove first).2
    rw [List.foldl_cons]
    refine ⟨haccount, fun seqProxy => ?_⟩
    rw [htransactions, TxQAccount.remove]
    dsimp only
    rw [OrderedMap.getElem?_erase]
    by_cases heq : first = seqProxy
    · simp [heq]
    · simp [heq, Ne.symm heq]

/-- Keep every key but those of one account that are listed. -/
def keepUnlisted (account : Account) (removed : List SeqProxy) : FeeQueueKey Account → Bool :=
  fun key => decide (key.account ≠ account ∨ key.seqProxy ∉ removed)

theorem becomes_applyTryClearEffects (views : Queue Account Tx) (account : Account)
    (attempts : List (SeqProxy × ApplyResult)) (removed : List SeqProxy) :
    Becomes standing (keepUnlisted account removed) views
      (applyTryClearEffects views account attempts removed) := by
  have hfeeOrder : (if removed.isEmpty then views.feeOrder
      else views.feeOrder.filter fun entry => keepUnlisted account removed entry.key) =
      views.feeOrder.filter fun entry => keepUnlisted account removed entry.key := by
    split_ifs with hempty
    · rw [List.isEmpty_iff.mp hempty]
      simp [keepUnlisted]
    · rfl
  rw [applyTryClearEffects]
  by_cases hnothing : (attempts.isEmpty && removed.isEmpty) = true
  · rw [if_pos hnothing]
    obtain ⟨rfl, rfl⟩ : attempts = [] ∧ removed = [] := by simpa using hnothing
    have hkeep : keepUnlisted account [] = keepAll := by
      funext key
      simp [keepUnlisted]
    rw [hkeep]
    exact .refl views
  rw [if_neg hnothing]
  rcases hqueue : views.accounts[account]? with _ | queue
  · refine ⟨hfeeOrder, fun key => ?_, fun other queue' hqueue' => ⟨queue', hqueue', rfl⟩⟩
    rw [find_mk]
    split_ifs with hkeep
    · rfl
    · have heq : key.account = account := by
        by_contra hne
        exact hkeep (decide_eq_true (.inl hne))
      rw [QueueViews.find, heq, hqueue]
      rfl
  · obtain ⟨haccount, hrecorded⟩ := foldl_recordAttempt attempts queue
    obtain ⟨haccount', hremoved⟩ := foldl_remove removed (attempts.foldl recordAttempt queue)
    refine becomes_insert hqueue (haccount'.trans haccount) hfeeOrder ?_ ?_
    · intro seqProxy
      rw [hremoved]
      by_cases hlisted : seqProxy ∈ removed
      · simp [keepUnlisted, hlisted]
      · simp [keepUnlisted, hlisted, hrecorded]
    · intro key hother
      exact decide_eq_true (.inl (Ne.symm hother))

end Quaxar.TxQ
