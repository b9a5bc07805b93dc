import Quaxar.TxQ.FeeOrder

/-!
# The queue between two ledgers

When a ledger closes, transactions that can no longer be valid leave both views, and so do the
accounts that are left without any. Rebuilding the order for the next ledger sorts the entries
of all queued transactions under another mask.
-/

namespace Quaxar.TxQ

open Protocol (SeqProxy Ter)
open Std (ExtTreeMap)

variable {Account Tx : Type} [LinearOrder Account] {views : Queue Account Tx}

/-- The key of a candidate. -/
def ClosedLedgerCandidate.key (candidate : ClosedLedgerCandidate Account) : FeeQueueKey Account :=
  ⟨candidate.account, candidate.seqProxy⟩

/-- Keep every key but those that expired. -/
def keepUnexpired (expired : List (ClosedLedgerCandidate Account)) : FeeQueueKey Account → Bool :=
  fun key => decide (key ∉ expired.map ClosedLedgerCandidate.key)

theorem expireCandidate_ok (hkeyed : Keyed views) {candidate : ClosedLedgerCandidate Account}
    (h : (views.find candidate.key).isSome = true) (ledgerSeq : ℕ)
    (expired : List (ClosedLedgerCandidate Account)) :
    expireCandidate ledgerSeq (views.accounts, expired) candidate = .ok (views.accounts, expired) ∨
      ∃ views', expireCandidate ledgerSeq (views.accounts, expired) candidate =
          .ok (views'.accounts, expired ++ [candidate]) ∧
        Becomes standing (keepOthers candidate.key) views views' := by
  rw [expireCandidate]
  by_cases hvalid : candidate.lastValid.all (ledgerSeq < ·) = true
  · rw [if_pos hvalid]
    exact .inl rfl
  rw [if_neg hvalid]
  obtain ⟨queued, hqueued⟩ := Option.isSome_iff_exists.mp h
  obtain ⟨queue, hqueue, htransaction⟩ := exists_queue hqueued
  obtain ⟨i, entry, hi, hentry, -⟩ := hkeyed.exists_index h
  have hlookup : views.accounts[candidate.account]? = some queue := hqueue
  have hlookup' : views.accounts[entry.key.account]? = some queue := by
    rw [hentry, hqueue]
  have hremove : ({ queue with dropPenalty := true }.remove candidate.seqProxy).1 = true :=
    Option.isSome_iff_exists.mpr ⟨queued, htransaction⟩
  have hbecomes : Becomes standing (keepOthers entry.key) views ⟨views.feeOrder.eraseIdx i,
      views.accounts.insert entry.key.account
        ({ queue with dropPenalty := true }.remove entry.key.seqProxy).2⟩ :=
    becomes_eraseQueued standing hkeyed hi hlookup' rfl rfl
  rw [hentry] at hbecomes
  refine .inr ⟨_, ?_, hbecomes⟩
  rw [hlookup, expect_some, Except.ok_bind,
    decide_eq_true (hkeyed.account_eq candidate.account queue hlookup), ensure_true,
    Except.ok_bind]
  dsimp only
  rw [hremove, ensure_true]
  rfl

theorem foldlM_expireCandidate (ledgerSeq : ℕ) (candidates : List (ClosedLedgerCandidate Account))
    {views₁ : Queue Account Tx} {expired : List (ClosedLedgerCandidate Account)}
    (hkeyed : Keyed views) (h : Becomes standing (keepUnexpired expired) views views₁)
    (hnodup : (candidates.map ClosedLedgerCandidate.key).Nodup)
    (hqueued : ∀ candidate ∈ candidates, (views₁.find candidate.key).isSome = true) :
    ∃ views₂ expired', candidates.foldlM (expireCandidate ledgerSeq) (views₁.accounts, expired) =
        .ok (views₂.accounts, expired') ∧
      Becomes standing (keepUnexpired expired') views views₂ := by
  induction candidates generalizing views₁ expired with
  | nil => exact ⟨views₁, expired, rfl, h⟩
  | cons candidate candidates ih =>
    rw [List.map_cons, List.nodup_cons] at hnodup
    have htail : ∀ other ∈ candidates, (views₁.find other.key).isSome = true :=
      fun other hother => hqueued other (List.mem_cons_of_mem _ hother)
    rw [List.foldlM_cons]
    rcases expireCandidate_ok (h.keyed hkeyed) (hqueued candidate List.mem_cons_self) ledgerSeq
      expired with hkept | ⟨views', hexpired, hbecomes⟩
    · rw [hkept]
      exact ih h hnodup.2 htail
    · rw [hexpired]
      have hkeep : (fun key => keepUnexpired expired key && keepOthers candidate.key key) =
          keepUnexpired (expired ++ [candidate]) := by
        funext key
        simp [keepUnexpired, keepOthers]
      have hnext := h.trans hbecomes
      rw [hkeep] at hnext
      refine ih hnext hnodup.2 fun other hother => ?_
      have hne : other.key ≠ candidate.key := by
        intro heq
        exact hnodup.1 (heq ▸ List.mem_map_of_mem hother)
      rw [hbecomes.isSome_find, htail other hother, keepOthers, decide_eq_true hne]
      rfl

theorem foldlM_removeEmptied (emptied : List Account) (accounts : Accounts Account Tx)
    (hnodup : emptied.Nodup) (hmem : ∀ account ∈ emptied, account ∈ accounts) :
    ∃ accounts', emptied.foldlM removeEmptied accounts = .ok accounts' ∧
      ∀ account : Account,
        accounts'[account]? = if account ∈ emptied then none else accounts[account]? := by
  induction emptied generalizing accounts with
  | nil => exact ⟨accounts, rfl, fun _ => by simp⟩
  | cons first emptied ih =>
    rw [List.nodup_cons] at hnodup
    have hfirst : accounts[first]?.isSome = true :=
      ExtTreeMap.mem_iff_isSome_getElem?.mp (hmem first List.mem_cons_self)
    obtain ⟨accounts', hfold, hlookup⟩ := ih (accounts.erase first) hnodup.2
      fun account haccount => by
      have hne : first ≠ account := fun heq => hnodup.1 (heq ▸ haccount)
      rw [ExtTreeMap.mem_iff_isSome_getElem?, OrderedMap.getElem?_erase, if_neg hne,
        ← ExtTreeMap.mem_iff_isSome_getElem?]
      exact hmem account (List.mem_cons_of_mem _ haccount)
    refine ⟨accounts', ?_, fun account => ?_⟩
    · rw [List.foldlM_cons, removeEmptied, hfirst]
      exact hfold
    · rw [hlookup, OrderedMap.getElem?_erase]
      by_cases heq : first = account
      · simp [heq]
      · simp [heq, Ne.symm heq]

theorem becomes_removeEmptied {emptied : List Account} {accounts' : Accounts Account Tx}
    (hempty : ∀ account ∈ emptied, ∀ queue : TxQAccount Account (MaybeTx Account Tx),
      views.accounts[account]? = some queue → queue.empty = true)
    (hlookup : ∀ account : Account,
      accounts'[account]? = if account ∈ emptied then none else views.accounts[account]?) :
    Becomes standing keepAll views ⟨views.feeOrder, accounts'⟩ where
  feeOrder_eq := by simp
  find_eq key := by
    rw [keepAll_apply, if_pos rfl, QueueViews.find, QueueViews.find, hlookup]
    split_ifs with hmem
    · rcases hqueue : views.accounts[key.account]? with _ | queue
      · rfl
      · have hnone : queue.transactions = ∅ :=
          ExtTreeMap.isEmpty_iff.mp (hempty key.account hmem queue hqueue)
        simp [hnone]
    · rfl
  account_eq account queue' hqueue' := by
    have hqueue : accounts'[account]? = some queue' := hqueue'
    rw [hlookup] at hqueue
    split_ifs at hqueue
    exact ⟨queue', hqueue, rfl⟩

variable {order : OrderCandidates}

theorem processClosedLedgerAccounts_ok (hkeyed : Keyed views)
    {candidates : List (ClosedLedgerCandidate Account)}
    (hnodup : (candidates.map ClosedLedgerCandidate.key).Nodup)
    (hqueued : ∀ candidate ∈ candidates, (views.find candidate.key).isSome = true)
    (ledgerSeq currentMaxSize : ℕ) (timeLeap : Bool)
    (txnsExpected ledgersInQueue queueSizeMin : ℕ) :
    ∃ result accounts', processClosedLedgerAccounts views.accounts candidates ledgerSeq
        currentMaxSize timeLeap txnsExpected ledgersInQueue queueSizeMin = .ok (result, accounts') ∧
      Becomes standing (keepUnexpired result.expiredCandidates) views
        ⟨views.feeOrder.filter fun entry => keepUnexpired result.expiredCandidates entry.key,
          accounts'⟩ := by
  have hstart : Becomes standing (keepUnexpired []) views views := .refl views
  obtain ⟨views₁, expired, hfold, hbecomes⟩ :=
    foldlM_expireCandidate ledgerSeq candidates hkeyed hstart hnodup hqueued
  have hemptied : ∀ account ∈ (views₁.accounts.toList.filter fun item => item.2.empty).map Prod.fst,
      ∃ queue, views₁.accounts[account]? = some queue ∧ queue.empty = true := by
    intro account hmem
    obtain ⟨⟨account', queue⟩, hitem, rfl⟩ := List.mem_map.mp hmem
    obtain ⟨hitem, hempty⟩ := List.mem_filter.mp hitem
    exact ⟨queue, ExtTreeMap.mem_toList_iff_getElem?_eq_some.mp hitem, hempty⟩
  obtain ⟨accounts', hremove, hlookup⟩ := foldlM_removeEmptied
    ((views₁.accounts.toList.filter fun item => item.2.empty).map Prod.fst) views₁.accounts
    ((OrderedMap.nodup_keys_toList _).sublist (List.filter_sublist.map _))
    (fun account hmem => OrderedMap.mem_iff_exists.mpr
      ((hemptied account hmem).imp fun _ hqueue => hqueue.1))
  have hbecomes' := hbecomes.trans (becomes_removeEmptied (fun account hmem queue hqueue => by
    obtain ⟨queue', hqueue', hempty⟩ := hemptied account hmem
    rw [hqueue] at hqueue'
    cases hqueue'
    exact hempty) hlookup)
  simp only [keepAll_apply, Bool.and_true, hbecomes.feeOrder_eq] at hbecomes'
  refine ⟨⟨if timeLeap then currentMaxSize
      else max (txnsExpected * ledgersInQueue % 2 ^ 64) queueSizeMin, expired,
    (views₁.accounts.toList.filter fun item => item.2.empty).map Prod.fst⟩, accounts', ?_,
      hbecomes'⟩
  rw [processClosedLedgerAccounts, hfold, Except.ok_bind]
  dsimp only
  rw [hremove]
  rfl

theorem processClosedLedger_ok (h : Agrees order views) (ledgerSeq currentMaxSize : ℕ)
    (timeLeap : Bool) (txnsExpected ledgersInQueue queueSizeMin : ℕ) :
    ∃ result views', processClosedLedger views ledgerSeq currentMaxSize timeLeap txnsExpected
      ledgersInQueue queueSizeMin = .ok (result, views') ∧ Agrees order views' := by
  let candidate : FeeQueueEntry Account → ClosedLedgerCandidate Account := fun entry =>
    ⟨entry.key.account, entry.key.seqProxy, (views.find entry.key).bind (·.payload.lastValid)⟩
  have hcandidates : views.feeOrder.mapM (closedLedgerCandidate views) =
      .ok (views.feeOrder.map candidate) := by
    refine Except.mapM_eq_ok fun entry hentry => ?_
    obtain ⟨queued, hqueued⟩ := Option.isSome_iff_exists.mp
      ((h.mem_iff entry.key).mp (List.mem_map_of_mem hentry))
    rw [closedLedgerCandidate, hqueued]
    simp only [candidate, hqueued]
    rfl
  have hkeys : (views.feeOrder.map candidate).map ClosedLedgerCandidate.key =
      views.feeOrder.map FeeQueueEntry.key := by
    rw [List.map_map]
    rfl
  obtain ⟨result, accounts', hresult, hbecomes⟩ := processClosedLedgerAccounts_ok h.toKeyed
    (hkeys ▸ h.nodup) (fun candidate hcandidate => by
      rw [← h.mem_iff, ← hkeys]
      exact List.mem_map_of_mem hcandidate)
    ledgerSeq currentMaxSize timeLeap txnsExpected ledgersInQueue queueSizeMin
  refine ⟨result, _, ?_, h.becomes hbecomes⟩
  rw [processClosedLedger, hcandidates, Except.ok_bind, hresult]
  rfl

/-- The entries of all queued transactions. -/
def allEntries (views : Queue Account Tx) : List (FeeQueueEntry Account) :=
  views.accounts.toList.flatMap fun item => item.2.transactions.toList.map fun queued =>
    feeEntry item.1 queued.1 queued.2.payload.feeLevel queued.2.payload.txId

theorem mem_allEntries (entry : FeeQueueEntry Account) : entry ∈ allEntries views ↔
    ∃ queued, views.find entry.key = some queued ∧
      entry.candidate = ⟨queued.payload.feeLevel, queued.payload.txId, entry.key.seqProxy⟩ := by
  rw [allEntries, List.mem_flatMap]
  constructor
  · rintro ⟨⟨account, queue⟩, hitem, hentry⟩
    obtain ⟨⟨seqProxy, queued⟩, hqueued, rfl⟩ := List.mem_map.mp hentry
    refine ⟨queued, ?_, rfl⟩
    have hqueue := ExtTreeMap.mem_toList_iff_getElem?_eq_some.mp hitem
    exact (find_eq_of_queue hqueue seqProxy).trans
      (ExtTreeMap.mem_toList_iff_getElem?_eq_some.mp hqueued)
  · rintro ⟨queued, hqueued, hcandidate⟩
    obtain ⟨queue, hqueue, htransaction⟩ := exists_queue hqueued
    refine ⟨(entry.key.account, queue),
      ExtTreeMap.mem_toList_iff_getElem?_eq_some.mpr hqueue, ?_⟩
    refine List.mem_map.mpr ⟨(entry.key.seqProxy, queued),
      ExtTreeMap.mem_toList_iff_getElem?_eq_some.mpr htransaction, ?_⟩
    obtain ⟨key, candidate⟩ := entry
    exact congrArg _ hcandidate.symm

theorem nodup_allEntries (views : Queue Account Tx) :
    ((allEntries views).map FeeQueueEntry.key).Nodup := by
  rw [allEntries, List.map_flatMap, List.nodup_flatMap]
  constructor
  · rintro ⟨account, queue⟩ -
    rw [List.map_map]
    have hkeys := OrderedMap.nodup_keys_toList queue.transactions
    refine List.Nodup.map_on ?_ (List.Nodup.of_map _ hkeys)
    intro a ha b hb heq
    exact List.inj_on_of_nodup_map hkeys ha hb (FeeQueueKey.mk.inj heq).2
  · refine (OrderedMap.toList_pairwise_lt _).imp ?_
    intro a b hlt key ha hb
    simp only [List.map_map, List.mem_map] at ha hb
    obtain ⟨x, -, rfl⟩ := ha
    obtain ⟨y, -, heq⟩ := hb
    exact ne_of_gt hlt (FeeQueueKey.mk.inj heq).1

theorem foldl_insertFeeEntry (views : Queue Account Tx) (order : OrderCandidates)
    (entries feeOrder : List (FeeQueueEntry Account)) :
    entries.foldl (fun views entry => views.insertFeeEntry entry order)
        (⟨feeOrder, views.accounts⟩ : Queue Account Tx) =
      ⟨entries.foldl (fun l entry => SortedList.insertBy (rank order) entry l) feeOrder,
        views.accounts⟩ := by
  induction entries generalizing feeOrder with
  | nil => rfl
  | cons entry entries ih =>
    rw [List.foldl_cons, List.foldl_cons, insertFeeEntry_eq]
    exact ih _

theorem rebuildQueueAcceptFeeOrder_ok (h : Keyed views) (previous next : Uint256) :
    ∃ result views', rebuildQueueAcceptFeeOrder views previous next = .ok (result, views') ∧
      Agrees ⟨next⟩ views' ∧ views'.accounts = views.accounts := by
  have hentries : views.accounts.toList.mapM rebuildAccount =
      .ok (views.accounts.toList.map fun item => item.2.transactions.toList.map fun queued =>
        feeEntry item.1 queued.1 queued.2.payload.feeLevel queued.2.payload.txId) := by
    refine Except.mapM_eq_ok fun item hitem => ?_
    have haccount := h.account_eq item.1 item.2
      (ExtTreeMap.mem_toList_iff_getElem?_eq_some.mp hitem)
    rw [rebuildAccount, decide_eq_true haccount]
    rfl
  obtain ⟨hperm, hsort⟩ := SortedList.foldl_insertBy (rank ⟨next⟩) (allEntries views)
    List.Pairwise.nil
  rw [List.append_nil] at hperm
  have hkeys := (hperm.map FeeQueueEntry.key).nodup_iff.mpr (nodup_allEntries views)
  have hagrees : Agrees ⟨next⟩ (⟨(allEntries views).foldl
      (fun l entry => SortedList.insertBy (rank ⟨next⟩) entry l) [], views.accounts⟩ :
      Queue Account Tx) :=
    agrees_of_entries h.account_eq hkeys
      (fun entry => hperm.mem_iff.trans (mem_allEntries entry)) hsort
  have hsize : (((allEntries views).foldl
      (fun l entry => SortedList.insertBy (rank ⟨next⟩) entry l) []).map FeeQueueEntry.key).length =
      (views.feeOrder.map FeeQueueEntry.key).length := by
    refine List.Perm.length_eq ((List.perm_ext_iff_of_nodup hkeys h.nodup).mpr fun key => ?_)
    rw [h.mem_iff]
    exact hagrees.mem_iff key
  rw [List.length_map, List.length_map] at hsize
  refine ⟨⟨decide (previous = next), ⟨next⟩, views.feeOrder.length, views.feeOrder.length⟩, _, ?_,
    hagrees, rfl⟩
  have hrebuilt := foldl_insertFeeEntry views ⟨next⟩ (allEntries views) []
  rw [allEntries, List.flatMap_def] at hrebuilt
  rw [rebuildQueueAcceptFeeOrder, hentries, Except.ok_bind]
  dsimp only
  rw [hrebuilt, ← List.flatMap_def, ← allEntries]
  dsimp only
  rw [hsize, decide_eq_true rfl]
  rfl

end Quaxar.TxQ
