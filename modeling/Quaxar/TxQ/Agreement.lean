import Quaxar.Lib.SortedList
import Quaxar.TxQ.Accept

/-!
# When the two views agree

`Keyed` says that the order of fees lists the queued keys, each once. Most changes of the
queue take keys out and touch some transactions; `Becomes` describes such a change by the keys
it keeps and by what `π` shows of the transactions that stay.
-/

namespace Quaxar.TxQ

open Protocol (SeqProxy Ter)
open Except (ok_bind)

@[simp] theorem expect_some {α : Type} (message : String) (a : α) :
    expect message (some a) = .ok a := rfl

@[simp] theorem ensure_true (message : String) : ensure message true = .ok () := rfl

variable {Account T γ : Type} [LinearOrder Account] {queue : TxQAccount Account T}
  {account : Account} {i : ℕ} {entry : FeeQueueEntry Account}

/-- The order of fees lists exactly the queued keys. -/
structure Keyed (views : QueueViews Account T) : Prop where
  account_eq : ∀ (account : Account) (queue : TxQAccount Account T),
    views.accounts[account]? = some queue → queue.account = account
  nodup : (views.feeOrder.map FeeQueueEntry.key).Nodup
  mem_iff : ∀ key, key ∈ views.feeOrder.map FeeQueueEntry.key ↔ (views.find key).isSome = true
  seqProxy_eq : ∀ entry ∈ views.feeOrder, entry.candidate.seqProxy = entry.key.seqProxy

/-- No transaction of the account comes before the key. -/
def IsFirst (views : QueueViews Account T) (key : FeeQueueKey Account) : Prop :=
  ∀ other : FeeQueueKey Account, other.account = key.account → (views.find other).isSome = true →
    key.seqProxy ≤ other.seqProxy

variable {views : QueueViews Account T} {key : FeeQueueKey Account} {queued : MaybeTxCore T}

theorem find_mk (feeOrder : List (FeeQueueEntry Account)) (key : FeeQueueKey Account) :
    (QueueViews.mk feeOrder views.accounts).find key = views.find key := rfl

theorem find_insert (feeOrder : List (FeeQueueEntry Account)) (account : Account)
    (queue : TxQAccount Account T) (key : FeeQueueKey Account) :
    (QueueViews.mk feeOrder (views.accounts.insert account queue)).find key =
      if account = key.account then queue.transactions[key.seqProxy]? else views.find key := by
  rw [QueueViews.find, OrderedMap.getElem?_insert]
  split_ifs with h
  · rfl
  · rfl

theorem exists_queue (h : views.find key = some queued) :
    ∃ queue, views.accounts[key.account]? = some queue ∧
      queue.transactions[key.seqProxy]? = some queued := by
  exact Option.bind_eq_some_iff.mp h

theorem find_eq_of_queue (h : views.accounts[account]? = some queue) (seqProxy : SeqProxy) :
    views.find ⟨account, seqProxy⟩ = queue.transactions[seqProxy]? := by
  rw [QueueViews.find, h]
  rfl

theorem isFirst_iff (hqueue : views.accounts[key.account]? = some queue)
    (hkey : (views.find key).isSome = true) :
    queue.transactions.keys.head? = some key.seqProxy ↔ IsFirst views key := by
  have hmem : ∀ seqProxy, seqProxy ∈ queue.transactions ↔
      (views.find ⟨key.account, seqProxy⟩).isSome = true := by
    intro seqProxy
    rw [find_eq_of_queue hqueue, Std.ExtTreeMap.mem_iff_isSome_getElem?]
  rw [OrderedMap.head?_keys_eq_some]
  constructor
  · rintro ⟨-, hleast⟩ ⟨account, seqProxy⟩ haccount hsome
    obtain rfl : account = key.account := haccount
    exact hleast seqProxy ((hmem seqProxy).mpr hsome)
  · intro hfirst
    exact ⟨(hmem _).mpr hkey, fun a ha => hfirst ⟨key.account, a⟩ rfl ((hmem a).mp ha)⟩

namespace Keyed

theorem exists_index (h : Keyed views) (hkey : (views.find key).isSome = true) :
    ∃ i entry, views.feeOrder[i]? = some entry ∧ entry.key = key ∧
      views.findFeeCandidateIndex key = some i := by
  obtain ⟨entry, hentry, rfl⟩ := List.mem_map.mp ((h.mem_iff key).mpr hkey)
  obtain ⟨i, hi⟩ := List.mem_iff_getElem?.mp hentry
  exact ⟨i, entry, hi, rfl, SortedList.findIdx?_key h.nodup hi⟩

theorem isSome_find (h : Keyed views) (hi : views.feeOrder[i]? = some entry) :
    (views.find entry.key).isSome = true :=
  (h.mem_iff entry.key).mp (List.mem_map_of_mem (List.mem_of_getElem? hi))

theorem nextFeeCandidateKey_eq (h : Keyed views) (hi : views.feeOrder[i]? = some entry) :
    views.nextFeeCandidateKey entry.key = views.feeOrder[i + 1]?.map FeeQueueEntry.key := by
  have hindex : views.findFeeCandidateIndex entry.key = some i :=
    SortedList.findIdx?_key h.nodup hi
  rw [QueueViews.nextFeeCandidateKey, hindex]
  rfl

end Keyed

/-- A change that keeps some of the queued keys. `π` is what it shows of a transaction. -/
structure Becomes (π : MaybeTxCore T → γ) (keep : FeeQueueKey Account → Bool)
    (views views' : QueueViews Account T) : Prop where
  feeOrder_eq : views'.feeOrder = views.feeOrder.filter fun entry => keep entry.key
  find_eq : ∀ key, (views'.find key).map π = if keep key then (views.find key).map π else none
  account_eq : ∀ (account : Account) (queue' : TxQAccount Account T),
    views'.accounts[account]? = some queue' →
    ∃ queue, views.accounts[account]? = some queue ∧ queue'.account = queue.account

/-- Keep every key. -/
def keepAll : FeeQueueKey Account → Bool := fun _ => true

omit [LinearOrder Account] in
@[simp] theorem keepAll_apply (key : FeeQueueKey Account) : keepAll key = true := rfl

/-- Keep every key but one. -/
def keepOthers (key : FeeQueueKey Account) : FeeQueueKey Account → Bool :=
  fun other => decide (other ≠ key)

variable {π : MaybeTxCore T → γ} {keep keep' : FeeQueueKey Account → Bool}
  {views' views'' : QueueViews Account T}

namespace Becomes

theorem isSome_find (h : Becomes π keep views views') (key : FeeQueueKey Account) :
    (views'.find key).isSome = (keep key && (views.find key).isSome) := by
  have heq := congrArg Option.isSome (h.find_eq key)
  rw [Option.isSome_map] at heq
  rw [heq]
  cases keep key <;> simp

theorem refl (views : QueueViews Account T) : Becomes π keepAll views views where
  feeOrder_eq := by simp [keepAll]
  find_eq key := by simp [keepAll]
  account_eq account queue h := ⟨queue, h, rfl⟩

theorem trans (h : Becomes π keep views views') (h' : Becomes π keep' views' views'') :
    Becomes π (fun key => keep key && keep' key) views views'' where
  feeOrder_eq := by
    rw [h'.feeOrder_eq, h.feeOrder_eq, List.filter_filter]
    exact List.filter_congr fun entry _ => Bool.and_comm _ _
  find_eq key := by
    rw [h'.find_eq, h.find_eq]
    cases keep key <;> cases keep' key <;> simp
  account_eq account queue'' hqueue'' := by
    obtain ⟨queue', hqueue', heq'⟩ := h'.account_eq account queue'' hqueue''
    obtain ⟨queue, hqueue, heq⟩ := h.account_eq account queue' hqueue'
    exact ⟨queue, hqueue, heq'.trans heq⟩

/-- A change behind one that keeps every key. -/
theorem after (h : Becomes π keepAll views views') (h' : Becomes π keep views' views'') :
    Becomes π keep views views'' := h.trans h'

theorem keyed (h : Becomes π keep views views') (hkeyed : Keyed views) : Keyed views' where
  account_eq account queue' hqueue' := by
    obtain ⟨queue, hqueue, heq⟩ := h.account_eq account queue' hqueue'
    exact heq.trans (hkeyed.account_eq account queue hqueue)
  nodup := by
    rw [h.feeOrder_eq]
    exact hkeyed.nodup.sublist (List.filter_sublist.map _)
  mem_iff key := by
    rw [h.feeOrder_eq, h.isSome_find, Bool.and_eq_true, ← hkeyed.mem_iff]
    simp only [List.mem_map, List.mem_filter]
    constructor
    · rintro ⟨entry, ⟨hentry, hkeep⟩, rfl⟩
      exact ⟨hkeep, entry, hentry, rfl⟩
    · rintro ⟨hkeep, entry, hentry, rfl⟩
      exact ⟨entry, ⟨hentry, hkeep⟩, rfl⟩
  seqProxy_eq entry hentry := by
    rw [h.feeOrder_eq] at hentry
    exact hkeyed.seqProxy_eq entry (List.mem_of_mem_filter hentry)

theorem isFirst (h : Becomes π keep views views') (hfirst : IsFirst views key) :
    IsFirst views' key := by
  intro other haccount hsome
  rw [h.isSome_find, Bool.and_eq_true] at hsome
  exact hfirst other haccount hsome.2

end Becomes

variable {queue' : TxQAccount Account T} {feeOrder : List (FeeQueueEntry Account)}

theorem becomes_insert (hqueue : views.accounts[account]? = some queue)
    (haccount : queue'.account = queue.account)
    (hfeeOrder : feeOrder = views.feeOrder.filter fun entry => keep entry.key)
    (hself : ∀ seqProxy, (queue'.transactions[seqProxy]?).map π =
      if keep ⟨account, seqProxy⟩ then (queue.transactions[seqProxy]?).map π else none)
    (hother : ∀ key, account ≠ key.account → keep key = true) :
    Becomes π keep views ⟨feeOrder, views.accounts.insert account queue'⟩ where
  feeOrder_eq := hfeeOrder
  find_eq key := by
    rw [find_insert]
    by_cases heq : account = key.account
    · subst heq
      rw [if_pos rfl, hself, ← find_eq_of_queue hqueue]
    · rw [if_neg heq, hother key heq, if_pos rfl]
  account_eq other queue'' hqueue'' := by
    have hlookup := OrderedMap.getElem?_insert views.accounts account other queue'
    rw [show (views.accounts.insert account queue')[other]? = some queue'' from hqueue''] at hlookup
    by_cases heq : account = other
    · subst heq
      rw [if_pos rfl] at hlookup
      cases hlookup
      exact ⟨queue, hqueue, haccount⟩
    · rw [if_neg heq] at hlookup
      exact ⟨queue'', hlookup.symm, rfl⟩

/-- The entry and the transaction of one key go together. -/
theorem becomes_eraseQueued (π : MaybeTxCore T → γ) (hkeyed : Keyed views)
    (hi : views.feeOrder[i]? = some entry)
    (hqueue : views.accounts[entry.key.account]? = some queue)
    (haccount : queue'.account = queue.account)
    (htransactions : queue'.transactions = queue.transactions.erase entry.key.seqProxy) :
    Becomes π (keepOthers entry.key) views ⟨views.feeOrder.eraseIdx i,
      views.accounts.insert entry.key.account queue'⟩ := by
  refine becomes_insert hqueue haccount (SortedList.eraseIdx_eq_filter hkeyed.nodup hi) ?_ ?_
  · intro seqProxy
    rw [htransactions, OrderedMap.getElem?_erase]
    by_cases heq : entry.key.seqProxy = seqProxy
    · subst heq
      rw [if_pos rfl, keepOthers, decide_eq_false (by simp)]
      rfl
    · have hkeep : keepOthers entry.key ⟨entry.key.account, seqProxy⟩ = true := by
        refine decide_eq_true fun hkey => heq ?_
        rw [← hkey]
      rw [if_neg heq, hkeep, if_pos rfl]
  · intro other hother
    refine decide_eq_true fun hkey => hother ?_
    rw [hkey]

theorem becomes_removeQueued (π : MaybeTxCore T → γ) (hkeyed : Keyed views)
    (hi : views.feeOrder[i]? = some entry)
    (hqueue : views.accounts[entry.key.account]? = some queue) :
    Becomes π (keepOthers entry.key) views ⟨views.feeOrder.eraseIdx i,
      views.accounts.insert entry.key.account (queue.remove entry.key.seqProxy).2⟩ :=
  becomes_eraseQueued π hkeyed hi hqueue rfl rfl

theorem removeQueued_eq (views : QueueViews Account T)
    (hqueue : views.accounts[key.account]? = some queue)
    (hqueued : queue.transactions[key.seqProxy]? = some queued) (accountFound removed : String) :
    (QueueViews.mk feeOrder views.accounts).removeQueued key accountFound removed =
      .ok ⟨feeOrder, views.accounts.insert key.account (queue.remove key.seqProxy).2⟩ := by
  have hremove : (queue.remove key.seqProxy).1 = true := by
    rw [TxQAccount.remove, hqueued]
    rfl
  rw [QueueViews.removeQueued, hqueue, expect_some, ok_bind, hremove]
  rfl

theorem removeFeeCandidateByKey_ok (π : MaybeTxCore T → γ) (hkeyed : Keyed views)
    (hkey : (views.find key).isSome = true) :
    ∃ views', views.removeFeeCandidateByKey key = .ok (key, views') ∧
      Becomes π (keepOthers key) views views' := by
  obtain ⟨i, entry, hi, rfl, hindex⟩ := hkeyed.exists_index hkey
  obtain ⟨queued, hqueued⟩ := Option.isSome_iff_exists.mp hkey
  obtain ⟨queue, hqueue, htransaction⟩ := exists_queue hqueued
  refine ⟨_, ?_, becomes_removeQueued π hkeyed hi hqueue⟩
  rw [QueueViews.removeFeeCandidateByKey, hindex, expect_some, ok_bind,
    removeQueued_eq views hqueue htransaction, ok_bind, hi, expect_some]
  rfl

theorem chooseNextAfterErase_ok {current : QueueAdvanceCandidate} {first : Bool}
    (h : (current.seqProxy.isTicket || first) = true)
    (accountNext feeNext : Option QueueAdvanceCandidate) (order : OrderCandidates) :
    ∃ target, chooseNextAfterErase current first accountNext feeNext order = .ok target ∧
      (∀ candidate, target = .feeNext candidate → feeNext.isSome = true) ∧
      (∀ candidate, target = .accountNext candidate → accountNext.isSome = true) := by
  unfold chooseNextAfterErase
  rw [h, ensure_true, ok_bind]
  cases accountNext with
  | none =>
    cases feeNext with
    | none => exact ⟨_, rfl, by simp, by simp⟩
    | some next => exact ⟨_, rfl, by simp, by simp⟩
  | some candidate =>
    refine ⟨_, rfl, ?_, by simp⟩
    intro other hother
    cases feeNext with
    | none => split_ifs at hother
    | some next => rfl

theorem accountNextEntry_ok (hkeyed : Keyed views) {current : FeeQueueKey Account}
    (hqueue : views.accounts[current.account]? = some queue) :
    ∃ next, views.accountNextEntry queue current = .ok next ∧
      ∀ entry, next = some entry → entry ∈ views.feeOrder ∧ entry.key ≠ current := by
  rw [QueueViews.accountNextEntry]
  rcases hfind : queue.transactions.keys.find? (current.seqProxy < ·) with _ | seqProxy
  · exact ⟨none, rfl, by simp⟩
  · have hmem : seqProxy ∈ queue.transactions :=
      Std.ExtTreeMap.mem_keys.mp (List.mem_of_find?_eq_some hfind)
    have hlt : current.seqProxy < seqProxy := by simpa using List.find?_some hfind
    have hsome : (views.find ⟨current.account, seqProxy⟩).isSome = true := by
      rw [find_eq_of_queue hqueue, ← Std.ExtTreeMap.mem_iff_isSome_getElem?]
      exact hmem
    obtain ⟨entry, hentry, hkey⟩ := List.mem_map.mp ((hkeyed.mem_iff _).mpr hsome)
    have hfound := SortedList.find?_key hkeyed.nodup hentry
    rw [hkey] at hfound
    refine ⟨some entry, ?_, ?_⟩
    · simp only [hfound]
      rfl
    · rintro _ ⟨⟩
      refine ⟨hentry, fun heq => ne_of_lt hlt ?_⟩
      rw [← heq, hkey]

theorem eraseAndAdvance_ok (π : MaybeTxCore T → γ) (hkeyed : Keyed views)
    (hi : views.feeOrder[i]? = some entry)
    (hfirst : entry.key.seqProxy.isSeq = true → IsFirst views entry.key) (order : OrderCandidates) :
    ∃ next views', views.eraseAndAdvance i order = .ok (⟨entry.key, next⟩, views') ∧
      Becomes π (keepOthers entry.key) views views' ∧
      ∀ key, queueViewNextToOption next = some key → (views'.find key).isSome = true := by
  have hkey := hkeyed.isSome_find hi
  obtain ⟨queued, hqueued⟩ := Option.isSome_iff_exists.mp hkey
  obtain ⟨queue, hqueue, htransaction⟩ := exists_queue hqueued
  have hbecomes := becomes_removeQueued π hkeyed hi hqueue
  obtain ⟨accountNext, hnext, haccount⟩ := accountNextEntry_ok hkeyed hqueue
  have hallowed : (entry.candidate.seqProxy.isTicket ||
      decide (queue.transactions.keys.head? = some entry.key.seqProxy)) = true := by
    rw [hkeyed.seqProxy_eq entry (List.mem_of_getElem? hi), SeqProxy.isTicket_eq_not]
    cases hseq : entry.key.seqProxy.isSeq with
    | false => rfl
    | true =>
      rw [decide_eq_true ((isFirst_iff hqueue hkey).mpr (hfirst hseq))]
      rfl
  obtain ⟨target, htarget, hfee, haccountTarget⟩ := chooseNextAfterErase_ok hallowed
    (accountNext.map FeeQueueEntry.candidate)
    (views.feeOrder[i + 1]?.map FeeQueueEntry.candidate) order
  -- another entry of the order stays queued
  have hstays : ∀ other ∈ views.feeOrder, other.key ≠ entry.key →
      (QueueViews.find ⟨views.feeOrder.eraseIdx i, views.accounts.insert entry.key.account
        (queue.remove entry.key.seqProxy).2⟩ other.key).isSome = true := by
    intro other hother hne
    rw [hbecomes.isSome_find, keepOthers, decide_eq_true hne, Bool.true_and]
    exact (hkeyed.mem_iff other.key).mp (List.mem_map_of_mem hother)
  have hkeys : ∃ next, QueueViews.advanceKey target accountNext views.feeOrder[i + 1]? = .ok next ∧
      ∀ key, queueViewNextToOption next = some key →
        ∃ other ∈ views.feeOrder, other.key ≠ entry.key ∧ other.key = key := by
    cases target with
    | finish => exact ⟨.finish, rfl, by simp [queueViewNextToOption]⟩
    | feeNext candidate =>
      obtain ⟨other, hother⟩ := Option.isSome_iff_exists.mp
        ((Option.isSome_map ..).symm.trans (hfee candidate rfl))
      refine ⟨.feeNext other.key, by rw [QueueViews.advanceKey, hother]; rfl, ?_⟩
      rintro key ⟨⟩
      refine ⟨other, List.mem_of_getElem? hother, fun heq => ?_, rfl⟩
      have hindex := SortedList.findIdx?_key hkeyed.nodup hi
      rw [← heq, SortedList.findIdx?_key hkeyed.nodup hother] at hindex
      exact absurd (Option.some.inj hindex) (by omega)
    | accountNext candidate =>
      obtain ⟨other, hother⟩ := Option.isSome_iff_exists.mp
        ((Option.isSome_map ..).symm.trans (haccountTarget candidate rfl))
      refine ⟨.accountNext other.key, by rw [QueueViews.advanceKey, hother]; rfl, ?_⟩
      rintro key ⟨⟩
      exact ⟨other, (haccount other hother).1, (haccount other hother).2, rfl⟩
  obtain ⟨next, hadvance, hnextKey⟩ := hkeys
  refine ⟨next, _, ?_, hbecomes, ?_⟩
  · rw [QueueViews.eraseAndAdvance, hi, expect_some, ok_bind, hqueue, expect_some,
      ok_bind, hnext, ok_bind]
    dsimp only
    rw [htarget, ok_bind, hadvance, ok_bind, removeQueued_eq views hqueue htransaction]
    rfl
  · intro key hkey
    obtain ⟨other, hother, hne, rfl⟩ := hnextKey key hkey
    exact hstays other hother hne

end Quaxar.TxQ
