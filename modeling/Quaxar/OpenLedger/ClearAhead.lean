import Quaxar.TxQ.FeeMetrics
import Quaxar.Views.Commit

/-!
# Clearing the queue ahead of a transaction

A transaction may pay for the queued ones of its account that come before it. They are all applied
in a sandbox over the submit view, the transaction after them, and only then is the sandbox applied.
The price is meant to be the sum of the escalated fees.
-/

namespace Quaxar.OpenLedger

open Protocol (SeqProxy Ter AccountID STAmount)
open TxQ Views

section Price

def checked128 (value : ℕ) : Option ℕ := if value < 2 ^ 128 then some value else none

/-- The closed form that the source uses for a sum of squares. -/
def sumSquares (n : ℕ) : Option ℕ := do
  let square ← checked128 (n * n)
  let double ← checked128 (n * 2)
  let next ← checked128 (double + 1)
  let product ← checked128 (square * next)
  some (product / 6)

/-- `current` is the number of transactions in the open ledger. -/
def clearAheadRequiredFeeLevel (metrics : QueueFeeMetricsSnapshot) (current seriesSize : ℕ) :
    Option FeeLevel64 :=
  let target := metrics.txnsExpected
  if current ≤ target ∨ target = 0 ∨ seriesSize = 0 then none
  else do
    let last ← checked128 (current + (seriesSize - 1))
    let sumLast ← sumSquares last
    let sumBefore ← sumSquares (current - 1)
    let series ← if sumBefore ≤ sumLast then some (sumLast - sumBefore) else none
    let product ← checked128 (metrics.escalationMultiplier * series)
    let square ← checked128 (target * target)
    if product / square < 2 ^ 64 then some (product / square) else none

/-- The value of `sumSquares` where nothing overflows. -/
def squaresForm (n : ℕ) : ℕ := n * n * (2 * n + 1) / 6

/-- What `squaresForm` leaves out of the sum of the squares up to `n`. -/
def squaresGap (n : ℕ) : ℕ := (n * (2 * n + 1) + 5) / 6

theorem sumSquares_eq {n : ℕ} (h : n * n * (2 * n + 1) < 2 ^ 128) :
    sumSquares n = some (squaresForm n) := by
  have hsquare : n * n < 2 ^ 128 := lt_of_le_of_lt (Nat.le_mul_of_pos_right _ (Nat.succ_pos _)) h
  have hnext : n * 2 + 1 < 2 ^ 128 := by
    rcases Nat.eq_zero_or_pos n with rfl | hpos
    · norm_num
    · rw [Nat.mul_comm n 2]
      exact lt_of_le_of_lt (Nat.le_mul_of_pos_left _ (Nat.mul_pos hpos hpos)) h
  have hdouble : n * 2 < 2 ^ 128 := (Nat.lt_succ_self _).trans hnext
  have hproduct : n * n * (n * 2 + 1) < 2 ^ 128 := by rwa [Nat.mul_comm n 2]
  simp only [sumSquares, checked128, hsquare, hdouble, hnext, hproduct, if_true,
    Option.bind_eq_bind, Option.bind_some, squaresForm]
  rw [Nat.mul_comm n 2]

theorem six_mul_sum_sq (n : ℕ) :
    6 * ∑ i ∈ Finset.range (n + 1), i ^ 2 = n * (n + 1) * (2 * n + 1) := by
  induction n with
  | zero => simp
  | succ n ih =>
    rw [Finset.sum_range_succ, Nat.mul_add, ih]
    ring

theorem sum_sq_eq (n : ℕ) :
    ∑ i ∈ Finset.range (n + 1), i ^ 2 = squaresForm n + squaresGap n := by
  have hsum := six_mul_sum_sq n
  have hexpand : n * (n + 1) * (2 * n + 1) = n * n * (2 * n + 1) + n * (2 * n + 1) := by ring
  unfold squaresForm squaresGap
  omega

/-- What the source leaves out of the squares of the series. -/
def seriesGap (current seriesSize : ℕ) : ℕ :=
  squaresGap (current + seriesSize - 1) - squaresGap (current - 1)

theorem squaresForm_mono {a b : ℕ} (h : a ≤ b) : squaresForm a ≤ squaresForm b :=
  Nat.div_le_div_right (by gcongr)

theorem squaresGap_mono {a b : ℕ} (h : a ≤ b) : squaresGap a ≤ squaresGap b :=
  Nat.div_le_div_right (by gcongr)

/-- The series is what the source computes, and the gap. -/
theorem sum_series_eq {current seriesSize : ℕ} (hcurrent : 0 < current) (hsize : 0 < seriesSize) :
    (∑ i ∈ Finset.range seriesSize, (current + i) ^ 2) =
      squaresForm (current + seriesSize - 1) - squaresForm (current - 1) +
        seriesGap current seriesSize := by
  obtain ⟨before, rfl⟩ := Nat.exists_eq_succ_of_ne_zero hcurrent.ne'
  obtain ⟨size, rfl⟩ := Nat.exists_eq_succ_of_ne_zero hsize.ne'
  have hsplit := Finset.sum_range_add (fun i => i ^ 2) (before + 1) (size + 1)
  have hlast : before.succ + size.succ - 1 = before + 1 + size := by omega
  have hbefore : before.succ - 1 = before := rfl
  have hform := squaresForm_mono (show before ≤ before + 1 + size by omega)
  have hgap := squaresGap_mono (show before ≤ before + 1 + size by omega)
  rw [show before + 1 + (size + 1) = before + 1 + size + 1 by omega, sum_sq_eq, sum_sq_eq] at hsplit
  rw [seriesGap, hlast, hbefore]
  simp only [Nat.succ_eq_add_one]
  omega

/-- Leaving a part out does not change a quotient if the remainder covers it. -/
theorem div_eq_add_div_iff {total part divisor : ℕ} (hpos : 0 < divisor) :
    total / divisor = (total + part) / divisor ↔ part ≤ (total + part) % divisor := by
  have hsum := Nat.div_add_mod (total + part) divisor
  constructor
  · intro h
    have htotal := Nat.div_add_mod total divisor
    rw [h] at htotal
    omega
  · intro h
    refine Nat.div_eq_of_lt_le ?_ ?_
    · rw [Nat.mul_comm]
      omega
    · rw [Nat.succ_mul, Nat.mul_comm]
      have hmod := Nat.mod_lt (total + part) hpos
      omega

variable (metrics : QueueFeeMetricsSnapshot) (current seriesSize : ℕ)
  (hpos : 0 < metrics.txnsExpected) (hcurrent : metrics.txnsExpected < current)
  (hsize : 0 < seriesSize) {last series : ℕ} (hlast : last = current + seriesSize - 1)
  (hseries : series = squaresForm last - squaresForm (current - 1))
  (hcube : last * last * (2 * last + 1) < 2 ^ 128)
  (hproduct : metrics.escalationMultiplier * series < 2 ^ 128)
  (hfits : metrics.escalationMultiplier * series / metrics.txnsExpected ^ 2 < 2 ^ 64)

include hpos hcurrent hsize hlast hseries hcube hproduct hfits

/-- The value of the price where nothing overflows. -/
theorem clearAheadRequiredFeeLevel_eq :
    clearAheadRequiredFeeLevel metrics current seriesSize =
      some (metrics.escalationMultiplier * series / metrics.txnsExpected ^ 2) := by
  have hle : current - 1 ≤ last := by omega
  have hbefore : (current - 1) * (current - 1) * (2 * (current - 1) + 1) < 2 ^ 128 :=
    lt_of_le_of_lt (by gcongr) hcube
  have hlastSquare : last * last < 2 ^ 128 :=
    lt_of_le_of_lt (Nat.le_mul_of_pos_right _ (Nat.succ_pos _)) hcube
  have hlastLt : last < 2 ^ 128 := lt_of_le_of_lt (Nat.le_mul_self last) hlastSquare
  have htarget : metrics.txnsExpected * metrics.txnsExpected < 2 ^ 128 := by
    refine lt_of_le_of_lt (Nat.mul_le_mul ?_ ?_) hlastSquare <;> omega
  have hguard : ¬(current ≤ metrics.txnsExpected ∨ metrics.txnsExpected = 0 ∨ seriesSize = 0) := by
    omega
  have hsum : current + (seriesSize - 1) = last := by omega
  have hmono := squaresForm_mono hle
  rw [sq] at hfits ⊢
  rw [hseries] at hproduct hfits ⊢
  simp only [clearAheadRequiredFeeLevel, hguard, if_false, hsum, checked128, hlastLt, if_true,
    Option.bind_eq_bind, Option.bind_some, sumSquares_eq hcube, sumSquares_eq hbefore, hmono,
    hproduct, htarget, hfits]

/-- The price is the sum of the escalated fees exactly when the remainder of that sum covers what
the closed form leaves out. -/
theorem clearAheadRequiredFeeLevel_eq_sum_iff :
    clearAheadRequiredFeeLevel metrics current seriesSize =
        some (metrics.escalationMultiplier * (∑ i ∈ Finset.range seriesSize, (current + i) ^ 2) /
          metrics.txnsExpected ^ 2) ↔
      metrics.escalationMultiplier * seriesGap current seriesSize ≤
        metrics.escalationMultiplier * (∑ i ∈ Finset.range seriesSize, (current + i) ^ 2) %
          metrics.txnsExpected ^ 2 := by
  have hsum : (∑ i ∈ Finset.range seriesSize, (current + i) ^ 2) =
      series + seriesGap current seriesSize := by
    rw [hseries, hlast]
    exact sum_series_eq (hpos.trans hcurrent) hsize
  rw [clearAheadRequiredFeeLevel_eq metrics current seriesSize hpos hcurrent hsize hlast hseries
    hcube hproduct hfits, hsum, Nat.mul_add, Option.some_inj]
  exact div_eq_add_div_iff (pow_pos hpos 2)

end Price

/-- Two transactions are in the open ledger and one is expected: the price of one more is 3,
not 4. -/
theorem clearAheadRequiredFeeLevel_misses_square :
    clearAheadRequiredFeeLevel ⟨1, 1⟩ 2 1 = some 3 ∧
      1 * (∑ i ∈ Finset.range 1, (2 + i) ^ 2) / 1 ^ 2 = 4 := by
  decide

theorem clearAheadRequiredFeeLevel_one :
    clearAheadRequiredFeeLevel ⟨3, 1⟩ 4 1 =
      some (1 * (∑ i ∈ Finset.range 1, (4 + i) ^ 2) / 3 ^ 2) :=
  (clearAheadRequiredFeeLevel_eq_sum_iff ⟨3, 1⟩ 4 1
    (by decide) (by decide) (by decide) rfl rfl (by decide) (by decide) (by decide)).mpr (by decide)

/-- A queued transaction of the account. -/
structure TxDetails (Tx : Type) where
  tx : Tx
  seqProxy : SeqProxy
  feeLevel : FeeLevel64
  flags : ApplyFlags

/-- What applying a transaction gives. -/
structure Outcome (Tx : Type) where
  result : ApplyResult
  delivered : Option STAmount
  innerTransactions : List Tx

/-- Transactions and their transactors, which reach a view only through its operations. -/
structure Transactor (V Tx : Type) [ApplyView V] where
  getSeqProxy : Tx → SeqProxy
  getAccount : Tx → AccountID
  getFee : Tx → XRPAmount
  calculateBaseFee : V → Tx → Except Ter XRPAmount
  calculateDefaultBaseFee : V → Tx → XRPAmount
  apply : FlowSandbox V → Tx → ApplyFlags → Outcome Tx × FlowSandbox V
  apply_runs : ∀ sb tx flags, FlowSandbox.Runs V sb (apply sb tx flags).2

/-- `view` is the list of transactions in the open ledger. -/
structure Runtime (V Tx : Type) where
  view : List Tx
  submitView : V
  tx : Tx
  flags : ApplyFlags
  accountSeqs : AccountID → Option ℕ
  clearAheadQueue : List (TxDetails Tx)
  clearAheadMetrics : QueueFeeMetricsSnapshot
  clearAheadAttempts : List (SeqProxy × ApplyResult)
  clearAheadRemoved : List SeqProxy
  deliveredAmount : Option STAmount

def evaluateFeeLevelPaid (calculatedBaseFee feePaid defaultBaseFee : XRPAmount) :
    Except Panic FeeLevel64 :=
  let feeMod := if calculatedBaseFee > 0 then 0
    else if defaultBaseFee = 0 then 1 else defaultBaseFee
  let baseFee := calculatedBaseFee + feeMod
  let effectiveFeePaid := feePaid + feeMod
  if ¬baseFee > 0 then throw (.assertion "xrpl::getFeeLevelPaid : positive fee")
  else if effectiveFeePaid ≤ 0 then pure 0
  else do
    let level ← mulDiv effectiveFeePaid.toNat txqBaseLevel baseFee.toNat
    pure (level.getD FeeLevel64.max)

/-- A sum of fee levels, or `none` if it does not fit. -/
def sumFeeLevels (start : FeeLevel64) (queued : List FeeLevel64) : Option FeeLevel64 :=
  queued.foldlM (fun total level => if total + level < 2 ^ 64 then some (total + level) else none)
    start

variable {V Tx : Type} [ApplyView V]

/-- The loop over the predecessors. It stops at the first that is not applied, unless its ticket is
already used. The transactions that were applied come with their inner transactions. -/
def applyPredecessors (exec : Transactor V Tx) :
    FlowSandbox V → List (TxDetails Tx) →
      Except ApplyResult (List (Tx × List Tx)) × List (SeqProxy × ApplyResult) × FlowSandbox V
  | sb, [] => (.ok [], [], sb)
  | sb, queued :: rest =>
    let outcome := exec.apply sb queued.tx queued.flags
    let attempt := (queued.seqProxy, outcome.1.result)
    if outcome.1.result.ter = .tefNoTicket then
      let loop := applyPredecessors exec outcome.2 rest
      (loop.1, attempt :: loop.2.1, loop.2.2)
    else if !outcome.1.result.applied then (.error outcome.1.result, [attempt], outcome.2)
    else
      let loop := applyPredecessors exec outcome.2 rest
      (loop.1.map ((queued.tx, outcome.1.innerTransactions) :: ·), attempt :: loop.2.1, loop.2.2)

namespace Runtime

variable (rt : Runtime V Tx) (exec : Transactor V Tx)

def predecessors : List (TxDetails Tx) :=
  rt.clearAheadQueue.filter fun queued =>
    decide (queued.seqProxy < exec.getSeqProxy rt.tx)

def recordClearAheadOpenLedgerTx (tx : Tx) : Runtime V Tx :=
  let account := exec.getAccount tx
  let next := saturatingAdd (exec.getSeqProxy tx).value 1
  { rt with
    accountSeqs := Function.update rt.accountSeqs account
      (some (max ((rt.accountSeqs account).getD next) next)) }

/-- A transaction enters the open ledger. -/
def record (tx : Tx) (innerTransactions : List Tx) : Runtime V Tx :=
  (tx :: innerTransactions).foldl (fun rt tx => rt.recordClearAheadOpenLedgerTx exec tx)
    { rt with view := rt.view ++ [tx] }

/-- What is recorded once the sandbox is applied. -/
def finish (submitView : V) (applied : List (Tx × List Tx)) (current : Outcome Tx) : Runtime V Tx :=
  let target := exec.getSeqProxy rt.tx
  { (applied ++ [(rt.tx, current.innerTransactions)]).foldl
      (fun rt entry => rt.record exec entry.1 entry.2) { rt with submitView } with
    deliveredAmount := current.delivered
    clearAheadRemoved := (rt.predecessors exec).map TxDetails.seqProxy ++
      if ∃ queued ∈ rt.clearAheadQueue, queued.seqProxy = target then [target] else [] }

/-- The transaction itself, after the predecessors. -/
def clearCurrent (sb : FlowSandbox V)
    (applied : List (Tx × List Tx)) : ApplyResult × Runtime V Tx :=
  let current := exec.apply sb rt.tx rt.flags
  if !current.1.result.applied then
    (current.1.result, { rt with submitView := current.2.parent })
  else match current.2.apply with
    | .error _ submitView => (⟨.tefInternal, false, false⟩, { rt with submitView })
    | .ok () submitView => (current.1.result, rt.finish exec submitView applied current.1)

def attempted (attempts : List (SeqProxy × ApplyResult)) : Runtime V Tx :=
  { rt with clearAheadAttempts := rt.clearAheadAttempts ++ attempts }

/-- The two phases on the sandbox, when the price is paid. -/
def clearAhead : ApplyResult × Runtime V Tx :=
  let loop := applyPredecessors exec (.new rt.submitView)
    (rt.predecessors exec)
  match loop.1 with
  | .error result => (result, { rt.attempted loop.2.1 with submitView := loop.2.2.parent })
  | .ok applied => (rt.attempted loop.2.1).clearCurrent exec loop.2.2 applied

def runTryClear : Except Panic (ApplyResult × Runtime V Tx) :=
  let predecessors := rt.predecessors exec
  if predecessors.isEmpty then pure (⟨.terQueued, false, false⟩, rt)
  else match exec.calculateBaseFee rt.submitView rt.tx with
    | .error ter => pure (⟨ter, false, false⟩, rt)
    | .ok baseFee => do
      let feeLevelPaid ← evaluateFeeLevelPaid baseFee (exec.getFee rt.tx)
        (exec.calculateDefaultBaseFee rt.submitView rt.tx)
      match sumFeeLevels feeLevelPaid (predecessors.map TxDetails.feeLevel),
          clearAheadRequiredFeeLevel rt.clearAheadMetrics rt.view.length
            (predecessors.length + 1) with
      | some totalPaid, some required =>
        if totalPaid < required then pure (⟨.telInsufFeeP, false, false⟩, rt)
        else pure (rt.clearAhead exec)
      | _, _ => pure (⟨.telInsufFeeP, false, false⟩, rt)

end Runtime

variable {V Tx : Type} [ApplyView V] {exec : Transactor V Tx}

/-- Every predecessor is applied, or has its ticket used, on what those before it left. -/
inductive AppliesAll (exec : Transactor V Tx) :
    FlowSandbox V → List (TxDetails Tx) → FlowSandbox V → Prop
  | nil (sb : FlowSandbox V) : AppliesAll exec sb [] sb
  | cons {sb final : FlowSandbox V} {queued : TxDetails Tx} {rest : List (TxDetails Tx)}
      (happlied : (exec.apply sb queued.tx queued.flags).1.result.ter = .tefNoTicket ∨
        (exec.apply sb queued.tx queued.flags).1.result.applied = true)
      (hrest : AppliesAll exec (exec.apply sb queued.tx queued.flags).2 rest final) :
      AppliesAll exec sb (queued :: rest) final

/-- The predecessors that enter the open ledger. -/
def enters (exec : Transactor V Tx) : FlowSandbox V → List (TxDetails Tx) → List Tx
  | _, [] => []
  | sb, queued :: rest =>
    let outcome := exec.apply sb queued.tx queued.flags
    if outcome.1.result.ter = .tefNoTicket then enters exec outcome.2 rest
    else queued.tx :: enters exec outcome.2 rest

theorem applyPredecessors_runs (exec : Transactor V Tx) (sb : FlowSandbox V)
    (queue : List (TxDetails Tx)) :
    FlowSandbox.Runs V sb (applyPredecessors exec sb queue).2.2 := by
  fun_induction applyPredecessors exec sb queue with
  | case1 sb => exact .refl sb
  | case2 sb queued rest outcome attempt _ loop ih =>
    exact (exec.apply_runs _ _ _).trans ih
  | case3 sb queued rest outcome attempt => exact exec.apply_runs _ _ _
  | case4 sb queued rest outcome attempt _ _ loop ih =>
    exact (exec.apply_runs _ _ _).trans ih

theorem applyPredecessors_ok {sb : FlowSandbox V} {queue : List (TxDetails Tx)}
    {applied : List (Tx × List Tx)}
    (h : (applyPredecessors exec sb queue).1 = .ok applied) :
    AppliesAll exec sb queue (applyPredecessors exec sb queue).2.2 ∧
      applied.map Prod.fst = enters exec sb queue := by
  induction queue generalizing sb applied with
  | nil =>
    cases h
    exact ⟨.nil sb, rfl⟩
  | cons queued rest ih =>
    unfold applyPredecessors at h ⊢
    unfold enters
    dsimp only at h ⊢
    split_ifs at h ⊢ with hticket happlied
    · obtain ⟨hall, hmap⟩ := ih h
      exact ⟨.cons (.inl hticket) hall, hmap⟩
    · obtain ⟨_, hrest, rfl⟩ := Except.map_eq_ok_iff.mp h
      obtain ⟨hall, hmap⟩ := ih hrest
      exact ⟨.cons (.inr (by simpa using happlied)) hall, by simp [hmap]⟩

section AllOrNothing

variable {V Tx : Type} [ApplyView V] [ApplyModel V] [LawfulApplyView V]
  {exec : Transactor V Tx} {rt : Runtime V Tx}

open ReadModel ApplyModel

omit [ApplyModel V] [LawfulApplyView V] in
theorem Runtime.record_eq (exec : Transactor V Tx) (rt : Runtime V Tx) (tx : Tx)
    (innerTransactions : List Tx) : (rt.record exec tx innerTransactions).view = rt.view ++ [tx] ∧
      (rt.record exec tx innerTransactions).submitView = rt.submitView := by
  unfold record
  refine List.foldlRecOn (motive := fun recorded : Runtime V Tx =>
    recorded.view = rt.view ++ [tx] ∧ recorded.submitView = rt.submitView)
    (tx :: innerTransactions) _ ⟨rfl, rfl⟩ fun recorded h tx _ => h

omit [ApplyModel V] [LawfulApplyView V] in
theorem Runtime.foldl_record_eq (exec : Transactor V Tx) (entries : List (Tx × List Tx))
    (rt : Runtime V Tx) : (entries.foldl (fun rt entry => rt.record exec entry.1 entry.2) rt).view =
        rt.view ++ entries.map Prod.fst ∧
      (entries.foldl (fun rt entry => rt.record exec entry.1 entry.2)
        rt).submitView = rt.submitView := by
  induction entries generalizing rt with
  | nil => simp
  | cons entry entries ih =>
    obtain ⟨hview, hsubmit⟩ := ih (rt.record exec entry.1 entry.2)
    obtain ⟨hview', hsubmit'⟩ := rt.record_eq exec entry.1 entry.2
    rw [List.foldl_cons, hview, hsubmit, hview', hsubmit']
    simp

/-- The queue is cleared up to the transaction: the view shows all of them, they stand in the open
ledger, and they and the transaction they replace are to be removed. -/
structure Cleared (exec : Transactor V Tx) (rt rt' : Runtime V Tx)
    (sb : FlowSandbox V) : Prop where
  predecessors : AppliesAll exec (.new rt.submitView) (rt.predecessors exec)
    sb
  current : (exec.apply sb rt.tx rt.flags).1.result.applied = true
  state_eq : state rt'.submitView =
    state (exec.apply sb rt.tx rt.flags).2
  view_eq : rt'.view = rt.view ++
    (enters exec (.new rt.submitView) (rt.predecessors exec) ++ [rt.tx])
  removed_eq : rt'.clearAheadRemoved =
    (rt.predecessors exec).map TxDetails.seqProxy ++
      if ∃ queued ∈ rt.clearAheadQueue,
        queued.seqProxy = exec.getSeqProxy rt.tx then
        [exec.getSeqProxy rt.tx] else []

/-- Nothing happened to the view, the open ledger and the removals. -/
structure Untouched (rt rt' : Runtime V Tx) : Prop where
  submitView : Alike rt.submitView rt'.submitView
  view_eq : rt'.view = rt.view
  removed_eq : rt'.clearAheadRemoved = rt.clearAheadRemoved

theorem Runtime.clearCurrent_cases (rt : Runtime V Tx) {sb : FlowSandbox V}
    {applied : List (Tx × List Tx)}
    (hvalid : Valid rt.submitView)
    (hruns : FlowSandbox.Runs V (.new rt.submitView) sb)
    (hall : AppliesAll exec (.new rt.submitView) (rt.predecessors exec) sb)
    (henters : applied.map Prod.fst =
      enters exec (.new rt.submitView) (rt.predecessors exec)) :
    Cleared exec rt (rt.clearCurrent exec sb applied).2 sb ∨
      Untouched rt (rt.clearCurrent exec sb applied).2 := by
  have hboth := hruns.trans (exec.apply_runs sb rt.tx rt.flags)
  unfold clearCurrent
  dsimp only
  split_ifs with hcurrent
  · exact .inr ⟨(hboth.unwritten hvalid).toAlike, rfl, rfl⟩
  · split
    · rename_i happly
      exact .inr ⟨(hboth.unwritten_of_error hvalid happly).toAlike, rfl, rfl⟩
    · rename_i submitView happly
      have hsandbox := (hboth.valid (FlowSandbox.valid_new hvalid) le_rfl).1
      have hcommit := (FlowSandbox.wp_applyImpl hsandbox).ok happly
      obtain ⟨hview, hsubmit⟩ := foldl_record_eq exec
        (applied ++ [(rt.tx, _)]) { rt with submitView }
      refine .inl ⟨hall, by simpa using hcurrent, ?_, ?_, rfl⟩
      · exact (congrArg state hsubmit).trans (hcommit.state_eq hsandbox)
      · rw [← henters]
        exact hview.trans (by simp)

theorem Runtime.clearAhead_cases (hvalid : Valid rt.submitView) :
    (∃ sb, Cleared exec rt (rt.clearAhead exec).2 sb) ∨
      Untouched rt (rt.clearAhead exec).2 := by
  have hloop := applyPredecessors_runs exec (.new rt.submitView)
    (rt.predecessors exec)
  unfold clearAhead
  dsimp only
  split
  · exact .inr ⟨(hloop.unwritten hvalid).toAlike, rfl, rfl⟩
  · rename_i applied happlied
    obtain ⟨hall, henters⟩ := applyPredecessors_ok happlied
    -- the attempts are not among what is cleared or untouched
    rcases (rt.attempted _).clearCurrent_cases hvalid hloop hall henters with
      hcleared | huntouched
    · exact .inl ⟨_, hcleared.predecessors, hcleared.current, hcleared.state_eq, hcleared.view_eq,
        hcleared.removed_eq⟩
    · exact .inr ⟨huntouched.submitView, huntouched.view_eq, huntouched.removed_eq⟩

end AllOrNothing

/-- Transactions are sequence numbers, pay ten drops and write an offer under their number. -/
def sampleTransactor : Transactor (Sandbox (RawStateTable BaseView)) ℕ where
  getSeqProxy tx := .sequence tx
  getAccount _ := BaseUInt.zero
  getFee _ := 10
  calculateBaseFee _ _ := .ok 10
  calculateDefaultBaseFee _ _ := 10
  apply sb tx _ := (⟨⟨.tesSuccess, true, false⟩, none, []⟩,
    sb.writeEntry (sampleEntry .offer (.ofNat tx)))
  apply_runs sb _ _ := sb.writeEntry_runs _

/-- The open ledger holds two transactions where one is expected; 7 comes after 2 and 6 and
replaces 7. The entry of 2 is already there. -/
def sampleRuntime : Runtime (Sandbox (RawStateTable BaseView)) ℕ where
  view := [0, 1]
  submitView := sampleParent
  tx := 7
  flags := .none
  accountSeqs _ := none
  clearAheadQueue :=
    [⟨2, .sequence 2, 0, .none⟩, ⟨6, .sequence 6, 0, .none⟩, ⟨7, .sequence 7, 0, .none⟩]
  clearAheadMetrics := ⟨1, 1⟩
  clearAheadAttempts := []
  clearAheadRemoved := []
  deliveredAmount := none

theorem sampleRuntime_runTryClear : sampleRuntime.runTryClear sampleTransactor =
    .ok (sampleRuntime.clearAhead sampleTransactor) := by
  have hpaid : evaluateFeeLevelPaid 10 10 10 = .ok 256 := by decide +kernel
  have hempty : (sampleRuntime.predecessors sampleTransactor).isEmpty = false := rfl
  simp only [Runtime.runTryClear, hempty, Bool.false_eq_true, if_false]
  change (evaluateFeeLevelPaid 10 10 10 >>= _) = _
  rw [hpaid]
  rfl

end Quaxar.OpenLedger
