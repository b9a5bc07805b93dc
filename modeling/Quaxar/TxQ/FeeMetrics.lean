import Quaxar.Lib.SortedList
import Quaxar.TxQ.Accept

/-!
# Fee metrics over closed ledgers

Each closed ledger updates how many transactions the next one is expected to hold and the
multiplier of the escalated fee. A slow consensus cuts the expected size, a large ledger raises it,
and the median fee level of the ledger becomes the multiplier.
-/

namespace Quaxar.TxQ

/-- Counts are `usize`, of 64 bits. -/
structure QueueFeeMetricsConfig where
  ledgersInQueue : ℕ
  minimumEscalationMultiplier : FeeLevel64
  minimumTxnInLedger : ℕ
  targetTxnInLedger : ℕ
  maximumTxnInLedger : Option ℕ
  normalConsensusIncreasePercent : UInt32
  slowConsensusDecreasePercent : UInt32
  minimum_lt : minimumTxnInLedger < 2 ^ 64

namespace QueueFeeMetricsConfig

variable (config : QueueFeeMetricsConfig)

def historyCapacity : ℕ := max config.ledgersInQueue 1

def minimumTxnCount : ℕ := config.minimumTxnInLedger

def targetTxnCount : ℕ := max config.targetTxnInLedger config.minimumTxnCount

def maximumTxnCount : Option ℕ :=
  config.maximumTxnInLedger.map fun maximum => max maximum config.targetTxnCount

/-- `100` and the percentage are added in 32 bits. -/
def increasePercent : UInt32 := 100 + config.normalConsensusIncreasePercent

/-- The percentage is taken from `100` in 64 bits. -/
def cutPercent : UInt64 := 100 - config.slowConsensusDecreasePercent.toUInt64

end QueueFeeMetricsConfig

structure QueueFeeMetricsState where
  config : QueueFeeMetricsConfig
  txnsExpected : ℕ
  recentTxnCounts : List ℕ
  escalationMultiplier : FeeLevel64

namespace QueueFeeMetricsState

variable (state : QueueFeeMetricsState)

def new (config : QueueFeeMetricsConfig) : QueueFeeMetricsState where
  config := config
  txnsExpected := config.minimumTxnCount
  recentTxnCounts := []
  escalationMultiplier := config.minimumEscalationMultiplier

def snapshot : QueueFeeMetricsSnapshot := ⟨state.txnsExpected, state.escalationMultiplier⟩

/-- `value * percent / 100`, or the largest count. -/
def percentOf (value percent : ℕ) : ℕ :=
  if value * percent / 100 > 2 ^ 64 - 1 then 2 ^ 64 - 1 else value * percent / 100

/-- After a slow consensus. The upper limit is at least the minimum. -/
def cut (size : ℕ) : QueueFeeMetricsState :=
  let upperLimit := max (percentOf state.txnsExpected state.config.cutPercent.toNat)
    state.config.minimumTxnCount
  let clamped := max state.config.minimumTxnCount
    (min (percentOf size state.config.cutPercent.toNat) upperLimit)
  { state with txnsExpected := clamped, recentTxnCounts := [] }

/-- The history with the count of the ledger, without the oldest counts. -/
def recentWith (size : ℕ) : List ℕ :=
  let counts := state.recentTxnCounts ++ [percentOf size state.config.increasePercent.toNat]
  counts.drop (counts.length - state.config.historyCapacity)

/-- After a ledger that is larger than expected or than the target. -/
def grow (size : ℕ) : QueueFeeMetricsState :=
  let recent := state.recentWith size
  -- the history is not empty: it ends in the count of this ledger
  let maxRecent := recent.foldl max 0
  let next := if maxRecent ≥ state.txnsExpected then maxRecent
    else min ((state.txnsExpected * 9 + maxRecent) / 10) (2 ^ 64 - 1)
  { state with
    recentTxnCounts := recent
    txnsExpected := match state.config.maximumTxnCount with
      | none => next
      | some maximum => min next maximum }

/-- The median of the fee levels, rounded up, and no less than the minimum. -/
def multiplierOf (validatedFeeLevels : List FeeLevel64) : FeeLevel64 :=
  let size := validatedFeeLevels.length
  if size = 0 then state.config.minimumEscalationMultiplier
  else
    let feeLevels := SortedList.sortBy id validatedFeeLevels
    let midHigh := feeLevels.getD (size / 2) 0
    let midLow := feeLevels.getD ((size - 1) / 2) 0
    max (min ((midHigh + midLow + 1) / 2) FeeLevel64.max) state.config.minimumEscalationMultiplier

def resize (size : ℕ) (timeLeap : Bool) : QueueFeeMetricsState :=
  if timeLeap then state.cut size
  else if size > state.txnsExpected ∨ size > state.config.targetTxnCount then state.grow size
  else state

def update (validatedFeeLevels : List FeeLevel64) (timeLeap : Bool) : QueueFeeMetricsState :=
  { state.resize validatedFeeLevels.length timeLeap with
    escalationMultiplier := state.multiplierOf validatedFeeLevels }

/-- The closed ledgers of a run, in order. -/
def run (ledgers : List (List FeeLevel64 × Bool)) : QueueFeeMetricsState :=
  ledgers.foldl (fun state ledger => state.update ledger.1 ledger.2) state

end QueueFeeMetricsState

section Bounds

open QueueFeeMetricsState

variable {config : QueueFeeMetricsConfig} {state : QueueFeeMetricsState}

theorem percentOf_le (value : ℕ) {percent : ℕ} (h : percent ≤ 100) :
    percentOf value percent ≤ value := by
  have hle : value * percent / 100 ≤ value :=
    Nat.div_le_of_le_mul (by rw [Nat.mul_comm 100]; exact Nat.mul_le_mul_left _ h)
  unfold percentOf
  split_ifs with hlarge
  · omega
  · exact hle

theorem le_percentOf {value percent bound : ℕ} (h : 100 ≤ percent) (hvalue : bound ≤ value)
    (hbound : bound < 2 ^ 64) : bound ≤ percentOf value percent := by
  have hle : value ≤ value * percent / 100 :=
    (Nat.le_div_iff_mul_le (by norm_num)).mpr (Nat.mul_le_mul_left _ h)
  unfold percentOf
  split_ifs <;> omega

/-- The percentages of a configuration that keep the expected size in range. -/
structure QueueFeeMetricsConfig.InRange (config : QueueFeeMetricsConfig) : Prop where
  slow_le : config.slowConsensusDecreasePercent.toNat ≤ 100
  minimum_pos : 1 ≤ config.minimumTxnInLedger
  increase_lt : 100 + config.normalConsensusIncreasePercent.toNat < 2 ^ 32

theorem QueueFeeMetricsConfig.InRange.cutPercent_le (h : config.InRange) :
    config.cutPercent.toNat ≤ 100 := by
  have hslow := h.slow_le
  rw [cutPercent, UInt64.toNat_sub_of_le]
  · exact Nat.sub_le _ _
  · exact UInt64.le_iff_toNat_le.mpr (by simpa using hslow)

theorem QueueFeeMetricsConfig.InRange.le_increasePercent (h : config.InRange) :
    100 ≤ config.increasePercent.toNat := by
  have hadd : config.increasePercent.toNat = 100 + config.normalConsensusIncreasePercent.toNat :=
    (UInt32.toNat_add _ _).trans (Nat.mod_eq_of_lt h.increase_lt)
  rw [hadd]
  exact Nat.le_add_right _ _

/-- What holds of the metrics after every ledger. -/
structure QueueFeeMetricsState.Bounded (state : QueueFeeMetricsState) : Prop where
  minimum_le : state.config.minimumTxnCount ≤ state.txnsExpected
  le_maximum : ∀ maximum ∈ state.config.maximumTxnCount, state.txnsExpected ≤ maximum
  multiplier_le : state.config.minimumEscalationMultiplier ≤ state.escalationMultiplier
  minimum_le_recent : ∀ count ∈ state.recentTxnCounts, state.config.minimumTxnCount ≤ count

theorem minimum_le_maximum {maximum : ℕ} (h : maximum ∈ config.maximumTxnCount) :
    config.minimumTxnCount ≤ maximum := by
  obtain ⟨limit, -, rfl⟩ := Option.map_eq_some_iff.mp h
  exact (le_max_right _ _).trans (le_max_right _ _)

theorem bounded_new (config : QueueFeeMetricsConfig) : (new config).Bounded where
  minimum_le := le_rfl
  le_maximum _ h := minimum_le_maximum h
  multiplier_le := le_rfl
  minimum_le_recent _ h := absurd h List.not_mem_nil

theorem QueueFeeMetricsState.Bounded.cut (h : state.Bounded) (hconfig : state.config.InRange)
    (size : ℕ) : (state.cut size).Bounded where
  minimum_le := le_max_left _ _
  le_maximum maximum hmaximum := by
    have hpercent := percentOf_le state.txnsExpected hconfig.cutPercent_le
    have hexpected := h.le_maximum maximum hmaximum
    have hminimum := minimum_le_maximum hmaximum
    exact max_le hminimum ((min_le_right _ _).trans (max_le (hpercent.trans hexpected) hminimum))
  multiplier_le := h.multiplier_le
  minimum_le_recent _ hcount := absurd hcount List.not_mem_nil

theorem le_foldl_max {l : List ℕ} {start bound : ℕ} (h : bound ≤ start ∨ ∃ a ∈ l, bound ≤ a) :
    bound ≤ l.foldl max start := by
  induction l generalizing start with
  | nil => simpa using h
  | cons a l ih =>
    refine ih ?_
    rcases h with hstart | ⟨b, hb, hle⟩
    · exact .inl (hstart.trans (le_max_left _ _))
    · rcases List.mem_cons.mp hb with rfl | hb
      · exact .inl (hle.trans (le_max_right _ _))
      · exact .inr ⟨b, hb, hle⟩

/-- The history keeps at least the count of the ledger. -/
theorem last_mem_recentWith (state : QueueFeeMetricsState) (size : ℕ) :
    percentOf size state.config.increasePercent.toNat ∈ state.recentWith size := by
  have hcapacity : 1 ≤ state.config.historyCapacity := le_max_right _ _
  unfold recentWith
  rw [List.drop_append_of_le_length]
  · exact List.mem_append_right _ (List.mem_singleton_self _)
  · rw [List.length_append, List.length_singleton]
    omega

namespace QueueFeeMetricsState

variable (h : state.Bounded) (hconfig : state.config.InRange)

include h hconfig

theorem Bounded.minimum_le_recentWith {size : ℕ} (hsize : state.config.minimumTxnCount ≤ size) :
    ∀ count ∈ state.recentWith size, state.config.minimumTxnCount ≤ count := by
  intro count hcount
  rcases List.mem_append.mp (List.mem_of_mem_drop hcount) with hold | hnew
  · exact h.minimum_le_recent count hold
  · rw [List.mem_singleton.mp hnew]
    exact le_percentOf hconfig.le_increasePercent hsize state.config.minimum_lt

theorem Bounded.grow
    {size : ℕ} (hsize : size > state.txnsExpected ∨ size > state.config.targetTxnCount) :
    (state.grow size).Bounded := by
  have hminimum : state.config.minimumTxnCount ≤ size := by
    rcases hsize with hexpected | htarget
    · exact h.minimum_le.trans hexpected.le
    · exact (le_max_right _ _).trans htarget.le
  have hrecent := h.minimum_le_recentWith hconfig hminimum
  have hmax : state.config.minimumTxnCount ≤ (state.recentWith size).foldl max 0 :=
    le_foldl_max (.inr ⟨_, last_mem_recentWith state size,
      hrecent _ (last_mem_recentWith state size)⟩)
  have hnext : state.config.minimumTxnCount ≤
      if (state.recentWith size).foldl max 0 ≥ state.txnsExpected then
        (state.recentWith size).foldl max 0
      else min ((state.txnsExpected * 9 + (state.recentWith size).foldl max 0) / 10)
        (2 ^ 64 - 1) := by
    split_ifs
    · exact hmax
    · -- an average of numbers that are at least the minimum
      have hlt : state.config.minimumTxnCount < 2 ^ 64 := state.config.minimum_lt
      exact le_min (by omega) (by omega)
  refine ⟨?_, fun maximum hmaximum => ?_, h.multiplier_le, hrecent⟩
  · unfold QueueFeeMetricsState.grow
    cases hmaximum : state.config.maximumTxnCount with
    | none => exact hnext
    | some maximum => exact le_min hnext (minimum_le_maximum hmaximum)
  · have hmaximum : state.config.maximumTxnCount = some maximum := hmaximum
    unfold QueueFeeMetricsState.grow
    rw [hmaximum]
    exact min_le_right _ _

theorem Bounded.resize (size : ℕ) (timeLeap : Bool) : (state.resize size timeLeap).Bounded := by
  unfold QueueFeeMetricsState.resize
  split_ifs with hleap hsize
  · exact h.cut hconfig size
  · exact h.grow hconfig hsize
  · exact h

end QueueFeeMetricsState

theorem resize_config (state : QueueFeeMetricsState) (size : ℕ) (timeLeap : Bool) :
    (state.resize size timeLeap).config = state.config := by
  unfold QueueFeeMetricsState.resize
  split_ifs <;> rfl

theorem minimum_le_multiplierOf (state : QueueFeeMetricsState) (levels : List FeeLevel64) :
    state.config.minimumEscalationMultiplier ≤ state.multiplierOf levels := by
  unfold multiplierOf
  dsimp only
  split_ifs
  · exact le_rfl
  · exact le_max_right _ _

theorem QueueFeeMetricsState.Bounded.update (h : state.Bounded) (hconfig : state.config.InRange)
    (levels : List FeeLevel64) (timeLeap : Bool) : (state.update levels timeLeap).Bounded := by
  have hresize := h.resize hconfig levels.length timeLeap
  refine ⟨hresize.minimum_le, hresize.le_maximum, ?_, hresize.minimum_le_recent⟩
  change (state.resize levels.length timeLeap).config.minimumEscalationMultiplier ≤ _
  rw [resize_config]
  exact minimum_le_multiplierOf state levels

theorem run_config (state : QueueFeeMetricsState) (ledgers : List (List FeeLevel64 × Bool)) :
    (state.run ledgers).config = state.config := by
  induction ledgers generalizing state with
  | nil => rfl
  | cons ledger ledgers ih => exact (ih _).trans (resize_config state _ _)

theorem QueueFeeMetricsState.Bounded.run (h : state.Bounded) (hconfig : state.config.InRange)
    (ledgers : List (List FeeLevel64 × Bool)) : (state.run ledgers).Bounded := by
  induction ledgers generalizing state with
  | nil => exact h
  | cons ledger ledgers ih =>
    refine ih (h.update hconfig ledger.1 ledger.2) ?_
    change (state.resize _ _).config.InRange
    rwa [resize_config]

end Bounds

variable {snapshot : QueueFeeMetricsSnapshot} {count : ℕ}

/-- The escalated level above the expected count. -/
def escalatedLevel (snapshot : QueueFeeMetricsSnapshot) (count : ℕ) : FeeLevel64 :=
  min (snapshot.escalationMultiplier * saturatingMul count count /
    saturatingMul snapshot.txnsExpected snapshot.txnsExpected) FeeLevel64.max

theorem saturatingMul_self_pos (h : 0 < count) : 0 < saturatingMul count count :=
  lt_min (Nat.mul_pos h h) (by norm_num)

theorem saturatingMul_self_mono {count' : ℕ} (h : count ≤ count') :
    saturatingMul count count ≤ saturatingMul count' count' :=
  min_le_min_right _ (Nat.mul_le_mul h h)

theorem scaleFeeLevel_of_le (h : count ≤ snapshot.txnsExpected) :
    scaleFeeLevel snapshot count = .ok txqBaseLevel := by
  rw [scaleFeeLevel, if_pos h]
  rfl

theorem scaleFeeLevel_of_lt (hpos : 0 < snapshot.txnsExpected) (h : snapshot.txnsExpected < count) :
    scaleFeeLevel snapshot count = .ok (escalatedLevel snapshot count) := by
  rw [scaleFeeLevel, if_neg (not_le.mpr h), mulDiv, if_neg (saturatingMul_self_pos hpos).ne']
  split_ifs with hlarge
  · exact congrArg Except.ok (min_eq_right (Nat.le_of_lt hlarge)).symm
  · exact congrArg Except.ok (min_eq_left (not_lt.mp hlarge)).symm

theorem escalatedLevel_mono {count' : ℕ} (h : count ≤ count') :
    escalatedLevel snapshot count ≤ escalatedLevel snapshot count' :=
  min_le_min_right _ (Nat.div_le_div_right (Nat.mul_le_mul_left _ (saturatingMul_self_mono h)))

/-- At the target the level jumps from the base level to no less than the multiplier. -/
theorem baseLevel_le_escalatedLevel (hpos : 0 < snapshot.txnsExpected)
    (hmultiplier : txqBaseLevel ≤ snapshot.escalationMultiplier)
    (h : snapshot.txnsExpected < count) : txqBaseLevel ≤ escalatedLevel snapshot count := by
  refine le_min ?_ (by decide)
  rw [Nat.le_div_iff_mul_le (saturatingMul_self_pos hpos)]
  exact Nat.mul_le_mul hmultiplier (saturatingMul_self_mono h.le)

theorem scaleFeeLevel_mono (hpos : 0 < snapshot.txnsExpected)
    (hmultiplier : txqBaseLevel ≤ snapshot.escalationMultiplier) {count' : ℕ} (h : count ≤ count') :
    ∃ level level', scaleFeeLevel snapshot count = .ok level ∧
      scaleFeeLevel snapshot count' = .ok level' ∧ level ≤ level' := by
  rcases le_or_gt count' snapshot.txnsExpected with hle' | hlt'
  · exact ⟨_, _, scaleFeeLevel_of_le (h.trans hle'), scaleFeeLevel_of_le hle', le_rfl⟩
  rcases le_or_gt count snapshot.txnsExpected with hle | hlt
  · exact ⟨_, _, scaleFeeLevel_of_le hle, scaleFeeLevel_of_lt hpos hlt',
      baseLevel_le_escalatedLevel hpos hmultiplier hlt'⟩
  · exact ⟨_, _, scaleFeeLevel_of_lt hpos hlt, scaleFeeLevel_of_lt hpos hlt',
      escalatedLevel_mono h⟩

/-- After every run of closed ledgers the expected size and the multiplier are in range, and the
required fee level does not fall as the open ledger fills. -/
theorem feeMetrics_bounded_and_monotone {config : QueueFeeMetricsConfig} (hconfig : config.InRange)
    (ledgers : List (List FeeLevel64 × Bool)) {state : QueueFeeMetricsState}
    (hstate : state = (QueueFeeMetricsState.new config).run ledgers) :
    config.minimumTxnInLedger ≤ state.txnsExpected ∧
      (∀ maximum ∈ config.maximumTxnInLedger, state.txnsExpected ≤
        max maximum (max config.targetTxnInLedger config.minimumTxnInLedger)) ∧
      config.minimumEscalationMultiplier ≤ state.escalationMultiplier ∧
      (256 ≤ state.escalationMultiplier → ∀ count count', count ≤ count' →
        ∃ level level', scaleFeeLevel state.snapshot count = .ok level ∧
          scaleFeeLevel state.snapshot count' = .ok level' ∧ level ≤ level') := by
  have hbounded : state.Bounded := hstate ▸ (bounded_new config).run hconfig ledgers
  have hsame : state.config = config := hstate ▸ run_config _ ledgers
  have hminimum : config.minimumTxnInLedger ≤ state.txnsExpected := hsame ▸ hbounded.minimum_le
  refine ⟨hminimum, fun maximum hmaximum => ?_, hsame ▸ hbounded.multiplier_le, ?_⟩
  · refine hbounded.le_maximum _ ?_
    rw [hsame]
    exact Option.map_eq_some_iff.mpr ⟨maximum, hmaximum, rfl⟩
  · intro hmultiplier count count' hle
    have hpos : 0 < state.snapshot.txnsExpected := hconfig.minimum_pos.trans hminimum
    exact scaleFeeLevel_mono hpos hmultiplier hle

def sampleConfig (increase : UInt32) : QueueFeeMetricsConfig where
  ledgersInQueue := 20
  minimumEscalationMultiplier := 128000
  minimumTxnInLedger := 10
  targetTxnInLedger := 10
  maximumTxnInLedger := some 100
  normalConsensusIncreasePercent := increase
  slowConsensusDecreasePercent := 50
  minimum_lt := by norm_num

/-- A ledger with one transaction more than expected. -/
def largeLedger : List FeeLevel64 × Bool := (List.replicate 11 256, false)

theorem sampleConfig_inRange : (sampleConfig 20).InRange :=
  ⟨by decide, by decide, by decide⟩

theorem feeMetrics_sampleConfig :
    (sampleConfig 20).InRange ∧
      10 ≤ ((QueueFeeMetricsState.new (sampleConfig 20)).run [largeLedger]).txnsExpected :=
  ⟨sampleConfig_inRange, (feeMetrics_bounded_and_monotone sampleConfig_inRange [largeLedger] rfl).1⟩

/-- The percentage wraps to zero, and the ledger lowers the expected size below the minimum. -/
theorem txnsExpected_below_minimum :
    (sampleConfig 4294967196).slowConsensusDecreasePercent.toNat ≤ 100 ∧
      1 ≤ (sampleConfig 4294967196).minimumTxnInLedger ∧
      ((QueueFeeMetricsState.new (sampleConfig 4294967196)).run [largeLedger]).txnsExpected <
        (sampleConfig 4294967196).minimumTxnInLedger := by
  decide +kernel

end Quaxar.TxQ
