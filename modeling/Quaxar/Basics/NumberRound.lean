import Quaxar.Basics.Number

/-!
# Rounding to integers

`try_to_i64` pushes the fractional digits of a number into a guard, one after the other,
and rounds by what the guard remembers of them. That is enough to round correctly: the
guard tells whether the fraction is zero, and how it compares with one half.
-/

namespace Quaxar.Number

/-- The exact value. -/
def NumberParts.value (p : NumberParts) : ℚ :=
  (if p.negative then -1 else 1) * (p.mantissa * 10 ^ p.exponent)

/-- The integer that a mode rounds to. -/
def roundInt : RoundingMode → ℚ → ℤ
  | .towardsZero, x => if x < 0 then ⌈x⌉ else ⌊x⌋
  | .downward, x => ⌊x⌋
  | .upward, x => ⌈x⌉
  | .toNearest, x =>
    if 2 * (x - ⌊x⌋) < 1 ∨ 2 * (x - ⌊x⌋) = 1 ∧ Even ⌊x⌋ then ⌊x⌋ else ⌊x⌋ + 1

/-- Whether `q + r / n` is rounded away from zero. -/
def roundsAway (negative : Bool) (q r n : ℕ) : RoundingMode → Bool
  | .towardsZero => false
  | .downward => negative && r ≠ 0
  | .upward => !negative && r ≠ 0
  | .toNearest => n < 2 * r || 2 * r = n && q % 2 = 1

variable {q r n : ℕ}

theorem floor_quotient (hr : r < n) : ⌊(q + r / n : ℚ)⌋ = q := by
  have hn : (0 : ℚ) < n := by exact_mod_cast (Nat.zero_le r).trans_lt hr
  have hlt : (r / n : ℚ) < 1 := (div_lt_one hn).mpr (by exact_mod_cast hr)
  rw [Int.floor_eq_iff]
  push_cast
  exact ⟨le_add_of_nonneg_right (by positivity), by linarith⟩

theorem ceil_quotient (hr : r < n) : ⌈(q + r / n : ℚ)⌉ = if r = 0 then (q : ℤ) else q + 1 := by
  have hn : (0 : ℚ) < n := by exact_mod_cast (Nat.zero_le r).trans_lt hr
  split_ifs with hzero
  · simp [hzero]
  · have hlt : (r / n : ℚ) < 1 := (div_lt_one hn).mpr (by exact_mod_cast hr)
    have hpos : (0 : ℚ) < r / n := div_pos (by exact_mod_cast Nat.pos_of_ne_zero hzero) hn
    rw [Int.ceil_eq_iff]
    push_cast
    exact ⟨by linarith, by linarith⟩

/-- Rounding of a number whose magnitude is `q + r / n`. -/
theorem roundInt_eq (mode : RoundingMode) (negative : Bool) (hr : r < n) :
    roundInt mode ((if negative then -1 else 1) * (q + r / n)) =
      (if negative then -1 else 1) * (q + if roundsAway negative q r n mode then 1 else 0 : ℤ) := by
  have hn : (0 : ℚ) < n := by exact_mod_cast (Nat.zero_le r).trans_lt hr
  have hfloor := floor_quotient (q := q) hr
  have hceil := ceil_quotient (q := q) hr
  have hnonneg : (0 : ℚ) ≤ q + r / n := by positivity
  have hless : 2 * (q + r / n - q : ℚ) < 1 ↔ 2 * r < n := by
    rw [add_sub_cancel_left, ← mul_div_assoc, div_lt_one hn]
    exact_mod_cast Iff.rfl
  have htie : 2 * (q + r / n - q : ℚ) = 1 ↔ 2 * r = n := by
    rw [add_sub_cancel_left, ← mul_div_assoc, div_eq_one_iff_eq hn.ne']
    exact_mod_cast Iff.rfl
  generalize (q + r / n : ℚ) = a at hfloor hceil hnonneg hless htie ⊢
  cases negative with
  | false =>
    simp only [Bool.false_eq_true, if_false, one_mul]
    cases mode with
    | towardsZero => simp [roundInt, roundsAway, hfloor, not_lt.mpr hnonneg]
    | downward => simp [roundInt, roundsAway, hfloor]
    | upward => by_cases hzero : r = 0 <;> simp [roundInt, roundsAway, hceil, hzero]
    | toNearest =>
      simp only [roundInt, roundsAway, hfloor, Int.cast_natCast, hless, htie, Int.even_coe_nat,
        Nat.even_iff, Bool.or_eq_true, Bool.and_eq_true, decide_eq_true_eq]
      split_ifs <;> omega
  | true =>
    simp only [if_true, neg_one_mul]
    cases mode with
    | towardsZero =>
      rcases hnonneg.eq_or_lt with rfl | hpos
      · have hq : q = 0 := by simpa [eq_comm] using hfloor
        simp [roundInt, roundsAway, hq]
      · simp [roundInt, roundsAway, hpos, Int.ceil_neg, hfloor]
    | downward =>
      by_cases hzero : r = 0 <;> simp [roundInt, roundsAway, Int.floor_neg, hceil, hzero]
    | upward => simp [roundInt, roundsAway, Int.ceil_neg, hfloor]
    | toNearest =>
      simp only [roundInt, roundsAway, Int.floor_neg, hceil]
      by_cases hzero : r = 0
      · have ha : a = q := by
          have h := Int.le_ceil a
          rw [hceil, if_pos hzero] at h
          exact le_antisymm (by exact_mod_cast h) (by exact_mod_cast hfloor ▸ Int.floor_le a)
        have hne : 0 ≠ n := ((Nat.zero_le r).trans_lt hr).ne
        simp [hzero, ha, hne]
      · -- what rounding down leaves is one minus the fraction of the magnitude
        have hrest : 2 * (-a - ((-(q + 1 : ℤ) : ℤ) : ℚ)) = 2 - 2 * (a - q) := by
          push_cast
          ring
        have hmore : 2 - 2 * (a - q) < 1 ↔ n < 2 * r := by
          rw [← not_le, ← not_le, Nat.le_iff_lt_or_eq, ← hless, ← htie, ← le_iff_lt_or_eq]
          exact not_congr ⟨fun h => by linarith, fun h => by linarith⟩
        have hsame : 2 - 2 * (a - q) = 1 ↔ 2 * r = n := by
          rw [← htie]
          exact ⟨fun h => by linarith, fun h => by linarith⟩
        have heven : Even (-(q + 1 : ℤ)) ↔ q % 2 = 1 := by
          rw [even_neg, Int.even_iff]
          omega
        simp only [if_neg hzero, hrest, hmore, hsame, heven, Bool.or_eq_true, Bool.and_eq_true,
          decide_eq_true_eq]
        split_ifs <;> omega

section Guard

open ArithmeticGuard

/-- What a guard remembers of the fraction `r / 10 ^ k`. -/
structure ArithmeticGuard.Remembers (g : ArithmeticGuard) (r k : ℕ) : Prop where
  lt : r < 10 ^ k
  digits_lt : g.digits < 2 ^ 64
  zero_iff : g.digits = 0 ∧ g.hasExtra = false ↔ r = 0
  less_iff : g.digits < 5 * 2 ^ 60 ↔ 2 * r < 10 ^ k
  tie_iff : g.digits = 5 * 2 ^ 60 ∧ g.hasExtra = false ↔ 2 * r = 10 ^ k

variable {g : ArithmeticGuard} {k : ℕ} (mode : RoundingMode)

theorem remembers_default (negative : Bool) : Remembers ⟨0, false, negative⟩ 0 0 := by
  constructor <;> simp

theorem push_negative (g : ArithmeticGuard) (d : ℕ) : (g.push d).negative = g.negative := by
  cases g
  rfl

/-- One more digit in front of the fraction. -/
theorem ArithmeticGuard.Remembers.push (h : g.Remembers r k) {d : ℕ} (hd : d < 10) :
    (g.push d).Remembers (d * 10 ^ k + r) (k + 1) := by
  obtain ⟨hlt, hdigits, hzero, -, -⟩ := h
  have hextra : (g.push d).hasExtra = false ↔ g.digits % 16 = 0 ∧ g.hasExtra = false := by
    simp [ArithmeticGuard.push, and_comm]
  have hpush : (g.push d).digits = g.digits / 16 + d * 2 ^ 60 := by
    simp [ArithmeticGuard.push, Nat.mod_eq_of_lt (hd.trans (by decide : 10 < 16))]
  have hsucc : 10 ^ (k + 1) = 10 * 10 ^ k := by ring
  constructor
  · rw [hsucc]
    interval_cases d <;> omega
  · omega
  · have hdigit : (g.digits / 16 + d * 2 ^ 60 = 0 ∧ g.digits % 16 = 0 ∧ g.hasExtra = false) ↔
        d = 0 ∧ g.digits = 0 ∧ g.hasExtra = false := by
      constructor
      · rintro ⟨htop, hlow, he⟩
        exact ⟨by omega, by omega, he⟩
      · rintro ⟨rfl, hnone, he⟩
        exact ⟨by omega, by omega, he⟩
    rw [hpush, hextra, hdigit, hzero]
    simp
  · rw [hpush, hsucc]
    interval_cases d <;> omega
  · have hdigit : (g.digits / 16 + d * 2 ^ 60 = 5 * 2 ^ 60 ∧ g.digits % 16 = 0 ∧
        g.hasExtra = false) ↔ d = 5 ∧ g.digits = 0 ∧ g.hasExtra = false := by
      constructor
      · rintro ⟨htop, hlow, he⟩
        exact ⟨by omega, by omega, he⟩
      · rintro ⟨rfl, hnone, he⟩
        exact ⟨by omega, by omega, he⟩
    rw [hpush, hextra, hdigit, hzero, hsucc]
    interval_cases d <;> omega

theorem ArithmeticGuard.Remembers.roundsUp (h : g.Remembers r k) (q : ℕ) :
    g.roundsUp mode q = roundsAway g.negative q r (10 ^ k) mode := by
  have hsome : (0 < g.digits ∨ g.hasExtra = true) ↔ r ≠ 0 := by
    rw [← not_iff_not, not_or, not_not, ← h.zero_iff]
    simp
  have hless := h.less_iff
  have htie := h.tie_iff
  rw [Bool.eq_iff_iff]
  cases mode with
  | towardsZero => simp [roundsUp, round, roundsAway]
  | downward =>
    simp only [roundsUp, round, roundsAway, Bool.and_eq_true, Bool.or_eq_true,
      decide_eq_true_eq, hsome]
    split_ifs with hcase <;> simp [hcase]
  | upward =>
    simp only [roundsUp, round, roundsAway, Bool.and_eq_true, Bool.or_eq_true,
      decide_eq_true_eq, hsome]
    split_ifs with hsign hcase <;> simp [*]
  | toNearest =>
    simp only [roundsUp, round, roundsAway, Bool.and_eq_true, Bool.or_eq_true,
      decide_eq_true_eq]
    split_ifs with hmore hfewer hextra
    · have hne : 2 * r ≠ 10 ^ k := fun h => by omega
      have hlt : 10 ^ k < 2 * r := by omega
      simp [hlt]
    · have hlt := hless.mp hfewer
      simp [hlt.ne, hlt.le]
    · have hne : 2 * r ≠ 10 ^ k := fun h => by simp [hextra] at htie; omega
      have hlt : 10 ^ k < 2 * r := by omega
      simp [hlt]
    · have heq : 2 * r = 10 ^ k := htie.mp ⟨by omega, by simpa using hextra⟩
      simp [heq]

/-- The fraction of `m / 10 ^ j` in front of what the guard remembers already. -/
theorem dropFraction_eq (h : g.Remembers r k) (m j : ℕ) :
    ∃ g', dropFraction g m (-(j : ℤ)) = (g', m / 10 ^ j, 0) ∧ g'.negative = g.negative ∧
      g'.Remembers (m % 10 ^ j * 10 ^ k + r) (k + j) := by
  induction j generalizing g m r k with
  | zero =>
    refine ⟨g, ?_, rfl, by simpa [Nat.mod_one] using h⟩
    rw [dropFraction, if_neg (by simp)]
    simp
  | succ j ih =>
    obtain ⟨g', hrun, hsign, h'⟩ := ih (h.push (Nat.mod_lt m (by decide))) (m / 10)
    refine ⟨g', ?_, hsign.trans (push_negative g _), ?_⟩
    · rw [dropFraction, if_pos (by omega), show -((j + 1 : ℕ) : ℤ) + 1 = -(j : ℤ) by omega, hrun,
        Nat.div_div_eq_div_mul, ← pow_succ']
    · rw [pow_succ', Nat.mod_mul, add_mul]
      convert h' using 1 <;> ring

theorem appendZeros_eq {m : ℕ} (hm : 0 < m) (hle : m ≤ numberMaxRep) (j : ℕ) :
    appendZeros m j =
      if m * 10 ^ j ≤ numberMaxRep then .ok (m * 10 ^ j) else .error .overflow := by
  induction j generalizing m with
  | zero =>
    rw [appendZeros]
    simp [hle]
  | succ j ih =>
    rw [appendZeros, if_pos (by omega), pow_succ', ← mul_assoc]
    by_cases hlong : numberMaxRep / 10 < m
    · have hpow : m * 10 ≤ m * 10 * 10 ^ j := Nat.le_mul_of_pos_right _ (by positivity)
      rw [if_pos hlong, if_neg (by unfold numberMaxRep at hlong ⊢; omega)]
    · rw [if_neg hlong, show ((j + 1 : ℕ) : ℤ) - 1 = j by omega]
      exact ih (by omega) (by unfold numberMaxRep at hlong ⊢; omega)

theorem doRoundI64_eq (h : g.Remembers r k) (hq : q ≤ numberMaxRep) :
    doRoundI64 mode g q =
      let z := roundInt mode ((if g.negative then -1 else 1) * (q + r / (10 ^ k : ℕ)))
      if |z| ≤ 2 ^ 63 - 1 then .ok z else .error .overflow := by
  simp only [roundInt_eq mode g.negative h.lt, doRoundI64, h.roundsUp]
  have habs : ∀ c : ℕ, |(if g.negative then -1 else 1 : ℤ) * (q + c)| = q + c := by
    intro c
    rw [abs_mul, abs_of_nonneg (by positivity : (0 : ℤ) ≤ q + c)]
    split_ifs <;> simp
  have hsign : ∀ c : ℕ, (if g.negative = true then -((q + c : ℕ) : ℤ) else (q + c : ℕ)) =
      (if g.negative then -1 else 1 : ℤ) * (q + c) := by
    intro c
    split_ifs <;> simp
  by_cases hup : roundsAway g.negative q r (10 ^ k) mode = true
  · have hfit := habs 1
    have hvalue := hsign 1
    simp only [Nat.cast_one] at hfit hvalue
    simp only [if_pos hup, hfit]
    by_cases hfull : q = numberMaxRep
    · rw [if_pos hfull, if_neg (by unfold numberMaxRep at hfull; omega)]
      rfl
    · rw [if_neg hfull, if_pos (by unfold numberMaxRep at hfull hq; omega), ← hvalue]
      rfl
  · have hfit := habs 0
    have hvalue := hsign 0
    simp only [Nat.cast_zero] at hfit hvalue
    simp only [if_neg hup, hfit]
    rw [if_pos (by unfold numberMaxRep at hq; omega), ← hvalue]
    rfl

end Guard

theorem externalParts_eq {scale : MantissaScale} {x : NumberParts}
    (hx : x.isNormalized scale = true) (hne : x.mantissa ≠ 0) :
    ∃ m e, externalParts x = .ok (m, e) ∧ 0 < m ∧ m ≤ numberMaxRep ∧
      x.value = (if x.negative then -1 else 1) * (m * 10 ^ e) := by
  simp only [NumberParts.isNormalized, if_neg hne, Bool.and_eq_true, decide_eq_true_eq,
    Bool.or_eq_true] at hx
  obtain ⟨⟨⟨⟨-, hmax⟩, hrep⟩, hlow⟩, hhigh⟩ := hx
  simp only [externalParts, if_neg hne]
  by_cases hbig : numberMaxRep < x.mantissa
  · have hten : 10 * (x.mantissa / 10) = x.mantissa := by omega
    have hsmall : x.mantissa / 10 ≤ numberMaxRep := by
      have : x.mantissa ≤ 9999999999999999999 := hmax.trans (by cases scale <;> decide)
      unfold numberMaxRep
      omega
    refine ⟨x.mantissa / 10, x.exponent + 1, ?_, by unfold numberMaxRep at hbig; omega, hsmall, ?_⟩
    · rw [if_pos hbig, checkedI32, if_pos
        (by unfold numberMinExponent numberMaxExponent at *; omega)]
      simp only [Except.ok_bind]
      rw [if_pos hsmall]
    · rw [NumberParts.value, zpow_add_one₀ (by norm_num)]
      nth_rewrite 1 [← hten]
      push_cast
      ring
  · exact ⟨x.mantissa, x.exponent, if_neg hbig, by omega, by omega, rfl⟩

/-- `try_to_i64` rounds the exact value in the given mode, or fails if the result has more
than sixty-three bits. -/
theorem tryToI64_correctly_rounded (mode : RoundingMode) (scale : MantissaScale) (x : NumberParts)
    (hx : x.isNormalized scale = true) :
    tryToI64 mode x = if |roundInt mode x.value| ≤ 2 ^ 63 - 1 then .ok (roundInt mode x.value)
      else .error .overflow := by
  by_cases hzero : x.mantissa = 0
  · have hround : roundInt mode x.value = 0 := by
      cases mode <;> simp [NumberParts.value, hzero, roundInt]
    simp [tryToI64, externalParts, hzero, hround]
  · obtain ⟨m, e, hparts, hpos, hle, hvalue⟩ := externalParts_eq hx hzero
    simp only [tryToI64, hparts, Except.ok_bind, if_neg hpos.ne', hvalue]
    obtain ⟨k, rfl | rfl⟩ := e.eq_nat_or_neg
    · rw [dropFraction, if_neg (by omega)]
      simp only [appendZeros_eq hpos hle]
      have hround := doRoundI64_eq mode (remembers_default x.negative) (q := m * 10 ^ k)
      by_cases hfit : m * 10 ^ k ≤ numberMaxRep
      · rw [if_pos hfit]
        simpa using hround hfit
      · -- an integer beyond `i64::MAX` is its own rounding
        have hself := roundInt_eq (q := m * 10 ^ k) mode x.negative Nat.zero_lt_one
        have hnone : roundsAway x.negative (m * 10 ^ k) 0 1 mode = false := by
          cases mode <;> simp [roundsAway]
        simp only [hnone, Nat.cast_zero, zero_div, add_zero, Nat.cast_mul, Nat.cast_pow,
          Nat.cast_ofNat, Bool.false_eq_true, if_false] at hself
        rw [if_neg hfit, zpow_natCast, hself, if_neg]
        · rfl
        · rw [abs_mul, abs_of_nonneg (by positivity : (0 : ℤ) ≤ m * 10 ^ k)]
          unfold numberMaxRep at hfit
          zify at hfit
          split_ifs <;> simp only [abs_neg, abs_one, one_mul] <;> omega
    · obtain ⟨g, hrun, hsign, h⟩ := dropFraction_eq (remembers_default x.negative) m k
      have hzeros : appendZeros (m / 10 ^ k) 0 = .ok (m / 10 ^ k) := by
        rw [appendZeros, if_neg (by simp)]
      have hsplit : ((m / 10 ^ k : ℕ) + (m % 10 ^ k : ℕ) / (10 ^ k : ℕ) : ℚ) =
          m * 10 ^ (-(k : ℤ)) := by
        rw [zpow_neg, zpow_natCast, ← div_eq_mul_inv, eq_div_iff (by positivity), add_mul]
        push_cast
        rw [div_mul_cancel₀ _ (by positivity)]
        exact_mod_cast Nat.div_add_mod' m (10 ^ k)
      simp only [hrun, hzeros, Except.ok_bind]
      rw [doRoundI64_eq mode h ((Nat.div_le_self m _).trans hle)]
      simp only [hsign, pow_zero, mul_one, add_zero, zero_add, hsplit]

/-- Minus two and a half is halfway between two integers. -/
theorem tryToI64_correctly_rounded_tie :
    NumberParts.isNormalized ⟨true, 2500000000000000, -15⟩ .small = true ∧
      tryToI64 .toNearest ⟨true, 2500000000000000, -15⟩ = .ok (-2) := by
  have hx : NumberParts.isNormalized ⟨true, 2500000000000000, -15⟩ .small = true := by decide
  have hvalue : NumberParts.value ⟨true, 2500000000000000, -15⟩ = -5 / 2 := by
    norm_num [NumberParts.value]
  have hround : roundInt .toNearest (-5 / 2) = -2 := by
    have hfloor : ⌊(-5 / 2 : ℚ)⌋ = -3 := by
      norm_num
    rw [roundInt, hfloor]
    norm_num
  refine ⟨hx, ?_⟩
  rw [tryToI64_correctly_rounded .toNearest .small _ hx, hvalue, hround]
  norm_num

end Quaxar.Number
