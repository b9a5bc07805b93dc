import Quaxar.Lib.Except

/-!
# Decimal floating point

`NumberParts`: a sign, a decimal mantissa and an exponent. Results that do not fit the
mantissa range are shortened digit by digit through a guard, which remembers sixteen
digits and whether a digit before them was not zero. The rounding mode, which the source
keeps per thread, is an argument.
-/

namespace Quaxar.Number

def numberMinExponent : ℤ := -32768

def numberMaxExponent : ℤ := 32768

/-- `i64::MAX`. -/
def numberMaxRep : ℕ := 9223372036854775807

def numberZeroExponent : ℤ := -2147483648

inductive MantissaScale where
  | small
  | largeLegacy
  | large320
  | large330
deriving DecidableEq, Repr

namespace MantissaScale

def mantissaRangeMin : MantissaScale → ℕ
  | small => 1000000000000000
  | largeLegacy | large320 | large330 => 1000000000000000000

def mantissaRangeMax : MantissaScale → ℕ
  | small => 9999999999999999
  | largeLegacy | large320 | large330 => 9999999999999999999

end MantissaScale

inductive RoundingMode where
  | toNearest
  | towardsZero
  | downward
  | upward
deriving DecidableEq, Repr

inductive NumberArithmeticError where
  | overflow
  | divideByZero
deriving DecidableEq, Repr

structure NumberParts where
  negative : Bool
  mantissa : ℕ
  exponent : ℤ
deriving DecidableEq, Repr

namespace NumberParts

def zero : NumberParts := ⟨false, 0, numberZeroExponent⟩

def isNormalized (p : NumberParts) (scale : MantissaScale) : Bool :=
  if p.mantissa = 0 then !p.negative && p.exponent = numberZeroExponent
  else
    scale.mantissaRangeMin ≤ p.mantissa && p.mantissa ≤ scale.mantissaRangeMax &&
      (p.mantissa ≤ numberMaxRep || p.mantissa % 10 = 0) &&
      numberMinExponent ≤ p.exponent && p.exponent ≤ numberMaxExponent

end NumberParts

/-- `i32::checked_add` and `i32::checked_sub`. -/
def checkedI32 (e : ℤ) : Except NumberArithmeticError ℤ :=
  if -2147483648 ≤ e ∧ e ≤ 2147483647 then .ok e else .error .overflow

/-- Checked arithmetic on unsigned integers of `width` bits. -/
def checkedUInt (width m : ℕ) : Except NumberArithmeticError ℕ :=
  if m < 2 ^ width then .ok m else .error .overflow

/-- Sixteen decimal digits, one per nibble, of which the highest is the last one
pushed. The digits are an unsigned 64-bit integer. -/
structure ArithmeticGuard where
  digits : ℕ
  hasExtra : Bool
  negative : Bool
deriving DecidableEq, Repr

namespace ArithmeticGuard

def push (g : ArithmeticGuard) (digit : ℕ) : ArithmeticGuard :=
  { g with
    digits := g.digits / 16 + digit % 16 * 2 ^ 60
    hasExtra := g.hasExtra || g.digits % 16 ≠ 0 }

/-- `1` for a step away from zero, `-1` for none, `0` for a tie. -/
def round (g : ArithmeticGuard) : RoundingMode → ℤ
  | .towardsZero => -1
  | .downward => if g.negative && (0 < g.digits || g.hasExtra) then 1 else -1
  | .upward => if g.negative then -1 else if 0 < g.digits || g.hasExtra then 1 else -1
  | .toNearest =>
    let half := 5 * 2 ^ 60
    if half < g.digits then 1
    else if g.digits < half then -1
    else if g.hasExtra then 1
    else 0

/-- Whether the rounding of `mantissa` goes up. -/
def roundsUp (g : ArithmeticGuard) (mode : RoundingMode) (mantissa : ℕ) : Bool :=
  g.round mode = 1 || g.round mode = 0 && mantissa % 2 = 1

end ArithmeticGuard

/-- The loop that fills up a short mantissa; products are checked at `width` bits. -/
def scaleUp (width minMantissa m : ℕ) (e : ℤ) : Except NumberArithmeticError (ℕ × ℤ) :=
  if m < minMantissa ∧ numberMinExponent < e then
    if 2 ^ width ≤ m * 10 then .error .overflow else scaleUp width minMantissa (m * 10) (e - 1)
  else .ok (m, e)
termination_by (e - numberMinExponent).toNat

/-- The loop that shortens a long mantissa. -/
def scaleDown (maxMantissa : ℕ) (g : ArithmeticGuard) (m : ℕ) (e : ℤ) :
    Except NumberArithmeticError (ArithmeticGuard × ℕ × ℤ) :=
  if maxMantissa < m then
    if numberMaxExponent ≤ e then .error .overflow
    else scaleDown maxMantissa (g.push (m % 10)) (m / 10) (e + 1)
  else .ok (g, m, e)
termination_by m

/-- A mantissa beyond the limit of representable ones loses one more digit. -/
def shortenOnce (limit : ℕ) (g : ArithmeticGuard) (m : ℕ) (e : ℤ) :
    Except NumberArithmeticError (ArithmeticGuard × ℕ × ℤ) :=
  if limit < m then
    if numberMaxExponent ≤ e then .error .overflow else .ok (g.push (m % 10), m / 10, e + 1)
  else .ok (g, m, e)

/-- The mantissa and exponent as they are shown; a mantissa beyond `i64::MAX` loses its
last digit. -/
def externalParts (p : NumberParts) : Except NumberArithmeticError (ℕ × ℤ) :=
  if p.mantissa = 0 then .ok (0, p.exponent)
  else if numberMaxRep < p.mantissa then do
    let e ← checkedI32 (p.exponent + 1)
    if p.mantissa / 10 ≤ numberMaxRep then .ok (p.mantissa / 10, e) else .error .overflow
  else .ok (p.mantissa, p.exponent)

/-- Drop the fractional digits. -/
def dropFraction (g : ArithmeticGuard) (m : ℕ) (offset : ℤ) : ArithmeticGuard × ℕ × ℤ :=
  if offset < 0 then dropFraction (g.push (m % 10)) (m / 10) (offset + 1) else (g, m, offset)
termination_by (-offset).toNat

def appendZeros (m : ℕ) (offset : ℤ) : Except NumberArithmeticError ℕ :=
  if 0 < offset then
    if numberMaxRep / 10 < m then .error .overflow else appendZeros (m * 10) (offset - 1)
  else .ok m
termination_by offset.toNat

/-- `do_round_i64`. -/
def doRoundI64 (mode : RoundingMode) (g : ArithmeticGuard) (drops : ℕ) :
    Except NumberArithmeticError ℤ := do
  let drops ←
    if g.roundsUp mode drops then
      if drops = numberMaxRep then .error .overflow else .ok (drops + 1)
    else .ok drops
  .ok (if g.negative then -(drops : ℤ) else drops)

def tryToI64 (mode : RoundingMode) (p : NumberParts) : Except NumberArithmeticError ℤ := do
  let (m, offset) ← externalParts p
  if m = 0 then .ok 0
  else do
    let (g, m, offset) := dropFraction ⟨0, false, p.negative⟩ m offset
    let m ← appendZeros m offset
    doRoundI64 mode g m

end Quaxar.Number
