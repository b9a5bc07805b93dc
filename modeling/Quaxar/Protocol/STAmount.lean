import Quaxar.Basics.Number
import Quaxar.Protocol.Serializer

/-!
# Amounts

`STAmount`: an amount of XRP, of an issued currency or of a multi-purpose token. All
three share one 64-bit word on the wire, whose highest bits tell them apart. The rounding
mode that canonicalization reads from its thread is an argument.
-/

namespace Quaxar.Protocol

open Number

abbrev Currency := Uint160

abbrev AccountID := Uint160

def isXrpCurrency (currency : Currency) : Bool := currency.isZero

structure Issue where
  currency : Currency
  account : AccountID
deriving DecidableEq

def xrpIssue : Issue := ⟨BaseUInt.zero, BaseUInt.zero⟩

namespace Issue

/-- The `==` of issues: the account of XRP is ignored. -/
def eq (x y : Issue) : Bool :=
  x.currency = y.currency && (isXrpCurrency x.currency || x.account = y.account)

def native (issue : Issue) : Bool := issue.eq xrpIssue

end Issue

structure MPTIssue where
  mptId : Uint192
deriving DecidableEq

inductive Asset where
  | issue (issue : Issue)
  | mptIssue (issue : MPTIssue)
deriving DecidableEq

namespace Asset

def native : Asset → Bool
  | issue i => i.native
  | mptIssue _ => false

def integral : Asset → Bool
  | issue i => i.native
  | mptIssue _ => true

/-- The `==` of assets. -/
def eq : Asset → Asset → Bool
  | issue x, issue y => x.eq y
  | mptIssue x, mptIssue y => x = y
  | _, _ => false

end Asset

structure IOUAmount where
  mantissa : ℤ
  exponent : ℤ
deriving DecidableEq

variable (mode : RoundingMode)

/-- `bring_into_range` of the guard for issued amounts. -/
def iouBringIntoRange (minMantissa : ℕ) (p : NumberParts) : NumberParts :=
  let p :=
    if p.mantissa < minMantissa then
      { p with mantissa := p.mantissa * 10, exponent := p.exponent - 1 }
    else p
  if p.exponent < numberMinExponent then .zero else p

/-- `do_round_up` of the guard for issued amounts. -/
def iouRoundUp (minMantissa maxMantissa : ℕ) (g : ArithmeticGuard) (p : NumberParts) :
    Except NumberArithmeticError NumberParts := do
  let p ←
    if g.roundsUp mode p.mantissa then
      if maxMantissa < p.mantissa + 1 ∨ numberMaxRep < p.mantissa + 1 then do
        let e ← checkedI32 (p.exponent + 1)
        .ok { p with mantissa := (p.mantissa + 1) / 10, exponent := e }
      else .ok { p with mantissa := p.mantissa + 1 }
    else .ok p
  let p := iouBringIntoRange minMantissa p
  if numberMaxExponent < p.exponent then .error .overflow else .ok p

def normalizePartsToRange (minMantissa maxMantissa : ℕ) (p : NumberParts) :
    Except NumberArithmeticError NumberParts :=
  if p.mantissa = 0 then .ok .zero
  else do
    let (m, e) ← scaleUp 64 minMantissa p.mantissa p.exponent
    let (g, m, e) ← scaleDown maxMantissa ⟨0, false, p.negative⟩ m e
    if e < numberMinExponent ∨ m < minMantissa then .ok .zero
    else do
      let (g, m, e) ← shortenOnce numberMaxRep g m e
      let r ← iouRoundUp mode minMantissa maxMantissa g ⟨p.negative, m, e⟩
      let mantissa ← checkedUInt 64 r.mantissa
      .ok ⟨r.negative && mantissa ≠ 0, mantissa, r.exponent⟩

def signedRuntimeMantissa (p : NumberParts) : Except NumberArithmeticError ℤ :=
  if p.mantissa ≤ numberMaxRep then .ok (if p.negative then -(p.mantissa : ℤ) else p.mantissa)
  else .error .overflow

def minIouExponent : ℤ := -96

def maxIouExponent : ℤ := 80

def minIouMantissa : ℕ := 1000000000000000

def maxIouMantissa : ℕ := 9999999999999999

def iouZeroExponent : ℤ := -100

def IOUAmount.fromNumber (number : NumberParts) : Except NumberArithmeticError IOUAmount := do
  let normalized ← normalizePartsToRange mode minIouMantissa maxIouMantissa number
  let mantissa ← signedRuntimeMantissa normalized
  if mantissa = 0 ∨ normalized.exponent < minIouExponent then .ok ⟨0, iouZeroExponent⟩
  else if maxIouExponent < normalized.exponent then .error .overflow
  else .ok ⟨mantissa, normalized.exponent⟩

inductive AmountError where
  | nativeOutOfRange
  | mptOutOfRange
  | issuedOutOfRange
deriving DecidableEq, Repr

/-- What stops the decoder. -/
inductive AmountFault where
  | negativeZero
  | invalidNativeCurrency
  | invalidNativeAccount
  | invalidCurrencyValue
  | amount (e : AmountError)
deriving DecidableEq, Repr

/-- The `value` is an unsigned 64-bit integer. -/
structure STAmount where
  asset : Asset
  value : ℕ
  offset : ℤ
  isNegative : Bool
deriving DecidableEq

def stAmountIssuedCurrencyFlag : ℕ := 2 ^ 63

def stAmountPositiveFlag : ℕ := 2 ^ 62

def stAmountMpTokenFlag : ℕ := 2 ^ 61

def stAmountMinMantissa : ℕ := 1000000000000000

def stAmountMaxMantissa : ℕ := 9999999999999999

def stAmountMinOffset : ℤ := -96

def stAmountMaxOffset : ℤ := 80

def stAmountMaxNativeNetwork : ℕ := 100000000000000000

def maxMpTokenAmount : ℕ := 9223372036854775807

def issuedHeaderBitsFromWord (word : ℕ) : ℕ := word >>> 54

/-- The word without its ten header bits. -/
def issuedMantissaFromWord (word : ℕ) : ℕ := word &&& (2 ^ 54 - 1)

def issuedHeaderIsNegative (headerBits : ℕ) : Bool := headerBits &&& 256 = 0

def issuedExponentFromNonzeroHeaderBits (headerBits : ℕ) : ℤ := (headerBits &&& 255 : ℕ) - 97

def issuedZeroHeaderBits : ℕ := 512

def issuedZeroHeaderWord : ℕ := stAmountIssuedCurrencyFlag

def nativeWireWord (value : ℕ) (isNegative : Bool) : ℕ :=
  if isNegative then value else value ||| stAmountPositiveFlag

def mptWireHeaderByte (isNegative : Bool) : ℕ :=
  let header := stAmountMpTokenFlag >>> 56
  if isNegative then header else header ||| stAmountPositiveFlag >>> 56

/-- The header of an issued amount that is not zero, in its place. -/
def issuedHeader (offset : ℤ) (isNegative : Bool) : ℕ :=
  ((offset + 512 + if isNegative then 97 else 256 + 97) % 2 ^ 64).toNat <<< 54 % 2 ^ 64

namespace STAmount

/-- `STAmount::default()`: no XRP. -/
def default : STAmount := ⟨.issue xrpIssue, 0, 0, false⟩

variable (a : STAmount)

def native : Bool := a.asset.native

def holdsMptIssue : Bool :=
  match a.asset with
  | .issue _ => false
  | .mptIssue _ => true

/-- `value as i64`, negated for a negative amount; both wrap. -/
def wrapped : ℤ :=
  let w : ℤ := if a.value < 2 ^ 63 then a.value else a.value - 2 ^ 64
  if a.isNegative then (if w = -2 ^ 63 then w else -w) else w

def tryCanonicalize : Except AmountError STAmount :=
  if a.asset.integral then
    if a.value = 0 ∨ a.offset ≤ -20 then .ok { a with value := 0, offset := 0, isNegative := false }
    else if a.native ∧ 17 < a.offset then .error .nativeOutOfRange
    else if a.holdsMptIssue ∧ 18 < a.offset then .error .mptOutOfRange
    else
      let number : NumberParts := ⟨a.isNegative, a.value, a.offset⟩
      let out : AmountError := if a.native then .nativeOutOfRange else .mptOutOfRange
      let bound := if a.native then stAmountMaxNativeNetwork else maxMpTokenAmount
      match tryToI64 mode number with
      | .error _ => .error out
      | .ok drops =>
        if bound < drops.natAbs then .error out
        else .ok { a with value := drops.natAbs, offset := 0, isNegative := drops < 0 }
  else
    match IOUAmount.fromNumber mode ⟨a.wrapped < 0, a.wrapped.natAbs, a.offset⟩ with
    | .error _ => .error .issuedOutOfRange
    | .ok iou =>
      .ok { a with
        value := iou.mantissa.natAbs, offset := iou.exponent, isNegative := iou.mantissa < 0 }

def canonicalize : Except AmountFault STAmount :=
  (a.tryCanonicalize mode).mapError .amount

/-- A word without the issued currency flag: a token or XRP. -/
def fromIntegralWord (word : ℕ) (sit : SerialIter) : Except AmountFault (STAmount × SerialIter) :=
  if word &&& stAmountMpTokenFlag ≠ 0 then
    let low := sit.get8
    let mptId := SerialIter.getBitString 24 low.2
    .ok (⟨.mptIssue ⟨mptId.1⟩, (word <<< 8 % 2 ^ 64) ||| low.1.toNat, 0,
      word &&& stAmountPositiveFlag = 0⟩, mptId.2)
  else
    let value := word &&& ((2 ^ 64 - 1) ^^^ (stAmountPositiveFlag ||| stAmountMpTokenFlag))
    if word &&& stAmountPositiveFlag ≠ 0 then .ok (⟨.issue xrpIssue, value, 0, false⟩, sit)
    else if word = 0 then .error .negativeZero
    else .ok (⟨.issue xrpIssue, value, 0, true⟩, sit)

/-- The value of an issued amount, once its currency and issuer have been read. A word
with a mantissa or an exponent out of range yields the default amount. -/
def fromIssuedWord (word : ℕ) (issue : Issue) : Except AmountFault STAmount :=
  let headerBits := issuedHeaderBitsFromWord word
  let mantissa := issuedMantissaFromWord word
  if mantissa ≠ 0 then
    let offset := issuedExponentFromNonzeroHeaderBits headerBits
    if ¬ (stAmountMinMantissa ≤ mantissa ∧ mantissa ≤ stAmountMaxMantissa) ∨
        ¬ (stAmountMinOffset ≤ offset ∧ offset ≤ stAmountMaxOffset) then .ok default
    else canonicalize mode ⟨.issue issue, mantissa, offset, issuedHeaderIsNegative headerBits⟩
  else if headerBits ≠ issuedZeroHeaderBits then .error .invalidCurrencyValue
  else canonicalize mode ⟨.issue issue, 0, 0, false⟩

def fromSerialIter (sit : SerialIter) : Except AmountFault (STAmount × SerialIter) :=
  let word := sit.get64
  if word.1 &&& stAmountIssuedCurrencyFlag = 0 then fromIntegralWord word.1 word.2
  else
    let currency := SerialIter.getBitString 20 word.2
    if isXrpCurrency currency.1 then .error .invalidNativeCurrency
    else
      let account := SerialIter.getBitString 20 currency.2
      if account.1.isZero then .error .invalidNativeAccount
      else do
        let amount ← fromIssuedWord mode word.1 ⟨currency.1, account.1⟩
        .ok (amount, account.2)

/-- The bytes that `add` appends. -/
def add : Blob :=
  match a.asset with
  | .mptIssue issue =>
    BigEndian.toBytes 1 (mptWireHeaderByte a.isNegative) ++ BigEndian.toBytes 8 a.value ++
      issue.mptId.data
  | .issue issue =>
    if issue.native then BigEndian.toBytes 8 (nativeWireWord a.value a.isNegative)
    else
      let word :=
        if a.value = 0 then issuedZeroHeaderWord
        else a.value ||| issuedHeader a.offset a.isNegative
      BigEndian.toBytes 8 word ++ issue.currency.data ++ issue.account.data

end STAmount

end Quaxar.Protocol
