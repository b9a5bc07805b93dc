import Quaxar.Protocol.STAmount

/-!
# Amounts on the wire

An amount within the legal range comes back from the bytes that it is serialized to. An
issued amount that is read back from a word within the legal range serializes to the same
bytes; a word outside of it is not rejected but read as no XRP at all.
-/

namespace Quaxar.Protocol

open Number

variable {m w : ℕ} {offset : ℤ}

theorem and_two_pow_eq_zero_iff (w k : ℕ) : w &&& 2 ^ k = 0 ↔ w / 2 ^ k % 2 = 0 := by
  rw [Nat.and_two_pow, Nat.testBit_eq_decide_div_mod_eq]
  rcases Nat.mod_two_eq_zero_or_one (w / 2 ^ k) with h | h <;> simp [h]

variable {k : ℕ}

theorem or_shiftLeft (h : Nat) (hm : m < 2 ^ k) : m ||| h <<< k = h * 2 ^ k + m := by
  rw [Nat.lor_comm, ← Nat.shiftLeft_add_eq_or_of_lt hm, Nat.shiftLeft_eq]

theorem or_two_pow (hm : m < 2 ^ k) : m ||| 2 ^ k = 2 ^ k + m := by
  have h := or_shiftLeft 1 hm
  rwa [Nat.shiftLeft_eq, Nat.one_mul] at h

theorem native_value_bits (hw : w < 2 ^ 63) :
    w &&& ((2 ^ 64 - 1) ^^^ (stAmountPositiveFlag ||| stAmountMpTokenFlag)) = w % 2 ^ 61 := by
  have hmask : (2 ^ 64 - 1) ^^^ (stAmountPositiveFlag ||| stAmountMpTokenFlag) =
      2 ^ 63 ||| (2 ^ 61 - 1) := by decide
  have hhigh : w &&& 2 ^ 63 = 0 := by
    rw [and_two_pow_eq_zero_iff]
    omega
  rw [hmask, Nat.and_or_distrib_left, hhigh, Nat.zero_or, Nat.and_two_pow_sub_one_eq_mod]

theorem issuedHeaderBits_eq (w : ℕ) : issuedHeaderBitsFromWord w = w / 2 ^ 54 :=
  Nat.shiftRight_eq_div_pow w 54

theorem issuedMantissa_eq (w : ℕ) : issuedMantissaFromWord w = w % 2 ^ 54 :=
  Nat.and_two_pow_sub_one_eq_mod w 54

theorem issuedExponent_eq (h : ℕ) : issuedExponentFromNonzeroHeaderBits h = (h % 256 : ℕ) - 97 := by
  unfold issuedExponentFromNonzeroHeaderBits
  rw [show (255 : ℕ) = 2 ^ 8 - 1 by decide, Nat.and_two_pow_sub_one_eq_mod]

theorem issuedHeaderIsNegative_iff (h : ℕ) : issuedHeaderIsNegative h = true ↔ h / 256 % 2 = 0 := by
  simp only [issuedHeaderIsNegative, decide_eq_true_eq]
  exact and_two_pow_eq_zero_iff h 8

theorem issuedHeader_eq (hmin : -97 ≤ offset) (hmax : offset ≤ 80) (isNegative : Bool) :
    issuedHeader offset isNegative =
      (offset + 512 + if isNegative then 97 else 256 + 97).toNat <<< 54 := by
  have hsmall : 0 ≤ (offset + 512 + if isNegative then 97 else 256 + 97) ∧
      (offset + 512 + if isNegative then 97 else 256 + 97) < 1024 := by
    cases isNegative <;> simp <;> omega
  unfold issuedHeader
  rw [Int.emod_eq_of_lt hsmall.1 (by omega), Nat.shiftLeft_eq, Nat.mod_eq_of_lt (by omega)]

variable {negative : Bool} (mode : RoundingMode)

theorem roundsUp_empty (negative : Bool) (m : ℕ) :
    (⟨0, false, negative⟩ : ArithmeticGuard).roundsUp mode m = false := by
  cases mode <;> cases negative <;> rfl

variable {e : ℤ}

/-- A mantissa and an exponent in the range of issued amounts are kept. -/
theorem IOUAmount.fromNumber_eq (negative : Bool) (hm : minIouMantissa ≤ m)
    (hm' : m ≤ maxIouMantissa) (he : minIouExponent ≤ e) (he' : e ≤ maxIouExponent) :
    fromNumber mode ⟨negative, m, e⟩ = .ok ⟨if negative then -(m : ℤ) else m, e⟩ := by
  unfold minIouMantissa at hm
  unfold maxIouMantissa at hm'
  unfold minIouExponent at he
  unfold maxIouExponent at he'
  have hup : scaleUp 64 minIouMantissa m e = .ok (m, e) := by
    rw [scaleUp, if_neg]
    unfold minIouMantissa
    omega
  have hdown : scaleDown maxIouMantissa ⟨0, false, negative⟩ m e =
      .ok (⟨0, false, negative⟩, m, e) := by
    rw [scaleDown, if_neg]
    unfold maxIouMantissa
    omega
  have hshort : shortenOnce numberMaxRep ⟨0, false, negative⟩ m e =
      .ok (⟨0, false, negative⟩, m, e) := by
    rw [shortenOnce, if_neg]
    unfold numberMaxRep
    omega
  have hround : iouRoundUp mode minIouMantissa maxIouMantissa ⟨0, false, negative⟩
      ⟨negative, m, e⟩ = .ok ⟨negative, m, e⟩ := by
    have hbring : iouBringIntoRange minIouMantissa ⟨negative, m, e⟩ = ⟨negative, m, e⟩ := by
      have hlong : ¬ m < 1000000000000000 := by omega
      have hexp : ¬ e < -32768 := by omega
      simp [iouBringIntoRange, minIouMantissa, numberMinExponent, hlong, hexp]
    simp only [iouRoundUp, roundsUp_empty, Bool.false_eq_true, if_false, Except.ok_bind, hbring]
    rw [if_neg (by unfold numberMaxExponent; omega)]
  have hnorm : normalizePartsToRange mode minIouMantissa maxIouMantissa ⟨negative, m, e⟩ =
      .ok ⟨negative, m, e⟩ := by
    have hne : m ≠ 0 := by omega
    have hwidth : checkedUInt 64 m = .ok m := by
      rw [checkedUInt, if_pos (by omega)]
    have hrange : ¬ (e < numberMinExponent ∨ m < minIouMantissa) := by
      unfold numberMinExponent minIouMantissa
      omega
    simp only [normalizePartsToRange, hne, if_false, hup, hdown, Except.ok_bind, hrange, hshort,
      hround, hwidth]
    simp [hne]
  have hsigned : signedRuntimeMantissa ⟨negative, m, e⟩ =
      .ok (if negative then -(m : ℤ) else m) := by
    rw [signedRuntimeMantissa, if_pos (by unfold numberMaxRep; simp; omega)]
  have hne : ¬ ((if negative = true then -(m : ℤ) else m) = 0 ∨ e < minIouExponent) := by
    unfold minIouExponent
    cases negative <;> simp <;> omega
  simp only [fromNumber, hnorm, hsigned, Except.ok_bind, hne, if_false]
  rw [if_neg (by unfold maxIouExponent; omega)]

theorem IOUAmount.fromNumber_zero (negative : Bool) (e : ℤ) :
    fromNumber mode ⟨negative, 0, e⟩ = .ok ⟨0, iouZeroExponent⟩ := by
  simp [fromNumber, normalizePartsToRange, signedRuntimeMantissa, NumberParts.zero]

namespace STAmount

variable {issue : Issue}

theorem canonicalize_zero (h : issue.native = false) :
    canonicalize mode ⟨.issue issue, 0, 0, false⟩ =
      .ok ⟨.issue issue, 0, iouZeroExponent, false⟩ := by
  simp [canonicalize, tryCanonicalize, Asset.integral, h, wrapped, IOUAmount.fromNumber_zero,
    Except.mapError]

theorem canonicalize_issued (h : issue.native = false) (hm : stAmountMinMantissa ≤ m)
    (hm' : m ≤ stAmountMaxMantissa) (he : stAmountMinOffset ≤ e) (he' : e ≤ stAmountMaxOffset) :
    canonicalize mode ⟨.issue issue, m, e, negative⟩ = .ok ⟨.issue issue, m, e, negative⟩ := by
  have hlt : m < 2 ^ 63 := by
    unfold stAmountMaxMantissa at hm'
    omega
  have hpos : 0 < m := by
    unfold stAmountMinMantissa at hm
    omega
  have hnumber := IOUAmount.fromNumber_eq mode negative hm hm' he he'
  have hwrapped : wrapped ⟨.issue issue, m, e, negative⟩ = if negative then -(m : ℤ) else m := by
    unfold wrapped
    simp only [hlt, if_true]
    cases negative
    · rfl
    · rw [if_pos rfl, if_neg (by omega), if_pos rfl]
  have hneg : decide ((if negative = true then -(m : ℤ) else m) < 0) = negative := by
    cases negative
    · simp
    · simp
      omega
  have habs : (if negative = true then -(m : ℤ) else m).natAbs = m := by
    cases negative <;> simp
  simp only [canonicalize, tryCanonicalize, Asset.integral, h, hwrapped, hneg, habs, hnumber,
    Except.mapError, Bool.false_eq_true, if_false]

end STAmount

namespace STAmount

/-- A canonical amount within the limits of the network. -/
def Legal (a : STAmount) : Prop :=
  match a.asset with
  | .mptIssue _ =>
    a.value ≤ maxMpTokenAmount ∧ a.offset = 0 ∧ (a.value = 0 → a.isNegative = false)
  | .issue issue =>
    if issue.native then
      a.value ≤ stAmountMaxNativeNetwork ∧ a.offset = 0 ∧ (a.value = 0 → a.isNegative = false)
    else
      a.value = 0 ∧ a.offset = iouZeroExponent ∧ a.isNegative = false ∨
        (stAmountMinMantissa ≤ a.value ∧ a.value ≤ stAmountMaxMantissa) ∧
          stAmountMinOffset ≤ a.offset ∧ a.offset ≤ stAmountMaxOffset

variable {a : STAmount} (rest : Blob) {v : ℕ}

theorem fromSerialIter_mpt {issue : MPTIssue} (hv : v < 2 ^ 63) :
    fromSerialIter mode (add ⟨.mptIssue issue, v, 0, negative⟩ ++ rest) =
      .ok (⟨.mptIssue issue, v, 0, negative⟩, rest) := by
  -- the first eight bytes are the header byte and the upper seven bytes of the value
  have hsplit : add ⟨.mptIssue issue, v, 0, negative⟩ ++ rest =
      (BigEndian.toBytes 1 (mptWireHeaderByte negative) ++ BigEndian.toBytes 7 (v / 256)) ++
        (UInt8.ofNat v :: (issue.mptId.data ++ rest)) := by
    simp [add, BigEndian.toBytes]
  have hheader : mptWireHeaderByte negative = if negative then 32 else 96 := by
    cases negative <;> decide
  have hword : BigEndian.ofBytes (BigEndian.toBytes 1 (mptWireHeaderByte negative) ++
      BigEndian.toBytes 7 (v / 256)) = (if negative then 32 else 96) * 2 ^ 56 + v / 256 := by
    rw [BigEndian.ofBytes_append, BigEndian.length_toBytes, hheader,
      BigEndian.ofBytes_toBytes (by cases negative <;> decide),
      BigEndian.ofBytes_toBytes (by omega)]
    norm_num
  have hlow : (UInt8.ofNat v).toNat = v % 256 := UInt8.toNat_ofNat'
  unfold fromSerialIter
  rw [hsplit, SerialIter.get64, readInteger_append _ (by simp), hword]
  have hissued : ((if negative then 32 else 96) * 2 ^ 56 + v / 256) &&&
      stAmountIssuedCurrencyFlag = 0 := by
    rw [stAmountIssuedCurrencyFlag, and_two_pow_eq_zero_iff]
    cases negative <;> simp <;> omega
  have hmpt : ((if negative then 32 else 96) * 2 ^ 56 + v / 256) &&& stAmountMpTokenFlag ≠ 0 := by
    rw [stAmountMpTokenFlag, Ne, and_two_pow_eq_zero_iff]
    cases negative <;> simp <;> omega
  have hsign : (((if negative then 32 else 96) * 2 ^ 56 + v / 256) &&& stAmountPositiveFlag = 0) ↔
      negative = true := by
    rw [stAmountPositiveFlag, and_two_pow_eq_zero_iff]
    cases negative <;> simp <;> omega
  have hvalue : (((if negative then 32 else 96) * 2 ^ 56 + v / 256) <<< 8 % 2 ^ 64) |||
      (UInt8.ofNat v).toNat = v := by
    have hshift : ((if negative then 32 else 96) * 2 ^ 56 + v / 256) <<< 8 % 2 ^ 64 =
        (v / 256) <<< 8 := by
      cases negative <;> simp <;> omega
    rw [hshift, hlow, Nat.lor_comm, or_shiftLeft _ (by omega)]
    omega
  simp only [hissued, if_true, fromIntegralWord, SerialIter.get8, getBitString_append, hvalue,
    hsign, Bool.decide_eq_true]
  rw [if_pos hmpt]

variable {issue : Issue}

theorem fromSerialIter_native (hnative : issue.native = true) (hv : v < 2 ^ 61)
    (hzero : v = 0 → negative = false) :
    fromSerialIter mode (add ⟨.issue issue, v, 0, negative⟩ ++ rest) =
      .ok (⟨.issue xrpIssue, v, 0, negative⟩, rest) := by
  have hadd : add ⟨.issue issue, v, 0, negative⟩ =
      BigEndian.toBytes 8 (nativeWireWord v negative) := by
    simp [add, hnative]
  have hword : nativeWireWord v negative = (if negative then 0 else 2 ^ 62) + v := by
    cases negative
    · exact or_two_pow (by omega)
    · simp [nativeWireWord]
  have hlt : (if negative then 0 else 2 ^ 62) + v < 2 ^ 63 := by
    cases negative <;> simp <;> omega
  unfold fromSerialIter
  rw [hadd, SerialIter.get64, hword, readInteger_toBytes rest (by omega)]
  have hissued : ((if negative then 0 else 2 ^ 62) + v) &&& stAmountIssuedCurrencyFlag = 0 := by
    rw [stAmountIssuedCurrencyFlag, and_two_pow_eq_zero_iff]
    omega
  have hmpt : ((if negative then 0 else 2 ^ 62) + v) &&& stAmountMpTokenFlag = 0 := by
    rw [stAmountMpTokenFlag, and_two_pow_eq_zero_iff]
    cases negative <;> simp <;> omega
  have hvalue : ((if negative then 0 else 2 ^ 62) + v) % 2 ^ 61 = v := by
    cases negative <;> simp <;> omega
  simp only [hissued, if_true, fromIntegralWord, hmpt, ne_eq, not_true, if_false,
    native_value_bits hlt, hvalue]
  cases negative with
  | false =>
    have hpos : ((if false = true then 0 else 2 ^ 62) + v) &&& stAmountPositiveFlag ≠ 0 := by
      rw [stAmountPositiveFlag, Ne, and_two_pow_eq_zero_iff]
      simp
      omega
    rw [if_pos hpos]
  | true =>
    have hpos : v &&& stAmountPositiveFlag = 0 := by
      rw [stAmountPositiveFlag, and_two_pow_eq_zero_iff]
      omega
    have hne : v ≠ 0 := fun h => Bool.noConfusion (hzero h)
    simp [hpos, hne]

/-- Reading an issued amount whose currency and issuer are legal. -/
theorem fromSerialIter_issued (hw : 2 ^ 63 ≤ w) (hw' : w < 2 ^ 64)
    (hcurrency : isXrpCurrency issue.currency = false) (haccount : issue.account.isZero = false) :
    fromSerialIter mode
        (BigEndian.toBytes 8 w ++ issue.currency.data ++ issue.account.data ++ rest) =
      (do let amount ← fromIssuedWord mode w issue; .ok (amount, rest)) := by
  have hissued : w &&& stAmountIssuedCurrencyFlag ≠ 0 := by
    rw [stAmountIssuedCurrencyFlag, Ne, and_two_pow_eq_zero_iff]
    omega
  unfold fromSerialIter
  rw [List.append_assoc, List.append_assoc, SerialIter.get64, readInteger_toBytes _ (by omega)]
  simp only [hissued, if_false, getBitString_append, hcurrency, haccount, Bool.false_eq_true]

/-- A word whose mantissa is zero, or whose mantissa and exponent are legal. -/
def WordLegal (w : ℕ) : Prop :=
  issuedMantissaFromWord w = 0 ∨
    (stAmountMinMantissa ≤ issuedMantissaFromWord w ∧
      issuedMantissaFromWord w ≤ stAmountMaxMantissa) ∧
    stAmountMinOffset ≤ issuedExponentFromNonzeroHeaderBits (issuedHeaderBitsFromWord w) ∧
      issuedExponentFromNonzeroHeaderBits (issuedHeaderBitsFromWord w) ≤ stAmountMaxOffset

variable {mode}

theorem fromIssuedWord_illegal (h : ¬ WordLegal w) : fromIssuedWord mode w issue = .ok default := by
  obtain ⟨hne, hrange⟩ := not_or.mp h
  simp only [fromIssuedWord, hne, ne_eq, not_false_eq_true, if_true]
  rw [if_pos (not_and_or.mp hrange)]

/-- The header of a word is rebuilt from its sign and exponent. -/
theorem word_eq_or_header (hw : 2 ^ 63 ≤ w) (hw' : w < 2 ^ 64)
    (hmax : issuedExponentFromNonzeroHeaderBits (issuedHeaderBitsFromWord w) ≤ 80) :
    issuedMantissaFromWord w ||| issuedHeader
      (issuedExponentFromNonzeroHeaderBits (issuedHeaderBitsFromWord w))
      (issuedHeaderIsNegative (issuedHeaderBitsFromWord w)) = w := by
  have hneg := issuedHeaderIsNegative_iff (issuedHeaderBitsFromWord w)
  rw [issuedHeader_eq (by rw [issuedExponent_eq]; omega) hmax,
    issuedMantissa_eq, or_shiftLeft _ (Nat.mod_lt _ (by decide)), issuedExponent_eq]
  rw [issuedHeaderBits_eq] at hneg ⊢
  cases hsign : issuedHeaderIsNegative (w / 2 ^ 54) with
  | false =>
    rw [hsign] at hneg
    simp only [Bool.false_eq_true, false_iff, if_false] at hneg ⊢
    omega
  | true =>
    rw [hsign] at hneg
    simp only [true_iff, if_true] at hneg ⊢
    omega

theorem word_of_issued (negative : Bool) (hv : v < 2 ^ 54) (hmin : -96 ≤ offset)
    (hmax : offset ≤ 80) : let w := v ||| issuedHeader offset negative
    2 ^ 63 ≤ w ∧ w < 2 ^ 64 ∧ issuedMantissaFromWord w = v ∧
      issuedExponentFromNonzeroHeaderBits (issuedHeaderBitsFromWord w) = offset ∧
      issuedHeaderIsNegative (issuedHeaderBitsFromWord w) = negative := by
  intro w
  have hw : w = (offset + 512 + if negative then 97 else 256 + 97).toNat * 2 ^ 54 + v := by
    show v ||| issuedHeader offset negative = _
    rw [issuedHeader_eq (by omega) hmax, or_shiftLeft _ hv]
  have hneg := issuedHeaderIsNegative_iff (issuedHeaderBitsFromWord w)
  rw [issuedMantissa_eq, issuedExponent_eq]
  rw [issuedHeaderBits_eq] at hneg ⊢
  cases negative with
  | false =>
    simp only [Bool.false_eq_true, if_false] at hw
    refine ⟨by omega, by omega, by omega, by omega, ?_⟩
    rw [Bool.eq_false_iff, Ne, hneg]
    omega
  | true =>
    simp only [if_true] at hw
    refine ⟨by omega, by omega, by omega, by omega, ?_⟩
    rw [hneg]
    omega

theorem fromIssuedWord_of_legal (mode : RoundingMode) (hnative : issue.native = false)
    (h : v = 0 ∧ offset = iouZeroExponent ∧ negative = false ∨
      (stAmountMinMantissa ≤ v ∧ v ≤ stAmountMaxMantissa) ∧
        stAmountMinOffset ≤ offset ∧ offset ≤ stAmountMaxOffset) :
    let w := if v = 0 then issuedZeroHeaderWord else v ||| issuedHeader offset negative
    2 ^ 63 ≤ w ∧ w < 2 ^ 64 ∧
      fromIssuedWord mode w issue = .ok ⟨.issue issue, v, offset, negative⟩ := by
  rcases h with ⟨rfl, rfl, rfl⟩ | ⟨⟨hm, hm'⟩, he, he'⟩
  · have hmantissa : issuedMantissaFromWord issuedZeroHeaderWord = 0 := by decide
    have hheader : issuedHeaderBitsFromWord issuedZeroHeaderWord = issuedZeroHeaderBits := by decide
    refine ⟨by decide, by decide, ?_⟩
    simp only [if_true, fromIssuedWord, hmantissa, hheader, ne_eq, not_true, if_false,
      canonicalize_zero mode hnative]
  · have hne : v ≠ 0 := by
      unfold stAmountMinMantissa at hm
      omega
    have hlt : v < 2 ^ 54 := by
      unfold stAmountMaxMantissa at hm'
      omega
    obtain ⟨hw, hw', hv, ho, hn⟩ := word_of_issued negative hlt he he'
    have hrange : ¬ (¬ (stAmountMinMantissa ≤ v ∧ v ≤ stAmountMaxMantissa) ∨
        ¬ (stAmountMinOffset ≤ offset ∧ offset ≤ stAmountMaxOffset)) := by
      rw [not_or, not_not, not_not]
      exact ⟨⟨hm, hm'⟩, he, he'⟩
    simp only [hne, if_false]
    refine ⟨hw, hw', ?_⟩
    simp only [fromIssuedWord, hv, ho, hn, hne, ne_eq, not_false_eq_true, if_true, hrange, if_false,
      canonicalize_issued mode hnative hm hm' he he']

/-- A legal word that is accepted is the word that the amount serializes to. -/
theorem add_of_fromIssuedWord (hw : 2 ^ 63 ≤ w) (hw' : w < 2 ^ 64)
    (hnative : issue.native = false) (hlegal : WordLegal w)
    (h : fromIssuedWord mode w issue = .ok a) :
    a.add = BigEndian.toBytes 8 w ++ issue.currency.data ++ issue.account.data := by
  simp only [fromIssuedWord] at h
  split_ifs at h with hne hrange hheader
  · rcases hlegal with hzero | hlegal
    · exact absurd hzero hne
    · rcases hrange with hrange | hrange
      · exact absurd hlegal.1 hrange
      · exact absurd hlegal.2 hrange
  · obtain ⟨⟨hm, hm'⟩, he, he'⟩ := hlegal.resolve_left hne
    rw [canonicalize_issued mode hnative hm hm' he he'] at h
    obtain rfl := Except.ok.inj h
    simp only [add, hnative, Bool.false_eq_true, if_false, hne, word_eq_or_header hw hw' he']
  · rw [canonicalize_zero mode hnative] at h
    obtain rfl := Except.ok.inj h
    have hword : issuedZeroHeaderWord = w := by
      have hm := not_not.mp hne
      have hh := not_not.mp hheader
      rw [issuedMantissa_eq] at hm
      rw [issuedHeaderBits_eq, issuedZeroHeaderBits] at hh
      unfold issuedZeroHeaderWord stAmountIssuedCurrencyFlag
      omega
    simp only [add, hnative, Bool.false_eq_true, if_false, if_true, hword]

/-- An amount in the legal range, whose issuer is not the zero account if it is an issued
amount, is read back from the bytes that it is serialized to, and nothing after them is
consumed. -/
theorem fromSerialIter_add (mode : RoundingMode) {a : STAmount} (h : a.Legal)
    (hissuer : ∀ issue, a.asset = .issue issue → issue.native = false →
      issue.account.isZero = false) (rest : Blob) :
    ∃ b, fromSerialIter mode (a.add ++ rest) = .ok (b, rest) ∧ b.value = a.value ∧
      b.offset = a.offset ∧ b.isNegative = a.isNegative ∧ b.asset.eq a.asset = true := by
  obtain ⟨asset, v, offset, negative⟩ := a
  cases asset with
  | mptIssue issue =>
    simp only [Legal, maxMpTokenAmount] at h
    obtain ⟨hv, rfl, -⟩ := h
    exact ⟨_, fromSerialIter_mpt mode rest (by omega), rfl, rfl, rfl, by simp [Asset.eq]⟩
  | issue issue =>
    cases hnative : issue.native with
    | true =>
      simp only [Legal, hnative, if_true, stAmountMaxNativeNetwork] at h
      obtain ⟨hv, rfl, hzero⟩ := h
      have hcurrency : issue.currency = BaseUInt.zero := by
        simp only [Issue.native, Issue.eq, Bool.and_eq_true, decide_eq_true_eq] at hnative
        exact hnative.1
      exact ⟨_, fromSerialIter_native mode rest hnative (by omega) hzero, rfl, rfl, rfl,
        by simp [Asset.eq, Issue.eq, xrpIssue, hcurrency, isXrpCurrency]⟩
    | false =>
      simp only [Legal, hnative, Bool.false_eq_true, if_false] at h
      have hcurrency : isXrpCurrency issue.currency = false := by
        rw [Bool.eq_false_iff]
        intro hxrp
        have hzero : issue.currency = BaseUInt.zero := BaseUInt.isZero_iff.mp hxrp
        simp [Issue.native, Issue.eq, xrpIssue, hzero, isXrpCurrency,
          BaseUInt.isZero_iff.mpr rfl] at hnative
      have hself : (Asset.issue issue).eq (.issue issue) = true := by simp [Asset.eq, Issue.eq]
      refine ⟨⟨.issue issue, v, offset, negative⟩, ?_, rfl, rfl, rfl, hself⟩
      have hadd : add ⟨.issue issue, v, offset, negative⟩ = BigEndian.toBytes 8
          (if v = 0 then issuedZeroHeaderWord else v ||| issuedHeader offset negative) ++
          issue.currency.data ++ issue.account.data := by
        simp [add, hnative]
      obtain ⟨hw, hw', hread⟩ := fromIssuedWord_of_legal mode hnative h
      rw [hadd, fromSerialIter_issued mode rest hw hw' hcurrency (hissuer issue rfl hnative), hread]
      rfl

/-- An issue with the currency code `USD`. -/
def usdIssue (account : AccountID) : Issue :=
  ⟨⟨List.replicate 12 0 ++ [85, 83, 68] ++ List.replicate 5 0, by decide⟩, account⟩

/-- The account whose last byte is one. -/
def accountOne : AccountID := ⟨List.replicate 19 0 ++ [1], by decide⟩

theorem fromSerialIter_add_usd : ∃ b, fromSerialIter .toNearest
    (add ⟨.issue (usdIssue accountOne), 1000000000000000, -15, true⟩) = .ok (b, []) ∧
      b.value = 1000000000000000 ∧ b.offset = -15 ∧ b.isNegative = true ∧
      b.asset.eq (.issue (usdIssue accountOne)) = true := by
  have hlegal : Legal ⟨.issue (usdIssue accountOne), 1000000000000000, -15, true⟩ :=
    .inr (by decide)
  obtain ⟨b, hread, hb⟩ := fromSerialIter_add .toNearest hlegal (by
    intro issue hissue _
    obtain rfl := Asset.issue.inj hissue
    decide) []
  exact ⟨b, hread, hb⟩

/-- A legal issued amount whose issuer is the zero account cannot be read back. -/
theorem fromSerialIter_add_zero_issuer :
    Legal ⟨.issue (usdIssue BaseUInt.zero), 1000000000000000, -15, true⟩ ∧
    fromSerialIter .toNearest
        (add ⟨.issue (usdIssue BaseUInt.zero), 1000000000000000, -15, true⟩) =
      .error .invalidNativeAccount :=
  ⟨.inr (by decide), by decide⟩

variable {sit : SerialIter}

theorem getBitString_of_nonzero {n : ℕ} {x : BaseUInt n} {after : SerialIter}
    (h : SerialIter.getBitString n sit = (x, after)) (hx : x.isZero = false) :
    sit = x.data ++ after := by
  unfold SerialIter.getBitString at h
  split_ifs at h with hshort
  · obtain ⟨rfl, -⟩ := Prod.mk.inj h
    rw [BaseUInt.isZero_iff.mpr rfl] at hx
    cases hx
  · obtain ⟨rfl, rfl⟩ := Prod.mk.inj h
    exact (List.take_append_drop n sit).symm

theorem get64_of_nonzero (h : sit.get64.1 ≠ 0) :
    sit = BigEndian.toBytes 8 sit.get64.1 ++ sit.get64.2 ∧ sit.get64.1 < 2 ^ 64 := by
  unfold SerialIter.get64 SerialIter.readInteger at h ⊢
  split_ifs at h ⊢ with hshort
  · exact absurd rfl h
  · have hlen : (sit.take 8).length = 8 := by
      rw [List.length_take]
      omega
    have hlt := BigEndian.ofBytes_lt (sit.take 8)
    rw [hlen] at hlt
    rw [BigEndian.toBytes_ofBytes hlen]
    exact ⟨(List.take_append_drop 8 sit).symm, by omega⟩

/-- An accepted issued amount has been read from its word, currency and issuer. -/
theorem exists_issued_of_fromSerialIter {rest : SerialIter}
    (hflag : sit.get64.1 &&& stAmountIssuedCurrencyFlag ≠ 0)
    (h : fromSerialIter mode sit = .ok (a, rest)) :
    ∃ issue : Issue, issue.native = false ∧ fromIssuedWord mode sit.get64.1 issue = .ok a ∧
      sit = BigEndian.toBytes 8 sit.get64.1 ++ issue.currency.data ++ issue.account.data ++
        rest := by
  have hne : sit.get64.1 ≠ 0 := by
    intro hzero
    rw [hzero] at hflag
    exact hflag (Nat.zero_and _)
  obtain ⟨hword, -⟩ := get64_of_nonzero hne
  simp only [fromSerialIter, hflag, if_false] at h
  rcases hcurrency : SerialIter.getBitString 20 sit.get64.2 with ⟨currency, afterCurrency⟩
  rcases haccount : SerialIter.getBitString 20 afterCurrency with ⟨account, afterAccount⟩
  rw [hcurrency] at h
  simp only [haccount] at h
  split_ifs at h with hxrp hzero
  obtain ⟨amount, hamount, hrest⟩ := Except.bind_eq_ok_iff.mp h
  obtain ⟨rfl, rfl⟩ := Prod.mk.inj (Except.ok.inj hrest)
  have hcurrency' : currency.isZero = false := Bool.eq_false_iff.mpr hxrp
  refine ⟨⟨currency, account⟩, ?_, hamount, ?_⟩
  · have hne' : currency ≠ BaseUInt.zero := by
      rw [Ne, ← BaseUInt.isZero_iff, hcurrency']
      simp
    simp [Issue.native, Issue.eq, xrpIssue, hne']
  · have hc := getBitString_of_nonzero hcurrency hcurrency'
    have ha := getBitString_of_nonzero haccount (Bool.eq_false_iff.mpr hzero)
    calc
      sit = BigEndian.toBytes 8 sit.get64.1 ++ sit.get64.2 := hword
      _ = BigEndian.toBytes 8 sit.get64.1 ++ currency.data ++ account.data ++ afterAccount := by
        rw [hc, ha, List.append_assoc, List.append_assoc]

/-- An issued amount that is accepted serializes to the bytes that were consumed if and
only if its word is legal; for any other word the decoder makes up an amount of no XRP. -/
theorem fromSerialIter_reencodes_iff {a : STAmount} {rest : SerialIter}
    (hflag : sit.get64.1 &&& stAmountIssuedCurrencyFlag ≠ 0)
    (h : fromSerialIter mode sit = .ok (a, rest)) :
    ∃ consumed, sit = consumed ++ rest ∧ (a.add = consumed ↔ WordLegal sit.get64.1) ∧
      (¬ WordLegal sit.get64.1 → a = default) := by
  obtain ⟨issue, hnative, hword, hsit⟩ := exists_issued_of_fromSerialIter hflag h
  have hne : sit.get64.1 ≠ 0 := by
    intro hzero
    rw [hzero] at hflag
    exact hflag (Nat.zero_and _)
  obtain ⟨-, hlt⟩ := get64_of_nonzero hne
  have hge : 2 ^ 63 ≤ sit.get64.1 := by
    rw [stAmountIssuedCurrencyFlag, Ne, and_two_pow_eq_zero_iff] at hflag
    omega
  refine ⟨_, hsit, ⟨?_, fun hlegal => add_of_fromIssuedWord hge hlt hnative hlegal hword⟩, ?_⟩
  · intro hadd
    by_contra hlegal
    rw [fromIssuedWord_illegal hlegal] at hword
    obtain rfl := Except.ok.inj hword
    have hlen := congrArg List.length hadd
    simp [add, default, Issue.native, Issue.eq, xrpIssue, isXrpCurrency] at hlen
  · intro hlegal
    rw [fromIssuedWord_illegal hlegal] at hword
    exact (Except.ok.inj hword).symm

/-- The issued currency flag with a mantissa of one, in front of a currency and an
account. -/
def shortMantissaBytes : SerialIter :=
  BigEndian.toBytes 8 (2 ^ 63 + 1) ++ (usdIssue accountOne).currency.data ++ accountOne.data

theorem fromSerialIter_accepts_short_mantissa :
    shortMantissaBytes.get64.1 &&& stAmountIssuedCurrencyFlag ≠ 0 ∧
    fromSerialIter .toNearest shortMantissaBytes = .ok (default, []) ∧
    add default ≠ shortMantissaBytes := by
  decide

theorem fromSerialIter_reencodes_iff_short_mantissa :
    ∃ consumed, shortMantissaBytes = consumed ++ [] ∧
      (add default = consumed ↔ WordLegal shortMantissaBytes.get64.1) := by
  obtain ⟨consumed, hsit, hiff, -⟩ :=
    @fromSerialIter_reencodes_iff .toNearest shortMantissaBytes default [] (by decide) (by decide)
  exact ⟨consumed, hsit, hiff⟩

end STAmount

end Quaxar.Protocol
