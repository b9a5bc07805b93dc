import Quaxar.Nft.RemoveToken

/-!
# Inserting a token

What `nftInsertToken` does to a well-formed page list: the token goes to the page of its
range. A full page is split first, at a place where the low 96 bits of its tokens change.
-/

namespace Quaxar.Nft

open Views
open Protocol (AccountID Ter)
open LinkedOrder (support mem_support exists_of_mem_support setNext_of_ne)
open EStateM (bind_of_ok)
open Function (update_self update_of_ne)

variable {t : NFToken} {index : ℕ}

section Split

variable {tokens : List NFToken} {tokenId : Uint256}

/-- The low part of the `i`-th id. -/
def lowAt (tokens : List NFToken) (i : ℕ) : ℕ := low (tokens.getD i default).nftokenId

variable {i : ℕ}

theorem SortedTokens.low_le (h : SortedTokens tokens) {j : ℕ} (hij : i ≤ j)
    (hj : j < tokens.length) : lowAt tokens i ≤ lowAt tokens j := by
  rcases hij.eq_or_lt with rfl | hlt
  · exact le_rfl
  · rw [lowAt, lowAt, List.getD_eq_getElem _ _ (hlt.trans hj), List.getD_eq_getElem _ _ hj]
    have hlt' := List.pairwise_iff_getElem.mp (sortedTokens_iff.mp h) i j (hlt.trans hj) hj hlt
    rcases tokenKey_lt_iff.mp hlt' with hlow | ⟨hlow, -⟩
    · exact hlow.le
    · exact hlow.le

/-- What a split of the tokens at `index` has to provide for a new id. -/
structure Splits (tokens : List NFToken) (tokenId : Uint256) (index : ℕ) : Prop where
  first_lt : ∀ t ∈ tokens.take index,
    low t.nftokenId < low (splitToken (tokens.take index) (tokens.drop index))
  le_second : ∀ t ∈ tokens.drop index,
    low (splitToken (tokens.take index) (tokens.drop index)) ≤ low t.nftokenId
  first_room : low tokenId < low (splitToken (tokens.take index) (tokens.drop index)) →
    (tokens.take index).length < dirMaxTokensPerPage ∧ tokens.drop index ≠ []
  second_room : low (splitToken (tokens.take index) (tokens.drop index)) ≤ low tokenId →
    (tokens.drop index).length < dirMaxTokensPerPage ∧ tokens.take index ≠ []
  above : ∀ lo, (∀ t ∈ tokens, lo ≤ low t.nftokenId) → lo ≤ low tokenId →
    lo < low (splitToken (tokens.take index) (tokens.drop index))
  below : ∀ hi, (∀ t ∈ tokens, low t.nftokenId < hi) → low tokenId < hi →
    low (splitToken (tokens.take index) (tokens.drop index)) < hi

theorem low_next (key : Uint256) (h : low key + 1 < 256 ^ 12) : low key.next = low key + 1 := by
  have hkey := key.toNat_lt
  unfold low at h ⊢
  rw [BaseUInt.toNat_next (by omega)]
  omega

theorem exists_lowAt_of_mem (h : t ∈ tokens) :
    ∃ i < tokens.length, low t.nftokenId = lowAt tokens i := by
  obtain ⟨i, hi, rfl⟩ := List.mem_iff_getElem.mp h
  exact ⟨i, hi, by rw [lowAt, List.getD_eq_getElem _ _ hi]⟩

theorem getD_mem (h : i < tokens.length) : tokens.getD i default ∈ tokens := by
  rw [List.getD_eq_getElem _ _ h]
  exact List.getElem_mem h

theorem exists_lowAt_of_mem_take (h : t ∈ tokens.take index) :
    ∃ i < index, i < tokens.length ∧ low t.nftokenId = lowAt tokens i := by
  obtain ⟨i, hi, rfl⟩ := List.mem_take_iff_getElem.mp h
  have hlt : i < tokens.length := by omega
  exact ⟨i, by omega, hlt, by rw [lowAt, List.getD_eq_getElem _ _ hlt]⟩

theorem exists_lowAt_of_mem_drop (h : t ∈ tokens.drop index) :
    ∃ i, index ≤ i ∧ i < tokens.length ∧ low t.nftokenId = lowAt tokens i := by
  obtain ⟨i, hi, rfl⟩ := List.mem_drop_iff_getElem.mp h
  have hlt : index + i < tokens.length := by omega
  exact ⟨index + i, by omega, hlt, by rw [lowAt, List.getD_eq_getElem _ _ hlt]⟩

variable (hsort : SortedTokens tokens) (hfull : tokens.length = dirMaxTokensPerPage)
include hsort hfull

theorem splits_of_lt (hpos : 0 < i) (hi : i < tokens.length)
    (hlt : lowAt tokens (i - 1) < lowAt tokens i) : Splits tokens tokenId i := by
  have htake : (tokens.take i).length = i := by rw [List.length_take]; omega
  have hdrop : (tokens.drop i).length = tokens.length - i := List.length_drop
  have htoken : low (splitToken (tokens.take i) (tokens.drop i)) = lowAt tokens i := by
    rw [splitToken, if_neg (by omega), lowAt, List.getD_eq_getElem _ _ (by omega),
      List.getD_eq_getElem _ _ hi, List.getElem_drop]
    rfl
  refine ⟨?_, ?_, fun _ => ⟨by omega, ?_⟩, fun _ => ⟨by omega, ?_⟩, ?_, ?_⟩
  · intro t ht
    obtain ⟨j, hj, hjlen, heq⟩ := exists_lowAt_of_mem_take ht
    have := hsort.low_le (show j ≤ i - 1 by omega) (by omega)
    omega
  · intro t ht
    obtain ⟨j, hj, hjlen, heq⟩ := exists_lowAt_of_mem_drop ht
    have := hsort.low_le hj hjlen
    omega
  · exact List.ne_nil_of_length_pos (by omega)
  · exact List.ne_nil_of_length_pos (by omega)
  · intro lo hlo _
    have : lo ≤ lowAt tokens (i - 1) := hlo _ (getD_mem (show i - 1 < tokens.length by omega))
    omega
  · intro hi' hhi _
    have : lowAt tokens i < hi' := hhi _ (getD_mem hi)
    omega

/-- A split in front of all tokens, for an id below them. -/
theorem splits_zero (hlt : low tokenId < lowAt tokens 0) : Splits tokens tokenId 0 := by
  have hmax : dirMaxTokensPerPage = 32 := rfl
  have htoken : low (splitToken (tokens.take 0) (tokens.drop 0)) = lowAt tokens 0 := by
    rw [List.take_zero, List.drop_zero, splitToken, if_neg (by rw [List.length_nil]; omega)]
    rfl
  refine ⟨by simp, ?_, fun _ => ⟨by rw [List.take_zero, List.length_nil]; omega, ?_⟩,
    fun hle => absurd hlt (not_lt.mpr (htoken ▸ hle)), fun lo _ hlo => htoken ▸ hlo.trans_lt hlt,
      ?_⟩
  · intro t ht
    obtain ⟨j, hj, hjlen, heq⟩ := exists_lowAt_of_mem_drop ht
    have := hsort.low_le hj hjlen
    omega
  · rw [List.drop_zero]
    exact List.ne_nil_of_length_pos (by omega)
  · intro hi hhi _
    have : lowAt tokens 0 < hi := hhi _ (getD_mem (show 0 < tokens.length by omega))
    omega

/-- A split behind all tokens, for an id above them. -/
theorem splits_length (hlt : lowAt tokens (tokens.length - 1) < low tokenId) :
    Splits tokens tokenId tokens.length := by
  have hmax : dirMaxTokensPerPage = 32 := rfl
  have hlow := low_lt tokenId
  have htoken : low (splitToken (tokens.take tokens.length) (tokens.drop tokens.length)) =
      lowAt tokens (tokens.length - 1) + 1 := by
    rw [List.take_length, List.drop_length, splitToken, if_pos hfull, ← hfull]
    refine low_next _ ?_
    change lowAt tokens (tokens.length - 1) + 1 < _
    omega
  have hle : ∀ t ∈ tokens, low t.nftokenId ≤ lowAt tokens (tokens.length - 1) := by
    intro t ht
    obtain ⟨j, hj, heq⟩ := exists_lowAt_of_mem ht
    have := hsort.low_le (show j ≤ tokens.length - 1 by omega) (by omega)
    omega
  refine ⟨?_, ?_, fun hlt' => by omega, fun _ => ⟨?_, ?_⟩, ?_, ?_⟩
  · intro t ht
    rw [List.take_length] at ht
    have := hle t ht
    omega
  · intro t ht
    rw [List.drop_length] at ht
    cases ht
  · rw [List.drop_length, List.length_nil]
    omega
  · rw [List.take_length]
    exact List.ne_nil_of_length_pos (by omega)
  · intro lo hlo _
    have : lo ≤ lowAt tokens (tokens.length - 1) :=
      hlo _ (getD_mem (show tokens.length - 1 < tokens.length by omega))
    omega
  · intro hi _ hhi
    omega

/-- The low parts change at the split point, or are all the same. -/
theorem splitPoint_spec : splitPoint tokens < tokens.length ∧ (0 < splitPoint tokens →
      lowAt tokens (splitPoint tokens - 1) < lowAt tokens (splitPoint tokens)) ∧
    (splitPoint tokens = 0 → ∀ i < tokens.length, lowAt tokens i = lowAt tokens 15) := by
  have hmax : dirMaxTokensPerPage = 32 := rfl
  have hmask : ∀ {t : NFToken}, t.nftokenId.and nftPageMask = splitCmp tokens ↔
      low t.nftokenId = lowAt tokens 15 := and_mask_inj
  have hlow : ∀ i, low (tokens.getD i default).nftokenId = lowAt tokens i := fun _ => rfl
  unfold splitPoint
  simp only [show dirMaxTokensPerPage / 2 = 16 from rfl, ne_eq, hmask, hlow]
  rcases hfind : (List.range' 16 (tokens.length - 16)).find? fun index =>
      decide ¬lowAt tokens index = lowAt tokens 15 with _ | i
  · -- the second half continues the first
    have hupper : ∀ i, 16 ≤ i → i < tokens.length → lowAt tokens i = lowAt tokens 15 := by
      intro i hi hlt
      have hnone := List.find?_eq_none.mp hfind i (by rw [List.mem_range'_1]; omega)
      simpa using hnone
    have hhalf := getD_mem (show 15 < tokens.length by omega)
    have hpoint : tokens.findIdx (fun token => decide (low token.nftokenId = lowAt tokens 15)) <
        tokens.length := List.findIdx_lt_length_of_exists ⟨_, hhalf, decide_eq_true rfl⟩
    have hat : lowAt tokens (tokens.findIdx fun token =>
        decide (low token.nftokenId = lowAt tokens 15)) = lowAt tokens 15 := by
      rw [lowAt, List.getD_eq_getElem _ _ hpoint]
      simpa using (List.findIdx_getElem (w := hpoint))
    rw [Option.getD_none, if_pos rfl]
    refine ⟨hpoint, fun hpos => ?_, fun hzero i hi => ?_⟩
    · generalize hp : tokens.findIdx (fun token =>
        decide (low token.nftokenId = lowAt tokens 15)) = p at hpoint hat hpos
      have hbefore := List.not_of_lt_findIdx (show p - 1 < tokens.findIdx fun token =>
        decide (low token.nftokenId = lowAt tokens 15) by omega)
      have hne : lowAt tokens (p - 1) ≠ lowAt tokens 15 := by
        rw [lowAt, List.getD_eq_getElem _ _ (by omega)]
        simpa using hbefore
      have hle := hsort.low_le (show p - 1 ≤ p by omega) hpoint
      omega
    · rw [hzero] at hat
      have hlow := hsort.low_le (Nat.zero_le i) hi
      by_cases hhigh : 16 ≤ i
      · exact hupper i hhigh hi
      · have := hsort.low_le (show i ≤ 15 by omega) (by omega)
        omega
  · obtain ⟨hdiffer, k, hk, hi, hfirst⟩ := List.find?_eq_some_iff_getElem.mp hfind
    rw [List.length_range'] at hk
    rw [List.getElem_range'] at hi
    have hne : lowAt tokens i ≠ lowAt tokens 15 := by simpa using hdiffer
    have hprev : lowAt tokens (i - 1) = lowAt tokens 15 := by
      rcases Nat.eq_zero_or_pos k with rfl | hpos
      · congr 1
        omega
      · have hsame := hfirst (k - 1) (by omega)
        rw [List.getElem_range', show 16 + 1 * (k - 1) = i - 1 by omega] at hsame
        simpa using hsame
    have hle := hsort.low_le (show i - 1 ≤ i by omega) (by omega)
    rw [Option.getD_some, if_neg (by omega)]
    refine ⟨by omega, fun _ => by omega, fun hzero => by omega⟩

/-- A full page is split unless all its tokens have the low part of the new id. -/
theorem splitIndex_spec (tokenId : Uint256) :
    (∀ index, splitIndex tokens tokenId = some index → Splits tokens tokenId index) ∧
    (splitIndex tokens tokenId = none → ∀ t ∈ tokens, low t.nftokenId = low tokenId) := by
  obtain ⟨hpoint, hchange, hsame⟩ := splitPoint_spec hsort hfull
  rw [splitIndex, if_neg (ne_of_lt hpoint)]
  rcases Nat.eq_zero_or_pos (splitPoint tokens) with hzero | hpos
  · rw [if_pos hzero]
    have hall := hsame hzero
    rcases lt_trichotomy (low tokenId) (lowAt tokens 15) with hlt | heq | hgt
    · have hcompare : compare (tokenId.and nftPageMask) (splitCmp tokens) = .lt :=
        compare_lt_iff_lt.mpr (and_mask_lt.mpr hlt)
      rw [hcompare]
      refine ⟨fun index hindex => ?_, by simp⟩
      cases hindex
      exact splits_zero hsort hfull (by rw [hall 0 (by omega)]; exact hlt)
    · have hcompare : compare (tokenId.and nftPageMask) (splitCmp tokens) = .eq :=
        compare_eq_iff_eq.mpr (and_mask_inj.mpr heq)
      rw [hcompare]
      refine ⟨by simp, fun _ t ht => ?_⟩
      obtain ⟨i, hi, hlow⟩ := exists_lowAt_of_mem ht
      rw [hlow, hall i hi, heq]
    · have hcompare : compare (tokenId.and nftPageMask) (splitCmp tokens) = .gt :=
        compare_gt_iff_gt.mpr (and_mask_lt.mpr hgt)
      rw [hcompare]
      refine ⟨fun index hindex => ?_, by simp⟩
      cases hindex
      exact splits_length hsort hfull (by rw [hall _ (by omega)]; exact hgt)
  · rw [if_neg (by omega)]
    refine ⟨fun index hindex => ?_, by simp⟩
    cases hindex
    exact splits_of_lt hsort hfull hpos hpoint (hchange hpos)

end Split

variable {tokenId n : Uint256} {owner : AccountID} {D : Uint256 → Option Page} {key : Uint256}
  {x : Page}
  {token : NFToken} {value : List NFToken} {next prev : Option Uint256}

theorem fitsPage_insert (hlen : value.length < dirMaxTokensPerPage) (hsort : SortedTokens value)
    (hnew : ∀ t ∈ value, t.nftokenId ≠ token.nftokenId)
    (hbelow : ∀ t ∈ value, low t.nftokenId < low key) (htoken : low token.nftokenId < low key)
    (habove : ∀ t ∈ value, ∀ j, prev = some j → low j ≤ low t.nftokenId)
    (hprev : ∀ j, prev = some j → low j ≤ low token.nftokenId) :
    FitsPage key ⟨sortTokens (value ++ [token]), next, prev⟩ := by
  have hmem : ∀ {t}, t ∈ sortTokens (value ++ [token]) ↔ t ∈ value ∨ t = token := by
    simp
  refine ⟨List.ne_nil_of_mem (hmem.mpr (.inr rfl)), ?_, sortedTokens_sortTokens ?_, ?_, ?_⟩
  · rw [length_sortTokens, List.length_append, List.length_singleton]
    exact hlen
  · rw [List.map_append, List.nodup_append]
    refine ⟨hsort.nodup_ids, by simp, ?_⟩
    intro id hid other hother heq
    obtain ⟨t, ht, rfl⟩ := List.mem_map.mp hid
    obtain rfl : other = token.nftokenId := by simpa using hother
    exact hnew t ht heq
  · intro t ht
    rcases hmem.mp ht with hmem | rfl
    · exact hbelow t hmem
    · exact htoken
  · intro t ht j hj
    rcases hmem.mp ht with hmem | rfl
    · exact habove t hmem j hj
    · exact hprev j hj

/-- The pages with one more token, and the owner count that goes with them. -/
structure Inserted (owner : AccountID) (D : Uint256 → Option Page) (count : ℕ) (token : NFToken)
    (D' : Uint256 → Option Page) (count' : ℕ) : Prop where
  wellFormed : WellFormed owner D'
  tokensOf_eq : tokensOf D' = insert token (tokensOf D)
  count_eq : (count' : ℤ) - count = pageCount D' - pageCount D

variable {count : ℕ}

theorem wellFormed_single (hlow : low token.nftokenId < low (nftOwnerMax owner)) :
    WellFormed owner (Function.update (fun _ => none) (nftOwnerMax owner)
      (some ⟨[token], none, none⟩)) := by
  have honly : ∀ j y, Function.update (fun _ => none) (nftOwnerMax owner)
      (some (⟨[token], none, none⟩ : Page)) j = some y →
      j = nftOwnerMax owner ∧ y = ⟨[token], none, none⟩ := by
    intro j y hy
    by_cases hj : j = nftOwnerMax owner
    · subst hj
      rw [update_self] at hy
      exact ⟨rfl, (Option.some.inj hy).symm⟩
    · rw [update_of_ne hj] at hy
      cases hy
  refine ⟨?_, ?_, LinkedOrder.linked_single _ _, ?_, ?_⟩
  · refine (Set.finite_singleton (nftOwnerMax owner)).subset fun j hj => ?_
    obtain ⟨y, hy⟩ := exists_of_mem_support hj
    exact (honly j y hy).1
  · intro j y hy
    obtain ⟨rfl, -⟩ := honly j y hy
    exact ownerMax_mem owner
  · intro j y hy
    rw [update_self]
    rfl
  · intro j y hy
    obtain ⟨rfl, rfl⟩ := honly j y hy
    refine ⟨by simp, by simp [dirMaxTokensPerPage], List.pairwise_singleton _ _, ?_, ?_⟩
    · intro t ht
      obtain rfl := List.mem_singleton.mp ht
      exact hlow
    · intro t _ j hj
      cases hj

variable {count' : ℕ}

theorem inserted_first (hlow : low token.nftokenId < low (nftOwnerMax owner))
    (hcount : (count' : ℤ) = count + 1) :
    Inserted owner (fun _ => none) count token (Function.update (fun _ => none) (nftOwnerMax owner)
      (some ⟨[token], none, none⟩)) count' := by
  refine ⟨wellFormed_single hlow, ?_, ?_⟩
  · ext t
    rw [mem_tokensOf_update]
    simp [tokensOf]
  · have hnone : support (fun _ => none : Uint256 → Option Page) = ∅ := by
      ext j
      simp [support]
    have hone : support (Function.update (fun _ => none) (nftOwnerMax owner)
        (some (⟨[token], none, none⟩ : Page))) = {nftOwnerMax owner} := by
      ext j
      by_cases hj : j = nftOwnerMax owner <;> simp [support, hj]
    rw [pageCount, hone, pageCount, hnone, Set.ncard_singleton, Set.ncard_empty]
    omega

namespace WellFormed

variable (hwf : WellFormed owner D)

include hwf

theorem inserted (hx : D key = some x) (hlen : x.value.length < dirMaxTokensPerPage)
    (hnew : ∀ t ∈ tokensOf D, t.nftokenId ≠ token.nftokenId) (hlow : low token.nftokenId < low key)
    (hprev : ∀ j, x.prev = some j → low j ≤ low token.nftokenId) :
    Inserted owner D count token
      (Function.update D key (some { x with value := sortTokens (x.value ++ [token]) })) count := by
  have hfits := hwf.fits key x hx
  refine ⟨hwf.update_value hx (fitsPage_insert hlen hfits.sorted
    (fun t ht => hnew t ⟨key, x, hx, ht⟩) hfits.below_key hlow hfits.above_prev hprev), ?_, ?_⟩
  · ext t
    rw [mem_tokensOf_update, Set.mem_insert_iff, mem_sortTokens, List.mem_append,
      List.mem_singleton]
    constructor
    · rintro ((hmem | rfl) | ⟨j, y, -, hy, hmem⟩)
      · exact .inr ⟨key, x, hx, hmem⟩
      · exact .inl rfl
      · exact .inr ⟨j, y, hy, hmem⟩
    · rintro (rfl | ⟨j, y, hy, hmem⟩)
      · exact .inl (.inr rfl)
      · by_cases hj : j = key
        · subst hj
          rw [hx] at hy
          cases hy
          exact .inl (.inl hmem)
        · exact .inr ⟨j, y, hj, hy, hmem⟩
  · rw [pageCount_update hx]
    omega

/-- A token that is below the end belongs to a page, unless there are none. -/
theorem eq_empty_of_isNext_none (hlow : low tokenId < low (nftOwnerMax owner))
    (hnext : OrderedMap.IsNext (support D) (nftPageForToken owner tokenId) none) :
    D = fun _ => none := by
  funext j
  rcases hj : D j with _ | y
  · rfl
  · refine absurd ?_ (hnext (nftOwnerMax owner) (hwf.last j y hj))
    rw [lt_iff_low_lt (nftPageForToken_mem owner tokenId) (ownerMax_mem owner),
      low_nftPageForToken]
    exact hlow

/-- The page that a token belongs to ends above it. -/
theorem low_lt_of_isNext (hx : D key = some x)
    (hnext : OrderedMap.IsNext (support D) (nftPageForToken owner tokenId) (some key)) :
    low tokenId < low key := by
  have hlt : nftPageForToken owner tokenId < key := hnext.1.2
  rwa [lt_iff_low_lt (nftPageForToken_mem owner tokenId) (hwf.owned key x hx),
    low_nftPageForToken] at hlt

theorem low_prev_le_of_isNext (hx : D key = some x)
    (hnext : OrderedMap.IsNext (support D) (nftPageForToken owner tokenId) (some key))
    (j : Uint256) (hj : x.prev = some j) : low j ≤ low tokenId := by
  obtain ⟨y, hy, hlt⟩ := hwf.linked.exists_prev hx hj
  have hle : j ≤ nftPageForToken owner tokenId := by
    by_contra hgt
    exact absurd hlt (not_lt.mpr (hnext.2 ⟨mem_support hy, not_le.mp hgt⟩))
  rwa [le_iff_low_le (hwf.owned j y hy) (nftPageForToken_mem owner tokenId),
    low_nftPageForToken] at hle

/-- The page that a token belongs to is split, and one of the two takes the token. -/
theorem insertedSplit (hx : D key = some x) (hn : n ∈ ownerKeys owner)
    (hnk : n < key) (hprev : ∀ i, x.prev = some i → i < n) {first second : List NFToken}
    (hfirst : FitsPage n ⟨first, some key, x.prev⟩)
    (hsecond : FitsPage key ⟨second, x.next, some n⟩)
    (hmem : ∀ t, t ∈ first ∨ t ∈ second ↔ t ∈ x.value ∨ t = token)
    (hcount : (count' : ℤ) = count + 1) :
    Inserted owner D count token (splitPages D n key x first second) count' := by
  have hnone := hwf.eq_none_of_gap hx hnk hprev
  refine ⟨hwf.split hx hn hnk hprev hfirst hsecond, ?_, ?_⟩
  · ext t
    rw [mem_tokensOf_splitPages hnone (ne_of_lt hnk), ← or_assoc, hmem, Set.mem_insert_iff]
    constructor
    · rintro ((hvalue | rfl) | ⟨j, y, -, hy, hy'⟩)
      · exact .inr ⟨key, x, hx, hvalue⟩
      · exact .inl rfl
      · exact .inr ⟨j, y, hy, hy'⟩
    · rintro (rfl | ⟨j, y, hy, hy'⟩)
      · exact .inl (.inr rfl)
      · by_cases hj : j = key
        · subst hj
          rw [hx] at hy
          cases hy
          exact .inl (.inl hy')
        · exact .inr ⟨j, y, hj, hy, hy'⟩
  · have hnot : n ∉ support D := by
      intro hmem
      obtain ⟨y, hy⟩ := exists_of_mem_support hmem
      rw [hnone] at hy
      cases hy
    rw [pageCount, hwf.support_splitPages hx hnk, Set.ncard_insert_of_notMem hnot hwf.finite,
      pageCount]
    omega

end WellFormed

/-- A full page, the id that belongs to it, and where it is split: at `index`, with a new page
`n` in front. -/
structure SplitSite (owner : AccountID) (D : Uint256 → Option Page) (key : Uint256) (x : Page)
    (tokenId : Uint256) (index : ℕ) (n : Uint256) : Prop where
  wellFormed : WellFormed owner D
  page : D key = some x
  splits : Splits x.value tokenId index
  key_eq : nftPage (nftOwnerMin owner) (splitToken (x.value.take index) (x.value.drop index)) = n
  low_lt : low tokenId < low key
  prev_le : ∀ j, x.prev = some j → low j ≤ low tokenId

namespace SplitSite

section

variable (h : SplitSite owner D key x tokenId index n)

include h

theorem low_eq : low n = low (splitToken (x.value.take index) (x.value.drop index)) := by
  rw [← h.key_eq, low_nftPage]

theorem mem : n ∈ ownerKeys owner := by
  rw [← h.key_eq]
  exact nftPage_mem owner _

theorem lt : n < key := by
  rw [lt_iff_low_lt h.mem (h.wellFormed.owned key x h.page), h.low_eq]
  exact h.splits.below (low key) (h.wellFormed.fits key x h.page).below_key h.low_lt

theorem prev_lt (j : Uint256) (hj : x.prev = some j) : j < n := by
  obtain ⟨y, hy, -⟩ := h.wellFormed.linked.exists_prev h.page hj
  rw [lt_iff_low_lt (h.wellFormed.owned j y hy) h.mem, h.low_eq]
  exact h.splits.above (low j)
    (fun t ht => (h.wellFormed.fits key x h.page).above_prev t ht j hj) (h.prev_le j hj)

theorem nftPageForToken_lt_iff : nftPageForToken owner tokenId < n ↔ low tokenId < low n := by
  rw [lt_iff_low_lt (nftPageForToken_mem owner tokenId) h.mem, low_nftPageForToken]

theorem take_fits : SortedTokens (x.value.take index) ∧
    (∀ t ∈ x.value.take index, low t.nftokenId < low n) ∧
    ∀ t ∈ x.value.take index, ∀ j, x.prev = some j → low j ≤ low t.nftokenId := by
  have hfits := h.wellFormed.fits key x h.page
  refine ⟨hfits.sorted.sublist (List.take_sublist _ _), fun t ht => ?_, fun t ht => ?_⟩
  · rw [h.low_eq]
    exact h.splits.first_lt t ht
  · exact hfits.above_prev t (List.mem_of_mem_take ht)

theorem drop_fits : SortedTokens (x.value.drop index) ∧
    (∀ t ∈ x.value.drop index, low t.nftokenId < low key) ∧
    ∀ t ∈ x.value.drop index, ∀ j, some n = some j → low j ≤ low t.nftokenId := by
  have hfits := h.wellFormed.fits key x h.page
  refine ⟨hfits.sorted.sublist (List.drop_sublist _ _), fun t ht => ?_, ?_⟩
  · exact hfits.below_key t (List.mem_of_mem_drop ht)
  · rintro t ht _ ⟨⟩
    rw [h.low_eq]
    exact h.splits.le_second t ht

end

theorem mem_halves (tokens : List NFToken) (index : ℕ) :
    t ∈ tokens.take index ∨ t ∈ tokens.drop index ↔ t ∈ tokens := by
  rw [← List.mem_append, List.take_append_drop]

/-- The first half takes the token. -/
theorem inserted_first (h : SplitSite owner D key x token.nftokenId index n)
    (hlt : low token.nftokenId < low n) (hnew : ∀ t ∈ x.value, t.nftokenId ≠ token.nftokenId)
    (hcount : (count' : ℤ) = count + 1) :
    Inserted owner D count token (splitPages D n key x
      (sortTokens (x.value.take index ++ [token])) (x.value.drop index)) count' := by
  have hfits := h.wellFormed.fits key x h.page
  obtain ⟨hroom, hne⟩ := h.splits.first_room (h.low_eq ▸ hlt)
  obtain ⟨hsort, hbelow, habove⟩ := h.take_fits
  obtain ⟨hsort', hbelow', habove'⟩ := h.drop_fits
  refine h.wellFormed.insertedSplit h.page h.mem h.lt h.prev_lt
    (fitsPage_insert hroom hsort (fun t ht => hnew t (List.mem_of_mem_take ht)) hbelow hlt habove
      h.prev_le)
    ⟨hne, (List.drop_sublist _ _).length_le.trans hfits.length_le, hsort', hbelow', habove'⟩ ?_
      hcount
  intro t
  rw [mem_sortTokens, List.mem_append, List.mem_singleton, or_right_comm, mem_halves]

theorem inserted_second (h : SplitSite owner D key x token.nftokenId index n)
    (hge : low n ≤ low token.nftokenId) (hnew : ∀ t ∈ x.value, t.nftokenId ≠ token.nftokenId)
    (hcount : (count' : ℤ) = count + 1) :
    Inserted owner D count token (splitPages D n key x (x.value.take index)
      (sortTokens (x.value.drop index ++ [token]))) count' := by
  have hfits := h.wellFormed.fits key x h.page
  obtain ⟨hroom, hne⟩ := h.splits.second_room (h.low_eq ▸ hge)
  obtain ⟨hsort, hbelow, habove⟩ := h.take_fits
  obtain ⟨hsort', hbelow', habove'⟩ := h.drop_fits
  refine h.wellFormed.insertedSplit h.page h.mem h.lt h.prev_lt
    ⟨hne, (List.take_sublist _ _).length_le.trans hfits.length_le, hsort, hbelow, habove⟩
    (fitsPage_insert hroom hsort' (fun t ht => hnew t (List.mem_of_mem_drop ht)) hbelow' h.low_lt
      habove' ?_) ?_ hcount
  · rintro _ ⟨⟩
    exact hge
  · intro t
    rw [mem_sortTokens, List.mem_append, List.mem_singleton, ← or_assoc, mem_halves]

end SplitSite

variable {V : Type} [ApplyView V] [ApplyModel V] [LawfulApplyView V] {ctx : Context}
  {owner : AccountID} {base : LedgerState} {v : V}
  {D : Uint256 → Option Page} {count : ℕ} {out : Set Uint256} {key : Uint256} {x : Page}
  {page : STLedgerEntry} {token : NFToken}

namespace Stores

theorem chargeOwner (h : Stores ctx owner base v D count out) (hs : Setting ctx owner) :
    ∃ v', chargeOwner ctx owner v = .ok () v' ∧
      Stores ctx owner base v' D (confineOwnerCount count 1) out := by
  obtain ⟨sle, v₁, hpeek, hsle, h₁⟩ := h.peekAccount
  obtain ⟨v₂, hadjust, h₂⟩ := h₁.adjustOwnerCount hs (Set.mem_insert _ _) hsle 1
  refine ⟨v₂, ?_, h₂.weaken (Set.subset_insert _ _)⟩
  rw [Nft.chargeOwner, bind_of_ok hpeek]
  exact hadjust

theorem addToken (h : Stores ctx owner base v D count out) (hs : Setting ctx owner)
    (hx : D key = some x) (hpage : IsPage ctx owner page key x) (hout : key ∈ out)
    (token : NFToken) :
    ∃ v', addToken ctx page token v = .ok .tesSuccess v' ∧
      Stores ctx owner base v'
        (Function.update D key (some { x with value := sortTokens (x.value ++ [token]) })) count
        (Insert.insert key out) := by
  have hobj : PageObject page.object x := hpage.object
  obtain ⟨v', hupdate, h'⟩ := h.updateObject hs (by rw [hx]; rfl) hout
    (hobj.setTokens (sortTokens (x.value ++ [token])))
  refine ⟨v', ?_, h'⟩
  rw [Nft.addToken, hobj.getFieldArray, hpage.key_eq,
    bind_of_ok (attempt_of_ok hupdate)]
  rfl

section

variable (h : Stores ctx owner base v (fun _ => none) count out) (hs : Setting ctx owner)

include h hs

theorem createPage :
    ∃ sle v' out', createPage ctx owner v = .ok (some sle) v' ∧
      IsPage ctx owner sle (nftOwnerMax owner) ⟨[], none, none⟩ ∧ nftOwnerMax owner ∈ out' ∧
      Stores ctx owner base v' (Function.update (fun _ => none) (nftOwnerMax owner)
        (some ⟨[], none, none⟩)) (confineOwnerCount count 1) out' := by
  obtain ⟨sle, hnew, hkey, htype, hobj⟩ := new_eq hs.formats (nftOwnerMax owner) []
  have hpage : IsPage ctx owner
      { sle with object := sle.object.setStbase sfNFTokens (.nftokens []) }
      (nftOwnerMax owner) ⟨[], none, none⟩ := ⟨hkey, htype, hobj⟩
  obtain ⟨v₁, hinsert, h₁⟩ := h.insert hs (ownerMax_mem owner) rfl hpage
  obtain ⟨v₂, hcharge, h₂⟩ := h₁.chargeOwner hs
  refine ⟨_, v₂, _, ?_, hpage, Set.mem_insert _ _, h₂⟩
  rw [Nft.createPage, hnew]
  change (ApplyView.insert _ >>= _) v = _
  rw [bind_of_ok hinsert, bind_of_ok hcharge]
  rfl

theorem nftLocatePage_none (tokenId : Uint256) :
    ∃ v' out', nftLocatePage owner tokenId v = .ok none v' ∧
      Stores ctx owner base v' (fun _ => none) count out' := by
  obtain ⟨r, hsucc, hr⟩ := h.viewSucc hs (nftPageForToken_mem owner tokenId)
  have hnone : r = none := by
    cases r with
    | none => rfl
    | some n =>
      obtain ⟨y, hy⟩ := exists_of_mem_support hr.1.1
      cases hy
  obtain ⟨v', hpeek, h'⟩ := h.peekPage_none hs (ownerMax_mem owner) rfl
  refine ⟨v', _, ?_, h'⟩
  rw [nftLocatePage, bind_of_ok hsucc, hnone]
  exact hpeek

theorem nftInsertToken_first (token : NFToken) :
    ∃ v' out', nftInsertToken ctx owner token v = .ok .tesSuccess v' ∧
      Stores ctx owner base v' (Function.update (fun _ => none) (nftOwnerMax owner)
        (some ⟨[token], none, none⟩)) (confineOwnerCount count 1) out' := by
  obtain ⟨v₁, out₁, hlocate, h₁⟩ := h.nftLocatePage_none hs token.nftokenId
  obtain ⟨page, v₂, out₂, hcreate, hpage, hout, h₂⟩ := h₁.createPage hs
  obtain ⟨v₃, hadd, h₃⟩ := h₂.addToken hs (update_self ..) hpage hout token
  rw [Function.update_idem] at h₃
  refine ⟨v₃, _, ?_, h₃⟩
  have hget : nftGetPageForToken ctx owner token.nftokenId v = .ok (some page) v₂ := by
    rw [nftGetPageForToken, bind_of_ok hlocate]
    exact hcreate
  rw [nftInsertToken, bind_of_ok (attempt_of_ok hget)]
  exact hadd

end

theorem splitPage (hsite : SplitSite owner D key x tokenId index n)
    (h : Stores ctx owner base v D count out) (hs : Setting ctx owner)
    (hpage : IsPage ctx owner page key x) (hout : key ∈ out) :
    ∃ sle v' out', splitPage ctx owner page tokenId index v = .ok (some sle) v' ∧
      Stores ctx owner base v'
        (splitPages D n key x (x.value.take index) (x.value.drop index))
        (confineOwnerCount count 1) out' ∧
      (nftPageForToken owner tokenId < n →
        IsPage ctx owner sle n ⟨x.value.take index, some key, x.prev⟩ ∧ n ∈ out') ∧
      (¬ nftPageForToken owner tokenId < n →
        IsPage ctx owner sle key ⟨x.value.drop index, x.next, some n⟩ ∧ key ∈ out') := by
  have hobj : PageObject page.object x := hpage.object
  have hx := hsite.page
  have hnk := hsite.lt
  have hlinked := hsite.wellFormed.linked
  have hnone := hsite.wellFormed.eq_none_of_gap hx hnk hsite.prev_lt
  obtain ⟨newPage, hnew, hnewKey, hnewType, hnewObject⟩ := new_eq hs.formats n (x.value.take index)
  obtain ⟨object, v₁, out₁, hrelink, hsub₁, hobject₁, h₁⟩ := h.relinkPrevious hs hpage
    (s := ⟨x.value.take index, some key, none⟩) (hnewObject.linkNext key) n
    "NFToken page split encountered a broken previous link" fun j hj => by
      obtain ⟨y, hy, -⟩ := hlinked.exists_prev hx hj
      exact ⟨y, hy⟩
  have hentry : IsPage ctx owner { newPage with object } n
      ⟨x.value.take index, some key, x.prev⟩ := ⟨hnewKey, hnewType, hobject₁⟩
  have hn₁ : LinkedOrder.setNext D x.prev n n = none := by
    rw [setNext_of_ne fun hj => lt_irrefl n (hsite.prev_lt n hj), hnone]
  have hk₁ : LinkedOrder.setNext D x.prev n key = some x := by
    rw [setNext_of_ne fun hj => lt_asymm hnk (hsite.prev_lt key hj), hx]
  obtain ⟨v₂, hinsert, h₂⟩ := h₁.insert hs hsite.mem hn₁ hentry
  obtain ⟨v₃, hupdate, h₃⟩ := h₂.updateObject hs
    (by rw [update_of_ne (ne_of_gt hnk), hk₁]; rfl)
    (Set.mem_insert_of_mem _ (hsub₁ hout))
    ((hobj.setTokens (x.value.drop index)).linkPrev n)
  rw [hlinked.linkBefore_eq_writes hx] at h₃
  obtain ⟨v₄, hcharge, h₄⟩ := h₃.chargeOwner hs
  have hstart : ∀ (r : Option STLedgerEntry) (v₅ : V),
      peekPage (if nftPageForToken owner tokenId < n then n else key) v₄ = .ok r v₅ →
      Nft.splitPage ctx owner page tokenId index v = .ok r v₅ := by
    intro r v₅ hpeek
    rw [Nft.splitPage, hobj.getFieldArray]
    simp only [hpage.key_eq, hsite.key_eq]
    rw [hnew]
    change (Nft.relinkPrevious ctx page _ n _ >>= _) v = _
    rw [bind_of_ok hrelink, bind_of_ok hinsert, bind_of_ok hupdate,
      bind_of_ok hcharge]
    exact hpeek
  have hpages : splitPages D n key x (x.value.take index) (x.value.drop index) n =
      some ⟨x.value.take index, some key, x.prev⟩ := splitPages_new (ne_of_lt hnk) _ _
  have hpages' : splitPages D n key x (x.value.take index) (x.value.drop index) key =
      some ⟨x.value.drop index, x.next, some n⟩ := update_self ..
  by_cases hlt : nftPageForToken owner tokenId < n
  · obtain ⟨sle, v₅, hpeek, hsle, h₅⟩ := h₄.peekPage_some hs hpages
    exact ⟨sle, v₅, _, hstart _ _ (by rw [if_pos hlt]; exact hpeek), h₅,
      fun _ => ⟨hsle, Set.mem_insert _ _⟩, fun hge => absurd hlt hge⟩
  · obtain ⟨sle, v₅, hpeek, hsle, h₅⟩ := h₄.peekPage_some hs hpages'
    exact ⟨sle, v₅, _, hstart _ _ (by rw [if_neg hlt]; exact hpeek), h₅,
      fun hlt' => absurd hlt' hlt, fun _ => ⟨hsle, Set.mem_insert _ _⟩⟩

/-- One of the two halves of a split page takes the token. -/
theorem addToken_split {count₀ : ℕ} (hsite : SplitSite owner D key x token.nftokenId index n)
    (hs : Setting ctx owner)
    (h : Stores ctx owner base v (splitPages D n key x (x.value.take index) (x.value.drop index))
      count out) (hfirst : nftPageForToken owner token.nftokenId < n →
      IsPage ctx owner page n ⟨x.value.take index, some key, x.prev⟩ ∧ n ∈ out)
    (hsecond : ¬ nftPageForToken owner token.nftokenId < n →
      IsPage ctx owner page key ⟨x.value.drop index, x.next, some n⟩ ∧ key ∈ out)
    (hnew : ∀ t ∈ tokensOf D, t.nftokenId ≠ token.nftokenId) (hcount : (count : ℤ) = count₀ + 1) :
    ∃ v' D' out', Nft.addToken ctx page token v = .ok .tesSuccess v' ∧
      Stores ctx owner base v' D' count out' ∧ Inserted owner D count₀ token D' count := by
  have hnew' : ∀ t ∈ x.value, t.nftokenId ≠ token.nftokenId :=
    fun t ht => hnew t ⟨key, x, hsite.page, ht⟩
  have hne := ne_of_lt hsite.lt
  by_cases hlt : low token.nftokenId < low n
  · obtain ⟨hpage, hout⟩ := hfirst (hsite.nftPageForToken_lt_iff.mpr hlt)
    obtain ⟨v', hadd, h'⟩ := h.addToken hs (splitPages_new hne _ _) hpage hout token
    rw [update_splitPages_new hne] at h'
    exact ⟨v', _, _, hadd, h', hsite.inserted_first hlt hnew' hcount⟩
  · obtain ⟨hpage, hout⟩ := hsecond (mt hsite.nftPageForToken_lt_iff.mp hlt)
    obtain ⟨v', hadd, h'⟩ := h.addToken hs (update_self ..) hpage hout token
    rw [splitPages, Function.update_idem] at h'
    exact ⟨v', _, _, hadd, h', hsite.inserted_second (not_lt.mp hlt) hnew' hcount⟩

/-- The page of a token's range takes it, is split for it, or is full of its low part. -/
theorem nftInsertToken_page (h : Stores ctx owner base v D count out) (hs : Setting ctx owner)
    (hwf : WellFormed owner D) (hlt : count + 1 < 2 ^ 32) (hx : D key = some x)
    (hnext : OrderedMap.IsNext (support D) (nftPageForToken owner token.nftokenId) (some key))
    (hnew : ∀ t ∈ tokensOf D, t.nftokenId ≠ token.nftokenId) :
    (∃ v', nftInsertToken ctx owner token v = .ok .tecNoSuitableNftokenPage v' ∧
      x.value.length = dirMaxTokensPerPage ∧
      ∀ t ∈ x.value, low t.nftokenId = low token.nftokenId) ∨
    ∃ v' D' count' out', nftInsertToken ctx owner token v = .ok .tesSuccess v' ∧
      Stores ctx owner base v' D' count' out' ∧ Inserted owner D count token D' count' := by
  obtain ⟨page, v₁, hlocate, hpage, h₁⟩ := h.nftLocatePage_some hs hnext hx
  have hobj : PageObject page.object x := hpage.object
  have hlow := hwf.low_lt_of_isNext hx hnext
  have hprev := hwf.low_prev_le_of_isNext hx hnext
  by_cases hfull : x.value.length = dirMaxTokensPerPage
  · obtain ⟨hsplit, hsame⟩ :=
      splitIndex_spec (hwf.fits key x hx).sorted hfull token.nftokenId
    rcases hindex : splitIndex x.value token.nftokenId with _ | index
    · have hget : nftGetPageForToken ctx owner token.nftokenId v = .ok none v₁ := by
        rw [nftGetPageForToken, bind_of_ok hlocate]
        simp only [hobj.getFieldArray, if_neg (not_not.mpr hfull), hindex]
        rfl
      refine .inl ⟨v₁, ?_, hfull, hsame hindex⟩
      rw [nftInsertToken, bind_of_ok (attempt_of_ok hget)]
      rfl
    · have hsite : SplitSite owner D key x token.nftokenId index _ :=
        ⟨hwf, hx, hsplit index hindex, rfl, hlow, hprev⟩
      obtain ⟨half, v₂, out₂, hhalf, h₂, hfirst, hsecond⟩ :=
        splitPage hsite h₁ hs hpage (Set.mem_insert _ _)
      have hget : nftGetPageForToken ctx owner token.nftokenId v = .ok (some half) v₂ := by
        rw [nftGetPageForToken, bind_of_ok hlocate]
        simp only [hobj.getFieldArray, if_neg (not_not.mpr hfull), hindex]
        exact hhalf
      have hcount : (confineOwnerCount count 1 : ℤ) = count + 1 :=
        confineOwnerCount_eq (by omega) (by omega)
      obtain ⟨v₃, D', out₃, hadd, h₃, hinserted⟩ :=
        addToken_split hsite hs h₂ hfirst hsecond hnew hcount
      refine .inr ⟨v₃, D', _, out₃, ?_, h₃, hinserted⟩
      rw [nftInsertToken, bind_of_ok (attempt_of_ok hget)]
      exact hadd
  · have hget : nftGetPageForToken ctx owner token.nftokenId v = .ok (some page) v₁ := by
      rw [nftGetPageForToken, bind_of_ok hlocate]
      simp only [hobj.getFieldArray, if_pos hfull]
      rfl
    have hlen : x.value.length < dirMaxTokensPerPage :=
      lt_of_le_of_ne (hwf.fits key x hx).length_le hfull
    obtain ⟨v₂, hadd, h₂⟩ := h₁.addToken hs hx hpage (Set.mem_insert _ _) token
    refine .inr ⟨v₂, _, _, _, ?_, h₂, hwf.inserted hx hlen hnew hlow hprev⟩
    rw [nftInsertToken, bind_of_ok (attempt_of_ok hget)]
    exact hadd

end Stores

/-- Inserting a token keeps the pages exact, for a token below the end of the last page. -/
theorem nftInsertToken_exact (hs : Setting ctx owner) (h : Stores ctx owner base v D count out)
    (hwf : WellFormed owner D) (hlt : count + 1 < 2 ^ 32)
    (hnew : ∀ t ∈ tokensOf D, t.nftokenId ≠ token.nftokenId)
    (hlow : low token.nftokenId < low (nftOwnerMax owner)) :
    (∃ v' sle v₁, nftInsertToken ctx owner token v = .ok .tecNoSuitableNftokenPage v' ∧
      nftLocatePage owner token.nftokenId v = .ok (some sle) v₁ ∧
      (sle.object.getFieldArray sfNFTokens).length = dirMaxTokensPerPage ∧
      ∀ t ∈ sle.object.getFieldArray sfNFTokens, low t.nftokenId = low token.nftokenId) ∨
    ∃ v' D' count' out', nftInsertToken ctx owner token v = .ok .tesSuccess v' ∧
      Stores ctx owner base v' D' count' out' ∧ Inserted owner D count token D' count' ∧
      ∀ t ∈ tokensOf D', ∃ sle v'',
        nftFindTokenAndPage owner t.nftokenId v' = .ok (some (t, sle)) v'' := by
  -- every token of the result is found on its page
  have hfind : ∀ {v' : V} {D' count' out'}, Stores ctx owner base v' D' count' out' →
      Inserted owner D count token D' count' → ∀ t ∈ tokensOf D', ∃ sle v'',
        nftFindTokenAndPage owner t.nftokenId v' = .ok (some (t, sle)) v'' := by
    rintro v' D' count' out' h' hinserted t ⟨j, y, hy, ht⟩
    obtain ⟨sle, v'', hfound, -, -⟩ :=
      h'.nftFindTokenAndPage hs hinserted.wellFormed hy ht
    exact ⟨sle, v'', hfound⟩
  obtain ⟨r, -, hnext⟩ := h.viewSucc hs (nftPageForToken_mem owner token.nftokenId)
  cases r with
  | none =>
    obtain rfl := hwf.eq_empty_of_isNext_none hlow hnext
    obtain ⟨v', out', hinsert, h'⟩ := h.nftInsertToken_first hs token
    have hcount : (confineOwnerCount count 1 : ℤ) = count + 1 :=
      confineOwnerCount_eq (by omega) (by omega)
    have hinserted := inserted_first hlow hcount
    exact .inr ⟨v', _, _, out', hinsert, h', hinserted, hfind h' hinserted⟩
  | some key =>
    obtain ⟨x, hx⟩ := exists_of_mem_support hnext.1.1
    rcases h.nftInsertToken_page hs hwf hlt hx hnext hnew with
      ⟨v', hinsert, hfull, hsame⟩ | ⟨v', D', count', out', hinsert, h', hinserted⟩
    · obtain ⟨sle, v₁, hlocate, hsle, -⟩ := h.nftLocatePage_some hs hnext hx
      have hobj : PageObject sle.object x := hsle.object
      refine .inl ⟨v', sle, v₁, hinsert, hlocate, ?_⟩
      rw [hobj.getFieldArray]
      exact ⟨hfull, hsame⟩
    · exact .inr ⟨v', D', count', out', hinsert, h', hinserted, hfind h' hinserted⟩

/-- A full page with 32 tokens, and the last page with one. -/
def sampleFull : List (Uint256 × Page) :=
  [(BaseUInt.ofNat 80, ⟨(List.range 32).map fun i => sampleToken (2 * i + 2),
      some (nftOwnerMax sampleOwner), none⟩),
    (nftOwnerMax sampleOwner, ⟨[sampleToken 90], none, some (BaseUInt.ofNat 80)⟩)]

/-- The full page is split for a token in its middle. -/
theorem nftInsertToken_exact_full :
    ∃ (v' : Sandbox BaseView) (D' : Uint256 → Option Page) (count' : ℕ) (out' : Set Uint256),
      nftInsertToken sampleContext sampleOwner (sampleToken 33)
        (Sandbox.new (BaseView.ledger (sampleLedger 2 sampleFull)) false) = .ok .tesSuccess v' ∧
      Stores sampleContext sampleOwner (sampleLedger 2 sampleFull) v' D' count' out' ∧
      WellFormed sampleOwner D' ∧
      tokensOf D' = insert (sampleToken 33) (tokensOf (samplePages sampleFull)) := by
  have hmem : ∀ key page, samplePages sampleFull key = some page → (key, page) ∈ sampleFull :=
    fun key page => (samplePages_eq_some (by decide) key page).mp
  have hlow : low (sampleToken 33).nftokenId < low (nftOwnerMax sampleOwner) := by decide
  have hwf : WellFormed sampleOwner (samplePages sampleFull) :=
    sample_wellFormed ⟨⟨_, rfl, rfl, rfl⟩, ⟨_, rfl, rfl, rfl⟩, trivial⟩ (by decide) rfl
      (by decide +kernel)
  have hst := sample_stores 2 sampleFull (by
    change ∀ item ∈ sampleFull, item.1.toNat / 256 ^ 12 = sampleOwner.toNat
    decide)
  have hnew : ∀ t ∈ tokensOf (samplePages sampleFull),
      t.nftokenId ≠ (sampleToken 33).nftokenId := by
    have hall : ∀ item ∈ sampleFull, ∀ t ∈ item.2.value,
        t.nftokenId ≠ (sampleToken 33).nftokenId := by decide +kernel
    rintro t ⟨key, page, hpage, ht⟩
    exact hall _ (hmem key page hpage) t ht
  rcases nftInsertToken_exact sample_setting hst hwf (by decide) hnew hlow with
    ⟨v', sle, v₁, -, hlocate, -, hsame⟩ | ⟨v', D', count', out', hinsert, h', hinserted, -⟩
  · obtain ⟨r, -, hnext⟩ := hst.viewSucc sample_setting
      (nftPageForToken_mem sampleOwner (sampleToken 33).nftokenId)
    cases r with
    | none => cases congrFun (hwf.eq_empty_of_isNext_none hlow hnext) (nftOwnerMax sampleOwner)
    | some key =>
      -- either page has a token with another low part
      obtain ⟨x, hx⟩ := exists_of_mem_support hnext.1.1
      obtain ⟨sle', v₂, hlocate', hsle, -⟩ := hst.nftLocatePage_some sample_setting hnext hx
      rw [hlocate] at hlocate'
      cases hlocate'
      rw [hsle.object.getFieldArray] at hsame
      have hother : ∀ item ∈ sampleFull, ¬∀ t ∈ item.2.value,
          low t.nftokenId = low (sampleToken 33).nftokenId := by decide +kernel
      exact absurd hsame (hother _ (hmem key x hx))
  · exact ⟨v', D', count', out', hinsert, h', hinserted.wellFormed, hinserted.tokensOf_eq⟩

/-- A token with the largest low part is not below the end of the last page. -/
theorem nftInsertToken_largest :
    WellFormed sampleOwner (samplePages []) ∧
    Stores sampleContext sampleOwner (sampleLedger 0 [])
      (Sandbox.new (BaseView.ledger (sampleLedger 0 [])) false) (samplePages []) 0 ∅ ∧
    ∃ v' : Sandbox BaseView,
      nftInsertToken sampleContext sampleOwner (sampleToken (256 ^ 12 - 1))
        (Sandbox.new (BaseView.ledger (sampleLedger 0 [])) false) = .ok .tesSuccess v' ∧
      ∀ D' count' out', Stores sampleContext sampleOwner (sampleLedger 0 []) v' D' count' out' →
        ¬ WellFormed sampleOwner D' := by
  have hst := sample_stores 0 [] (by simp)
  refine ⟨wellFormed_empty sampleOwner, hst, ?_⟩
  obtain ⟨v', out', hinsert, h'⟩ :=
    Stores.nftInsertToken_first hst sample_setting (sampleToken (256 ^ 12 - 1))
  refine ⟨v', hinsert, fun D' count' out'' h'' hwf => ?_⟩
  obtain rfl := h''.pages_unique sample_setting h'
  have hbelow := (hwf.fits (nftOwnerMax sampleOwner) _ (update_self ..)).below_key
    (sampleToken (256 ^ 12 - 1)) (List.mem_singleton.mpr rfl)
  exact absurd hbelow (by decide)

end Quaxar.Nft
