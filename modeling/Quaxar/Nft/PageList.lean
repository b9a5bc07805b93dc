import Quaxar.Lib.LinkedOrder
import Quaxar.Nft.TokenPages

/-!
# Well-formed page lists

What the pages of an owner are for: they divide the tokens by the low 96 bits of their ids,
in key order. `WellFormed` says so of the pages alone, apart from the ledger entries that
hold them, and each edit of the list that the code makes keeps it.
-/

namespace Quaxar.Nft

open Views
open Protocol (AccountID)
open LinkedOrder (Linked support unlink linkBefore mem_support exists_of_mem_support unlink_eq_some
  unlink_of_ne support_unlink linkBefore_of_ne linkBefore_eq_some)
open Function (update update_of_ne update_self)

variable {x y : Uint256}

/-- The low 96 bits. -/
def low (key : Uint256) : ℕ := key.toNat % 256 ^ 12

theorem low_lt (key : Uint256) : low key < 256 ^ 12 := Nat.mod_lt _ (by positivity)

theorem toNat_and_mask (key : Uint256) : (key.and nftPageMask).toNat = low key :=
  BaseUInt.toNat_and_trailing key rfl

theorem and_mask_lt : x.and nftPageMask < y.and nftPageMask ↔ low x < low y := by
  rw [BaseUInt.lt_iff_toNat_lt, toNat_and_mask, toNat_and_mask]

theorem and_mask_inj : x.and nftPageMask = y.and nftPageMask ↔ low x = low y := by
  rw [← BaseUInt.toNat_inj, toNat_and_mask, toNat_and_mask]

variable (owner : AccountID)

theorem owner_toNat_lt : owner.toNat < 256 ^ 20 := owner.toNat_lt

theorem toNat_ownerMin : (nftOwnerMin owner).toNat = owner.toNat * 256 ^ 12 := by
  change BigEndian.ofBytes (owner.data ++ List.replicate 12 0) = _
  rw [BigEndian.ofBytes_append, List.length_replicate, BigEndian.ofBytes_replicate_zero, add_zero]
  rfl

theorem toNat_ownerMax :
    (nftOwnerMax owner).toNat = owner.toNat * 256 ^ 12 + (256 ^ 12 - 1) := by
  change BigEndian.ofBytes (owner.data ++ List.replicate 12 255) = _
  rw [BigEndian.ofBytes_append, List.length_replicate]
  rfl

theorem low_ownerMax : low (nftOwnerMax owner) = 256 ^ 12 - 1 := by
  rw [low, toNat_ownerMax]
  omega

theorem toNat_nftPage (tokenId : Uint256) :
    (nftPage (nftOwnerMin owner) tokenId).toNat = owner.toNat * 256 ^ 12 + low tokenId := by
  have hlow := low_lt tokenId
  have howner := owner_toNat_lt owner
  have hmask : nftPageMask.not.data = List.replicate 20 255 ++ List.replicate 12 0 := rfl
  rw [nftPage, BaseUInt.add, BaseUInt.toNat_ofNat, BaseUInt.toNat_and_leading _ hmask,
    toNat_and_mask, toNat_ownerMin, Nat.mul_div_cancel _ (by positivity)]
  refine Nat.mod_eq_of_lt ?_
  omega

theorem low_nftPage (tokenId : Uint256) : low (nftPage (nftOwnerMin owner) tokenId) =
    low tokenId := by
  have hlow := low_lt tokenId
  rw [low, toNat_nftPage]
  omega

/-- The keys that the pages of an owner can have. -/
def ownerKeys : Set Uint256 := {key | key.toNat / 256 ^ 12 = owner.toNat}

variable {owner} {j k : Uint256}

theorem toNat_of_mem (h : k ∈ ownerKeys owner) : k.toNat = owner.toNat * 256 ^ 12 + low k := by
  have hk : k.toNat / 256 ^ 12 = owner.toNat := h
  rw [low, ← hk]
  omega

theorem mem_ownerKeys_of_toNat {n : ℕ} (h : k.toNat = owner.toNat * 256 ^ 12 + n)
    (hn : n < 256 ^ 12) : k ∈ ownerKeys owner := by
  change k.toNat / 256 ^ 12 = owner.toNat
  omega

theorem ownerMax_mem (owner : AccountID) : nftOwnerMax owner ∈ ownerKeys owner :=
  mem_ownerKeys_of_toNat (toNat_ownerMax owner) (by omega)

theorem nftPage_mem (owner : AccountID) (tokenId : Uint256) :
    nftPage (nftOwnerMin owner) tokenId ∈ ownerKeys owner :=
  mem_ownerKeys_of_toNat (toNat_nftPage owner tokenId) (low_lt tokenId)

theorem nftPageForToken_mem (owner : AccountID) (tokenId : Uint256) :
    nftPageForToken owner tokenId ∈ ownerKeys owner :=
  nftPage_mem owner tokenId

theorem low_nftPageForToken (owner : AccountID) (tokenId : Uint256) :
    low (nftPageForToken owner tokenId) = low tokenId :=
  low_nftPage owner tokenId

theorem lt_iff_low_lt (hj : j ∈ ownerKeys owner) (hk : k ∈ ownerKeys owner) :
    j < k ↔ low j < low k := by
  rw [BaseUInt.lt_iff_toNat_lt, toNat_of_mem hj, toNat_of_mem hk]
  omega

theorem le_iff_low_le (hj : j ∈ ownerKeys owner) (hk : k ∈ ownerKeys owner) :
    j ≤ k ↔ low j ≤ low k := by
  rw [BaseUInt.le_iff_toNat_le, toNat_of_mem hj, toNat_of_mem hk]
  omega

theorem le_ownerMax (hk : k ∈ ownerKeys owner) : k ≤ nftOwnerMax owner := by
  rw [le_iff_low_le hk (ownerMax_mem owner), low_ownerMax]
  have := low_lt k
  omega

/-- The account with all bits set has no key above its last page. -/
def HasNext (owner : AccountID) : Prop := owner.toNat + 1 < 256 ^ 20

theorem toNat_ownerMax_next (howner : HasNext owner) :
    (nftOwnerMax owner).next.toNat = (owner.toNat + 1) * 256 ^ 12 := by
  have hmax := toNat_ownerMax owner
  have hlt : owner.toNat + 1 < 256 ^ 20 := howner
  rw [BaseUInt.toNat_next (by rw [hmax]; omega), hmax]
  omega

theorem lt_ownerMax_next (howner : HasNext owner) (hk : k ∈ ownerKeys owner) :
    k < (nftOwnerMax owner).next := by
  rw [BaseUInt.lt_iff_toNat_lt, toNat_ownerMax_next howner, toNat_of_mem hk]
  have := low_lt k
  omega

/-- From a key of the owner to the end all keys are the owner's. -/
theorem mem_ownerKeys_of_lt (howner : HasNext owner) (hj : j ∈ ownerKeys owner) (hjk : j < k)
    (hk : k < (nftOwnerMax owner).next) : k ∈ ownerKeys owner := by
  rw [BaseUInt.lt_iff_toNat_lt, toNat_of_mem hj] at hjk
  rw [BaseUInt.lt_iff_toNat_lt, toNat_ownerMax_next howner] at hk
  change k.toNat / 256 ^ 12 = owner.toNat
  omega

/-- The place of an id in the order of tokens. -/
def tokenKey (tokenId : Uint256) : ℕ ×ₗ Uint256 := toLex (low tokenId, tokenId)

theorem tokenKey_injective : Function.Injective tokenKey := by
  intro x y h
  exact (Prod.mk.inj (toLex.injective h)).2

theorem tokenKey_lt_iff : tokenKey x < tokenKey y ↔ low x < low y ∨ low x = low y ∧ x < y :=
  Prod.Lex.toLex_lt_toLex

theorem nftCompareTokens_eq (x y : Uint256) :
    nftCompareTokens x y = compare (tokenKey x) (tokenKey y) := by
  rcases lt_trichotomy (tokenKey x) (tokenKey y) with h | h | h
  · rw [compare_lt_iff_lt.mpr h, nftCompareTokens]
    rcases tokenKey_lt_iff.mp h with hlow | ⟨hlow, hlt⟩
    · rw [compare_lt_iff_lt.mpr (and_mask_lt.mpr hlow)]
      rfl
    · rw [compare_eq_iff_eq.mpr (and_mask_inj.mpr hlow), compare_lt_iff_lt.mpr hlt]
      rfl
  · obtain rfl := tokenKey_injective h
    rw [compare_eq_iff_eq.mpr rfl, nftCompareTokens, compare_eq_iff_eq.mpr rfl,
      compare_eq_iff_eq.mpr rfl]
    rfl
  · rw [compare_gt_iff_gt.mpr h, nftCompareTokens]
    rcases tokenKey_lt_iff.mp h with hlow | ⟨hlow, hlt⟩
    · rw [compare_gt_iff_gt.mpr (and_mask_lt.mpr hlow)]
      rfl
    · rw [compare_eq_iff_eq.mpr (and_mask_inj.mpr hlow.symm), compare_gt_iff_gt.mpr hlt]
      rfl

/-- Ids in strictly increasing order. -/
def SortedTokens (tokens : List NFToken) : Prop :=
  tokens.Pairwise fun left right => nftCompareTokens left.nftokenId right.nftokenId = .lt

variable {tokens : List NFToken}

theorem sortedTokens_iff :
    SortedTokens tokens ↔ tokens.Pairwise fun left right =>
      tokenKey left.nftokenId < tokenKey right.nftokenId := by
  simp only [SortedTokens, nftCompareTokens_eq, compare_lt_iff_lt]

theorem SortedTokens.nodup_ids (h : SortedTokens tokens) :
    (tokens.map NFToken.nftokenId).Nodup := by
  rw [List.nodup_iff_pairwise_ne, List.pairwise_map]
  refine (sortedTokens_iff.mp h).imp ?_
  intro x y hlt heq
  rw [heq] at hlt
  exact lt_irrefl _ hlt

theorem SortedTokens.id_injOn (h : SortedTokens tokens) :
    ∀ x ∈ tokens, ∀ y ∈ tokens, x.nftokenId = y.nftokenId → x = y :=
  fun _ hx _ hy heq => List.inj_on_of_nodup_map h.nodup_ids hx hy heq

theorem sortTokens_perm (tokens : List NFToken) : (sortTokens tokens).Perm tokens :=
  List.perm_insertionSort _ tokens

@[simp] theorem mem_sortTokens {token : NFToken} : token ∈ sortTokens tokens ↔ token ∈ tokens :=
  (sortTokens_perm tokens).mem_iff

@[simp] theorem length_sortTokens (tokens : List NFToken) :
    (sortTokens tokens).length = tokens.length :=
  (sortTokens_perm tokens).length_eq

theorem sortedTokens_sortTokens (h : (tokens.map NFToken.nftokenId).Nodup) :
    SortedTokens (sortTokens tokens) := by
  have hle : ∀ left right : NFToken, nftCompareTokens left.nftokenId right.nftokenId ≠ .gt ↔
      tokenKey left.nftokenId ≤ tokenKey right.nftokenId := by
    intro left right
    rw [nftCompareTokens_eq, compare_le_iff_le]
  have hsort : (sortTokens tokens).Pairwise fun left right =>
      tokenKey left.nftokenId ≤ tokenKey right.nftokenId := by
    have htotal : Std.Total fun left right : NFToken =>
        nftCompareTokens left.nftokenId right.nftokenId ≠ .gt :=
      ⟨fun left right => by rw [hle, hle]; exact le_total _ _⟩
    have htrans : IsTrans NFToken fun left right =>
        nftCompareTokens left.nftokenId right.nftokenId ≠ .gt :=
      ⟨fun x y z hxy hyz => by rw [hle] at *; exact hxy.trans hyz⟩
    refine (List.pairwise_insertionSort _ tokens).imp ?_
    intro left right hlr
    exact (hle left right).mp hlr
  have hnodup : ((sortTokens tokens).map NFToken.nftokenId).Nodup :=
    ((sortTokens_perm tokens).map _).nodup_iff.mpr h
  rw [List.nodup_iff_pairwise_ne, List.pairwise_map] at hnodup
  rw [sortedTokens_iff]
  refine hsort.imp₂ ?_ hnodup
  intro left right hlr hne
  exact lt_of_le_of_ne hlr fun heq => hne (tokenKey_injective heq)

/-- The tokens of a page and its links. -/
abbrev Page := LinkedOrder.Node Uint256 (List NFToken)

/-- What a page under `key` holds. -/
structure FitsPage (key : Uint256) (page : Page) : Prop where
  nonempty : page.value ≠ []
  length_le : page.value.length ≤ dirMaxTokensPerPage
  sorted : SortedTokens page.value
  below_key : ∀ token ∈ page.value, low token.nftokenId < low key
  above_prev : ∀ token ∈ page.value, ∀ prev, page.prev = some prev →
    low prev ≤ low token.nftokenId

/-- The pages of an owner, by key. -/
structure WellFormed (owner : AccountID) (D : Uint256 → Option Page) : Prop where
  finite : (support D).Finite
  owned : ∀ key page, D key = some page → key ∈ ownerKeys owner
  linked : Linked D
  last : ∀ key page, D key = some page → (D (nftOwnerMax owner)).isSome = true
  fits : ∀ key page, D key = some page → FitsPage key page

/-- The tokens on the pages. -/
def tokensOf (D : Uint256 → Option Page) : Set NFToken :=
  {token | ∃ key page, D key = some page ∧ token ∈ page.value}

/-- The number of pages. -/
noncomputable def pageCount (D : Uint256 → Option Page) : ℕ := (support D).ncard

variable {D : Uint256 → Option Page} {x y : Page} {token other : NFToken} {value : List NFToken}

theorem wellFormed_empty (owner : AccountID) : WellFormed owner fun _ => none where
  finite := by
    convert Set.finite_empty
    ext k
    simp [support]
  owned := by simp
  linked := ⟨by simp, by simp⟩
  last := by simp
  fits := by simp

namespace WellFormed

variable (h : WellFormed owner D)

include h

theorem low_lt_low (hj : D j = some y) (hk : D k = some x) : j < k ↔ low j < low k :=
  lt_iff_low_lt (h.owned j y hj) (h.owned k x hk)

/-- No page but the first that is above a token can hold it. -/
theorem le_of_low_lt (hx : D k = some x) (htoken : token ∈ x.value)
    (hy : D j = some y) (hlow : low token.nftokenId < low j) : k ≤ j := by
  by_contra hlt
  obtain ⟨i, hi, hle⟩ := h.linked.le_prev hx hy (not_le.mp hlt)
  obtain ⟨z, hz, -⟩ := h.linked.exists_prev hx hi
  have hprev := (h.fits k x hx).above_prev token htoken i hi
  have hji := (le_iff_low_le (h.owned j y hy) (h.owned i z hz)).mp hle
  omega

/-- Tokens with equal low bits are on one page. -/
theorem page_unique (hx : D k = some x) (htoken : token ∈ x.value)
    (hy : D j = some y) (hother : other ∈ y.value)
    (hlow : low token.nftokenId = low other.nftokenId) : j = k := by
  have hxk := (h.fits k x hx).below_key token htoken
  have hyj := (h.fits j y hy).below_key other hother
  have hkj := h.le_of_low_lt hx htoken hy (hlow ▸ hyj)
  have hjk := h.le_of_low_lt hy hother hx (hlow ▸ hxk)
  exact le_antisymm hjk hkj

theorem next_eq_none (hx : D k = some x) (hnext : x.next = none) : k = nftOwnerMax owner := by
  have hlast := h.last k x hx
  have hn := h.linked.next_isNext k x hx
  rw [hnext] at hn
  exact le_antisymm (le_ownerMax (h.owned k x hx)) (not_lt.mp (hn _ hlast))

theorem next_last (hx : D (nftOwnerMax owner) = some x) : x.next = none := by
  rcases hnext : x.next with _ | j
  · rfl
  · obtain ⟨y, hy, hlt⟩ := h.linked.exists_next hx hnext
    exact absurd hlt (not_lt.mpr (le_ownerMax (h.owned j y hy)))

end WellFormed

theorem mem_tokensOf_update : token ∈ tokensOf (update D k (some x)) ↔
    token ∈ x.value ∨ ∃ j y, j ≠ k ∧ D j = some y ∧ token ∈ y.value := by
  constructor
  · rintro ⟨j, y, hy, hmem⟩
    by_cases hjk : j = k
    · subst hjk
      rw [update_self] at hy
      cases hy
      exact .inl hmem
    · rw [update_of_ne hjk] at hy
      exact .inr ⟨j, y, hjk, hy, hmem⟩
  · rintro (hmem | ⟨j, y, hjk, hy, hmem⟩)
    · exact ⟨k, x, update_self .., hmem⟩
    · exact ⟨j, y, (update_of_ne hjk ..).trans hy, hmem⟩

theorem mem_tokensOf_unlink : token ∈ tokensOf (unlink D k x) ↔
    ∃ j y, j ≠ k ∧ D j = some y ∧ token ∈ y.value := by
  constructor
  · rintro ⟨j, w, hw, hmem⟩
    obtain ⟨hjk, y, hy, rfl⟩ := unlink_eq_some hw
    exact ⟨j, y, hjk, hy, hmem⟩
  · rintro ⟨j, y, hjk, hy, hmem⟩
    exact ⟨j, _, unlink_of_ne x hjk hy, hmem⟩

theorem support_update (hx : D k = some x) : support (update D k (some y)) = support D := by
  ext j
  by_cases hjk : j = k
  · subst hjk
    simp [support, hx]
  · simp [support, update_of_ne hjk]

namespace WellFormed

section

variable (h : WellFormed owner D) (hx : D k = some x)

include h hx

theorem update_value (hfits : FitsPage k { x with value }) :
    WellFormed owner (update D k (some { x with value })) := by
  have hsupport : support (update D k (some { x with value })) = support D :=
    support_update hx
  have hold : ∀ j y, update D k (some { x with value }) j = some y → j ∈ support D := by
    intro j y hy
    rw [← hsupport]
    exact mem_support hy
  refine ⟨hsupport ▸ h.finite, ?_, h.linked.update_value hx, ?_, ?_⟩
  · intro j y hy
    obtain ⟨z, hz⟩ := exists_of_mem_support (hold j y hy)
    exact h.owned j z hz
  · intro j y hy
    obtain ⟨z, hz⟩ := exists_of_mem_support (hold j y hy)
    have hlast : nftOwnerMax owner ∈ support D := h.last j z hz
    rw [← hsupport] at hlast
    exact hlast
  · intro j y hy
    by_cases hjk : j = k
    · subst hjk
      rw [update_self] at hy
      cases hy
      exact hfits
    · rw [update_of_ne hjk] at hy
      exact h.fits j y hy

/-- Take a page out. The last page can go if it is the only one. -/
theorem unlink
    (hlast : k = nftOwnerMax owner → support D ⊆ {k}) : WellFormed owner (unlink D k x) := by
  have hold : ∀ j y, LinkedOrder.unlink D k x j = some y → j ≠ k ∧ ∃ z, D j = some z ∧
      y.value = z.value ∧ ∀ i, y.prev = some i → ∃ i', z.prev = some i' ∧ i ≤ i' := by
    intro j y hy
    obtain ⟨hjk, z, hz, rfl⟩ := unlink_eq_some hy
    refine ⟨hjk, z, hz, rfl, ?_⟩
    intro i hi
    by_cases hprev : z.prev = some k
    · simp only [hprev, if_true] at hi
      obtain ⟨-, -, hlt⟩ := h.linked.exists_prev hx hi
      exact ⟨k, hprev, hlt.le⟩
    · simp only [hprev, if_false] at hi
      exact ⟨i, hi, le_rfl⟩
  have hsupport := support_unlink D k x
  refine ⟨hsupport ▸ h.finite.sdiff, ?_, h.linked.unlink hx, ?_, ?_⟩
  · intro j y hy
    obtain ⟨-, z, hz, -⟩ := hold j y hy
    exact h.owned j z hz
  · intro j y hy
    obtain ⟨hjk, z, hz, -⟩ := hold j y hy
    have hmem : nftOwnerMax owner ∈ LinkedOrder.support (LinkedOrder.unlink D k x) := by
      rw [hsupport]
      refine ⟨h.last j z hz, fun hmax => hjk ?_⟩
      exact hlast (Set.mem_singleton_iff.mp hmax).symm (mem_support hz)
    exact hmem
  · intro j y hy
    obtain ⟨-, z, hz, hvalue, hprev⟩ := hold j y hy
    have hfits := h.fits j z hz
    refine ⟨hvalue ▸ hfits.nonempty, hvalue ▸ hfits.length_le, hvalue ▸ hfits.sorted,
      hvalue ▸ hfits.below_key, ?_⟩
    intro token htoken i hi
    obtain ⟨i', hi', hle⟩ := hprev i hi
    obtain ⟨w', hw', -⟩ := h.linked.exists_prev hz hi'
    obtain ⟨w, hw, -⟩ := (h.linked.unlink hx).exists_prev hy hi
    obtain ⟨-, w, hw, -⟩ := hold i w hw
    have hlow := (le_iff_low_le (h.owned i w hw) (h.owned i' w' hw')).mp hle
    exact hlow.trans (hfits.above_prev token (hvalue ▸ htoken) i' hi')

theorem unlink_next (hnext : x.next = some j)
    (hy : D j = some y) : LinkedOrder.unlink D k x j = some { y with prev := x.prev } := by
  obtain ⟨-, -, hlt⟩ := h.linked.exists_next hx hnext
  have hprev : x.prev ≠ some j := by
    intro hprev
    obtain ⟨-, -, hlt'⟩ := h.linked.exists_prev hx hprev
    exact lt_asymm hlt hlt'
  rw [h.linked.unlink_apply hx (ne_of_gt hlt) hy, if_neg hprev, if_pos hnext]

/-- A page goes and its successor gets `value`, tokens of both. -/
theorem absorb (hnext : x.next = some j)
    (hy : D j = some y) (hne : value ≠ []) (hlen : value.length ≤ dirMaxTokensPerPage)
    (hsort : SortedTokens value) (hfrom : ∀ t ∈ value, t ∈ x.value ∨ t ∈ y.value) :
    WellFormed owner
      (update (LinkedOrder.unlink D k x) j (some ⟨value, y.next, x.prev⟩)) := by
  obtain ⟨-, -, hlt⟩ := h.linked.exists_next hx hnext
  have hlow : low k < low j := (h.low_lt_low hx hy).mp hlt
  have hprev : y.prev = some k := (h.linked.next_eq_iff hx hy).mp hnext
  have hlast : k = nftOwnerMax owner → support D ⊆ {k} := by
    rintro rfl
    exact absurd hlt (not_lt.mpr (le_ownerMax (h.owned j y hy)))
  refine (h.unlink hx hlast).update_value (h.unlink_next hx hnext hy)
    ⟨hne, hlen, hsort, ?_, ?_⟩
  · intro t ht
    rcases hfrom t ht with hmem | hmem
    · exact ((h.fits k x hx).below_key t hmem).trans hlow
    · exact (h.fits j y hy).below_key t hmem
  · intro t ht i hi
    rcases hfrom t ht with hmem | hmem
    · exact (h.fits k x hx).above_prev t hmem i hi
    · obtain ⟨z, hz, hik⟩ := h.linked.exists_prev hx hi
      have hil : low i < low k := (h.low_lt_low hz hx).mp hik
      have := (h.fits j y hy).above_prev t hmem k hprev
      omega

end

theorem mem_tokensOf_pair (hx : D k = some x) (hy : D j = some y) :
    token ∈ tokensOf D ↔ token ∈ x.value ∨ token ∈ y.value ∨
      ∃ i z, i ≠ k ∧ i ≠ j ∧ D i = some z ∧ token ∈ z.value := by
  constructor
  · rintro ⟨i, z, hz, hmem⟩
    by_cases hik : i = k
    · subst hik
      rw [hx] at hz
      cases hz
      exact .inl hmem
    · by_cases hij : i = j
      · subst hij
        rw [hy] at hz
        cases hz
        exact .inr (.inl hmem)
      · exact .inr (.inr ⟨i, z, hik, hij, hz, hmem⟩)
  · rintro (hmem | hmem | ⟨i, z, -, -, hz, hmem⟩)
    · exact ⟨k, x, hx, hmem⟩
    · exact ⟨j, y, hy, hmem⟩
    · exact ⟨i, z, hz, hmem⟩

theorem mem_tokensOf_absorb :
    token ∈ tokensOf (update (LinkedOrder.unlink D k x) j (some y)) ↔
      token ∈ y.value ∨ ∃ i z, i ≠ k ∧ i ≠ j ∧ D i = some z ∧ token ∈ z.value := by
  rw [mem_tokensOf_update]
  refine or_congr_right ?_
  constructor
  · rintro ⟨i, w, hij, hw, hmem⟩
    obtain ⟨hik, z, hz, rfl⟩ := unlink_eq_some hw
    exact ⟨i, z, hik, hij, hz, hmem⟩
  · rintro ⟨i, z, hik, hij, hz, hmem⟩
    exact ⟨i, _, hij, unlink_of_ne x hik hz, hmem⟩

theorem pageCount_unlink (h : WellFormed owner D) (hx : D k = some x) :
    pageCount (LinkedOrder.unlink D k x) + 1 = pageCount D := by
  rw [pageCount, support_unlink, pageCount]
  exact Set.ncard_sdiff_singleton_add_one (mem_support hx) h.finite

theorem pageCount_update (hx : D k = some x) :
    pageCount (update D k (some y)) = pageCount D := by
  rw [pageCount, support_update hx, pageCount]

theorem sorted_append (h : WellFormed owner D) (hx : D k = some x) (hnext : x.next = some j)
    (hy : D j = some y) : SortedTokens (x.value ++ y.value) := by
  refine List.pairwise_append.mpr ⟨(h.fits k x hx).sorted, (h.fits j y hy).sorted, ?_⟩
  intro left hleft right hright
  have hbelow := (h.fits k x hx).below_key left hleft
  have habove := (h.fits j y hy).above_prev right hright k ((h.linked.next_eq_iff hx hy).mp hnext)
  rw [nftCompareTokens_eq, compare_lt_iff_lt, tokenKey_lt_iff]
  exact .inl (by omega)

end WellFormed

/-- The pages after one has been merged into its successor. -/
def mergedPages (D : Uint256 → Option Page) (k : Uint256) (x : Page) (j : Uint256) (y : Page) :
    Uint256 → Option Page :=
  update (unlink D k x) j (some ⟨sortTokens (x.value ++ y.value), y.next, x.prev⟩)

/-- The pages after one has been put in front of another. -/
def splitPages (D : Uint256 → Option Page) (n k : Uint256) (x : Page)
    (first second : List NFToken) : Uint256 → Option Page :=
  update (linkBefore D n k x first) k (some ⟨second, x.next, some n⟩)

variable {n : Uint256}

theorem splitPages_new (hnk : n ≠ k) (first second : List NFToken) :
    splitPages D n k x first second n = some ⟨first, some k, x.prev⟩ := by
  rw [splitPages, update_of_ne hnk]
  exact if_pos rfl

theorem update_splitPages_new (hnk : n ≠ k) (first first' second : List NFToken) :
    update (splitPages D n k x first second) n (some ⟨first', some k, x.prev⟩) =
      splitPages D n k x first' second := by
  refine Function.update_eq_iff.mpr ⟨(splitPages_new hnk first' second).symm, fun j hjn => ?_⟩
  by_cases hjk : j = k
  · subst hjk
    rw [splitPages, splitPages, update_self, update_self]
  · rw [splitPages, splitPages, update_of_ne hjk, update_of_ne hjk, linkBefore,
      linkBefore, if_neg hjn, if_neg hjn]

/-- Other pages with the same tokens, `delta` more of them. -/
structure Repaged (owner : AccountID) (D D' : Uint256 → Option Page) (delta : ℤ) : Prop where
  wellFormed : WellFormed owner D'
  tokensOf_eq : tokensOf D' = tokensOf D
  pageCount_eq : (pageCount D' : ℤ) = pageCount D + delta

theorem Repaged.trans {D' D'' : Uint256 → Option Page} {m n : ℤ} (h : Repaged owner D D' m)
    (h' : Repaged owner D' D'' n) : Repaged owner D D'' (m + n) :=
  ⟨h'.wellFormed, h'.tokensOf_eq.trans h.tokensOf_eq, by
    rw [h'.pageCount_eq, h.pageCount_eq, add_assoc]⟩

namespace WellFormed

theorem repaged (h : WellFormed owner D) : Repaged owner D D 0 := ⟨h, rfl, (add_zero _).symm⟩

theorem merged (h : WellFormed owner D) (hx : D k = some x) (hnext : x.next = some j)
    (hy : D j = some y) (hlen : x.value.length + y.value.length ≤ dirMaxTokensPerPage) :
    Repaged owner D (mergedPages D k x j y) (-1) := by
  have hmem : ∀ {t}, t ∈ sortTokens (x.value ++ y.value) ↔ t ∈ x.value ∨ t ∈ y.value := by
    simp
  refine ⟨h.absorb hx hnext hy ?_ ?_ ?_ fun t ht => hmem.mp ht, ?_, ?_⟩
  · obtain ⟨t, ht⟩ := List.exists_mem_of_ne_nil _ (h.fits k x hx).nonempty
    exact List.ne_nil_of_mem (hmem.mpr (.inl ht))
  · rw [length_sortTokens, List.length_append]
    exact hlen
  · exact sortedTokens_sortTokens (h.sorted_append hx hnext hy).nodup_ids
  · ext t
    rw [mergedPages, mem_tokensOf_absorb, mem_tokensOf_pair hx hy, hmem, or_assoc]
  · have hcount := h.pageCount_unlink hx
    rw [mergedPages, pageCount_update (h.unlink_next hx hnext hy)]
    omega

variable {first second : List NFToken}

section

variable (h : WellFormed owner D) (hx : D k = some x)

include h hx

theorem linkBefore_self (hnk : n < k)
    (first : List NFToken) : linkBefore D n k x first k = some { x with prev := some n } := by
  have hnext : x.next ≠ some k := by
    intro hnext
    obtain ⟨-, -, hlt⟩ := h.linked.exists_next hx hnext
    exact lt_irrefl k hlt
  rw [linkBefore_of_ne x first (ne_of_gt hnk) hx, if_neg hnext, if_pos rfl]

theorem support_splitPages (hnk : n < k) :
    support (splitPages D n k x first second) = insert n (support D) := by
  rw [splitPages, support_update (h.linkBefore_self hx hnk first), LinkedOrder.support_linkBefore]

/-- Put a page in front of another one and divide the tokens. -/
theorem split (hn : n ∈ ownerKeys owner) (hnk : n < k)
    (hprev : ∀ i, x.prev = some i → i < n) (hfirst : FitsPage n ⟨first, some k, x.prev⟩)
    (hsecond : FitsPage k ⟨second, x.next, some n⟩) :
    WellFormed owner (splitPages D n k x first second) := by
  have hlinked : Linked (linkBefore D n k x first) := h.linked.linkBefore hx hnk hprev
  have hk := h.linkBefore_self hx hnk first
  have hsupport : support (splitPages D n k x first second) = insert n (support D) :=
    h.support_splitPages hx hnk
  have hlast : nftOwnerMax owner ∈ support D := h.last k x hx
  refine ⟨hsupport ▸ h.finite.insert n, ?_, hlinked.update_value hk, ?_, ?_⟩
  · intro j y hy
    have hj := mem_support hy
    rw [hsupport] at hj
    rcases hj with rfl | hj
    · exact hn
    · obtain ⟨z, hz⟩ := exists_of_mem_support hj
      exact h.owned j z hz
  · intro j y hy
    have hmem := Set.mem_insert_of_mem n hlast
    rw [← hsupport] at hmem
    exact hmem
  · intro j y hy
    by_cases hjk : j = k
    · subst hjk
      rw [splitPages, update_self] at hy
      cases hy
      exact hsecond
    · rw [splitPages, update_of_ne hjk] at hy
      rcases linkBefore_eq_some hy with ⟨rfl, rfl⟩ | ⟨-, z, hz, rfl⟩
      · exact hfirst
      · have hfits := h.fits j z hz
        simp only [if_neg hjk]
        exact ⟨hfits.nonempty, hfits.length_le, hfits.sorted, hfits.below_key, hfits.above_prev⟩

theorem eq_none_of_gap (hnk : n < k) (hprev : ∀ i, x.prev = some i → i < n) : D n = none := by
  rcases hy : D n with _ | y
  · rfl
  · obtain ⟨i, hi, hle⟩ := h.linked.le_prev hx hy hnk
    exact absurd (hprev i hi) (not_lt.mpr hle)

end

theorem mem_tokensOf_splitPages (hnew : D n = none) (hnk : n ≠ k) :
    token ∈ tokensOf (splitPages D n k x first second) ↔
      token ∈ first ∨ token ∈ second ∨ ∃ j y, j ≠ k ∧ D j = some y ∧ token ∈ y.value := by
  rw [splitPages, mem_tokensOf_update]
  constructor
  · rintro (hmem | ⟨j, w, hjk, hw, hmem⟩)
    · exact .inr (.inl hmem)
    · rcases linkBefore_eq_some hw with ⟨-, rfl⟩ | ⟨-, y, hy, rfl⟩
      · exact .inl hmem
      · exact .inr (.inr ⟨j, y, hjk, hy, hmem⟩)
  · rintro (hmem | hmem | ⟨j, y, hjk, hy, hmem⟩)
    · exact .inr ⟨n, _, hnk, if_pos rfl, hmem⟩
    · exact .inl hmem
    · have hjn : j ≠ n := by
        rintro rfl
        rw [hnew] at hy
        cases hy
      exact .inr ⟨j, _, hjk, linkBefore_of_ne x first hjn hy, hmem⟩

end WellFormed

end Quaxar.Nft
