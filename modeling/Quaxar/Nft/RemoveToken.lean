import Quaxar.Lib.LinkedChain
import Quaxar.Nft.PageStore

/-!
# Removing a token

What `nftRemoveTokenFromPage` does to a well-formed page list. Each of its paths leaves a
well-formed list, except that a page between two others that loses its only token is not
removed: its neighbours are merged as they were before they were linked to each other, and
the merge finds their links broken.
-/

namespace Quaxar.Nft

open Views
open Protocol (AccountID Ter)
open LinkedOrder (support unlink mem_support)
open Function (update_of_ne)
open EStateM (bind_of_ok)

variable {V : Type} [ApplyView V] [ApplyModel V] [LawfulApplyView V] {ctx : Context}
  {owner : AccountID} {base : LedgerState} {v : V}
  {D : Uint256 → Option Page} {count : ℕ} {out : Set Uint256} {key : Uint256} {page : Page}
  {token : NFToken}

/-- The first page above a token of the list is the page of that token. -/
theorem WellFormed.isNext_page (h : WellFormed owner D) (hpage : D key = some page)
    (htoken : token ∈ page.value) :
    OrderedMap.IsNext (support D) (nftPageForToken owner token.nftokenId) (some key) := by
  have hfirst := nftPageForToken_mem owner token.nftokenId
  have hlow := low_nftPageForToken owner token.nftokenId
  have hbelow := (h.fits key page hpage).below_key token htoken
  refine ⟨⟨mem_support hpage, ?_⟩, ?_⟩
  · rw [lt_iff_low_lt hfirst (h.owned key page hpage), hlow]
    exact hbelow
  · rintro a ⟨ha, hlt⟩
    obtain ⟨y, hy⟩ := LinkedOrder.exists_of_mem_support ha
    rw [lt_iff_low_lt hfirst (h.owned a y hy), hlow] at hlt
    exact h.le_of_low_lt hpage htoken hy hlt

theorem Stores.nftLocatePage_some (h : Stores ctx owner base v D count out)
    (hs : Setting ctx owner) {tokenId : Uint256}
    (hnext : OrderedMap.IsNext (support D) (nftPageForToken owner tokenId) (some key))
    (hpage : D key = some page) :
    ∃ sle v', nftLocatePage owner tokenId v = .ok (some sle) v' ∧
      IsPage ctx owner sle key page ∧ Stores ctx owner base v' D count (Insert.insert key out) := by
  obtain ⟨r, hsucc, hr⟩ := h.viewSucc hs (nftPageForToken_mem owner tokenId)
  obtain rfl : r = some key := hr.unique hnext
  obtain ⟨sle, v', hpeek, hsle, hst⟩ := h.peekPage_some hs hpage
  refine ⟨sle, v', ?_, hsle, hst⟩
  rw [nftLocatePage, bind_of_ok hsucc]
  exact hpeek

theorem Stores.nftFindTokenAndPage (h : Stores ctx owner base v D count out)
    (hs : Setting ctx owner) (hwf : WellFormed owner D) (hpage : D key = some page)
    (htoken : token ∈ page.value) :
    ∃ sle v', nftFindTokenAndPage owner token.nftokenId v = .ok (some (token, sle)) v' ∧
      IsPage ctx owner sle key page ∧ Stores ctx owner base v' D count (Insert.insert key out) := by
  obtain ⟨sle, v', hlocate, hsle, hst⟩ :=
    h.nftLocatePage_some hs (hwf.isNext_page hpage htoken) hpage
  have hobj : PageObject sle.object page := hsle.object
  have hfind : (page.value.find? fun other => decide (other.nftokenId = token.nftokenId)) =
      some token := by
    obtain ⟨other, hother⟩ := Option.isSome_iff_exists.mp
      (List.find?_isSome.mpr ⟨token, htoken, decide_eq_true rfl⟩ :
        (page.value.find? fun other => decide (other.nftokenId = token.nftokenId)).isSome = true)
    have hid : other.nftokenId = token.nftokenId := by simpa using List.find?_some hother
    have heq := (hwf.fits key page hpage).sorted.id_injOn other (List.mem_of_find?_eq_some hother)
      token htoken hid
    rw [hother, heq]
  refine ⟨sle, v', ?_, hsle, hst⟩
  rw [Nft.nftFindTokenAndPage, bind_of_ok hlocate]
  simp only [hobj.getFieldArray, hfind]
  rfl

variable {sle : STLedgerEntry} {field : SField}

/-- What a call finds at the other end of a link. -/
def LinkFound (ctx : Context) (owner : AccountID) (D : Uint256 → Option Page)
    (found : Option STLedgerEntry) (link : Option Uint256) (out : Set Uint256) : Prop :=
  match link with
  | none => found = none
  | some j => ∃ sle y, found = some sle ∧ D j = some y ∧ IsPage ctx owner sle j y ∧ j ∈ out

theorem LinkFound.mono {found : Option STLedgerEntry} {link : Option Uint256} {out' : Set Uint256}
    (h : LinkFound ctx owner D found link out) (hsub : out ⊆ out') :
    LinkFound ctx owner D found link out' := by
  cases link with
  | none => exact h
  | some j =>
    obtain ⟨sle, y, hfound, hy, hsle, hout⟩ := h
    exact ⟨sle, y, hfound, hy, hsle, hsub hout⟩

theorem LinkFound.congr {D' : Uint256 → Option Page} {found : Option STLedgerEntry}
    {link : Option Uint256} (h : LinkFound ctx owner D found link out)
    (hD : ∀ j, link = some j → D' j = D j) : LinkFound ctx owner D' found link out := by
  cases link with
  | none => exact h
  | some j =>
    obtain ⟨sle, y, hfound, hy, hsle, hout⟩ := h
    exact ⟨sle, y, hfound, (hD j rfl).trans hy, hsle, hout⟩

theorem Stores.nftPageLink (h : Stores ctx owner base v D count out) (hs : Setting ctx owner)
    {link : Option Uint256} (hlink : HasLink sle.object field link)
    (hD : ∀ j, link = some j → ∃ y, D j = some y) :
    ∃ found v' out', nftPageLink sle field v = .ok found v' ∧ out ⊆ out' ∧
      LinkFound ctx owner D found link out' ∧ Stores ctx owner base v' D count out' := by
  rw [Nft.nftPageLink, hlink.isFieldPresent]
  rcases hcase : link with _ | j
  · exact ⟨none, v, out, rfl, subset_rfl, rfl, h⟩
  · obtain ⟨y, hy⟩ := hD j hcase
    obtain ⟨sle', v', hpeek, hsle', hst⟩ := h.peekPage_some hs hy
    rw [hcase] at hlink
    refine ⟨some sle', v', Insert.insert j out, ?_, Set.subset_insert _ _,
      ⟨sle', y, rfl, hy, hsle', Set.mem_insert _ _⟩, hst⟩
    rw [hlink.getFieldH256]
    exact hpeek

variable {F S : Uint256} {f s : Page} {first second : STLedgerEntry} {object : STObject}

theorem Stores.linkNext (h : Stores ctx owner base v D count out) (hs : Setting ctx owner)
    {j : Uint256} {y : Page} (hy : D j = some y) (S : Uint256) :
    ∃ sle v₁ v₂ out', peekPage j v = .ok (some sle) v₁ ∧
      Nft.updateObject ctx (sle.object.setField sfNextPageMin (.uint256 S)) sle.key v₁ = .ok () v₂ ∧
      out ⊆ out' ∧ Stores ctx owner base v₂ (LinkedOrder.setNext D (some j) S) count out' := by
  obtain ⟨sle, v₁, hpeek, hsle, h₁⟩ := h.peekPage_some hs hy
  have hobj : PageObject sle.object y := hsle.object
  obtain ⟨v₂, hupdate, h₂⟩ := h₁.updateObject hs (by rw [hy]; rfl) (Set.mem_insert _ _)
    (hobj.linkNext S)
  rw [← LinkedOrder.setNext_some hy] at h₂
  exact ⟨sle, v₁, v₂, _, hpeek, hsle.key_eq ▸ hupdate,
    (Set.subset_insert _ _).trans (Set.subset_insert _ _), h₂⟩

/-- The predecessor of a page gets linked to another page. -/
theorem Stores.relinkPrevious (h : Stores ctx owner base v D count out) (hs : Setting ctx owner)
    (hfirst : IsPage ctx owner first F f) (hobj : PageObject object { s with prev := none })
    (S : Uint256) (message : String) (hprev : ∀ j, f.prev = some j → ∃ y, D j = some y) :
    ∃ object' v' out', relinkPrevious ctx first object S message v = .ok object' v' ∧
      out ⊆ out' ∧ PageObject object' { s with prev := f.prev } ∧
      Stores ctx owner base v' (LinkedOrder.setNext D f.prev S) count out' := by
  have hf : PageObject first.object f := hfirst.object
  rw [Nft.relinkPrevious, hf.hasPrev.isFieldPresent]
  rcases hcase : f.prev with _ | j
  · refine ⟨object, v, out, rfl, subset_rfl, hobj, ?_⟩
    exact h
  · obtain ⟨y, hy⟩ := hprev j hcase
    have hlink := hf.hasPrev
    rw [hcase] at hlink
    obtain ⟨previous, v₁, v₂, out', hpeek, hupdate, hsub, h₂⟩ := h.linkNext hs hy S
    refine ⟨_, v₂, out', ?_, hsub, hobj.linkPrev j, h₂⟩
    simp only [Option.isSome_some, if_true, hlink.getFieldH256]
    rw [bind_of_ok hpeek]
    simp only
    rw [bind_of_ok hupdate]
    rfl

theorem linkedPages_iff (hfirst : IsPage ctx owner first F f)
    (hsecond : IsPage ctx owner second S s) :
    linkedPages first second = true ↔ f.next = some S ∧ s.prev = some F := by
  have hf : PageObject first.object f := hfirst.object
  have hs : PageObject second.object s := hsecond.object
  have hlink : ∀ {object : STObject} {field : SField} {link : Option Uint256} (k : Uint256),
      HasLink object field link →
        (object.isFieldPresent field = true ∧ object.getFieldH256 field = k ↔ link = some k) := by
    intro object field link k h
    rw [h.isFieldPresent]
    cases link with
    | none => simp
    | some j =>
      rw [h.getFieldH256]
      simp
  rw [linkedPages, Bool.and_eq_true, Bool.and_eq_true, Bool.and_eq_true, decide_eq_true_eq,
    decide_eq_true_eq, hfirst.key_eq, hsecond.key_eq, hlink S hf.hasNext, and_assoc,
    hlink F hs.hasPrev]

section

variable (h : Stores ctx owner base v D count out) (hs : Setting ctx owner)
  (hwf : WellFormed owner D) (hF : D F = some f) (hnext : f.next = some S) (hS : D S = some s)
  (hfirst : IsPage ctx owner first F f) (hsecond : IsPage ctx owner second S s) (hFout : F ∈ out)
  (hSout : S ∈ out)

include h hs hwf hF hnext hS hfirst hsecond hFout hSout

theorem Stores.mergeInto (merged : List NFToken) :
    ∃ v' out', mergeInto ctx first second merged v = .ok () v' ∧ out ⊆ out' ∧
      Stores ctx owner base v'
        (Function.update (unlink D F f) S (some ⟨merged, s.next, f.prev⟩)) count out' := by
  have hobj : PageObject second.object s := hsecond.object
  obtain ⟨-, -, hlt⟩ := hwf.linked.exists_next hF hnext
  have hprev : ∀ j, f.prev = some j → ∃ y, D j = some y := by
    intro j hj
    obtain ⟨y, hy, -⟩ := hwf.linked.exists_prev hF hj
    exact ⟨y, hy⟩
  obtain ⟨object, v₁, out₁, hrelink, hsub, hobj', h₁⟩ :=
    h.relinkPrevious hs hfirst (hobj.setTokens merged).clearPrev S
      "NFToken page merge could not load previous page" hprev
  have hS₁ := (hwf.linked.setNext_of_le hF hlt.le S).trans hS
  have hF₁ := (hwf.linked.setNext_of_le hF le_rfl S).trans hF
  obtain ⟨v₂, hupdate, h₂⟩ := h₁.updateObject hs (by rw [hS₁]; rfl) (hsub hSout) hobj'
  obtain ⟨v₃, herase, h₃⟩ := h₂.erase hs
    (by rw [update_of_ne (ne_of_lt hlt), hF₁]; rfl)
    (Set.mem_insert_of_mem _ (hsub hFout)) hfirst.key_eq
  rw [hwf.linked.unlink_eq_writes hF hnext] at h₃
  refine ⟨v₃, _, ?_, hsub.trans (Set.subset_insert _ _), h₃⟩
  rw [Nft.mergeInto, hsecond.key_eq, bind_of_ok hrelink, bind_of_ok hupdate]
  exact herase

/-- Merging a page into its successor, where the tokens fit on one page. -/
theorem Stores.nftMergePages :
    if dirMaxTokensPerPage < f.value.length + s.value.length then
      nftMergePages ctx first second v = .ok false v
    else ∃ v' out', nftMergePages ctx first second v = .ok true v' ∧ out ⊆ out' ∧
      Stores ctx owner base v' (mergedPages D F f S s) count out' := by
  have hf : PageObject first.object f := hfirst.object
  have hsobject : PageObject second.object s := hsecond.object
  obtain ⟨-, -, hlt⟩ := hwf.linked.exists_next hF hnext
  have horder : ¬ second.key ≤ first.key := by
    rw [hfirst.key_eq, hsecond.key_eq]
    exact not_le.mpr hlt
  have hlinked := (linkedPages_iff hfirst hsecond).mpr
    ⟨hnext, (hwf.linked.next_eq_iff hF hS).mp hnext⟩
  rw [Nft.nftMergePages, if_neg horder, hlinked]
  simp only [hf.getFieldArray, hsobject.getFieldArray, Bool.not_true, Bool.false_eq_true, if_false]
  split_ifs with hlen
  · rfl
  · obtain ⟨v', out', hmerge, hsub, h'⟩ := h.mergeInto hs hwf hF hnext hS hfirst hsecond hFout
      hSout (sortTokens (f.value ++ s.value))
    refine ⟨v', out', ?_, hsub, h'⟩
    rw [bind_of_ok hmerge]
    rfl

end

variable {C : Uint256} {c : Page} {current : STLedgerEntry} {previous next : Option STLedgerEntry}

theorem mergedPages_of_lt (hwf : WellFormed owner D) {j : Uint256}
    (hF : D F = some f) (hnext : f.next = some S) (hj : S < j) :
    mergedPages D F f S s j = D j := by
  obtain ⟨-, -, hlt⟩ := hwf.linked.exists_next hF hnext
  have hjF : j ≠ F := ne_of_gt (lt_trans hlt hj)
  rw [mergedPages, update_of_ne (ne_of_gt hj)]
  rcases hy : D j with _ | y
  · simp [unlink, hy]
  · have hprev : f.prev ≠ some j := by
      intro hprev
      obtain ⟨-, -, hlt'⟩ := hwf.linked.exists_prev hF hprev
      exact lt_asymm (lt_trans hlt hj) hlt'
    have hne : f.next ≠ some j := by
      rw [hnext]
      exact fun heq => ne_of_lt hj (Option.some.inj heq)
    rw [hwf.linked.unlink_apply hF hjF hy, if_neg hprev, if_neg hne]

theorem confineOwnerCount_eq {n : ℕ} {amount : ℤ} (hpos : 0 ≤ n + amount)
    (hlt : n + amount < 2 ^ 32) : (confineOwnerCount n amount : ℤ) = n + amount := by
  rw [confineOwnerCount, if_neg (not_lt.mpr hpos), if_neg (by omega)]
  exact Int.toNat_of_nonneg hpos

theorem Stores.adjustOwner_eq (h : Stores ctx owner base v D count out) (hs : Setting ctx owner)
    {delta : ℤ} (hpos : 0 ≤ count + delta) (hlt : count + delta < 2 ^ 32) :
    ∃ v' count', Nft.adjustOwner ctx owner delta v = .ok true v' ∧
      Stores ctx owner base v' D count' out ∧ (count' : ℤ) = count + delta := by
  obtain ⟨v', hadjust, h'⟩ := h.adjustOwner hs delta
  exact ⟨v', _, hadjust, h', confineOwnerCount_eq hpos hlt⟩

theorem Stores.settleOwner (h : Stores ctx owner base v D count out) (hs : Setting ctx owner)
    {delta : ℤ} (hpos : 0 ≤ count + delta) (hlt : count + delta < 2 ^ 32) :
    ∃ v' count', settleOwner ctx owner delta v = .ok .tesSuccess v' ∧
      Stores ctx owner base v' D count' out ∧ (count' : ℤ) = count + delta := by
  rw [Nft.settleOwner]
  by_cases hzero : delta = 0
  · rw [if_neg (not_not.mpr hzero)]
    exact ⟨v, count, rfl, h, by omega⟩
  · obtain ⟨v', count', hadjust, h', hcount'⟩ := h.adjustOwner_eq hs hpos hlt
    refine ⟨v', count', ?_, h', hcount'⟩
    rw [if_pos hzero, bind_of_ok hadjust]
    rfl

/-- The pages without a token, and the owner count that goes with them. -/
structure Removed (owner : AccountID) (D : Uint256 → Option Page) (count : ℕ) (token : NFToken)
    (D' : Uint256 → Option Page) (count' : ℕ) : Prop where
  wellFormed : WellFormed owner D'
  tokensOf_eq : tokensOf D' = tokensOf D \ {token}
  count_eq : (count' : ℤ) - count = pageCount D' - pageCount D

/-- The tokens of a page that are not the one to remove. -/
def keptTokens (tokens : List NFToken) (tokenId : Uint256) : List NFToken :=
  tokens.filter fun token => decide (token.nftokenId ≠ tokenId)

section

variable (hwf : WellFormed owner D) (hC : D C = some c) (htoken : token ∈ c.value)

include hwf hC htoken

theorem WellFormed.mem_keptTokens {t : NFToken} :
    t ∈ keptTokens c.value token.nftokenId ↔ t ∈ c.value ∧ t ≠ token := by
  rw [keptTokens, List.mem_filter, decide_eq_true_eq]
  refine and_congr_right fun ht => not_congr ⟨fun hid => ?_, fun heq => heq ▸ rfl⟩
  exact (hwf.fits C c hC).sorted.id_injOn t ht token htoken hid

theorem WellFormed.mem_tokensOf_sdiff {t : NFToken} :
    t ∈ tokensOf D \ {token} ↔ t ∈ keptTokens c.value token.nftokenId ∨
      ∃ j y, j ≠ C ∧ D j = some y ∧ t ∈ y.value := by
  rw [hwf.mem_keptTokens hC htoken]
  constructor
  · rintro ⟨⟨j, y, hy, hmem⟩, hne⟩
    by_cases hjC : j = C
    · subst hjC
      rw [hC] at hy
      cases hy
      exact .inl ⟨hmem, hne⟩
    · exact .inr ⟨j, y, hjC, hy, hmem⟩
  · rintro (⟨hmem, hne⟩ | ⟨j, y, hjC, hy, hmem⟩)
    · exact ⟨⟨C, c, hC, hmem⟩, hne⟩
    · refine ⟨⟨j, y, hy, hmem⟩, ?_⟩
      rintro rfl
      exact hjC (hwf.page_unique hC htoken hy hmem rfl)

theorem WellFormed.shrink (hkept : keptTokens c.value token.nftokenId ≠ []) (count : ℕ) :
    Removed owner D count token
      (Function.update D C (some { c with value := keptTokens c.value token.nftokenId }))
      count := by
  have hfits := hwf.fits C c hC
  have hsub : (keptTokens c.value token.nftokenId).Sublist c.value := List.filter_sublist
  refine ⟨hwf.update_value hC ⟨hkept, hsub.length_le.trans hfits.length_le, hfits.sorted.sublist
    hsub, fun t ht => hfits.below_key t (hsub.subset ht),
    fun t ht => hfits.above_prev t (hsub.subset ht)⟩, ?_, ?_⟩
  · ext t
    rw [mem_tokensOf_update, hwf.mem_tokensOf_sdiff hC htoken]
  · rw [pageCount_update hC]
    omega

theorem keptTokens_eq_nil :
    keptTokens c.value token.nftokenId = [] ↔ c.value = [token] := by
  constructor
  · intro hnil
    have honly : ∀ t ∈ c.value, t = token := by
      intro t ht
      by_contra hne
      have hmem := (hwf.mem_keptTokens hC htoken).mpr ⟨ht, hne⟩
      rw [hnil] at hmem
      cases hmem
    have hnodup : c.value.Nodup := List.Nodup.of_map _ (hwf.fits C c hC).sorted.nodup_ids
    refine List.perm_singleton.mp ((List.perm_ext_iff_of_nodup hnodup (List.nodup_singleton _)).mpr
      fun t => ?_)
    rw [List.mem_singleton]
    refine ⟨honly t, ?_⟩
    rintro rfl
    exact htoken
  · intro hvalue
    simp [hvalue, keptTokens]

end

theorem Removed.repaged {D' D'' : Uint256 → Option Page} {delta : ℤ} {count' : ℕ}
    (h : Removed owner D count token D' count) (h' : Repaged owner D' D'' delta)
    (hcount : (count' : ℤ) = count + delta) : Removed owner D count token D'' count' :=
  ⟨h'.wellFormed, h'.tokensOf_eq.trans h.tokensOf_eq, by
    have := h.count_eq
    have := h'.pageCount_eq
    omega⟩

variable {prev : STLedgerEntry}

theorem Stores.relinkLast (h : Stores ctx owner base v D count out) (hs : Setting ctx owner)
    (hprev : IsPage ctx owner prev F f) (hobj : PageObject object c)
    (hD : ∀ j, f.prev = some j → ∃ y, D j = some y) :
    ∃ object' v' out', relinkLast ctx prev object C v = .ok (some object') v' ∧
      out ⊆ out' ∧ PageObject object' { c with prev := f.prev } ∧
      Stores ctx owner base v' (LinkedOrder.setNext D f.prev C) count out' := by
  have hf : PageObject prev.object f := hprev.object
  rw [Nft.relinkLast, hf.hasPrev.isFieldPresent]
  rcases hcase : f.prev with _ | j
  · refine ⟨_, v, out, rfl, subset_rfl, hobj.clearPrev, ?_⟩
    exact h
  · obtain ⟨y, hy⟩ := hD j hcase
    have hlink := hf.hasPrev
    rw [hcase] at hlink
    obtain ⟨newPrev, v₁, v₂, out', hpeek, hupdate, hsub, h₂⟩ := h.linkNext hs hy C
    refine ⟨_, v₂, out', ?_, hsub, hobj.linkPrev j, h₂⟩
    simp only [Option.isSome_some, if_true, hlink.getFieldH256]
    rw [bind_of_ok (attempt_of_ok hpeek)]
    simp only
    rw [bind_of_ok (attempt_of_ok hupdate)]
    rfl

/-- The last page takes over the tokens of its predecessor, which goes. -/
theorem WellFormed.refill (hwf : WellFormed owner D) (hC : D C = some c)
    (hvalue : c.value = [token]) (hprev : c.prev = some F) (hF : D F = some f) {count' : ℕ}
    (hcount : (count' : ℤ) = count + (-1)) :
    Removed owner D count token
      (Function.update (LinkedOrder.unlink D F f) C (some ⟨f.value, c.next, f.prev⟩)) count' := by
  have htoken : token ∈ c.value := by simp [hvalue]
  have hnext : f.next = some C := (hwf.linked.next_eq_iff hF hC).mpr hprev
  obtain ⟨-, -, hlt⟩ := hwf.linked.exists_next hF hnext
  have hfits := hwf.fits F f hF
  refine ⟨hwf.absorb hF hnext hC hfits.nonempty hfits.length_le hfits.sorted fun t ht => .inl ht,
    ?_, ?_⟩
  · ext t
    rw [mem_tokensOf_absorb, hwf.mem_tokensOf_sdiff hC htoken,
      (keptTokens_eq_nil hwf hC htoken).mpr hvalue]
    constructor
    · rintro (hmem | ⟨i, z, -, hiC, hz, hmem⟩)
      · exact .inr ⟨F, f, ne_of_lt hlt, hF, hmem⟩
      · exact .inr ⟨i, z, hiC, hz, hmem⟩
    · rintro (hmem | ⟨i, z, hiC, hz, hmem⟩)
      · cases hmem
      · by_cases hiF : i = F
        · subst hiF
          rw [hF] at hz
          cases hz
          exact .inl hmem
        · exact .inr ⟨i, z, hiF, hiC, hz, hmem⟩
  · have hpages := hwf.pageCount_unlink hF
    rw [pageCount_update (hwf.unlink_next hF hnext hC)]
    omega

theorem WellFormed.dropFirst (hwf : WellFormed owner D) (hC : D C = some c)
    (hvalue : c.value = [token]) (hprev : c.prev = none) {count' : ℕ}
    (hcount : (count' : ℤ) = count + (-1)) :
    Removed owner D count token (LinkedOrder.unlink D C c) count' := by
  have htoken : token ∈ c.value := by simp [hvalue]
  have honly : C = nftOwnerMax owner → support D ⊆ {C} := by
    rintro hmax k hk
    obtain ⟨y, hy⟩ := LinkedOrder.exists_of_mem_support hk
    have hle : k ≤ C := hmax ▸ le_ownerMax (hwf.owned k y hy)
    rcases hle.eq_or_lt with heq | hlt
    · exact heq
    · obtain ⟨i, hi, -⟩ := hwf.linked.le_prev hC hy hlt
      rw [hprev] at hi
      cases hi
  refine ⟨hwf.unlink hC honly, ?_, ?_⟩
  · ext t
    rw [mem_tokensOf_unlink, hwf.mem_tokensOf_sdiff hC htoken,
      (keptTokens_eq_nil hwf hC htoken).mpr hvalue]
    simp
  · have hpages := hwf.pageCount_unlink hC
    omega

omit [ApplyModel V] [LawfulApplyView V] in
/-- Two pages that are not linked to each other cannot be merged. -/
theorem nftMergePages_broken
    (hfirst : IsPage ctx owner first F f) (hsecond : IsPage ctx owner second S s) (hlt : F < S)
    (hbroken : f.next ≠ some S) :
    nftMergePages ctx first second v =
      .error (.conversion "NFToken page merge encountered broken links") v := by
  have horder : ¬ second.key ≤ first.key := by
    rw [hfirst.key_eq, hsecond.key_eq]
    exact not_le.mpr hlt
  have hlinked : linkedPages first second = false := by
    rw [Bool.eq_false_iff]
    intro htrue
    exact hbroken ((linkedPages_iff hfirst hsecond).mp htrue).1
  rw [nftMergePages, if_neg horder, hlinked]
  rfl

/-- The only token of a page between two others. -/
def OnlyBetween (page : Page) (token : NFToken) : Prop :=
  page.value = [token] ∧ page.prev.isSome = true ∧ page.next.isSome = true

theorem refillsLast_iff (hfix : ctx.fixNFTokenPageLinks = true) (hwf : WellFormed owner D)
    (hC : D C = some c) (hcurrent : IsPage ctx owner current C c) :
    refillsLast ctx current = true ↔ c.next = none := by
  have hmem := hwf.owned C c hC
  have hmask : nftPageMask.toNat = 256 ^ 12 - 1 := by decide
  have hmax : C.and nftPageMask = nftPageMask ↔ C = nftOwnerMax owner := by
    rw [← BaseUInt.toNat_inj, toNat_and_mask, hmask, ← low_ownerMax owner, ← BaseUInt.toNat_inj,
      toNat_of_mem hmem, toNat_of_mem (ownerMax_mem owner)]
    omega
  rw [refillsLast, hfix, Bool.true_and, decide_eq_true_eq, hcurrent.key_eq, hmax]
  constructor
  · rintro rfl
    exact hwf.next_last hC
  · exact hwf.next_eq_none hC

section

variable (h : Stores ctx owner base v D count out) (hs : Setting ctx owner)
  (hwf : WellFormed owner D) (hC : D C = some c) (hcurrent : IsPage ctx owner current C c)
  (hCout : C ∈ out)

include h hs hwf hC hcurrent hCout

theorem Stores.mergePrevious (hprevious : LinkFound ctx owner D previous c.prev out) :
    ∃ page delta v' D' c' out', mergePrevious ctx previous current v = .ok (some (page, delta)) v' ∧
      out ⊆ out' ∧ Stores ctx owner base v' D' count out' ∧ Repaged owner D D' delta ∧
      D' C = some c' ∧ c'.next = c.next ∧ IsPage ctx owner page C c' ∧ delta ≤ 0 ∧
      ∀ j, C < j → D' j = D j := by
  rcases hprev : c.prev with _ | P
  · rw [hprev] at hprevious
    obtain rfl : previous = none := hprevious
    exact ⟨current, 0, v, D, c, out, rfl, subset_rfl, h, hwf.repaged, hC, rfl, hcurrent, le_rfl,
      fun _ _ => rfl⟩
  · rw [hprev] at hprevious
    obtain ⟨prev, p, rfl, hP, hprevpage, hPout⟩ := hprevious
    have hnext : p.next = some C := (hwf.linked.next_eq_iff hP hC).mpr hprev
    have hmerge := h.nftMergePages hs hwf hP hnext hC hprevpage hcurrent hPout hCout
    split_ifs at hmerge with hlen
    · refine ⟨current, 0, v, D, c, out, ?_, subset_rfl, h, hwf.repaged, hC, rfl, hcurrent, le_rfl,
        fun _ _ => rfl⟩
      rw [mergePrevious, bind_of_ok (attempt_of_ok hmerge)]
      rfl
    · obtain ⟨v₁, out₁, hok, hsub, h₁⟩ := hmerge
      have hC₁ : mergedPages D P p C c C =
          some ⟨sortTokens (p.value ++ c.value), c.next, p.prev⟩ := Function.update_self ..
      obtain ⟨page, v₂, hpeek, hpage, h₂⟩ := h₁.peekPage_some hs hC₁
      refine ⟨page, -1, v₂, _, _, _, ?_, hsub.trans (Set.subset_insert _ _), h₂,
        hwf.merged hP hnext hC (not_lt.mp hlen), hC₁, rfl, hpage, by omega,
        fun j hj => mergedPages_of_lt hwf hP hnext hj⟩
      rw [mergePrevious, bind_of_ok (attempt_of_ok hok)]
      simp only
      rw [hcurrent.key_eq, bind_of_ok (attempt_of_ok hpeek)]
      rfl

theorem Stores.mergeNext (hnext : LinkFound ctx owner D next c.next out) :
    ∃ delta v' D' out', mergeNext ctx current next v = .ok (some delta) v' ∧
      Stores ctx owner base v' D' count out' ∧ Repaged owner D D' delta ∧ delta ≤ 0 := by
  rcases hlink : c.next with _ | N
  · rw [hlink] at hnext
    obtain rfl : next = none := hnext
    exact ⟨0, v, D, out, rfl, h, hwf.repaged, le_rfl⟩
  · rw [hlink] at hnext
    obtain ⟨nextPage, n, rfl, hN, hnextPage, hNout⟩ := hnext
    have hmerge := h.nftMergePages hs hwf hC hlink hN hcurrent hnextPage hCout hNout
    split_ifs at hmerge with hlen
    · refine ⟨0, v, D, out, ?_, h, hwf.repaged, le_rfl⟩
      rw [mergeNext, bind_of_ok (attempt_of_ok hmerge)]
      rfl
    · obtain ⟨v₁, out₁, hok, -, h₁⟩ := hmerge
      refine ⟨-1, v₁, _, _, ?_, h₁, hwf.merged hC hlink hN (not_lt.mp hlen), by omega⟩
      rw [mergeNext, bind_of_ok (attempt_of_ok hok)]
      rfl

omit hcurrent hCout in
/-- The successor of the first page becomes the first page. -/
theorem Stores.relinkNeighbour (hprev : c.prev = none)
    (hnext : LinkFound ctx owner D next c.next out) :
    ∃ v' D' out', relinkNeighbour ctx next sfPreviousPageMin none v = .ok true v' ∧ out ⊆ out' ∧
      Stores ctx owner base v' D' count out' ∧ D' C = some c ∧
      Function.update D' C none = unlink D C c := by
  have hunlink := hwf.linked.unlink_first_eq hC hprev
  rcases hlink : c.next with _ | N
  · rw [hlink] at hnext
    obtain rfl : next = none := hnext
    exact ⟨v, D, out, rfl, subset_rfl, h, hC, hunlink.1 hlink⟩
  · rw [hlink] at hnext
    obtain ⟨sle, n, rfl, hN, hsle, hNout⟩ := hnext
    obtain ⟨-, -, hlt⟩ := hwf.linked.exists_next hC hlink
    have hobj : PageObject sle.object n := hsle.object
    obtain ⟨v', hupdate, h'⟩ := h.updateObject hs (by rw [hN]; rfl) hNout hobj.clearPrev
    refine ⟨v', _, _, ?_, Set.subset_insert _ _, h', ?_, hunlink.2 N n hlink hN⟩
    · rw [relinkNeighbour, setLink, hsle.key_eq, bind_of_ok (attempt_of_ok hupdate)]
      rfl
    · rw [update_of_ne (ne_of_lt hlt), hC]

/-- Between two neighbours the page goes, and then the merge fails. -/
theorem Stores.dropPage_between {P N : Uint256} (hprev : c.prev = some P) (hnext : c.next = some N)
    (hprevious : LinkFound ctx owner D previous (some P) out)
    (hnextFound : LinkFound ctx owner D next (some N) out) :
    ∃ v', Nft.dropPage ctx owner current previous next v = .ok .tefBadLedger v' := by
  obtain ⟨prev, p, rfl, hP, hprevPage, hPout⟩ := hprevious
  obtain ⟨nextPage, n, rfl, hN, hnextPage, hNout⟩ := hnextFound
  obtain ⟨-, -, hPC⟩ := hwf.linked.exists_prev hC hprev
  obtain ⟨-, -, hCN⟩ := hwf.linked.exists_next hC hnext
  have hpobject : PageObject prev.object p := hprevPage.object
  have hnobject : PageObject nextPage.object n := hnextPage.object
  obtain ⟨v₁, hupdate₁, h₁⟩ := h.updateObject hs (by rw [hP]; rfl) hPout (hpobject.linkNext N)
  obtain ⟨v₂, hupdate₂, h₂⟩ := h₁.updateObject hs
    (by rw [update_of_ne (ne_of_gt (lt_trans hPC hCN)), hN]; rfl)
    (Set.mem_insert_of_mem _ hNout) (hnobject.linkPrev P)
  obtain ⟨v₃, herase, -⟩ := h₂.erase hs
    (by rw [update_of_ne (ne_of_lt hCN), update_of_ne (ne_of_gt hPC), hC]; rfl)
    (Set.mem_insert_of_mem _ (Set.mem_insert_of_mem _ hCout)) hcurrent.key_eq
  have hpnext : p.next = some C := (hwf.linked.next_eq_iff hP hC).mpr hprev
  have hbroken : p.next ≠ some N := by
    rw [hpnext]
    exact fun heq => ne_of_lt hCN (Option.some.inj heq)
  have hmerge := nftMergePages_broken (v := v₃) hprevPage hnextPage (lt_trans hPC hCN) hbroken
  refine ⟨v₃, ?_⟩
  have hlink₁ : Nft.relinkNeighbour ctx (some prev) sfNextPageMin (some nextPage) v =
      .ok true v₁ := by
    rw [Nft.relinkNeighbour, setLink, hprevPage.key_eq, hnextPage.key_eq,
      bind_of_ok (attempt_of_ok hupdate₁)]
    rfl
  have hlink₂ : Nft.relinkNeighbour ctx (some nextPage) sfPreviousPageMin (some prev) v₁ =
      .ok true v₂ := by
    rw [Nft.relinkNeighbour, setLink, hnextPage.key_eq, hprevPage.key_eq,
      bind_of_ok (attempt_of_ok hupdate₂)]
    rfl
  have hneighbours : mergeNeighbours ctx (some prev) (some nextPage) v₃ = .ok none v₃ := by
    rw [mergeNeighbours, bind_of_ok (attempt_of_conversion hmerge)]
    rfl
  rw [Nft.dropPage, bind_of_ok hlink₁]
  simp only [if_true]
  rw [bind_of_ok hlink₂]
  simp only [if_true]
  rw [bind_of_ok (attempt_of_ok herase)]
  simp only
  rw [bind_of_ok hneighbours]
  rfl

variable (hcount : pageCount D ≤ count) (hlt : count < 2 ^ 32)

include hcount hlt

theorem Stores.shrinkPage (htoken : token ∈ c.value)
    (hkept : keptTokens c.value token.nftokenId ≠ [])
    (hprevious : LinkFound ctx owner D previous c.prev out)
    (hnext : LinkFound ctx owner D next c.next out) :
    ∃ v' D' count' out', shrinkPage ctx owner current (keptTokens c.value token.nftokenId)
        previous next v = .ok .tesSuccess v' ∧
      Stores ctx owner base v' D' count' out' ∧ Removed owner D count token D' count' := by
  have hobj : PageObject current.object c := hcurrent.object
  obtain ⟨updated, hfrom, hupdated⟩ := fromStobject_page hs C
    (hobj.setTokens (keptTokens c.value token.nftokenId))
  obtain ⟨v₁, hupdate, h₁⟩ := h.update hs (by rw [hC]; rfl) hCout hupdated
  have hremoved := hwf.shrink hC htoken hkept count
  have hsub := Set.subset_insert C out
  have hprev : ∀ j, c.prev = some j → j ≠ C := by
    rintro j hj rfl
    obtain ⟨-, -, hlt⟩ := hwf.linked.exists_prev hC hj
    exact lt_irrefl j hlt
  have hnextC : ∀ j, c.next = some j → C < j := by
    intro j hj
    obtain ⟨-, -, hlt⟩ := hwf.linked.exists_next hC hj
    exact hlt
  obtain ⟨page, delta₁, v₂, D₂, c₂, out₂, hmerge₁, hsub₂, h₂, hrepaged₁, hC₂, hc₂, hpage, hdelta₁,
    hframe⟩ := h₁.mergePrevious hs hremoved.wellFormed (Function.update_self ..) hupdated
      (Set.mem_insert _ _)
      ((hprevious.mono hsub).congr fun j hj => update_of_ne (hprev j hj) ..)
  have hnext₂ : LinkFound ctx owner D₂ next c₂.next out₂ := by
    rw [hc₂]
    refine (hnext.mono (hsub.trans hsub₂)).congr fun j hj => ?_
    rw [hframe j (hnextC j hj), update_of_ne (ne_of_gt (hnextC j hj))]
  obtain ⟨delta₂, v₃, D₃, out₃, hmerge₂, h₃, hrepaged₂, hdelta₂⟩ :=
    h₂.mergeNext hs hrepaged₁.wellFormed hC₂ hpage (hsub₂ (Set.mem_insert _ _)) hnext₂
  have hrepaged := hrepaged₁.trans hrepaged₂
  have hpages := hrepaged.pageCount_eq
  rw [WellFormed.pageCount_update hC] at hpages
  obtain ⟨v₄, count₄, hsettle, h₄, hcount₄⟩ := h₃.settleOwner hs
    (show 0 ≤ count + (delta₁ + delta₂) by omega) (by omega)
  refine ⟨v₄, D₃, count₄, out₃, ?_, h₄, hremoved.repaged hrepaged hcount₄⟩
  rw [Nft.shrinkPage, hcurrent.key_eq, hfrom]
  change ((attempt (ApplyView.update updated)) >>= _) v = _
  rw [bind_of_ok (attempt_of_ok hupdate)]
  simp only
  rw [bind_of_ok hmerge₁]
  simp only
  rw [bind_of_ok hmerge₂]
  exact hsettle

theorem Stores.refillLast (hvalue : c.value = [token]) (hcprev : c.prev = some F)
    (hF : D F = some f) (hprev : IsPage ctx owner prev F f) (hFout : F ∈ out) :
    ∃ v' D' count' out', refillLast ctx owner current prev v = .ok .tesSuccess v' ∧
      Stores ctx owner base v' D' count' out' ∧ Removed owner D count token D' count' := by
  have hobj : PageObject current.object c := hcurrent.object
  have hfobject : PageObject prev.object f := hprev.object
  have hnext : f.next = some C := (hwf.linked.next_eq_iff hF hC).mpr hcprev
  obtain ⟨-, -, hFC⟩ := hwf.linked.exists_next hF hnext
  have hfprev : ∀ j, f.prev = some j → ∃ y, D j = some y := by
    intro j hj
    obtain ⟨y, hy, -⟩ := hwf.linked.exists_prev hF hj
    exact ⟨y, hy⟩
  obtain ⟨object, v₁, out₁, hrelink, hsub, hobj', h₁⟩ :=
    h.relinkLast hs hprev (hobj.setTokens f.value) (C := C) hfprev
  have hpages := hwf.pageCount_unlink hF
  obtain ⟨v₂, count₂, hadjust, h₂, hcount₂⟩ := h₁.adjustOwner_eq hs
    (show 0 ≤ (count : ℤ) + (-1) by omega) (by omega)
  have hC₁ := (hwf.linked.setNext_of_le hF hFC.le C).trans hC
  have hF₁ := (hwf.linked.setNext_of_le hF le_rfl C).trans hF
  obtain ⟨v₃, hupdate, h₃⟩ := h₂.updateObject hs (by rw [hC₁]; rfl) (hsub hCout) hobj'
  obtain ⟨v₄, herase, h₄⟩ := h₃.erase hs
    (by rw [update_of_ne (ne_of_lt hFC), hF₁]; rfl)
    (Set.mem_insert_of_mem _ (hsub hFout)) hprev.key_eq
  rw [hwf.linked.unlink_eq_writes hF hnext] at h₄
  refine ⟨v₄, _, count₂, _, ?_, h₄, hwf.refill hC hvalue hcprev hF hcount₂⟩
  rw [Nft.refillLast, hfobject.getFieldArray, hcurrent.key_eq, bind_of_ok hrelink]
  simp only
  rw [bind_of_ok hadjust]
  simp only [if_true]
  rw [bind_of_ok (attempt_of_ok hupdate)]
  simp only
  rw [bind_of_ok (attempt_of_ok herase)]
  rfl

/-- Without a predecessor the page is unlinked from its successor and goes. -/
theorem Stores.dropPage (hvalue : c.value = [token]) (hprev : c.prev = none)
    (hnext : LinkFound ctx owner D next c.next out) :
    ∃ v' D' count' out', dropPage ctx owner current none next v = .ok .tesSuccess v' ∧
      Stores ctx owner base v' D' count' out' ∧ Removed owner D count token D' count' := by
  have hpages := hwf.pageCount_unlink hC
  obtain ⟨v₁, D₁, out₁, hrelink, hsub, h₁, hC₁, hunlink⟩ :=
    h.relinkNeighbour hs hwf hC hprev hnext
  obtain ⟨v₂, herase, h₂⟩ := h₁.erase hs (by rw [hC₁]; rfl) (hsub hCout) hcurrent.key_eq
  rw [hunlink] at h₂
  obtain ⟨v₃, count₃, hadjust, h₃, hcount₃⟩ := h₂.adjustOwner_eq hs
    (show 0 ≤ (count : ℤ) + (-1) by omega) (by omega)
  refine ⟨v₃, _, count₃, _, ?_, h₃, hwf.dropFirst hC hvalue hprev hcount₃⟩
  change (Nft.relinkNeighbour ctx next sfPreviousPageMin none >>= _) v = _
  rw [bind_of_ok hrelink]
  simp only [if_true]
  rw [bind_of_ok (attempt_of_ok herase)]
  change (Nft.adjustOwner ctx owner (-1) >>= _) v₂ = _
  rw [bind_of_ok hadjust]
  rfl

variable (hfix : ctx.fixNFTokenPageLinks = true) (htoken : token ∈ c.value)

include hfix htoken

/-- What becomes of the page once it is known what stays on it. -/
theorem Stores.removeFound (hprevious : LinkFound ctx owner D previous c.prev out)
    (hnext : LinkFound ctx owner D next c.next out) :
    (¬OnlyBetween c token → ∃ v' D' count' out',
      removeFound ctx owner current (keptTokens c.value token.nftokenId) previous next v =
        .ok .tesSuccess v' ∧
      Stores ctx owner base v' D' count' out' ∧ Removed owner D count token D' count') ∧
    (OnlyBetween c token → ∃ v',
      removeFound ctx owner current (keptTokens c.value token.nftokenId) previous next v =
        .ok .tefBadLedger v') := by
  by_cases hkept : keptTokens c.value token.nftokenId = []
  · have hvalue := (keptTokens_eq_nil hwf hC htoken).mp hkept
    have hrefill := refillsLast_iff hfix hwf hC hcurrent
    rw [hkept]
    rcases hprev : c.prev with _ | P
    · -- the first page
      rw [hprev] at hprevious
      obtain rfl : previous = none := hprevious
      refine ⟨fun _ => h.dropPage hs hwf hC hcurrent hCout hcount hlt hvalue hprev hnext, ?_⟩
      rintro ⟨-, hsome, -⟩
      rw [hprev] at hsome
      cases hsome
    · rw [hprev] at hprevious
      rcases hlink : c.next with _ | N
      · -- the last page
        obtain ⟨prev, p, rfl, hP, hprevPage, hPout⟩ := hprevious
        refine ⟨fun _ => ?_, ?_⟩
        · rw [Nft.removeFound]
          simp only [List.isEmpty_nil, Bool.not_true, Bool.false_eq_true, if_false,
            hrefill.mpr hlink, if_true]
          exact h.refillLast hs hwf hC hcurrent hCout hcount hlt hvalue hprev hP hprevPage hPout
        · rintro ⟨-, -, hsome⟩
          rw [hlink] at hsome
          cases hsome
      · rw [hlink] at hnext
        refine ⟨fun hbetween => absurd ⟨hvalue, by rw [hprev]; rfl, by rw [hlink]; rfl⟩ hbetween,
          fun _ => ?_⟩
        have hnot : refillsLast ctx current = false := by
          rw [Bool.eq_false_iff, ne_eq, hrefill, hlink]
          simp
        obtain ⟨v', hdrop⟩ := h.dropPage_between hs hwf hC hcurrent hCout hprev hlink hprevious
          hnext
        refine ⟨v', ?_⟩
        obtain ⟨prev, -, rfl, -⟩ := hprevious
        rw [Nft.removeFound]
        simp only [List.isEmpty_nil, Bool.not_true, Bool.false_eq_true, if_false, hnot]
        exact hdrop
  · have hnonempty : (keptTokens c.value token.nftokenId).isEmpty = false :=
      List.isEmpty_eq_false_iff.mpr hkept
    refine ⟨fun _ => ?_, fun hbetween => ?_⟩
    · unfold Nft.removeFound
      simp only [hnonempty, Bool.not_false, if_true]
      exact h.shrinkPage hs hwf hC hcurrent hCout hcount hlt htoken hkept hprevious hnext
    · exact absurd ((keptTokens_eq_nil hwf hC htoken).mpr hbetween.1) hkept

theorem Stores.nftRemoveTokenFromPage :
    (¬OnlyBetween c token → ∃ v' D' count' out',
      nftRemoveTokenFromPage ctx owner token.nftokenId current v = .ok .tesSuccess v' ∧
      Stores ctx owner base v' D' count' out' ∧ Removed owner D count token D' count') ∧
    (OnlyBetween c token → ∃ v',
      nftRemoveTokenFromPage ctx owner token.nftokenId current v = .ok .tefBadLedger v') := by
  have hobj : PageObject current.object c := hcurrent.object
  obtain ⟨previous, v₁, out₁, hlink₁, hsub₁, hprevious, h₁⟩ := h.nftPageLink hs hobj.hasPrev
    fun j hj => by
      obtain ⟨y, hy, -⟩ := hwf.linked.exists_prev hC hj
      exact ⟨y, hy⟩
  obtain ⟨next, v₂, out₂, hlink₂, hsub₂, hnext, h₂⟩ := h₁.nftPageLink hs hobj.hasNext
    fun j hj => by
      obtain ⟨y, hy, -⟩ := hwf.linked.exists_next hC hj
      exact ⟨y, hy⟩
  have hprevious₂ := hprevious.mono hsub₂
  have hout := hsub₂ (hsub₁ hCout)
  have hany : (c.value.any fun t => decide (t.nftokenId = token.nftokenId)) = true :=
    List.any_eq_true.mpr ⟨token, htoken, decide_eq_true rfl⟩
  have hstart : Nft.nftRemoveTokenFromPage ctx owner token.nftokenId current v =
      Nft.removeFound ctx owner current (keptTokens c.value token.nftokenId) previous next v₂ := by
    rw [Nft.nftRemoveTokenFromPage, hobj.getFieldArray]
    simp only [hany, if_true]
    rw [bind_of_ok (attempt_of_ok hlink₁)]
    simp only
    rw [bind_of_ok (attempt_of_ok hlink₂)]
    rfl
  rw [hstart]
  exact h₂.removeFound hs hwf hC hcurrent hout hcount hlt hfix htoken hprevious₂ hnext

end

variable {C : Uint256} {c : Page} {current : STLedgerEntry} {token : NFToken}

/-- Removing a token from the page that it is found on works, with the tokens, the pages and
the owner count as they should be, unless it is the only token of a page between two
others. -/
theorem nftRemoveTokenFromPage_removes_iff (hs : Setting ctx owner)
    (hfix : ctx.fixNFTokenPageLinks = true) (h : Stores ctx owner base v D count out)
    (hwf : WellFormed owner D) (hcount : pageCount D ≤ count) (hlt : count < 2 ^ 32)
    (hC : D C = some c) (htoken : token ∈ c.value) :
    ∃ sle v₁ ter v₂,
      nftFindTokenAndPage owner token.nftokenId v = .ok (some (token, sle)) v₁ ∧
      nftRemoveTokenFromPage ctx owner token.nftokenId sle v₁ = .ok ter v₂ ∧
      ((ter = .tesSuccess ∧ ∃ D' count' out', Stores ctx owner base v₂ D' count' out' ∧
        Removed owner D count token D' count') ↔ ¬OnlyBetween c token) ∧
      (OnlyBetween c token → ter = .tefBadLedger) := by
  obtain ⟨sle, v₁, hfind, hsle, h₁⟩ := h.nftFindTokenAndPage hs hwf hC htoken
  obtain ⟨hworks, hfails⟩ := h₁.nftRemoveTokenFromPage hs hwf hC hsle
    (Set.mem_insert _ _) hcount hlt hfix htoken
  by_cases hbetween : OnlyBetween c token
  · obtain ⟨v₂, hremove⟩ := hfails hbetween
    refine ⟨sle, v₁, _, v₂, hfind, hremove, ⟨?_, absurd hbetween⟩, fun _ => rfl⟩
    rintro ⟨hter, -⟩
    exact absurd hter (by decide)
  · obtain ⟨v₂, D', count', out', hremove, h₂, hremoved⟩ := hworks hbetween
    exact ⟨sle, v₁, _, v₂, hfind, hremove,
      ⟨fun _ => hbetween, fun _ => ⟨rfl, D', count', out', h₂, hremoved⟩⟩,
      fun habsurd => absurd habsurd hbetween⟩

def sampleToken (n : ℕ) : NFToken := ⟨BaseUInt.ofNat n, none⟩

/-- Three pages with one token each. -/
def sampleThree : List (Uint256 × Page) :=
  [(BaseUInt.ofNat 2, ⟨[sampleToken 1], some (BaseUInt.ofNat 3), none⟩),
    (BaseUInt.ofNat 3,
      ⟨[sampleToken 2], some (nftOwnerMax sampleOwner), some (BaseUInt.ofNat 2)⟩),
    (nftOwnerMax sampleOwner, ⟨[sampleToken 3], none, some (BaseUInt.ofNat 3)⟩)]

theorem mem_support_samplePages (pages : List (Uint256 × Page)) (h : (pages.map Prod.fst).Nodup)
    (key : Uint256) : key ∈ support (samplePages pages) ↔ key ∈ pages.map Prod.fst := by
  simp only [support, Set.mem_ofPred_eq, Option.isSome_iff_exists, samplePages_eq_some h,
    List.mem_map, Prod.exists, exists_and_right, exists_eq_right]

theorem sample_wellFormed {pages : List (Uint256 × Page)}
    (hchain : LinkedOrder.Chain (samplePages pages) none (pages.map Prod.fst))
    (hsort : (pages.map Prod.fst).Pairwise (· < ·))
    (hlast : (samplePages pages (nftOwnerMax sampleOwner)).isSome = true)
    (hpages : ∀ item ∈ pages, item.1.toNat / 256 ^ 12 = sampleOwner.toNat ∧
      item.2.value ≠ [] ∧ item.2.value.length ≤ dirMaxTokensPerPage ∧
      (item.2.value.Pairwise fun left right =>
        nftCompareTokens left.nftokenId right.nftokenId = .lt) ∧
      (∀ token ∈ item.2.value, low token.nftokenId < low item.1) ∧
      ∀ token ∈ item.2.value, ∀ prev ∈ item.2.prev, low prev ≤ low token.nftokenId) :
    WellFormed sampleOwner (samplePages pages) := by
  have hnodup : (pages.map Prod.fst).Nodup := hsort.imp fun h => h.ne
  have hmem := fun key page => (samplePages_eq_some hnodup key page).mp
  have hsub : ∀ key ∈ support (samplePages pages), key ∈ pages.map Prod.fst :=
    fun key => (mem_support_samplePages pages hnodup key).mp
  refine ⟨(pages.map Prod.fst).finite_toSet.subset hsub,
    fun key page hpage => (hpages _ (hmem key page hpage)).1,
    (hchain.linked_iff hsort fun hnil => ?_).mpr hsub, fun _ _ _ => hlast,
    fun key page hpage => ?_⟩
  · rw [List.map_eq_nil_iff.mp hnil] at hlast
    cases hlast
  · obtain ⟨-, hne, hlen, hsort, hbelow, habove⟩ := hpages _ (hmem key page hpage)
    exact ⟨hne, hlen, hsort, hbelow, habove⟩

theorem sampleThree_wellFormed : WellFormed sampleOwner (samplePages sampleThree) :=
  sample_wellFormed ⟨⟨_, rfl, rfl, rfl⟩, ⟨_, rfl, rfl, rfl⟩, ⟨_, rfl, rfl, rfl⟩, trivial⟩
    (by decide) rfl (by decide)

theorem sampleThree_pageCount : pageCount (samplePages sampleThree) ≤ 3 := by
  have hsub : support (samplePages sampleThree) ⊆ (sampleThree.map Prod.fst).toFinset :=
    fun key hkey => List.mem_toFinset.mpr
      ((mem_support_samplePages sampleThree (by decide) key).mp hkey)
  refine (Set.ncard_le_ncard hsub (Finset.finite_toSet _)).trans ?_
  rw [Set.ncard_coe_finset]
  exact List.toFinset_card_le _

theorem sampleThree_stores : Stores sampleContext sampleOwner (sampleLedger 3 sampleThree)
    (Sandbox.new (BaseView.ledger (sampleLedger 3 sampleThree)) false)
    (samplePages sampleThree) 3 ∅ := by
  refine sample_stores 3 sampleThree ?_
  change ∀ item ∈ sampleThree, item.1.toNat / 256 ^ 12 = sampleOwner.toNat
  decide

/-- Of three pages with one token each the first can lose its token. -/
theorem nftRemoveTokenFromPage_removes_first :
    ∃ sle, ∃ v₁ v₂ : Sandbox BaseView,
      nftFindTokenAndPage sampleOwner (sampleToken 1).nftokenId
        (Sandbox.new (BaseView.ledger (sampleLedger 3 sampleThree)) false) =
          .ok (some (sampleToken 1, sle)) v₁ ∧
      nftRemoveTokenFromPage sampleContext sampleOwner (sampleToken 1).nftokenId sle v₁ =
        .ok .tesSuccess v₂ := by
  have hpage : samplePages sampleThree (BaseUInt.ofNat 2) =
      some ⟨[sampleToken 1], some (BaseUInt.ofNat 3), none⟩ := rfl
  have htoken : sampleToken 1 ∈ [sampleToken 1] := List.mem_singleton.mpr rfl
  obtain ⟨sle, v₁, ter, v₂, hfind, hremove, hiff, -⟩ := nftRemoveTokenFromPage_removes_iff
    sample_setting rfl sampleThree_stores sampleThree_wellFormed sampleThree_pageCount (by decide)
    hpage htoken
  have hnot : ¬OnlyBetween ⟨[sampleToken 1], some (BaseUInt.ofNat 3), none⟩ (sampleToken 1) := by
    rintro ⟨-, hprev, -⟩
    cases hprev
  obtain ⟨rfl, -⟩ := hiff.mpr hnot
  exact ⟨sle, v₁, v₂, hfind, hremove⟩

theorem nftRemoveTokenFromPage_between_fails :
    WellFormed sampleOwner (samplePages sampleThree) ∧
    Stores sampleContext sampleOwner (sampleLedger 3 sampleThree)
      (Sandbox.new (BaseView.ledger (sampleLedger 3 sampleThree)) false)
      (samplePages sampleThree) 3 ∅ ∧
    sampleToken 2 ∈ tokensOf (samplePages sampleThree) ∧
    ∃ sle, ∃ v₁ v₂ : Sandbox BaseView,
      nftFindTokenAndPage sampleOwner (sampleToken 2).nftokenId
        (Sandbox.new (BaseView.ledger (sampleLedger 3 sampleThree)) false) =
          .ok (some (sampleToken 2, sle)) v₁ ∧
      nftRemoveTokenFromPage sampleContext sampleOwner (sampleToken 2).nftokenId sle v₁ =
        .ok .tefBadLedger v₂ := by
  have hpage : samplePages sampleThree (BaseUInt.ofNat 3) =
      some ⟨[sampleToken 2], some (nftOwnerMax sampleOwner), some (BaseUInt.ofNat 2)⟩ := rfl
  have htoken : sampleToken 2 ∈ [sampleToken 2] := List.mem_singleton.mpr rfl
  obtain ⟨sle, v₁, hfind, hsle, h₁⟩ := sampleThree_stores.nftFindTokenAndPage sample_setting
    sampleThree_wellFormed hpage htoken
  obtain ⟨-, hfails⟩ := h₁.nftRemoveTokenFromPage sample_setting sampleThree_wellFormed hpage hsle
    (Set.mem_insert _ _) sampleThree_pageCount (by decide) rfl htoken
  obtain ⟨v₂, hremove⟩ := hfails ⟨rfl, rfl, rfl⟩
  exact ⟨sampleThree_wellFormed, sampleThree_stores, ⟨_, _, hpage, htoken⟩, sle, v₁, v₂, hfind,
    hremove⟩

end Quaxar.Nft
