import Quaxar.Nft.RemoveToken

/-!
# Repairing the links of NFToken pages

`repair_nftoken_directory_links` visits the pages of an owner in key order and writes the links
between each page and the next. It does not read the links that it repairs. From a page it asks for
the successor of the key after that of the page, so that it passes over a page under that very key.
-/

namespace Quaxar.Nft

open Views
open Protocol (AccountID)
open LinkedOrder (Linked Chain Joined Relinks support mem_support exists_of_mem_support)
open Function (update update_eq_self update_of_ne update_self)
open EStateM (bind_of_ok)

variable {V : Type} [ApplyView V] (ctx : Context)

/-- The text of an account in a message: its bytes in upper case hexadecimal. -/
def displayAccount (owner : AccountID) : String :=
  String.ofList (owner.data.flatMap fun byte =>
    [(Nat.digitChar (byte.toNat / 16)).toUpper, (Nat.digitChar (byte.toNat % 16)).toUpper])

def setPageLink (page : STLedgerEntry) (field : SField) (key : Uint256) : STLedgerEntry :=
  { page with object := page.object.setField field (.uint256 key) }

def clearPageLink (page : STLedgerEntry) (field : SField) : STLedgerEntry :=
  { page with object := makeFieldAbsent page.object field }

/-- Point a page to `key`, unless it does so already. -/
def repairLink (page : STLedgerEntry) (field : SField) (key : Uint256) (didRepair : Bool) :
    EStateM ViewError V (STLedgerEntry × Bool) :=
  if !page.object.isFieldPresent field || decide (page.object.getFieldH256 field ≠ key) then do
    let updated := setPageLink page field key
    ApplyView.update updated
    pure (updated, true)
  else pure (page, didRepair)

/-- Link two pages in both directions. -/
def linkPages (page next : STLedgerEntry) (didRepair : Bool) :
    EStateM ViewError V (STLedgerEntry × STLedgerEntry × Bool) := do
  let (page, didRepair) ← repairLink page sfNextPageMin next.key didRepair
  let (next, didRepair) ← repairLink next sfPreviousPageMin page.key didRepair
  pure (page, next, didRepair)

/-- Take a link from a page that should not have it. -/
def dropLink (page : STLedgerEntry) (field : SField) (didRepair : Bool) :
    EStateM ViewError V (STLedgerEntry × Bool) :=
  if page.object.isFieldPresent field then do
    let updated := clearPageLink page field
    ApplyView.update updated
    pure (updated, true)
  else pure (page, didRepair)

/-- A page without links. -/
def clearLinks (page : STLedgerEntry) : STLedgerEntry :=
  let updated :=
    if page.object.isFieldPresent sfPreviousPageMin then clearPageLink page sfPreviousPageMin
    else page
  if page.object.isFieldPresent sfNextPageMin then clearPageLink updated sfNextPageMin else updated

/-- The only page should have no links. -/
def repairSingle (page : STLedgerEntry) : EStateM ViewError V Bool :=
  if page.object.isFieldPresent sfNextPageMin ||
      page.object.isFieldPresent sfPreviousPageMin then do
    ApplyView.update (clearLinks page)
    pure true
  else pure false

/-- The variables of the loop when it ends. `nextPage` is the last page if it was found. -/
structure Walked where
  page : STLedgerEntry
  nextPage : Option STLedgerEntry
  didRepair : Bool

/-- The loop over the pages, for a number of rounds. -/
def walkPages (owner : AccountID) : ℕ → STLedgerEntry → Bool → EStateM ViewError V (Option Walked)
  | 0, _, _ => pure none
  | rounds + 1, page, didRepair => do
    let last := nftOwnerMax owner
    let nextKey ← viewSucc page.key.next last.next
    match ← peekPage (nextKey.getD last) with
    | none => pure (some ⟨page, none, didRepair⟩)
    | some next =>
      let (page, next, didRepair) ← linkPages page next didRepair
      if next.key = last then pure (some ⟨page, some next, didRepair⟩)
      else walkPages owner rounds next didRepair

/-- Link the predecessor of `page`, if there is one, to the last page, and that page, whose object
is given, back to it. -/
def linkCanonical (owner : AccountID) (page : STLedgerEntry) (object : STObject) :
    EStateM ViewError V STObject :=
  if page.object.isFieldPresent sfPreviousPageMin then do
    let previousKey := page.object.getFieldH256 sfPreviousPageMin
    let text := displayAccount owner
    match ← peekPage previousKey with
    | none => throw (.conversion
      s!"NFTokenPage directory for {text} cannot be repaired: missing previous page")
    | some previous =>
      ApplyView.update (setPageLink previous sfNextPageMin (nftOwnerMax owner))
      pure (object.setField sfPreviousPageMin (.uint256 previousKey))
  else pure object

/-- Move the tokens of the page with the greatest key to a new page with the last key. -/
def moveLast (owner : AccountID) (page : STLedgerEntry) : EStateM ViewError V Bool := do
  let canonicalLast ← EStateM.ofExcept
    (STLedgerEntry.new ctx.formats ⟨.nftokenPage, nftOwnerMax owner⟩)
  let tokens := page.object.getFieldArray sfNFTokens
  let object ← linkCanonical owner page
    (canonicalLast.object.setStbase sfNFTokens (.nftokens tokens))
  ApplyView.erase page
  ApplyView.insert { canonicalLast with object }
  pure true

def finishRepair (owner : AccountID) (walked : Walked) : EStateM ViewError V Bool :=
  match walked.nextPage with
  | none => moveLast ctx owner walked.page
  | some lastPage => do
    let (_, didRepair) ← dropLink lastPage sfNextPageMin walked.didRepair
    pure didRepair

/-- The first page is not the last one. -/
def repairFrom (rounds : ℕ) (owner : AccountID) (page : STLedgerEntry) :
    EStateM ViewError V (Option Bool) := do
  let (page, didRepair) ← dropLink page sfPreviousPageMin false
  match ← walkPages owner rounds page didRepair with
  | none => pure none
  | some walked => do
    let didRepair ← finishRepair ctx owner walked
    pure (some didRepair)

/-- `rounds` bounds the rounds of the loop; there is no result if they do not suffice. -/
def repairNftokenDirectoryLinks (rounds : ℕ) (owner : AccountID) :
    EStateM ViewError V (Option Bool) := do
  let last := nftOwnerMax owner
  let succKey ← viewSucc (nftOwnerMin owner) last.next
  let pageKey := succKey.getD last
  match ← peekPage pageKey with
  | none => pure (some false)
  | some page =>
    if pageKey = last then do
      let didRepair ← repairSingle page
      pure (some didRepair)
    else repairFrom ctx rounds owner page

variable {owner : AccountID} {j k : Uint256}

theorem ownerMin_mem (owner : AccountID) : nftOwnerMin owner ∈ ownerKeys owner :=
  mem_ownerKeys_of_toNat (n := 0) (by rw [toNat_ownerMin, add_zero]) (by positivity)

theorem low_ownerMin (owner : AccountID) : low (nftOwnerMin owner) = 0 := by
  rw [low, toNat_ownerMin, Nat.mul_mod_left]

theorem ownerMin_le (hk : k ∈ ownerKeys owner) : nftOwnerMin owner ≤ k := by
  rw [le_iff_low_le (ownerMin_mem owner) hk, low_ownerMin]
  exact Nat.zero_le _

theorem ownerMin_lt_ownerMax (owner : AccountID) : nftOwnerMin owner < nftOwnerMax owner := by
  rw [lt_iff_low_lt (ownerMin_mem owner) (ownerMax_mem owner), low_ownerMin, low_ownerMax]
  norm_num

section

variable (hk : k ∈ ownerKeys owner) (hne : k ≠ nftOwnerMax owner)

include hk hne

/-- Below the last key, the next one is the owner's too. -/
theorem toNat_next_of_mem :
    k.next.toNat = owner.toNat * 256 ^ 12 + (low k + 1) ∧ low k + 1 < 256 ^ 12 := by
  have hlt := lt_of_le_of_ne (le_ownerMax hk) hne
  rw [lt_iff_low_lt hk (ownerMax_mem owner), low_ownerMax] at hlt
  have howner := owner_toNat_lt owner
  have hbound : k.toNat + 1 < 256 ^ 32 := by
    rw [toNat_of_mem hk]
    omega
  refine ⟨?_, by omega⟩
  rw [BaseUInt.toNat_next hbound, toNat_of_mem hk]
  omega

theorem next_mem_ownerKeys : k.next ∈ ownerKeys owner := by
  obtain ⟨hnext, hlt⟩ := toNat_next_of_mem hk hne
  exact mem_ownerKeys_of_toNat hnext hlt

theorem lt_next : k < k.next := by
  rw [BaseUInt.lt_iff_toNat_lt, (toNat_next_of_mem hk hne).1, toNat_of_mem hk]
  omega

theorem next_le_of_lt (hlt : k < j) : k.next ≤ j := by
  rw [BaseUInt.lt_iff_toNat_lt, toNat_of_mem hk] at hlt
  rw [BaseUInt.le_iff_toNat_le, (toNat_next_of_mem hk hne).1]
  omega

end

theorem ownerMax_next_not_mem (howner : HasNext owner) :
    (nftOwnerMax owner).next ∉ ownerKeys owner :=
  fun hmem => lt_irrefl _ (lt_ownerMax_next howner hmem)

/-- For the account with all bits set there are no keys below the bound of the searches. -/
theorem not_lt_ownerMax_next (howner : ¬HasNext owner) (k : Uint256) :
    ¬k < (nftOwnerMax owner).next := by
  have hle : 256 ^ 20 ≤ owner.toNat + 1 := not_lt.mp howner
  have hlt := owner_toNat_lt owner
  have hzero : (nftOwnerMax owner).next.toNat = 0 := by
    rw [BaseUInt.next, BaseUInt.toNat_ofNat, toNat_ownerMax]
    obtain heq : owner.toNat = 256 ^ 20 - 1 := by omega
    rw [heq]
    norm_num
  rw [BaseUInt.lt_iff_toNat_lt, hzero]
  exact Nat.not_lt_zero _

section Walks

open OrderedMap (IsNext)

/-- The keys that the loop visits from `key` on, if `S` are the keys of the pages. -/
inductive Walk (owner : AccountID) (S : Set Uint256) : Uint256 → List Uint256 → Prop
  | stop {key : Uint256} : IsNext S key.next none → nftOwnerMax owner ∉ S → Walk owner S key [key]
  | last {key : Uint256} {r : Option Uint256} : IsNext S key.next r →
      r.getD (nftOwnerMax owner) = nftOwnerMax owner → nftOwnerMax owner ∈ S →
      Walk owner S key [key, nftOwnerMax owner]
  | step {key next : Uint256} {keys : List Uint256} : IsNext S key.next (some next) →
      next ≠ nftOwnerMax owner → Walk owner S next keys → Walk owner S key (key :: keys)

variable {S : Set Uint256} {key : Uint256} {keys : List Uint256}

theorem exists_walk (hS : S ⊆ ownerKeys owner)
    (hnext : ∀ key ∈ ownerKeys owner, ∃ r, IsNext S key r)
    (hkey : key ∈ ownerKeys owner) (hne : key ≠ nftOwnerMax owner) :
    ∃ keys, Walk owner S key keys := by
  -- the keys grow towards the last one
  induction hgap : 256 ^ 12 - low key using Nat.strong_induction_on generalizing key with
  | h gap ih =>
    obtain ⟨r, hr⟩ := hnext key.next (next_mem_ownerKeys hkey hne)
    cases r with
    | none =>
      by_cases hlast : nftOwnerMax owner ∈ S
      · exact ⟨_, .last hr rfl hlast⟩
      · exact ⟨_, .stop hr hlast⟩
    | some n =>
      by_cases hn : n = nftOwnerMax owner
      · exact ⟨_, .last hr hn (hn ▸ hr.1.1)⟩
      · have hmem := hS hr.1.1
        have hlt := (lt_iff_low_lt hkey hmem).mp ((lt_next hkey hne).trans hr.1.2)
        have hbound := low_lt n
        obtain ⟨keys, hwalk⟩ := ih (256 ^ 12 - low n) (by omega) hmem hn rfl
        exact ⟨_, .step hr hn hwalk⟩

namespace Walk

section

variable (h : Walk owner S key keys)

include h

theorem exists_tail : ∃ tail, keys = key :: tail := by
  cases h with
  | stop => exact ⟨_, rfl⟩
  | last => exact ⟨_, rfl⟩
  | step => exact ⟨_, rfl⟩

theorem mem (hkey : key ∈ S) : ∀ k ∈ keys, k ∈ S := by
  induction h with
  | stop => simpa using hkey
  | last _ _ hlast => simpa using ⟨hkey, hlast⟩
  | step hr _ _ ih => exact List.forall_mem_cons.mpr ⟨hkey, ih hr.1.1⟩

theorem sorted (hS : S ⊆ ownerKeys owner) (hkey : key ∈ S)
    (hne : key ≠ nftOwnerMax owner) : keys.Pairwise (· < ·) := by
  induction h with
  | stop => exact List.pairwise_singleton _ _
  | last =>
    have hlt := lt_of_le_of_ne (le_ownerMax (hS hkey)) hne
    simpa using hlt
  | @step key next keys hr hn hwalk ih =>
    have hsort := ih hr.1.1 hn
    refine List.pairwise_cons.mpr ⟨fun k hk => ?_, hsort⟩
    have hlt := (lt_next (hS hkey) hne).trans hr.1.2
    obtain ⟨tail, rfl⟩ := hwalk.exists_tail
    rcases List.mem_cons.mp hk with rfl | hk
    · exact hlt
    · exact hlt.trans ((List.pairwise_cons.mp hsort).1 k hk)

/-- The walk ends at the last key if there is a page. -/
theorem exists_last :
    ∃ pre w, keys = pre ++ [w] ∧ (nftOwnerMax owner ∈ S → w = nftOwnerMax owner) := by
  induction h with
  | stop _ hlast => exact ⟨[], _, rfl, fun h => absurd h hlast⟩
  | @last key => exact ⟨[key], _, rfl, fun _ => rfl⟩
  | @step key _ _ _ _ _ ih =>
    obtain ⟨pre, w, rfl, hw⟩ := ih
    exact ⟨key :: pre, w, rfl, hw⟩

end

/-- The walk visits all pages unless one of them is under the key that comes right after another
one, and is not the last. -/
theorem covers_iff (h : Walk owner S key keys) (hS : S ⊆ ownerKeys owner) (hkey : key ∈ S)
    (hne : key ≠ nftOwnerMax owner) (howner : HasNext owner) :
    (∀ k ∈ S, key ≤ k → k ∈ keys) ↔
      ∀ k ∈ S, key ≤ k → k.next ∈ S → k.next = nftOwnerMax owner := by
  -- what there is from a page on: the page, what is under the next key, and what comes after
  have hsplit : ∀ {key}, key ∈ S → key ≠ nftOwnerMax owner → ∀ k ∈ S, key ≤ k →
      k = key ∨ k = key.next ∨ key.next < k := by
    intro key hkey hne k _ hle
    rcases hle.eq_or_lt with rfl | hlt
    · exact .inl rfl
    · rcases (next_le_of_lt (hS hkey) hne hlt).eq_or_lt with heq | hlt
      · exact .inr (.inl heq.symm)
      · exact .inr (.inr hlt)
  have hlast : ∀ k ∈ S, k.next ∈ S → k ≠ nftOwnerMax owner := by
    rintro k hk hnext rfl
    exact ownerMax_next_not_mem howner (hS hnext)
  induction h with
  | @stop key hr hno =>
    constructor
    · intro hall k hk hle hnext
      obtain rfl := List.mem_singleton.mp (hall k hk hle)
      have hmem := hall k.next hnext (lt_next (hS hk) hne).le
      rw [List.mem_singleton] at hmem
      exact absurd hmem (lt_next (hS hk) hne).ne'
    · intro hspaced k hk hle
      rcases hsplit hkey hne k hk hle with rfl | rfl | hlt
      · exact List.mem_cons_self
      · exact absurd (hspaced key hkey le_rfl hk ▸ hk) hno
      · exact absurd hlt (hr k hk)
  | @last key r hr hgetD hmem =>
    constructor
    · intro hall k hk hle hnext
      have hk' := hall k hk hle
      rw [List.mem_pair] at hk'
      rcases hk' with rfl | rfl
      · have hmem' := hall k.next hnext (lt_next (hS hk) hne).le
        rw [List.mem_pair] at hmem'
        exact hmem'.resolve_left (lt_next (hS hk) hne).ne'
      · exact absurd rfl (hlast _ hk hnext)
    · intro hspaced k hk hle
      rw [List.mem_pair]
      rcases hsplit hkey hne k hk hle with rfl | rfl | hlt
      · exact .inl rfl
      · exact .inr (hspaced key hkey le_rfl hk)
      · refine .inr (le_antisymm (le_ownerMax (hS hk)) ?_)
        cases r with
        | none => exact absurd hlt (hr k hk)
        | some n =>
          obtain rfl : n = nftOwnerMax owner := hgetD
          exact hr.2 ⟨hk, hlt⟩
  | @step key next keys hr hn hwalk ih =>
    have hlt : key < next := (lt_next (hS hkey) hne).trans hr.1.2
    have hge : ∀ k ∈ keys, next ≤ k := by
      intro k hk
      have hsort := hwalk.sorted hS hr.1.1 hn
      obtain ⟨tail, rfl⟩ := hwalk.exists_tail
      rcases List.mem_cons.mp hk with rfl | hk
      · exact le_rfl
      · exact ((List.pairwise_cons.mp hsort).1 k hk).le
    have ih := ih hr.1.1 hn
    constructor
    · intro hall k hk hle hnext
      have hnot : key.next ∉ S := by
        intro hmem
        rcases List.mem_cons.mp (hall key.next hmem (lt_next (hS hkey) hne).le) with heq | hin
        · exact (lt_next (hS hkey) hne).ne' heq
        · exact absurd (hge _ hin) (not_le.mpr hr.1.2)
      rcases hsplit hkey hne k hk hle with rfl | rfl | hgt
      · exact absurd hnext hnot
      · exact absurd hk hnot
      · refine ih.mp (fun k hk hle => ?_) k hk (hr.2 ⟨hk, hgt⟩) hnext
        refine (List.mem_cons.mp (hall k hk (hlt.le.trans hle))).resolve_left fun heq => ?_
        rw [heq] at hle
        exact absurd hle (not_le.mpr hlt)
    · intro hspaced k hk hle
      rcases hsplit hkey hne k hk hle with rfl | rfl | hgt
      · exact List.mem_cons_self
      · have hlast' := hspaced key hkey le_rfl hk
        have hle' := le_ownerMax (hS hr.1.1)
        rw [← hlast'] at hle'
        exact absurd hle' (not_le.mpr hr.1.2)
      · refine List.mem_cons_of_mem key (ih.mpr (fun k hk hle => ?_) k hk (hr.2 ⟨hk, hgt⟩))
        exact hspaced k hk (hlt.le.trans hle)

end Walk

/-- What the pages must be for the repair to succeed: none under the least key, which the search for
the first page passes over, and none but the last right after another one, which the loop passes
over. For the account with all bits set no search finds anything. -/
def Repairable (owner : AccountID) (S : Set Uint256) : Prop :=
  (HasNext owner → nftOwnerMin owner ∉ S ∧
    ∀ key ∈ S, key.next ∈ S → key.next = nftOwnerMax owner) ∧
  (¬HasNext owner → S ⊆ {nftOwnerMax owner})

theorem lt_ownerMin_of_ne (hS : S ⊆ ownerKeys owner) (hk : k ∈ S)
    (hne : k ≠ nftOwnerMin owner) : nftOwnerMin owner < k :=
  lt_of_le_of_ne (ownerMin_le (hS hk)) hne.symm

/-- The walk from the first page that is found visits all pages. -/
theorem Walk.covers_iff_repairable (hwalk : Walk owner S key keys) (hS : S ⊆ ownerKeys owner)
    (hfirst : IsNext S (nftOwnerMin owner) (some key)) (hne : key ≠ nftOwnerMax owner)
    (howner : HasNext owner) : (∀ k ∈ S, k ∈ keys) ↔ Repairable owner S := by
  have hcovers := hwalk.covers_iff hS hfirst.1.1 hne howner
  have hge : nftOwnerMin owner ∉ S → ∀ k ∈ S, key ≤ k := fun hmin k hk =>
    hfirst.2 ⟨hk, lt_ownerMin_of_ne hS hk fun heq => hmin (heq ▸ hk)⟩
  have hmin : nftOwnerMin owner ∉ keys := by
    intro hin
    have hsort := hwalk.sorted hS hfirst.1.1 hne
    obtain ⟨tail, rfl⟩ := hwalk.exists_tail
    rcases List.mem_cons.mp hin with heq | hin
    · exact hfirst.1.2.ne heq
    · exact lt_asymm hfirst.1.2 ((List.pairwise_cons.mp hsort).1 _ hin)
  constructor
  · intro hall
    have hno : nftOwnerMin owner ∉ S := fun hmem => hmin (hall _ hmem)
    refine ⟨fun _ => ⟨hno, fun k hk => ?_⟩, fun hnot => absurd howner hnot⟩
    exact hcovers.mp (fun k hk _ => hall k hk) k hk (hge hno k hk)
  · rintro ⟨hrepairable, -⟩ k hk
    obtain ⟨hno, hspaced⟩ := hrepairable howner
    exact hcovers.mpr (fun k hk _ => hspaced k hk) k hk (hge hno k hk)

theorem Repairable.move (h : Repairable owner S) (hS : S ⊆ ownerKeys owner)
    (howner : HasNext owner) (w : Uint256) :
    Repairable owner (insert (nftOwnerMax owner) (S \ {w})) := by
  obtain ⟨hno, hspaced⟩ := h.1 howner
  refine ⟨fun _ => ⟨?_, ?_⟩, fun hnot => absurd howner hnot⟩
  · rintro (heq | ⟨hmem, -⟩)
    · exact (ownerMin_lt_ownerMax owner).ne heq
    · exact hno hmem
  · rintro k hk (hlast | ⟨hnext, -⟩)
    · exact hlast
    · rcases hk with rfl | ⟨hk, -⟩
      · exact absurd (hS hnext) (ownerMax_next_not_mem howner)
      · exact hspaced k hk hnext

end Walks

variable {keys : List Uint256}

section Store

open ReadModel (state)
open OrderedMap (IsNext)

/-- The keys of an owner's pages. -/
def pageRegion (owner : AccountID) : Region Uint256 Page where
  keys := ownerKeys owner
  keyOf := id
  entryType _ := .nftokenPage
  Rep := PageObject

variable {V : Type} [ApplyView V] [ApplyModel V] [LawfulApplyView V] {ctx : Context}
  {owner : AccountID} {base : LedgerState} {v : V} {D : Uint256 → Option Page}
  {out : Set Uint256} {key : Uint256} {page : Page} {sle : STLedgerEntry}

section

variable (h : (pageRegion owner).Stores base v D out)

include h

theorem peekPage_keeps (hkey : key ∈ ownerKeys owner) :
    ∃ found v', peekPage key v = .ok found v' ∧ (pageRegion owner).Holds found key (D key) ∧
      (pageRegion owner).Stores base v' D (insert key out) ∧ state v' = state v := by
  obtain ⟨found, v', hpeek, -, hkeeps⟩ :=
    h.peek (Set.injOn_id _) hkey .nftokenPage (by decide) fun _ _ => rfl
  exact ⟨found, v', hpeek, hkeeps⟩

theorem viewSucc_isNext (howner : HasNext owner) (hkey : key ∈ ownerKeys owner) :
    ∃ r, viewSucc key (nftOwnerMax owner).next v = .ok r v ∧ IsNext (support D) key r := by
  obtain ⟨r, hsucc, hnext⟩ := h.succ (fun _ => rfl) key (nftOwnerMax owner).next
    fun a hlt hlast => mem_ownerKeys_of_lt howner hkey hlt hlast
  refine ⟨r, ?_, hnext.congr fun a => and_congr_left fun _ => ?_⟩
  · rw [viewSucc, hsucc]
    rfl
  · exact ⟨And.left, fun hsome => ⟨hsome, lt_ownerMax_next howner (h.within a hsome)⟩⟩

theorem viewSucc_eq_none (howner : ¬HasNext owner) :
    viewSucc key (nftOwnerMax owner).next v = .ok none v := by
  have hnot := not_lt_ownerMax_next howner
  obtain ⟨r, hsucc, hnext⟩ := h.succ (fun _ => rfl) key (nftOwnerMax owner).next
    fun a _ hlast => absurd hlast (hnot a)
  obtain rfl : r = none := by
    cases r with
    | none => rfl
    | some n => exact absurd hnext.1.1.2 (hnot n)
  rw [viewSucc, hsucc]
  rfl

end

variable {field : SField} {link : Option Uint256} {page' : Page}

section

variable (h : (pageRegion owner).Stores base v D out) (hD : D key = some page) (hout : key ∈ out)
  (hsle : (pageRegion owner).IsEntry sle key page)

include h hD hout hsle

theorem repairLink_eq {target : Uint256} (hlink : HasLink sle.object field link)
    (hobj : PageObject (sle.object.setField field (.uint256 target)) page')
    (hsame : link = some target → page' = page) (didRepair : Bool) :
    ∃ sle' didRepair' v', repairLink sle field target didRepair v = .ok (sle', didRepair') v' ∧
      (pageRegion owner).IsEntry sle' key page' ∧
      (pageRegion owner).Stores base v' (update D key (some page')) (insert key out) ∧
      (link = some target → didRepair' = didRepair ∧ state v' = state v) := by
  by_cases heq : link = some target
  · obtain rfl := hsame heq
    subst heq
    refine ⟨sle, didRepair, v, ?_, hsle, ?_, fun _ => ⟨rfl, rfl⟩⟩
    · have hcond : ¬(!sle.object.isFieldPresent field ||
          decide (sle.object.getFieldH256 field ≠ target)) = true := by
        rw [hlink.isFieldPresent, hlink.getFieldH256]
        simp
      rw [repairLink, if_neg hcond]
      rfl
    · rw [← hD, update_eq_self, Set.insert_eq_of_mem hout]
      exact h
  · have hentry : (pageRegion owner).IsEntry (setPageLink sle field target) key page' :=
      ⟨hsle.key_eq, hsle.type_eq, hobj⟩
    obtain ⟨v', hupdate, hst⟩ := h.update (Set.injOn_id _) (by rw [hD]; rfl) hout hentry
    refine ⟨_, true, v', ?_, hentry, hst, fun hlink => absurd hlink heq⟩
    have hcond : (!sle.object.isFieldPresent field ||
        decide (sle.object.getFieldH256 field ≠ target)) = true := by
      rw [hlink.isFieldPresent]
      cases link with
      | none => rfl
      | some other =>
        rw [hlink.getFieldH256]
        simpa using fun hother => heq (congrArg some hother)
    rw [repairLink, if_pos hcond, bind_of_ok hupdate]
    rfl

theorem dropLink_eq (hlink : HasLink sle.object field link)
    (hobj : PageObject (makeFieldAbsent sle.object field) page')
    (hsame : link = none → page' = page) (didRepair : Bool) :
    ∃ sle' didRepair' v', dropLink sle field didRepair v = .ok (sle', didRepair') v' ∧
      (pageRegion owner).IsEntry sle' key page' ∧
      (pageRegion owner).Stores base v' (update D key (some page')) (insert key out) ∧
      (link = none → didRepair' = didRepair ∧ state v' = state v) := by
  cases link with
  | none =>
    obtain rfl := hsame rfl
    refine ⟨sle, didRepair, v, ?_, hsle, ?_, fun _ => ⟨rfl, rfl⟩⟩
    · rw [dropLink, hlink.isFieldPresent]
      rfl
    · rw [← hD, update_eq_self, Set.insert_eq_of_mem hout]
      exact h
  | some other =>
    have hentry : (pageRegion owner).IsEntry (clearPageLink sle field) key page' :=
      ⟨hsle.key_eq, hsle.type_eq, hobj⟩
    obtain ⟨v', hupdate, hst⟩ := h.update (Set.injOn_id _) (by rw [hD]; rfl) hout hentry
    refine ⟨_, true, v', ?_, hentry, hst, fun hlink => by cases hlink⟩
    have hpres : sle.object.isFieldPresent field = true := hlink.isFieldPresent
    rw [dropLink, if_pos hpres, bind_of_ok hupdate]
    rfl

variable {n : Uint256} {nextPage : Page}

theorem linkPages_eq {next : STLedgerEntry} (hn : D n = some nextPage) (hne : n ≠ key)
    (hnout : n ∈ out) (hnext : (pageRegion owner).IsEntry next n nextPage) (didRepair : Bool) :
    ∃ sle' next' didRepair' v',
      linkPages sle next didRepair v = .ok (sle', next', didRepair') v' ∧
      (pageRegion owner).IsEntry sle' key { page with next := some n } ∧
      (pageRegion owner).IsEntry next' n { nextPage with prev := some key } ∧
      (pageRegion owner).Stores base v' (update
        (update D key (some { page with next := some n })) n
          (some { nextPage with prev := some key })) (insert n (insert key out)) ∧
      (page.next = some n → nextPage.prev = some key →
        didRepair' = didRepair ∧ state v' = state v) := by
  have hobj : PageObject sle.object page := hsle.object
  have hnobject : PageObject next.object nextPage := hnext.object
  obtain ⟨sle', did₁, v₁, hlink, hentry, h₁, hkeep⟩ := repairLink_eq h hD hout hsle
    hobj.hasNext (hobj.linkNext n) (by rintro heq; rw [← heq]) didRepair
  have hn₁ : update D key (some { page with next := some n }) n = some nextPage := by
    rw [update_of_ne hne, hn]
  obtain ⟨next', did₂, v₂, hlink', hentry', h₂, hkeep'⟩ := repairLink_eq h₁ hn₁
    (Set.mem_insert_of_mem _ hnout) hnext hnobject.hasPrev (hnobject.linkPrev key)
    (by rintro heq; rw [← heq]) did₁
  refine ⟨sle', next', did₂, v₂, ?_, hentry, hentry', h₂, fun hright hleft => ?_⟩
  · rw [linkPages, hnext.key_eq, bind_of_ok hlink]
    dsimp only
    rw [hentry.key_eq, bind_of_ok hlink']
    rfl
  · obtain ⟨rfl, hstate⟩ := hkeep hright
    obtain ⟨rfl, hstate'⟩ := hkeep' hleft
    exact ⟨rfl, hstate'.trans hstate⟩

theorem walkPages_round (howner : HasNext owner) (hkeyne : key ≠ nftOwnerMax owner)
    {r : Option Uint256} (hr : IsNext (support D) key.next r)
    (hgetD : r.getD (nftOwnerMax owner) = n)
    (hn : D n = some nextPage) (hne : n ≠ key) (didRepair : Bool) :
    ∃ sle' next' didRepair' v' D', (∀ rounds, walkPages owner (rounds + 1) sle didRepair v =
        (if n = nftOwnerMax owner then pure (some ⟨sle', some next', didRepair'⟩)
          else walkPages owner rounds next' didRepair' : EStateM ViewError V (Option Walked)) v') ∧
      (pageRegion owner).IsEntry next' n { nextPage with prev := some key } ∧
      (pageRegion owner).Stores base v' D' (insert n (insert key out)) ∧
      D' key = some { page with next := some n } ∧
      D' n = some { nextPage with prev := some key } ∧ Relinks D D' [key, n] ∧
      (page.next = some n → nextPage.prev = some key →
        D' = D ∧ didRepair' = didRepair ∧ state v' = state v) := by
  have hkey := h.within key (mem_support hD)
  obtain ⟨r', hsucc, hnext⟩ := viewSucc_isNext h howner (next_mem_ownerKeys hkey hkeyne)
  obtain rfl := hnext.unique hr
  obtain ⟨found, v₁, hpeek, hholds, h₁, hstate⟩ := peekPage_keeps h (h.within n (mem_support hn))
  rw [hn] at hholds
  obtain ⟨next, rfl, hentry⟩ := hholds
  obtain ⟨sle', next', did', v₂, hlink, -, hentry', h₂, hkeep⟩ := linkPages_eq h₁ hD
    (Set.mem_insert_of_mem _ hout) hsle hn hne (Set.mem_insert _ _) hentry didRepair
  have hn' : update D key (some { page with next := some n }) n = some nextPage := by
    rw [update_of_ne hne, hn]
  have hfirst : Relinks D (update D key (some { page with next := some n })) [key, n] :=
    Relinks.update hD List.mem_cons_self rfl
  have hsecond : Relinks (update D key (some { page with next := some n }))
      (update (update D key (some { page with next := some n })) n
        (some { nextPage with prev := some key })) [key, n] :=
    Relinks.update hn' (List.mem_cons_of_mem _ List.mem_cons_self) rfl
  refine ⟨sle', next', did', v₂, _, fun rounds => ?_, hentry', h₂.weaken ?_, ?_,
    update_self _ _ _, hfirst.trans hsecond, fun hright hleft => ?_⟩
  · rw [walkPages, hsle.key_eq, bind_of_ok hsucc, hgetD, bind_of_ok hpeek]
    dsimp only
    rw [bind_of_ok hlink]
    rw [hentry'.key_eq]
  · exact Set.insert_subset_insert (Set.insert_subset_insert (Set.subset_insert _ _))
  · rw [update_of_ne hne.symm, update_self]
  · obtain ⟨hdid, hstate'⟩ := hkeep hright hleft
    refine ⟨?_, hdid, hstate'.trans hstate⟩
    rw [← hright, ← hleft, ← hD, update_eq_self, ← hn, update_eq_self]

/-- Without the last page the one with the greatest key moves there. -/
theorem moveLast_eq (hformats : ctx.HasFormats) (hne : key ≠ nftOwnerMax owner)
    (hno : D (nftOwnerMax owner) = none) (hprev : ∀ j ∈ page.prev, j ≠ key ∧ (D j).isSome = true) :
    ∃ v', moveLast ctx owner sle v = .ok true v' ∧
      (pageRegion owner).Stores base v' (update (update
        (LinkedOrder.setNext D page.prev (nftOwnerMax owner)) key none) (nftOwnerMax owner)
          (some { page with next := none })) (insert (nftOwnerMax owner) out) := by
  have hobj : PageObject sle.object page := hsle.object
  obtain ⟨new, hnew, hkey, htype, hpage⟩ := new_eq hformats (nftOwnerMax owner) page.value
  -- both ways of linking the new page leave its object and the pages before the two writes
  obtain ⟨object, v₁, hlink, hnewObject, h₁⟩ : ∃ object v₁,
      linkCanonical owner sle (new.object.setStbase sfNFTokens (.nftokens page.value)) v =
        .ok object v₁ ∧ PageObject object { page with next := none } ∧
      (pageRegion owner).Stores base v₁ (LinkedOrder.setNext D page.prev (nftOwnerMax owner))
        out := by
    rcases hp : page.prev with _ | j
    · refine ⟨_, v, ?_, hpage, ?_⟩
      · rw [linkCanonical, if_neg (by rw [hobj.hasPrev.isFieldPresent, hp]; simp)]
        rfl
      · rw [LinkedOrder.setNext_none]
        exact h
    · obtain ⟨hj, hsome⟩ := hprev j hp
      obtain ⟨previous, hprevious⟩ := Option.isSome_iff_exists.mp hsome
      obtain ⟨found, v₁, hpeek, hholds, h₁, -⟩ := peekPage_keeps h (h.within j hsome)
      rw [hprevious] at hholds
      obtain ⟨psle, rfl, hpsle⟩ := hholds
      have hpobject : PageObject psle.object previous := hpsle.object
      have hentry : (pageRegion owner).IsEntry (setPageLink psle sfNextPageMin (nftOwnerMax owner))
          j { previous with next := some (nftOwnerMax owner) } :=
        ⟨hpsle.key_eq, hpsle.type_eq, hpobject.linkNext _⟩
      obtain ⟨v₂, hupdate, h₂⟩ :=
        h₁.update (Set.injOn_id _) hsome (Set.mem_insert _ _) hentry
      have hlinkPrev : HasLink sle.object sfPreviousPageMin (some j) := hp ▸ hobj.hasPrev
      have hpres : sle.object.isFieldPresent sfPreviousPageMin = true := hlinkPrev.isFieldPresent
      refine ⟨_, v₂, ?_, hpage.linkPrev j, ?_⟩
      · rw [linkCanonical, if_pos hpres, hlinkPrev.getFieldH256, bind_of_ok hpeek]
        dsimp only
        rw [bind_of_ok hupdate]
        rfl
      · rw [LinkedOrder.setNext_some hprevious]
        refine h₂.weaken ?_
        exact (Set.subset_insert _ _).trans (Set.subset_insert _ _)
  have hkeyD : LinkedOrder.setNext D page.prev (nftOwnerMax owner) key = some page := by
    rw [LinkedOrder.setNext_of_ne fun heq => (hprev key heq).1 rfl, hD]
  obtain ⟨v₂, herase, -, h₂⟩ :=
    h₁.erase (Set.injOn_id _) (by rw [hkeyD]; rfl) hout hsle.key_eq
  have hentry : (pageRegion owner).IsEntry { new with object } (nftOwnerMax owner)
      { page with next := none } := ⟨hkey, htype, hnewObject⟩
  have hfree : update (LinkedOrder.setNext D page.prev (nftOwnerMax owner)) key none
      (nftOwnerMax owner) = none := by
    rw [update_of_ne hne.symm, LinkedOrder.setNext]
    split_ifs with heq
    · rw [hno]
      rfl
    · exact hno
  obtain ⟨v₃, hinsert, h₃⟩ := h₂.insert (Set.injOn_id _) (ownerMax_mem owner) hfree hentry
  refine ⟨v₃, ?_, h₃⟩
  have hok : (EStateM.ofExcept (.ok new) : EStateM ViewError V STLedgerEntry) v = .ok new v := rfl
  rw [moveLast, hnew, bind_of_ok hok, hobj.getFieldArray, bind_of_ok hlink,
    bind_of_ok herase, bind_of_ok hinsert]
  rfl

omit [ApplyView V] [ApplyModel V] [LawfulApplyView V] h hD hout in
theorem clearLinks_isEntry :
    (pageRegion owner).IsEntry (clearLinks sle) key ⟨page.value, none, none⟩ := by
  have hobj : PageObject sle.object page := hsle.object
  have hnext := hobj.hasNext.isFieldPresent
  have hprev := hobj.hasPrev.isFieldPresent
  obtain ⟨value, next, prev⟩ := page
  have hfirst : (pageRegion owner).IsEntry
      (if sle.object.isFieldPresent sfPreviousPageMin then clearPageLink sle sfPreviousPageMin
        else sle) key ⟨value, next, none⟩ := by
    rw [hprev]
    cases prev with
    | none => exact hsle
    | some p => exact ⟨hsle.key_eq, hsle.type_eq, hobj.setPrev sets_makeFieldAbsent⟩
  rw [clearLinks, hnext]
  cases next with
  | none => exact hfirst
  | some n =>
    have hfirstObject : PageObject _ ⟨value, some n, none⟩ := hfirst.object
    exact ⟨hfirst.key_eq, hfirst.type_eq, hfirstObject.setNext sets_makeFieldAbsent⟩

theorem repairSingle_eq :
    ∃ didRepair v', repairSingle sle v = .ok didRepair v' ∧
      (pageRegion owner).Stores base v' (update D key (some ⟨page.value, none, none⟩))
        (insert key out) ∧
      (page.next = none → page.prev = none → didRepair = false ∧ state v' = state v) := by
  have hobj : PageObject sle.object page := hsle.object
  have hnext := hobj.hasNext.isFieldPresent
  have hprev := hobj.hasPrev.isFieldPresent
  by_cases hlinks : page.next = none ∧ page.prev = none
  · obtain ⟨value, next, prev⟩ := page
    obtain ⟨rfl, rfl⟩ : next = none ∧ prev = none := hlinks
    refine ⟨false, v, ?_, ?_, fun _ _ => ⟨rfl, rfl⟩⟩
    · rw [repairSingle, hnext, hprev]
      rfl
    · rw [← hD, update_eq_self, Set.insert_eq_of_mem hout]
      exact h
  · obtain ⟨v', hupdate, hst⟩ :=
      h.update (Set.injOn_id _) (by rw [hD]; rfl) hout (clearLinks_isEntry hsle)
    refine ⟨true, v', ?_, hst, fun hn hp => absurd ⟨hn, hp⟩ hlinks⟩
    have hpres : (page.next.isSome || page.prev.isSome) = true := by
      rw [← Bool.not_eq_false]
      simpa using hlinks
    rw [repairSingle, if_pos (by rw [hnext, hprev]; exact hpres), bind_of_ok hupdate]
    rfl

end

/-- What the loop leaves of the pages that it visits. Nothing changes if the links between them
are right. -/
theorem walkPages_eq (howner : HasNext owner) {S : Set Uint256} (hwalk : Walk owner S key keys)
    (hS : S ⊆ ownerKeys owner) (hne : key ≠ nftOwnerMax owner)
    (h : (pageRegion owner).Stores base v D out) (hsupport : support D = S)
    (hD : D key = some page) (hout : key ∈ out) (hsle : (pageRegion owner).IsEntry sle key page)
    {p : Option Uint256} (hp : page.prev = p) (didRepair : Bool) :
    ∃ walked v' D' out', (∀ rounds ≥ keys.length,
        walkPages owner rounds sle didRepair v = .ok (some walked) v') ∧
      (pageRegion owner).Stores base v' D' out' ∧ Relinks D D' keys ∧ Joined D' p keys ∧
      (walked.nextPage.isSome = true ↔ nftOwnerMax owner ∈ S) ∧
      (∃ w ∈ keys.getLast?, w ∈ out' ∧ ∃ x, D' w = some x ∧
        (pageRegion owner).IsEntry (walked.nextPage.getD walked.page) w x) ∧
      (Joined D p keys → D' = D ∧ walked.didRepair = didRepair ∧ state v' = state v) := by
  induction hwalk generalizing v D out page sle didRepair p with
  | @stop key hr hno =>
    have hkey := h.within key (mem_support hD)
    obtain ⟨r, hsucc, hnext⟩ := viewSucc_isNext h howner (next_mem_ownerKeys hkey hne)
    rw [hsupport] at hnext
    obtain rfl := hnext.unique hr
    obtain ⟨found, v₁, hpeek, hholds, h₁, hstate⟩ := peekPage_keeps h (ownerMax_mem owner)
    have hnone : D (nftOwnerMax owner) = none :=
      Option.not_isSome_iff_eq_none.mp fun hsome => hno (hsupport ▸ hsome)
    rw [hnone] at hholds
    obtain rfl : found = none := hholds
    refine ⟨⟨sle, none, didRepair⟩, v₁, D, _, fun rounds hrounds => ?_, h₁, .refl D _,
      ⟨⟨page, hD, hp, by simp⟩, trivial⟩, iff_of_false (by simp) hno,
      ⟨key, rfl, Set.mem_insert_of_mem _ hout, page, hD, hsle⟩, fun _ => ⟨rfl, rfl, hstate⟩⟩
    obtain ⟨m, rfl⟩ := Nat.exists_eq_add_of_le' hrounds
    rw [List.length_singleton, walkPages, hsle.key_eq, bind_of_ok hsucc, Option.getD_none,
      bind_of_ok hpeek]
    rfl
  | @last key r hr hgetD hmem =>
    obtain ⟨nextPage, hn⟩ := exists_of_mem_support (hsupport ▸ hmem)
    obtain ⟨sle', next', did', v', D', hround, hentry, h', hkey', hn', hrelinks, hkeep⟩ :=
      walkPages_round h hD hout hsle howner hne (hsupport ▸ hr) hgetD hn hne.symm didRepair
    refine ⟨⟨sle', some next', did'⟩, v', D', _, fun rounds hrounds => ?_, h', hrelinks,
      ⟨⟨_, hkey', hp, by simp⟩, ⟨_, hn', rfl, by simp⟩, trivial⟩, iff_of_true rfl hmem,
      ⟨_, rfl, Set.mem_insert _ _, _, hn', hentry⟩, ?_⟩
    · obtain ⟨m, rfl⟩ := Nat.exists_eq_add_of_le' hrounds
      exact (hround (m + 1)).trans (by rw [if_pos rfl]; rfl)
    · rintro ⟨⟨x, hx, -, hright⟩, ⟨y, hy, hleft, -⟩, -⟩
      obtain rfl := Option.some.inj (hD.symm.trans hx)
      obtain rfl := Option.some.inj (hn.symm.trans hy)
      exact hkeep (hright _ rfl) hleft
  | @step key next keys hr hn hwalk ih =>
    obtain ⟨nextPage, hnD⟩ := exists_of_mem_support (hsupport ▸ hr.1.1)
    have hkey := h.within key (mem_support hD)
    have hlt : key < next := (lt_next hkey hne).trans hr.1.2
    obtain ⟨sle', next', did', v', D₁, hround, hentry, h₁, hkey₁, hn₁, hrelinks₁, hkeep₁⟩ :=
      walkPages_round h hD hout hsle howner hne (hsupport ▸ hr) (Option.getD_some ..) hnD hlt.ne'
        didRepair
    have hsupport₁ := hrelinks₁.support_eq.trans hsupport
    obtain ⟨walked, v₂, D₂, out₂, hrun, h₂, hrelinks₂, hjoined, hlast, hfinal, hkeep₂⟩ :=
      ih hn h₁ hsupport₁ hn₁ (Set.mem_insert _ _) hentry rfl did'
    have hnot : key ∉ keys := by
      intro hin
      have hsort := hwalk.sorted hS hr.1.1 hn
      obtain ⟨tail, rfl⟩ := hwalk.exists_tail
      rcases List.mem_cons.mp hin with rfl | hin
      · exact lt_irrefl _ hlt
      · exact lt_asymm hlt ((List.pairwise_cons.mp hsort).1 key hin)
    obtain ⟨tail, htail⟩ := hwalk.exists_tail
    have hhead : keys.head? = some next := by rw [htail]; rfl
    refine ⟨walked, v₂, D₂, out₂, fun rounds hrounds => ?_, h₂, ?_, ?_, hlast, ?_, ?_⟩
    · obtain ⟨m, rfl⟩ : ∃ m, rounds = m + 1 := Nat.exists_eq_succ_of_ne_zero (by
        rintro rfl
        simp at hrounds)
      refine (hround m).trans ?_
      rw [if_neg hn]
      exact hrun m (by simpa using hrounds)
    · refine (hrelinks₁.mono ?_).trans (hrelinks₂.mono (List.subset_cons_self _ _))
      rw [htail]
      simp
    · refine ⟨⟨_, (hrelinks₂.frame key hnot).trans hkey₁, hp, ?_⟩, hjoined⟩
      rw [hhead]
      rintro n ⟨⟩
      rfl
    · obtain ⟨w, hw, hrest⟩ := hfinal
      refine ⟨w, ?_, hrest⟩
      rw [htail] at hw ⊢
      exact hw
    · rintro ⟨⟨x, hx, -, hright⟩, hjoined'⟩
      obtain rfl := Option.some.inj (hD.symm.trans hx)
      have hleft : nextPage.prev = some key := by
        rw [htail] at hjoined'
        obtain ⟨⟨y, hy, hprev, -⟩, -⟩ := hjoined'
        obtain rfl := Option.some.inj (hnD.symm.trans hy)
        exact hprev
      obtain ⟨rfl, rfl, hstate₁⟩ := hkeep₁ (hright next hhead) hleft
      obtain ⟨hD₂, hdid, hstate₂⟩ := hkeep₂ hjoined'
      exact ⟨hD₂, hdid, hstate₂.trans hstate₁⟩

end Store

variable {D : Uint256 → Option Page}

section Repair

open ReadModel (state)
open OrderedMap (IsNext)

/-- How often a token is on the pages. -/
noncomputable def tokenCount (D : Uint256 → Option Page) (token : NFToken) : ℕ :=
  ∑ᶠ key, ((D key).map fun page => page.value.count token).getD 0

/-- The pages in key order are a doubly linked list, and the last one is under the last key. -/
structure Repaired (owner : AccountID) (D : Uint256 → Option Page) : Prop where
  linked : Linked D
  last : ∀ key page, D key = some page → nftOwnerMax owner ∈ support D

theorem tokenCount_eq {D' : Uint256 → Option Page} (σ : Equiv.Perm Uint256)
    (h : ∀ key, (D' key).map LinkedOrder.Node.value = (D (σ key)).map LinkedOrder.Node.value)
    (token : NFToken) : tokenCount D' token = tokenCount D token := by
  have hcount : ∀ key, ((D' key).map fun page => page.value.count token).getD 0 =
      ((D (σ key)).map fun page => page.value.count token).getD 0 := by
    intro key
    have hmap := congrArg (Option.map fun tokens => tokens.count token) (h key)
    rw [Option.map_map, Option.map_map] at hmap
    exact congrArg (Option.getD · 0) hmap
  rw [tokenCount, tokenCount, finsum_congr hcount]
  exact finsum_comp_equiv σ (f := fun key =>
    ((D key).map fun page => page.value.count token).getD 0)

variable {V : Type} [ApplyView V] [ApplyModel V] [LawfulApplyView V] {ctx : Context}
  {owner : AccountID} {base : LedgerState} {v : V} {D D' : Uint256 → Option Page}
  {out : Set Uint256} {key : Uint256} {page : Page} {sle : STLedgerEntry} {didRepair : Bool}

/-- What a call of the repair makes of the pages `D`. -/
structure RepairsTo (owner : AccountID) (D D' : Uint256 → Option Page) : Prop where
  tokens : ∀ token, tokenCount D' token = tokenCount D token
  repaired_iff : Repaired owner D' ↔ Repairable owner (support D)
  repairable : Repairable owner (support D) → Repairable owner (support D')

/-- Where only links change, the condition stays. -/
theorem RepairsTo.of_relinks (h : Relinks D D' keys)
    (hiff : Repaired owner D' ↔ Repairable owner (support D)) : RepairsTo owner D D' where
  tokens := tokenCount_eq (Equiv.refl _) h.value_eq
  repaired_iff := hiff
  repairable hrepairable := h.support_eq.symm ▸ hrepairable

/-- No page is found, so there is none, or the one under the least key. -/
theorem repaired_iff_of_no_page (hS : support D ⊆ ownerKeys owner)
    (hno : nftOwnerMax owner ∉ support D)
    (hfirst : HasNext owner → IsNext (support D) (nftOwnerMin owner) none) :
    Repaired owner D ↔ Repairable owner (support D) := by
  constructor
  · intro h
    have hempty : ∀ k, k ∉ support D := by
      intro k hk
      obtain ⟨page, hpage⟩ := exists_of_mem_support hk
      exact hno (h.last k page hpage)
    exact ⟨fun _ => ⟨hempty _, fun k hk => absurd hk (hempty k)⟩,
      fun _ k hk => absurd hk (hempty k)⟩
  · rintro ⟨hrepairable, hall⟩
    have hempty : ∀ k, k ∉ support D := by
      intro k hk
      by_cases howner : HasNext owner
      · refine hfirst howner k hk (lt_ownerMin_of_ne hS hk ?_)
        rintro rfl
        exact (hrepairable howner).1 hk
      · rw [Set.mem_singleton_iff.mp (hall howner hk)] at hk
        exact hno hk
    refine ⟨⟨fun k x hx => absurd (mem_support hx) (hempty k),
      fun k x hx => absurd (mem_support hx) (hempty k)⟩,
      fun k x hx => absurd (mem_support hx) (hempty k)⟩

theorem subset_last_iff (hS : support D ⊆ ownerKeys owner)
    (hfirst : HasNext owner → IsNext (support D) (nftOwnerMin owner) (some (nftOwnerMax owner))) :
    (∀ k ∈ support D, k ∈ [nftOwnerMax owner]) ↔ Repairable owner (support D) := by
  simp only [List.mem_singleton]
  constructor
  · intro hall
    refine ⟨fun howner => ⟨fun hmin => ?_, fun k hk hnext => hall _ hnext⟩, fun _ k hk => hall k hk⟩
    exact (ownerMin_lt_ownerMax owner).ne (hall _ hmin)
  · rintro ⟨hrepairable, hall⟩ k hk
    by_cases howner : HasNext owner
    · refine le_antisymm (le_ownerMax (hS hk)) ((hfirst howner).2 ⟨hk, lt_ownerMin_of_ne hS hk ?_⟩)
      rintro rfl
      exact (hrepairable howner).1 hk
    · exact hall howner hk

theorem repairsTo_single (hS : support D ⊆ ownerKeys owner) (hD : D (nftOwnerMax owner) = some page)
    (hfirst : HasNext owner → IsNext (support D) (nftOwnerMin owner) (some (nftOwnerMax owner))) :
    RepairsTo owner D
      (update D (nftOwnerMax owner) (some ⟨page.value, none, none⟩)) := by
  have hrelinks : Relinks D (update D (nftOwnerMax owner)
      (some ⟨page.value, none, none⟩)) [nftOwnerMax owner] :=
    Relinks.update hD List.mem_cons_self rfl
  have hchain : Chain (update D (nftOwnerMax owner) (some ⟨page.value, none, none⟩)) none
      [nftOwnerMax owner] := ⟨⟨_, update_self _ _ _, rfl, rfl⟩, trivial⟩
  have hlinked := hchain.linked_iff (List.pairwise_singleton _ _) (List.cons_ne_nil _ _)
  rw [hrelinks.support_eq, subset_last_iff hS hfirst] at hlinked
  refine .of_relinks hrelinks ⟨fun h => hlinked.mp h.linked, fun h => ⟨hlinked.mpr h, ?_⟩⟩
  intro _ _ _
  exact mem_support (update_self _ _ _)

variable {keys pre : List Uint256} {w : Uint256} {D₁ : Uint256 → Option Page}

section

variable (hwalk : Walk owner (support D) key (pre ++ [w])) (hS : support D ⊆ ownerKeys owner)
  (hfirst : IsNext (support D) (nftOwnerMin owner) (some key)) (hne : key ≠ nftOwnerMax owner)
  (howner : HasNext owner) (hrelinks : Relinks D D₁ (pre ++ [w]))
  (hjoined : Joined D₁ none (pre ++ [w])) (hpage : D₁ w = some page)

include hwalk hS hfirst hne howner hrelinks hjoined hpage

/-- The walk ends at the last page, which then has no successor. -/
theorem repairsTo_last (hlast : w = nftOwnerMax owner) :
    RepairsTo owner D (update D₁ w (some { page with next := none })) := by
  have hsort := hwalk.sorted hS hfirst.1.1 hne
  have hnodup := hsort.nodup
  have hrelinks' : Relinks D (update D₁ w (some { page with next := none }))
      (pre ++ [w]) := by
    have hstep : Relinks D₁ (update D₁ w (some { page with next := none }))
        (pre ++ [w]) := Relinks.update hpage (by simp) rfl
    exact hrelinks.trans hstep
  have hchain : Chain (update D₁ w (some { page with next := none })) none
      (pre ++ [w]) := by
    refine hjoined.chain (List.nodup_append.mp hnodup).1 hpage ?_ (update_self _ _ _)
    intro k hk y hy
    have hkw : k ≠ w := (List.nodup_append.mp hnodup).2.2 k hk w (by simp)
    refine ⟨y.next, by rw [update_of_ne hkw, hy], fun hprev => ?_, fun _ => rfl⟩
    exact hjoined.next_eq hpage hprev hk hy
  have hlinked := hchain.linked_iff hsort (by simp)
  rw [hrelinks'.support_eq, hwalk.covers_iff_repairable hS hfirst hne howner] at hlinked
  refine .of_relinks hrelinks' ⟨fun h => hlinked.mp h.linked, fun h => ⟨hlinked.mpr h, ?_⟩⟩
  intro _ _ _
  rw [← hlast]
  exact mem_support (update_self _ _ _)

/-- The walk ends at another page, which moves to the last key. -/
theorem repairsTo_moved (hno : nftOwnerMax owner ∉ support D) :
    RepairsTo owner D (update (update
      (LinkedOrder.setNext D₁ page.prev (nftOwnerMax owner)) w none) (nftOwnerMax owner)
        (some { page with next := none })) := by
  have hsort := hwalk.sorted hS hfirst.1.1 hne
  have hmem := hwalk.mem hfirst.1.1
  have hpreNodup := (List.nodup_append.mp hsort.nodup).1
  have hlastne : ∀ k ∈ support D, k ≠ nftOwnerMax owner := by
    rintro k hk rfl
    exact hno hk
  have hw : w ∈ support D := hmem w (by simp)
  set D₂ := update (update
    (LinkedOrder.setNext D₁ page.prev (nftOwnerMax owner)) w none) (nftOwnerMax owner)
      (some { page with next := none }) with hD₂
  have hlast : D₂ (nftOwnerMax owner) = some { page with next := none } :=
    update_self _ _ _
  have hold : D₂ w = none := by
    rw [hD₂, update_of_ne (hlastne w hw), update_self]
  have hother : ∀ k, k ≠ w → k ≠ nftOwnerMax owner →
      D₂ k = LinkedOrder.setNext D₁ page.prev (nftOwnerMax owner) k := by
    intro k hkw hkl
    rw [hD₂, update_of_ne hkl, update_of_ne hkw]
  -- the same lists of tokens, two of them exchanged
  have hvalues : ∀ k, (D₂ k).map LinkedOrder.Node.value =
      (D (Equiv.swap w (nftOwnerMax owner) k)).map LinkedOrder.Node.value := by
    intro k
    by_cases hkw : k = w
    · subst hkw
      rw [Equiv.swap_apply_left, hold, Option.not_isSome_iff_eq_none.mp hno]
    · by_cases hkl : k = nftOwnerMax owner
      · subst hkl
        rw [Equiv.swap_apply_right, ← hrelinks.value_eq, hlast, hpage]
        rfl
      · rw [Equiv.swap_apply_of_ne_of_ne hkw hkl, hother k hkw hkl, LinkedOrder.setNext,
          ← hrelinks.value_eq]
        split_ifs
        · rw [Option.map_map]
          rfl
        · rfl
  have hsupport : support D₂ = insert (nftOwnerMax owner) (support D \ {w}) := by
    ext k
    have hk := congrArg Option.isSome (hvalues k)
    rw [Option.isSome_map, Option.isSome_map] at hk
    change (D₂ k).isSome = true ↔ k = nftOwnerMax owner ∨ (k ∈ support D ∧ k ≠ w)
    by_cases hkw : k = w
    · subst hkw
      rw [hold]
      exact iff_of_false (by simp) fun h => h.elim (hlastne k hw) fun h => h.2 rfl
    · by_cases hkl : k = nftOwnerMax owner
      · subst hkl
        rw [hlast]
        exact iff_of_true rfl (.inl rfl)
      · rw [hk, Equiv.swap_apply_of_ne_of_ne hkw hkl]
        exact ⟨fun h => .inr ⟨h, hkw⟩, fun h => (h.resolve_left hkl).1⟩
  have hpre : ∀ k ∈ pre, k ∈ support D ∧ k < w := by
    intro k hk
    exact ⟨hmem k (by simp [hk]), (List.pairwise_append.mp hsort).2.2 k hk w (by simp)⟩
  have hchain : Chain D₂ none (pre ++ [nftOwnerMax owner]) := by
    refine hjoined.chain hpreNodup hpage ?_ hlast
    intro k hk y hy
    obtain ⟨hkD, hkw⟩ := hpre k hk
    rw [hother k hkw.ne (hlastne k hkD), LinkedOrder.setNext, hy]
    by_cases hprev : page.prev = some k
    · exact ⟨_, if_pos hprev, fun _ => rfl, fun h => absurd hprev h⟩
    · exact ⟨_, if_neg hprev, fun h => absurd h hprev, fun _ => rfl⟩
  have hsort' : (pre ++ [nftOwnerMax owner]).Pairwise (· < ·) := by
    refine List.pairwise_append.mpr ⟨(List.pairwise_append.mp hsort).1,
      List.pairwise_singleton _ _, fun k hk last hlast => ?_⟩
    rw [List.mem_singleton.mp hlast]
    obtain ⟨hkD, hkw⟩ := hpre k hk
    exact hkw.trans_le (le_ownerMax (hS hw))
  have hlinked : Linked D₂ ↔ Repairable owner (support D) := by
    rw [hchain.linked_iff hsort' (by simp), hsupport,
      ← hwalk.covers_iff_repairable hS hfirst hne howner]
    constructor
    · intro hall k hk
      by_cases hkw : k = w
      · simp [hkw]
      · have hin := hall k (.inr ⟨hk, hkw⟩)
        rw [List.mem_append, List.mem_singleton] at hin
        exact List.mem_append_left _ (hin.resolve_right (hlastne k hk))
    · rintro hall k (rfl | ⟨hk, hkw⟩)
      · simp
      · have hin := hall k hk
        rw [List.mem_append, List.mem_singleton] at hin
        exact List.mem_append_left _ (hin.resolve_right hkw)
  refine ⟨tokenCount_eq _ hvalues, ⟨fun h => hlinked.mp h.linked, fun h => ⟨hlinked.mpr h, ?_⟩⟩, ?_⟩
  · intro _ _ _
    exact mem_support hlast
  · intro h
    rw [hsupport]
    exact h.move hS howner w

end

theorem viewSucc_first (h : (pageRegion owner).Stores base v D out) :
    ∃ r, viewSucc (nftOwnerMin owner) (nftOwnerMax owner).next v = .ok r v ∧
      (HasNext owner → IsNext (support D) (nftOwnerMin owner) r) ∧ (¬HasNext owner → r = none) := by
  by_cases howner : HasNext owner
  · obtain ⟨r, hsucc, hnext⟩ := viewSucc_isNext h howner (ownerMin_mem owner)
    exact ⟨r, hsucc, fun _ => hnext, fun hnot => absurd howner hnot⟩
  · exact ⟨none, viewSucc_eq_none h howner, fun h => absurd h howner, fun _ => rfl⟩

theorem finishRepair_last (ctx : Context) (h : (pageRegion owner).Stores base v D out)
    {walked : Walked} {lastPage : STLedgerEntry} (hnext : walked.nextPage = some lastPage)
    (hD : D key = some page) (hout : key ∈ out)
    (hsle : (pageRegion owner).IsEntry lastPage key page) :
    ∃ didRepair v', finishRepair ctx owner walked v = .ok didRepair v' ∧
      (pageRegion owner).Stores base v' (update D key (some { page with next := none }))
        (insert key out) ∧
      (page.next = none → didRepair = walked.didRepair ∧ state v' = state v) := by
  have hobj : PageObject lastPage.object page := hsle.object
  have hcleared : PageObject (makeFieldAbsent lastPage.object sfNextPageMin)
      { page with next := none } := hobj.setNext sets_makeFieldAbsent
  obtain ⟨sle', didRepair, v', hdrop, -, hst, hkeep⟩ := dropLink_eq h hD hout hsle
    hobj.hasNext hcleared (by rintro heq; rw [← heq]) walked.didRepair
  refine ⟨didRepair, v', ?_, hst, hkeep⟩
  rw [finishRepair, hnext]
  dsimp only
  rw [bind_of_ok hdrop]
  rfl

/-- The links of pages that are repaired are right. -/
theorem Repaired.chain (h : Repaired owner D) (hsort : keys.Pairwise (· < ·))
    (hmem : ∀ k ∈ keys, k ∈ support D) (hall : ∀ k ∈ support D, k ∈ keys) : Chain D none keys :=
  h.linked.chain_of_forall_mem hsort hmem hall

theorem repairFrom_eq (hformats : ctx.HasFormats) (h : (pageRegion owner).Stores base v D out)
    (howner : HasNext owner) (hD : D key = some page) (hout : key ∈ out)
    (hsle : (pageRegion owner).IsEntry sle key page)
    (hfirst : IsNext (support D) (nftOwnerMin owner) (some key)) (hne : key ≠ nftOwnerMax owner) :
    ∃ bound didRepair v' D' out', (∀ rounds ≥ bound,
        repairFrom ctx rounds owner sle v = .ok (some didRepair) v') ∧
      (pageRegion owner).Stores base v' D' out' ∧ RepairsTo owner D D' ∧
      (Repairable owner (support D) → Repaired owner D →
        didRepair = false ∧ state v' = state v) := by
  have hS : support D ⊆ ownerKeys owner := fun k hk => h.within k hk
  have hobj : PageObject sle.object page := hsle.object
  have hcleared : PageObject (makeFieldAbsent sle.object sfPreviousPageMin)
      { page with prev := none } := hobj.setPrev sets_makeFieldAbsent
  obtain ⟨sle₁, did₁, v₁, hdrop, hsle₁, h₁, hkeep₁⟩ := dropLink_eq h hD hout hsle hobj.hasPrev
    hcleared (by rintro heq; rw [← heq]) false
  obtain ⟨keys, hwalk⟩ := exists_walk hS (fun k hk => by
    obtain ⟨r, -, hr⟩ := viewSucc_isNext h howner hk
    exact ⟨r, hr⟩) (hS hfirst.1.1) hne
  have hsort := hwalk.sorted hS hfirst.1.1 hne
  have hmem := hwalk.mem hfirst.1.1
  have hcovers := hwalk.covers_iff_repairable hS hfirst hne howner
  obtain ⟨tail, htail⟩ := hwalk.exists_tail
  have hrelinks₁ : Relinks D (update D key (some { page with prev := none })) keys :=
    Relinks.update hD (htail ▸ List.mem_cons_self) rfl
  obtain ⟨walked, v₂, D₂, out₂, hrun, h₂, hrelinks₂, hjoined, hlast, ⟨w, hw, hwout, x, hx, hxsle⟩,
    hkeep₂⟩ := walkPages_eq howner hwalk hS hne h₁ hrelinks₁.support_eq (update_self _ _ _)
      (Set.mem_insert _ _) hsle₁ rfl did₁
  have hrelinks := hrelinks₁.trans hrelinks₂
  obtain ⟨pre, w', rfl, hwlast⟩ := hwalk.exists_last
  obtain rfl : w' = w := by simpa using hw
  -- the call, up to what is done after the loop
  have hcall : ∀ {didRepair v'}, finishRepair ctx owner walked v₂ = .ok didRepair v' →
      ∀ rounds ≥ (pre ++ [w']).length,
        repairFrom ctx rounds owner sle v = .ok (some didRepair) v' := by
    intro didRepair v' hfinish rounds hrounds
    rw [repairFrom, bind_of_ok hdrop]
    dsimp only
    rw [bind_of_ok (hrun rounds hrounds)]
    dsimp only
    rw [bind_of_ok hfinish]
    rfl
  by_cases hmax : nftOwnerMax owner ∈ support D
  · obtain ⟨lastPage, hlastPage⟩ := Option.isSome_iff_exists.mp (hlast.mpr hmax)
    rw [hlastPage, Option.getD_some] at hxsle
    obtain ⟨didRepair, v₃, hfinish, h₃, hkeep₃⟩ := finishRepair_last ctx h₂ hlastPage hx hwout
      hxsle
    refine ⟨_, didRepair, v₃, _, _, hcall hfinish, h₃,
      repairsTo_last hwalk hS hfirst hne howner hrelinks hjoined hx (hwlast hmax), ?_⟩
    intro hrepairable hrepaired
    have hchain := hrepaired.chain hsort hmem (hcovers.mpr hrepairable)
    have hprev : page.prev = none := by
      rw [htail] at hchain
      obtain ⟨⟨y, hy, hprev, -⟩, -⟩ := hchain
      obtain rfl := Option.some.inj (hD.symm.trans hy)
      exact hprev
    obtain ⟨rfl, hstate₁⟩ := hkeep₁ hprev
    have hsame : update D key (some { page with prev := none }) = D := by
      rw [← hprev, ← hD, update_eq_self]
    rw [hsame] at hkeep₂
    obtain ⟨rfl, hdid₂, hstate₂⟩ := hkeep₂ hchain.joined
    obtain ⟨hdid₃, hstate₃⟩ := hkeep₃ (hchain.next_last hx)
    exact ⟨hdid₃.trans hdid₂, hstate₃.trans (hstate₂.trans hstate₁)⟩
  · have hnone : walked.nextPage = none :=
      Option.not_isSome_iff_eq_none.mp fun hsome => hmax (hlast.mp hsome)
    rw [hnone, Option.getD_none] at hxsle
    have hw' : w' ∈ support D := hmem w' (by simp)
    have hD₂max : D₂ (nftOwnerMax owner) = none :=
      Option.not_isSome_iff_eq_none.mp fun hsome => hmax (hrelinks.support_eq ▸ hsome)
    have hprev : ∀ j ∈ x.prev, j ≠ w' ∧ (D₂ j).isSome = true := by
      intro j hj
      have hpre : j ∈ pre := by
        have heq := hjoined.prev_eq hx
        rw [show x.prev = some j from hj, Option.or_none] at heq
        exact List.mem_of_getLast? heq.symm
      refine ⟨(List.nodup_append.mp hsort.nodup).2.2 j hpre w' (by simp), ?_⟩
      have hin : j ∈ support D₂ := hrelinks.support_eq ▸ hmem j (by simp [hpre])
      exact hin
    obtain ⟨v₃, hmove, h₃⟩ := moveLast_eq h₂ hx hwout hxsle hformats (fun heq => hmax (heq ▸ hw'))
      hD₂max hprev
    have hfinish : finishRepair ctx owner walked v₂ = .ok true v₃ := by
      rw [finishRepair, hnone]
      exact hmove
    refine ⟨_, true, v₃, _, _, hcall hfinish, h₃,
      repairsTo_moved hwalk hS hfirst hne howner hrelinks hjoined hx hmax, ?_⟩
    intro _ hrepaired
    exact absurd (hrepaired.last key page hD) hmax

theorem repairNftokenDirectoryLinks_eq (hformats : ctx.HasFormats)
    (h : (pageRegion owner).Stores base v D out) :
    ∃ bound didRepair v' D', (∀ rounds ≥ bound,
        repairNftokenDirectoryLinks ctx rounds owner v = .ok (some didRepair) v') ∧
      (pageRegion owner).Stores base v' D' ∅ ∧ RepairsTo owner D D' ∧
      (Repairable owner (support D) → Repaired owner D →
        didRepair = false ∧ state v' = state v) := by
  have hS : support D ⊆ ownerKeys owner := fun k hk => h.within k hk
  obtain ⟨r, hsucc, hnext, hnoNext⟩ := viewSucc_first h
  -- a key that is found is the key of a page
  have hfound : ∀ n, r = some n → HasNext owner ∧ n ∈ support D := by
    rintro n rfl
    have howner : HasNext owner := not_not.mp fun hnot => by cases hnoNext hnot
    exact ⟨howner, (hnext howner).1.1⟩
  have hkey : r.getD (nftOwnerMax owner) ∈ ownerKeys owner := by
    cases r with
    | none => exact ownerMax_mem owner
    | some n => exact hS (hfound n rfl).2
  obtain ⟨found, v₁, hpeek, hholds, h₁, hstate₁⟩ := peekPage_keeps h hkey
  rcases hD : D (r.getD (nftOwnerMax owner)) with _ | page
  · obtain rfl : r = none := by
      cases r with
      | none => rfl
      | some n =>
        obtain ⟨page, hpage⟩ := exists_of_mem_support (hfound n rfl).2
        exact absurd (hD.symm.trans hpage) (by simp)
    rw [hD] at hholds
    obtain rfl : found = none := hholds
    have hno : nftOwnerMax owner ∉ support D := by
      intro hmem
      obtain ⟨page, hpage⟩ := exists_of_mem_support hmem
      exact absurd (hD.symm.trans hpage) (by simp)
    refine ⟨0, false, v₁, D, fun rounds _ => ?_, h₁.weaken (Set.empty_subset _),
      .of_relinks (.refl D []) (repaired_iff_of_no_page hS hno hnext), fun _ _ => ⟨rfl, hstate₁⟩⟩
    rw [repairNftokenDirectoryLinks, bind_of_ok hsucc, bind_of_ok hpeek]
    rfl
  · rw [hD] at hholds
    obtain ⟨sle, rfl, hsle⟩ := hholds
    by_cases hlast : r.getD (nftOwnerMax owner) = nftOwnerMax owner
    · rw [hlast] at hD hsle h₁ hpeek
      have hfirst : HasNext owner →
          IsNext (support D) (nftOwnerMin owner) (some (nftOwnerMax owner)) := by
        intro howner
        cases r with
        | none => exact absurd (ownerMin_lt_ownerMax owner) (hnext howner _ (mem_support hD))
        | some n =>
          obtain rfl : n = nftOwnerMax owner := hlast
          exact hnext howner
      obtain ⟨didRepair, v₂, hsingle, h₂, hkeep⟩ := repairSingle_eq h₁ hD (Set.mem_insert _ _) hsle
      refine ⟨0, didRepair, v₂, _, fun rounds _ => ?_, h₂.weaken (Set.empty_subset _),
        repairsTo_single hS hD hfirst, fun hrepairable hrepaired => ?_⟩
      · rw [repairNftokenDirectoryLinks, bind_of_ok hsucc, hlast, bind_of_ok hpeek]
        dsimp only
        rw [if_pos rfl, bind_of_ok hsingle]
        rfl
      · have hchain := hrepaired.chain (List.pairwise_singleton _ _)
          (List.forall_mem_singleton.mpr (mem_support hD))
          ((subset_last_iff hS hfirst).mpr hrepairable)
        obtain ⟨⟨x, hx, hprev, hnone⟩, -⟩ := hchain
        obtain rfl := Option.some.inj (hD.symm.trans hx)
        obtain ⟨hdid, hstate⟩ := hkeep hnone hprev
        exact ⟨hdid, hstate.trans hstate₁⟩
    · obtain ⟨n, rfl⟩ : ∃ n, r = some n := by
        cases r with
        | none => exact absurd rfl hlast
        | some n => exact ⟨n, rfl⟩
      rw [Option.getD_some] at hD hsle h₁ hlast hpeek
      have howner := (hfound n rfl).1
      obtain ⟨bound, didRepair, v₂, D', out', hrun, h₂, hrepairs, hkeep⟩ := repairFrom_eq hformats
        h₁ howner hD (Set.mem_insert _ _) hsle (hnext howner) hlast
      refine ⟨bound, didRepair, v₂, D', fun rounds hrounds => ?_, h₂.weaken (Set.empty_subset _),
        hrepairs, fun hrepairable hrepaired => ?_⟩
      · rw [repairNftokenDirectoryLinks, bind_of_ok hsucc, Option.getD_some,
          bind_of_ok hpeek]
        dsimp only
        rw [if_neg hlast]
        exact hrun rounds hrounds
      · obtain ⟨hdid, hstate⟩ := hkeep hrepairable hrepaired
        exact ⟨hdid, hstate.trans hstate₁⟩

/-- The repair returns, keeps all tokens, and leaves a doubly linked list that ends at the last key
and that a second call does not change, exactly if no page is passed over. -/
theorem repairNftokenDirectoryLinks_repairs_iff (hformats : ctx.HasFormats)
    (h : (pageRegion owner).Stores base v D ∅) :
    ∃ bound didRepair v' D', (∀ rounds ≥ bound,
        repairNftokenDirectoryLinks ctx rounds owner v = .ok (some didRepair) v') ∧
      (pageRegion owner).Stores base v' D' ∅ ∧
      (∀ token, tokenCount D' token = tokenCount D token) ∧
      ((Repaired owner D' ∧ ∃ bound' v'', (∀ rounds ≥ bound',
          repairNftokenDirectoryLinks ctx rounds owner v' = .ok (some false) v'') ∧
          state v'' = state v') ↔ Repairable owner (support D)) := by
  obtain ⟨bound, didRepair, v', D', hrun, h', hrepairs, -⟩ :=
    repairNftokenDirectoryLinks_eq hformats h
  refine ⟨bound, didRepair, v', D', hrun, h', hrepairs.tokens, ?_⟩
  constructor
  · rintro ⟨hrepaired, -⟩
    exact hrepairs.repaired_iff.mp hrepaired
  · intro hrepairable
    have hrepaired := hrepairs.repaired_iff.mpr hrepairable
    obtain ⟨bound', again, v'', D'', hrun', -, -, hkeep⟩ :=
      repairNftokenDirectoryLinks_eq hformats h'
    obtain ⟨rfl, hstate⟩ := hkeep (hrepairs.repairable hrepairable) hrepaired
    exact ⟨hrepaired, bound', v'', hrun', hstate⟩

end Repair

section Sample

open ReadModel (state)

theorem Stores.pages {V : Type} [ApplyModel V] {ctx : Context}
    {base : LedgerState} {v : V} {count : ℕ} {out : Set Uint256}
    (h : Stores ctx owner base v D count out) (hs : Setting ctx owner) :
    (pageRegion owner).Stores (state v) v D ∅ where
  valid := h.region.valid
  within := h.within
  holds key hkey := by
    have hholds := h.region.holds key (Set.mem_insert_of_mem _ hkey)
    rw [items_of_mem hs hkey] at hholds
    cases hD : D key with
    | none =>
      rw [hD] at hholds
      exact hholds
    | some page =>
      rw [hD] at hholds
      obtain ⟨sle, hfind, hsle⟩ := hholds
      exact ⟨sle, hfind, hsle.key_eq, hsle.type_eq, hsle.object⟩
  checkedOut _ hkey := absurd hkey (Set.notMem_empty _)
  frame _ _ := rfl

/-- Two pages that do not know of each other, and no last page. -/
def sampleLoose : List (Uint256 × Page) :=
  [(BaseUInt.ofNat 2, ⟨[sampleToken 1], none, some (BaseUInt.ofNat 7)⟩),
    (BaseUInt.ofNat 4, ⟨[sampleToken 3], some (BaseUInt.ofNat 9), none⟩)]

theorem repairNftokenDirectoryLinks_repairs_sampleLoose :
    ∃ bound didRepair, ∃ v' : Sandbox BaseView, ∃ D', (∀ rounds ≥ bound,
        repairNftokenDirectoryLinks sampleContext rounds sampleOwner
          (Sandbox.new (BaseView.ledger (sampleLedger 2 sampleLoose)) false) =
            .ok (some didRepair) v') ∧
      (pageRegion sampleOwner).Stores (sampleLedger 2 sampleLoose) v' D' ∅ ∧
      Repaired sampleOwner D' := by
  have hst := (sample_stores 2 sampleLoose (by
    change ∀ item ∈ sampleLoose, item.1.toNat / 256 ^ 12 = sampleOwner.toNat
    decide)).pages sample_setting
  obtain ⟨bound, didRepair, v', D', hrun, h', -, hiff⟩ :=
    repairNftokenDirectoryLinks_repairs_iff sample_setting.formats hst
  have hmem := mem_support_samplePages sampleLoose (by decide)
  have hrepairable : Repairable sampleOwner (support (samplePages sampleLoose)) := by
    refine ⟨fun _ => ⟨?_, ?_⟩, fun hnot => absurd sample_setting.hasNext hnot⟩
    · rw [hmem]
      decide
    · intro key hkey hnext
      rw [hmem] at hkey hnext
      exact (by decide : ∀ key ∈ sampleLoose.map Prod.fst,
        key.next ∈ sampleLoose.map Prod.fst → key.next = nftOwnerMax sampleOwner) key hkey hnext
  exact ⟨bound, didRepair, v', D', hrun, h', (hiff.mpr hrepairable).1⟩

/-- A list that is in order, with two pages under consecutive keys, is not in order after the
repair. -/
theorem repairNftokenDirectoryLinks_breaks_list :
    WellFormed sampleOwner (samplePages sampleThree) ∧
    (pageRegion sampleOwner).Stores (sampleLedger 3 sampleThree)
      (Sandbox.new (BaseView.ledger (sampleLedger 3 sampleThree)) false)
      (samplePages sampleThree) ∅ ∧
    ∃ bound didRepair, ∃ v' : Sandbox BaseView, ∃ D', (∀ rounds ≥ bound,
        repairNftokenDirectoryLinks sampleContext rounds sampleOwner
          (Sandbox.new (BaseView.ledger (sampleLedger 3 sampleThree)) false) =
            .ok (some didRepair) v') ∧
      (pageRegion sampleOwner).Stores (sampleLedger 3 sampleThree) v' D' ∅ ∧
      ¬Repaired sampleOwner D' := by
  have hst := sampleThree_stores.pages sample_setting
  obtain ⟨bound, didRepair, v', D', hrun, h', hrepairs, -⟩ :=
    repairNftokenDirectoryLinks_eq sample_setting.formats hst
  refine ⟨sampleThree_wellFormed, hst, bound, didRepair, v', D', hrun, h', fun hrepaired => ?_⟩
  have hmem := mem_support_samplePages sampleThree (by decide)
  obtain ⟨-, hspaced⟩ := (hrepairs.repaired_iff.mp hrepaired).1 sample_setting.hasNext
  have hlast := hspaced (BaseUInt.ofNat 2) ((hmem _).mpr (by decide)) ((hmem _).mpr (by decide))
  exact absurd hlast (by decide)

end Sample

end Quaxar.Nft
