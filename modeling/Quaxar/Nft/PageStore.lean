import Quaxar.Nft.PageList
import Quaxar.Views.Region
import Quaxar.Views.Sandbox

/-!
# Page lists in a ledger

The ledger entries that hold the pages of an owner and the owner's count. Each call that
the code makes on a view reads or writes one page or the count.
-/

namespace Quaxar.Nft

open Views
open Protocol (AccountID)
open LinkedOrder (support)
open Function (update_of_ne update_self)

/-- `object'` is `object` with another value in one slot. -/
def Sets (object object' : STObject) (field : SField) (slot : Option FieldValue) : Prop :=
  ∀ other : SField,
    object'.fields[other]? = if field = other then some slot else object.fields[other]?

variable {object object' : STObject} {field : SField} {value : FieldValue}
  {slot : Option FieldValue}

theorem sets_setField (h : object.Accepts field value.stype) :
    Sets object (object.setField field value) field (some value) := by
  intro other
  split_ifs with heq
  · exact heq ▸ STObject.fields_setField h
  · exact STObject.fields_setField_of_ne heq

theorem sets_setStbase (h : object.fields[field]? = some slot) :
    Sets object (object.setStbase field value) field (some value) := by
  intro other
  rw [STObject.setStbase, h]
  exact OrderedMap.getElem?_insert object.fields field other (some value)

theorem sets_makeFieldAbsent : Sets object (makeFieldAbsent object field) field none :=
  fun other => OrderedMap.getElem?_insert object.fields field other none

theorem Sets.self (h : Sets object object' field slot) : object'.fields[field]? = some slot :=
  (h field).trans (if_pos rfl)

theorem Sets.of_ne (h : Sets object object' field slot) {other : SField} (hne : field ≠ other) :
    object'.fields[other]? = object.fields[other]? :=
  (h other).trans (if_neg hne)

/-- The slot of a link. -/
abbrev linkSlot (key : Option Uint256) : Option FieldValue := key.map .uint256

/-- The object of a page. -/
structure PageObject (object : STObject) (page : Page) : Prop where
  type_eq : object.fields[sfLedgerEntryType]? =
    some (some (uint16Value LedgerEntryType.nftokenPage.code))
  tokens_eq : object.fields[sfNFTokens]? = some (some (.nftokens page.value))
  next_eq : object.fields[sfNextPageMin]? = some (linkSlot page.next)
  prev_eq : object.fields[sfPreviousPageMin]? = some (linkSlot page.prev)

/-- The object of an account with an owner count. -/
structure OwnerObject (object : STObject) (count : ℕ) : Prop where
  type_eq : object.fields[sfLedgerEntryType]? =
    some (some (uint16Value LedgerEntryType.accountRoot.code))
  count_eq : object.fields[sfOwnerCount]? = some (some (.uint32 count))

/-- A field that holds a link. -/
def HasLink (object : STObject) (field : SField) (key : Option Uint256) : Prop :=
  object.fields[field]? = some (linkSlot key)

namespace HasLink

variable {key : Option Uint256}

theorem isFieldPresent (h : HasLink object field key) :
    object.isFieldPresent field = key.isSome := by
  rw [STObject.isFieldPresent, STObject.peekAtPfield, show object.fields[field]? = _ from h]
  cases key <;> rfl

theorem getFieldH256 {k : Uint256} (h : HasLink object field (some k)) :
    object.getFieldH256 field = k := by
  rw [STObject.getFieldH256, STObject.peekAtPfield, show object.fields[field]? = _ from h]
  rfl

theorem accepts (h : HasLink object field key) : object.Accepts field 5 := by
  unfold STObject.Accepts
  rw [show object.fields[field]? = _ from h]
  cases key with
  | none => trivial
  | some k => rfl

theorem sets (h : HasLink object field key) (k : Uint256) :
    Sets object (object.setField field (.uint256 k)) field (linkSlot (some k)) :=
  sets_setField h.accepts

end HasLink

namespace PageObject

variable {page : Page}

section

variable (h : PageObject object page)

include h

theorem getFieldArray : object.getFieldArray sfNFTokens = page.value := by
  rw [STObject.getFieldArray, STObject.peekAtPfield, h.tokens_eq]
  rfl

theorem hasNext : HasLink object sfNextPageMin page.next := h.next_eq

theorem hasPrev : HasLink object sfPreviousPageMin page.prev :=
  h.prev_eq

theorem setNext {next : Option Uint256} (hset : Sets object object' sfNextPageMin (linkSlot next)) :
    PageObject object' { page with next } :=
  ⟨(hset.of_ne (by decide)).trans h.type_eq, (hset.of_ne (by decide)).trans h.tokens_eq, hset.self,
    (hset.of_ne (by decide)).trans h.prev_eq⟩

theorem setPrev {prev : Option Uint256}
    (hset : Sets object object' sfPreviousPageMin (linkSlot prev)) :
    PageObject object' { page with prev } :=
  ⟨(hset.of_ne (by decide)).trans h.type_eq, (hset.of_ne (by decide)).trans h.tokens_eq,
    (hset.of_ne (by decide)).trans h.next_eq, hset.self⟩

theorem setTokens (value : List NFToken) :
    PageObject (object.setStbase sfNFTokens (.nftokens value)) { page with value } := by
  have hset : Sets object (object.setStbase sfNFTokens (.nftokens value)) sfNFTokens
      (some (.nftokens value)) := sets_setStbase h.tokens_eq
  exact ⟨(hset.of_ne (by decide)).trans h.type_eq, hset.self,
    (hset.of_ne (by decide)).trans h.next_eq, (hset.of_ne (by decide)).trans h.prev_eq⟩

theorem linkNext (key : Uint256) :
    PageObject (object.setField sfNextPageMin (.uint256 key)) { page with next := some key } :=
  h.setNext (h.hasNext.sets key)

theorem linkPrev (key : Uint256) :
    PageObject (object.setField sfPreviousPageMin (.uint256 key)) { page with prev := some key } :=
  h.setPrev (h.hasPrev.sets key)

theorem clearPrev :
    PageObject (if object.isFieldPresent sfPreviousPageMin then
      makeFieldAbsent object sfPreviousPageMin else object) { page with prev := none } := by
  rw [h.hasPrev.isFieldPresent]
  rcases hprev : page.prev with _ | key
  · have hpage : { page with prev := none } = page := by rw [← hprev]
    rw [hpage]
    exact h
  · exact h.setPrev sets_makeFieldAbsent

end

end PageObject

/-- The formats have the two entry types as the source registers them. -/
structure Context.HasFormats (ctx : Context) : Prop where
  page : ctx.formats.findByType .nftokenPage = some nftokenPageTemplate
  account : ctx.formats.findByType .accountRoot = some accountRootTemplate

variable {ctx : Context} {page : Page} {count : ℕ}

theorem fromStobject_eq (formats : LedgerFormats) {entryType : LedgerEntryType}
    {template : SOTemplate} (key : Uint256) (hfind : formats.findByType entryType = some template)
    (hslot : object.fields[sfLedgerEntryType]? = some (some (uint16Value entryType.code))) :
    STLedgerEntry.fromStobject formats object key =
      .ok ⟨object.applyTemplate formats template, key, entryType⟩ := by
  have hpres : object.isFieldPresent sfLedgerEntryType = true := by
    rw [STObject.isFieldPresent, STObject.peekAtPfield, hslot]
    rfl
  have hcode : object.getFieldU16 sfLedgerEntryType = entryType.code := by
    rw [STObject.getFieldU16, STObject.peekAtPfield, hslot]
    cases entryType <;> rfl
  rw [STLedgerEntry.fromStobject, if_pos hpres]
  simp only [hcode, ledgerEntryTypeFromCode_code, hfind]

theorem PageObject.applyTemplate (formats : LedgerFormats) (template : SOTemplate)
    (h : PageObject object page) : PageObject (object.applyTemplate formats template) page :=
  ⟨STObject.fields_applyTemplate formats template h.type_eq rfl,
    STObject.fields_applyTemplate formats template h.tokens_eq rfl,
    STObject.fields_applyTemplate formats template h.next_eq rfl,
    STObject.fields_applyTemplate formats template h.prev_eq rfl⟩

theorem OwnerObject.applyTemplate (formats : LedgerFormats) (template : SOTemplate)
    (h : OwnerObject object count) : OwnerObject (object.applyTemplate formats template) count :=
  ⟨STObject.fields_applyTemplate formats template h.type_eq rfl,
    STObject.fields_applyTemplate formats template h.count_eq rfl⟩

theorem OwnerObject.getFieldU32 (h : OwnerObject object count) :
    object.getFieldU32 sfOwnerCount = count := by
  rw [STObject.getFieldU32, STObject.peekAtPfield, h.count_eq]
  rfl

theorem OwnerObject.setCount (h : OwnerObject object count) (n : ℕ) :
    OwnerObject (object.setField sfOwnerCount (.uint32 n)) n := by
  have haccepts : object.Accepts sfOwnerCount (FieldValue.uint32 n).stype := by
    unfold STObject.Accepts
    rw [h.count_eq]
    rfl
  have hset := sets_setField haccepts
  exact ⟨(hset.of_ne (by decide)).trans h.type_eq, hset.self⟩

/-- What the entries of the region hold. -/
inductive Item where
  | page (page : Page)
  | owner (count : ℕ)

/-- The keys of an owner's pages, and of the owner. -/
def region (ctx : Context) (owner : AccountID) : Region Uint256 Item where
  keys := insert (ctx.accountKey owner) (ownerKeys owner)
  keyOf := id
  entryType
    | .page _ => .nftokenPage
    | .owner _ => .accountRoot
  Rep object
    | .page page => PageObject object page
    | .owner count => OwnerObject object count

/-- An entry that holds a page. -/
abbrev IsPage (ctx : Context) (owner : AccountID) (sle : STLedgerEntry) (key : Uint256)
    (page : Page) : Prop :=
  (region ctx owner).IsEntry sle key (.page page)

theorem new_eq (hformats : ctx.HasFormats) (key : Uint256) (value : List NFToken) :
    ∃ sle, STLedgerEntry.new ctx.formats ⟨.nftokenPage, key⟩ = .ok sle ∧
      sle.key = key ∧ sle.entryType = .nftokenPage ∧
      PageObject (sle.object.setStbase sfNFTokens (.nftokens value)) ⟨value, none, none⟩ := by
  let slots := nftokenPageTemplate.map fun field style =>
    if style = .required then some (ctx.formats.defaultObject field) else none
  have hslots : ∀ field : SField, slots[field]? = (nftokenPageTemplate[field]?).map fun style =>
      if style = .required then some (ctx.formats.defaultObject field) else none :=
    fun field => Std.ExtTreeMap.getElem?_map
  have haccepts : (STObject.mk slots false).Accepts sfLedgerEntryType
      (uint16Value LedgerEntryType.nftokenPage.code).stype := by
    rw [STObject.Accepts, hslots]
    exact ctx.formats.stype_defaultObject sfLedgerEntryType
  have hset := sets_setField haccepts
  have htokens : ((STObject.mk slots false).setField sfLedgerEntryType
      (uint16Value LedgerEntryType.nftokenPage.code)).fields[sfNFTokens]? =
        some (some (ctx.formats.defaultObject sfNFTokens)) := by
    rw [hset.of_ne (by decide), hslots]
    rfl
  have hset' : Sets _ _ sfNFTokens (some (.nftokens value)) := sets_setStbase htokens
  refine ⟨⟨(STObject.mk slots false).setField sfLedgerEntryType
    (uint16Value LedgerEntryType.nftokenPage.code), key, .nftokenPage⟩, ?_, rfl, rfl, ?_⟩
  · rw [STLedgerEntry.new]
    simp only
    rw [hformats.page]
  · refine ⟨(hset'.of_ne (by decide)).trans hset.self, hset'.self, ?_, ?_⟩
    all_goals
      rw [hset'.of_ne (by decide), hset.of_ne (by decide)]
      rw [hslots]
      rfl

variable {V : Type} {α : Type} {x : EStateM ViewError V α} {v v' : V}

theorem attempt_of_ok {a : α} (h : x v = .ok a v') : attempt x v = .ok (some a) v' := by
  simp only [attempt, h]

theorem attempt_of_conversion {message : String} (h : x v = .error (.conversion message) v') :
    attempt x v = .ok none v' := by
  simp only [attempt, h]

variable {V : Type} [ApplyView V] [ApplyModel V]

/-- The items of the region. -/
def items (ctx : Context) (owner : AccountID) (D : Uint256 → Option Page) (count : ℕ) :
    Uint256 → Option Item := fun key =>
  if key = ctx.accountKey owner then some (.owner count) else (D key).map .page

/-- The view has the pages `D` of the owner, whose count is `count`, and agrees with `base`
elsewhere. The keys `out` are checked out. -/
structure Stores (ctx : Context) (owner : AccountID) (base : LedgerState) (v : V)
    (D : Uint256 → Option Page) (count : ℕ) (out : Set Uint256) : Prop where
  region : (region ctx owner).Stores base v (items ctx owner D count) out
  within : ∀ key, (D key).isSome = true → key ∈ ownerKeys owner

/-- What is known of the surroundings: the formats, and that the key of the account, a
hash, is not one of its pages. -/
structure Setting (ctx : Context) (owner : AccountID) : Prop where
  formats : ctx.HasFormats
  apart : ctx.accountKey owner ∉ ownerKeys owner
  hasNext : HasNext owner

variable {owner : AccountID} {base : LedgerState} {v v' : V} {D : Uint256 → Option Page}
  {out : Set Uint256} {key : Uint256} {sle : STLedgerEntry}

theorem Setting.ne_account (hs : Setting ctx owner) (hkey : key ∈ ownerKeys owner) :
    key ≠ ctx.accountKey owner := by
  rintro rfl
  exact hs.apart hkey

theorem items_of_mem (hs : Setting ctx owner) (hkey : key ∈ ownerKeys owner) :
    items ctx owner D count key = (D key).map .page :=
  if_neg (hs.ne_account hkey)

theorem items_account : items ctx owner D count (ctx.accountKey owner) = some (.owner count) :=
  if_pos rfl

theorem update_items (hs : Setting ctx owner) (hkey : key ∈ ownerKeys owner) (page : Option Page) :
    Function.update (items ctx owner D count) key (page.map .page) =
      items ctx owner (Function.update D key page) count := by
  funext a
  by_cases ha : a = key
  · subst ha
    rw [update_self, items_of_mem hs hkey, update_self]
  · rw [update_of_ne ha, items, items, update_of_ne ha]

theorem update_items_account (n : ℕ) :
    Function.update (items ctx owner D count) (ctx.accountKey owner) (some (.owner n)) =
      items ctx owner D n := by
  funext a
  by_cases ha : a = ctx.accountKey owner
  · subst ha
    rw [update_self, items_account]
  · rw [update_of_ne ha, items, items, if_neg ha, if_neg ha]

theorem fromStobject_page (hs : Setting ctx owner) (key : Uint256) (h : PageObject object page) :
    ∃ sle, STLedgerEntry.fromStobject ctx.formats object key = .ok sle ∧
      IsPage ctx owner sle key page :=
  ⟨_, fromStobject_eq ctx.formats key hs.formats.page h.type_eq, rfl, rfl,
    h.applyTemplate ctx.formats nftokenPageTemplate⟩

namespace Stores

omit [ApplyView V] in
theorem weaken (h : Stores ctx owner base v D count out) {out' : Set Uint256} (hsub : out' ⊆ out) :
    Stores ctx owner base v D count out' :=
  ⟨h.region.weaken hsub, h.within⟩

theorem eq_of_pageObject {first second : Page} (h : PageObject object first)
    (h' : PageObject object second) : first = second := by
  have hlink : Function.Injective linkSlot :=
    Option.map_injective fun a b hab => FieldValue.uint256.inj hab
  obtain ⟨value, next, prev⟩ := first
  obtain ⟨value', next', prev'⟩ := second
  obtain rfl : value = value' := by simpa using h.tokens_eq.symm.trans h'.tokens_eq
  obtain rfl : next = next' := hlink (Option.some.inj (h.next_eq.symm.trans h'.next_eq))
  obtain rfl : prev = prev' := hlink (Option.some.inj (h.prev_eq.symm.trans h'.prev_eq))
  rfl

omit [ApplyView V] in
theorem pages_unique {D' : Uint256 → Option Page} {count' : ℕ} {base' : LedgerState}
    {out' : Set Uint256} (h : Stores ctx owner base v D count out) (hs : Setting ctx owner)
    (h' : Stores ctx owner base' v D' count' out') : D = D' := by
  funext a
  by_cases ha : a ∈ ownerKeys owner
  · have hholds := h.region.holds a (Set.mem_insert_of_mem _ ha)
    have hholds' := h'.region.holds a (Set.mem_insert_of_mem _ ha)
    rw [items_of_mem hs ha] at hholds hholds'
    rcases hD : D a with _ | x
    · rw [hD] at hholds
      have hnone := hholds'.isSome.symm.trans (congrArg Option.isSome hholds)
      rw [Option.isSome_map] at hnone
      exact (Option.not_isSome_iff_eq_none.mp (by simp [hnone])).symm
    · rw [hD] at hholds
      obtain ⟨sle, hfind, hentry⟩ := hholds
      rcases hD' : D' a with _ | y
      · rw [hD', hfind] at hholds'
        cases hholds'
      · rw [hD', hfind] at hholds'
        obtain ⟨_, ⟨⟩, hentry'⟩ := hholds'
        rw [eq_of_pageObject hentry.object hentry'.object]
  · have hnone : ∀ {E : Uint256 → Option Page}, (∀ key, (E key).isSome = true →
        key ∈ ownerKeys owner) → E a = none := fun hwithin =>
      Option.not_isSome_iff_eq_none.mp fun hsome => ha (hwithin a hsome)
    rw [hnone h.within, hnone h'.within]

theorem within_update (h : ∀ a, (D a).isSome = true → a ∈ ownerKeys owner)
    (hkey : key ∈ ownerKeys owner) (page : Option Page) (a : Uint256)
    (ha : (Function.update D key page a).isSome = true) : a ∈ ownerKeys owner := by
  by_cases hak : a = key
  · exact hak ▸ hkey
  · rw [update_of_ne hak] at ha
    exact h a ha

variable [LawfulApplyView V]

section

variable (h : Stores ctx owner base v D count out) (hs : Setting ctx owner)

include h hs

theorem peekPage_some (hpage : D key = some page) :
    ∃ sle v', peekPage key v = .ok (some sle) v' ∧ IsPage ctx owner sle key page ∧
      Stores ctx owner base v' D count (insert key out) := by
  have hkey := h.within key (by rw [hpage]; rfl)
  have hitem : items ctx owner D count key = some (.page page) := by
    rw [items_of_mem hs hkey, hpage]
    rfl
  obtain ⟨found, v', hpeek, -, hholds, hst, -⟩ :=
    h.region.peek (Set.injOn_id _) (Set.mem_insert_of_mem _ hkey)
    .nftokenPage (by decide) (by
      intro p hp
      rw [hitem] at hp
      cases hp
      rfl)
  rw [hitem] at hholds
  obtain ⟨sle, rfl, hsle⟩ := hholds
  exact ⟨sle, v', hpeek, hsle, hst, h.within⟩

theorem peekPage_none (hkey : key ∈ ownerKeys owner) (habsent : D key = none) :
    ∃ v', peekPage key v = .ok none v' ∧ Stores ctx owner base v' D count (insert key out) := by
  have hitem : items ctx owner D count key = none := by
    rw [items_of_mem hs hkey, habsent]
    rfl
  obtain ⟨found, v', hpeek, -, hholds, hst, -⟩ :=
    h.region.peek (Set.injOn_id _) (Set.mem_insert_of_mem _ hkey)
    .nftokenPage (by decide) (by
      intro p hp
      rw [hitem] at hp
      cases hp)
  rw [hitem] at hholds
  obtain rfl : found = none := hholds
  exact ⟨v', hpeek, hst, h.within⟩

theorem update (hkey : (D key).isSome = true) (hout : key ∈ out)
    (hsle : IsPage ctx owner sle key page) :
    ∃ v', ApplyView.update sle v = .ok () v' ∧
      Stores ctx owner base v' (Function.update D key (some page)) count (insert key out) := by
  have hmem := h.within key hkey
  obtain ⟨v', hok, hst⟩ := h.region.update (Set.injOn_id _)
    (by rw [items_of_mem hs hmem, Option.isSome_map]; exact hkey) hout hsle
  have hitems : Function.update (items ctx owner D count) key (some (.page page)) =
      items ctx owner (Function.update D key (some page)) count := update_items hs hmem (some page)
  rw [hitems] at hst
  exact ⟨v', hok, hst, within_update h.within hmem _⟩

theorem insert (hkey : key ∈ ownerKeys owner) (habsent : D key = none)
    (hsle : IsPage ctx owner sle key page) :
    ∃ v', ApplyView.insert sle v = .ok () v' ∧
      Stores ctx owner base v' (Function.update D key (some page)) count
        (Insert.insert key out) := by
  obtain ⟨v', hok, hst⟩ := h.region.insert (Set.injOn_id _)
    (Set.mem_insert_of_mem _ hkey) (by rw [items_of_mem hs hkey, habsent]; rfl) hsle
  have hitems : Function.update (items ctx owner D count) key (some (.page page)) =
      items ctx owner (Function.update D key (some page)) count := update_items hs hkey (some page)
  rw [hitems] at hst
  exact ⟨v', hok, hst, within_update h.within hkey _⟩

theorem erase (hkey : (D key).isSome = true) (hout : key ∈ out) (hsle : sle.key = key) :
    ∃ v', ApplyView.erase sle v = .ok () v' ∧
      Stores ctx owner base v' (Function.update D key none) count out := by
  have hmem := h.within key hkey
  obtain ⟨v', hok, -, hst⟩ := h.region.erase (Set.injOn_id _)
    (by rw [items_of_mem hs hmem, Option.isSome_map]; exact hkey) hout hsle
  have hitems : Function.update (items ctx owner D count) key none =
      items ctx owner (Function.update D key none) count := update_items hs hmem none
  rw [hitems] at hst
  exact ⟨v', hok, hst, within_update h.within hmem _⟩

theorem updateObject (hkey : (D key).isSome = true) (hout : key ∈ out)
    (hobj : PageObject object page) :
    ∃ v', updateObject ctx object key v = .ok () v' ∧
      Stores ctx owner base v' (Function.update D key (some page)) count
        (Insert.insert key out) := by
  obtain ⟨sle, hsle, hpage⟩ := fromStobject_page hs key hobj
  obtain ⟨v', hok, hst⟩ := h.update hs hkey hout hpage
  refine ⟨v', ?_, hst⟩
  rw [Nft.updateObject, hsle]
  exact hok

theorem adjustOwnerCount (hout : ctx.accountKey owner ∈ out)
    (hsle : (Nft.region ctx owner).IsEntry sle (ctx.accountKey owner) (.owner count)) (amount : ℤ) :
    ∃ v', adjustOwnerCount ctx sle amount v = .ok () v' ∧
      Stores ctx owner base v' D (confineOwnerCount count amount) out := by
  have hobj : OwnerObject sle.object count := hsle.object
  have hset := hobj.setCount (confineOwnerCount count amount)
  have hentry : (Nft.region ctx owner).IsEntry
      ⟨(sle.object.setField sfOwnerCount (.uint32 (confineOwnerCount count amount))).applyTemplate
        ctx.formats accountRootTemplate, ctx.accountKey owner, .accountRoot⟩
      (ctx.accountKey owner) (.owner (confineOwnerCount count amount)) :=
    ⟨rfl, rfl, hset.applyTemplate ctx.formats accountRootTemplate⟩
  obtain ⟨v', hok, hst⟩ := h.region.update (Set.injOn_id _) (by rw [items_account]; rfl) hout hentry
  rw [update_items_account] at hst
  refine ⟨v', ?_, hst.weaken (Set.subset_insert _ _), h.within⟩
  rw [Nft.adjustOwnerCount, Nft.updateObject, hobj.getFieldU32,
    fromStobject_eq ctx.formats sle.key hs.formats.account hset.type_eq, hsle.key_eq]
  exact hok

omit hs in
theorem peekAccount :
    ∃ sle v', peekAccount ctx owner v = .ok (some sle) v' ∧
      (Nft.region ctx owner).IsEntry sle (ctx.accountKey owner) (.owner count) ∧
      Stores ctx owner base v' D count (Insert.insert (ctx.accountKey owner) out) := by
  obtain ⟨found, v', hpeek, -, hholds, hst, -⟩ :=
    h.region.peek (Set.injOn_id _) (Set.mem_insert _ _)
    .accountRoot (by decide) (by
      intro p hp
      rw [items_account] at hp
      cases hp
      rfl)
  rw [items_account] at hholds
  obtain ⟨sle, rfl, hsle⟩ := hholds
  exact ⟨sle, v', hpeek, hsle, hst, h.within⟩

theorem adjustOwner (amount : ℤ) :
    ∃ v', adjustOwner ctx owner amount v = .ok true v' ∧
      Stores ctx owner base v' D (confineOwnerCount count amount) out := by
  obtain ⟨sle, v₁, hpeek, hsle, h₁⟩ := h.peekAccount
  obtain ⟨v₂, hadjust, h₂⟩ := h₁.adjustOwnerCount hs (Set.mem_insert _ _) hsle amount
  refine ⟨v₂, ?_, h₂.weaken (Set.subset_insert _ _)⟩
  rw [Nft.adjustOwner, EStateM.bind_of_ok (attempt_of_ok hpeek)]
  simp only
  rw [EStateM.bind_of_ok (attempt_of_ok hadjust)]
  rfl

theorem viewSucc (hkey : key ∈ ownerKeys owner) :
    ∃ r, viewSucc key (nftOwnerMax owner).next v = .ok r v ∧
      OrderedMap.IsNext (support D) key r := by
  obtain ⟨r, hsucc, hnext⟩ := h.region.succ (fun _ => rfl) key (nftOwnerMax owner).next
    fun a hlt hlast => Set.mem_insert_of_mem _ (mem_ownerKeys_of_lt hs.hasNext hkey hlt hlast)
  refine ⟨r, ?_, hnext.congr fun a => ?_⟩
  · rw [Nft.viewSucc, hsucc]
    rfl
  · refine and_congr_left fun hlt => ?_
    constructor
    · rintro ⟨hsome, hlast⟩
      have hmem := mem_ownerKeys_of_lt hs.hasNext hkey hlt hlast
      rwa [items_of_mem hs hmem, Option.isSome_map] at hsome
    · intro hsome
      have hmem := h.within a hsome
      refine ⟨?_, lt_ownerMax_next hs.hasNext hmem⟩
      rw [items_of_mem hs hmem, Option.isSome_map]
      exact hsome

end

end Stores

def sampleContext : Context where
  formats := {
    findByType := fun entryType =>
      match entryType with
      | .nftokenPage => some nftokenPageTemplate
      | .accountRoot => some accountRootTemplate
      | _ => none
    defaultBytes := fun _ => []
    sameBytes := fun _ a b => a = b
    previousTxn_mem := by
      intro entryType template hfind _
      cases entryType <;> cases hfind <;> decide }
  fixNFTokenPageLinks := true
  -- the key of account zero
  accountKey _ := ⟨[40, 204, 153, 52, 94, 100, 205, 95, 155, 44, 245, 232, 250, 136, 93, 45, 92,
    175, 47, 135, 184, 165, 132, 73, 253, 46, 81, 228, 61, 73, 138, 54], rfl⟩

def sampleOwner : AccountID := BaseUInt.zero

def sampleAccount (count : ℕ) : STLedgerEntry :=
  ⟨⟨.ofList [(sfLedgerEntryType, some (uint16Value LedgerEntryType.accountRoot.code)),
    (sfOwnerCount, some (.uint32 count)), (sfAccount, some (.account sampleOwner))], false⟩,
    sampleContext.accountKey sampleOwner, .accountRoot⟩

def samplePage (key : Uint256) (page : Page) : STLedgerEntry :=
  ⟨⟨.ofList [(sfLedgerEntryType, some (uint16Value LedgerEntryType.nftokenPage.code)),
    (sfNFTokens, some (.nftokens page.value)), (sfNextPageMin, linkSlot page.next),
    (sfPreviousPageMin, linkSlot page.prev)], false⟩, key, .nftokenPage⟩

theorem sample_setting : Setting sampleContext sampleOwner :=
  ⟨⟨rfl, rfl⟩, by change ¬ _ / _ = _; decide, by change _ < _; decide⟩

theorem sampleAccount_isEntry (count : ℕ) : (region sampleContext sampleOwner).IsEntry
    (sampleAccount count) (sampleContext.accountKey sampleOwner) (.owner count) :=
  ⟨rfl, rfl, rfl, rfl⟩

theorem samplePage_isPage (key : Uint256) (page : Page) :
    IsPage sampleContext sampleOwner (samplePage key page) key page :=
  ⟨rfl, rfl, rfl, rfl, rfl, rfl⟩

/-- A ledger with the account and some pages. -/
def sampleLedger (count : ℕ) (pages : List (Uint256 × Page)) : LedgerState :=
  pages.foldl (fun s item => s.put (samplePage item.1 item.2))
    (LedgerState.empty.put (sampleAccount count))

/-- The pages by key. -/
def samplePages (pages : List (Uint256 × Page)) : Uint256 → Option Page :=
  pages.foldl (fun D item => Function.update D item.1 (some item.2)) fun _ => none

theorem samplePages_eq_some {pages : List (Uint256 × Page)} (h : (pages.map Prod.fst).Nodup)
    (key : Uint256) (page : Page) : samplePages pages key = some page ↔ (key, page) ∈ pages := by
  induction pages using List.reverseRecOn with
  | nil => simp [samplePages]
  | append_singleton pages item ih =>
    rw [List.map_append, List.nodup_append] at h
    obtain ⟨hnodup, -, hnew⟩ := h
    have hpages : samplePages (pages ++ [item]) =
        Function.update (samplePages pages) item.1 (some item.2) := by
      simp [samplePages]
    rw [hpages, List.mem_append, List.mem_singleton]
    by_cases hkey : key = item.1
    · subst hkey
      have hnot : (item.1, page) ∉ pages := fun hmem =>
        hnew _ (List.mem_map_of_mem hmem) item.1 (by simp) rfl
      rw [update_self, Option.some_inj, or_iff_right hnot, Prod.ext_iff]
      exact ⟨fun heq => ⟨rfl, heq.symm⟩, fun heq => heq.2.symm⟩
    · rw [update_of_ne hkey, ih hnodup, or_iff_left]
      rintro rfl
      exact hkey rfl

theorem sample_holds (count : ℕ) (pages : List (Uint256 × Page))
    (hkeys : ∀ item ∈ pages, item.1 ∈ ownerKeys sampleOwner) :
    (∀ key ∈ (region sampleContext sampleOwner).keys,
      (region sampleContext sampleOwner).Holds ((sampleLedger count pages).find key) key
        (items sampleContext sampleOwner (samplePages pages) count key)) ∧
    ∀ key, (samplePages pages key).isSome = true → key ∈ ownerKeys sampleOwner := by
  induction pages using List.reverseRecOn with
  | nil =>
    refine ⟨fun key _ => ?_, fun key hkey => by cases hkey⟩
    change (region sampleContext sampleOwner).Holds
      ((LedgerState.empty.put (sampleAccount count)).find key) key
      (if key = sampleContext.accountKey sampleOwner then some (.owner count) else none)
    rw [LedgerState.find_put, LedgerState.find_empty]
    by_cases hkey : key = sampleContext.accountKey sampleOwner
    · subst hkey
      have hself : (sampleAccount count).key = sampleContext.accountKey sampleOwner := rfl
      rw [if_pos rfl, if_pos hself]
      exact ⟨_, rfl, sampleAccount_isEntry count⟩
    · rw [if_neg hkey, if_neg fun heq => hkey heq.symm]
      rfl
  | append_singleton pages item ih =>
    have hitem : item.1 ∈ ownerKeys sampleOwner := hkeys item (by simp)
    obtain ⟨hholds, hwithin⟩ := ih fun other hother => hkeys other (by simp [hother])
    have hledger : sampleLedger count (pages ++ [item]) =
        (sampleLedger count pages).put (samplePage item.1 item.2) := by
      simp [sampleLedger]
    have hpages : samplePages (pages ++ [item]) =
        Function.update (samplePages pages) item.1 (some item.2) := by
      simp [samplePages]
    rw [hledger, hpages, ← update_items sample_setting hitem]
    refine ⟨fun key hkey => ?_, Stores.within_update hwithin hitem _⟩
    rw [LedgerState.find_put]
    change (region sampleContext sampleOwner).Holds
      (if item.1 = key then some (samplePage item.1 item.2)
        else (sampleLedger count pages).find key) key _
    by_cases heq : key = item.1
    · subst heq
      rw [if_pos rfl, update_self]
      exact ⟨_, rfl, samplePage_isPage item.1 item.2⟩
    · rw [if_neg fun h => heq h.symm, update_of_ne heq]
      exact hholds key hkey

theorem sample_stores (count : ℕ) (pages : List (Uint256 × Page))
    (hkeys : ∀ item ∈ pages, item.1 ∈ ownerKeys sampleOwner) :
    Stores sampleContext sampleOwner (sampleLedger count pages)
      (Sandbox.new (BaseView.ledger (sampleLedger count pages)) false)
      (samplePages pages) count ∅ := by
  have hstate : ReadModel.state (Sandbox.new (BaseView.ledger (sampleLedger count pages)) false) =
      sampleLedger count pages := Sandbox.state_new _ false
  obtain ⟨hholds, hwithin⟩ := sample_holds count pages hkeys
  refine ⟨⟨Sandbox.valid_new trivial false, ?_, ?_, by simp, ?_⟩, hwithin⟩
  · intro key hsome
    by_cases hkey : key = sampleContext.accountKey sampleOwner
    · exact .inl hkey
    · rw [items, if_neg hkey, Option.isSome_map] at hsome
      exact .inr (hwithin key hsome)
  · rw [hstate]
    exact hholds
  · intro key _
    rw [hstate]

end Quaxar.Nft
