import Quaxar.Lib.LinkedRing
import Quaxar.Views.Directory
import Quaxar.Views.Overlay
import Quaxar.Views.Region

/-!
# Directory chains

The pages of a directory are a circular doubly linked list over the page numbers. Adding a
key extends the last page or appends a page, and removing one shortens its page or unlinks
it; none of the error paths is taken.
-/

namespace Quaxar.Views.Directory

open LinkedRing (Node Linked Follows)
open Std (ExtTreeMap)
open STObject (fields_setField_of_ne fields_setField)
open OrderedMap (mem_iff_exists)

/-- The keys of a page and its links. -/
abbrev Page := Node (List Uint256)

/-- A link to page 0 may be absent. -/
def HasLink (object : STObject) (field : SField) (page : ℕ) : Prop :=
  object.fields[field]? = some none ∧ page = 0 ∨ object.fields[field]? = some (some (.uint64 page))

/-- The object of a directory page. -/
structure PageObject (object : STObject) (page : Page) : Prop where
  templated : object.isFree = false
  mem_iff : ∀ field, field ∈ object.fields ↔ field ∈ directoryNodeTemplate
  type_eq : object.fields[sfLedgerEntryType]? =
    some (some (uint16Value LedgerEntryType.directoryNode.code))
  indexes_eq : object.fields[sfIndexes]? = some (some (.vector256 page.value))
  next_link : HasLink object sfIndexNext page.next
  prev_link : HasLink object sfIndexPrevious page.prev

variable {object object' : STObject} {field : SField} {page : Page} {n : ℕ}

namespace HasLink

variable (h : HasLink object field n)

include h

theorem getFieldU64 : object.getFieldU64 field = n := by
  unfold STObject.getFieldU64 STObject.peekAtPfield
  rcases h with ⟨hslot, rfl⟩ | hslot
  · rw [hslot]
    rfl
  · rw [hslot]
    rfl

theorem accepts : object.Accepts field 3 := by
  unfold STObject.Accepts
  rcases h with ⟨hslot, -⟩ | hslot
  · rw [hslot]
    trivial
  · rw [hslot]
    rfl

theorem congr (heq : object'.fields[field]? = object.fields[field]?) : HasLink object' field n := by
  unfold HasLink at h ⊢
  rwa [heq]

theorem setField {m : ℕ} : HasLink (object.setField field (.uint64 m)) field m :=
  .inr (fields_setField h.accepts)

end HasLink

namespace PageObject

theorem getFieldV256 (h : PageObject object page) : object.getFieldV256 sfIndexes = page.value := by
  rw [STObject.getFieldV256, STObject.peekAtPfield, h.indexes_eq]
  rfl

/-- The fields that make a page. -/
def chainFields : List SField := [sfLedgerEntryType, sfIndexes, sfIndexNext, sfIndexPrevious]

theorem congr (h : PageObject object page) (hfree : object'.isFree = false)
    (hmem : ∀ field, field ∈ object'.fields ↔ field ∈ object.fields)
    (hfields : ∀ field ∈ chainFields, object'.fields[field]? = object.fields[field]?) :
    PageObject object' page where
  templated := hfree
  mem_iff field := (hmem field).trans (h.mem_iff field)
  type_eq := (hfields sfLedgerEntryType (by decide)).trans h.type_eq
  indexes_eq := (hfields sfIndexes (by decide)).trans h.indexes_eq
  next_link := h.next_link.congr (hfields sfIndexNext (by decide))
  prev_link := h.prev_link.congr (hfields sfIndexPrevious (by decide))

end PageObject

theorem mem_setField_iff {value : FieldValue} (htempl : object.isFree = false) (other : SField) :
    other ∈ (object.setField field value).fields ↔ other ∈ object.fields := by
  refine ⟨?_, STObject.mem_setField⟩
  intro h
  by_cases hne : field = other
  · subst hne
    by_contra habsent
    have hnone : object.fields[field]? = none := by
      rcases hslot : object.fields[field]? with _ | slot
      · rfl
      · exact absurd (mem_iff_exists.mpr ⟨slot, hslot⟩) habsent
    have hsame : object.setField field value = object := by
      simp [STObject.setField, hnone, htempl]
    rw [hsame] at h
    exact habsent h
  · rwa [mem_iff_exists, fields_setField_of_ne hne, ← mem_iff_exists] at h

namespace PageObject

variable {value : FieldValue} (h : PageObject object page)

include h

theorem setField (hfield : field ∉ chainFields) :
    PageObject (object.setField field value) page := by
  refine h.congr (STObject.isFree_setField.trans h.templated) (mem_setField_iff h.templated) ?_
  intro other hother
  refine fields_setField_of_ne ?_
  rintro rfl
  exact hfield hother

theorem setNext (n : ℕ) :
    PageObject (object.setField sfIndexNext (.uint64 n)) { page with next := n } where
  templated := STObject.isFree_setField.trans h.templated
  mem_iff field := (mem_setField_iff h.templated field).trans (h.mem_iff field)
  type_eq := (fields_setField_of_ne (by decide)).trans h.type_eq
  indexes_eq := (fields_setField_of_ne (by decide)).trans h.indexes_eq
  next_link := h.next_link.setField
  prev_link := h.prev_link.congr (fields_setField_of_ne (by decide))

theorem setPrev (n : ℕ) :
    PageObject (object.setField sfIndexPrevious (.uint64 n)) { page with prev := n } where
  templated := STObject.isFree_setField.trans h.templated
  mem_iff field := (mem_setField_iff h.templated field).trans (h.mem_iff field)
  type_eq := (fields_setField_of_ne (by decide)).trans h.type_eq
  indexes_eq := (fields_setField_of_ne (by decide)).trans h.indexes_eq
  next_link := h.next_link.congr (fields_setField_of_ne (by decide))
  prev_link := h.prev_link.setField

theorem setIndexes (indexes : List Uint256) :
    PageObject (object.setStbase sfIndexes (.vector256 indexes))
      { page with value := indexes } := by
  have hset : object.setStbase sfIndexes (.vector256 indexes) =
      { object with fields := object.fields.insert sfIndexes (some (.vector256 indexes)) } := by
    rw [STObject.setStbase, h.indexes_eq]
  have hother : ∀ field, field ≠ sfIndexes →
      (object.setStbase sfIndexes (.vector256 indexes)).fields[field]? = object.fields[field]? := by
    intro field hne
    rw [hset, OrderedMap.getElem?_insert, if_neg (Ne.symm hne)]
  refine ⟨by rw [hset]; exact h.templated, ?_, (hother _ (by decide)).trans h.type_eq, ?_,
    h.next_link.congr (hother _ (by decide)), h.prev_link.congr (hother _ (by decide))⟩
  · intro field
    rw [← h.mem_iff field, hset, ExtTreeMap.mem_insert]
    refine or_iff_right_of_imp ?_
    intro heq
    rw [← Std.LawfulEqCmp.eq_of_compare heq]
    exact mem_iff_exists.mpr ⟨_, h.indexes_eq⟩
  · rw [hset, OrderedMap.getElem?_insert, if_pos rfl]

end PageObject

/-- What the code asks of `describe`: that it writes to descriptive fields only. -/
def Describes (describe : STObject → STObject) : Prop :=
  ∀ object page, PageObject object page → PageObject (describe object) page

theorem describes_setField (hfield : field ∉ PageObject.chainFields) (value : FieldValue) :
    Describes fun object => object.setField field value :=
  fun _ _ h => h.setField hfield

theorem describes_ownerDir (account : Protocol.AccountID) : Describes (describeOwnerDir account) :=
  describes_setField (by decide) _

/-- The entries of pages. -/
def pages : Entries Page where
  entryType _ := .directoryNode
  Rep := PageObject

abbrev IsPage (sle : STLedgerEntry) (key : Uint256) (page : Page) : Prop :=
  pages.IsEntry sle key page

variable {ctx : Context} {sle : STLedgerEntry} {key : Uint256}

/-- The formats have the directory page as the source registers it. -/
def Context.HasDirectoryFormat (ctx : Context) : Prop :=
  ctx.formats.findByType .directoryNode = some directoryNodeTemplate

theorem PageObject.applyTemplate (formats : LedgerFormats) (h : PageObject object page) :
    PageObject (object.applyTemplate formats directoryNodeTemplate) page := by
  have hfit : (object.fields.keys.all fun field =>
      decide (field ∈ directoryNodeTemplate) || field.isDiscardable) = true := by
    rw [List.all_eq_true]
    intro field hfield
    have hmem := (h.mem_iff field).mp (ExtTreeMap.mem_keys.mp hfield)
    simp [hmem]
  have hget := STObject.getElem?_applyTemplate formats directoryNodeTemplate hfit
  have hslots : ∀ field : SField, (object.applyTemplate formats
      directoryNodeTemplate).fields[field]? = object.fields[field]? := by
    intro field
    rw [hget]
    rcases hslot : object.fields[field]? with _ | slot
    · have habsent : field ∉ directoryNodeTemplate := by
        rw [← h.mem_iff, mem_iff_exists, hslot]
        simp
      rw [ExtTreeMap.getElem?_eq_none habsent]
      rfl
    · obtain ⟨style, hstyle⟩ := mem_iff_exists.mp
        ((h.mem_iff field).mp (mem_iff_exists.mpr ⟨slot, hslot⟩))
      rw [hstyle]
      rfl
  refine h.congr ?_ ?_ fun field _ => hslots field
  · rw [STObject.applyTemplate, if_pos hfit]
  · intro field
    rw [mem_iff_exists, hslots, ← mem_iff_exists]

theorem sleUpdate_eq (hformat : ctx.HasDirectoryFormat) (hkey : sle.key = key)
    {mutate : STObject → STObject} (h : PageObject (mutate sle.object) page) :
    ∃ sle', sleUpdate ctx sle mutate = .ok sle' ∧ IsPage sle' key page := by
  have hpres : (mutate sle.object).isFieldPresent sfLedgerEntryType = true := by
    rw [STObject.isFieldPresent, STObject.peekAtPfield, h.type_eq]
    rfl
  have hcode : (mutate sle.object).getFieldU16 sfLedgerEntryType = 0x0064 := by
    rw [STObject.getFieldU16, STObject.peekAtPfield, h.type_eq]
    rfl
  refine ⟨⟨(mutate sle.object).applyTemplate ctx.formats directoryNodeTemplate, sle.key,
    .directoryNode⟩, ?_, hkey, rfl, h.applyTemplate ctx.formats⟩
  rw [sleUpdate, STLedgerEntry.fromStobject, if_pos hpres]
  simp only [hcode, ledgerEntryTypeFromCode]
  rw [hformat]

theorem new_eq (hformat : ctx.HasDirectoryFormat) (key : Uint256) :
    ∃ sle, STLedgerEntry.new ctx.formats ⟨.directoryNode, key⟩ = .ok sle ∧
      IsPage sle key ⟨[], 0, 0⟩ := by
  let slots := directoryNodeTemplate.map fun field style =>
    if style = .required then some (ctx.formats.defaultObject field) else none
  have hslots : ∀ field : SField, slots[field]? = (directoryNodeTemplate[field]?).map fun style =>
      if style = .required then some (ctx.formats.defaultObject field) else none :=
    fun field => ExtTreeMap.getElem?_map
  have htype : (STObject.mk slots false).Accepts sfLedgerEntryType 1 := by
    rw [STObject.Accepts, hslots]
    exact ctx.formats.stype_defaultObject sfLedgerEntryType
  have hother : ∀ field, field ≠ sfLedgerEntryType → ((STObject.mk slots false).setField
      sfLedgerEntryType (uint16Value 0x0064)).fields[field]? = slots[field]? :=
    fun field hne => fields_setField_of_ne (Ne.symm hne)
  refine ⟨⟨(STObject.mk slots false).setField sfLedgerEntryType (uint16Value 0x0064), key,
    .directoryNode⟩, ?_, rfl, rfl, STObject.isFree_setField, ?_, fields_setField htype, ?_,
    .inl ⟨?_, rfl⟩, .inl ⟨?_, rfl⟩⟩
  · rw [STLedgerEntry.new]
    simp only
    rw [hformat]
    rfl
  · intro field
    rw [mem_setField_iff rfl, mem_iff_exists, hslots, mem_iff_exists]
    simp
  all_goals
    rw [hother _ (by decide), hslots]
    rfl

section Store

variable {V : Type} [ApplyView V] [ApplyModel V]

open ReadModel ApplyModel ApplyView

/-- The key of a page. -/
def pageKey (ctx : Context) (dir : Keylet) (page : ℕ) : Uint256 :=
  if page = 0 then dir.key else ctx.pageHash dir.key page

/-- The keys of the pages are different: no two of them collide. -/
def PageKeysDistinct (ctx : Context) (dir : Keylet) : Prop :=
  ∀ n < 2 ^ 64, ∀ m < 2 ^ 64, pageKey ctx dir n = pageKey ctx dir m → n = m

/-- The pages of a directory. -/
def region (ctx : Context) (dir : Keylet) : Region ℕ Page where
  toEntries := pages
  keys := {n | n < 2 ^ 64}
  keyOf := pageKey ctx dir

/-- The view has the pages `D` of a directory and agrees with `base` elsewhere. The pages
`out` are checked out. -/
abbrev Stores (ctx : Context) (dir : Keylet) (base : LedgerState) (v : V)
    (D : ℕ → Option Page) (out : Set ℕ) : Prop :=
  (region ctx dir).Stores base v D out

variable {dir : Keylet} {base : LedgerState} {v v' : V} {D : ℕ → Option Page} {out : Set ℕ}

omit [ApplyView V] in
theorem find_page (h : Stores ctx dir base v D out) (hpage : D n = some page) :
    ∃ sle, (state v).find (pageKey ctx dir n) = some sle ∧
      IsPage sle (pageKey ctx dir n) page :=
  h.find hpage

theorem peek_eq [LawfulApplyView V] (hkeys : PageKeysDistinct ctx dir)
    (h : Stores ctx dir base v D out) (hn : n < 2 ^ 64) :
    ∃ found v', ApplyView.peek ⟨.directoryNode, pageKey ctx dir n⟩ v = .ok found v' ∧
      found = (state v).find (pageKey ctx dir n) ∧
      pages.Holds found (pageKey ctx dir n) (D n) ∧
      Stores ctx dir base v' D (insert n out) ∧ state v' = state v :=
  Region.Stores.peek h hkeys hn .directoryNode (by decide) fun _ _ => rfl

theorem pageKeylet_eq (hdir : dir.entryType = .directoryNode) (n : ℕ) :
    pageKeylet ctx dir n = .ok ⟨.directoryNode, pageKey ctx dir n⟩ := by
  rw [pageKeylet, if_pos hdir, pageKey]
  split_ifs
  · rw [← hdir]
  · rfl

end Store

end Quaxar.Views.Directory
