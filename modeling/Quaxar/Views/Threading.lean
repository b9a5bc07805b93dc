import Quaxar.Lib.Except
import Quaxar.Views.View

/-!
# Threading

An entry of a threaded type remembers the transaction that last changed it and the ledger
of that transaction. `threadSle` writes both, and `isEquivalent` is the comparison by which
the code tells whether an entry has changed: amounts compare without their issuer.
-/

namespace Quaxar.Views

open Protocol (AccountID STAmount Blob)
open Std (ExtTreeMap)
open OrderedMap (mem_iff_exists)

/-- The amendments that the modelled code asks for. -/
structure Rules where
  fixPreviousTxnID : Bool
  fixDirectoryLimit : Bool

inductive SOEStyle where
  | required
  | optional
  | default
deriving DecidableEq, Repr

/-- The slots of an entry type. -/
abbrev SOTemplate := ExtTreeMap SField SOEStyle

def ledgerEntryTypeFromCode (code : ℕ) : Option LedgerEntryType :=
  match code with
  | 0x0000 => some .any
  | 0x0037 => some .nftokenOffer
  | 0x0043 => some .check
  | 0x0049 => some .did
  | 0x004E => some .negativeUnl
  | 0x0050 => some .nftokenPage
  | 0x0053 => some .signerList
  | 0x0054 => some .ticket
  | 0x0061 => some .accountRoot
  | 0x0063 => some .contract
  | 0x0064 => some .directoryNode
  | 0x0066 => some .amendments
  | 0x0067 => some .generatorMap
  | 0x0068 => some .ledgerHashes
  | 0x006E => some .nickname
  | 0x006F => some .offer
  | 0x0070 => some .depositPreauth
  | 0x0072 => some .rippleState
  | 0x0073 => some .feeSettings
  | 0x0075 => some .escrow
  | 0x0078 => some .payChannel
  | 0x0079 => some .amm
  | 0x007E => some .mptokenIssuance
  | 0x007F => some .mptoken
  | 0x0080 => some .oracle
  | 0x0081 => some .credential
  | 0x0082 => some .permissionedDomain
  | 0x0083 => some .delegate
  | 0x0084 => some .vault
  | 0x0088 => some .loanBroker
  | 0x0089 => some .loan
  | 0x0090 => some .sponsorship
  | 0x1CD2 => some .child
  | _ => none

/-- The table of registered entry types, and what is known of the values that are kept as
bytes: those of a default value, and when two of them are equivalent. -/
structure LedgerFormats where
  findByType : LedgerEntryType → Option SOTemplate
  defaultBytes : ℕ → Blob
  sameBytes : ℕ → Blob → Blob → Bool
  previousTxn_mem : ∀ entryType template, findByType entryType = some template →
    sfPreviousTxnID ∈ template → sfPreviousTxnLgrSeq ∈ template

def SField.isDiscardable (field : SField) : Bool := 256 < field.fieldValue

def SField.shouldInclude (field : SField) : Bool := field.fieldValue < 256

variable (formats : LedgerFormats)

/-- `STVar::default_object`. -/
def LedgerFormats.defaultObject (field : SField) : FieldValue :=
  match field.fieldType with
  | 2 => .uint32 0
  | 3 => .uint64 0
  | 5 => .uint256 BaseUInt.zero
  | 6 => .amount STAmount.default
  | 8 => .account BaseUInt.zero
  | 19 => .vector256 []
  | fieldType => .other fieldType (formats.defaultBytes fieldType)

theorem LedgerFormats.stype_defaultObject (field : SField) :
    (formats.defaultObject field).stype = field.fieldType := by
  unfold defaultObject
  split
  all_goals simp_all [FieldValue.stype]

/-- A field that fits no slot leaves the object untouched, unless it is discardable. -/
def STObject.applyTemplate (template : SOTemplate) (object : STObject) : STObject :=
  if object.fields.keys.all fun field => decide (field ∈ template) || field.isDiscardable then
    { fields := template.map fun field style =>
        match object.fields[field]? with
        | some slot => slot
        | none => if style = .required then some (formats.defaultObject field) else none
      isFree := false }
  else object

def STObject.getFieldU16 (object : STObject) (field : SField) : ℕ :=
  match object.peekAtPfield field with
  | some (.other 1 bytes) => BigEndian.ofBytes bytes
  | _ => 0

/-- `from_stobject`, with the type that the object itself states. -/
def STLedgerEntry.fromStobject (object : STObject) (key : Uint256) :
    Except ViewError STLedgerEntry :=
  if object.isFieldPresent sfLedgerEntryType then
    let typeCode := object.getFieldU16 sfLedgerEntryType
    match ledgerEntryTypeFromCode typeCode with
    | none => .error (.unwound s!"invalid ledger entry type {typeCode}")
    | some entryType =>
      match formats.findByType entryType with
      | none => .error (.unwound s!"invalid ledger entry type {typeCode}")
      | some template => .ok ⟨object.applyTemplate formats template, key, entryType⟩
  else .error (.unwound "missing ledger entry type")

/-- The `==` of amounts. Two issued amounts of one currency are comparable. -/
def amountEq (x y : STAmount) : Bool :=
  (match x.asset, y.asset with
    | .issue left, .issue right => x.native == y.native && left.currency = right.currency
    | .mptIssue left, .mptIssue right => left = right
    | _, _ => false) &&
  x.isNegative == y.isNegative && x.offset = y.offset && x.value = y.value

def FieldValue.isEquivalent (x y : FieldValue) : Bool :=
  x.stype = y.stype &&
    match x, y with
    | .amount a, .amount b => amountEq a b
    | .other fieldType a, .other _ b => formats.sameBytes fieldType a b
    | x, y => x = y

/-- Two slots, of which both may be not present. -/
def slotIsEquivalent : Option FieldValue → Option FieldValue → Bool
  | some x, some y => x.isEquivalent formats y
  | none, none => true
  | _, _ => false

def STObject.sortedFields (object : STObject) : List (SField × Option FieldValue) :=
  object.fields.toList.filter fun slot => slot.2.isSome && slot.1.shouldInclude

/-- Objects with the same slots, or two free ones with as many, are compared slot by slot.
All others are compared by the fields that are present. -/
def STObject.isEquivalent (x y : STObject) : Bool :=
  if x.isFree = y.isFree ∧ x.fields.size = y.fields.size ∧
      (x.isFree = true ∨ x.fields.keys = y.fields.keys) then
    (List.zipWith (slotIsEquivalent formats) x.fields.values y.fields.values).all id
  else
    x.sortedFields.length = y.sortedFields.length &&
      (List.zipWith (fun a b => a.1 = b.1 && slotIsEquivalent formats a.2 b.2)
        x.sortedFields y.sortedFields).all id

/-- The `==` of entries. -/
def STLedgerEntry.isEquivalent (x y : STLedgerEntry) : Bool :=
  x.object.isEquivalent formats y.object && x.key = y.key && x.entryType = y.entryType

variable (rules : Rules) (txId : Uint256) (ledgerSeq : ℕ) (sle : STLedgerEntry)

def STLedgerEntry.isThreadedType : Bool :=
  (decide (sle.entryType ∉ [.directoryNode, .amendments, .feeSettings, .negativeUnl, .amm]) ||
    rules.fixPreviousTxnID) && decide (sfPreviousTxnID ∈ sle.object.fields)

/-- An entry that names the transaction already must name its ledger. -/
def STLedgerEntry.thread (sle : STLedgerEntry) : Except ViewError STLedgerEntry :=
  if sle.object.getFieldH256 sfPreviousTxnID = txId then
    if sle.object.getFieldU32 sfPreviousTxnLgrSeq = ledgerSeq then .ok sle
    else .error (.unwound "xrpl::STLedgerEntry::thread : ledger sequence match")
  else
    .ok { sle with
      object := (sle.object.setField sfPreviousTxnID (.uint256 txId)).setField
        sfPreviousTxnLgrSeq (.uint32 ledgerSeq) }

/-- An account root without an owner count is given one. -/
def ensureOwnerCount : Except ViewError STLedgerEntry :=
  if sle.entryType = .accountRoot ∧ sle.object.isFieldPresent sfOwnerCount = false then
    STLedgerEntry.fromStobject formats (sle.object.setField sfOwnerCount (.uint32 0)) sle.key
  else .ok sle

def threadSle : Except ViewError STLedgerEntry := do
  let threaded ← ensureOwnerCount formats sle
  if threaded.isThreadedType rules then threaded.thread txId ledgerSeq else pure threaded

/-- `issue().issuer()` of an amount. -/
def amountIssuer (amount : STAmount) : Except ViewError AccountID :=
  match amount.asset with
  | .issue issue => .ok issue.account
  | .mptIssue _ => .error (.unwound "STAmount does not hold an Issue")

/-- The accounts whose roots are threaded when an entry is created or deleted. -/
def ownerAccounts : Except ViewError (List AccountID) :=
  if sle.entryType = .accountRoot then .ok []
  else if sle.entryType = .rippleState then do
    let low ← amountIssuer (sle.object.getFieldAmount sfLowLimit)
    let high ← amountIssuer (sle.object.getFieldAmount sfHighLimit)
    pure [low, high]
  else
    .ok ([sfAccount, sfDestination].filterMap fun field =>
      if sle.object.isFieldPresent field then some (sle.object.getAccountId field) else none)

namespace STObject

/-- A value of this type can be set. -/
def Accepts (object : STObject) (field : SField) (stype : ℕ) : Prop :=
  match object.fields[field]? with
  | none => object.isFree = true
  | some none => True
  | some (some old) => old.stype = stype

variable {object : STObject} {field other : SField} {value : FieldValue}

theorem setField_of_accepts (h : object.Accepts field value.stype) :
    object.setField field value =
      { object with fields := object.fields.insert field (some value) } := by
  unfold Accepts at h
  unfold setField
  rcases hfield : object.fields[field]? with _ | _ | old
  · rw [hfield] at h
    simp only [if_pos h]
  · rfl
  · rw [hfield] at h
    simp only [if_pos h]

theorem setField_of_not_accepts (h : ¬object.Accepts field value.stype) :
    object.setField field value = object := by
  unfold Accepts at h
  unfold setField
  rcases hfield : object.fields[field]? with _ | _ | old
  · rw [hfield] at h
    simp only [if_neg h]
  · rw [hfield] at h
    exact absurd trivial h
  · rw [hfield] at h
    simp only [if_neg h]

theorem fields_setField (h : object.Accepts field value.stype) :
    (object.setField field value).fields[field]? = some (some value) := by
  simp [setField_of_accepts h]

theorem fields_setField_of_ne (hne : field ≠ other) :
    (object.setField field value).fields[other]? = object.fields[other]? := by
  by_cases h : object.Accepts field value.stype
  · simp [setField_of_accepts h, OrderedMap.getElem?_insert, hne]
  · rw [setField_of_not_accepts h]

theorem isFree_setField : (object.setField field value).isFree = object.isFree := by
  by_cases h : object.Accepts field value.stype
  · rw [setField_of_accepts h]
  · rw [setField_of_not_accepts h]

theorem accepts_of_ne (hne : field ≠ other) {stype : ℕ} (h : object.Accepts other stype) :
    (object.setField field value).Accepts other stype := by
  unfold Accepts at h ⊢
  rwa [fields_setField_of_ne hne, isFree_setField]

theorem mem_setField (h : other ∈ object.fields) :
    other ∈ (object.setField field value).fields := by
  by_cases haccepts : object.Accepts field value.stype
  · rw [setField_of_accepts haccepts]
    exact ExtTreeMap.mem_insert.mpr (.inr h)
  · rwa [setField_of_not_accepts haccepts]

theorem peekAtPfield_setField_of_ne (hne : field ≠ other) :
    (object.setField field value).peekAtPfield other = object.peekAtPfield other := by
  rw [peekAtPfield, fields_setField_of_ne hne, peekAtPfield]

end STObject

namespace STObject

/-- Slots hold values of the type of their field. -/
def Typed (object : STObject) : Prop :=
  ∀ (field : SField) (value : FieldValue), object.fields[field]? = some (some value) →
    value.stype = field.fieldType

variable {object : STObject} {field : SField} {value : FieldValue}

theorem typed_of_all (h : (object.fields.toList.all fun slot =>
      slot.2.all fun value => value.stype = slot.1.fieldType) = true) : object.Typed := by
  intro field value hvalue
  have hslot := List.all_eq_true.mp h (field, some value)
    (ExtTreeMap.mem_toList_iff_getElem?_eq_some.mpr hvalue)
  simpa using hslot

theorem Typed.accepts (h : object.Typed) (hslot : field ∈ object.fields ∨ object.isFree = true) :
    object.Accepts field field.fieldType := by
  unfold Accepts
  rcases hfield : object.fields[field]? with _ | _ | old
  · rcases hslot with hmem | hfree
    · rw [mem_iff_exists, hfield] at hmem
      simp at hmem
    · exact hfree
  · trivial
  · exact h field old hfield

theorem Typed.setField (h : object.Typed) (hvalue : value.stype = field.fieldType) :
    (object.setField field value).Typed := by
  intro other old hold
  by_cases hne : field = other
  · subst hne
    by_cases haccepts : object.Accepts field value.stype
    · rw [fields_setField haccepts] at hold
      cases hold
      exact hvalue
    · rw [setField_of_not_accepts haccepts] at hold
      exact h field old hold
  · rw [fields_setField_of_ne hne] at hold
    exact h other old hold

/-- The slots that threading writes come together. -/
structure Threadable (object : STObject) : Prop where
  typed : object.Typed
  seq_slot : sfPreviousTxnID ∈ object.fields →
    sfPreviousTxnLgrSeq ∈ object.fields ∨ object.isFree = true

variable (template : SOTemplate)

theorem getElem?_applyTemplate (hfit : (object.fields.keys.all fun field =>
      decide (field ∈ template) || field.isDiscardable) = true) (field : SField) :
    (object.applyTemplate formats template).fields[field]? = (template[field]?).map fun style =>
      match object.fields[field]? with
      | some slot => slot
      | none => if style = .required then some (formats.defaultObject field) else none := by
  rw [applyTemplate, if_pos hfit]
  exact ExtTreeMap.getElem?_map

theorem fields_applyTemplate {slot : Option FieldValue}
    (h : object.fields[field]? = some slot) (hkeep : field.isDiscardable = false) :
    (object.applyTemplate formats template).fields[field]? = some slot := by
  by_cases hfit : (object.fields.keys.all fun field =>
      decide (field ∈ template) || field.isDiscardable) = true
  · have hmem : field ∈ object.fields.keys :=
      ExtTreeMap.mem_keys.mpr (mem_iff_exists.mpr ⟨slot, h⟩)
    have htemplate : field ∈ template := by
      simpa [hkeep] using List.all_eq_true.mp hfit field hmem
    obtain ⟨style, hstyle⟩ := mem_iff_exists.mp htemplate
    rw [getElem?_applyTemplate formats template hfit, hstyle, h]
    rfl
  · rw [applyTemplate, if_neg hfit]
    exact h

theorem peekAtPfield_applyTemplate
    (h : object.peekAtPfield field = some value) (hkeep : field.isDiscardable = false) :
    (object.applyTemplate formats template).peekAtPfield field = some value := by
  unfold peekAtPfield at h ⊢
  rw [Option.join_eq_some_iff] at h
  rw [fields_applyTemplate formats template h hkeep]
  rfl

theorem isFieldPresent_applyTemplate
    (hpres : object.isFieldPresent field = true) (hkeep : field.isDiscardable = false) :
    (object.applyTemplate formats template).isFieldPresent field = true := by
  obtain ⟨value, hvalue⟩ := Option.isSome_iff_exists.mp hpres
  rw [isFieldPresent, peekAtPfield_applyTemplate formats template hvalue hkeep]
  rfl

theorem Threadable.applyTemplate (h : object.Threadable) {entryType : LedgerEntryType}
    {template : SOTemplate} (hfind : formats.findByType entryType = some template) :
    (object.applyTemplate formats template).Threadable := by
  by_cases hfit : (object.fields.keys.all fun field =>
      decide (field ∈ template) || field.isDiscardable) = true
  · have hfields := getElem?_applyTemplate formats template hfit
    refine ⟨?_, ?_⟩
    · intro field value hvalue
      rw [hfields, Option.map_eq_some_iff] at hvalue
      obtain ⟨style, -, hvalue⟩ := hvalue
      rcases hold : object.fields[field]? with _ | slot
      · simp only [hold] at hvalue
        split_ifs at hvalue
        cases hvalue
        exact formats.stype_defaultObject field
      · simp only [hold] at hvalue
        exact h.typed field value (hvalue ▸ hold)
    · intro hmem
      refine .inl ?_
      have hslots : ∀ field, field ∈ (object.applyTemplate formats template).fields ↔
          field ∈ template := by
        intro field
        rw [mem_iff_exists, mem_iff_exists, hfields]
        simp
      rw [hslots] at hmem ⊢
      exact formats.previousTxn_mem entryType template hfind hmem
  · rwa [STObject.applyTemplate, if_neg hfit]

end STObject

namespace STLedgerEntry

/-- What the constructors of entries establish. An account root that has lost its owner
count still has a slot for it and states its type. -/
structure WellFormed (sle : STLedgerEntry) : Prop where
  threadable : sle.object.Threadable
  ownerCount_slot : sle.entryType = .accountRoot →
    sfOwnerCount ∈ sle.object.fields ∨ sle.object.isFree = true
  states_type : sle.entryType = .accountRoot → sle.object.getFieldU16 sfLedgerEntryType = 0x0061

end STLedgerEntry

variable {formats : LedgerFormats} {rules : Rules} {txId : Uint256} {ledgerSeq : ℕ}
  {sle threaded : STLedgerEntry}

theorem ensureOwnerCount_eq_ok (hsle : sle.WellFormed)
    (h : ensureOwnerCount formats sle = .ok threaded) :
    threaded.object.Threadable ∧ threaded.key = sle.key ∧ threaded.entryType = sle.entryType ∧
      ownerAccounts threaded = ownerAccounts sle ∧
      (threaded.entryType = .accountRoot →
        threaded.object.isFieldPresent sfOwnerCount = true) := by
  unfold ensureOwnerCount at h
  split_ifs at h with hrepair
  · obtain ⟨htype, -⟩ := hrepair
    have haccepts := hsle.threadable.typed.accepts (hsle.ownerCount_slot htype)
    have hcode : (sle.object.setField sfOwnerCount (.uint32 0)).getFieldU16 sfLedgerEntryType =
        0x0061 := by
      rw [← hsle.states_type htype, STObject.getFieldU16,
        STObject.peekAtPfield_setField_of_ne (by decide), STObject.getFieldU16]
    have hcount : (sle.object.setField sfOwnerCount (.uint32 0)).isFieldPresent sfOwnerCount =
        true := by
      rw [STObject.isFieldPresent, STObject.peekAtPfield, STObject.fields_setField haccepts]
      rfl
    have hthreadable : (sle.object.setField sfOwnerCount (.uint32 0)).Threadable := by
      refine ⟨hsle.threadable.typed.setField rfl, ?_⟩
      intro hmem
      rw [mem_iff_exists, STObject.fields_setField_of_ne (by decide),
        ← mem_iff_exists] at hmem
      rw [STObject.isFree_setField]
      exact (hsle.threadable.seq_slot hmem).imp STObject.mem_setField id
    unfold STLedgerEntry.fromStobject at h
    split_ifs at h
    simp only [hcode] at h
    rcases hfind : formats.findByType .accountRoot with _ | template
    · simp [ledgerEntryTypeFromCode, hfind] at h
    · simp only [ledgerEntryTypeFromCode, hfind] at h
      cases h
      exact ⟨hthreadable.applyTemplate formats hfind, rfl, htype.symm,
        by simp [ownerAccounts, htype],
        fun _ => STObject.isFieldPresent_applyTemplate formats template hcount (by decide)⟩
  · cases h
    refine ⟨hsle.threadable, rfl, rfl, rfl, ?_⟩
    intro htype
    by_contra hcount
    exact hrepair ⟨htype, by simpa using hcount⟩

/-- Threading once is threading twice. -/
theorem thread_eq_ok (hsle : sle.object.Threadable) (hmem : sfPreviousTxnID ∈ sle.object.fields)
    (h : sle.thread txId ledgerSeq = .ok threaded) :
    threaded.thread txId ledgerSeq = .ok threaded ∧ threaded.key = sle.key ∧
      threaded.entryType = sle.entryType ∧ sfPreviousTxnID ∈ threaded.object.fields ∧
      ∀ field, field ≠ sfPreviousTxnID → field ≠ sfPreviousTxnLgrSeq →
        threaded.object.peekAtPfield field = sle.object.peekAtPfield field := by
  unfold STLedgerEntry.thread at h
  split_ifs at h with hid hseq
  · cases h
    exact ⟨by rw [STLedgerEntry.thread, if_pos hid, if_pos hseq], rfl, rfl, hmem,
      fun _ _ _ => rfl⟩
  · cases h
    have hidslot : sle.object.Accepts sfPreviousTxnID 5 := hsle.typed.accepts (.inl hmem)
    have hseqslot : sle.object.Accepts sfPreviousTxnLgrSeq 2 :=
      hsle.typed.accepts (hsle.seq_slot hmem)
    have hseqslot' : (sle.object.setField sfPreviousTxnID (.uint256 txId)).Accepts
        sfPreviousTxnLgrSeq 2 := STObject.accepts_of_ne (by decide) hseqslot
    refine ⟨?_, rfl, rfl, STObject.mem_setField (STObject.mem_setField hmem), ?_⟩
    · rw [STLedgerEntry.thread, if_pos, if_pos]
      · rw [STObject.getFieldU32, STObject.peekAtPfield, STObject.fields_setField hseqslot']
        rfl
      · rw [STObject.getFieldH256, STObject.peekAtPfield_setField_of_ne (by decide),
          STObject.peekAtPfield, STObject.fields_setField hidslot]
        rfl
    · intro field hne hne'
      rw [STObject.peekAtPfield_setField_of_ne (Ne.symm hne'),
        STObject.peekAtPfield_setField_of_ne (Ne.symm hne)]

theorem ownerAccounts_congr {x y : STLedgerEntry} (htype : x.entryType = y.entryType)
    (hfields : ∀ field, field ≠ sfPreviousTxnID → field ≠ sfPreviousTxnLgrSeq →
      x.object.peekAtPfield field = y.object.peekAtPfield field) :
    ownerAccounts x = ownerAccounts y := by
  unfold ownerAccounts STObject.isFieldPresent STObject.getFieldAmount STObject.getAccountId
  simp only [htype, hfields sfLowLimit (by decide) (by decide),
    hfields sfHighLimit (by decide) (by decide), List.filterMap_cons, List.filterMap_nil,
    hfields sfAccount (by decide) (by decide), hfields sfDestination (by decide) (by decide)]

/-- A threaded entry is the same kind of entry, and threading it again changes nothing. -/
theorem threadSle_eq_ok (hsle : sle.WellFormed)
    (h : threadSle formats rules txId ledgerSeq sle = .ok threaded) :
    threadSle formats rules txId ledgerSeq threaded = .ok threaded ∧ threaded.key = sle.key ∧
      threaded.entryType = sle.entryType ∧ ownerAccounts threaded = ownerAccounts sle := by
  unfold threadSle at h
  rw [Except.bind_eq_ok_iff] at h
  obtain ⟨repaired, hrepair, h⟩ := h
  obtain ⟨hthreadable, hkey, htype, howners, hcount⟩ := ensureOwnerCount_eq_ok hsle hrepair
  have hkeep : ∀ entry : STLedgerEntry, (entry.entryType = .accountRoot →
      entry.object.isFieldPresent sfOwnerCount = true) →
      ensureOwnerCount formats entry = .ok entry := by
    intro entry hpres
    rw [ensureOwnerCount, if_neg]
    rintro ⟨hroot, habsent⟩
    rw [hpres hroot] at habsent
    cases habsent
  split_ifs at h with hthreaded
  · have hmem : sfPreviousTxnID ∈ repaired.object.fields := by
      simp only [STLedgerEntry.isThreadedType, Bool.and_eq_true, decide_eq_true_eq] at hthreaded
      exact hthreaded.2
    obtain ⟨hagain, hkey', htype', hmem', hfields⟩ := thread_eq_ok hthreadable hmem h
    have hcount' : threaded.entryType = .accountRoot →
        threaded.object.isFieldPresent sfOwnerCount = true := by
      intro hroot
      rw [STObject.isFieldPresent, hfields sfOwnerCount (by decide) (by decide)]
      exact hcount (htype' ▸ hroot)
    have hthreaded' : threaded.isThreadedType rules = true := by
      simpa [STLedgerEntry.isThreadedType, htype', hmem', hmem] using hthreaded
    refine ⟨?_, hkey'.trans hkey, htype'.trans htype,
      (ownerAccounts_congr htype' hfields).trans howners⟩
    rw [threadSle, hkeep threaded hcount', Except.ok_bind, if_pos hthreaded', hagain]
  · cases h
    refine ⟨?_, hkey, htype, howners⟩
    rw [threadSle, hkeep threaded hcount, Except.ok_bind, if_neg hthreaded]
    rfl

theorem mem_fields_of_isFieldPresent {object : STObject} {field : SField}
    (h : object.isFieldPresent field = true) : field ∈ object.fields := by
  obtain ⟨value, hvalue⟩ := Option.isSome_iff_exists.mp h
  rw [STObject.peekAtPfield, Option.join_eq_some_iff] at hvalue
  exact mem_iff_exists.mpr ⟨_, hvalue⟩

/-- An account root that is given an owner count still states its type. -/
theorem ensureOwnerCount_wellFormed (hsle : sle.WellFormed)
    (h : ensureOwnerCount formats sle = .ok threaded) : threaded.WellFormed := by
  obtain ⟨hthreadable, -, -, -, hcount⟩ := ensureOwnerCount_eq_ok hsle h
  refine ⟨hthreadable, fun hroot => .inl (mem_fields_of_isFieldPresent (hcount hroot)), ?_⟩
  intro hroot
  unfold ensureOwnerCount at h
  split_ifs at h with hrepair
  · have hcode := hsle.states_type hrepair.1
    rw [STObject.getFieldU16] at hcode
    rcases hvalue : sle.object.peekAtPfield sfLedgerEntryType with _ | value
    · rw [hvalue] at hcode
      cases hcode
    rw [hvalue] at hcode
    have hset : (sle.object.setField sfOwnerCount (.uint32 0)).peekAtPfield sfLedgerEntryType =
        some value := by
      rw [STObject.peekAtPfield_setField_of_ne (by decide), hvalue]
    unfold STLedgerEntry.fromStobject at h
    split_ifs at h
    have hcode' : (sle.object.setField sfOwnerCount (.uint32 0)).getFieldU16 sfLedgerEntryType =
        0x0061 := by
      rw [STObject.getFieldU16, hset]
      exact hcode
    simp only [hcode'] at h
    rcases hfind : formats.findByType .accountRoot with _ | template
    · simp [ledgerEntryTypeFromCode, hfind] at h
    · simp only [ledgerEntryTypeFromCode, hfind] at h
      cases h
      rw [STObject.getFieldU16, STObject.peekAtPfield_applyTemplate formats template hset
        (by decide)]
      exact hcode
  · cases h
    exact hsle.states_type hroot

theorem thread_wellFormed (hsle : sle.WellFormed) (hmem : sfPreviousTxnID ∈ sle.object.fields)
    (h : sle.thread txId ledgerSeq = .ok threaded) : threaded.WellFormed := by
  unfold STLedgerEntry.thread at h
  split_ifs at h with hid hseq
  · cases h
    exact hsle
  · cases h
    -- slots stay, and so does what makes an object accept new ones
    have hslots : ∀ {field}, field ∈ sle.object.fields ∨ sle.object.isFree = true →
        field ∈ ((sle.object.setField sfPreviousTxnID (.uint256 txId)).setField
          sfPreviousTxnLgrSeq (.uint32 ledgerSeq)).fields ∨
        ((sle.object.setField sfPreviousTxnID (.uint256 txId)).setField
          sfPreviousTxnLgrSeq (.uint32 ledgerSeq)).isFree = true := by
      intro field hslot
      rw [STObject.isFree_setField, STObject.isFree_setField]
      exact hslot.imp (fun hslot => STObject.mem_setField (STObject.mem_setField hslot)) id
    refine ⟨⟨(hsle.threadable.typed.setField rfl).setField rfl,
      fun _ => hslots (hsle.threadable.seq_slot hmem)⟩,
      fun hroot => hslots (hsle.ownerCount_slot hroot), ?_⟩
    · intro hroot
      rw [STObject.getFieldU16, STObject.peekAtPfield_setField_of_ne (by decide),
        STObject.peekAtPfield_setField_of_ne (by decide)]
      exact hsle.states_type hroot

theorem threadSle_wellFormed (hsle : sle.WellFormed)
    (h : threadSle formats rules txId ledgerSeq sle = .ok threaded) : threaded.WellFormed := by
  unfold threadSle at h
  rw [Except.bind_eq_ok_iff] at h
  obtain ⟨repaired, hrepair, h⟩ := h
  have hrepaired := ensureOwnerCount_wellFormed hsle hrepair
  split_ifs at h with hthreaded
  · simp only [STLedgerEntry.isThreadedType, Bool.and_eq_true, decide_eq_true_eq] at hthreaded
    exact thread_wellFormed hrepaired hthreaded.2 h
  · cases h
    exact hrepaired

end Quaxar.Views
