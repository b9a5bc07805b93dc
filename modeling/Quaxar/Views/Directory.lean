import Quaxar.Views.Threading

/-!
# Directories

A directory is a circular doubly linked list of pages in the ledger. A page has up to
`dirNodeMaxEntries` keys in `sfIndexes` and the numbers of its neighbours in `sfIndexNext`
and `sfIndexPrevious`, where an absent field is page 0, the root. `dirAdd` writes to the
last page and appends a page when that one is full; `dirRemove` unlinks a page that it has
emptied.
-/

namespace Quaxar.Views

open Protocol (AccountID)
open Std (ExtTreeMap)

def LedgerEntryType.code : LedgerEntryType → ℕ
  | .any => 0x0000
  | .nftokenOffer => 0x0037
  | .check => 0x0043
  | .did => 0x0049
  | .negativeUnl => 0x004E
  | .nftokenPage => 0x0050
  | .signerList => 0x0053
  | .ticket => 0x0054
  | .accountRoot => 0x0061
  | .contract => 0x0063
  | .directoryNode => 0x0064
  | .amendments => 0x0066
  | .generatorMap => 0x0067
  | .ledgerHashes => 0x0068
  | .nickname => 0x006E
  | .offer => 0x006F
  | .depositPreauth => 0x0070
  | .rippleState => 0x0072
  | .feeSettings => 0x0073
  | .escrow => 0x0075
  | .payChannel => 0x0078
  | .amm => 0x0079
  | .mptokenIssuance => 0x007E
  | .mptoken => 0x007F
  | .oracle => 0x0080
  | .credential => 0x0081
  | .permissionedDomain => 0x0082
  | .delegate => 0x0083
  | .vault => 0x0084
  | .loanBroker => 0x0088
  | .loan => 0x0089
  | .sponsorship => 0x0090
  | .child => 0x1CD2

theorem ledgerEntryTypeFromCode_code (entryType : LedgerEntryType) :
    ledgerEntryTypeFromCode entryType.code = some entryType := by
  cases entryType <;> rfl

/-- `set_stbase`: whatever the slot holds is replaced. -/
def STObject.setStbase (object : STObject) (field : SField) (value : FieldValue) : STObject :=
  match object.fields[field]? with
  | some _ => { object with fields := object.fields.insert field (some value) }
  | none =>
    if object.isFree then { object with fields := object.fields.insert field (some value) }
    else object

/-- A `u16` field. -/
def uint16Value (value : ℕ) : FieldValue := .other 1 (BigEndian.toBytes 2 value)

variable (formats : LedgerFormats)

def STLedgerEntry.new (k : Keylet) : Except ViewError STLedgerEntry :=
  let typeCode := k.entryType.code
  match formats.findByType k.entryType with
  | none => .error (.unwound s!"invalid ledger entry type {typeCode}")
  | some template =>
    let object : STObject := {
      fields := template.map fun field style =>
        if style = .required then some (formats.defaultObject field) else none
      isFree := false }
    .ok ⟨object.setField sfLedgerEntryType (uint16Value typeCode), k.key,
      k.entryType⟩

def directoryNodeTemplate : SOTemplate :=
  .ofList [
    (sfOwner, SOEStyle.optional),
    (⟨17, 1⟩, .optional), -- sfTakerPaysCurrency
    (⟨17, 2⟩, .optional), -- sfTakerPaysIssuer
    (⟨21, 3⟩, .optional), -- sfTakerPaysMPT
    (⟨17, 3⟩, .optional), -- sfTakerGetsCurrency
    (⟨17, 4⟩, .optional), -- sfTakerGetsIssuer
    (⟨21, 4⟩, .optional), -- sfTakerGetsMPT
    (⟨3, 6⟩, .optional), -- sfExchangeRate
    (sfIndexes, .required),
    (sfRootIndex, .required),
    (sfIndexNext, .optional),
    (sfIndexPrevious, .optional),
    (⟨5, 10⟩, .optional), -- sfNFTokenID
    (sfPreviousTxnID, .optional),
    (sfPreviousTxnLgrSeq, .optional),
    (⟨5, 34⟩, .optional), -- sfDomainID
    (⟨5, 6⟩, .optional), -- sfLedgerIndex
    (sfLedgerEntryType, .required),
    (⟨2, 2⟩, .required), -- sfFlags
    (⟨8, 27⟩, .optional)] -- sfSponsor

namespace Directory

def dirNodeMaxEntries : ℕ := 32

def dirNodeMaxPages : ℕ := 262144

/-- What the directory functions are given: the ledger formats, the rules of the view and
`pageHash`, the hash of a directory's key and a page number. -/
structure Context where
  formats : LedgerFormats
  rules : Rules
  pageHash : Uint256 → ℕ → Uint256

/-- Describe a page of an owner directory. -/
def describeOwnerDir (account : AccountID) (directory : STObject) : STObject :=
  directory.setField sfOwner (.account account)

variable {V : Type} [ApplyView V] (ctx : Context) (preserveOrder : Bool) (directory : Keylet)
  (newPage : ℕ) (page : ℕ) (key : Uint256)
  (describe : STObject → STObject) (node : STLedgerEntry) (keepRoot : Bool)

def pageKeylet : Except ViewError Keylet :=
  if directory.entryType = .directoryNode then
    .ok (if page = 0 then directory else ⟨.directoryNode, ctx.pageHash directory.key page⟩)
  else .error (.unwound "page_keylet requires a DirectoryNode root")

def sleUpdate (sle : STLedgerEntry) (mutate : STObject → STObject) :
    Except ViewError STLedgerEntry :=
  STLedgerEntry.fromStobject ctx.formats (mutate sle.object) sle.key

def createRoot : EStateM ViewError V ℕ := do
  let root ← EStateM.ofExcept (STLedgerEntry.new ctx.formats directory)
  let object := root.object.setField sfRootIndex (.uint256 directory.key)
  let object := (describe object).setStbase sfIndexes (.vector256 [key])
  ApplyView.insert { root with object }
  pure 0

/-- Peek at a page that must be there. -/
def peekPage (message : String) : EStateM ViewError V STLedgerEntry := do
  let k ← EStateM.ofExcept (pageKeylet ctx directory page)
  match ← ApplyView.peek k with
  | some sle => pure sle
  | none => throw (.conversion message)

/-- The last page, which the root points back to. -/
def findPreviousPage (start : STLedgerEntry) : EStateM ViewError V (ℕ × STLedgerEntry) := do
  let page := start.object.getFieldU64 sfIndexPrevious
  if page ≠ 0 then
    let node ← peekPage ctx directory page "Directory chain: root back-pointer broken."
    pure (page, node)
  else pure (page, start)

/-- The keys of a page with one more, or nothing if it is there already. -/
def addIndex (indexes : List Uint256) (key : Uint256) : Option (List Uint256) :=
  if key ∈ indexes then none
  else if preserveOrder then some (indexes ++ [key])
  else some ((indexes.insertionSort (· ≤ ·)).orderedInsert (· ≤ ·) key)

def insertKey (page : ℕ) (preserveOrder : Bool) (indexes : List Uint256)
    (key : Uint256) : EStateM ViewError V ℕ := do
  match addIndex preserveOrder indexes key with
  | none => throw (.conversion "dirInsert: double insertion")
  | some indexes =>
    ApplyView.rawReplace (← EStateM.ofExcept (sleUpdate ctx node fun object =>
      object.setStbase sfIndexes (.vector256 indexes)))
    pure page

def directoryPageLimitExceeded : Bool :=
  !ctx.rules.fixDirectoryLimit && decide (dirNodeMaxPages ≤ newPage)

/-- Link a new page behind `node`, the last one, and in front of `next`, the root. -/
def linkPage (node next : STLedgerEntry) : EStateM ViewError V Unit := do
  if node.key = next.key then
    ApplyView.rawReplace (← EStateM.ofExcept (sleUpdate ctx node fun object =>
      (object.setField sfIndexNext (.uint64 newPage)).setField sfIndexPrevious (.uint64 newPage)))
  else
    ApplyView.rawReplace (← EStateM.ofExcept (sleUpdate ctx node fun object =>
      object.setField sfIndexNext (.uint64 newPage)))
    ApplyView.rawReplace (← EStateM.ofExcept (sleUpdate ctx next fun object =>
      object.setField sfIndexPrevious (.uint64 newPage)))

/-- The object of a new page. -/
def newPageObject (object : STObject) : STObject :=
  let object := object.setField sfRootIndex (.uint256 directory.key)
  let object := object.setStbase sfIndexes (.vector256 [key])
  let object :=
    if newPage ≠ 1 then object.setField sfIndexPrevious (.uint64 (newPage - 1)) else object
  describe object

def insertPage (node next : STLedgerEntry) (key : Uint256) (directory : Keylet)
    (describe : STObject → STObject) : EStateM ViewError V (Option ℕ) := do
  let newPage := (page + 1) % 2 ^ 64
  if newPage = 0 then pure none
  else if directoryPageLimitExceeded ctx newPage then pure none
  else
    linkPage ctx newPage node next
    let k ← EStateM.ofExcept (pageKeylet ctx directory newPage)
    let newNode ← EStateM.ofExcept (STLedgerEntry.new ctx.formats k)
    ApplyView.insert { newNode with
      object := newPageObject directory newPage key describe newNode.object }
    pure (some newPage)

/-- `dir_append` with `preserveOrder`, `dir_insert` without. -/
def dirAdd : EStateM ViewError V (Option ℕ) := do
  match ← ApplyView.peek directory with
  | none =>
    let page ← createRoot ctx directory key describe
    pure (some page)
  | some root =>
    let (page, node) ← findPreviousPage ctx directory root
    let indexes := node.object.getFieldV256 sfIndexes
    if indexes.length < dirNodeMaxEntries then
      let page ← insertKey ctx node page preserveOrder indexes key
      pure (some page)
    else insertPage ctx page node root key directory describe

/-- Read an entry again, change it and write it back. -/
def relinkPage (message : String)
    (mutate : STObject → STObject) : EStateM ViewError V STLedgerEntry := do
  let sle ← peekPage ctx directory page message
  let sle ← EStateM.ofExcept (sleUpdate ctx sle mutate)
  ApplyView.update sle
  pure sle

/-- The root has been emptied. -/
def removeRoot : EStateM ViewError V Bool := do
  let prevPage := node.object.getFieldU64 sfIndexPrevious
  let nextPage := node.object.getFieldU64 sfIndexNext
  if nextPage = 0 ∧ prevPage ≠ 0 then throw (.conversion "Directory chain: fwd link broken")
  if prevPage = 0 ∧ nextPage ≠ 0 then throw (.conversion "Directory chain: rev link broken")
  -- an empty last page is left over from an older version of the code
  let legacy ←
    if nextPage = prevPage ∧ nextPage ≠ 0 then do
      let last ← peekPage ctx directory nextPage "Directory chain: fwd link broken."
      if (last.object.getFieldV256 sfIndexes).isEmpty then
        let root ← EStateM.ofExcept (sleUpdate ctx node fun object =>
          (object.setField sfIndexNext (.uint64 0)).setField sfIndexPrevious (.uint64 0))
        ApplyView.update root
        ApplyView.erase last
        pure true
      else pure false
    else pure false
  if keepRoot then pure true
  else
    if legacy = true ∨ nextPage = 0 ∧ prevPage = 0 then ApplyView.erase node
    pure true

/-- A page other than the root has been emptied. -/
def removePage : EStateM ViewError V Bool := do
  let prevPage := node.object.getFieldU64 sfIndexPrevious
  let nextPage := node.object.getFieldU64 sfIndexNext
  if nextPage = page ∨ prevPage = page then throw (.conversion "Directory chain: link broken")
  let _ ← relinkPage ctx directory prevPage "Directory chain: fwd link broken" fun object =>
    object.setField sfIndexNext (.uint64 nextPage)
  let next ← relinkPage ctx directory nextPage "Directory chain: rev link broken" fun object =>
    object.setField sfIndexPrevious (.uint64 prevPage)
  ApplyView.erase node
  -- an empty last page is left over from an older version of the code
  let legacy := decide (nextPage ≠ 0) && decide (next.object.getFieldU64 sfIndexNext = 0) &&
    (next.object.getFieldV256 sfIndexes).isEmpty
  if legacy then
    ApplyView.erase next
    let _ ← relinkPage ctx directory prevPage "prev disappeared" fun object =>
      object.setField sfIndexNext (.uint64 0)
    let _ ← relinkPage ctx directory 0 "Directory chain: root link broken." fun object =>
      object.setField sfIndexPrevious (.uint64 prevPage)
  if keepRoot = false ∧ (legacy = true ∨ nextPage = 0) ∧ prevPage = 0 then
    let prev ← peekPage ctx directory prevPage "Directory chain: fwd link broken."
    if (prev.object.getFieldV256 sfIndexes).isEmpty then ApplyView.erase prev
  pure true

def dirRemove : EStateM ViewError V Bool := do
  let k ← EStateM.ofExcept (pageKeylet ctx directory page)
  match ← ApplyView.peek k with
  | none => pure false
  | some node =>
    let entries := node.object.getFieldV256 sfIndexes
    if key ∈ entries then
      let entries := entries.erase key
      let node ← EStateM.ofExcept (sleUpdate ctx node fun object =>
        object.setStbase sfIndexes (.vector256 entries))
      ApplyView.update node
      if !entries.isEmpty then pure true
      else if page = 0 then removeRoot ctx directory node keepRoot
      else removePage ctx directory page node keepRoot
    else pure false

end Directory

end Quaxar.Views
