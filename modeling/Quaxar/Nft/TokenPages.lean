import Quaxar.Basics.UIntArith
import Quaxar.Protocol.Ter
import Quaxar.Views.Directory

/-!
# NFToken pages

The tokens of an owner are kept in pages of up to `dirMaxTokensPerPage`. The key of a page
is the owner's account followed by 96 bits, and a token belongs to the first page whose 96
bits are above the low 96 bits of its id. The pages of an owner are a doubly linked list
through `sfPreviousPageMin` and `sfNextPageMin`; the last one has all 96 bits set.
-/

namespace Quaxar.Nft

open Views
open Protocol (AccountID Ter)

def nftPageMask : Uint256 := ⟨List.replicate 20 0 ++ List.replicate 12 255, rfl⟩

def nftOwnerMin (owner : AccountID) : Uint256 :=
  ⟨owner.data ++ List.replicate 12 0,
    List.length_append.trans (congrArg (· + _) owner.length_data)⟩

def nftOwnerMax (owner : AccountID) : Uint256 :=
  ⟨owner.data ++ List.replicate 12 255,
    List.length_append.trans (congrArg (· + _) owner.length_data)⟩

def nftPage (base token : Uint256) : Uint256 :=
  (base.and nftPageMask.not).add (token.and nftPageMask)

/-- The least key that the page of a token is above of. -/
def nftPageForToken (owner : AccountID) (tokenId : Uint256) : Uint256 :=
  nftPage (nftOwnerMin owner) tokenId

def nftCompareTokens (left right : Uint256) : Ordering :=
  (compare (left.and nftPageMask) (right.and nftPageMask)).then (compare left right)

/-- `sort_by` with `nft_compare_tokens`. -/
def sortTokens (tokens : List NFToken) : List NFToken :=
  tokens.insertionSort fun left right => nftCompareTokens left.nftokenId right.nftokenId ≠ .gt

def dirMaxTokensPerPage : ℕ := 32

/-- `make_field_absent`. The callers ask for the field first, so there is a slot. -/
def makeFieldAbsent (object : STObject) (field : SField) : STObject :=
  { object with fields := object.fields.insert field none }

def nftokenPageTemplate : SOTemplate :=
  .ofList [
    (sfPreviousPageMin, SOEStyle.optional),
    (sfNextPageMin, .optional),
    (sfNFTokens, .required),
    (sfPreviousTxnID, .required),
    (sfPreviousTxnLgrSeq, .required),
    (⟨5, 6⟩, .optional), -- sfLedgerIndex
    (sfLedgerEntryType, .required),
    (⟨2, 2⟩, .required), -- sfFlags
    (⟨8, 27⟩, .optional)] -- sfSponsor

def accountRootTemplate : SOTemplate :=
  .ofList [
    (sfAccount, SOEStyle.required),
    (⟨2, 4⟩, .required), -- sfSequence
    (⟨6, 2⟩, .required), -- sfBalance
    (sfOwnerCount, .required),
    (sfPreviousTxnID, .required),
    (sfPreviousTxnLgrSeq, .required),
    (⟨5, 9⟩, .optional), -- sfAccountTxnID
    (⟨8, 8⟩, .optional), -- sfRegularKey
    (⟨4, 1⟩, .optional), -- sfEmailHash
    (⟨5, 7⟩, .optional), -- sfWalletLocator
    (⟨2, 12⟩, .optional), -- sfWalletSize
    (⟨7, 2⟩, .optional), -- sfMessageKey
    (⟨2, 11⟩, .optional), -- sfTransferRate
    (⟨7, 7⟩, .optional), -- sfDomain
    (⟨16, 16⟩, .optional), -- sfTickSize
    (⟨2, 40⟩, .optional), -- sfTicketCount
    (⟨8, 9⟩, .optional), -- sfNFTokenMinter
    (⟨2, 43⟩, .default), -- sfMintedNFTokens
    (⟨2, 44⟩, .default), -- sfBurnedNFTokens
    (⟨2, 50⟩, .optional), -- sfFirstNFTokenSequence
    (⟨2, 70⟩, .default), -- sfSponsoredOwnerCount
    (⟨2, 71⟩, .default), -- sfSponsoringOwnerCount
    (⟨2, 72⟩, .default), -- sfSponsoringAccountCount
    (⟨5, 14⟩, .optional), -- sfAMMID
    (⟨5, 35⟩, .optional), -- sfVaultID
    (⟨5, 37⟩, .optional), -- sfLoanBrokerID
    (⟨5, 6⟩, .optional), -- sfLedgerIndex
    (sfLedgerEntryType, .required),
    (⟨2, 2⟩, .required), -- sfFlags
    (⟨8, 27⟩, .optional)] -- sfSponsor

/-- What the functions are given: the ledger formats, the rules of the view and the hash
that `account_keylet` takes of an account. -/
structure Context where
  formats : LedgerFormats
  fixNFTokenPageLinks : Bool
  accountKey : AccountID → Uint256

variable {V : Type} [ApplyView V] (ctx : Context)

/-- The `Ok` of a call, or nothing where the caller goes on after an `Err`. -/
def attempt {α : Type} (x : EStateM ViewError V α) : EStateM ViewError V (Option α) := fun v =>
  match x v with
  | .ok a v' => .ok (some a) v'
  | .error (.unwound message) v' => .error (.unwound message) v'
  | .error _ v' => .ok none v'

/-- Update the entry at `key` to `object`. -/
def updateObject (object : STObject) (key : Uint256) : EStateM ViewError V Unit := do
  ApplyView.update (← EStateM.ofExcept (STLedgerEntry.fromStobject ctx.formats object key))

def peekPage (key : Uint256) : EStateM ViewError V (Option STLedgerEntry) :=
  ApplyView.peek ⟨.nftokenPage, key⟩

variable (owner : AccountID) (tokenId : Uint256)

def peekAccount : EStateM ViewError V (Option STLedgerEntry) :=
  ApplyView.peek ⟨.accountRoot, ctx.accountKey owner⟩

def viewSucc (key last : Uint256) : EStateM ViewError V (Option Uint256) := fun v =>
  EStateM.ofExcept (ReadView.succ v key (some last)) v

def confineOwnerCount (current : ℕ) (adjustment : ℤ) : ℕ :=
  let result := current + adjustment
  if result < 0 then 0
  else if 2 ^ 32 - 1 < result then 2 ^ 32 - 1
  else result.toNat

def adjustOwnerCount (sle : STLedgerEntry) (amount : ℤ) : EStateM ViewError V Unit :=
  let current := sle.object.getFieldU32 sfOwnerCount
  let adjusted := confineOwnerCount current amount
  updateObject ctx (sle.object.setField sfOwnerCount (.uint32 adjusted)) sle.key

/-- Adjust the count of `owner`. It fails where the caller returns `tefBAD_LEDGER`. -/
def adjustOwner (amount : ℤ) : EStateM ViewError V Bool := do
  match ← attempt (peekAccount ctx owner) with
  | some (some account) =>
    let adjusted ← attempt (adjustOwnerCount ctx account amount)
    pure adjusted.isSome
  | _ => pure false

def nftLocatePage : EStateM ViewError V (Option STLedgerEntry) := do
  let first := nftPageForToken owner tokenId
  let last := nftOwnerMax owner
  let candidate ← viewSucc first last.next
  peekPage (candidate.getD last)

def nftFindTokenAndPage : EStateM ViewError V (Option (NFToken × STLedgerEntry)) := do
  match ← nftLocatePage owner tokenId with
  | none => pure none
  | some page =>
    match (page.object.getFieldArray sfNFTokens).find? fun token =>
        decide (token.nftokenId = tokenId) with
    | some token => pure (some (token, page))
    | none => pure none

def nftPageLink (page : STLedgerEntry) (field : SField) :
    EStateM ViewError V (Option STLedgerEntry) :=
  if page.object.isFieldPresent field then peekPage (page.object.getFieldH256 field)
  else pure none

/-- Whether each of two pages is linked to the other. -/
def linkedPages (first second : STLedgerEntry) : Bool :=
  first.object.isFieldPresent sfNextPageMin &&
    decide (first.object.getFieldH256 sfNextPageMin = second.key) &&
    second.object.isFieldPresent sfPreviousPageMin &&
    decide (second.object.getFieldH256 sfPreviousPageMin = first.key)

/-- Link the predecessor of `page`, if there is one, to the page at `key`. The result is
the object of that page, linked back. -/
def relinkPrevious (page : STLedgerEntry) (object : STObject) (key : Uint256) (message : String) :
    EStateM ViewError V STObject :=
  if page.object.isFieldPresent sfPreviousPageMin then do
    let previousKey := page.object.getFieldH256 sfPreviousPageMin
    match ← peekPage previousKey with
    | some previous =>
      updateObject ctx (previous.object.setField sfNextPageMin (.uint256 key)) previous.key
      pure (object.setField sfPreviousPageMin (.uint256 previousKey))
    | none => throw (.conversion message)
  else pure object

/-- Write the merged tokens to the second page and erase the first. -/
def mergeInto (first second : STLedgerEntry) (merged : List NFToken) :
    EStateM ViewError V Unit := do
  let object := second.object.setStbase sfNFTokens (.nftokens merged)
  let object :=
    if object.isFieldPresent sfPreviousPageMin then makeFieldAbsent object sfPreviousPageMin
    else object
  let object ← relinkPrevious ctx first object second.key
    "NFToken page merge could not load previous page"
  updateObject ctx object second.key
  ApplyView.erase first

def nftMergePages (first second : STLedgerEntry) : EStateM ViewError V Bool := do
  if second.key ≤ first.key then
    throw (.conversion "NFToken pages passed to merge out of order")
  if !linkedPages first second then
    throw (.conversion "NFToken page merge encountered broken links")
  let firstTokens := first.object.getFieldArray sfNFTokens
  let secondTokens := second.object.getFieldArray sfNFTokens
  if dirMaxTokensPerPage < firstTokens.length + secondTokens.length then pure false
  else
    mergeInto ctx first second (sortTokens (firstTokens ++ secondTokens))
    pure true

/-- Merge the predecessor into the page and read the page again. The result is the page
and the change of the owner count. -/
def mergePrevious (previous : Option STLedgerEntry) (current : STLedgerEntry) :
    EStateM ViewError V (Option (STLedgerEntry × ℤ)) :=
  match previous with
  | none => pure (some (current, 0))
  | some prev => do
    match ← attempt (nftMergePages ctx prev current) with
    | none => pure none
    | some false => pure (some (current, 0))
    | some true =>
      match ← attempt (peekPage current.key) with
      | some (some page) => pure (some (page, -1))
      | _ => pure none

/-- Merge the page into its successor. The result is the change of the owner count. -/
def mergeNext (current : STLedgerEntry) (next : Option STLedgerEntry) :
    EStateM ViewError V (Option ℤ) :=
  match next with
  | none => pure (some 0)
  | some nextPage => do
    match ← attempt (nftMergePages ctx current nextPage) with
    | none => pure none
    | some false => pure (some 0)
    | some true => pure (some (-1))

/-- The owner count follows if the number of pages has changed. -/
def settleOwner (delta : ℤ) : EStateM ViewError V Ter := do
  if delta ≠ 0 then
    let adjusted ← adjustOwner ctx owner delta
    pure (if adjusted then .tesSuccess else .tefBadLedger)
  else pure .tesSuccess

/-- Some tokens stay on the page. -/
def shrinkPage (current : STLedgerEntry) (kept : List NFToken)
    (previous next : Option STLedgerEntry) : EStateM ViewError V Ter := do
  let updatedCurrent ← EStateM.ofExcept (STLedgerEntry.fromStobject ctx.formats
    (current.object.setStbase sfNFTokens (.nftokens kept)) current.key)
  match ← attempt (ApplyView.update updatedCurrent) with
  | none => pure .tefBadLedger
  | some () =>
    match ← mergePrevious ctx previous updatedCurrent with
    | none => pure .tefBadLedger
    | some merged =>
      match ← mergeNext ctx merged.1 next with
      | none => pure .tefBadLedger
      | some delta => settleOwner ctx owner (merged.2 + delta)

/-- Link the predecessor of `prev`, if there is one, to the last page, whose object is
given, and that page back to it. -/
def relinkLast (prev : STLedgerEntry) (object : STObject) (key : Uint256) :
    EStateM ViewError V (Option STObject) :=
  if prev.object.isFieldPresent sfPreviousPageMin then do
    let prevLink := prev.object.getFieldH256 sfPreviousPageMin
    let object := object.setField sfPreviousPageMin (.uint256 prevLink)
    match ← attempt (peekPage prevLink) with
    | some (some newPrev) =>
      let updated ← attempt (updateObject ctx
        (newPrev.object.setField sfNextPageMin (.uint256 key)) newPrev.key)
      pure (updated.map fun _ => object)
    | _ => pure none
  else
    pure (some (if object.isFieldPresent sfPreviousPageMin then
      makeFieldAbsent object sfPreviousPageMin else object))

/-- The last page is empty: it takes over the tokens of its predecessor. -/
def refillLast (current prev : STLedgerEntry) : EStateM ViewError V Ter := do
  let object := current.object.setStbase sfNFTokens
    (.nftokens (prev.object.getFieldArray sfNFTokens))
  match ← relinkLast ctx prev object current.key with
  | none => pure .tefBadLedger
  | some object =>
    if ← adjustOwner ctx owner (-1) then
      match ← attempt (updateObject ctx object current.key) with
      | none => pure .tefBadLedger
      | some () =>
        match ← attempt (ApplyView.erase prev) with
        | none => pure .tefBadLedger
        | some () => pure .tesSuccess
    else pure .tefBadLedger

/-- The object of a page that is linked to `other`, or to nothing. -/
def setLink (object : STObject) (field : SField) (other : Option STLedgerEntry) : STObject :=
  match other with
  | some page => object.setField field (.uint256 page.key)
  | none => if object.isFieldPresent field then makeFieldAbsent object field else object

/-- Write the link of a neighbour, if there is one. -/
def relinkNeighbour (page : Option STLedgerEntry) (field : SField) (other : Option STLedgerEntry) :
    EStateM ViewError V Bool :=
  match page with
  | none => pure true
  | some sle => do
    let updated ← attempt (updateObject ctx (setLink sle.object field other) sle.key)
    pure updated.isSome

/-- Merge the neighbours of a page that is gone, as they were before. -/
def mergeNeighbours (previous next : Option STLedgerEntry) : EStateM ViewError V (Option ℤ) :=
  match previous, next with
  | some prev, some nextPage => do
    match ← attempt (nftMergePages ctx prev nextPage) with
    | none => pure none
    | some false => pure (some (-1))
    | some true => pure (some (-2))
  | _, _ => pure (some (-1))

/-- The page is empty and goes. -/
def dropPage (current : STLedgerEntry) (previous next : Option STLedgerEntry) :
    EStateM ViewError V Ter := do
  if ← relinkNeighbour ctx previous sfNextPageMin next then
    if ← relinkNeighbour ctx next sfPreviousPageMin previous then
      match ← attempt (ApplyView.erase current) with
      | none => pure .tefBadLedger
      | some () =>
        match ← mergeNeighbours ctx previous next with
        | none => pure .tefBadLedger
        | some delta =>
          let adjusted ← adjustOwner ctx owner delta
          pure (if adjusted then .tesSuccess else .tefBadLedger)
    else pure .tefBadLedger
  else pure .tefBadLedger

/-- Whether the last page, emptied, is refilled. -/
def refillsLast (current : STLedgerEntry) : Bool :=
  ctx.fixNFTokenPageLinks && decide (current.key.and nftPageMask = nftPageMask)

/-- The token is on the page, whose other tokens and neighbours are given. -/
def removeFound (current : STLedgerEntry) (kept : List NFToken)
    (previous next : Option STLedgerEntry) : EStateM ViewError V Ter :=
  if !kept.isEmpty then shrinkPage ctx owner current kept previous next
  else
    match previous with
    | some prev =>
      if refillsLast ctx current then refillLast ctx owner current prev
      else dropPage ctx owner current previous next
    | none => dropPage ctx owner current previous next

def nftRemoveTokenFromPage (current : STLedgerEntry) : EStateM ViewError V Ter := do
  let tokens := current.object.getFieldArray sfNFTokens
  let kept := tokens.filter fun token => decide (token.nftokenId ≠ tokenId)
  if (tokens.any fun token => decide (token.nftokenId = tokenId)) then
    match ← attempt (nftPageLink current sfPreviousPageMin) with
    | none => pure .tefBadLedger
    | some previous =>
      match ← attempt (nftPageLink current sfNextPageMin) with
      | none => pure .tefBadLedger
      | some next => removeFound ctx owner current kept previous next
  else pure .tecNoEntry

/-- The last low part of the first half of a full page. -/
def splitCmp (tokens : List NFToken) : Uint256 :=
  (tokens.getD (dirMaxTokensPerPage / 2 - 1) default).nftokenId.and nftPageMask

/-- The first token of the second half with another low part, or else the first token with
that low part. -/
def splitPoint (tokens : List NFToken) : ℕ :=
  let half := dirMaxTokensPerPage / 2
  let index := ((List.range' half (tokens.length - half)).find? fun index =>
    decide ((tokens.getD index default).nftokenId.and nftPageMask ≠ splitCmp tokens)).getD
      tokens.length
  if index = tokens.length then
    tokens.findIdx fun token => decide (token.nftokenId.and nftPageMask = splitCmp tokens)
  else index

/-- Where to split a full page, if it can be. -/
def splitIndex (tokens : List NFToken) (tokenId : Uint256) : Option ℕ :=
  let index := splitPoint tokens
  if index = tokens.length then none
  else if index = 0 then
    match compare (tokenId.and nftPageMask) (splitCmp tokens) with
    | .eq => none
    | .gt => some tokens.length
    | .lt => some 0
  else some index

/-- The id that the key of the new page is made of. -/
def splitToken (tokens carried : List NFToken) : Uint256 :=
  if tokens.length = dirMaxTokensPerPage then
    (tokens.getD (dirMaxTokensPerPage - 1) default).nftokenId.next
  else (carried.getD 0 default).nftokenId

/-- Adjust the count of `owner`, who must be there. -/
def chargeOwner : EStateM ViewError V Unit := do
  match ← peekAccount ctx owner with
  | some account => adjustOwnerCount ctx account 1
  | none => throw (.conversion "NFToken owner disappeared")

/-- Move the first `index` tokens of a full page to a new page in front of it. -/
def splitPage (page : STLedgerEntry) (tokenId : Uint256) (index : ℕ) :
    EStateM ViewError V (Option STLedgerEntry) := do
  let all := page.object.getFieldArray sfNFTokens
  let tokens := all.take index
  let carried := all.drop index
  let newKey := nftPage (nftOwnerMin owner) (splitToken tokens carried)
  let newPage ← EStateM.ofExcept (STLedgerEntry.new ctx.formats ⟨.nftokenPage, newKey⟩)
  let object := newPage.object.setStbase sfNFTokens (.nftokens tokens)
  let object := object.setField sfNextPageMin (.uint256 page.key)
  let object ← relinkPrevious ctx page object newKey
    "NFToken page split encountered a broken previous link"
  ApplyView.insert { newPage with object }
  let pageObject := page.object.setStbase sfNFTokens (.nftokens carried)
  updateObject ctx (pageObject.setField sfPreviousPageMin (.uint256 newKey)) page.key
  chargeOwner ctx owner
  peekPage (if nftPageForToken owner tokenId < newKey then newKey else page.key)

/-- The first page of an owner. -/
def createPage : EStateM ViewError V (Option STLedgerEntry) := do
  let last := nftOwnerMax owner
  let newPage ← EStateM.ofExcept (STLedgerEntry.new ctx.formats ⟨.nftokenPage, last⟩)
  let page := { newPage with object := newPage.object.setStbase sfNFTokens (.nftokens []) }
  ApplyView.insert page
  chargeOwner ctx owner
  pure (some page)

def nftGetPageForToken : EStateM ViewError V (Option STLedgerEntry) := do
  match ← nftLocatePage owner tokenId with
  | none => createPage ctx owner
  | some page =>
    let tokens := page.object.getFieldArray sfNFTokens
    if tokens.length ≠ dirMaxTokensPerPage then pure (some page)
    else
      match splitIndex tokens tokenId with
      | none => pure none
      | some index => splitPage ctx owner page tokenId index

/-- Add a token to a page. -/
def addToken (page : STLedgerEntry) (token : NFToken) : EStateM ViewError V Ter := do
  let tokens := sortTokens (page.object.getFieldArray sfNFTokens ++ [token])
  let updated ← attempt (updateObject ctx
    (page.object.setStbase sfNFTokens (.nftokens tokens)) page.key)
  pure (if updated.isSome then .tesSuccess else .tefBadLedger)

def nftInsertToken (token : NFToken) : EStateM ViewError V Ter := do
  match ← attempt (nftGetPageForToken ctx owner token.nftokenId) with
  | none => pure .tefBadLedger
  | some none => pure .tecNoSuitableNftokenPage
  | some (some page) => addToken ctx page token

end Quaxar.Nft
