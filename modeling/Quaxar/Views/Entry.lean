import Quaxar.Protocol.STAmount

/-!
# Ledger entries and keylets

A ledger entry is a typed object under a 256-bit key. The object has one slot for each
field of its template; a slot holds a value or is marked not present. A `Keylet` names an
entry by key and expected type.
-/

namespace Quaxar.Views

open Protocol (AccountID STAmount Blob)
open Std (ExtTreeMap)

inductive LedgerEntryType where
  | any
  | nftokenOffer
  | check
  | did
  | negativeUnl
  | nftokenPage
  | signerList
  | ticket
  | accountRoot
  | contract
  | directoryNode
  | amendments
  | generatorMap
  | ledgerHashes
  | nickname
  | offer
  | depositPreauth
  | rippleState
  | feeSettings
  | escrow
  | payChannel
  | amm
  | mptokenIssuance
  | mptoken
  | oracle
  | credential
  | permissionedDomain
  | delegate
  | vault
  | loanBroker
  | loan
  | sponsorship
  | child
deriving DecidableEq, Repr

/-- A field is known by its type and its number within the type. -/
structure SField where
  fieldType : ℕ
  fieldValue : ℕ
deriving DecidableEq, Repr

instance : LinearOrder SField :=
  OrderedMap.orderAlong (fun f => toLex (f.fieldType, f.fieldValue)) (by
    rintro ⟨t, v⟩ ⟨t', v'⟩ h
    simpa using h)

instance SField.instTransCmp : Std.TransCmp (compare : SField → SField → Ordering) :=
  inferInstance

def sfLedgerEntryType : SField := ⟨1, 1⟩

def sfPreviousTxnLgrSeq : SField := ⟨2, 5⟩

def sfOwnerCount : SField := ⟨2, 13⟩

def sfIndexNext : SField := ⟨3, 1⟩

def sfIndexPrevious : SField := ⟨3, 2⟩

def sfPreviousTxnID : SField := ⟨5, 5⟩

def sfRootIndex : SField := ⟨5, 8⟩

def sfPreviousPageMin : SField := ⟨5, 26⟩

def sfNextPageMin : SField := ⟨5, 27⟩

def sfLowLimit : SField := ⟨6, 6⟩

def sfHighLimit : SField := ⟨6, 7⟩

def sfAccount : SField := ⟨8, 1⟩

def sfOwner : SField := ⟨8, 2⟩

def sfDestination : SField := ⟨8, 3⟩

def sfNFTokens : SField := ⟨15, 10⟩

def sfIndexes : SField := ⟨19, 1⟩

/-- An element of `sfNFTokens`: its `sfNFTokenID` and `sfURI`. -/
structure NFToken where
  nftokenId : Uint256
  uri : Option Blob
deriving DecidableEq, Inhabited

/-- The serialized types that the modelled code reads and writes. The values of all other
types are kept as their bytes. -/
inductive FieldValue where
  | uint32 (value : ℕ)
  | uint64 (value : ℕ)
  | uint256 (value : Uint256)
  | amount (value : STAmount)
  | account (value : AccountID)
  | vector256 (value : List Uint256)
  | nftokens (value : List NFToken)
  | other (fieldType : ℕ) (bytes : Blob)
deriving DecidableEq

/-- The serialized type of a value. -/
def FieldValue.stype : FieldValue → ℕ
  | uint32 _ => 2
  | uint64 _ => 3
  | uint256 _ => 5
  | amount _ => 6
  | account _ => 8
  | vector256 _ => 19
  | nftokens _ => 15
  | other fieldType _ => fieldType

/-- The slots of an object. Without a template any field may be added. -/
structure STObject where
  fields : ExtTreeMap SField (Option FieldValue)
  isFree : Bool
deriving DecidableEq

namespace STObject

variable (object : STObject) (field : SField)

/-- The value in the field's slot, if it is present. -/
def peekAtPfield : Option FieldValue := (object.fields[field]?).join

def isFieldPresent : Bool := (object.peekAtPfield field).isSome

def getFieldU32 : ℕ :=
  match object.peekAtPfield field with
  | some (.uint32 value) => value
  | _ => 0

def getFieldU64 : ℕ :=
  match object.peekAtPfield field with
  | some (.uint64 value) => value
  | _ => 0

def getFieldH256 : Uint256 :=
  match object.peekAtPfield field with
  | some (.uint256 value) => value
  | _ => BaseUInt.zero

def getAccountId : AccountID :=
  match object.peekAtPfield field with
  | some (.account value) => value
  | _ => BaseUInt.zero

def getFieldAmount : STAmount :=
  match object.peekAtPfield field with
  | some (.amount value) => value
  | _ => STAmount.default

def getFieldV256 : List Uint256 :=
  match object.peekAtPfield field with
  | some (.vector256 value) => value
  | _ => []

def getFieldArray : List NFToken :=
  match object.peekAtPfield field with
  | some (.nftokens value) => value
  | _ => []

/-- `set_field_using_set_value`: a field that the template does not have and a slot that
holds a value of another type are left alone. -/
def setField (value : FieldValue) : STObject :=
  match object.fields[field]? with
  | none =>
    if object.isFree then { object with fields := object.fields.insert field (some value) }
    else object
  | some none => { object with fields := object.fields.insert field (some value) }
  | some (some old) =>
    if old.stype = value.stype then
      { object with fields := object.fields.insert field (some value) }
    else object

end STObject

structure STLedgerEntry where
  object : STObject
  key : Uint256
  entryType : LedgerEntryType
deriving DecidableEq

structure Keylet where
  entryType : LedgerEntryType
  key : Uint256
deriving DecidableEq

/-- `check_ledger_entry`: whether an entry is what the keylet names. -/
def Keylet.checkLedgerEntry (k : Keylet) (sle : STLedgerEntry) : Bool :=
  match k.entryType with
  | .any => true
  | .child => sle.entryType ≠ .directoryNode
  | expected => expected = sle.entryType ∧ k.key = sle.key

theorem Keylet.checkLedgerEntry_self {sle : STLedgerEntry} {key : Uint256}
    (hkey : sle.key = key) (hany : sle.entryType ≠ .child) :
    (Keylet.mk sle.entryType key).checkLedgerEntry sle = true := by
  unfold checkLedgerEntry
  cases h : sle.entryType <;> simp_all

end Quaxar.Views
