import Quaxar.Protocol.PublicKey
import Quaxar.Protocol.STAmount
import Quaxar.Protocol.Ter
import Quaxar.Lib.SortedList

/-!
# Setting the signer list of an account

`preflight` sorts the entries before it looks for duplicates; the application looks at them in
the order of the transaction and sorts what it stores. What `replaceSignerList` does around the
list, to the old list, the reserve, the owner directory and the owner count, is an argument: it
can only make the transaction fail.
-/

namespace Quaxar.Signing

open Protocol

/-- Why a check or an application does not succeed. -/
inductive Stop
  | result (ter : Ter)
  | panic (text : String)
deriving DecidableEq

/-- An entry as the transaction has it. -/
structure RawSignerEntry where
  isSignerEntry : Bool
  account : Option AccountID
  signerWeight : Option UInt16
  walletLocator : Option Uint256

structure SignerListSetTx where
  account : AccountID
  flags : UInt32
  signerQuorum : UInt32
  signerEntries : Option (List RawSignerEntry)

structure SignerListSetEntry where
  account : AccountID
  weight : UInt16

structure DispatcherSignerEntry extends SignerListSetEntry where
  walletLocator : Option Uint256

inductive SignerListSetOperation
  | unknown
  | set
  | destroy

/-- A signer list in the ledger. -/
structure SignerListSle where
  owner : Option AccountID
  signerQuorum : UInt32
  signerListId : Option UInt32
  flags : Option UInt32
  signerEntries : List DispatcherSignerEntry

def SignerListSetEntry.rank (entry : SignerListSetEntry) : AccountID ×ₗ ℕ :=
  toLex (entry.account, entry.weight.toNat)

def DispatcherSignerEntry.rank (entry : DispatcherSignerEntry) :
    AccountID ×ₗ ℕ ×ₗ WithBot Uint256 :=
  toLex (entry.account, toLex (entry.weight.toNat, entry.walletLocator))

def signerListSetFlagsMask : UInt32 := ~~~(0x80000000 ||| 0x40000000)

variable (quorum : UInt32) (tx : SignerListSetTx)

/-- The set-or-destroy decision, with the entries sorted. -/
def determineOperation (hasSignerEntries : Bool)
    (signerEntries : Except Stop (List SignerListSetEntry)) :
    Except Stop (List SignerListSetEntry × SignerListSetOperation) :=
  if quorum ≠ 0 ∧ hasSignerEntries = true then do
    let signers ← signerEntries
    .ok (SortedList.sortBy SignerListSetEntry.rank signers, .set)
  else if quorum = 0 ∧ hasSignerEntries = false then .ok ([], .destroy)
  else .ok ([], .unknown)

/-- The loop over the weights and the accounts, with the sum of the weights. -/
def checkEntries (account : AccountID) : List SignerListSetEntry → Except Stop ℕ
  | [] => .ok 0
  | signer :: rest =>
    if signer.weight = 0 then .error (.result .temBadWeight)
    else if signer.account = account then .error (.result .temBadSigner)
    else do
      let sum ← checkEntries account rest
      .ok (signer.weight.toNat + sum)

def validateQuorumAndSignerEntries (signers : List SignerListSetEntry)
    (account : AccountID) : Except Stop Unit :=
  if signers.length < 1 ∨ signers.length > 32 then .error (.result .temMalformed)
  else if ∃ pair ∈ signers.zip signers.tail, pair.1.account = pair.2.account then
    .error (.result .temBadSigner)
  else do
    let allSignersWeight ← checkEntries account signers
    if quorum = 0 ∨ allSignersWeight < quorum.toNat then .error (.result .temBadQuorum)
    else .ok ()

def RawSignerEntry.read (entry : RawSignerEntry) : Except Stop SignerListSetEntry :=
  if !entry.isSignerEntry then .error (.result .temMalformed)
  else match entry.account, entry.signerWeight with
    | some account, some weight => .ok ⟨account, weight⟩
    | _, _ => .error (.result .temMalformed)

def SignerListSetTx.preflight (fixInvalidTxFlags : Bool) : Except Stop Unit :=
  if fixInvalidTxFlags = true ∧ tx.flags &&& signerListSetFlagsMask ≠ 0 then
    .error (.result .temInvalidFlag)
  else do
    let operation ← determineOperation tx.signerQuorum tx.signerEntries.isSome
      ((tx.signerEntries.getD []).mapM RawSignerEntry.read)
    match operation.2 with
    | .unknown => .error (.result .temMalformed)
    | .destroy => .ok ()
    | .set => validateQuorumAndSignerEntries tx.signerQuorum operation.1 tx.account

def RawSignerEntry.parse (entry : RawSignerEntry) : DispatcherSignerEntry :=
  ⟨⟨entry.account.getD BaseUInt.zero, entry.signerWeight.getD 0⟩, entry.walletLocator⟩

def SignerListSetTx.parseSignerEntries : List DispatcherSignerEntry :=
  (tx.signerEntries.getD []).map RawSignerEntry.parse

def lsfOneOwnerCount : UInt32 := 0x00010000

def buildLedgerWritePlan (fixIncludeKeyletFields : Bool) (account : AccountID)
    (quorum flags : UInt32) (signers : List DispatcherSignerEntry) : SignerListSle where
  owner := if fixIncludeKeyletFields then some account else none
  signerQuorum := quorum
  signerListId := some 0
  flags := if flags ≠ 0 then some flags else none
  signerEntries := signers

def validateNonempty (signers : List SignerListSetEntry) (account : AccountID) : Except Stop Unit :=
  if signers.isEmpty then .ok () else validateQuorumAndSignerEntries quorum signers account

/-- What a successful application leaves for the account: a list, or none. -/
def SignerListSetTx.apply (fixIncludeKeyletFields : Bool)
    (around : Except Stop Unit) : Except Stop (Option SignerListSle) := do
  let operationEntries := tx.parseSignerEntries.map DispatcherSignerEntry.toSignerListSetEntry
  validateNonempty tx.signerQuorum operationEntries tx.account
  let operation ← determineOperation tx.signerQuorum tx.signerEntries.isSome (.ok operationEntries)
  match operation.2 with
  | .unknown => .error (.panic "SignerListSet::doApply expects known operation")
  | .set => do
    around
    .ok (some (buildLedgerWritePlan fixIncludeKeyletFields tx.account tx.signerQuorum
      lsfOneOwnerCount (SortedList.sortBy DispatcherSignerEntry.rank tx.parseSignerEntries)))
  | .destroy => do
    around
    .ok none

/-- The list that a successful transaction stores for its account. -/
def SignerListSetTx.Stores (list : SignerListSle) : Prop :=
  ∃ fixInvalidTxFlags fixIncludeKeyletFields around,
    tx.preflight fixInvalidTxFlags = .ok () ∧
      tx.apply fixIncludeKeyletFields around = .ok (some list)

variable {tx : SignerListSetTx} {list : SignerListSle}

/-- What a stored list has. -/
structure SignerListSle.Valid (list : SignerListSle) : Prop where
  ascending : list.signerEntries.Pairwise fun x y => x.account < y.account
  signerListId_eq : list.signerListId = some 0

theorem RawSignerEntry.read_eq {entry : RawSignerEntry} {signer : SignerListSetEntry}
    (h : entry.read = .ok signer) : signer = entry.parse.toSignerListSetEntry := by
  unfold read at h
  obtain ⟨-, h⟩ := Except.ite_error_eq_ok_iff.mp h
  split at h
  · rename_i account weight haccount hweight
    cases h
    simp [parse, haccount, hweight]
  · cases h

theorem SignerListSetTx.nodup_of_preflight {fixInvalidTxFlags : Bool}
    (h : tx.preflight fixInvalidTxFlags = .ok ()) :
    (tx.parseSignerEntries.map fun entry => entry.account).Nodup := by
  obtain ⟨-, h⟩ := Except.ite_error_eq_ok_iff.mp h
  obtain ⟨⟨signers, operation⟩, hoperation, h⟩ := Except.bind_eq_ok_iff.mp h
  unfold determineOperation at hoperation
  split_ifs at hoperation with hset hdestroy
  · obtain ⟨read, hread, hoperation⟩ := Except.bind_eq_ok_iff.mp hoperation
    cases hoperation
    obtain ⟨-, h⟩ := Except.ite_error_eq_ok_iff.mp h
    obtain ⟨hne, -⟩ := Except.ite_error_eq_ok_iff.mp h
    push Not at hne
    have hsort : (SortedList.sortBy SignerListSetEntry.rank read).Pairwise
        fun x y => x.account ≤ y.account :=
      (SortedList.pairwise_sortBy SignerListSetEntry.rank read).imp fun hle =>
        Prod.Lex.monotone_fst _ _ hle
    have hlt := SortedList.pairwise_lt_of_neighbours hsort hne
    have hnodup : ((SortedList.sortBy SignerListSetEntry.rank read).map
        SignerListSetEntry.account).Nodup :=
      List.pairwise_map.mpr (hlt.imp fun hlt => hlt.ne)
    rw [((SortedList.sortBy_perm SignerListSetEntry.rank read).map _).nodup_iff,
      Except.eq_map_of_mapM_eq_ok (fun _ _ => RawSignerEntry.read_eq) hread, List.map_map] at hnodup
    rw [parseSignerEntries, List.map_map]
    exact hnodup
  · cases hoperation
    have hnone : tx.signerEntries = none := by simpa using hdestroy.2
    simp [parseSignerEntries, hnone]
  · cases hoperation
    cases h

theorem SignerListSetTx.Stores.valid (h : tx.Stores list) : list.Valid := by
  obtain ⟨fixInvalidTxFlags, fixIncludeKeyletFields, around, hpreflight, happly⟩ := h
  obtain ⟨-, -, happly⟩ := Except.bind_eq_ok_iff.mp happly
  obtain ⟨⟨signers, operation⟩, -, happly⟩ := Except.bind_eq_ok_iff.mp happly
  cases operation with
  | unknown => cases happly
  | destroy =>
    obtain ⟨-, -, happly⟩ := Except.bind_eq_ok_iff.mp happly
    cases happly
  | set =>
    obtain ⟨-, -, happly⟩ := Except.bind_eq_ok_iff.mp happly
    cases happly
    refine ⟨?_, rfl⟩
    have hsort : (SortedList.sortBy DispatcherSignerEntry.rank tx.parseSignerEntries).Pairwise
        fun x y => x.account ≤ y.account :=
      (SortedList.pairwise_sortBy DispatcherSignerEntry.rank _).imp fun hle =>
        Prod.Lex.monotone_fst _ _ hle
    have hnodup := tx.nodup_of_preflight hpreflight
    rw [← ((SortedList.sortBy_perm DispatcherSignerEntry.rank _).map _).nodup_iff] at hnodup
    exact (hsort.and (List.pairwise_map.mp hnodup)).imp fun hle => lt_of_le_of_ne hle.1 hle.2

end Quaxar.Signing
