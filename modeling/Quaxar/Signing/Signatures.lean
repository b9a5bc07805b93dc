import Quaxar.Protocol.PublicKey
import Quaxar.Protocol.STAmount
import Quaxar.Lib.Except

/-!
# Signatures of transactions

A signature object holds one signature or a list of signers; a transaction has its own and may
have one of a counterparty and one of a sponsor, and a batch has one for each account that takes
part in it. `STTx.checkSign` checks that all of them verify. Keys and hashes are left to a
`Crypto`, about which nothing is assumed.
-/

namespace Quaxar.Signing

open Protocol

structure Crypto where
  verify : PublicKey → Blob → Blob → Bool
  calcAccountId : PublicKey → AccountID
  toBase58 : AccountID → String

structure Signer where
  account : AccountID
  signingPubKey : Blob
  txnSignature : Blob

structure SignatureObject where
  signingPubKey : Blob
  txnSignature : Option Blob
  signers : Option (List Signer)

structure BatchSigner extends SignatureObject where
  account : AccountID

inductive SignatureRole
  | transaction
  | counterparty
  | sponsor
deriving DecidableEq

/-- What is read of an inner transaction of a batch. -/
structure InnerTransaction where
  transactionId : Uint256
  account : AccountID
  delegate : Option AccountID
  counterparty : Option AccountID
  sponsor : Option AccountID
  hasSponsorSignature : Bool

/-- An inner transaction as the batch carries it: whether its type has a format, and what it is
after the template of the format is applied, unless that panics. -/
structure RawTransaction where
  txType : UInt16
  hasFormat : Bool
  canonical : Option InnerTransaction

/-- What is read of a transaction. `signingData` is the transaction without its signing fields,
after the prefix for a role and for a single or a multiple signature. -/
structure STTx where
  txType : UInt16
  account : AccountID
  delegate : Option AccountID
  seqValue : UInt32
  flags : UInt32
  signature : SignatureObject
  counterpartySignature : Option SignatureObject
  sponsorSignature : Option SignatureObject
  batchSigners : Option (List BatchSigner)
  rawTransactions : Option (List RawTransaction)
  signingData : SignatureRole → Bool → Blob

def ttBATCH : UInt16 := 71

def InnerTransaction.getInitiator (tx : InnerTransaction) : AccountID := tx.delegate.getD tx.account

variable (crypto : Crypto) (message : Blob) (tx : STTx) (object : SignatureObject)

def STTx.getInitiator : AccountID := tx.delegate.getD tx.account

def verifySignatureBytes (signingPubKey txnSignature message : Blob) : Bool :=
  match PublicKey.fromSlice signingPubKey with
  | none => false
  | some key => crypto.verify key message txnSignature

def finishMultiSigningData (account : AccountID) : Blob := message ++ account.data

def minMultiSigners : ℕ := 1

def maxMultiSigners : ℕ := 32

/-- The loop of `checkSttxMultiSign`, after a signer with the account `last`. -/
def checkSigners (crypto : Crypto) (txnAccountId : Option AccountID)
    (verifySigner : Signer → Bool) :
    Option AccountID → List Signer → Except String Unit
  | _, [] => .ok ()
  | last, signer :: rest =>
    if txnAccountId = some signer.account then .error "Invalid multisigner."
    else if last = some signer.account then .error "Duplicate Signers not allowed."
    else if last.any fun last => decide (last > signer.account) then
      .error "Unsorted Signers array."
    else if !verifySigner signer then
      .error ("Invalid signature on account " ++ crypto.toBase58 signer.account ++ ".")
    else checkSigners crypto txnAccountId verifySigner (some signer.account) rest

def checkSttxMultiSign
    (txnAccountId : Option AccountID) (verifySigner : Signer → Bool) : Except String Unit :=
  match object.signers with
  | none => .error "Empty SigningPubKey."
  | some signers =>
    if object.txnSignature.isSome then .error "Cannot both single- and multi-sign."
    else if signers.length < minMultiSigners ∨ signers.length > maxMultiSigners then
      .error "Invalid Signers array size."
    else checkSigners crypto txnAccountId verifySigner none signers

def checkSttxSingleSign (verifySignature : Bool) : Except String Unit :=
  if object.signers.isSome then .error "Cannot both single- and multi-sign."
  else if verifySignature then .ok ()
  else .error "Invalid signature."

def checkSignature (txnAccountId : Option AccountID)
    (message : Blob) (verifySigner : Signer → Bool) : Except String Unit :=
  if object.signingPubKey.isEmpty then checkSttxMultiSign crypto object txnAccountId verifySigner
  else checkSttxSingleSign object
    (verifySignatureBytes crypto object.signingPubKey (object.txnSignature.getD []) message)

/-- A signer signs what all sign, followed by its account. -/
def verifySigner (signer : Signer) : Bool :=
  verifySignatureBytes crypto signer.signingPubKey signer.txnSignature
    (finishMultiSigningData message signer.account)

def STTx.checkSignForObject (role : SignatureRole) : Except String Unit :=
  checkSignature crypto object (if role = .transaction then some tx.getInitiator else none)
    (tx.signingData role false) (verifySigner crypto (tx.signingData role true))

variable {crypto : Crypto} {object : SignatureObject} {signers : List Signer}
  {txnAccountId : Option AccountID} {message : Blob}

/-- Signers in ascending order whose signatures verify. -/
structure SignedBy (crypto : Crypto) (message : Blob) (signers : List Signer) : Prop where
  min_le : minMultiSigners ≤ signers.length
  le_max : signers.length ≤ maxMultiSigners
  ascending : signers.Pairwise fun x y => x.account < y.account
  verified : ∀ signer ∈ signers, verifySigner crypto message signer = true

theorem checkSigners_eq_ok_iff {verifySigner : Signer → Bool} {last : Option AccountID} :
    checkSigners crypto txnAccountId verifySigner last signers = .ok () ↔
      (∀ signer ∈ signers, txnAccountId ≠ some signer.account ∧ verifySigner signer = true) ∧
        (∀ prev ∈ last, ∀ signer ∈ signers, prev < signer.account) ∧
          signers.Pairwise fun x y => x.account < y.account := by
  induction signers generalizing last with
  | nil => simp [checkSigners]
  | cons signer rest ih =>
    rw [checkSigners, Except.ite_error_eq_ok_iff, Except.ite_error_eq_ok_iff,
      Except.ite_error_eq_ok_iff, Except.ite_error_eq_ok_iff, ih, List.forall_mem_cons,
      List.pairwise_cons]
    constructor
    · rintro ⟨howner, hdup, hsort, hverify, hall, hrest, hpairwise⟩
      have hrest := hrest signer.account rfl
      refine ⟨⟨⟨howner, by simpa using hverify⟩, hall⟩, fun prev hprev => ?_, hrest, hpairwise⟩
      cases hprev
      have hlt : prev < signer.account := by
        have hle : prev ≤ signer.account := by simpa using hsort
        exact lt_of_le_of_ne hle (by simpa using hdup)
      exact List.forall_mem_cons.mpr ⟨hlt, fun other hother => hlt.trans (hrest other hother)⟩
    · rintro ⟨⟨⟨howner, hverify⟩, hall⟩, hprev, hrest, hpairwise⟩
      refine ⟨howner, ?_, ?_, by simpa using hverify, hall, ?_, hpairwise⟩
      · rintro rfl
        exact lt_irrefl _ (hprev _ rfl signer List.mem_cons_self)
      · cases last with
        | none => simp
        | some prev => simpa using (hprev prev rfl signer List.mem_cons_self).le
      · rintro prev ⟨⟩
        exact hrest

theorem checkSignature_signers_iff {single : Blob} (hsigners : object.signers = some signers) :
    checkSignature crypto object txnAccountId single (verifySigner crypto message) = .ok () ↔
      object.signingPubKey = [] ∧ object.txnSignature = none ∧ SignedBy crypto message signers ∧
        ∀ signer ∈ signers, txnAccountId ≠ some signer.account := by
  unfold checkSignature
  split_ifs with hkey
  · unfold checkSttxMultiSign
    rw [hsigners]
    simp only [Except.ite_error_eq_ok_iff, checkSigners_eq_ok_iff]
    constructor
    · rintro ⟨hsignature, hsize, hall, -, hpairwise⟩
      push Not at hsize
      exact ⟨List.isEmpty_iff.mp hkey, by simpa using hsignature,
        ⟨hsize.1, hsize.2, hpairwise, fun signer hmem => (hall signer hmem).2⟩,
        fun signer hmem => (hall signer hmem).1⟩
    · rintro ⟨-, hsignature, hsigned, howner⟩
      refine ⟨by simp [hsignature], ?_, fun signer hmem => ⟨howner signer hmem,
        hsigned.verified signer hmem⟩, by simp, hsigned.ascending⟩
      push Not
      exact ⟨hsigned.min_le, hsigned.le_max⟩
  · unfold checkSttxSingleSign
    simp [hsigners, mt List.isEmpty_iff.mpr hkey]

theorem checkSignature_single {signingData : Blob} {verifySigner : Signer → Bool}
    (hkey : object.signingPubKey ≠ [])
    (h : checkSignature crypto object txnAccountId signingData verifySigner = .ok ()) :
    verifySignatureBytes crypto object.signingPubKey (object.txnSignature.getD []) signingData =
      true := by
  unfold checkSignature at h
  rw [if_neg (mt List.isEmpty_iff.mp hkey)] at h
  obtain ⟨-, h⟩ := Except.ite_error_eq_ok_iff.mp h
  by_contra hverify
  rw [if_neg hverify] at h
  cases h

theorem verifySignatureBytes_eq_true {signingPubKey txnSignature : Blob}
    (h : verifySignatureBytes crypto signingPubKey txnSignature message = true) :
    ∃ key, PublicKey.fromSlice signingPubKey = some key ∧
      crypto.verify key message txnSignature = true := by
  unfold verifySignatureBytes at h
  split at h
  · cases h
  · exact ⟨_, ‹_›, h⟩

def maxBatchTxCount : ℕ := 8

def maxBatchSignerCount : ℕ := maxBatchTxCount * 3

/-- `HashPrefix::Batch`. -/
def batchPrefix : UInt32 := 0x42434800

def uint32Bytes (value : UInt32) : Blob := BigEndian.toBytes 4 value.toNat

def serializeBatchMessage (outerAccount : AccountID) (outerSeqValue flags : UInt32)
    (txids : List Uint256) : Blob :=
  uint32Bytes batchPrefix ++ outerAccount.data ++ uint32Bytes outerSeqValue ++ uint32Bytes flags ++
    uint32Bytes (UInt32.ofNat txids.length) ++ txids.flatMap BaseUInt.data

/-- The identifier of an inner transaction. -/
def RawTransaction.getTransactionId (raw : RawTransaction) : Except String Uint256 :=
  if raw.txType = ttBATCH then .error "Batch inner transaction cannot be a Batch."
  else if !raw.hasFormat then .error "Invalid batch inner transaction type."
  else match raw.canonical with
    | none => .error "Internal batch signature check failure."
    | some inner => .ok inner.transactionId

/-- One entry of the loop of `check_batch_sign`. -/
def checkBatchSigner (crypto : Crypto) (message : Blob) (signer : BatchSigner) :
    Except String Unit :=
  checkSignature crypto signer.toSignatureObject (some signer.account)
    (finishMultiSigningData message signer.account)
    (verifySigner crypto (finishMultiSigningData message signer.account))

def STTx.batchMessage (tx : STTx) (txids : List Uint256) : Blob :=
  serializeBatchMessage tx.account tx.seqValue tx.flags txids

def STTx.checkBatchSign (crypto : Crypto) (tx : STTx) : Except String Unit :=
  if tx.txType ≠ ttBATCH then .error "Not a batch transaction."
  else match tx.batchSigners with
    | none => .error "Missing BatchSigners field."
    | some signers =>
      if signers.length > maxBatchSignerCount then
        .error "BatchSigners array exceeds max entries."
      else
        let raw := tx.rawTransactions.getD []
        if raw.isEmpty then .error "Missing inner transactions."
        else if raw.length > maxBatchTxCount then
          .error "Raw Transactions array exceeds max entries."
        else do
          let txids ← raw.mapM RawTransaction.getTransactionId
          signers.forM (checkBatchSigner crypto (tx.batchMessage txids))

/-- The error in front of the one of a part. -/
def withPrefix (part : String) : Except String Unit → Except String Unit
  | .ok () => .ok ()
  | .error text => .error (part ++ text)

def STTx.checkPart (crypto : Crypto) (tx : STTx) (part : String) (role : SignatureRole) :
    Option SignatureObject → Except String Unit
  | none => .ok ()
  | some object => withPrefix part (tx.checkSignForObject crypto object role)

def STTx.checkSign (crypto : Crypto) (tx : STTx) : Except String Unit := do
  tx.checkSignForObject crypto tx.signature .transaction
  tx.checkPart crypto "Counterparty: " .counterparty tx.counterpartySignature
  tx.checkPart crypto "Sponsor: " .sponsor tx.sponsorSignature
  if tx.batchSigners.isSome then tx.checkBatchSign crypto else .ok ()

end Quaxar.Signing
