import Quaxar.Signing.MultiSign

/-!
# Who takes part in a batch

Three loops go over the signers of a batch: one verifies their signatures, one matches them with
the accounts that take part, and one asks the ledger whether the keys may act for the accounts.
-/

namespace Quaxar.Signing

open Protocol

variable (tx : STTx) (crypto : Crypto) (view : SigningView) (message : Blob) (signer : BatchSigner)
  (outerAccount : AccountID)

/-- The accounts other than the outer one that must sign for an inner transaction. -/
def InnerTransaction.requiredSigners (inner : InnerTransaction) : List AccountID :=
  (inner.getInitiator :: (inner.counterparty.toList ++
    (if inner.hasSponsorSignature then inner.sponsor.toList else []))).filter (· ≠ outerAccount)

/-- The loop over the signers of the batch, with the required accounts that are not matched yet. -/
def matchSigners (outerAccount : AccountID) :
    Option AccountID → List AccountID → List AccountID → Except Stop (List AccountID)
  | _, required, [] => .ok required
  | last, required, account :: rest =>
    if account = outerAccount ∨ last = some account ∨
        last.any (fun last => decide (last > account)) then
      .error (.result .temBadSigner)
    else match required with
      | [] => .error (.result .temBadSigner)
      | next :: required =>
        if next ≠ account then .error (.result .temBadSigner)
        else matchSigners outerAccount (some account) required rest

/-- The loop of `validateBatchPreflightSigValidated`; without the field nothing is matched. -/
def matchBatchSigners (required : List AccountID) :
    Option (List BatchSigner) → Except Stop (List AccountID)
  | none => .ok required
  | some signers =>
    if signers.length > maxBatchSignerCount then .error (.result .temArrayTooLarge)
    else matchSigners outerAccount none required (signers.map BatchSigner.account)

def validateBatchPreflightSigValidated
    (innerTransactions : List InnerTransaction) (batchSigners : Option (List BatchSigner)) :
    Except Stop Unit := do
  let requiredSigners := SortedList.dedupAdjacent (SortedList.sortBy id
    (innerTransactions.flatMap (InnerTransaction.requiredSigners outerAccount)))
  let unmatched ← matchBatchSigners outerAccount requiredSigners batchSigners
  if unmatched ≠ [] then .error (.result .temBadSigner) else .ok ()

def RawTransaction.toCanonical (raw : RawTransaction) : Except Stop InnerTransaction :=
  if !raw.hasFormat then .error (.result .temInvalid)
  else match raw.canonical with
    | none => .error (.result .temInvalid)
    | some inner => .ok inner

def STTx.canonicalBatchInnerTransactions : Except Stop (List InnerTransaction) :=
  if tx.txType ≠ ttBATCH then .error (.result .temInvalid)
  else (tx.rawTransactions.getD []).mapM RawTransaction.toCanonical

def STTx.validateBatchPreflightSigValidated : Except Stop Unit := do
  let innerTransactions ← tx.canonicalBatchInnerTransactions
  Signing.validateBatchPreflightSigValidated tx.account innerTransactions tx.batchSigners

def checkBatchSign (crypto : Crypto) (view : SigningView) (dryRun : Bool) :
    List BatchSigner → Except Stop Unit
  | [] => .ok ()
  | signer :: rest =>
    if signer.signingPubKey.isEmpty then do
      checkMultiSign crypto view dryRun (view.readSignerList signer.account)
        (signer.signers.getD [])
      checkBatchSign crypto view dryRun rest
    else match PublicKey.fromSlice signer.signingPubKey with
      | none => .error (.result .tefBadAuth)
      | some key =>
        match view.readAccount signer.account with
        | none =>
          if signer.account ≠ crypto.calcAccountId key then .error (.result .tefBadAuth)
          -- the loop ends here, whatever signers follow
          else .ok ()
        | some state => do
          checkSingleSign (crypto.calcAccountId key) signer.account state
          checkBatchSign crypto view dryRun rest

def STTx.batchCheckSign (dryRun : Bool) (tx : STTx) : Except Stop Unit :=
  match tx.batchSigners with
  | none => .ok ()
  | some signers => Signing.checkBatchSign crypto view dryRun signers

/-- An account signs with a key of its own. -/
def BatchSigner.SignsSingly : Prop :=
  ∃ key, PublicKey.fromSlice signer.signingPubKey = some key ∧
    crypto.verify key (finishMultiSigningData message signer.account)
      (signer.txnSignature.getD []) = true ∧
      view.MayAct signer.account (crypto.calcAccountId key)

/-- An account signs through distinct members of its signer list. -/
def BatchSigner.SignsByList : Prop :=
  ∃ list ∈ view.readSignerList signer.account, ∃ signers counted,
    signer.signers = some signers ∧ (signers.map Signer.account).Nodup ∧
      List.Forall₂ (fun member entry => entry ∈ list.signerEntries ∧
        entry.account = member.account ∧
          member.Authorized crypto view (finishMultiSigningData message signer.account))
        signers counted ∧
      list.signerQuorum.toNat ≤ (counted.map weightOf).sum

/-- A signer of the batch that the account itself has authorized. -/
def BatchSigner.Authorized : Prop :=
  signer.SignsSingly crypto view message ∨ signer.SignsByList crypto view message

/-- The accounts that take part in an inner transaction. -/
def InnerTransaction.TakesPart (inner : InnerTransaction) (account : AccountID) : Prop :=
  account = inner.getInitiator ∨ inner.counterparty = some account ∨
    inner.hasSponsorSignature = true ∧ inner.sponsor = some account

/-- A signer with a key whose account does not exist, at which the loop returns. -/
def BatchSigner.EndsLoop : Prop :=
  signer.signingPubKey ≠ [] ∧ view.readAccount signer.account = none

variable {inner : InnerTransaction} {tx : STTx} {outerAccount account : AccountID}
  {innerTransactions : List InnerTransaction}

theorem InnerTransaction.TakesPart.mem_requiredSigners (h : inner.TakesPart account)
    (hne : account ≠ outerAccount) : account ∈ inner.requiredSigners outerAccount := by
  refine List.mem_filter.mpr ⟨?_, by simpa using hne⟩
  rcases h with hinitiator | hcounterparty | ⟨hsignature, hsponsor⟩
  · simp [hinitiator]
  · simp [hcounterparty]
  · simp [hsignature, hsponsor]

/-- Signers are matched in the order of the required accounts. -/
theorem matchSigners_eq_ok {last : Option AccountID} {required accounts unmatched : List AccountID}
    (h : matchSigners outerAccount last required accounts = .ok unmatched) :
    required = accounts ++ unmatched := by
  induction accounts generalizing last required with
  | nil =>
    rw [matchSigners] at h
    exact Except.ok.inj h
  | cons account rest ih =>
    unfold matchSigners at h
    obtain ⟨-, h⟩ := Except.ite_error_eq_ok_iff.mp h
    cases required with
    | nil => cases h
    | cons next required =>
      obtain ⟨hnext, h⟩ := Except.ite_error_eq_ok_iff.mp h
      rw [ih h, not_not.mp hnext]
      rfl

theorem exists_batchSigner {batchSigners : Option (List BatchSigner)}
    (h : validateBatchPreflightSigValidated outerAccount innerTransactions batchSigners = .ok ())
    (hinner : inner ∈ innerTransactions) (hpart : inner.TakesPart account)
    (hne : account ≠ outerAccount) :
    ∃ signers ∈ batchSigners, ∃ signer ∈ signers, signer.account = account := by
  obtain ⟨unmatched, hmatch, h⟩ := Except.bind_eq_ok_iff.mp h
  obtain ⟨hunmatched, -⟩ := Except.ite_error_eq_ok_iff.mp h
  cases not_not.mp hunmatched
  have hrequired : account ∈ SortedList.dedupAdjacent (SortedList.sortBy id
      (innerTransactions.flatMap (InnerTransaction.requiredSigners outerAccount))) := by
    rw [SortedList.mem_dedupAdjacent, (SortedList.sortBy_perm id _).mem_iff]
    exact List.mem_flatMap.mpr ⟨inner, hinner, hpart.mem_requiredSigners hne⟩
  cases batchSigners with
  | none =>
    rw [Except.ok.inj hmatch] at hrequired
    cases hrequired
  | some signers =>
    obtain ⟨-, hmatch⟩ := Except.ite_error_eq_ok_iff.mp hmatch
    rw [matchSigners_eq_ok hmatch, List.append_nil] at hrequired
    obtain ⟨signer, hsigner, haccount⟩ := List.mem_map.mp hrequired
    exact ⟨signers, rfl, signer, hsigner, haccount⟩

variable {signers : List BatchSigner} {crypto : Crypto}

theorem RawTransaction.getTransactionId_eq {raw : RawTransaction} {txid : Uint256}
    (hid : raw.getTransactionId = .ok txid) (hinner : raw.toCanonical = .ok inner) :
    txid = inner.transactionId := by
  obtain ⟨-, hid⟩ := Except.ite_error_eq_ok_iff.mp hid
  obtain ⟨-, hid⟩ := Except.ite_error_eq_ok_iff.mp hid
  obtain ⟨-, hinner⟩ := Except.ite_error_eq_ok_iff.mp hinner
  cases hcanonical : raw.canonical with
  | none =>
    rw [hcanonical] at hid
    cases hid
  | some canonical =>
    rw [hcanonical] at hid hinner
    cases hid
    cases hinner
    rfl

variable {inners : List InnerTransaction}

theorem mapM_getTransactionId_eq {raws : List RawTransaction} {txids : List Uint256}
    (hids : raws.mapM RawTransaction.getTransactionId = .ok txids)
    (hinners : raws.mapM RawTransaction.toCanonical = .ok inners) :
    txids = inners.map InnerTransaction.transactionId := by
  induction raws generalizing txids inners with
  | nil =>
    cases hids
    cases hinners
    rfl
  | cons raw raws ih =>
    rw [List.mapM_cons] at hids hinners
    obtain ⟨txid, hid, hids⟩ := Except.bind_eq_ok_iff.mp hids
    obtain ⟨rest, hrest, hids⟩ := Except.bind_eq_ok_iff.mp hids
    obtain ⟨inner, hinner, hinners⟩ := Except.bind_eq_ok_iff.mp hinners
    obtain ⟨rest', hrest', hinners⟩ := Except.bind_eq_ok_iff.mp hinners
    cases hids
    cases hinners
    rw [List.map_cons, ih hrest hrest', RawTransaction.getTransactionId_eq hid hinner]

theorem STTx.checkBatchSigner_of_checkSign (hsign : tx.checkSign crypto = .ok ())
    (hsigners : tx.batchSigners = some signers)
    (hinners : tx.canonicalBatchInnerTransactions = .ok inners) :
    ∀ signer ∈ signers, checkBatchSigner crypto
      (tx.batchMessage (inners.map InnerTransaction.transactionId)) signer = .ok () := by
  obtain ⟨_, -, hsign⟩ := Except.bind_eq_ok_iff.mp hsign
  obtain ⟨_, -, hsign⟩ := Except.bind_eq_ok_iff.mp hsign
  obtain ⟨_, -, hsign⟩ := Except.bind_eq_ok_iff.mp hsign
  rw [hsigners, Option.isSome_some, if_pos rfl, STTx.checkBatchSign, hsigners] at hsign
  obtain ⟨-, hsign⟩ := Except.ite_error_eq_ok_iff.mp hsign
  obtain ⟨-, hsign⟩ := Except.ite_error_eq_ok_iff.mp hsign
  obtain ⟨-, hsign⟩ := Except.ite_error_eq_ok_iff.mp hsign
  obtain ⟨-, hsign⟩ := Except.ite_error_eq_ok_iff.mp hsign
  obtain ⟨txids, hids, hsign⟩ := Except.bind_eq_ok_iff.mp hsign
  obtain ⟨-, hinners⟩ := Except.ite_error_eq_ok_iff.mp hinners
  rw [mapM_getTransactionId_eq hids hinners] at hsign
  exact Except.forM_eq_ok_iff.mp hsign

variable {view : SigningView} {message : Blob} {signer : BatchSigner}

theorem BatchSigner.signsSingly (hverify : checkBatchSigner crypto message signer = .ok ())
    {key : PublicKey} (hkey : PublicKey.fromSlice signer.signingPubKey = some key)
    (hact : view.MayAct signer.account (crypto.calcAccountId key)) :
    signer.SignsSingly crypto view message := by
  have hne : signer.signingPubKey ≠ [] := by
    intro hnil
    rw [hnil, fromSlice_nil] at hkey
    cases hkey
  obtain ⟨key', hkey', hverified⟩ :=
    verifySignatureBytes_eq_true (checkSignature_single hne hverify)
  rw [hkey] at hkey'
  cases hkey'
  exact ⟨key, hkey, hverified, hact⟩

theorem BatchSigner.signsByList (hempty : signer.signingPubKey = [])
    (hverify : checkBatchSigner crypto message signer = .ok ())
    (h : checkMultiSign crypto view false (view.readSignerList signer.account)
      (signer.signers.getD []) = .ok ()) :
    signer.SignsByList crypto view message := by
  cases hsigners : signer.signers with
  | none =>
    unfold checkBatchSigner checkSignature checkSttxMultiSign at hverify
    rw [hempty, List.isEmpty_nil, if_pos rfl, hsigners] at hverify
    cases hverify
  | some signers =>
    rw [hsigners] at h
    obtain ⟨-, -, hsigned, -⟩ := (checkSignature_signers_iff hsigners).mp hverify
    obtain ⟨list, hlist, counted, hcounted, hquorum⟩ := checkMultiSign_counted hsigned.le_max h
    refine ⟨list, hlist, signers, counted, hsigners, ?_, ?_, hquorum⟩
    · exact List.pairwise_map.mpr (hsigned.ascending.imp fun hlt => hlt.ne)
    · have hboth := (List.forall₂_and_left _ _).mpr ⟨hsigned.verified, hcounted⟩
      exact hboth.imp fun member entry hentry =>
        ⟨hentry.2.mem, hentry.2.account_eq, hentry.2.authorized_of_verify hentry.1⟩

theorem checkBatchSign_cons_iff {rest : List BatchSigner} :
    checkBatchSign crypto view false (signer :: rest) = .ok () ↔
      checkBatchSign crypto view false [signer] = .ok () ∧
        (signer.EndsLoop view ∨ checkBatchSign crypto view false rest = .ok ()) := by
  simp only [checkBatchSign, BatchSigner.EndsLoop]
  by_cases hempty : signer.signingPubKey = []
  · simp only [hempty, List.isEmpty_nil, if_true, Except.bind_eq_ok_iff]
    simp
  · rw [if_neg (by simpa using hempty), if_neg (by simpa using hempty)]
    cases PublicKey.fromSlice signer.signingPubKey with
    | none => simp
    | some key =>
      cases view.readAccount signer.account with
      | none => simp [hempty]
      | some state => simp [Except.bind_eq_ok_iff]

/-- One round of the loop authorizes the signer. -/
theorem BatchSigner.authorized (hverify : checkBatchSigner crypto message signer = .ok ())
    (h : checkBatchSign crypto view false [signer] = .ok ()) :
    signer.Authorized crypto view message := by
  unfold checkBatchSign at h
  split_ifs at h with hempty
  · obtain ⟨_, hmulti, -⟩ := Except.bind_eq_ok_iff.mp h
    exact .inr (BatchSigner.signsByList (List.isEmpty_iff.mp hempty) hverify hmulti)
  · split at h
    · cases h
    · rename_i key hkey
      split at h
      · rename_i hnone
        obtain ⟨heq, -⟩ := Except.ite_error_eq_ok_iff.mp h
        refine .inl (BatchSigner.signsSingly hverify hkey (.inl ⟨(not_not.mp heq).symm, ?_⟩))
        intro state hstate
        rw [hnone] at hstate
        cases hstate
      · rename_i state hstate
        obtain ⟨_, hsingle, -⟩ := Except.bind_eq_ok_iff.mp h
        have hact := SigningView.mayAct_of_singleSign hstate hsingle
        exact .inl (BatchSigner.signsSingly hverify hkey hact)

/-- A signer is authorized if the loop gets to it. Otherwise it is not looked at, and neither is
any other in its place. -/
theorem checkBatchSign_reaches {before after : List BatchSigner}
    (hverify : checkBatchSigner crypto message signer = .ok ())
    (h : checkBatchSign crypto view false (before ++ signer :: after) = .ok ()) :
    ((∀ other ∈ before, ¬other.EndsLoop view) → signer.Authorized crypto view message) ∧
      ((∃ other ∈ before, other.EndsLoop view) →
        ∀ others, checkBatchSign crypto view false (before ++ others) = .ok ()) := by
  induction before with
  | nil => exact ⟨fun _ => BatchSigner.authorized hverify (checkBatchSign_cons_iff.mp h).1, by simp⟩
  | cons other before ih =>
    obtain ⟨hother, hends | hrest⟩ := checkBatchSign_cons_iff.mp h
    · refine ⟨fun hno => absurd hends (hno other List.mem_cons_self), fun _ others => ?_⟩
      exact checkBatchSign_cons_iff.mpr ⟨hother, .inl hends⟩
    · obtain ⟨hgood, hbad⟩ := ih hrest
      refine ⟨fun hno => hgood fun o ho => hno o (List.mem_cons_of_mem other ho), ?_⟩
      rintro ⟨o, ho, hends⟩ others
      refine checkBatchSign_cons_iff.mpr ⟨hother, ?_⟩
      rcases List.mem_cons.mp ho with rfl | ho
      · exact .inl hends
      · exact .inr (hbad ⟨o, ho, hends⟩ others)

/-- Every account other than the outer one that takes part in a batch has a signer with verified
signatures. If no signer before it has a key and an account that does not exist, then the account
has authorized it, with a key that may act for it or through its signer list. Otherwise the ledger
is not asked about it. -/
theorem batch_participant_authorized {crypto : Crypto} {view : SigningView} {tx : STTx}
    {inners : List InnerTransaction} {inner : InnerTransaction} {account : AccountID}
    (hsign : tx.checkSign crypto = .ok ())
    (hpreflight : tx.validateBatchPreflightSigValidated = .ok ())
    (hledger : tx.batchCheckSign crypto view false = .ok ())
    (hinners : tx.canonicalBatchInnerTransactions = .ok inners) (hinner : inner ∈ inners)
    (hpart : inner.TakesPart account) (hne : account ≠ tx.account) :
    ∃ before signer after, tx.batchSigners = some (before ++ signer :: after) ∧
      signer.account = account ∧
      checkBatchSigner crypto (tx.batchMessage (inners.map InnerTransaction.transactionId))
        signer = .ok () ∧
      ((∀ other ∈ before, ¬other.EndsLoop view) → signer.Authorized crypto view
        (tx.batchMessage (inners.map InnerTransaction.transactionId))) ∧
      ((∃ other ∈ before, other.EndsLoop view) →
        ∀ others, checkBatchSign crypto view false (before ++ others) = .ok ()) := by
  obtain ⟨inners', hinners', hpreflight⟩ := Except.bind_eq_ok_iff.mp hpreflight
  cases hinners.symm.trans hinners'
  obtain ⟨signers, hsigners, signer, hsigner, haccount⟩ :=
    exists_batchSigner hpreflight hinner hpart hne
  rw [STTx.batchCheckSign, hsigners] at hledger
  have hverify := tx.checkBatchSigner_of_checkSign hsign hsigners hinners signer hsigner
  obtain ⟨before, after, rfl⟩ := List.append_of_mem hsigner
  exact ⟨before, signer, after, hsigners, haccount, hverify, checkBatchSign_reaches hverify hledger⟩

/-- An inner transaction that an account sends. -/
def sampleInner (last : UInt8) : InnerTransaction where
  transactionId := ⟨0 :: last :: List.replicate 30 0, rfl⟩
  account := sampleAccount last
  delegate := none
  counterparty := none
  sponsor := none
  hasSponsorSignature := false

/-- A signer of the batch with the one key that there is, which is of account 2. -/
def sampleBatchSigner (last : UInt8) : BatchSigner where
  signingPubKey := sampleKey
  txnSignature := some []
  signers := none
  account := sampleAccount last

/-- Account 1 sends a batch of one transaction of each account. -/
def sampleBatch (accounts : List UInt8) : STTx where
  txType := ttBATCH
  account := sampleAccount 1
  delegate := none
  seqValue := 0
  flags := 0
  signature := ⟨sampleKey, some [], none⟩
  counterpartySignature := none
  sponsorSignature := none
  batchSigners := some (accounts.map sampleBatchSigner)
  rawTransactions := some (accounts.map fun last => ⟨0, true, some (sampleInner last)⟩)
  signingData _ _ := []

/-- Account 3 exists, with neither a regular key nor a signer list; account 2 does not exist. -/
def sampleBatchView : SigningView where
  readAccount account := if account = sampleAccount 3 then some ⟨none, false, false⟩ else none
  readSignerList _ := none
  featureBatch := true
  featureLendingProtocol := true

/-- Account 2 exists, and its key is the regular key of account 3. -/
def sampleRegularView : SigningView :=
  { sampleBatchView with
    readAccount := fun account =>
      if account = sampleAccount 2 then some ⟨none, false, false⟩
      else if account = sampleAccount 3 then some ⟨some (sampleAccount 2), true, false⟩
      else none }

theorem batch_participant_authorized_sampleBatch :
    ∃ before signer after,
      (sampleBatch [2, 3]).batchSigners = some (before ++ signer :: after) ∧
        signer.account = sampleAccount 3 ∧
          signer.Authorized sampleCrypto sampleRegularView ((sampleBatch [2, 3]).batchMessage
            ([sampleInner 2, sampleInner 3].map InnerTransaction.transactionId)) := by
  have hledger : (sampleBatch [2, 3]).batchCheckSign sampleCrypto sampleRegularView false =
      .ok () := rfl
  have hinner : sampleInner 3 ∈ [sampleInner 2, sampleInner 3] := by simp
  obtain ⟨before, signer, after, hsigners, haccount, -, hauthorized, -⟩ :=
    batch_participant_authorized rfl rfl hledger rfl hinner (.inl rfl) (by decide)
  refine ⟨before, signer, after, hsigners, haccount, hauthorized fun other hother hends => ?_⟩
  have hmem : other ∈ before ++ signer :: after := List.mem_append_left _ hother
  rw [← Option.some.inj hsigners] at hmem
  simp only [List.map_cons, List.map_nil, List.mem_cons, List.not_mem_nil, or_false] at hmem
  rcases hmem with rfl | rfl
  · exact Option.some_ne_none _ hends.2
  · exact Option.some_ne_none _ hends.2

/-- Account 2 signs for itself and does not exist; account 3 takes part by the key of account 2. -/
theorem batch_unauthorized_participant :
    ∃ (crypto : Crypto) (view : SigningView) (tx : STTx) (inners : List InnerTransaction)
      (inner : InnerTransaction) (account : AccountID),
      tx.checkSign crypto = .ok () ∧ tx.validateBatchPreflightSigValidated = .ok () ∧
        tx.batchCheckSign crypto view false = .ok () ∧
          tx.canonicalBatchInnerTransactions = .ok inners ∧ inner ∈ inners ∧
            inner.TakesPart account ∧ account ≠ tx.account ∧
              ¬∃ signers ∈ tx.batchSigners, ∃ signer ∈ signers, signer.account = account ∧
                signer.Authorized crypto view
                  (tx.batchMessage (inners.map InnerTransaction.transactionId)) := by
  refine ⟨sampleCrypto, sampleBatchView, sampleBatch [2, 3], [sampleInner 2, sampleInner 3],
    sampleInner 3, sampleAccount 3, rfl, rfl, rfl, rfl, by simp, .inl rfl, by decide, ?_⟩
  rintro ⟨signers, -, signer, -, haccount, hsingle | ⟨list, hlist, -⟩⟩
  · obtain ⟨key, -, -, ⟨hsigning, -⟩ | ⟨state, hstate, hregular⟩⟩ := hsingle
    · have hsame : sampleAccount 2 = sampleAccount 3 := hsigning.trans haccount
      exact absurd hsame (by decide)
    · rw [haccount] at hstate
      cases hstate
      cases hregular
  · cases hlist

end Quaxar.Signing
