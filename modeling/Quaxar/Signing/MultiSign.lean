import Quaxar.Signing.TransactorSign

/-!
# Multi-signed transactions

The order of a stored list comes from `SignerListSet`, the order of the signers from the check of
the signatures, and the one pass over both from the check against the ledger. Together they count
each signer once, with its own weight.
-/

namespace Quaxar.Signing

open Protocol

/-- The weight of an account in a list. -/
def SignerListSle.weight (list : SignerListSle) (account : AccountID) : ℕ :=
  ((list.signerEntries.find? fun entry => decide (entry.account = account)).map weightOf).getD 0

/-- A signature of the signer verifies under a key that may act for it. -/
def Signer.Authorized (crypto : Crypto) (view : SigningView) (message : Blob) (signer : Signer) :
    Prop :=
  ∃ key, PublicKey.fromSlice signer.signingPubKey = some key ∧
    crypto.verify key (finishMultiSigningData message signer.account) signer.txnSignature = true ∧
      view.MayAct signer.account (crypto.calcAccountId key)

/-- Distinct members of a list, each authorized, whose weights reach the quorum. -/
structure MultiSigned (crypto : Crypto) (view : SigningView) (list : SignerListSle)
    (message : Blob) (signers : List Signer) : Prop where
  distinct : (signers.map Signer.account).Nodup
  member : ∀ signer ∈ signers, ∃ entry ∈ list.signerEntries, entry.account = signer.account
  authorized : ∀ signer ∈ signers, signer.Authorized crypto view message
  quorum_le : list.signerQuorum.toNat ≤ (signers.map fun signer => list.weight signer.account).sum

/-- The objects that a transaction presents, with the account each is signed for. The account of a
counterparty is the one that the transaction or its broker names. -/
inductive STTx.Presents (tx : STTx) : SignatureRole → SignatureObject → AccountID → Prop
  | own : tx.Presents .transaction tx.signature tx.getInitiator
  | counterparty {object : SignatureObject} {account : AccountID}
      (h : tx.counterpartySignature = some object) : tx.Presents .counterparty object account

/-- The form that a list of signers must have. -/
structure SignatureObject.WellFormed (object : SignatureObject) (account : AccountID)
    (signers : List Signer) : Prop where
  signingPubKey_eq : object.signingPubKey = []
  txnSignature_eq : object.txnSignature = none
  min_le : minMultiSigners ≤ signers.length
  le_max : signers.length ≤ maxMultiSigners
  ascending : signers.Pairwise fun x y => x.account < y.account
  account_notMem : account ∉ signers.map Signer.account

/-- Only accounts with keys sign. -/
def SigningView.Signs (view : SigningView) (account : AccountID) : Prop :=
  (view.featureLendingProtocol || view.featureBatch) = true →
    ∀ state ∈ view.readAccount account, state.isPseudo = false

/-- A signer whose key is its own account's has that key enabled. -/
def Signer.MasterEnabled (crypto : Crypto) (view : SigningView) (signer : Signer) : Prop :=
  ∀ key, PublicKey.fromSlice signer.signingPubKey = some key →
    crypto.calcAccountId key = signer.account →
      ∀ state ∈ view.readAccount signer.account, state.masterDisabled = false

variable {crypto : Crypto} {view : SigningView} {list : SignerListSle} {message : Blob}
  {signers : List Signer} {tx : STTx} {role : SignatureRole} {object : SignatureObject}
  {account : AccountID} {entry : DispatcherSignerEntry}

theorem SignerListSle.Valid.weight_eq (hlist : list.Valid) (hentry : entry ∈ list.signerEntries) :
    list.weight entry.account = weightOf entry := by
  obtain ⟨found, hfound⟩ : ∃ found, (list.signerEntries.find? fun other =>
      decide (other.account = entry.account)) = some found :=
    Option.isSome_iff_exists.mp (List.find?_isSome.mpr ⟨entry, hentry, by simp⟩)
  have haccount : found.account = entry.account := by simpa using List.find?_some hfound
  have hnodup : (list.signerEntries.map fun entry => entry.account).Nodup :=
    List.pairwise_map.mpr (hlist.ascending.imp fun hlt => hlt.ne)
  have heq : found = entry :=
    List.inj_on_of_nodup_map hnodup (List.mem_of_find?_eq_some hfound) hentry haccount
  rw [weight, hfound, heq]
  rfl

theorem checkPart_eq_ok {part : String} (h : tx.checkPart crypto part role (some object) = .ok ()) :
    tx.checkSignForObject crypto object role = .ok () := by
  rcases hpart : tx.checkSignForObject crypto object role with text | ⟨⟩
  · rw [STTx.checkPart, hpart] at h
    cases h
  · rfl

/-- A transaction whose signatures verify presents only objects that do. -/
theorem STTx.Presents.checkSignForObject (hpresents : tx.Presents role object account)
    (h : tx.checkSign crypto = .ok ()) : tx.checkSignForObject crypto object role = .ok () := by
  obtain ⟨_, hown, h⟩ := Except.bind_eq_ok_iff.mp h
  obtain ⟨_, hcounterparty, -⟩ := Except.bind_eq_ok_iff.mp h
  cases hpresents with
  | own => exact hown
  | counterparty hobj =>
    rw [hobj] at hcounterparty
    exact checkPart_eq_ok hcounterparty

/-- The account itself is excluded by the check of the signatures if it is the initiator. -/
theorem STTx.Presents.owner_ne (hpresents : tx.Presents role object account)
    (haccount : account ∉ signers.map Signer.account) :
    ∀ signer ∈ signers,
      (if role = .transaction then some tx.getInitiator else none) ≠ some signer.account := by
  intro signer hmem howner
  cases hpresents with
  | counterparty => cases howner
  | own =>
    rw [if_pos rfl] at howner
    exact haccount (Option.some.inj howner ▸ List.mem_map_of_mem hmem)

theorem SigningView.checkSign_signers_iff (hsigners : object.signers = some signers) :
    view.checkSign crypto false false account object = .ok () ↔
      view.Signs account ∧
        checkMultiSign crypto view false (view.readSignerList account) signers = .ok () := by
  unfold checkSign Signs
  rw [Except.ite_error_eq_ok_iff]
  simp only [Bool.false_and, Bool.false_eq_true, if_false, hsigners]
  refine and_congr_left fun _ => ?_
  cases view.readAccount account <;> simp

variable {signer : Signer}

theorem CountedAs.authorized_of_verify {entries : List DispatcherSignerEntry}
    (h : CountedAs crypto view entries signer entry)
    (hverify : verifySigner crypto message signer = true) :
    signer.Authorized crypto view message := by
  obtain ⟨key, hkey, hauthorized⟩ := h.authorized
  obtain ⟨key', hkey', hverified⟩ := verifySignatureBytes_eq_true hverify
  rw [hkey] at hkey'
  cases hkey'
  exact ⟨key, hkey, hverified, SigningView.mayAct_of_multiSigner hauthorized⟩

theorem sum_weight_eq (hlist : list.Valid) {counted : List DispatcherSignerEntry}
    (h : List.Forall₂ (CountedAs crypto view list.signerEntries) signers counted) :
    (signers.map fun signer => list.weight signer.account).sum = (counted.map weightOf).sum := by
  induction h with
  | nil => rfl
  | cons hentry _ ih =>
    rw [List.map_cons, List.sum_cons, ih, List.map_cons, List.sum_cons, ← hentry.account_eq,
      hlist.weight_eq hentry.mem]

theorem MultiSigned.of_checks (hlist : list.Valid) (hread : view.readSignerList account = some list)
    (hsigned : SignedBy crypto message signers)
    (h : checkMultiSign crypto view false (view.readSignerList account) signers = .ok ()) :
    MultiSigned crypto view list message signers := by
  obtain ⟨list', hlist', counted, hcounted, hquorum⟩ := checkMultiSign_counted hsigned.le_max h
  rw [hread] at hlist'
  cases hlist'
  have hsigner := exists_countedAs hcounted
  refine ⟨?_, fun signer hmem => ?_, fun signer hmem => ?_, ?_⟩
  · exact List.pairwise_map.mpr (hsigned.ascending.imp fun hlt => hlt.ne)
  · obtain ⟨entry, hentry⟩ := hsigner signer hmem
    exact ⟨entry, hentry.mem, hentry.account_eq⟩
  · obtain ⟨entry, hentry⟩ := hsigner signer hmem
    exact hentry.authorized_of_verify (hsigned.verified signer hmem)
  · rwa [sum_weight_eq hlist hcounted]

theorem Signer.Authorized.verifySigner (h : signer.Authorized crypto view message) :
    verifySigner crypto message signer = true := by
  obtain ⟨key, hkey, hverify, -⟩ := h
  rw [Signing.verifySigner, verifySignatureBytes, hkey]
  exact hverify

theorem Signer.Authorized.countedAs (h : signer.Authorized crypto view message)
    (hmaster : signer.MasterEnabled crypto view) (hentry : entry ∈ list.signerEntries)
    (haccount : entry.account = signer.account) :
    CountedAs crypto view list.signerEntries signer entry := by
  obtain ⟨key, hkey, -, hact⟩ := h
  refine ⟨hentry, haccount, key, hkey, checkMultiSignerAuthorized_eq_ok_iff.mpr ?_⟩
  by_cases hself : crypto.calcAccountId key = signer.account
  · exact .inl ⟨hself, hmaster key hkey hself⟩
  · rcases hact with ⟨hsigning, -⟩ | hregular
    · exact absurd hsigning hself
    · exact .inr ⟨hself, hregular⟩

/-- Signers that are authorized pass the check against the ledger. -/
theorem MultiSigned.checkMultiSign_eq_ok (hlist : list.Valid)
    (h : MultiSigned crypto view list message signers) (hwell : object.WellFormed account signers)
    (hmaster : ∀ signer ∈ signers, signer.MasterEnabled crypto view) :
    checkMultiSign crypto view false (some list) signers = .ok () := by
  have hcounted : ∀ signer ∈ signers,
      ∃ entry, CountedAs crypto view list.signerEntries signer entry := by
    intro signer hmem
    obtain ⟨entry, hentry, haccount⟩ := h.member signer hmem
    exact ⟨entry, (h.authorized signer hmem).countedAs (hmaster signer hmem) hentry haccount⟩
  have hentries : list.signerEntries ≠ [] := by
    obtain ⟨signer, hmem⟩ := List.exists_mem_of_length_pos (Nat.lt_of_succ_le hwell.min_le)
    obtain ⟨entry, hentry⟩ := hcounted signer hmem
    exact List.ne_nil_of_mem hentry.mem
  obtain ⟨total, htotal⟩ := sumWeights_eq_ok 0 hlist.ascending hwell.ascending hcounted
  obtain ⟨counted, hforall, hsum⟩ := sumWeights_counted htotal
  have hquorum : ¬total < list.signerQuorum := by
    rw [UInt32.not_lt, UInt32.le_iff_toNat_le, hsum,
      toNat_foldl_addWeight_zero (hforall.length_eq ▸ hwell.le_max), ← sum_weight_eq hlist hforall]
    exact h.quorum_le
  unfold checkMultiSign
  simp [hlist.signerListId_eq, hentries, htotal, hquorum]

/-- A multi-signed transaction that passes both checks is signed by distinct members of the list of
the account, each with a key of its own, whose exact weights reach the quorum. Such signers are
accepted, except of a pseudo-account and of a member whose regular key is its own disabled master
key. -/
theorem multiSigned_of_checkSign_and_conversely {crypto : Crypto} {view : SigningView}
    {setTx : SignerListSetTx} {list : SignerListSle} {tx : STTx} {role : SignatureRole}
    {object : SignatureObject} {signers : List Signer} (hst : setTx.Stores list)
    (hread : view.readSignerList setTx.account = some list)
    (hpresents : tx.Presents role object setTx.account) (hsigners : object.signers = some signers) :
    (tx.checkSign crypto = .ok () →
      view.checkSign crypto false false setTx.account object = .ok () →
        MultiSigned crypto view list (tx.signingData role true) signers) ∧
      (MultiSigned crypto view list (tx.signingData role true) signers →
        object.WellFormed setTx.account signers → view.Signs setTx.account →
          (∀ signer ∈ signers, signer.MasterEnabled crypto view) →
            tx.checkSignForObject crypto object role = .ok () ∧
              view.checkSign crypto false false setTx.account object = .ok ()) := by
  have hlist := hst.valid
  constructor
  · intro hsign hledger
    obtain ⟨-, -, hsigned, -⟩ :=
      (checkSignature_signers_iff hsigners).mp (hpresents.checkSignForObject hsign)
    exact .of_checks hlist hread hsigned ((SigningView.checkSign_signers_iff hsigners).mp hledger).2
  · intro hmulti hwell hsigns hmaster
    constructor
    · refine (checkSignature_signers_iff hsigners).mpr ⟨hwell.signingPubKey_eq,
        hwell.txnSignature_eq, ⟨hwell.min_le, hwell.le_max, hwell.ascending, fun signer hmem =>
          (hmulti.authorized signer hmem).verifySigner⟩, hpresents.owner_ne hwell.account_notMem⟩
    · rw [SigningView.checkSign_signers_iff hsigners, hread]
      exact ⟨hsigns, hmulti.checkMultiSign_eq_ok hlist hwell hmaster⟩

def sampleAccount (last : UInt8) : AccountID := ⟨List.replicate 19 0 ++ [last], rfl⟩

def sampleKey : Blob := 0xED :: List.replicate 32 0

/-- Every signature verifies, and every key belongs to account 2. -/
def sampleCrypto : Crypto where
  verify _ _ _ := true
  calcAccountId _ := sampleAccount 2
  toBase58 _ := ""

/-- Account 1 names the accounts 2 and 3 as its signers; only both of them reach the quorum. -/
def sampleSetTx : SignerListSetTx where
  account := sampleAccount 1
  flags := 0
  signerQuorum := 3
  signerEntries := some [⟨true, some (sampleAccount 2), some 1, none⟩,
    ⟨true, some (sampleAccount 3), some 2, none⟩]

def sampleList : SignerListSle where
  owner := none
  signerQuorum := 3
  signerListId := some 0
  flags := some lsfOneOwnerCount
  signerEntries := [⟨⟨sampleAccount 2, 1⟩, none⟩, ⟨⟨sampleAccount 3, 2⟩, none⟩]

/-- The state of account 2 is given, and the key of account 2 is the regular key of account 3. -/
def sampleView (state : AccountState) : SigningView where
  readAccount account :=
    if account = sampleAccount 2 then some state
    else if account = sampleAccount 3 then some ⟨some (sampleAccount 2), true, false⟩
    else none
  readSignerList account := if account = sampleAccount 1 then some sampleList else none
  featureBatch := true
  featureLendingProtocol := true

def sampleSigners : List Signer :=
  [⟨sampleAccount 2, sampleKey, []⟩, ⟨sampleAccount 3, sampleKey, []⟩]

/-- Account 1 sends a transaction that the accounts 2 and 3 sign. -/
def sampleTx : STTx where
  txType := 0
  account := sampleAccount 1
  delegate := none
  seqValue := 0
  flags := 0
  signature := ⟨[], none, some sampleSigners⟩
  counterpartySignature := none
  sponsorSignature := none
  batchSigners := none
  rawTransactions := none
  signingData _ _ := []

theorem sampleSetTx_stores : sampleSetTx.Stores sampleList :=
  ⟨false, false, .ok (), rfl, rfl⟩

theorem sampleTx_wellFormed : sampleTx.signature.WellFormed (sampleAccount 1) sampleSigners :=
  ⟨rfl, rfl, by decide, by decide, by decide, by decide⟩

theorem sampleTx_presents :
    sampleTx.Presents .transaction sampleTx.signature sampleSetTx.account := .own

theorem multiSigned_sampleTx :
    MultiSigned sampleCrypto (sampleView ⟨none, false, false⟩) sampleList [] sampleSigners :=
  (multiSigned_of_checkSign_and_conversely sampleSetTx_stores rfl sampleTx_presents rfl).1
    rfl rfl

/-- Account 2 has disabled its master key and made it its regular key: the signature is rejected. -/
theorem disabledMaster_rejected :
    ∃ (crypto : Crypto) (view : SigningView) (setTx : SignerListSetTx) (list : SignerListSle)
      (tx : STTx) (signers : List Signer),
      setTx.Stores list ∧ view.readSignerList setTx.account = some list ∧
        tx.Presents .transaction tx.signature setTx.account ∧ tx.signature.signers = some signers ∧
          MultiSigned crypto view list (tx.signingData .transaction true) signers ∧
            tx.signature.WellFormed setTx.account signers ∧ view.Signs setTx.account ∧
              view.checkSign crypto false false setTx.account tx.signature =
                .error (.result .tefMasterDisabled) := by
  refine ⟨sampleCrypto, sampleView ⟨some (sampleAccount 2), true, false⟩, sampleSetTx, sampleList,
    sampleTx, sampleSigners, sampleSetTx_stores, rfl, sampleTx_presents, rfl, ?_,
    sampleTx_wellFormed, ?_, rfl⟩
  · refine ⟨by decide, fun signer hmem => ?_, fun signer hmem => ?_, by decide⟩ <;>
      simp only [sampleSigners, List.mem_cons, List.not_mem_nil, or_false] at hmem
    · rcases hmem with rfl | rfl <;> simp [sampleList]
    · rcases hmem with rfl | rfl <;> exact ⟨_, rfl, rfl, .inr ⟨_, rfl, rfl⟩⟩
  · intro _ state hstate
    cases hstate

end Quaxar.Signing
