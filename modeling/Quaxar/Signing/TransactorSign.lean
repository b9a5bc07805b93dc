import Quaxar.Signing.Signatures
import Quaxar.Signing.SignerListSet

/-!
# Who may sign for an account

The signature of a transaction verifies under some key; here the ledger says whether that key may
act for the signing account. A list of signers is matched against the signer list of the account
in one pass over both, which trusts that both ascend.
-/

namespace Quaxar.Signing

open Protocol

structure AccountState where
  regularKey : Option AccountID
  masterDisabled : Bool
  isPseudo : Bool

/-- What is read of the ledger and of its rules. -/
structure SigningView where
  readAccount : AccountID → Option AccountState
  readSignerList : AccountID → Option SignerListSle
  featureBatch : Bool
  featureLendingProtocol : Bool

def checkSingleSign (idSigner idAccount : AccountID) (state : AccountState) : Except Stop Unit :=
  if state.regularKey = some idSigner then .ok ()
  else if state.masterDisabled = false ∧ idAccount = idSigner then .ok ()
  else if state.masterDisabled = true ∧ idAccount = idSigner then
    .error (.result .tefMasterDisabled)
  else .error (.result .tefBadAuth)

def checkMultiSignerAuthorized (txSigner signing : AccountID) :
    Option AccountState → Except Stop Unit
  | none => if signing = txSigner then .ok () else .error (.result .tefBadSignature)
  | some state =>
    if signing = txSigner then
      if state.masterDisabled = true then .error (.result .tefMasterDisabled) else .ok ()
    else if state.regularKey ≠ some signing then .error (.result .tefBadSignature)
    else .ok ()

variable (crypto : Crypto) (view : SigningView)

/-- The account of the key of a signer. -/
def Signer.signingAccount (dryRun : Bool) (signer : Signer) : Except Stop AccountID :=
  if signer.signingPubKey.isEmpty then
    if dryRun then .ok signer.account
    else .error (.panic "xrpl::Transactor::checkMultiSign : non-empty signer or simulation")
  else match PublicKey.fromSlice signer.signingPubKey with
    | none => .error (.result .tefBadSignature)
    | some key => .ok (crypto.calcAccountId key)

/-- The loop over the signers, with the entries from the current one on. A matched entry stays
the current one. -/
def sumWeights (crypto : Crypto) (view : SigningView) (dryRun : Bool) :
    List DispatcherSignerEntry → UInt32 → List Signer → Except Stop UInt32
  | _, weightSum, [] => .ok weightSum
  | entries, weightSum, signer :: signers =>
    match entries.dropWhile fun entry => entry.account < signer.account with
    | [] => .error (.result .tefBadSignature)
    | current :: rest =>
      if current.account ≠ signer.account then .error (.result .tefBadSignature)
      else do
        let signing ← signer.signingAccount crypto dryRun
        checkMultiSignerAuthorized signer.account signing (view.readAccount signer.account)
        sumWeights crypto view dryRun (current :: rest) (weightSum + current.weight.toUInt32)
          signers

def checkMultiSign (crypto : Crypto) (view : SigningView) (dryRun : Bool)
    (signerList : Option SignerListSle) (txSigners : List Signer) : Except Stop Unit :=
  match signerList with
  | none => .error (.result .tefNotMultiSigning)
  | some list =>
    if list.signerListId.isNone then
      .error (.panic "xrpl::Transactor::checkMultiSign : has signer list ID")
    else if list.signerListId ≠ some 0 then
      .error (.panic "xrpl::Transactor::checkMultiSign : signer list ID is 0")
    else if list.signerEntries.isEmpty then .error (.result .tefBadSignature)
    else do
      let weightSum ← sumWeights crypto view dryRun list.signerEntries 0 txSigners
      if weightSum < list.signerQuorum then .error (.result .tefBadQuorum) else .ok ()

/-- The check of a signature object for the account that signs. -/
def SigningView.checkSign (dryRun parentBatch : Bool)
    (idAccount : AccountID) (object : SignatureObject) : Except Stop Unit :=
  if (view.featureLendingProtocol || view.featureBatch) &&
      (view.readAccount idAccount).any AccountState.isPseudo then .error (.result .tefBadAuth)
  else if parentBatch && view.featureBatch then
    if object.txnSignature.isSome || !object.signingPubKey.isEmpty || object.signers.isSome then
      .error (.result .temInvalidFlag)
    else .ok ()
  else if dryRun && object.signingPubKey.isEmpty && object.signers.isNone then .ok ()
  else match object.signers with
    | some signers => checkMultiSign crypto view dryRun (view.readSignerList idAccount) signers
    | none =>
      match PublicKey.fromSlice object.signingPubKey with
      | none => .error (.result .tefBadAuth)
      | some key =>
        match view.readAccount idAccount with
        | none => .error (.result .terNoAccount)
        | some state => checkSingleSign (crypto.calcAccountId key) idAccount state

variable {signing : AccountID} {crypto : Crypto} {view : SigningView}

/-- A key of the account `signing` may act for `account`: it is its master key, not disabled if
the account exists, or its regular key. -/
def SigningView.MayAct (view : SigningView) (account signing : AccountID) : Prop :=
  (signing = account ∧ ∀ state ∈ view.readAccount account, state.masterDisabled = false) ∨
    ∃ state ∈ view.readAccount account, state.regularKey = some signing

theorem checkMultiSignerAuthorized_eq_ok_iff {txSigner : AccountID} {state : Option AccountState} :
    checkMultiSignerAuthorized txSigner signing state = .ok () ↔
      (signing = txSigner ∧ ∀ state' ∈ state, state'.masterDisabled = false) ∨
        signing ≠ txSigner ∧ ∃ state' ∈ state, state'.regularKey = some signing := by
  cases state with
  | none => simp [checkMultiSignerAuthorized]
  | some state =>
    unfold checkMultiSignerAuthorized
    by_cases hsigning : signing = txSigner <;> simp [hsigning]

variable {account : AccountID}

theorem SigningView.mayAct_of_multiSigner
    (h : checkMultiSignerAuthorized account signing (view.readAccount account) = .ok ()) :
    view.MayAct account signing := by
  rcases checkMultiSignerAuthorized_eq_ok_iff.mp h with hmaster | ⟨-, hregular⟩
  · exact .inl hmaster
  · exact .inr hregular

theorem SigningView.mayAct_of_singleSign {state : AccountState}
    (hstate : view.readAccount account = some state)
    (h : checkSingleSign signing account state = .ok ()) : view.MayAct account signing := by
  unfold checkSingleSign at h
  split_ifs at h with hregular hmaster
  · exact .inr ⟨state, hstate, hregular⟩
  · refine .inl ⟨hmaster.2.symm, fun state' hstate' => ?_⟩
    rw [hstate] at hstate'
    cases hstate'
    exact hmaster.1

variable {entries : List DispatcherSignerEntry} {signers : List Signer} {weightSum total : UInt32}

/-- An entry that is counted for a signer. -/
structure CountedAs (crypto : Crypto) (view : SigningView) (entries : List DispatcherSignerEntry)
    (signer : Signer) (entry : DispatcherSignerEntry) : Prop where
  mem : entry ∈ entries
  account_eq : entry.account = signer.account
  authorized : ∃ key, PublicKey.fromSlice signer.signingPubKey = some key ∧
    checkMultiSignerAuthorized signer.account (crypto.calcAccountId key)
      (view.readAccount signer.account) = .ok ()

def addWeight (weightSum : UInt32) (entry : DispatcherSignerEntry) : UInt32 :=
  weightSum + entry.weight.toUInt32

def weightOf (entry : DispatcherSignerEntry) : ℕ := entry.weight.toNat

variable {signer : Signer}

theorem CountedAs.mono {entry : DispatcherSignerEntry} {entries' : List DispatcherSignerEntry}
    (hsub : entries ⊆ entries') (h : CountedAs crypto view entries signer entry) :
    CountedAs crypto view entries' signer entry :=
  ⟨hsub h.mem, h.account_eq, h.authorized⟩

variable {counted : List DispatcherSignerEntry}

theorem exists_countedAs (h : List.Forall₂ (CountedAs crypto view entries) signers counted) :
    ∀ signer ∈ signers, ∃ entry, CountedAs crypto view entries signer entry := by
  induction h with
  | nil => exact fun signer hmem => absurd hmem List.not_mem_nil
  | cons hentry _ ih => exact List.forall_mem_cons.mpr ⟨⟨_, hentry⟩, ih⟩

theorem fromSlice_nil : PublicKey.fromSlice [] = none := rfl

theorem Signer.signingAccount_eq_ok_iff :
    signer.signingAccount crypto false = .ok signing ↔
      ∃ key, PublicKey.fromSlice signer.signingPubKey = some key ∧
        crypto.calcAccountId key = signing := by
  unfold Signer.signingAccount
  by_cases hempty : signer.signingPubKey = []
  · simp [hempty, fromSlice_nil]
  · rw [if_neg (mt List.isEmpty_iff.mp hempty)]
    cases PublicKey.fromSlice signer.signingPubKey <;> simp

/-- Every signer that the loop passes is counted with an entry of its account. -/
theorem sumWeights_counted
    (h : sumWeights crypto view false entries weightSum signers = .ok total) :
    ∃ counted, List.Forall₂ (CountedAs crypto view entries) signers counted ∧
      total = counted.foldl addWeight weightSum := by
  induction signers generalizing entries weightSum with
  | nil =>
    cases h
    exact ⟨[], List.Forall₂.nil, rfl⟩
  | cons signer signers ih =>
    unfold sumWeights at h
    split at h
    · cases h
    · rename_i current rest hdrop
      obtain ⟨haccount, h⟩ := Except.ite_error_eq_ok_iff.mp h
      obtain ⟨signing, hsigning, h⟩ := Except.bind_eq_ok_iff.mp h
      obtain ⟨_, hauthorized, hloop⟩ := Except.bind_eq_ok_iff.mp h
      obtain ⟨key, hkey, rfl⟩ := Signer.signingAccount_eq_ok_iff.mp hsigning
      obtain ⟨counted, hcounted, htotal⟩ := ih hloop
      have hsub : current :: rest ⊆ entries := hdrop ▸ (List.dropWhile_sublist _).subset
      refine ⟨current :: counted, List.Forall₂.cons ?_ ?_, htotal⟩
      · exact ⟨hsub List.mem_cons_self, not_not.mp haccount, key, hkey, hauthorized⟩
      · exact hcounted.imp fun signer entry => CountedAs.mono hsub

/-- With both lists ascending, the loop passes signers that have an entry. -/
theorem sumWeights_eq_ok (weightSum : UInt32)
    (hentries : entries.Pairwise fun x y => x.account < y.account)
    (hsigners : signers.Pairwise fun x y => x.account < y.account)
    (hcounted : ∀ signer ∈ signers, ∃ entry, CountedAs crypto view entries signer entry) :
    ∃ total, sumWeights crypto view false entries weightSum signers = .ok total := by
  induction signers generalizing entries weightSum with
  | nil => exact ⟨weightSum, rfl⟩
  | cons signer signers ih =>
    obtain ⟨habove, hsigners⟩ := List.pairwise_cons.mp hsigners
    obtain ⟨⟨entry, hentry⟩, hcounted⟩ := List.forall_mem_cons.mp hcounted
    obtain ⟨key, hkey, hauthorized⟩ := hentry.authorized
    obtain ⟨rest, hdrop, hrest⟩ := SortedList.exists_dropWhile_eq_cons hentries hentry.mem
    rw [hentry.account_eq] at hdrop hrest
    have hsigning : signer.signingAccount crypto false = .ok (crypto.calcAccountId key) :=
      Signer.signingAccount_eq_ok_iff.mpr ⟨key, hkey, rfl⟩
    unfold sumWeights
    rw [hdrop]
    simp only [hentry.account_eq, ne_eq, not_true_eq_false, if_false, hsigning, hauthorized,
      Except.ok_bind]
    refine ih _ ?_ hsigners fun other hother => ?_
    · exact hentries.sublist (hdrop ▸ List.dropWhile_sublist _)
    · -- the entries of the later signers stand behind the current one
      obtain ⟨entry', hentry'⟩ := hcounted other hother
      have hmem : entry' ∈ rest :=
        hrest entry' hentry'.mem (hentry'.account_eq ▸ habove other hother)
      exact ⟨entry', List.mem_cons_of_mem _ hmem, hentry'.account_eq, hentry'.authorized⟩

theorem toNat_foldl_addWeight (h : weightSum.toNat + (counted.map weightOf).sum < 2 ^ 32) :
    (counted.foldl addWeight weightSum).toNat = weightSum.toNat + (counted.map weightOf).sum := by
  induction counted generalizing weightSum with
  | nil => simp
  | cons entry counted ih =>
    rw [List.map_cons, List.sum_cons] at h ⊢
    have hadd : (addWeight weightSum entry).toNat = weightSum.toNat + weightOf entry := by
      rw [addWeight, UInt32.toNat_add, UInt16.toNat_toUInt32, weightOf, Nat.mod_eq_of_lt]
      exact lt_of_le_of_lt (Nat.le_add_right _ _) (by rwa [weightOf, ← Nat.add_assoc] at h)
    rw [List.foldl_cons, ih (by omega), hadd]
    omega

/-- No more signers than a transaction may have: the sum of their weights does not wrap. -/
theorem toNat_foldl_addWeight_zero (h : counted.length ≤ maxMultiSigners) :
    (counted.foldl addWeight 0).toNat = (counted.map weightOf).sum := by
  have hbound : (counted.map weightOf).sum ≤ (counted.map weightOf).length * 65535 := by
    refine List.sum_le_card_nsmul _ _ fun weight hweight => ?_
    obtain ⟨entry, -, rfl⟩ := List.mem_map.mp hweight
    exact Nat.le_of_lt_succ (UInt16.toNat_lt entry.weight)
  rw [List.length_map] at hbound
  have hzero : (0 : UInt32).toNat = 0 := rfl
  have hmax : maxMultiSigners = 32 := rfl
  rw [toNat_foldl_addWeight (by omega), hzero, zero_add]

/-- What a passed check says, whatever the order of the list is. -/
theorem checkMultiSign_counted {signerList : Option SignerListSle}
    (hsize : signers.length ≤ maxMultiSigners)
    (h : checkMultiSign crypto view false signerList signers = .ok ()) :
    ∃ list ∈ signerList, ∃ counted,
      List.Forall₂ (CountedAs crypto view list.signerEntries) signers counted ∧
        list.signerQuorum.toNat ≤ (counted.map weightOf).sum := by
  unfold checkMultiSign at h
  cases signerList with
  | none => cases h
  | some list =>
    obtain ⟨-, h⟩ := Except.ite_error_eq_ok_iff.mp h
    obtain ⟨-, h⟩ := Except.ite_error_eq_ok_iff.mp h
    obtain ⟨-, h⟩ := Except.ite_error_eq_ok_iff.mp h
    obtain ⟨total, htotal, h⟩ := Except.bind_eq_ok_iff.mp h
    obtain ⟨hquorum, -⟩ := Except.ite_error_eq_ok_iff.mp h
    obtain ⟨counted, hcounted, rfl⟩ := sumWeights_counted htotal
    refine ⟨list, rfl, counted, hcounted, ?_⟩
    rw [← toNat_foldl_addWeight_zero (hcounted.length_eq ▸ hsize)]
    exact UInt32.le_iff_toNat_le.mp (UInt32.not_lt.mp hquorum)

end Quaxar.Signing
