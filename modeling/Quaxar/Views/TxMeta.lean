import Quaxar.Views.Commit
import Quaxar.Views.Threading

/-!
# The plan of a transaction

A transaction's sandbox is not committed as it is: every entry that was created or changed
is threaded, and so are the account roots of the owners of what was created or deleted.
`buildTxMetaPlan` threads a copy of the sandbox's entries in one pass over its keys, while
the owners that it comes across may be entries of the copy that had their turn already,
still have it ahead, or are not in it at all. `Planned` describes the copy by the set of
keys that have been touched, in whatever order that happened.
-/

namespace Quaxar.Views

open Protocol (AccountID)
open Std (ExtTreeMap)

open ReadModel ApplyModel
open Except (bind_eq_ok_iff ok_bind)

/-- What threading is given. `accountKey` is the key of an account's root, a hash. -/
structure TxContext where
  formats : LedgerFormats
  rules : Rules
  txId : Uint256
  ledgerSeq : ℕ
  accountKey : AccountID → Uint256

def TxContext.threadSle (tx : TxContext) : STLedgerEntry → Except ViewError STLedgerEntry :=
  Views.threadSle tx.formats tx.rules tx.txId tx.ledgerSeq

/-- The entries to be committed: threaded copies of the sandbox's own, and the owners'
roots that the sandbox did not have. -/
structure TxMetaPlan where
  items : ExtTreeMap Uint256 FlowSandbox.Entry
  newMod : ExtTreeMap Uint256 STLedgerEntry

/-- Store a threaded entry where its unthreaded copy was, or as a supplement. -/
def TxMetaPlan.put (plan : TxMetaPlan) (key : Uint256) (sle : STLedgerEntry) : TxMetaPlan :=
  match plan.items[key]? with
  | some entry => { plan with items := plan.items.insert key { entry with sle } }
  | none => { plan with newMod := plan.newMod.insert key sle }

namespace FlowSandbox

variable {V : Type} [ApplyView V] (tx : TxContext) (sb : FlowSandbox V)

/-- The entry of an owner before it is threaded. -/
def ownerEntry (plan : TxMetaPlan) (key : Uint256) : Except ViewError (Option STLedgerEntry) :=
  match plan.newMod[key]? with
  | some sle => .ok (some sle)
  | none =>
    match plan.items[key]? with
    | some entry => .ok (if entry.action = .erase then none else some entry.sle)
    | none => ReadView.read sb.parent ⟨.accountRoot, key⟩

def threadOwner (plan : TxMetaPlan) (owner : AccountID) : Except ViewError TxMetaPlan := do
  let unthreaded ← ownerEntry sb plan (tx.accountKey owner)
  match unthreaded with
  | none => pure plan
  | some unthreaded =>
    let current ← tx.threadSle unthreaded
    pure (plan.put (tx.accountKey owner) current)

def threadOwnersForMetadata (ownerSource : STLedgerEntry) (plan : TxMetaPlan) :
    Except ViewError TxMetaPlan := do
  let owners ← ownerAccounts ownerSource
  owners.foldlM (threadOwner tx sb) plan

/-- The parent's entry that was modified or erased. -/
def originalEntry (keylet : Keylet) (message : String) : Except ViewError STLedgerEntry := do
  let found ← ReadView.read sb.parent keylet
  match found with
  | some original => pure original
  | none => .error (.conversion message)

def planCreated (key : Uint256) (sle : STLedgerEntry) (plan : TxMetaPlan) :
    Except ViewError TxMetaPlan := do
  let plan ← threadOwnersForMetadata tx sb sle plan
  match plan.items[key]? with
  | none => .error (.unwound "created entry remains in the shadow state table")
  | some entry =>
    let current ← tx.threadSle entry.sle
    pure (plan.put key current)

/-- An entry that is still what it was is passed over. -/
def planModified (key : Uint256) (sle : STLedgerEntry) (plan : TxMetaPlan) :
    Except ViewError TxMetaPlan := do
  let original ← originalEntry sb ⟨sle.entryType, key⟩
    "FlowSandbox::to_tx_meta: modified parent entry disappeared"
  if sle.isEquivalent tx.formats original then pure plan
  else
    let current ← tx.threadSle sle
    pure (plan.put key current)

def planErased (key : Uint256) (sle : STLedgerEntry) (plan : TxMetaPlan) :
    Except ViewError TxMetaPlan := do
  let original ← originalEntry sb ⟨sle.entryType, key⟩
    "FlowSandbox::to_tx_meta: erased parent entry disappeared"
  threadOwnersForMetadata tx sb original plan

/-- The turn of one key. -/
def planEntry (plan : TxMetaPlan) (key : Uint256) : Except ViewError TxMetaPlan :=
  match plan.items[key]? with
  | none => .error (.unwound "metadata key came from the shadow state table")
  | some entry =>
    match entry.action with
    | .insert => planCreated tx sb key entry.sle plan
    | .modify => planModified tx sb key entry.sle plan
    | .erase => planErased tx sb key entry.sle plan

/-- The keys are those of the sandbox, in the order in which they are visited. -/
def buildTxMetaPlan (keys : List Uint256) : Except ViewError TxMetaPlan :=
  keys.foldlM (planEntry tx sb) ⟨sb.items, ∅⟩

variable {V : Type} [ApplyView V] (tx : TxContext) (sb : FlowSandbox V)

/-- `new` is `old`, threaded if it is `due`. -/
def Threads (due : Prop) (old new : STLedgerEntry) : Prop :=
  due ∧ tx.threadSle old = .ok new ∨ ¬due ∧ new = old

/-- The plan when the entries of the keys in `touched` have been threaded. -/
structure Planned (touched : Set Uint256) (plan : TxMetaPlan) : Prop where
  item : ∀ (key : Uint256) (entry : Entry), sb.items[key]? = some entry → ∃ sle,
    plan.items[key]? = some ⟨entry.action, sle⟩ ∧
      Threads tx (entry.action ≠ .erase ∧ key ∈ touched) entry.sle sle
  no_item : ∀ key : Uint256, sb.items[key]? = none → plan.items[key]? = none
  supplement : ∀ (key : Uint256) (sle : STLedgerEntry), sb.items[key]? = none → key ∈ touched →
    ReadView.read sb.parent ⟨.accountRoot, key⟩ = .ok (some sle) →
      ∃ threaded, tx.threadSle sle = .ok threaded ∧ plan.newMod[key]? = some threaded
  newMod : ∀ (key : Uint256) (threaded : STLedgerEntry), plan.newMod[key]? = some threaded →
    sb.items[key]? = none ∧
    key ∈ touched ∧ ∃ sle, ReadView.read sb.parent ⟨.accountRoot, key⟩ = .ok (some sle) ∧
      tx.threadSle sle = .ok threaded

theorem planned_nil : Planned tx sb ∅ ⟨sb.items, ∅⟩ where
  item _ entry hitem := ⟨entry.sle, hitem, .inr ⟨by simp, rfl⟩⟩
  no_item _ hitem := hitem
  supplement _ _ _ hmem := absurd hmem (by simp)
  newMod _ _ hnew := by simp at hnew

/-- The entries that the touched keys show can be threaded. -/
def Threadable (touched : Set Uint256) : Prop :=
  ∀ key ∈ touched, ∀ sle, sb.read ⟨.accountRoot, key⟩ = .ok (some sle) →
    ∃ threaded, tx.threadSle sle = .ok threaded

variable {tx sb} {touched touched' : Set Uint256} {plan plan' : TxMetaPlan} {key : Uint256}
  {entry : Entry} {sle : STLedgerEntry}

section

variable (hitem : sb.items[key]? = some entry)

include hitem

theorem read_of_item (entryType : LedgerEntryType) : sb.read ⟨entryType, key⟩ =
      .ok (if entry.action = .erase then none else some entry.sle) := by
  simp only [read, hitem]

theorem read_of_live (hact : entry.action ≠ .erase)
    (entryType : LedgerEntryType) : sb.read ⟨entryType, key⟩ = .ok (some entry.sle) := by
  rw [read_of_item hitem, if_neg hact]

theorem item_of_read {entryType : LedgerEntryType}
    (hread : sb.read ⟨entryType, key⟩ = .ok (some sle)) :
    entry.action ≠ .erase ∧ entry.sle = sle := by
  rw [read_of_item hitem] at hread
  by_cases hact : entry.action = .erase
  · simp [hact] at hread
  · exact ⟨hact, by simpa [hact] using hread⟩

end

theorem read_of_no_item (hitem : sb.items[key]? = none) (entryType : LedgerEntryType) :
    sb.read ⟨entryType, key⟩ = ReadView.read sb.parent ⟨entryType, key⟩ := by
  simp only [read, hitem]

namespace Planned

variable (h : Planned tx sb touched plan)

include h

theorem threadable : Threadable tx sb touched := by
  intro key hkey sle hread
  rcases hitem : sb.items[key]? with _ | entry
  · rw [read_of_no_item hitem] at hread
    obtain ⟨threaded, hthread, -⟩ := h.supplement key sle hitem hkey hread
    exact ⟨threaded, hthread⟩
  · obtain ⟨hact, rfl⟩ := item_of_read hitem hread
    obtain ⟨threaded, -, hthreads⟩ := h.item key entry hitem
    rcases hthreads with ⟨-, hthread⟩ | ⟨hnot, -⟩
    · exact ⟨threaded, hthread⟩
    · exact absurd ⟨hact, hkey⟩ hnot

theorem absent (hread : sb.read ⟨.accountRoot, key⟩ = .ok none) :
    Planned tx sb (insert key touched) plan := by
  refine ⟨?_, h.no_item, ?_, ?_⟩
  · intro other entry hitem
    obtain ⟨sle, hsle, hthreads⟩ := h.item other entry hitem
    refine ⟨sle, hsle, ?_⟩
    by_cases hother : other = key
    · subst hother
      rw [read_of_item hitem] at hread
      have herase : entry.action = .erase := by
        by_contra hne
        simp [hne] at hread
      rcases hthreads with ⟨⟨hne, -⟩, -⟩ | ⟨-, heq⟩
      · exact absurd herase hne
      · exact .inr ⟨fun hdue => hdue.1 herase, heq⟩
    · simpa [Set.mem_insert_iff, hother] using hthreads
  · intro other sle hitem hmem hparent
    rcases Set.mem_insert_iff.mp hmem with rfl | hmem
    · rw [read_of_no_item hitem, hparent] at hread
      cases hread
    · exact h.supplement other sle hitem hmem hparent
  · intro other threaded hnew
    obtain ⟨hitem, hmem, hsle⟩ := h.newMod other threaded hnew
    exact ⟨hitem, Set.mem_insert_of_mem key hmem, hsle⟩

theorem put {threaded : STLedgerEntry} (hread : sb.read ⟨.accountRoot, key⟩ = .ok (some sle))
    (hthread : tx.threadSle sle = .ok threaded) :
    Planned tx sb (insert key touched) (plan.put key threaded) := by
  rcases hitem : sb.items[key]? with _ | entry
  · rw [read_of_no_item hitem] at hread
    have hput : plan.put key threaded =
        { plan with newMod := plan.newMod.insert key threaded } := by
      simp only [TxMetaPlan.put, h.no_item key hitem]
    rw [hput]
    refine ⟨?_, h.no_item, ?_, ?_⟩
    · intro other entry hother
      obtain ⟨old, hold, hthreads⟩ := h.item other entry hother
      have hne : other ≠ key := by
        rintro rfl
        rw [hitem] at hother
        cases hother
      exact ⟨old, hold, by simpa [Set.mem_insert_iff, hne] using hthreads⟩
    · intro other old hother hmem hparent
      by_cases hne : key = other
      · subst hne
        rw [hread] at hparent
        cases hparent
        exact ⟨threaded, hthread, by simp⟩
      · obtain ⟨new, hnew, hfound⟩ :=
          h.supplement other old hother (Set.mem_of_mem_insert_of_ne hmem (Ne.symm hne)) hparent
        exact ⟨new, hnew, by simpa [OrderedMap.getElem?_insert, hne] using hfound⟩
    · intro other new hnew
      rw [OrderedMap.getElem?_insert] at hnew
      split_ifs at hnew with heq
      · subst heq
        cases hnew
        exact ⟨hitem, Set.mem_insert key touched, sle, hread, hthread⟩
      · obtain ⟨hother, hmem, hold⟩ := h.newMod other new hnew
        exact ⟨hother, Set.mem_insert_of_mem key hmem, hold⟩
  · obtain ⟨hact, rfl⟩ := item_of_read hitem hread
    obtain ⟨old, hold, -⟩ := h.item key entry hitem
    have hput : plan.put key threaded =
        { plan with items := plan.items.insert key ⟨entry.action, threaded⟩ } := by
      simp only [TxMetaPlan.put, hold]
    rw [hput]
    refine ⟨?_, ?_, ?_, ?_⟩
    · intro other entry' hother
      by_cases hne : key = other
      · subst hne
        rw [hitem] at hother
        cases hother
        exact ⟨threaded, by simp, .inl ⟨⟨hact, Set.mem_insert key touched⟩, hthread⟩⟩
      · obtain ⟨new, hnew, hthreads⟩ := h.item other entry' hother
        refine ⟨new, by simpa [OrderedMap.getElem?_insert, hne] using hnew, ?_⟩
        simpa [Set.mem_insert_iff, Ne.symm hne] using hthreads
    · intro other hother
      have hne : key ≠ other := by
        rintro rfl
        rw [hitem] at hother
        cases hother
      simpa [OrderedMap.getElem?_insert, hne] using h.no_item other hother
    · intro other new hother hmem hparent
      have hne : other ≠ key := by
        rintro rfl
        rw [hitem] at hother
        cases hother
      exact h.supplement other new hother (Set.mem_of_mem_insert_of_ne hmem hne) hparent
    · intro other new hnew
      obtain ⟨hother, hmem, hold'⟩ := h.newMod other new hnew
      exact ⟨hother, Set.mem_insert_of_mem key hmem, hold'⟩

theorem erased (hitem : sb.items[key]? = some ⟨.erase, sle⟩) :
    plan.items[key]? = some ⟨.erase, sle⟩ := by
  obtain ⟨sle₁, hsle₁, hthreads⟩ := h.item key _ hitem
  rcases hthreads with ⟨hdue, -⟩ | ⟨-, rfl⟩
  · exact absurd rfl hdue.1
  · exact hsle₁

end Planned

variable {source : STLedgerEntry} {owners : List AccountID} {V : Type} [ApplyModel V]
  (tx : TxContext) (sb : FlowSandbox V)

/-- An entry that was inserted, or stood in the parent where it was erased. -/
def OwnerSource (key : Uint256) (source : STLedgerEntry) : Prop :=
  sb.items[key]? = some ⟨.insert, source⟩ ∨
    ∃ sle, sb.items[key]? = some ⟨.erase, sle⟩ ∧
      (state sb.parent).find key = some source

/-- `root` is the key of the root of an owner of the entry at `key`. -/
def Names (key root : Uint256) : Prop :=
  ∃ source owners owner, OwnerSource sb key source ∧ ownerAccounts source = .ok owners ∧
    owner ∈ owners ∧ tx.accountKey owner = root

/-- The entry at `key` is modified, to one that the code takes for another one. -/
def Changed (key : Uint256) (sle : STLedgerEntry) : Prop :=
  sb.items[key]? = some ⟨.modify, sle⟩ ∧ ∃ original,
    (state sb.parent).find key = some original ∧
      sle.isEquivalent tx.formats original = false

/-- The keys that the turn of `key` touches. -/
def turn (key : Uint256) : Set Uint256 :=
  {root | Names tx sb key root ∨ root = key ∧
    ((∃ sle, sb.items[key]? = some ⟨.insert, sle⟩) ∨ ∃ sle, Changed tx sb key sle)}

/-- Nothing but threading stands in the way of the turn of `key`. -/
structure Ready [ReadView V] (key : Uint256) : Prop where
  original : ∀ entry, sb.items[key]? = some entry → entry.action ≠ .insert → ∃ original,
    ReadView.read sb.parent ⟨entry.sle.entryType, key⟩ = .ok (some original)
  owners : ∀ source, OwnerSource sb key source → ∃ owners, ownerAccounts source = .ok owners

variable {tx sb} {key : Uint256} {sle original : STLedgerEntry}

theorem names_eq (hsource : OwnerSource sb key source)
    (howners : ownerAccounts source = .ok owners) :
    {root | Names tx sb key root} = {root | ∃ owner ∈ owners, tx.accountKey owner = root} := by
  ext root
  constructor
  · rintro ⟨source', owners', owner, hsource', howners', hmem, hroot⟩
    have heq : source' = source := by
      rcases hsource with h | ⟨sle, h, hfind⟩ <;> rcases hsource' with h' | ⟨sle', h', hfind'⟩
      · rw [h] at h'
        cases h'
        rfl
      · rw [h] at h'
        cases h'
      · rw [h] at h'
        cases h'
      · rw [hfind] at hfind'
        exact (Option.some.inj hfind').symm
    rw [heq, howners] at howners'
    cases howners'
    exact ⟨owner, hmem, hroot⟩
  · rintro ⟨owner, hmem, hroot⟩
    exact ⟨source, owners, owner, hsource, howners, hmem, hroot⟩

omit [ApplyModel V] in
theorem action_of_item {action : Action} (hitem : sb.items[key]? = some ⟨action, sle⟩)
    (hentry : sb.items[key]? = some entry) : entry = ⟨action, sle⟩ :=
  Option.some.inj (hentry.symm.trans hitem)

theorem turn_insert (hitem : sb.items[key]? = some ⟨.insert, sle⟩) :
    turn tx sb key = insert key {root | Names tx sb key root} := by
  ext root
  simp only [turn, Set.mem_ofPred, Set.mem_insert_iff, hitem, Changed]
  constructor
  · rintro (h | ⟨h, -⟩)
    · exact .inr h
    · exact .inl h
  · rintro (h | h)
    · exact .inr ⟨h, .inl ⟨sle, rfl⟩⟩
    · exact .inl h

theorem turn_erase (hitem : sb.items[key]? = some ⟨.erase, sle⟩) :
    turn tx sb key = {root | Names tx sb key root} := by
  ext root
  simp [turn, Changed, hitem]

theorem turn_modify (hitem : sb.items[key]? = some ⟨.modify, sle⟩)
    (hfind : (state sb.parent).find key = some original) :
    turn tx sb key = {root | root = key ∧ sle.isEquivalent tx.formats original = false} := by
  ext root
  simp [turn, Names, OwnerSource, Changed, hitem, hfind]

section Turns

variable {V : Type} [ApplyView V] [ApplyModel V] [LawfulApplyView V] {tx : TxContext}
  {sb : FlowSandbox V} {touched touched' : Set Uint256} {plan plan' : TxMetaPlan}
  {key : Uint256} {entry : Entry} {sle : STLedgerEntry} (hv : Valid sb)
  (hform : ∀ key sle, (state sb).find key = some sle → sle.WellFormed)

include hv hform

theorem wellFormed_of_read {keylet : Keylet} (hread : sb.read keylet = .ok (some sle)) :
    sle.WellFormed := by
  obtain ⟨found, hfound, hfinds⟩ := LawfulReadView.read_finds hv keylet
  change sb.read keylet = _ at hfound
  rw [hread] at hfound
  cases hfound
  rcases hfinds with hfinds | ⟨hnone, -⟩
  · exact hform keylet.key sle hfinds.symm
  · cases hnone

omit hform in
theorem originalEntry_eq_ok {entryType : LedgerEntryType} {message : String}
    (hok : originalEntry sb ⟨entryType, key⟩ message = .ok original) :
    ReadView.read sb.parent ⟨entryType, key⟩ = .ok (some original) ∧
      (state sb.parent).find key = some original := by
  unfold originalEntry at hok
  obtain ⟨found, hread, hfinds⟩ := LawfulReadView.read_finds hv.1 ⟨entryType, key⟩
  rw [hread, ok_bind] at hok
  rcases found with _ | sle
  · cases hok
  · cases hok
    refine ⟨hread, ?_⟩
    rcases hfinds with hfinds | ⟨hnone, -⟩
    · exact hfinds.symm
    · cases hnone

namespace Planned

variable (h : Planned tx sb touched plan)

include h

/-- The plan's copy of an entry threads to what the entry threads to. -/
theorem current (hitem : sb.items[key]? = some entry) (hact : entry.action ≠ .erase) :
    ∃ sle, plan.items[key]? = some ⟨entry.action, sle⟩ ∧
      tx.threadSle sle = tx.threadSle entry.sle ∧ sle.entryType = entry.sle.entryType ∧
      ownerAccounts sle = ownerAccounts entry.sle ∧ (key ∉ touched → sle = entry.sle) := by
  obtain ⟨sle, hsle, hthreads⟩ := h.item key entry hitem
  refine ⟨sle, hsle, ?_⟩
  rcases hthreads with ⟨hdue, hthread⟩ | ⟨-, rfl⟩
  · have hsle := wellFormed_of_read hv hform (read_of_live hitem hact .any)
    obtain ⟨hagain, -, htype, howners⟩ := threadSle_eq_ok hsle hthread
    exact ⟨hagain.trans hthread.symm, htype, howners, fun hnot => absurd hdue.2 hnot⟩
  · exact ⟨rfl, rfl, rfl, fun _ => rfl⟩

/-- An owner is found in the plan if the sandbox shows it, and threads to the same. -/
theorem ownerEntry_eq (key : Uint256) :
    ∃ found found', sb.read ⟨.accountRoot, key⟩ = .ok found ∧
      ownerEntry sb plan key = .ok found' ∧
      found'.map tx.threadSle = found.map tx.threadSle := by
  rcases hitem : sb.items[key]? with _ | entry
  · obtain ⟨found, hread, -⟩ := LawfulReadView.read_finds hv.1 ⟨.accountRoot, key⟩
    refine ⟨found, ?_⟩
    rcases hnew : plan.newMod[key]? with _ | threaded
    · exact ⟨found, (read_of_no_item hitem _).trans hread,
        by simp only [ownerEntry, hnew, h.no_item key hitem, hread], rfl⟩
    · obtain ⟨-, -, sle, hsle, hthread⟩ := h.newMod key threaded hnew
      rw [hread] at hsle
      cases hsle
      have hread' := (read_of_no_item hitem .accountRoot).trans hread
      refine ⟨some threaded, hread', by simp only [ownerEntry, hnew], ?_⟩
      have hagain := (threadSle_eq_ok (wellFormed_of_read hv hform hread') hthread).1
      exact congrArg some (hagain.trans hthread.symm)
  · have hnew : plan.newMod[key]? = none := by
      rcases hnew : plan.newMod[key]? with _ | threaded
      · rfl
      · rw [(h.newMod key threaded hnew).1] at hitem
        cases hitem
    by_cases hact : entry.action = .erase
    · obtain ⟨sle, hsle, -⟩ := h.item key entry hitem
      refine ⟨none, none, by simp [read_of_item hitem, hact], ?_, rfl⟩
      simp only [ownerEntry, hnew, hsle, if_pos hact]
    · obtain ⟨sle, hsle, hthread, -⟩ := h.current hv hform hitem hact
      refine ⟨some entry.sle, some sle, by simp [read_of_item hitem, hact], ?_,
        congrArg some hthread⟩
      simp only [ownerEntry, hnew, hsle, if_neg hact]

theorem threadOwner_eq (owner : AccountID) :
    ∃ found, sb.read ⟨.accountRoot, tx.accountKey owner⟩ = .ok found ∧
      threadOwner tx sb plan owner = found.elim (.ok plan) fun sle =>
        tx.threadSle sle >>= fun current => .ok (plan.put (tx.accountKey owner) current) := by
  obtain ⟨found, found', hread, howner, hmap⟩ :=
    h.ownerEntry_eq hv hform (tx.accountKey owner)
  refine ⟨found, hread, ?_⟩
  unfold threadOwner
  rw [howner, ok_bind]
  rcases found with _ | sle
  · rw [Option.map_none, Option.map_eq_none_iff] at hmap
    rw [hmap]
    rfl
  · rw [Option.map_some, Option.map_eq_some_iff] at hmap
    obtain ⟨sle', rfl, hthread⟩ := hmap
    simp only [hthread]
    rfl

variable {owner : AccountID}

theorem threadOwner (hok : threadOwner tx sb plan owner = .ok plan') :
    Planned tx sb (insert (tx.accountKey owner) touched) plan' := by
  obtain ⟨found, hread, howner⟩ := h.threadOwner_eq hv hform owner
  rw [howner] at hok
  rcases found with _ | sle
  · cases hok
    exact h.absent hread
  · rw [Option.elim_some, bind_eq_ok_iff] at hok
    obtain ⟨threaded, hthread, hput⟩ := hok
    cases hput
    exact h.put hread hthread

theorem exists_threadOwner
    (hthreadable : Threadable tx sb touched') (hmem : tx.accountKey owner ∈ touched') :
    ∃ plan', FlowSandbox.threadOwner tx sb plan owner = .ok plan' := by
  obtain ⟨found, hread, howner⟩ := h.threadOwner_eq hv hform owner
  rw [howner]
  rcases found with _ | sle
  · exact ⟨plan, rfl⟩
  · obtain ⟨threaded, hthread⟩ := hthreadable _ hmem sle hread
    exact ⟨_, by rw [Option.elim_some, hthread, ok_bind]⟩

theorem foldlM_threadOwner (owners : List AccountID)
    (hok : owners.foldlM (FlowSandbox.threadOwner tx sb) plan = .ok plan') :
    Planned tx sb (touched ∪ {root | ∃ owner ∈ owners, tx.accountKey owner = root})
      plan' := by
  induction owners generalizing plan touched with
  | nil =>
    cases hok
    simpa using h
  | cons owner owners ih =>
    rw [List.foldlM_cons, bind_eq_ok_iff] at hok
    obtain ⟨plan₁, howner, hok⟩ := hok
    have hset : touched ∪ {root | ∃ o ∈ owner :: owners, tx.accountKey o = root} =
        insert (tx.accountKey owner) touched ∪
          {root | ∃ o ∈ owners, tx.accountKey o = root} := by
      ext root
      simp only [Set.mem_union, Set.mem_ofPred, List.exists_mem_cons_iff, Set.mem_insert_iff,
        eq_comm (a := tx.accountKey owner)]
      tauto
    rw [hset]
    exact ih (h.threadOwner hv hform howner) hok

theorem exists_foldlM_threadOwner (owners : List AccountID)
    (hthreadable : Threadable tx sb touched')
    (hmem : ∀ owner ∈ owners, tx.accountKey owner ∈ touched') :
    ∃ plan', owners.foldlM (FlowSandbox.threadOwner tx sb) plan = .ok plan' := by
  induction owners generalizing plan touched with
  | nil => exact ⟨plan, rfl⟩
  | cons owner owners ih =>
    obtain ⟨plan₁, howner⟩ :=
      h.exists_threadOwner hv hform hthreadable (hmem owner List.mem_cons_self)
    obtain ⟨plan', hrest⟩ := ih (h.threadOwner hv hform howner) fun o ho =>
      hmem o (List.mem_cons_of_mem owner ho)
    exact ⟨plan', by rw [List.foldlM_cons, howner, ok_bind, hrest]⟩

theorem threadOwners
    (hsource : OwnerSource sb key source) (hsame : ownerAccounts sle = ownerAccounts source)
    (hok : threadOwnersForMetadata tx sb sle plan = .ok plan') :
    Planned tx sb (touched ∪ {root | Names tx sb key root}) plan' ∧
      ∃ owners, ownerAccounts source = .ok owners := by
  unfold threadOwnersForMetadata at hok
  rw [hsame, bind_eq_ok_iff] at hok
  obtain ⟨owners, howners, hok⟩ := hok
  rw [names_eq hsource howners]
  exact ⟨h.foldlM_threadOwner hv hform owners hok, owners, howners⟩

theorem exists_threadOwners
    (hsource : OwnerSource sb key source) (hsame : ownerAccounts sle = ownerAccounts source)
    (howners : ownerAccounts source = .ok owners) (hthreadable : Threadable tx sb touched')
    (hmem : {root | Names tx sb key root} ⊆ touched') :
    ∃ plan', threadOwnersForMetadata tx sb sle plan = .ok plan' := by
  unfold threadOwnersForMetadata
  rw [hsame, howners, ok_bind]
  apply h.exists_foldlM_threadOwner hv hform owners hthreadable
  intro owner howner
  apply hmem
  rw [names_eq hsource howners]
  exact ⟨owner, howner, rfl⟩

variable {sle₁ : STLedgerEntry}

theorem planCreated (hitem : sb.items[key]? = some ⟨.insert, sle⟩)
    (howners : ownerAccounts sle₁ = ownerAccounts sle)
    (hok : planCreated tx sb key sle₁ plan = .ok plan') :
    Planned tx sb (touched ∪ turn tx sb key) plan' ∧ Ready sb key := by
  unfold FlowSandbox.planCreated at hok
  rw [bind_eq_ok_iff] at hok
  obtain ⟨plan₁, hthreads, hok⟩ := hok
  obtain ⟨h₁, hready⟩ := h.threadOwners hv hform (.inl hitem) howners hthreads
  -- the entry may have become an owner of itself
  obtain ⟨sle₂, hsle₂, hthread₂, -⟩ := h₁.current hv hform hitem (by simp)
  simp only [hsle₂, hthread₂] at hok
  rw [bind_eq_ok_iff] at hok
  obtain ⟨threaded, hthread, hput⟩ := hok
  cases hput
  refine ⟨?_, ?_, ?_⟩
  · rw [turn_insert hitem, Set.union_insert]
    exact h₁.put (read_of_live hitem (by simp) _) hthread
  · intro entry hentry hact
    rw [action_of_item hitem hentry] at hact
    exact absurd rfl hact
  · rintro source (hinsert | ⟨_, herase, -⟩)
    · cases action_of_item hitem hinsert
      exact hready
    · cases action_of_item hitem herase

omit hform in
theorem planModified (hitem : sb.items[key]? = some ⟨.modify, sle⟩)
    (hthread₁ : tx.threadSle sle₁ = tx.threadSle sle) (htype₁ : sle₁.entryType = sle.entryType)
    (hkept : key ∉ touched → sle₁ = sle) (hok : planModified tx sb key sle₁ plan = .ok plan') :
    Planned tx sb (touched ∪ turn tx sb key) plan' ∧ Ready sb key := by
  unfold FlowSandbox.planModified at hok
  rw [bind_eq_ok_iff] at hok
  obtain ⟨original, horiginal, hok⟩ := hok
  obtain ⟨hread, hfind⟩ := originalEntry_eq_ok hv horiginal
  have hlive := read_of_live hitem (by simp) .accountRoot
  refine ⟨?_, ?_, ?_⟩
  · rw [turn_modify hitem hfind]
    split_ifs at hok with hequiv
    · cases hok
      -- passed over: as it was before, or threaded before its turn
      have hset : touched ∪ {root | root = key ∧ sle.isEquivalent tx.formats original = false} =
          touched := by
        apply Set.union_eq_self_of_subset_right
        rintro root ⟨rfl, hchanged⟩
        by_contra hmem
        rw [← hkept hmem, hequiv] at hchanged
        cases hchanged
      rwa [hset]
    · rw [hthread₁, bind_eq_ok_iff] at hok
      obtain ⟨threaded, hthread, hput⟩ := hok
      cases hput
      have hset : touched ∪ {root | root = key ∧ sle.isEquivalent tx.formats original = false} =
          insert key touched := by
        by_cases hmem : key ∈ touched
        · rw [Set.insert_eq_of_mem hmem]
          apply Set.union_eq_self_of_subset_right
          rintro root ⟨rfl, -⟩
          exact hmem
        · rw [hkept hmem] at hequiv
          simp [hequiv]
      rw [hset]
      exact h.put hlive hthread
  · intro entry hentry _
    rw [action_of_item hitem hentry, ← htype₁]
    exact ⟨original, hread⟩
  · rintro source (hinsert | ⟨_, herase, -⟩)
    · cases action_of_item hitem hinsert
    · cases action_of_item hitem herase

theorem planErased (hitem : sb.items[key]? = some ⟨.erase, sle⟩)
    (hok : planErased tx sb key sle plan = .ok plan') :
    Planned tx sb (touched ∪ turn tx sb key) plan' ∧ Ready sb key := by
  unfold FlowSandbox.planErased at hok
  rw [bind_eq_ok_iff] at hok
  obtain ⟨original, horiginal, hok⟩ := hok
  obtain ⟨hread, hfind⟩ := originalEntry_eq_ok hv horiginal
  have hsource : OwnerSource sb key original := .inr ⟨sle, hitem, hfind⟩
  obtain ⟨h', hready⟩ := h.threadOwners hv hform hsource rfl hok
  refine ⟨?_, ?_, ?_⟩
  · rwa [turn_erase hitem]
  · intro entry hentry _
    rw [action_of_item hitem hentry]
    exact ⟨original, hread⟩
  · rintro source (hinsert | ⟨_, -, hfind'⟩)
    · cases action_of_item hitem hinsert
    · rw [hfind] at hfind'
      cases hfind'
      exact hready

/-- What the turn of one key does to the plan, if it succeeds. -/
theorem planEntry (hok : planEntry tx sb plan key = .ok plan') :
    Planned tx sb (touched ∪ turn tx sb key) plan' ∧ Ready sb key := by
  unfold FlowSandbox.planEntry at hok
  rcases hitem : sb.items[key]? with _ | ⟨_ | _ | _, sle⟩
  · rw [h.no_item key hitem] at hok
    cases hok
  · obtain ⟨sle₁, hsle₁, -, -, howners, -⟩ := h.current hv hform hitem (by simp)
    rw [hsle₁] at hok
    exact h.planCreated hv hform hitem howners hok
  · obtain ⟨sle₁, hsle₁, hthread₁, htype₁, -, hkept⟩ := h.current hv hform hitem (by simp)
    rw [hsle₁] at hok
    exact h.planModified hv hitem hthread₁ htype₁ hkept hok
  · rw [h.erased hitem] at hok
    exact h.planErased hv hform hitem hok

/-- A key that is ready gets through its turn if the entries that it touches can be
threaded. -/
theorem exists_planEntry (hitem : sb.items[key]? = some entry) (hready : Ready sb key)
    (hthreadable : Threadable tx sb touched') (hmem : turn tx sb key ⊆ touched')
    (htouched : touched ⊆ touched') :
    ∃ plan', FlowSandbox.planEntry tx sb plan key = .ok plan' := by
  unfold FlowSandbox.planEntry
  obtain ⟨_ | _ | _, sle⟩ := entry
  · obtain ⟨sle₁, hsle₁, -, -, howners₁, -⟩ := h.current hv hform hitem (by simp)
    rw [hsle₁]
    obtain ⟨owners, howners⟩ := hready.owners sle (.inl hitem)
    rw [turn_insert hitem, Set.insert_subset_iff] at hmem
    obtain ⟨plan₁, hthreads⟩ := h.exists_threadOwners hv hform (.inl hitem) howners₁ howners
      hthreadable hmem.2
    obtain ⟨h₁, -⟩ := h.threadOwners hv hform (.inl hitem) howners₁ hthreads
    obtain ⟨sle₂, hsle₂, hthread₂, -⟩ := h₁.current hv hform hitem (by simp)
    obtain ⟨threaded, hthread⟩ :=
      hthreadable key hmem.1 sle (read_of_live hitem (by simp) _)
    refine ⟨plan₁.put key threaded, ?_⟩
    simp only [FlowSandbox.planCreated, hthreads, ok_bind, hsle₂, hthread₂, hthread]
    rfl
  · obtain ⟨sle₁, hsle₁, hthread₁, htype₁, -, hkept⟩ := h.current hv hform hitem (by simp)
    rw [hsle₁]
    obtain ⟨original, hread⟩ := hready.original _ hitem (by simp)
    have horiginal : originalEntry sb ⟨sle₁.entryType, key⟩
        "FlowSandbox::to_tx_meta: modified parent entry disappeared" = .ok original := by
      unfold originalEntry
      rw [htype₁, hread]
      rfl
    cases hequiv : sle₁.isEquivalent tx.formats original with
    | true =>
      refine ⟨plan, ?_⟩
      simp only [FlowSandbox.planModified, horiginal, ok_bind, hequiv, if_true]
      rfl
    | false =>
      have hkey : key ∈ touched' := by
        by_cases hold : key ∈ touched
        · exact htouched hold
        · have hsame : sle₁ = sle := hkept hold
          apply hmem
          rw [turn_modify hitem (originalEntry_eq_ok hv horiginal).2, ← hsame]
          exact ⟨rfl, hequiv⟩
      obtain ⟨threaded, hthread⟩ := hthreadable key hkey sle (read_of_live hitem (by simp) _)
      refine ⟨plan.put key threaded, ?_⟩
      simp only [FlowSandbox.planModified, horiginal, ok_bind, hequiv, Bool.false_eq_true,
        if_false, hthread₁, hthread]
      rfl
  · rw [h.erased hitem]
    obtain ⟨original, hread⟩ := hready.original _ hitem (by simp)
    have horiginal : originalEntry sb ⟨sle.entryType, key⟩
        "FlowSandbox::to_tx_meta: erased parent entry disappeared" = .ok original := by
      unfold originalEntry
      rw [hread]
      rfl
    have hsource : OwnerSource sb key original :=
      .inr ⟨sle, hitem, (originalEntry_eq_ok hv horiginal).2⟩
    obtain ⟨owners, howners⟩ := hready.owners original hsource
    rw [turn_erase hitem] at hmem
    obtain ⟨plan', hthreads⟩ :=
      h.exists_threadOwners hv hform hsource rfl howners hthreadable hmem
    refine ⟨plan', ?_⟩
    simp only [FlowSandbox.planErased, horiginal, ok_bind, hthreads]

theorem foldlM_planEntry (keys : List Uint256)
    (hok : keys.foldlM (FlowSandbox.planEntry tx sb) plan = .ok plan') :
    Planned tx sb (touched ∪ {root | ∃ key ∈ keys, root ∈ turn tx sb key}) plan' ∧
      ∀ key ∈ keys, Ready sb key := by
  induction keys generalizing plan touched with
  | nil =>
    cases hok
    simpa using h
  | cons key keys ih =>
    rw [List.foldlM_cons, bind_eq_ok_iff] at hok
    obtain ⟨plan₁, hturn, hok⟩ := hok
    obtain ⟨h₁, hready⟩ := h.planEntry hv hform hturn
    obtain ⟨h', hrest⟩ := ih h₁ hok
    constructor
    · have hset : touched ∪ {root | ∃ k ∈ key :: keys, root ∈ turn tx sb k} =
          touched ∪ turn tx sb key ∪ {root | ∃ k ∈ keys, root ∈ turn tx sb k} := by
        ext root
        simp only [Set.mem_union, Set.mem_ofPred, List.exists_mem_cons_iff]
        tauto
      rwa [hset]
    · simpa using ⟨hready, hrest⟩

theorem exists_foldlM_planEntry (keys : List Uint256)
    (hready : ∀ key ∈ keys, key ∈ sb.items ∧ Ready sb key)
    (hthreadable : Threadable tx sb touched')
    (hturns : ∀ key ∈ keys, turn tx sb key ⊆ touched') (htouched : touched ⊆ touched') :
    ∃ plan', keys.foldlM (FlowSandbox.planEntry tx sb) plan = .ok plan' := by
  induction keys generalizing plan touched with
  | nil => exact ⟨plan, rfl⟩
  | cons key keys ih =>
    simp only [List.forall_mem_cons] at hready hturns
    obtain ⟨entry, hitem⟩ := OrderedMap.mem_iff_exists.mp hready.1.1
    obtain ⟨plan₁, hturn⟩ :=
      h.exists_planEntry hv hform hitem hready.1.2 hthreadable hturns.1 htouched
    obtain ⟨h₁, -⟩ := h.planEntry hv hform hturn
    obtain ⟨plan', hrest⟩ :=
      ih h₁ hready.2 hturns.2 (Set.union_subset htouched hturns.1)
    exact ⟨plan', by rw [List.foldlM_cons, hturn, ok_bind, hrest]⟩

end Planned

end Turns

section Order

variable {V : Type} [ApplyView V] [ApplyModel V] [LawfulApplyView V] {tx : TxContext}
  {sb : FlowSandbox V} {plan : TxMetaPlan} {keys keys' : List Uint256}

/-- The keys whose entries are threaded. -/
def touchedKeys (tx : TxContext) (sb : FlowSandbox V) : Set Uint256 :=
  {root | ∃ key, root ∈ turn tx sb key}

omit [ApplyView V] [LawfulApplyView V] in
theorem mem_items_of_turn {root : Uint256} (h : root ∈ turn tx sb key) :
    key ∈ sb.items := by
  rw [OrderedMap.mem_iff_exists]
  rcases h with ⟨_, _, _, hinsert | ⟨_, herase, -⟩, -⟩ | ⟨-, ⟨_, hinsert⟩ | ⟨_, hmodify, -⟩⟩
  · exact ⟨_, hinsert⟩
  · exact ⟨_, herase⟩
  · exact ⟨_, hinsert⟩
  · exact ⟨_, hmodify⟩

omit [ApplyView V] [LawfulApplyView V] in
theorem touchedKeys_eq (hkeys : keys.Perm sb.items.keys) :
    touchedKeys tx sb = {root | ∃ key ∈ keys, root ∈ turn tx sb key} := by
  ext root
  constructor
  · rintro ⟨key, hroot⟩
    exact ⟨key, hkeys.mem_iff.mpr (ExtTreeMap.mem_keys.mpr (mem_items_of_turn hroot)), hroot⟩
  · rintro ⟨key, -, hroot⟩
    exact ⟨key, hroot⟩

omit [ApplyModel V] [LawfulApplyView V] in
theorem Planned.unique
    (h : Planned tx sb touched plan) (h' : Planned tx sb touched plan') :
    plan = plan' := by
  have hitems : plan.items = plan'.items := by
    apply ExtTreeMap.ext_getElem?
    intro key
    rcases hitem : sb.items[key]? with _ | entry
    · rw [h.no_item key hitem, h'.no_item key hitem]
    · obtain ⟨sle, hsle, hthreads⟩ := h.item key entry hitem
      obtain ⟨sle', hsle', hthreads'⟩ := h'.item key entry hitem
      have hsame : sle = sle' := by
        rcases hthreads with ⟨hdue, hthread⟩ | ⟨hdue, heq⟩ <;>
          rcases hthreads' with ⟨hdue', hthread'⟩ | ⟨hdue', heq'⟩
        · exact Except.ok.inj (hthread.symm.trans hthread')
        · exact absurd hdue hdue'
        · exact absurd hdue' hdue
        · exact heq.trans heq'.symm
      rw [hsle, hsle', hsame]
  have hside : ∀ (plan₁ plan₂ : TxMetaPlan), Planned tx sb touched plan₁ →
      Planned tx sb touched plan₂ → ∀ (key : Uint256) (threaded : STLedgerEntry),
      plan₁.newMod[key]? = some threaded → plan₂.newMod[key]? = some threaded := by
    intro plan₁ plan₂ h₁ h₂ key threaded hnew
    obtain ⟨hitem, hmem, sle, hread, hthread⟩ := h₁.newMod key threaded hnew
    obtain ⟨threaded', hthread', hnew'⟩ := h₂.supplement key sle hitem hmem hread
    rw [hthread] at hthread'
    cases hthread'
    exact hnew'
  have hnewMod : plan.newMod = plan'.newMod := by
    apply ExtTreeMap.ext_getElem?
    intro key
    apply Option.ext
    intro threaded
    exact ⟨hside plan plan' h h' key threaded, hside plan' plan h' h key threaded⟩
  obtain ⟨items, newMod⟩ := plan
  obtain ⟨items', newMod'⟩ := plan'
  cases hitems
  cases hnewMod
  rfl

variable (hv : Valid sb)
  (hform : ∀ key sle, (state sb).find key = some sle → sle.WellFormed)

include hv hform

theorem buildTxMetaPlan_eq_ok (hkeys : keys.Perm sb.items.keys)
    (hok : buildTxMetaPlan tx sb keys = .ok plan) :
    Planned tx sb (touchedKeys tx sb) plan ∧
      ∀ key ∈ sb.items, Ready sb key := by
  obtain ⟨h, hready⟩ := (planned_nil tx sb).foldlM_planEntry hv hform keys hok
  rw [Set.empty_union, ← touchedKeys_eq hkeys] at h
  exact ⟨h, fun key hkey => hready key (hkeys.mem_iff.mpr (ExtTreeMap.mem_keys.mpr hkey))⟩

theorem buildTxMetaPlan_perm (hkeys : keys.Perm sb.items.keys)
    (hkeys' : keys'.Perm sb.items.keys) (hok : buildTxMetaPlan tx sb keys = .ok plan) :
    buildTxMetaPlan tx sb keys' = .ok plan := by
  obtain ⟨h, hready⟩ := buildTxMetaPlan_eq_ok hv hform hkeys hok
  obtain ⟨plan', hok'⟩ := (planned_nil tx sb).exists_foldlM_planEntry hv hform keys'
    (fun key hkey => by
      have hmem := ExtTreeMap.mem_keys.mp (hkeys'.mem_iff.mp hkey)
      exact ⟨hmem, hready key hmem⟩)
    h.threadable (fun key _ root hroot => ⟨key, hroot⟩) (Set.empty_subset _)
  obtain ⟨h', -⟩ := buildTxMetaPlan_eq_ok hv hform hkeys' hok'
  rw [h.unique h']
  exact hok'

end Order

end FlowSandbox

end Quaxar.Views
