import Quaxar.Views.View

/-!
# The table of pending changes

`ApplyStateTable` records what a transaction did to the entries of a base view. Each
touched key has an action: `cache` for an entry that was only read, `insert`, `modify` or
`erase`. `Tracks` says what an action promises about the base; with it the table shows
the base overlaid with its entries, and `apply` brings a ledger from the one to the other.
-/

namespace Quaxar.Views

open Std (ExtTreeMap)

inductive Action where
  | cache
  | erase
  | insert
  | modify
deriving DecidableEq, Repr

structure StateEntry where
  action : Action
  sle : STLedgerEntry

structure ApplyStateTable where
  items : ExtTreeMap Uint256 StateEntry
  dropsDestroyed : XRPAmount

inductive StateBatchOp where
  | insert
  | update
  | delete
deriving DecidableEq, Repr

/-- The part of a ledger that a table changes: its state and the drops in its header. -/
structure Ledger where
  state : LedgerState
  drops : ℕ

/-- One operation of `apply_state_batch`. -/
def LedgerState.applyOp (s : LedgerState) :
    StateBatchOp × STLedgerEntry → Except ViewError LedgerState
  | (.insert, sle) =>
    if (s.find sle.key).isSome then .error (.duplicateExactLeaf sle.key) else .ok (s.put sle)
  | (.update, sle) =>
    if (s.find sle.key).isSome then .ok (s.put sle) else .error (.missingExactLeaf sle.key)
  | (.delete, sle) =>
    if (s.find sle.key).isSome then .ok (s.remove sle.key)
    else .error (.missingExactLeaf sle.key)

namespace Ledger

/-- The batch works on a snapshot, which is published once every operation succeeded. -/
def rawApplySleBatch (ops : List (StateBatchOp × STLedgerEntry)) :
    EStateM ViewError Ledger Unit := fun ledger =>
  match ops.foldlM LedgerState.applyOp ledger.state with
  | .ok state => .ok () { ledger with state }
  | .error e => .error e ledger

def rawDestroyXrp (fee : XRPAmount) : EStateM ViewError Ledger Unit := fun ledger =>
  if fee < 0 then .error (.invalidFee fee) ledger
  else if ledger.drops < fee.toNat then .error (.invalidFee fee) ledger
  else .ok () { ledger with drops := ledger.drops - fee.toNat }

end Ledger

namespace ApplyStateTable

def new : ApplyStateTable := ⟨∅, 0⟩

def invariantError (message : String) : ViewError := .conversion message

def destroyXrp (fee : XRPAmount) : EStateM ViewError ApplyStateTable Unit := fun table =>
  match table.dropsDestroyed.checkedAdd fee "XRPAmount::operator+= overflow" with
  | .ok dropsDestroyed => .ok () { table with dropsDestroyed }
  | .error e => .error e table

/-- Store an entry under its key. -/
def store (table : ApplyStateTable) (action : Action) (sle : STLedgerEntry) : ApplyStateTable :=
  { table with items := table.items.insert sle.key ⟨action, sle⟩ }

def isErased (table : ApplyStateTable) (key : Uint256) : Bool :=
  (table.items[key]?).any fun entry => entry.action = .erase

variable {B : Type} [ReadView B] (base : B) (table : ApplyStateTable)

/-- The loop over the base visits each erased key at most once. -/
def succ (key : Uint256) (last : Option Uint256) : Except ViewError (Option Uint256) := do
  let next ← OrderedMap.skipNext (fun key => ReadView.succ base key last) table.isErased
    (.unwound "successor does not advance") (table.items.size + 1) key
  let localNext := (table.items.toList.find? fun item =>
    decide (key < item.1) && decide (item.2.action ≠ .erase)).map Prod.fst
  pure ((Option.merge min next localNext).filter (OrderedMap.below last))

def «exists» (k : Keylet) : Except ViewError Bool :=
  match table.items[k.key]? with
  | some entry => .ok (entry.action ≠ .erase)
  | none => ReadView.exists base k

def read (k : Keylet) : Except ViewError (Option STLedgerEntry) :=
  match table.items[k.key]? with
  | some entry => .ok (if entry.action = .erase then none else some entry.sle)
  | none => ReadView.read base k

def peek (k : Keylet) : EStateM ViewError ApplyStateTable (Option STLedgerEntry) :=
  fun table =>
    match table.items[k.key]? with
    | some entry => .ok (if entry.action = .erase then none else some entry.sle) table
    | none =>
      match ReadView.read base k with
      | .error e => .error e table
      | .ok none => .ok none table
      | .ok (some sle) =>
        .ok (some sle) { table with items := table.items.insert k.key ⟨.cache, sle⟩ }

variable (sle : STLedgerEntry)

def insert : EStateM ViewError ApplyStateTable Unit := fun table =>
  match table.items[sle.key]? with
  | some entry =>
    match entry.action with
    | .cache => .error (invariantError "ApplyStateTable::insert: already cached") table
    | .insert => .error (invariantError "ApplyStateTable::insert: already inserted") table
    | .modify => .error (invariantError "ApplyStateTable::insert: already modified") table
    | .erase => .ok () (table.store .modify sle)
  | none => .ok () (table.store .insert sle)

def replace : EStateM ViewError ApplyStateTable Unit := fun table =>
  match table.items[sle.key]? with
  | some entry =>
    match entry.action with
    | .erase => .error (invariantError "ApplyStateTable::replace: already erased") table
    | .cache => .ok () (table.store .modify sle)
    | .insert | .modify => .ok () (table.store entry.action sle)
  | none => .ok () (table.store .modify sle)

def update : EStateM ViewError ApplyStateTable Unit := fun table =>
  match table.items[sle.key]? with
  | none => .error (invariantError "ApplyStateTable::update: missing key") table
  | some entry =>
    match entry.action with
    | .erase => .error (invariantError "ApplyStateTable::update: erased") table
    | .cache => .ok () (table.store .modify sle)
    | .insert | .modify => .ok () (table.store entry.action sle)

def erase : EStateM ViewError ApplyStateTable Unit := fun table =>
  match table.items[sle.key]? with
  | none => .error (invariantError "ApplyStateTable::erase: missing key") table
  | some entry =>
    match entry.action with
    | .erase => .error (invariantError "ApplyStateTable::erase: double erase") table
    | .insert => .ok () { table with items := table.items.erase sle.key }
    | .cache | .modify => .ok () (table.store .erase sle)

/-- The operation that commits an entry. -/
def batchOp (entry : StateEntry) : Option (StateBatchOp × STLedgerEntry) :=
  match entry.action with
  | .erase => some (.delete, entry.sle)
  | .insert => some (.insert, entry.sle)
  | .modify => some (.update, entry.sle)
  | .cache => none

def batchOps (table : ApplyStateTable) : List (StateBatchOp × STLedgerEntry) :=
  table.items.toList.filterMap fun item => batchOp item.2

def apply (table : ApplyStateTable) : EStateM ViewError Ledger Unit := do
  Ledger.rawApplySleBatch table.batchOps
  Ledger.rawDestroyXrp table.dropsDestroyed

end ApplyStateTable

/-- What an action promises about the entry that the base has at the key. -/
def Action.Fits (action : Action) (present : Option STLedgerEntry) (sle : STLedgerEntry) : Prop :=
  match action with
  | .cache => present = some sle
  | .insert => present = none
  | .modify | .erase => present.isSome = true

/-- The entry that a reader sees in place of the base's. -/
def StateEntry.shows (entry : StateEntry) : Option STLedgerEntry :=
  if entry.action = .erase then none else some entry.sle

namespace ApplyStateTable

/-- Every entry is under its key and fits the base. -/
def Tracks (base : LedgerState) (table : ApplyStateTable) : Prop :=
  ∀ (key : Uint256) (entry : StateEntry), table.items[key]? = some entry →
    entry.sle.key = key ∧ entry.action.Fits (base.find key) entry.sle

/-- The base with the changes of the table. -/
def shown (base : LedgerState) (table : ApplyStateTable) : LedgerState :=
  base.overlay (table.items.map fun _ entry => entry.shows)

variable {base : LedgerState} {table : ApplyStateTable} {key : Uint256} {sle : STLedgerEntry}
  {entry : StateEntry} {action : Action}

theorem tracks_new (base : LedgerState) : Tracks base new := by
  intro key entry h
  simp [new] at h

theorem Tracks.find_shown (ht : Tracks base table) (key : Uint256) :
    (shown base table).find key =
      ((table.items[key]?).map StateEntry.shows).getD (base.find key) := by
  rw [shown, LedgerState.find_overlay]
  · rw [ExtTreeMap.getElem?_map]
  · intro a sle h
    rw [ExtTreeMap.getElem?_map, Option.map_eq_some_iff] at h
    obtain ⟨entry, hentry, hshows⟩ := h
    unfold StateEntry.shows at hshows
    split_ifs at hshows
    cases hshows
    exact (ht a entry hentry).1

theorem Tracks.find_of_some (ht : Tracks base table) (h : table.items[key]? = some entry) :
    (shown base table).find key = entry.shows := by
  simp [ht.find_shown, h]

theorem Tracks.find_of_none (ht : Tracks base table) (h : table.items[key]? = none) :
    (shown base table).find key = base.find key := by
  simp [ht.find_shown, h]

theorem shown_new (base : LedgerState) : shown base new = base := by
  apply LedgerState.ext
  intro key
  rw [(tracks_new base).find_of_none (by simp [new])]

theorem getElem?_store (a : Uint256) :
    (table.store action sle).items[a]? =
      if sle.key = a then some ⟨action, sle⟩ else table.items[a]? :=
  OrderedMap.getElem?_insert table.items sle.key a ⟨action, sle⟩

namespace Tracks

variable (ht : Tracks base table)

include ht

theorem store (hfits : action.Fits (base.find sle.key) sle) :
    Tracks base (table.store action sle) := by
  intro a entry h
  rw [getElem?_store] at h
  split_ifs at h with ha
  · cases h
    subst ha
    exact ⟨rfl, hfits⟩
  · exact ht a entry h

theorem shown_store (hfits : action.Fits (base.find sle.key) sle) (hact : action ≠ .erase) :
    shown base (table.store action sle) = (shown base table).put sle := by
  apply LedgerState.ext
  intro a
  rw [(ht.store hfits).find_shown, getElem?_store, LedgerState.find_put, ht.find_shown]
  split_ifs with ha
  · simp [StateEntry.shows, hact]
  · rfl

theorem shown_store_erase (hfits : Action.erase.Fits (base.find sle.key) sle) :
    shown base (table.store .erase sle) = (shown base table).remove sle.key := by
  apply LedgerState.ext
  intro a
  rw [(ht.store hfits).find_shown, getElem?_store, LedgerState.find_remove, ht.find_shown]
  split_ifs with ha
  · simp [StateEntry.shows]
  · rfl

/-- An inserted entry that goes again leaves no trace. -/
theorem forget (key : Uint256) : Tracks base { table with items := table.items.erase key } := by
  intro a entry h
  rw [OrderedMap.getElem?_erase] at h
  split_ifs at h
  exact ht a entry h

theorem shown_forget (habsent : base.find key = none) :
    shown base { table with items := table.items.erase key } = (shown base table).remove key := by
  apply LedgerState.ext
  intro a
  rw [(ht.forget key).find_shown, OrderedMap.getElem?_erase, LedgerState.find_remove,
    ht.find_shown]
  split_ifs with ha
  · subst ha
    simp [habsent]
  · rfl

end Tracks

section Items

variable {E : Type} (items : ExtTreeMap Uint256 E) (toStateEntry : E → StateEntry)
  (drops : XRPAmount)

/-- The table that entries of another kind of overlay stand for. -/
def ofItems : ApplyStateTable := ⟨items.map fun _ entry => toStateEntry entry, drops⟩

theorem getElem?_ofItems (key : Uint256) :
    (ofItems items toStateEntry drops).items[key]? = (items[key]?).map toStateEntry :=
  ExtTreeMap.getElem?_map

theorem ofItems_insert (key : Uint256) (entry : E) :
    ofItems (items.insert key entry) toStateEntry drops =
      ⟨(ofItems items toStateEntry drops).items.insert key (toStateEntry entry), drops⟩ := by
  refine congrArg (ApplyStateTable.mk · drops) (ExtTreeMap.ext_getElem? fun a => ?_)
  rw [ExtTreeMap.getElem?_map, OrderedMap.getElem?_insert, OrderedMap.getElem?_insert,
    getElem?_ofItems]
  split_ifs
  · rfl
  · rfl

theorem ofItems_erase (key : Uint256) :
    ofItems (items.erase key) toStateEntry drops =
      ⟨(ofItems items toStateEntry drops).items.erase key, drops⟩ := by
  refine congrArg (ApplyStateTable.mk · drops) (ExtTreeMap.ext_getElem? fun a => ?_)
  rw [ExtTreeMap.getElem?_map, OrderedMap.getElem?_erase, OrderedMap.getElem?_erase,
    getElem?_ofItems]
  split_ifs
  · rfl
  · rfl

theorem succ_ofItems {B : Type} [ReadView B] (base : B) (key : Uint256) (last : Option Uint256) :
    (ofItems items toStateEntry drops).succ base key last =
      OrderedMap.skipNext (fun key => ReadView.succ base key last)
        (fun key => (items[key]?).any fun entry => (toStateEntry entry).action = .erase)
        (.unwound "successor does not advance") (items.size + 1) key >>= fun next =>
          pure ((Option.merge min next ((items.toList.find? fun item => decide (key < item.1) &&
            decide ((toStateEntry item.2).action ≠ .erase)).map Prod.fst)).filter
              (OrderedMap.below last)) := by
  have hskip : (ofItems items toStateEntry drops).isErased = fun key =>
      (items[key]?).any fun entry => (toStateEntry entry).action = .erase := by
    funext key
    rw [isErased, getElem?_ofItems, Option.any_map]
  have hsize : (ofItems items toStateEntry drops).items.size = items.size := ExtTreeMap.size_map
  have hitem : ((ofItems items toStateEntry drops).items.toList.find? fun item =>
        decide (key < item.1) && decide (item.2.action ≠ .erase)).map Prod.fst =
      (items.toList.find? fun item => decide (key < item.1) &&
        decide ((toStateEntry item.2).action ≠ .erase)).map Prod.fst := by
    rw [ofItems, ExtTreeMap.toList_map, List.find?_map, Option.map_map]
    rfl
  unfold succ
  rw [hskip, hsize, hitem]

end Items

theorem shows_of_erase (h : entry.action = .erase) : entry.shows = none := if_pos h

theorem shows_of_ne (h : entry.action ≠ .erase) : entry.shows = some entry.sle := if_neg h

theorem shows_isSome : entry.shows.isSome = true ↔ entry.action ≠ .erase := by
  unfold StateEntry.shows
  split_ifs with h <;> simp [h]

end ApplyStateTable

end Quaxar.Views
