import Quaxar.Views.Overlay

/-!
# The table of an open ledger

`RawStateTable` has the entries that changed since a ledger was opened, over the view that it
was opened on. Of its own entries it asks that they are of the kind the keylet names.
-/

namespace Quaxar.Views

open Std (ExtTreeMap)

namespace RawStateTable

inductive Action where
  | erase
  | insert
  | replace
deriving DecidableEq, Repr

structure SleAction where
  action : Action
  sle : STLedgerEntry

end RawStateTable

/-- `base` is the view that the source passes to each read. -/
structure RawStateTable (B : Type) where
  base : B
  items : ExtTreeMap Uint256 RawStateTable.SleAction
  dropsDestroyed : XRPAmount

namespace RawStateTable

variable {B : Type}

def new (base : B) : RawStateTable B := ⟨base, ∅, 0⟩

def store (table : RawStateTable B) (action : Action) (sle : STLedgerEntry) : RawStateTable B :=
  { table with items := table.items.insert sle.key ⟨action, sle⟩ }

def isErased (table : RawStateTable B) (key : Uint256) : Bool :=
  (table.items[key]?).any fun entry => entry.action = .erase

variable [ReadView B] (table : RawStateTable B)

def «exists» (k : Keylet) : Except ViewError Bool :=
  match table.items[k.key]? with
  | some entry => .ok (if entry.action = .erase then false else k.checkLedgerEntry entry.sle)
  | none => ReadView.exists table.base k

/-- The loop over the base visits each erased key at most once. -/
def succ (key : Uint256) (last : Option Uint256) : Except ViewError (Option Uint256) := do
  let next ← OrderedMap.skipNext (fun key => ReadView.succ table.base key last) table.isErased
    (.unwound "successor does not advance") (table.items.size + 1) key
  let overlayKey := (table.items.toList.find? fun item =>
    decide (key < item.1) && decide (item.2.action ≠ .erase)).map Prod.fst
  pure ((Option.merge min next overlayKey).filter (OrderedMap.below last))

def read (k : Keylet) : Except ViewError (Option STLedgerEntry) :=
  match table.items[k.key]? with
  | some entry =>
    .ok (if entry.action = .erase then none else (some entry.sle).filter k.checkLedgerEntry)
  | none => ReadView.read table.base k

instance : ReadView (RawStateTable B) where
  «exists» := RawStateTable.exists
  succ := RawStateTable.succ
  read := RawStateTable.read

section Laws

open ReadModel ApplyStateTable

def Action.toTableAction : RawStateTable.Action → Views.Action
  | .erase => .erase
  | .insert => .insert
  | .replace => .modify

def SleAction.toStateEntry (entry : SleAction) : StateEntry :=
  ⟨entry.action.toTableAction, entry.sle⟩

def toTable (table : RawStateTable B) : ApplyStateTable :=
  .ofItems table.items SleAction.toStateEntry table.dropsDestroyed

theorem toTableAction_eq_erase {action : Action} :
    action.toTableAction = .erase ↔ action = .erase := by
  cases action <;> simp [Action.toTableAction]

omit [ReadView B] in
theorem getElem?_toTable (key : Uint256) :
    table.toTable.items[key]? = (table.items[key]?).map SleAction.toStateEntry :=
  getElem?_ofItems ..

theorem shows_toStateEntry (entry : SleAction) :
    entry.toStateEntry.shows = if entry.action = .erase then none else some entry.sle := by
  simp [StateEntry.shows, SleAction.toStateEntry, toTableAction_eq_erase]

theorem succ_eq_table (key : Uint256) (last : Option Uint256) :
    table.succ key last = table.toTable.succ table.base key last := by
  unfold succ isErased
  simp only [toTable, succ_ofItems, SleAction.toStateEntry, toTableAction_eq_erase, ne_eq]

variable [ReadModel B]

instance : ReadModel (RawStateTable B) where
  state table := shown (state table.base) table.toTable
  Valid table := Valid table.base ∧ Tracks (state table.base) table.toTable

omit [ReadView B] in
theorem valid_new {base : B} (hbase : Valid base) : Valid (new base) :=
  ⟨hbase, tracks_new (state base)⟩

variable {table} {sle : STLedgerEntry}

omit [ReadView B] in
theorem valid_store (hv : Valid table) {action : Action}
    (hfits : action.toTableAction.Fits ((state table.base).find sle.key) sle) :
    Valid (table.store action sle) := by
  refine ⟨hv.1, ?_⟩
  have hstore : (table.store action sle).toTable =
      table.toTable.store action.toTableAction sle := ofItems_insert ..
  rw [hstore]
  exact hv.2.store hfits

variable [LawfulReadView B]

instance : LawfulReadView (RawStateTable B) where
  exists_eq {table} hv k hfits := by
    change table.exists k = .ok ((shown (state table.base) table.toTable).find _).isSome
    change k.Fits ((shown (state table.base) table.toTable).find _) at hfits
    unfold RawStateTable.exists
    rcases hitem : table.items[k.key]? with _ | entry
    · rw [hv.2.find_of_none (by rw [getElem?_toTable, hitem]; rfl)] at hfits ⊢
      exact LawfulReadView.exists_eq hv.1 k hfits
    · rw [hv.2.find_of_some (by rw [getElem?_toTable, hitem]; rfl), shows_toStateEntry] at hfits ⊢
      dsimp only
      split_ifs at hfits ⊢
      · rfl
      · rw [hfits entry.sle rfl]
        rfl
  succ_eq {table} hv key last := (table.succ_eq_table key last).trans (succ_eq hv.1 hv.2 key last)
  read_finds {table} hv k := by
    change ∃ found, table.read k = .ok found ∧
      k.Finds ((shown (state table.base) table.toTable).find _) found
    unfold read
    rcases hitem : table.items[k.key]? with _ | entry
    · rw [hv.2.find_of_none (by rw [getElem?_toTable, hitem]; rfl)]
      exact LawfulReadView.read_finds hv.1 k
    · refine ⟨_, rfl, ?_⟩
      rw [hv.2.find_of_some (by rw [getElem?_toTable, hitem]; rfl), shows_toStateEntry]
      split_ifs
      · exact .inl rfl
      · cases hcheck : k.checkLedgerEntry entry.sle with
        | true => exact .inl (Option.filter_some_pos hcheck)
        | false => exact .inr ⟨Option.filter_some_neg (by simp [hcheck]), entry.sle, rfl, hcheck⟩

end Laws

end RawStateTable

/-- An open ledger to which an account and an offer were added. -/
def sampleOpen : RawStateTable BaseView :=
  ((RawStateTable.new (.ledger .empty)).store .insert (sampleEntry .accountRoot 1)).store .insert
    (sampleEntry .offer 2)

theorem sampleOpen_valid : ReadModel.Valid sampleOpen := by
  have hnew : ReadModel.Valid (RawStateTable.new (BaseView.ledger .empty)) :=
    RawStateTable.valid_new trivial
  refine RawStateTable.valid_store (RawStateTable.valid_store hnew ?_) ?_
  · exact LedgerState.find_empty _
  · exact LedgerState.find_empty _

end Quaxar.Views
