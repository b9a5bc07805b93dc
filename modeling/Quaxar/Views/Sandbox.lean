import Quaxar.Views.Overlay

/-!
# The sandbox over a base view

`Sandbox` keeps its changes in an `ApplyStateTable` over a base that it never writes.
`ApplyViewImpl` and `PaymentSandbox` keep them in the same way.
-/

namespace Quaxar.Views

structure Sandbox (B : Type) where
  base : B
  table : ApplyStateTable
  dryRun : Bool

namespace Sandbox

variable {B : Type}

def new (base : B) (dryRun : Bool) : Sandbox B := ⟨base, ApplyStateTable.new, dryRun⟩

/-- An operation of the table. -/
def onTable {α : Type} (x : EStateM ViewError ApplyStateTable α) :
    EStateM ViewError (Sandbox B) α := fun sb =>
  match x sb.table with
  | .ok a table => .ok a { sb with table }
  | .error e table => .error e { sb with table }

variable {sb : Sandbox B} {table : ApplyStateTable}

theorem onTable_of_ok {α : Type} {x : EStateM ViewError ApplyStateTable α} {a : α}
    (h : x sb.table = .ok a table) : onTable x sb = .ok a { sb with table } := by
  simp only [onTable, h]

variable [ReadView B]

instance : ApplyView (Sandbox B) where
  «exists» sb k := sb.table.exists sb.base k
  succ sb key last := sb.table.succ sb.base key last
  read sb k := sb.table.read sb.base k
  dryRun := Sandbox.dryRun
  peek k := fun sb => onTable (ApplyStateTable.peek sb.base k) sb
  insert sle := onTable (ApplyStateTable.insert sle)
  update sle := onTable (ApplyStateTable.update sle)
  erase sle := onTable (ApplyStateTable.erase sle)
  rawReplace sle := onTable (ApplyStateTable.replace sle)
  destroyXrp fee := onTable (ApplyStateTable.destroyXrp fee)

variable [ReadModel B]

open ReadModel ApplyModel

instance : ApplyModel (Sandbox B) where
  state sb := ApplyStateTable.shown (state sb.base) sb.table
  Valid sb := Valid sb.base ∧ ApplyStateTable.Tracks (state sb.base) sb.table
  destroyed sb := sb.table.dropsDestroyed
  CheckedOut sb key := key ∈ sb.table.items

omit [ReadView B] in
theorem valid_new {base : B} (hbase : Valid base) (dryRun : Bool) : Valid (new base dryRun) :=
  ⟨hbase, ApplyStateTable.tracks_new (state base)⟩

omit [ReadView B] in
theorem state_new (base : B) (dryRun : Bool) : state (new base dryRun) = state base :=
  ApplyStateTable.shown_new (state base)

theorem moves_of_becomes (hv : Valid sb) {next : LedgerState} {key : Uint256}
    (h : ApplyStateTable.Becomes (state sb.base) sb.table table next key) :
    Moves sb { sb with table } next (destroyed sb) (some key) where
  valid := ⟨hv.1, h.tracks⟩
  state_eq := h.shown_eq
  destroyed_eq := h.drops_eq
  dryRun_eq := rfl
  checkedOut := h.mem_items
  frame k hkey := by
    have hitem := h.frame k.key (by simpa using hkey)
    constructor
    · simp only [ReadView.read, ApplyStateTable.read, hitem]
    · simp only [ReadView.exists, ApplyStateTable.exists, hitem]

variable [LawfulReadView B]

instance : LawfulApplyView (Sandbox B) where
  exists_eq hv _ hfits := ApplyStateTable.exists_of_fits hv.1 hv.2 hfits
  succ_eq hv key last := ApplyStateTable.succ_eq hv.1 hv.2 key last
  read_finds hv k := ApplyStateTable.read_finds hv.1 hv.2 k
  read_checkedOut hv k hout := ApplyStateTable.read_of_some hv.2 hout
  exists_checkedOut hv k hout := ApplyStateTable.exists_of_some hv.2 hout
  peek_eq hv k := by
    obtain ⟨found, table, hread, hpeek, hbecomes, hout, hsame⟩ :=
      ApplyStateTable.peek_eq hv.1 hv.2 k
    refine ⟨found, _, hread, onTable_of_ok hpeek, moves_of_becomes hv hbecomes, hout, ?_⟩
    intro hnone
    rw [hsame hnone]
  insert_eq hv sle habsent := by
    obtain ⟨table, hinsert, hbecomes⟩ := ApplyStateTable.insert_of_absent hv.2 habsent
    exact ⟨_, onTable_of_ok hinsert, moves_of_becomes hv hbecomes,
      ApplyStateTable.mem_items_of_insert hinsert⟩
  update_eq hv sle hpres hout := by
    obtain ⟨table, hupdate, hbecomes⟩ := ApplyStateTable.update_of_present hv.2 hout hpres
    exact ⟨_, onTable_of_ok hupdate, moves_of_becomes hv hbecomes⟩
  erase_eq hv sle hpres hout := by
    obtain ⟨table, herase, hbecomes⟩ := ApplyStateTable.erase_of_present hv.2 hout hpres
    exact ⟨_, onTable_of_ok herase, moves_of_becomes hv hbecomes⟩
  rawReplace_eq hv sle hpres := by
    obtain ⟨table, hreplace, hbecomes⟩ := ApplyStateTable.replace_of_present hv.2 hpres
    exact ⟨_, onTable_of_ok hreplace, moves_of_becomes hv hbecomes,
      ApplyStateTable.mem_items_of_replace hreplace⟩
  destroyXrp_eq := by
    intro sb hv fee
    rcases hadd : sb.table.dropsDestroyed.checkedAdd fee "XRPAmount::operator+= overflow" with
      e | drops
    · right
      refine ⟨e, ?_⟩
      simp only [ApplyView.destroyXrp, onTable, ApplyStateTable.destroyXrp, hadd]
    · left
      have hsum := XRPAmount.checkedAdd_eq_ok hadd
      refine ⟨{ sb with table := { sb.table with dropsDestroyed := drops } }, ?_,
        hv, rfl, hsum, rfl, fun _ _ h => h, fun _ _ => ⟨rfl, rfl⟩⟩
      simp only [ApplyView.destroyXrp, onTable, ApplyStateTable.destroyXrp, hadd]

end Sandbox

end Quaxar.Views
