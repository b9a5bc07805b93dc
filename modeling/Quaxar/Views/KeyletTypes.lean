import Quaxar.Views.FlowSandbox
import Quaxar.Views.RawStateTable

/-!
# Keylet types through overlays

A keylet names a kind of entry. `RawStateTable` asks of its own entries that they are of that
kind, as a ledger does. `ApplyStateTable` and `FlowSandbox` show their own entries to every keylet,
so that what they report depends on what was peeked or written before.
-/

namespace Quaxar.Views

open Std (ExtTreeMap)

namespace RawStateTable

variable {B : Type}

/-- The entry at a key: the table's own, or the base's. -/
def present (table : RawStateTable B) (below : Uint256 → Option STLedgerEntry) (key : Uint256) :
    Option STLedgerEntry :=
  match table.items[key]? with
  | some entry => if entry.action = .erase then none else some entry.sle
  | none => below key

end RawStateTable

variable {V : Type} {σ : Type}

/-- The view finds only what is there, `present`, and nothing of another kind than the keylet
names. -/
structure TypeChecked [ReadView V] (v : V) (present : Uint256 → Option STLedgerEntry) : Prop where
  read_present : ∀ k sle, ReadView.read v k = .ok (some sle) →
    present k.key = some sle
  exists_present : ∀ k, ReadView.exists v k = .ok true →
    (present k.key).isSome = true
  read_mismatch : ∀ k sle, present k.key = some sle →
    k.checkLedgerEntry sle = false → ReadView.read v k = .ok none
  exists_mismatch : ∀ k sle, present k.key = some sle →
    k.checkLedgerEntry sle = false → ReadView.exists v k = .ok false

/-- What `read`, `peek` and `exists` report at a keylet is of its kind, where `present` is the
entry at its key. -/
structure ReportsKind (k : Keylet) (present : Option STLedgerEntry)
    (read : Except ViewError (Option STLedgerEntry))
    (peek : EStateM.Result ViewError σ (Option STLedgerEntry)) (found : Except ViewError Bool) :
    Prop where
  read_checks : ∀ sle, read = .ok (some sle) → k.checkLedgerEntry sle = true
  peek_checks : ∀ sle s, peek = .ok (some sle) s → k.checkLedgerEntry sle = true
  exists_checks : found = .ok true → ∃ sle, present = some sle ∧ k.checkLedgerEntry sle = true

variable [ReadView V] {v : V} {below : Uint256 → Option STLedgerEntry} {k : Keylet}
  {sle : STLedgerEntry}

theorem TypeChecked.check_of_read (h : TypeChecked v below)
    (hread : ReadView.read v k = .ok (some sle)) : k.checkLedgerEntry sle = true := by
  by_contra hcheck
  have hnone := h.read_mismatch k sle (h.read_present k sle hread) (by simpa using hcheck)
  rw [hread] at hnone
  cases hnone

theorem TypeChecked.check_of_exists (h : TypeChecked v below)
    (hexists : ReadView.exists v k = .ok true) :
    ∃ sle, below k.key = some sle ∧ k.checkLedgerEntry sle = true := by
  obtain ⟨sle, hsle⟩ := Option.isSome_iff_exists.mp (h.exists_present k hexists)
  refine ⟨sle, hsle, ?_⟩
  by_contra hcheck
  have hfalse := h.exists_mismatch k sle hsle (by simpa using hcheck)
  rw [hexists] at hfalse
  cases hfalse

/-- The checks of `RawStateTable` carry over from its base. -/
theorem RawStateTable.typeChecked (table : RawStateTable V) (h : TypeChecked table.base below) :
    TypeChecked table (table.present below) := by
  have hread : ∀ k, ReadView.read table k = table.read k := fun _ => rfl
  have hexists : ∀ k, ReadView.exists table k = table.exists k := fun _ => rfl
  refine ⟨?_, ?_, ?_, ?_⟩ <;> intro k
  all_goals
    simp only [hread, hexists, RawStateTable.read, RawStateTable.exists, RawStateTable.present]
    rcases table.items[k.key]? with _ | entry
    all_goals simp only []
  · exact h.read_present k
  · intro sle
    split_ifs
    · simp
    · simp only [Except.ok.injEq, Option.filter_eq_some_iff]
      exact And.left
  · exact h.exists_present k
  · split_ifs
    · simp
    · simp
  · exact h.read_mismatch k
  · intro sle
    split_ifs
    · simp
    · rintro ⟨⟩ hcheck
      simp [hcheck]
  · exact h.exists_mismatch k
  · intro sle
    split_ifs
    · simp
    · rintro ⟨⟩ hcheck
      rw [hcheck]

inductive ViewOp where
  | peek (k : Keylet)
  | insert (sle : STLedgerEntry)
  | update (sle : STLedgerEntry)
  | erase (sle : STLedgerEntry)
  | rawReplace (sle : STLedgerEntry)
  | destroyXrp (fee : XRPAmount)

/-- The view that an operation leaves, whether it succeeds or fails. -/
def ViewOp.run {V : Type} [ApplyView V] (v : V) : ViewOp → V
  | .peek k => (ApplyView.peek k).after v
  | .insert sle => (ApplyView.insert sle).after v
  | .update sle => (ApplyView.update sle).after v
  | .erase sle => (ApplyView.erase sle).after v
  | .rawReplace sle => (ApplyView.rawReplace sle).after v
  | .destroyXrp fee => (ApplyView.destroyXrp fee).after v

/-- The view after a history of operations. -/
def ViewOp.runAll {V : Type} [ApplyView V] (v : V) (ops : List ViewOp) : V := ops.foldl ViewOp.run v

/-- Overlays, one on another, over a base of type `B`. `held` is the entry of the topmost overlay
that has one at the key. -/
class OverlayModel (B : outParam Type) (V : Type) where
  base : V → B
  held : V → Uint256 → Option StateEntry

open OverlayModel (base held)

/-- What is held is shown to every keylet, and the base is asked for the rest and never changed. -/
class LawfulOverlay (B : outParam Type) (V : Type) [ReadView B] [ApplyView V] [OverlayModel B V] :
    Prop where
  read_eq (v : V) (k : Keylet) : ReadView.read v k =
    ((held v k.key).map fun entry => .ok entry.shows).getD (ReadView.read (base v) k)
  exists_eq (v : V) (k : Keylet) : ReadView.exists v k =
    ((held v k.key).map fun entry => .ok entry.shows.isSome).getD
      (ReadView.exists (base v) k)
  read_of_peek {v v' : V} {k : Keylet} {sle : STLedgerEntry}
    (h : ApplyView.peek k v = .ok (some sle) v') : ReadView.read v k = .ok (some sle)
  base_run (v : V) (op : ViewOp) : base (op.run v) = base v

/-- The entry that stands at a key: the one that is held, or the one `below`. -/
def OverlayModel.present {B V : Type} [OverlayModel B V] (v : V)
    (below : Uint256 → Option STLedgerEntry) (key : Uint256) : Option STLedgerEntry :=
  ((held v key).map StateEntry.shows).getD (below key)

section Sandbox

variable {B : Type} [ReadView B] {base : B} {table table' : ApplyStateTable}

theorem ApplyStateTable.read_of_peek (h : peek base k table = .ok (some sle) table') :
    table.read base k = .ok (some sle) := by
  unfold peek at h
  unfold read
  rcases hitem : table.items[k.key]? with _ | entry
  · rw [hitem] at h
    rcases hread : ReadView.read base k with e | _ | found
    · simp [hread] at h
    · simp [hread] at h
    · simp only [hread, EStateM.Result.ok.injEq] at h
      rw [h.1]
  · simp only [hitem, EStateM.Result.ok.injEq] at h
    simp only [h.1]

theorem ApplyStateTable.exists_eq_held (table : ApplyStateTable) (k : Keylet) :
    table.exists base k = ((table.items[k.key]?).map fun entry =>
      .ok entry.shows.isSome).getD (ReadView.exists base k) := by
  unfold ApplyStateTable.exists
  rcases table.items[k.key]? with _ | entry
  · rfl
  · exact congrArg Except.ok (Bool.eq_iff_iff.mpr (by simp [shows_isSome]))

theorem ApplyStateTable.read_eq_held (table : ApplyStateTable) (k : Keylet) :
    table.read base k = ((table.items[k.key]?).map fun entry =>
      .ok entry.shows).getD (ReadView.read base k) := by
  unfold read
  rcases table.items[k.key]? with _ | entry
  · rfl
  · rfl

instance : OverlayModel B (Sandbox B) where
  base := Sandbox.base
  held sb key := sb.table.items[key]?

omit [ReadView B] in
theorem Sandbox.base_after_onTable {α : Type} (x : EStateM ViewError ApplyStateTable α)
    (sb : Sandbox B) : ((onTable x).after sb).base = sb.base := by
  unfold EStateM.after onTable
  rcases x sb.table with ⟨a, table⟩ | ⟨e, table⟩
  · rfl
  · rfl

instance : LawfulOverlay B (Sandbox B) where
  read_eq sb k := sb.table.read_eq_held k
  exists_eq sb k := sb.table.exists_eq_held k
  read_of_peek {sb _ k _} h := by
    change Sandbox.onTable (ApplyStateTable.peek sb.base k) sb = _ at h
    unfold Sandbox.onTable at h
    rcases hpeek : ApplyStateTable.peek sb.base k sb.table with
      ⟨found, table⟩ | ⟨e, table⟩
    · simp only [hpeek, EStateM.Result.ok.injEq] at h
      rw [h.1] at hpeek
      exact ApplyStateTable.read_of_peek hpeek
    · simp [hpeek] at h
  base_run sb op := by
    cases op with
    | peek k =>
      exact Sandbox.base_after_onTable (ApplyStateTable.peek sb.base k) sb
    | insert sle => exact Sandbox.base_after_onTable _ sb
    | update sle => exact Sandbox.base_after_onTable _ sb
    | erase sle => exact Sandbox.base_after_onTable _ sb
    | rawReplace sle => exact Sandbox.base_after_onTable _ sb
    | destroyXrp fee => exact Sandbox.base_after_onTable _ sb

end Sandbox

section FlowSandbox

variable {B V : Type} [ReadView B] [ApplyView V] [OverlayModel B V]

instance : OverlayModel B (FlowSandbox V) where
  base sb := base sb.parent
  held sb key := (sb.table.items[key]?).or (held sb.parent key)

variable [LawfulOverlay B V]

theorem FlowSandbox.base_run (sb : FlowSandbox V) (op : ViewOp) :
    base (op.run sb).parent = base sb.parent := by
  cases op with
  | peek k =>
    have hparent := LawfulOverlay.base_run sb.parent (.peek k)
    change base ((peek k).after sb).parent = _
    change base ((ApplyView.peek k).after sb.parent) = _ at hparent
    unfold EStateM.after at hparent ⊢
    unfold peek
    rcases sb.items[k.key]? with _ | entry
    · rcases hpeek : ApplyView.peek k sb.parent with ⟨found, parent⟩ | ⟨e, parent⟩
      · rwa [hpeek] at hparent
      · rwa [hpeek] at hparent
    · rfl
  | insert sle => rfl
  | update sle => rfl
  | rawReplace sle => rfl
  | erase sle =>
    change base ((rawErase sle).after sb).parent = _
    unfold EStateM.after rawErase
    split_ifs
    · rfl
    · rfl
  | destroyXrp fee =>
    change base ((rawDestroyXrp fee).after sb).parent = _
    unfold EStateM.after rawDestroyXrp
    rcases sb.dropsDestroyed.checkedAdd fee "attempt to add with overflow" with e | drops
    · rfl
    · rfl

instance : LawfulOverlay B (FlowSandbox V) where
  read_eq sb k := by
    refine (sb.read_eq_table k).trans ((sb.table.read_eq_held k).trans ?_)
    change _ = (((sb.table.items[k.key]?).or _).map _).getD _
    rcases sb.table.items[k.key]? with _ | entry
    · exact LawfulOverlay.read_eq sb.parent k
    · rfl
  exists_eq sb k := by
    refine (sb.exists_eq_table k).trans ((sb.table.exists_eq_held k).trans ?_)
    change _ = (((sb.table.items[k.key]?).or _).map _).getD _
    rcases sb.table.items[k.key]? with _ | entry
    · exact LawfulOverlay.exists_eq sb.parent k
    · rfl
  read_of_peek {sb _ k _} h := by
    change sb.peek k = _ at h
    change sb.read k = _
    unfold FlowSandbox.peek at h
    unfold FlowSandbox.read
    rcases hitem : sb.items[k.key]? with _ | entry
    · rw [hitem] at h
      rcases hpeek : ApplyView.peek k sb.parent with ⟨found, parent⟩ | ⟨e, parent⟩
      · simp only [hpeek, EStateM.Result.ok.injEq] at h
        rw [h.1] at hpeek
        exact LawfulOverlay.read_of_peek hpeek
      · simp [hpeek] at h
    · simp only [hitem, EStateM.Result.ok.injEq] at h
      simp only [h.1]
  base_run := FlowSandbox.base_run

end FlowSandbox

section Overlay

variable {B V : Type} [ReadView B] [ApplyView V] [OverlayModel B V] [LawfulOverlay B V]

theorem LawfulOverlay.base_runAll (v : V) (ops : List ViewOp) :
    base (ViewOp.runAll v ops) = base v := by
  induction ops generalizing v with
  | nil => rfl
  | cons op ops ih => exact (ih (op.run v)).trans (base_run v op)

/-- A live entry that an overlay holds at the keylet's key is of the keylet's kind. -/
def HeldFits (v : V) (k : Keylet) : Prop :=
  ∀ entry, held v k.key = some entry → entry.action ≠ .erase →
    k.checkLedgerEntry entry.sle = true

theorem reportsKind_of_heldFits (v : V) (hbase : TypeChecked (base v) below)
    (h : HeldFits v k) :
    ReportsKind k (OverlayModel.present v below k.key) (ReadView.read v k)
      (ApplyView.peek k v) (ReadView.exists v k) := by
  have hread : ∀ sle, ReadView.read v k = .ok (some sle) →
      k.checkLedgerEntry sle = true := by
    intro sle hsle
    rw [LawfulOverlay.read_eq] at hsle
    rcases hheld : held v k.key with _ | entry
    · rw [hheld] at hsle
      exact hbase.check_of_read hsle
    · rw [hheld] at hsle
      have hshows : entry.shows = some sle := Except.ok.inj hsle
      have hlive : entry.action ≠ .erase := ApplyStateTable.shows_isSome.mp (by rw [hshows]; rfl)
      rw [ApplyStateTable.shows_of_ne hlive] at hshows
      exact Option.some.inj hshows ▸ h entry hheld hlive
  refine ⟨hread, fun sle _ hpeek => hread sle (LawfulOverlay.read_of_peek hpeek), fun hexists => ?_⟩
  rw [LawfulOverlay.exists_eq] at hexists
  rcases hheld : held v k.key with _ | entry
  · rw [hheld] at hexists
    rw [OverlayModel.present, hheld]
    exact hbase.check_of_exists hexists
  · rw [hheld] at hexists
    have hlive : entry.action ≠ .erase := ApplyStateTable.shows_isSome.mp (Except.ok.inj hexists)
    refine ⟨entry.sle, ?_, h entry hheld hlive⟩
    rw [OverlayModel.present, hheld]
    exact ApplyStateTable.shows_of_ne hlive

/-- After any history over a base that checks types, an overlay reports only entries of the kind
that a keylet names if and only if the topmost entry that it or an overlay below it holds at the
key, if that is a live one, is of that kind. -/
theorem overlays_reportKind_iff (below : Uint256 → Option STLedgerEntry) (v : V)
    (hbase : TypeChecked (base v) below) (ops : List ViewOp) (k : Keylet) :
    let after := ViewOp.runAll v ops
    ReportsKind k (OverlayModel.present after below k.key) (ReadView.read after k)
      (ApplyView.peek k after) (ReadView.exists after k) ↔ HeldFits after k := by
  intro after
  constructor
  · intro h entry hheld hlive
    refine h.read_checks entry.sle ?_
    rw [LawfulOverlay.read_eq, hheld]
    exact congrArg Except.ok (ApplyStateTable.shows_of_ne hlive)
  · refine reportsKind_of_heldFits after ?_
    rwa [LawfulOverlay.base_runAll]

end Overlay

theorem typeChecked_empty : TypeChecked (BaseView.ledger LedgerState.empty) fun _ => none := by
  refine ⟨?_, ?_, ?_, ?_⟩
  · intro k sle h
    simp [ReadView.read, BaseView.ledger] at h
  · intro k h
    simp [ReadView.exists, BaseView.ledger] at h
  · intro k sle h
    cases h
  · intro k sle h
    cases h

theorem typeChecked_sampleOpen : TypeChecked sampleOpen (sampleOpen.present fun _ => none) :=
  sampleOpen.typeChecked typeChecked_empty

def sampleKey : Uint256 := (sampleEntry .accountRoot 1).key

/-- The account and the offer are peeked, the offer is erased and a check is added. -/
def sampleHistory : List ViewOp :=
  [.peek ⟨.accountRoot, sampleKey⟩, .peek ⟨.offer, (sampleEntry .offer 2).key⟩,
    .erase (sampleEntry .offer 2), .insert (sampleEntry .check 3)]

def sampleCached : Sandbox (RawStateTable BaseView) :=
  ViewOp.runAll (Sandbox.new sampleOpen false) sampleHistory

def sampleFlow : FlowSandbox (Sandbox (RawStateTable BaseView)) :=
  ViewOp.runAll (FlowSandbox.new (Sandbox.new sampleOpen false)) sampleHistory

theorem heldFits_of_map {B V : Type} [OverlayModel B V] {v : V} (sle : STLedgerEntry)
    (h : (held v k.key).map StateEntry.sle = some sle)
    (hcheck : k.checkLedgerEntry sle = true) : HeldFits v k := by
  intro entry hentry _
  rw [hentry] at h
  exact Option.some.inj h ▸ hcheck

/-- With the keylet of the account both overlays report it. -/
theorem overlays_reportKind_iff_account :
    ReportsKind ⟨.accountRoot, sampleKey⟩
      (OverlayModel.present sampleCached (sampleOpen.present fun _ => none) sampleKey)
      (ReadView.read sampleCached ⟨.accountRoot, sampleKey⟩)
      (ApplyView.peek ⟨.accountRoot, sampleKey⟩ sampleCached)
      (ReadView.exists sampleCached ⟨.accountRoot, sampleKey⟩) ∧
    ReportsKind ⟨.accountRoot, sampleKey⟩
      (OverlayModel.present sampleFlow (sampleOpen.present fun _ => none) sampleKey)
      (ReadView.read sampleFlow ⟨.accountRoot, sampleKey⟩)
      (ApplyView.peek ⟨.accountRoot, sampleKey⟩ sampleFlow)
      (ReadView.exists sampleFlow ⟨.accountRoot, sampleKey⟩) ∧
    ReadView.read sampleFlow ⟨.accountRoot, sampleKey⟩ =
      .ok (some (sampleEntry .accountRoot 1)) := by
  refine ⟨?_, ?_, by decide +kernel⟩
  · refine (overlays_reportKind_iff _ (Sandbox.new sampleOpen false) typeChecked_sampleOpen
      sampleHistory _).mpr ?_
    exact heldFits_of_map (sampleEntry .accountRoot 1) (by decide +kernel) (by decide +kernel)
  · refine (overlays_reportKind_iff _ (FlowSandbox.new (Sandbox.new sampleOpen false))
      typeChecked_sampleOpen sampleHistory _).mpr ?_
    exact heldFits_of_map (sampleEntry .accountRoot 1) (by decide +kernel) (by decide +kernel)

/-- With the keylet of an offer both overlays report the account, where the view below reports
nothing. The account is not held by the flow sandbox itself but by the sandbox below it. -/
theorem overlays_report_account_for_offer :
    TypeChecked sampleOpen (sampleOpen.present fun _ => none) ∧
    Keylet.checkLedgerEntry ⟨.offer, sampleKey⟩ (sampleEntry .accountRoot 1) = false ∧
    ReadView.read sampleOpen ⟨.offer, sampleKey⟩ = .ok none ∧
    ReadView.read sampleCached ⟨.offer, sampleKey⟩ = .ok (some (sampleEntry .accountRoot 1)) ∧
    ReadView.exists sampleCached ⟨.offer, sampleKey⟩ = .ok true ∧
    sampleFlow.items.contains sampleKey = false ∧
    ReadView.read sampleFlow ⟨.offer, sampleKey⟩ = .ok (some (sampleEntry .accountRoot 1)) ∧
    ReadView.exists sampleFlow ⟨.offer, sampleKey⟩ = .ok true := by
  refine ⟨typeChecked_sampleOpen, ?_⟩
  decide +kernel

end Quaxar.Views
