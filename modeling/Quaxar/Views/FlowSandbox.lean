import Quaxar.Views.Sandbox

/-!
# Nested sandboxes

A `FlowSandbox` captures writes over a parent view, which may be a `FlowSandbox` itself.
`apply` first validates every entry against the parent and then replays the entries into
it. The deferred credits that `apply` also passes on do not change what a view reads and are
left out.
-/

namespace Quaxar.Views

open Std (ExtTreeMap)

namespace FlowSandbox

inductive Action where
  | insert
  | modify
  | erase
deriving DecidableEq, Repr

structure Entry where
  action : Action
  sle : STLedgerEntry
deriving DecidableEq

end FlowSandbox

/-- `flags` are explicit apply flags; only their `DRY_RUN` bit is kept. -/
structure FlowSandbox (V : Type) where
  parent : V
  items : ExtTreeMap Uint256 FlowSandbox.Entry
  dropsDestroyed : XRPAmount
  flags : Option Bool

namespace FlowSandbox

variable {V : Type}

def new (parent : V) : FlowSandbox V := ⟨parent, ∅, 0, none⟩

def store (sb : FlowSandbox V) (action : Action) (sle : STLedgerEntry) : FlowSandbox V :=
  { sb with items := sb.items.insert sle.key ⟨action, sle⟩ }

def isErased (sb : FlowSandbox V) (key : Uint256) : Bool :=
  (sb.items[key]?).any fun entry => entry.action = .erase

/-- An erase followed by an insert replaces an entry of the parent. -/
def rawInsert (sle : STLedgerEntry) : EStateM ViewError (FlowSandbox V) Unit := fun sb =>
  .ok () (sb.store (if sb.isErased sle.key then .modify else .insert) sle)

def isInserted (sb : FlowSandbox V) (key : Uint256) : Bool :=
  (sb.items[key]?).any fun entry => entry.action = .insert

def rawReplace (sle : STLedgerEntry) : EStateM ViewError (FlowSandbox V) Unit := fun sb =>
  .ok () (sb.store (if sb.isInserted sle.key then .insert else .modify) sle)

def rawErase (sle : STLedgerEntry) : EStateM ViewError (FlowSandbox V) Unit := fun sb =>
  if sb.isInserted sle.key then
    .ok () { sb with items := sb.items.erase sle.key }
  else .ok () (sb.store .erase sle)

def rawDestroyXrp (fee : XRPAmount) : EStateM ViewError (FlowSandbox V) Unit := fun sb =>
  match sb.dropsDestroyed.checkedAdd fee "attempt to add with overflow" with
  | .ok dropsDestroyed => .ok () { sb with dropsDestroyed }
  | .error e => .error e sb

section Parent

variable [ApplyView V]

def «exists» (sb : FlowSandbox V) (k : Keylet) : Except ViewError Bool :=
  match sb.items[k.key]? with
  | some entry => .ok (entry.action ≠ .erase)
  | none => ReadView.exists sb.parent k

/-- The loop over the parent visits each erased key at most once. -/
def succ (sb : FlowSandbox V) (key : Uint256) (last : Option Uint256) :
    Except ViewError (Option Uint256) := do
  let next ← OrderedMap.skipNext (fun key => ReadView.succ sb.parent key last)
    sb.isErased (.unwound "successor does not advance") (sb.items.size + 1) key
  let item := (sb.items.toList.find? fun item =>
    decide (key < item.1) && decide (item.2.action ≠ .erase)).map Prod.fst
  let next := match next, item with
    | next, none => next
    | none, some itemKey => some itemKey
    | some n, some itemKey => if itemKey < n then some itemKey else some n
  pure (next.filter (OrderedMap.below last))

def read (sb : FlowSandbox V) (k : Keylet) : Except ViewError (Option STLedgerEntry) :=
  match sb.items[k.key]? with
  | some entry => .ok (if entry.action = .erase then none else some entry.sle)
  | none => ReadView.read sb.parent k

def peek (k : Keylet) : EStateM ViewError (FlowSandbox V) (Option STLedgerEntry) :=
  fun sb =>
    match sb.items[k.key]? with
    | some entry => .ok (if entry.action = .erase then none else some entry.sle) sb
    | none =>
      match ApplyView.peek k sb.parent with
      | .ok found parent => .ok found { sb with parent }
      | .error e parent => .error e { sb with parent }

instance : ApplyView (FlowSandbox V) where
  «exists» := FlowSandbox.exists
  succ := FlowSandbox.succ
  read := FlowSandbox.read
  dryRun sb := sb.flags.getD (ApplyView.dryRun sb.parent)
  peek := FlowSandbox.peek
  insert := rawInsert
  update := rawReplace
  erase := rawErase
  rawReplace := rawReplace
  destroyXrp := rawDestroyXrp

/-- One entry of `validate_parent_commit`. -/
def validateEntry (operation : String) (item : Uint256 × Entry) : EStateM ViewError V Unit := do
  let k : Keylet := ⟨item.2.sle.entryType, item.1⟩
  let existing ← EStateM.ofExcept (ReadView.read (← get) k)
  match item.2.action, existing with
  | .insert, some _ =>
    throw (.conversion (operation ++ ": inserted parent entry already exists"))
  | .insert, none => pure ()
  | _, none => throw (.conversion (operation ++ ": parent entry disappeared"))
  | _, some _ =>
    let _ ← ApplyView.peek k

/-- Check all entries before the first one is replayed. -/
def validateParentCommit (operation : String) (items : ExtTreeMap Uint256 Entry) :
    EStateM ViewError V Unit :=
  forM items.toList (validateEntry operation)

/-- Replay one entry into the parent. -/
def applyEntry (item : Uint256 × Entry) : EStateM ViewError V Unit := do
  let k : Keylet := ⟨item.2.sle.entryType, item.1⟩
  match item.2.action with
  | .insert => ApplyView.insert item.2.sle
  | .modify =>
    if (← ApplyView.peek k).isNone then
      throw (.conversion "FlowSandbox::apply: modified parent entry disappeared")
    ApplyView.update item.2.sle
  | .erase =>
    if (← ApplyView.peek k).isNone then
      throw (.conversion "FlowSandbox::apply: erased parent entry disappeared")
    ApplyView.erase item.2.sle

/-- Drops are burnt unless the sandbox is in a dry run. -/
def applyDrops (sb : FlowSandbox V) : EStateM ViewError V Unit :=
  if 0 < sb.dropsDestroyed ∧ ApplyView.dryRun sb = false then
    ApplyView.destroyXrp sb.dropsDestroyed
  else pure ()

/-- What `apply_impl` does to the parent. -/
def applyImpl (sb : FlowSandbox V) : EStateM ViewError V Unit := do
  validateParentCommit "FlowSandbox::apply" sb.items
  sb.applyDrops
  forM sb.items.toList applyEntry

/-- `apply` uses the sandbox up and leaves its parent, whether it returns or fails. -/
def apply (sb : FlowSandbox V) : EStateM.Result ViewError V Unit :=
  sb.applyImpl sb.parent

end Parent

variable {key : Uint256}

section Table

/-- The sandbox never caches, so its entries are those of a table. -/
def Action.toTableAction : Action → Views.Action
  | .insert => .insert
  | .modify => .modify
  | .erase => .erase

def Entry.toStateEntry (entry : Entry) : StateEntry := ⟨entry.action.toTableAction, entry.sle⟩

def table (sb : FlowSandbox V) : ApplyStateTable :=
  .ofItems sb.items Entry.toStateEntry sb.dropsDestroyed

theorem toTableAction_eq_erase {action : Action} :
    action.toTableAction = .erase ↔ action = .erase := by
  cases action <;> simp [Action.toTableAction]

theorem table_new (v : V) : (new v).table = ApplyStateTable.new := rfl

variable (sb : FlowSandbox V)

theorem getElem?_table (key : Uint256) :
    sb.table.items[key]? = (sb.items[key]?).map Entry.toStateEntry :=
  ApplyStateTable.getElem?_ofItems ..

theorem mem_table : key ∈ sb.table.items ↔ key ∈ sb.items :=
  ExtTreeMap.mem_map

theorem table_store (action : Action) (sle : STLedgerEntry) :
    (sb.store action sle).table = sb.table.store action.toTableAction sle :=
  ApplyStateTable.ofItems_insert ..

theorem table_erase (key : Uint256) :
    ({ sb with items := sb.items.erase key } : FlowSandbox V).table =
      { sb.table with items := sb.table.items.erase key } :=
  ApplyStateTable.ofItems_erase ..

variable [ApplyView V]

theorem exists_eq_table (k : Keylet) :
    sb.exists k = sb.table.exists sb.parent k := by
  rw [FlowSandbox.exists, ApplyStateTable.exists, getElem?_table]
  rcases sb.items[k.key]? with _ | entry
  · rfl
  · simp [Entry.toStateEntry, toTableAction_eq_erase]

theorem read_eq_table (k : Keylet) :
    sb.read k = sb.table.read sb.parent k := by
  rw [read, ApplyStateTable.read, getElem?_table]
  rcases sb.items[k.key]? with _ | entry
  · rfl
  · simp [Entry.toStateEntry, toTableAction_eq_erase]

theorem succ_eq_table (key : Uint256) (last : Option Uint256) :
    sb.succ key last = sb.table.succ sb.parent key last := by
  have hmerge : ∀ next item : Option Uint256, (match next, item with
      | next, none => next
      | none, some itemKey => some itemKey
      | some n, some itemKey => if itemKey < n then some itemKey else some n) =
      Option.merge min next item := by
    rintro (_ | n) (_ | itemKey)
    · rfl
    · rfl
    · rfl
    · simp only [Option.merge_some_some, min_def]
      split_ifs with hlt hle hle
      · exact absurd hlt (not_lt.mpr hle)
      · rfl
      · rfl
      · exact absurd (not_lt.mp hlt) hle
  unfold succ isErased
  simp only [table, ApplyStateTable.succ_ofItems, Entry.toStateEntry, toTableAction_eq_erase,
    hmerge, ne_eq]

end Table

section Laws

open ReadModel ApplyModel ApplyStateTable

variable [ApplyView V] [ApplyModel V] {sb : FlowSandbox V}

instance : ApplyModel (FlowSandbox V) where
  state sb := shown (state sb.parent) sb.table
  Valid sb := Valid sb.parent ∧ Tracks (state sb.parent) sb.table
  destroyed := FlowSandbox.dropsDestroyed
  CheckedOut sb key := key ∈ sb.items ∨ CheckedOut sb.parent key

omit [ApplyView V] in
theorem valid_new {v : V} (hv : Valid v) : Valid (new v) := by
  refine ⟨hv, ?_⟩
  rw [table_new]
  exact tracks_new (state v)

theorem moves_of_becomes (hv : Valid sb) {sb' : FlowSandbox V} {next : LedgerState}
    (hparent : sb'.parent = sb.parent) (hflags : sb'.flags = sb.flags)
    (h : Becomes (state sb.parent) sb.table sb'.table next key) :
    Moves sb sb' next (destroyed sb) (some key) where
  valid := by
    refine ⟨?_, ?_⟩
    · rw [hparent]
      exact hv.1
    · rw [hparent]
      exact h.tracks
  state_eq := by
    change shown (state sb'.parent) sb'.table = next
    rw [hparent]
    exact h.shown_eq
  destroyed_eq := h.drops_eq
  dryRun_eq := by
    change sb'.flags.getD _ = sb.flags.getD _
    rw [hparent, hflags]
  checkedOut a ha hout := by
    rcases hout with hmem | hout
    · exact .inl ((mem_table sb').mp (h.mem_items a ha ((mem_table sb).mpr hmem)))
    · refine .inr ?_
      rw [hparent]
      exact hout
  frame k hkey := by
    have hitem := h.frame k.key (by simpa using hkey)
    constructor
    · change sb'.read k = sb.read k
      rw [read_eq_table, read_eq_table, hparent]
      simp only [ApplyStateTable.read, hitem]
    · change sb'.exists k = sb.exists k
      rw [exists_eq_table, exists_eq_table, hparent]
      simp only [ApplyStateTable.exists, hitem]

omit [ApplyView V] in
theorem becomes_rawStore (hv : Valid sb) (action : Action) {sle : STLedgerEntry}
    (hfits : action.toTableAction.Fits ((state sb.parent).find sle.key) sle)
    (hact : action ≠ .erase) :
    Becomes (state sb.parent) sb.table (sb.store action sle).table
      ((state sb).put sle) sle.key := by
  rw [table_store]
  exact becomes_store hv.2 action.toTableAction hfits (by simpa [toTableAction_eq_erase])

omit [ApplyView V] in
theorem fits_of_item (hv : Valid sb) {entry : Entry}
    (hitem : sb.items[key]? = some entry) :
    entry.action.toTableAction.Fits ((state sb.parent).find key) entry.sle ∧
      (state sb).find key = if entry.action = .erase then none else some entry.sle := by
  have htable : sb.table.items[key]? = some entry.toStateEntry := by
    rw [getElem?_table, hitem]
    rfl
  refine ⟨(hv.2 _ _ htable).2, ?_⟩
  refine (hv.2.find_of_some htable).trans ?_
  simp [StateEntry.shows, Entry.toStateEntry, toTableAction_eq_erase]

omit [ApplyView V] in
theorem find_of_no_item (hv : Valid sb) (hitem : sb.items[key]? = none) :
    (state sb).find key = (state sb.parent).find key :=
  hv.2.find_of_none (by rw [getElem?_table, hitem]; rfl)

section

variable (hv : Valid sb) (sle : STLedgerEntry)

include hv sle

theorem rawInsert_eq (habsent : (state sb).find sle.key = none) :
    ∃ sb', rawInsert sle sb = .ok () sb' ∧
      Moves sb sb' ((state sb).put sle) (destroyed sb) (some sle.key) ∧
      CheckedOut sb' sle.key := by
  refine ⟨_, rfl, moves_of_becomes hv rfl rfl (becomes_rawStore hv _ ?_ ?_), .inl ?_⟩
  · rcases hitem : sb.items[sle.key]? with _ | entry
    · rw [find_of_no_item hv hitem] at habsent
      rw [if_neg (by simp [isErased, hitem])]
      exact habsent
    · obtain ⟨hfits, hfind⟩ := fits_of_item hv hitem
      rw [habsent] at hfind
      have herase : entry.action = .erase := by
        by_contra h
        rw [if_neg h] at hfind
        cases hfind
      rw [herase] at hfits
      rw [if_pos (by simp [isErased, hitem, herase])]
      exact hfits
  · split_ifs <;> simp
  · exact ExtTreeMap.mem_insert_self

theorem rawReplace_eq (hpres : ((state sb).find sle.key).isSome) :
    ∃ sb', rawReplace sle sb = .ok () sb' ∧
      Moves sb sb' ((state sb).put sle) (destroyed sb) (some sle.key) ∧
      CheckedOut sb' sle.key := by
  refine ⟨_, rfl, moves_of_becomes hv rfl rfl (becomes_rawStore hv _ ?_ ?_), .inl ?_⟩
  · rcases hitem : sb.items[sle.key]? with _ | entry
    · rw [find_of_no_item hv hitem] at hpres
      rw [if_neg (by simp [isInserted, hitem])]
      exact hpres
    · obtain ⟨hfits, hfind⟩ := fits_of_item hv hitem
      rw [hfind] at hpres
      rcases hact : entry.action with _ | _ | _
      · rw [hact] at hfits
        rw [if_pos (by simp [isInserted, hitem, hact])]
        exact hfits
      · rw [hact] at hfits
        rw [if_neg (by simp [isInserted, hitem, hact])]
        exact hfits
      · simp [hact] at hpres
  · split_ifs <;> simp
  · exact ExtTreeMap.mem_insert_self

theorem rawErase_eq (hpres : ((state sb).find sle.key).isSome) :
    ∃ sb', rawErase sle sb = .ok () sb' ∧
      Moves sb sb' ((state sb).remove sle.key) (destroyed sb)
        (some sle.key) := by
  -- the parent has the entry unless the sandbox inserted it
  have hparent : sb.isInserted sle.key = false →
      ((state sb.parent).find sle.key).isSome = true := by
    intro hnot
    rcases hitem : sb.items[sle.key]? with _ | entry
    · rwa [find_of_no_item hv hitem] at hpres
    · obtain ⟨hfits, -⟩ := fits_of_item hv hitem
      rcases hact : entry.action with _ | _ | _
      · simp [isInserted, hitem, hact] at hnot
      · rw [hact] at hfits
        exact hfits
      · rw [hact] at hfits
        exact hfits
  cases hinserted : sb.isInserted sle.key with
  | false =>
    refine ⟨sb.store .erase sle, by simp [rawErase, hinserted],
      moves_of_becomes hv rfl rfl ?_⟩
    rw [table_store]
    exact becomes_mark hv.2 (hparent hinserted)
  | true =>
    refine ⟨{ sb with items := sb.items.erase sle.key },
      by simp [rawErase, hinserted], moves_of_becomes hv rfl rfl ?_⟩
    rw [table_erase]
    apply becomes_forget hv.2
    unfold isInserted at hinserted
    rw [Option.any_eq_true] at hinserted
    obtain ⟨entry, hitem, hact⟩ := hinserted
    obtain ⟨hfits, -⟩ := fits_of_item hv hitem
    rw [of_decide_eq_true hact] at hfits
    exact hfits

end

theorem rawDestroyXrp_eq (hv : Valid sb) (fee : XRPAmount) :
    (∃ sb', rawDestroyXrp fee sb = .ok () sb' ∧
      Moves sb sb' (state sb) (destroyed sb + fee) none) ∨
      ∃ e, rawDestroyXrp fee sb = .error e sb := by
  rcases hadd : sb.dropsDestroyed.checkedAdd fee "attempt to add with overflow" with
    e | drops
  · exact .inr ⟨e, by simp only [rawDestroyXrp, hadd]⟩
  · refine .inl ⟨{ sb with dropsDestroyed := drops }, by simp only [rawDestroyXrp, hadd],
      hv, rfl, XRPAmount.checkedAdd_eq_ok hadd, rfl, fun _ _ h => h, fun _ _ => ⟨rfl, rfl⟩⟩

variable [LawfulApplyView V]

theorem flowPeek_eq (hv : Valid sb) (k : Keylet) :
    ∃ found sb', sb.read k = .ok found ∧ peek k sb = .ok found sb' ∧
      Moves sb sb' (state sb) (destroyed sb) (some k.key) ∧
      (found.isSome → CheckedOut sb' k.key) ∧ (found = none → sb' = sb) := by
  rcases hitem : sb.items[k.key]? with _ | entry
  · obtain ⟨found, parent, hread, hpeek, hmoves, hout, hsame⟩ :=
      LawfulApplyView.peek_eq hv.1 k
    refine ⟨found, { sb with parent }, by simp [read, hitem, hread],
      by simp [peek, hitem, hpeek], ⟨?_, ?_, rfl, ?_, ?_, ?_⟩, fun h => .inr (hout h),
      fun hnone => by rw [hsame hnone]⟩
    · refine ⟨hmoves.valid, ?_⟩
      rw [hmoves.state_eq]
      exact hv.2
    · change shown (state parent) sb.table = shown (state sb.parent) sb.table
      rw [hmoves.state_eq]
    · change sb.flags.getD (ApplyView.dryRun parent) =
        sb.flags.getD (ApplyView.dryRun sb.parent)
      rw [hmoves.dryRun_eq]
    · intro a ha hout
      by_cases hmem : a ∈ sb.items
      · exact .inl hmem
      · have hnone : sb.items[a]? = none := by simpa using hmem
        rw [find_of_no_item hv hnone] at ha
        rcases hout with h | h
        · exact absurd h hmem
        · exact .inr (hmoves.checkedOut a ha h)
    · intro other hother
      have hparent := hmoves.frame other hother
      constructor
      · change read _ other = read sb other
        unfold read
        rw [hparent.read_eq]
      · change FlowSandbox.exists _ other = FlowSandbox.exists sb other
        unfold FlowSandbox.exists
        rw [hparent.exists_eq]
  · exact ⟨if entry.action = .erase then none else some entry.sle, sb,
      by simp only [read, hitem], by simp only [peek, hitem],
      ⟨hv, rfl, rfl, rfl, fun _ _ h => h, fun _ _ => .refl ..⟩,
      fun _ => .inl (OrderedMap.mem_iff_exists.mpr ⟨entry, hitem⟩), fun _ => rfl⟩

instance : LawfulApplyView (FlowSandbox V) where
  exists_eq {v} hv k hfits :=
    (exists_eq_table v k).trans (exists_of_fits hv.1 hv.2 hfits)
  succ_eq {v} hv key last := (succ_eq_table v key last).trans (succ_eq hv.1 hv.2 key last)
  read_finds {v} hv k := by
    obtain ⟨found, hread, hfinds⟩ := read_finds hv.1 hv.2 k
    exact ⟨found, (read_eq_table v k).trans hread, hfinds⟩
  read_checkedOut {v} hv k hout := by
    refine (read_eq_table v k).trans ?_
    by_cases hmem : k.key ∈ v.items
    · exact read_of_some hv.2 ((mem_table v).mpr hmem)
    · rcases hout with h | h
      · exact absurd h hmem
      · exact read_eq hv.2 (LawfulApplyView.read_checkedOut hv.1 k h)
  exists_checkedOut {v} hv k hout := by
    refine (exists_eq_table v k).trans ?_
    by_cases hmem : k.key ∈ v.items
    · exact exists_of_some hv.2 ((mem_table v).mpr hmem)
    · rcases hout with h | h
      · exact absurd h hmem
      · exact exists_eq hv.2 (LawfulApplyView.exists_checkedOut hv.1 k h)
  peek_eq := flowPeek_eq
  insert_eq := rawInsert_eq
  update_eq hv sle hpres _ := by
    obtain ⟨sb', hreplace, hmoves, -⟩ := rawReplace_eq hv sle hpres
    exact ⟨sb', hreplace, hmoves⟩
  erase_eq hv sle hpres _ := rawErase_eq hv sle hpres
  rawReplace_eq := rawReplace_eq
  destroyXrp_eq := rawDestroyXrp_eq

end Laws

end FlowSandbox

end Quaxar.Views
