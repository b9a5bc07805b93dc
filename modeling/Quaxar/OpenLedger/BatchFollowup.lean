import Quaxar.OpenLedger.BatchPreflight
import Quaxar.Views.TxMetaCommit

/-!
# Applying the inner transactions of a batch

Each inner transaction is applied in a view of its own over the view of the whole batch, and that
one is committed at the end. What an inner transaction does is arbitrary: it may succeed, claim a
fee, fail or panic, and it decides by the view it is given.
-/

namespace Quaxar.OpenLedger

open Protocol Views

open ReadModel ApplyModel
open FlowSandbox (valid_new wp_applyImpl burnt_eq stable_flags)

def EntriesWellFormed (s : LedgerState) : Prop :=
  ∀ key sle, s.find key = some sle → sle.WellFormed

variable {V : Type} [ApplyView V] [ApplyModel V]

/-- An inner transaction by what it does. `preflight` and `preclaim` are its checks in the view, or
a panic in them. `shell` is the transactor: its result, or a panic, and the view it leaves. -/
structure InnerTransaction (V : Type) [ApplyView V] [ApplyModel V] where
  facts : InnerFacts
  tx : TxContext
  preflight : FlowSandbox (FlowSandbox V) → Option Ter
  preclaim : FlowSandbox (FlowSandbox V) → Option Ter
  shell : Ter → FlowSandbox (FlowSandbox V) → Option Ter × FlowSandbox (FlowSandbox V)
  shell_runs : ∀ preclaim view, FlowSandbox.Runs (FlowSandbox V) view (shell preclaim view).2
  shell_wellFormed : ∀ preclaim view, Valid view → EntriesWellFormed (state view) →
    EntriesWellFormed (state (shell preclaim view).2)

/-- The inner transactions are missing if they cannot be brought into canonical form. -/
structure Batch (V : Type) [ApplyView V] [ApplyModel V] where
  flags : UInt32
  innerTransactions : Option (List (InnerTransaction V))

def Batch.preflight (batch : Batch V) (rules : BatchPreflightRules) : Ter :=
  match batch.innerTransactions with
  | none => .temInvalid
  | some inners =>
    validateBatchPreflightStructure batch.flags (inners.map InnerTransaction.facts) rules

inductive BatchApplyDestination where
  | open
  | closed
  | dryRun
deriving DecidableEq

def BatchApplyDestination.buildsMetadata : BatchApplyDestination → Bool
  | .open => false
  | .closed => true
  | .dryRun => true

variable {V : Type} [ApplyView V] [ApplyModel V] (dest : BatchApplyDestination)

/-- How one round of the loop ends: with a result, with a commit that fails after the result, or
with a panic. -/
inductive Round (V : Type) where
  | done (result : Ter) (whole : FlowSandbox V)
  | failed (result : Ter) (whole : FlowSandbox V)
  | unwound (whole : FlowSandbox V)

def Round.ofError (result : Ter) (whole : FlowSandbox V) : ViewError → Round V
  | .unwound _ => .unwound whole
  | _ => .failed result whole

def perTxBatchView (whole : FlowSandbox V) : FlowSandbox (FlowSandbox V) :=
  { FlowSandbox.new whole with flags := some (decide (dest = .dryRun)) }

def innerApplied (result : Ter) : Bool := result.isTesSuccess || result.isTecClaim

/-- The result of preclaim, or of preflight if that fails. -/
def InnerTransaction.admission (inner : InnerTransaction V)
    (view : FlowSandbox (FlowSandbox V)) : Option Ter := do
  let preflight ← inner.preflight view
  if preflight.isTesSuccess then inner.preclaim view else some preflight

def commitInner (inner : InnerTransaction V) (view : FlowSandbox (FlowSandbox V)) :
    EStateM.Result ViewError (FlowSandbox V) Unit :=
  if dest = .closed then view.applyWithTxMeta inner.tx id else view.apply

/-- What follows the transactor. The view of the transaction is dropped unless it is applied. -/
def settleInner (inner : InnerTransaction V) (result : Ter)
    (view : FlowSandbox (FlowSandbox V)) : Round V :=
  if innerApplied result then
    match if dest.buildsMetadata then FlowSandbox.buildTxMetaPlan inner.tx view view.items.keys
      else .ok ⟨∅, ∅⟩ with
    | .error error => .ofError result view.parent error
    | .ok _ =>
      match commitInner dest inner view with
      | .ok _ whole => .done result whole
      | .error error whole => .ofError result whole error
  else .done result view.parent

/-- One round of the loop. -/
def attemptInner (inner : InnerTransaction V) (whole : FlowSandbox V) : Round V :=
  match inner.admission (perTxBatchView dest whole) with
  | none => .unwound whole
  | some preclaim =>
    if innerApplied preclaim then
      settleInner dest inner
        ((inner.shell preclaim (perTxBatchView dest whole)).1.getD .tefException)
        (inner.shell preclaim (perTxBatchView dest whole)).2
    else settleInner dest inner preclaim (perTxBatchView dest whole)

/-- What the mode makes of a result. -/
inductive Next where
  | go
  | stop
  | discard
deriving DecidableEq

def next (mode : UInt32) (result : Ter) : Next :=
  if !result.isTesSuccess then
    if modeContains mode allOrNothing then .discard
    else if modeContains mode untilFailure then .stop
    else .go
  else if modeContains mode onlyOne then .stop
  else .go

inductive LoopEnd (V : Type) where
  | finished (whole : FlowSandbox V)
  | returned (result : Ter) (whole : FlowSandbox V)
  | unwound (whole : FlowSandbox V)

/-- A run of the loop. The source does not record what it attempts; a transaction that panics
outside of its transactor has no result. -/
structure BatchRun (V : Type) [ApplyView V] [ApplyModel V] where
  attempted : List (InnerTransaction V × Option Ter)
  ending : LoopEnd V

def runBatch (mode : UInt32) : List (InnerTransaction V) → FlowSandbox V → BatchRun V
  | [], whole => ⟨[], .finished whole⟩
  | inner :: rest, whole =>
    match attemptInner dest inner whole with
    | .unwound whole => ⟨[(inner, none)], .unwound whole⟩
    | .failed result whole => ⟨[(inner, some result)], .returned .tefInternal whole⟩
    | .done result whole =>
      match next mode result with
      | .discard => ⟨[(inner, some result)], .returned .tesSuccess whole⟩
      | .stop => ⟨[(inner, some result)], .finished whole⟩
      | .go =>
        let run := runBatch mode rest whole
        ⟨(inner, some result) :: run.attempted, run.ending⟩

/-- The transactions that the loop has pushed, where it finishes. -/
def appliedInner (attempted : List (InnerTransaction V × Option Ter)) :
    List (InnerTransaction V × Ter) :=
  attempted.filterMap fun attempt =>
    (attempt.2.filter innerApplied).map fun result => (attempt.1, result)

structure BatchFollowupOutcome (V : Type) [ApplyView V] [ApplyModel V] where
  result : Ter
  appliedInnerTransactions : List (InnerTransaction V × Ter)

/-- There is no outcome if the function unwinds. -/
structure BatchFollowup (V : Type) [ApplyView V] [ApplyModel V] where
  outcome : Option (BatchFollowupOutcome V)
  attempted : List (InnerTransaction V × Option Ter)
  view : V

def finishBatch (attempted : List (InnerTransaction V × Option Ter)) (whole : FlowSandbox V) :
    BatchFollowup V :=
  if (appliedInner attempted).isEmpty then ⟨some ⟨.tesSuccess, []⟩, attempted, whole.parent⟩
  else
    match whole.apply with
    | .ok _ view => ⟨some ⟨.tesSuccess, appliedInner attempted⟩, attempted, view⟩
    | .error (.unwound _) view => ⟨none, attempted, view⟩
    | .error _ view => ⟨some ⟨.tefInternal, []⟩, attempted, view⟩

def applySubmitBatchFollowup (batch : Batch V) (view : V) : BatchFollowup V :=
  match batch.innerTransactions with
  | none => ⟨some ⟨.temInvalid, []⟩, [], view⟩
  | some inners =>
    let run := runBatch dest (batchMode batch.flags) inners (.new view)
    match run.ending with
    | .finished whole => finishBatch run.attempted whole
    | .returned result whole => ⟨some ⟨result, []⟩, run.attempted, whole.parent⟩
    | .unwound whole => ⟨none, run.attempted, whole.parent⟩

variable {V : Type} [ApplyView V] [ApplyModel V]

/-- An inner transaction applied to one view of the batch makes another. In an open ledger its
entries become those of the batch, in a closed one they are threaded on the way. -/
structure AppliesInner (dest : BatchApplyDestination) (inner : InnerTransaction V)
    (result : Ter) (before after : FlowSandbox V) : Prop where
  applied : innerApplied result = true
  commits : ∃ preclaim view,
    inner.admission (perTxBatchView dest before) = some preclaim ∧
    inner.shell preclaim (perTxBatchView dest before) = (some result, view) ∧
    commitInner dest inner view = .ok () after ∧
    destroyed after = destroyed before + destroyed view ∧
    (dest = .open → state after = state view)

/-- Transactions applied one after the other. What is attempted in between and not applied leaves
an alike view. -/
inductive AppliesInOrder (dest : BatchApplyDestination) :
    FlowSandbox V → List (InnerTransaction V × Ter) → FlowSandbox V → Prop
  | nil (whole : FlowSandbox V) : AppliesInOrder dest whole [] whole
  | skip {before after last : FlowSandbox V} {applied : List (InnerTransaction V × Ter)}
      (halike : Alike before after) (hrest : AppliesInOrder dest after applied last) :
      AppliesInOrder dest before applied last
  | cons {before after last : FlowSandbox V} {applied : List (InnerTransaction V × Ter)}
      {inner : InnerTransaction V} {result : Ter}
      (happlies : AppliesInner dest inner result before after)
      (hrest : AppliesInOrder dest after applied last) :
      AppliesInOrder dest before ((inner, result) :: applied) last

variable {V : Type} [ApplyView V] [ApplyModel V] [LawfulApplyView V]

/-- What a view of the whole batch keeps even if a commit into it fails. -/
def Rooted (v : V) (whole : FlowSandbox V) : Prop := Alike v whole.parent ∧ whole.flags = none

theorem stable_rooted (v : V) : FlowSandbox.Stable (Rooted v) :=
  (FlowSandbox.stable_parent (Alike.peekStable v)).and (stable_flags none)

/-- What every finished round leaves. -/
structure Sound (v : V) (whole : FlowSandbox V) : Prop where
  valid : Valid whole
  drops_nonneg : 0 ≤ whole.dropsDestroyed
  rooted : Rooted v whole
  wellFormed : EntriesWellFormed (state whole)

omit [LawfulApplyView V] in
theorem Sound.of_alike {v : V} {whole whole' : FlowSandbox V} (h : Sound v whole)
    (halike : Alike whole whole') (hrooted : Rooted v whole') : Sound v whole' where
  valid := halike.valid
  drops_nonneg := h.drops_nonneg.trans_eq halike.destroyed_eq.symm
  rooted := hrooted
  wellFormed := by
    rw [halike.state_eq]
    exact h.wellFormed

variable {v : V} {whole whole' : FlowSandbox V} {dest : BatchApplyDestination}
  {inner : InnerTransaction V} {view : FlowSandbox (FlowSandbox V)} {result : Ter}

section Commits

variable (hsound : Sound v whole)
  (hruns : FlowSandbox.Runs (FlowSandbox V) (perTxBatchView dest whole) view)

include hsound hruns

theorem Sound.valid_view : Valid view ∧ 0 ≤ view.dropsDestroyed :=
  hruns.valid (valid_new hsound.valid) le_rfl

theorem Sound.alike_parent : Alike whole view.parent :=
  hruns.parent (Alike.peekStable whole) ⟨hsound.valid, rfl, rfl, rfl⟩

theorem Sound.rooted_parent : Rooted v view.parent :=
  hruns.parent (stable_rooted v).peek hsound.rooted

theorem Sound.drop : Sound v view.parent :=
  hsound.of_alike (hsound.alike_parent hruns) (hsound.rooted_parent hruns)

/-- A commit reaches no further than the view of the whole batch. -/
theorem Sound.wp_commitInner_rooted :
    (∀ whole', commitInner dest inner view = .ok () whole' → Rooted v whole') ∧
      ∀ e whole', commitInner dest inner view = .error e whole' → Rooted v whole' := by
  have hrooted := hsound.rooted_parent hruns
  unfold commitInner
  split_ifs
  · unfold FlowSandbox.applyWithTxMeta
    rcases FlowSandbox.buildTxMetaPlan inner.tx view (id view.items.keys) with e | plan
    · refine ⟨fun _ h => (nomatch h), fun _ _ h => ?_⟩
      cases h
      exact hrooted
    · have hwp := (stable_rooted v).applyTxMetaPlan inner.tx id view plan hrooted
      exact ⟨fun _ h => hwp.ok h, fun _ _ h => hwp.error h⟩
  · have hwp := (stable_rooted v).applyImpl view hrooted
    exact ⟨fun _ h => hwp.ok h, fun _ _ h => hwp.error h⟩

variable (hform : EntriesWellFormed (state view)) (hdestination : dest ≠ .dryRun)

include hform hdestination

theorem Sound.commit (hcommit : commitInner dest inner view = .ok () whole') :
    Sound v whole' ∧ destroyed whole' = destroyed whole + destroyed view ∧
      (dest = .open → state whole' = state view) := by
  obtain ⟨hvalid, hdrops⟩ := hsound.valid_view hruns
  have halike := hsound.alike_parent hruns
  have hrooted := (hsound.wp_commitInner_rooted hruns).1 _ hcommit
  have hflags : view.flags = some false :=
    hruns.stable (stable_flags (some false)) (by simp [perTxBatchView, hdestination])
  have hburnt : view.burnt = view.dropsDestroyed := by
    rw [burnt_eq hdrops]
    change (if view.flags.getD _ then _ else _) = _
    rw [hflags]
    rfl
  have hdestroyed : destroyed view.parent + view.burnt = destroyed whole + destroyed view := by
    rw [halike.destroyed_eq, hburnt]
    rfl
  have hnonneg : 0 ≤ destroyed whole + destroyed view := add_nonneg hsound.drops_nonneg hdrops
  have hbefore : EntriesWellFormed (state view.parent) := by
    rw [halike.state_eq]
    exact hsound.wellFormed
  unfold commitInner at hcommit
  split_ifs at hcommit with hclosed
  · obtain ⟨hvalid', hdestroyed'⟩ := FlowSandbox.applyWithTxMeta_valid hvalid hform
      (fun _ => List.Perm.refl _) hcommit
    rw [hdestroyed] at hdestroyed'
    refine ⟨⟨hvalid', hnonneg.trans_eq hdestroyed'.symm, hrooted, ?_⟩, hdestroyed', ?_⟩
    · intro key sle hfind
      exact FlowSandbox.applyWithTxMeta_wellFormed hvalid hform (fun _ => List.Perm.refl _) hbefore
        hcommit hfind
    · intro hopen
      rw [hclosed] at hopen
      cases hopen
  · have hreplayed := (wp_applyImpl hvalid).ok hcommit
    have hstate := hreplayed.state_eq hvalid
    have hdestroyed' := hreplayed.destroyed_eq
    rw [hdestroyed] at hdestroyed'
    refine ⟨⟨hreplayed.valid, hnonneg.trans_eq hdestroyed'.symm, hrooted, ?_⟩, hdestroyed',
      fun _ => hstate⟩
    rw [hstate]
    exact hform

end Commits

/-- What a round may leave of a sound view. -/
def SoundRound (v : V) (dest : BatchApplyDestination) (inner : InnerTransaction V)
    (whole : FlowSandbox V) : Round V → Prop
  | .done result whole' => Sound v whole' ∧
      if innerApplied result then AppliesInner dest inner result whole whole'
      else Alike whole whole'
  | .failed _ whole' => Rooted v whole'
  | .unwound whole' => Rooted v whole'

omit [LawfulApplyView V] in
theorem soundRound_ofError (hrooted : Rooted v whole') (error : ViewError) :
    SoundRound v dest inner whole (.ofError result whole' error) := by
  cases error <;> exact hrooted

theorem Sound.settleInner (hsound : Sound v whole) (hdestination : dest ≠ .dryRun)
    (hruns : FlowSandbox.Runs (FlowSandbox V) (perTxBatchView dest whole) view)
    (hform : EntriesWellFormed (state view)) (hshell : innerApplied result = true → ∃ preclaim,
      inner.admission (perTxBatchView dest whole) = some preclaim ∧
      inner.shell preclaim (perTxBatchView dest whole) = (some result, view)) :
    SoundRound v dest inner whole (settleInner dest inner result view) := by
  unfold OpenLedger.settleInner
  by_cases happlied : innerApplied result = true
  · rw [if_pos happlied]
    split
    · exact soundRound_ofError (hsound.rooted_parent hruns) _
    · split
      · rename_i hcommit
        obtain ⟨hsound', hdestroyed, hopen⟩ := hsound.commit hruns hform hdestination hcommit
        obtain ⟨preclaim, hadmission, hrun⟩ := hshell happlied
        refine ⟨hsound', ?_⟩
        rw [if_pos happlied]
        exact ⟨happlied, preclaim, view, hadmission, hrun, hcommit, hdestroyed, hopen⟩
      · rename_i hcommit
        exact soundRound_ofError ((hsound.wp_commitInner_rooted hruns).2 _ _ hcommit) _
  · rw [if_neg happlied]
    refine ⟨hsound.drop hruns, ?_⟩
    rw [if_neg happlied]
    exact hsound.alike_parent hruns

theorem Sound.attemptInner (hsound : Sound v whole) (hdestination : dest ≠ .dryRun)
    (inner : InnerTransaction V) :
    SoundRound v dest inner whole (attemptInner dest inner whole) := by
  have hvalid : Valid (perTxBatchView dest whole) := valid_new hsound.valid
  have hform : EntriesWellFormed (state (perTxBatchView dest whole)) := by
    have hstate : state (perTxBatchView dest whole) = state whole :=
      ApplyStateTable.shown_new (state whole)
    rw [hstate]
    exact hsound.wellFormed
  unfold OpenLedger.attemptInner
  split
  · exact hsound.rooted
  · rename_i preclaim hadmission
    split_ifs with hadmitted
    · refine hsound.settleInner hdestination (inner.shell_runs _ _)
        (inner.shell_wellFormed _ _ hvalid hform) fun happlied => ⟨preclaim, hadmission, ?_⟩
      rcases hresult : (inner.shell preclaim (perTxBatchView dest whole)).1 with _ | result
      · -- a panic of the transactor is not applied
        rw [hresult] at happlied
        cases happlied
      · exact Prod.ext hresult rfl
    · exact hsound.settleInner hdestination (.refl _) hform fun happlied =>
        absurd happlied hadmitted

variable {V : Type} [ApplyView V] [ApplyModel V] {mode : UInt32}
  {inners : List (InnerTransaction V)} {whole : FlowSandbox V}

/-- How a round and the mode carry the loop on. -/
theorem runBatch_cons_cases (dest : BatchApplyDestination) (mode : UInt32)
    (inner : InnerTransaction V) (rest : List (InnerTransaction V)) (whole : FlowSandbox V) :
    (∃ whole', attemptInner dest inner whole = .unwound whole' ∧
      runBatch dest mode (inner :: rest) whole = ⟨[(inner, none)], .unwound whole'⟩) ∨
    (∃ result whole', attemptInner dest inner whole = .failed result whole' ∧
      runBatch dest mode (inner :: rest) whole =
        ⟨[(inner, some result)], .returned .tefInternal whole'⟩) ∨
    ∃ result whole', attemptInner dest inner whole = .done result whole' ∧
      ((next mode result = .discard ∧ runBatch dest mode (inner :: rest) whole =
          ⟨[(inner, some result)], .returned .tesSuccess whole'⟩) ∨
        (next mode result = .stop ∧ runBatch dest mode (inner :: rest) whole =
          ⟨[(inner, some result)], .finished whole'⟩) ∨
        (next mode result = .go ∧ runBatch dest mode (inner :: rest) whole =
          ⟨(inner, some result) :: (runBatch dest mode rest whole').attempted,
            (runBatch dest mode rest whole').ending⟩)) := by
  rcases hround : attemptInner dest inner whole with ⟨result, whole'⟩ | ⟨result, whole'⟩ | whole'
  · refine .inr (.inr ⟨result, whole', rfl, ?_⟩)
    rcases hnext : next mode result with _ | _ | _
    · exact .inr (.inr ⟨rfl, by simp only [runBatch, hround, hnext]⟩)
    · exact .inr (.inl ⟨rfl, by simp only [runBatch, hround, hnext]⟩)
    · exact .inl ⟨rfl, by simp only [runBatch, hround, hnext]⟩
  · exact .inr (.inl ⟨result, whole', rfl, by simp only [runBatch, hround]⟩)
  · exact .inl ⟨whole', rfl, by simp only [runBatch, hround]⟩

theorem map_attempted_isPrefix :
    (runBatch dest mode inners whole).attempted.map Prod.fst <+: inners := by
  induction inners generalizing whole with
  | nil => exact List.nil_prefix
  | cons inner rest ih =>
    have hone : [inner] <+: inner :: rest := List.prefix_append [inner] rest
    obtain ⟨_, -, hrun⟩ | ⟨_, _, -, hrun⟩ | ⟨result, whole', -, hcase⟩ :=
      runBatch_cons_cases dest mode inner rest whole
    · rw [hrun]
      exact hone
    · rw [hrun]
      exact hone
    · obtain ⟨-, hrun⟩ | ⟨-, hrun⟩ | ⟨-, hrun⟩ := hcase
      · rw [hrun]
        exact hone
      · rw [hrun]
        exact hone
      · rw [hrun]
        exact List.prefix_cons_inj inner |>.mpr ih

/-- Nothing is attempted after a result that ends the loop. -/
theorem attempted_stops {before after : List (InnerTransaction V × Option Ter)}
    {inner : InnerTransaction V} (hsplit : (runBatch dest mode inners whole).attempted =
      before ++ (inner, some result) :: after) (hnext : next mode result ≠ .go) : after = [] := by
  induction inners generalizing whole before with
  | nil => simp [runBatch] at hsplit
  | cons first rest ih =>
    have hone : ∀ attempt : InnerTransaction V × Option Ter,
        [attempt] = before ++ (inner, some result) :: after → after = [] := by
      intro attempt h
      cases before with
      | nil => exact (List.cons.inj h).2.symm
      | cons _ before => simp at h
    obtain ⟨_, -, hrun⟩ | ⟨_, _, -, hrun⟩ | ⟨first', whole', -, hcase⟩ :=
      runBatch_cons_cases dest mode first rest whole
    · rw [hrun] at hsplit
      exact hone _ hsplit
    · rw [hrun] at hsplit
      exact hone _ hsplit
    · obtain ⟨-, hrun⟩ | ⟨-, hrun⟩ | ⟨hgo, hrun⟩ := hcase
      · rw [hrun] at hsplit
        exact hone _ hsplit
      · rw [hrun] at hsplit
        exact hone _ hsplit
      · rw [hrun] at hsplit
        cases before with
        | nil =>
          -- the first attempt did not end the loop
          cases hsplit
          exact absurd hgo hnext
        | cons _ before =>
          rw [List.cons_append, List.cons.injEq] at hsplit
          exact ih hsplit.2

theorem attempted_all (hstop : ∀ result, next mode result ≠ .stop) {last : FlowSandbox V}
    (hfinished : (runBatch dest mode inners whole).ending = .finished last) :
    (runBatch dest mode inners whole).attempted.map Prod.fst = inners ∧
      ∀ attempt ∈ (runBatch dest mode inners whole).attempted,
        ∃ result, attempt.2 = some result ∧ next mode result = .go := by
  induction inners generalizing whole with
  | nil => exact ⟨rfl, by simp [runBatch]⟩
  | cons inner rest ih =>
    obtain ⟨_, -, hrun⟩ | ⟨_, _, -, hrun⟩ | ⟨result, whole', -, hcase⟩ :=
      runBatch_cons_cases dest mode inner rest whole
    · rw [hrun] at hfinished
      cases hfinished
    · rw [hrun] at hfinished
      cases hfinished
    · obtain ⟨-, hrun⟩ | ⟨hnext, -⟩ | ⟨hgo, hrun⟩ := hcase
      · rw [hrun] at hfinished
        cases hfinished
      · exact absurd hnext (hstop result)
      · rw [hrun] at hfinished ⊢
        obtain ⟨hall, hresults⟩ := ih hfinished
        refine ⟨congrArg (inner :: ·) hall, ?_⟩
        rintro attempt (_ | ⟨_, hmem⟩)
        · exact ⟨result, rfl, hgo⟩
        · exact hresults attempt hmem

/-- The loop returns early where a commit fails, or where the mode discards the batch. -/
theorem returned_cases {returned : Ter} {last : FlowSandbox V}
    (hreturned : (runBatch dest mode inners whole).ending = .returned returned last) :
    returned = .tefInternal ∨ returned = .tesSuccess ∧ ∃ result, next mode result = .discard := by
  induction inners generalizing whole with
  | nil => cases hreturned
  | cons inner rest ih =>
    obtain ⟨_, -, hrun⟩ | ⟨_, _, -, hrun⟩ | ⟨result, whole', -, hcase⟩ :=
      runBatch_cons_cases dest mode inner rest whole
    · rw [hrun] at hreturned
      cases hreturned
    · rw [hrun] at hreturned
      cases hreturned
      exact .inl rfl
    · obtain ⟨hdiscard, hrun⟩ | ⟨-, hrun⟩ | ⟨-, hrun⟩ := hcase
      · rw [hrun] at hreturned
        cases hreturned
        exact .inr ⟨rfl, result, hdiscard⟩
      · rw [hrun] at hreturned
        cases hreturned
      · rw [hrun] at hreturned
        exact ih hreturned

variable [LawfulApplyView V] {v : V}

/-- What a run of the loop leaves of a sound view. -/
def SoundRun (v : V) (dest : BatchApplyDestination) (whole : FlowSandbox V)
    (attempted : List (InnerTransaction V × Option Ter)) : LoopEnd V → Prop
  | .finished last => Sound v last ∧ AppliesInOrder dest whole (appliedInner attempted) last
  | .returned _ last => Rooted v last
  | .unwound last => Rooted v last

omit [LawfulApplyView V] in
/-- A run is a round, and what the round leaves to the others. -/
theorem SoundRound.soundRun {inner : InnerTransaction V} {whole' : FlowSandbox V}
    {attempted : List (InnerTransaction V × Option Ter)} {ending : LoopEnd V}
    (hround : SoundRound v dest inner whole (.done result whole'))
    (hrest : SoundRun v dest whole' attempted ending) :
    SoundRun v dest whole ((inner, some result) :: attempted) ending := by
  obtain ⟨-, heffect⟩ := hround
  cases ending with
  | returned _ last => exact hrest
  | unwound last => exact hrest
  | finished last =>
    refine ⟨hrest.1, ?_⟩
    split_ifs at heffect with happlied
    · have hcons : appliedInner ((inner, some result) :: attempted) =
          (inner, result) :: appliedInner attempted := by simp [appliedInner, happlied]
      rw [hcons]
      exact .cons heffect hrest.2
    · have hcons : appliedInner ((inner, some result) :: attempted) = appliedInner attempted := by
        simp [appliedInner, happlied]
      rw [hcons]
      exact .skip heffect hrest.2

theorem Sound.runBatch (hsound : Sound v whole) (hdestination : dest ≠ .dryRun) :
    SoundRun v dest whole (runBatch dest mode inners whole).attempted
      (runBatch dest mode inners whole).ending := by
  induction inners generalizing whole with
  | nil => exact ⟨hsound, .nil whole⟩
  | cons inner rest ih =>
    have hround := hsound.attemptInner hdestination inner
    obtain ⟨_, hattempt, hrun⟩ | ⟨_, _, hattempt, hrun⟩ | ⟨result, whole', hattempt, hcase⟩ :=
      runBatch_cons_cases dest mode inner rest whole
    · rw [hattempt] at hround
      rw [hrun]
      exact hround
    · rw [hattempt] at hround
      rw [hrun]
      exact hround
    · rw [hattempt] at hround
      obtain ⟨-, hrun⟩ | ⟨-, hrun⟩ | ⟨-, hrun⟩ := hcase
      · rw [hrun]
        exact hround.1.rooted
      · rw [hrun]
        exact hround.soundRun ⟨hround.1, .nil whole'⟩
      · rw [hrun]
        exact hround.soundRun (ih hround.1)

variable {V : Type} [ApplyView V] [ApplyModel V]

/-- What the mode of a batch promises of its followup. -/
structure KeepsMode (dest : BatchApplyDestination) (mode : UInt32)
    (inners : List (InnerTransaction V)) (v : V) (followup : BatchFollowup V) : Prop where
  one_mode : mode = allOrNothing ∨ mode = onlyOne ∨ mode = untilFailure ∨ mode = independent
  attempted_order : followup.attempted.map Prod.fst <+: inners
  untilFailure_stops : mode = untilFailure → ∀ before inner result after,
    followup.attempted = before ++ (inner, some result) :: after →
      result.isTesSuccess = false → after = []
  onlyOne_stops : mode = onlyOne → ∀ before inner result after,
    followup.attempted = before ++ (inner, some result) :: after →
      result.isTesSuccess = true → after = []
  independent_attempts : mode = independent → ∀ outcome, followup.outcome = some outcome →
    outcome.result = .tesSuccess → followup.attempted.map Prod.fst = inners
  allOrNothing_applies : mode = allOrNothing → ∀ outcome, followup.outcome = some outcome →
    outcome.appliedInnerTransactions = [] ∨
      outcome.appliedInnerTransactions.map Prod.fst = inners ∧
        ∀ applied ∈ outcome.appliedInnerTransactions, applied.2.isTesSuccess = true
  reports : ∀ outcome, followup.outcome = some outcome → outcome.result = .tesSuccess →
    outcome.appliedInnerTransactions = appliedInner followup.attempted ∨
      mode = allOrNothing ∧ outcome.appliedInnerTransactions = []
  applies : ∀ outcome, followup.outcome = some outcome → ∃ whole,
    AppliesInOrder dest (.new v) outcome.appliedInnerTransactions whole ∧
      state followup.view = state whole ∧ destroyed followup.view = destroyed v + destroyed whole
  failed_unchanged : ∀ outcome, followup.outcome = some outcome → outcome.result ≠ .tesSuccess →
    Alike v followup.view ∧ outcome.appliedInnerTransactions = []
  unwound_unchanged : followup.outcome = none → Alike v followup.view

theorem next_allOrNothing :
    next allOrNothing result = if result.isTesSuccess then .go else .discard := by
  cases h : result.isTesSuccess <;> simp [next, h] <;> decide

theorem next_ne_go_of_untilFailure (h : result.isTesSuccess = false) :
    next untilFailure result ≠ .go := by
  simp only [next, h]
  decide

theorem next_ne_go_of_onlyOne (h : result.isTesSuccess = true) : next onlyOne result ≠ .go := by
  simp only [next, h]
  decide

theorem next_independent : next independent result = .go := by
  cases h : result.isTesSuccess <;> simp [next, h] <;> decide

theorem eq_allOrNothing_of_discard (h : next mode result = .discard)
    (hmode : mode = allOrNothing ∨ mode = onlyOne ∨ mode = untilFailure ∨ mode = independent) :
    mode = allOrNothing := by
  rcases hmode with rfl | rfl | rfl | rfl
  · rfl
  all_goals
    revert h
    unfold next
    cases result.isTesSuccess <;> decide

/-- Where every attempt was applied, the report names them all. -/
theorem map_appliedInner {attempted : List (InnerTransaction V × Option Ter)}
    (h : ∀ attempt ∈ attempted, ∃ result, attempt.2 = some result ∧ result.isTesSuccess = true) :
    (appliedInner attempted).map Prod.fst = attempted.map Prod.fst ∧
      ∀ applied ∈ appliedInner attempted, applied.2.isTesSuccess = true := by
  induction attempted with
  | nil => exact ⟨rfl, by simp [appliedInner]⟩
  | cons attempt rest ih =>
    obtain ⟨result, hresult, htes⟩ := h attempt List.mem_cons_self
    obtain ⟨hmap, hall⟩ := ih fun attempt hmem => h attempt (List.mem_cons_of_mem _ hmem)
    have hcons : appliedInner (attempt :: rest) = (attempt.1, result) :: appliedInner rest := by
      simp [appliedInner, hresult, innerApplied, htes]
    rw [hcons]
    refine ⟨congrArg (attempt.1 :: ·) hmap, ?_⟩
    rintro applied (_ | ⟨_, hmem⟩)
    · exact htes
    · exact hall applied hmem

/-- Independent transactions are all attempted. -/
theorem attempted_independent {inners : List (InnerTransaction V)} {whole last : FlowSandbox V}
    (h : (runBatch dest independent inners whole).ending = .finished last) :
    (runBatch dest independent inners whole).attempted.map Prod.fst = inners := by
  refine (attempted_all (fun result => ?_) h).1
  rw [next_independent]
  exact Next.noConfusion

/-- A batch of all or nothing that comes to its end has applied everything. -/
theorem appliedInner_allOrNothing {inners : List (InnerTransaction V)} {whole last : FlowSandbox V}
    (h : (runBatch dest allOrNothing inners whole).ending = .finished last) :
    (appliedInner (runBatch dest allOrNothing inners whole).attempted).map Prod.fst = inners ∧
      ∀ applied ∈ appliedInner (runBatch dest allOrNothing inners whole).attempted,
        applied.2.isTesSuccess = true := by
  have hstop : ∀ result, next allOrNothing result ≠ .stop := by
    intro result
    rw [next_allOrNothing]
    split_ifs <;> exact Next.noConfusion
  obtain ⟨hnames, hresults⟩ := attempted_all hstop h
  have hsuccess : ∀ attempt ∈ (runBatch dest allOrNothing inners whole).attempted, ∃ result,
      attempt.2 = some result ∧ result.isTesSuccess = true := by
    intro attempt hmem
    obtain ⟨result, hresult, hgo⟩ := hresults attempt hmem
    rw [next_allOrNothing] at hgo
    split_ifs at hgo with htes
    exact ⟨result, hresult, htes⟩
  obtain ⟨hmap, happlied⟩ := map_appliedInner hsuccess
  exact ⟨hmap.trans hnames, happlied⟩

variable [LawfulApplyView V]

omit [LawfulApplyView V] in
theorem appliesInOrder_nil_of_alike {v view : V} (halike : Alike v view) :
    ∃ whole, AppliesInOrder dest (.new v) [] whole ∧ state view = state whole ∧
      destroyed view = destroyed v + destroyed whole := by
  refine ⟨.new v, .nil _, ?_, ?_⟩
  · rw [halike.state_eq]
    exact (ApplyStateTable.shown_new (state v)).symm
  · rw [halike.destroyed_eq]
    exact (add_zero _).symm

theorem Sound.finishBatch {v : V} {whole : FlowSandbox V} (hsound : Sound v whole)
    (hdry : ApplyView.dryRun v = false) (attempted : List (InnerTransaction V × Option Ter)) :
    (finishBatch attempted whole).attempted = attempted ∧
    ((Alike v (finishBatch attempted whole).view ∧
      ((finishBatch attempted whole).outcome = none ∨
        (finishBatch attempted whole).outcome = some ⟨.tefInternal, []⟩ ∨
        appliedInner attempted = [] ∧
          (finishBatch attempted whole).outcome = some ⟨.tesSuccess, []⟩)) ∨
    (finishBatch attempted whole).outcome = some ⟨.tesSuccess, appliedInner attempted⟩ ∧
      state (finishBatch attempted whole).view = state whole ∧
      destroyed (finishBatch attempted whole).view = destroyed v + destroyed whole) := by
  obtain ⟨halike, hflags⟩ := hsound.rooted
  have hsame : ∀ {e view}, whole.apply = .error e view → Alike v view := by
    intro e view happly
    have hprepared := (wp_applyImpl hsound.valid).error happly
    exact ⟨hprepared.valid, hprepared.state_eq.trans halike.state_eq,
      hprepared.destroyed_eq.trans halike.destroyed_eq, hprepared.dryRun_eq.trans halike.dryRun_eq⟩
  unfold OpenLedger.finishBatch
  split_ifs with hempty
  · exact ⟨rfl, .inl ⟨halike, .inr (.inr ⟨List.isEmpty_iff.mp hempty, rfl⟩)⟩⟩
  · split
    · rename_i view happly
      have hreplayed := (wp_applyImpl hsound.valid).ok happly
      refine ⟨rfl, .inr ⟨rfl, hreplayed.state_eq hsound.valid, ?_⟩⟩
      have hdryWhole : ApplyView.dryRun whole = false := by
        change whole.flags.getD (ApplyView.dryRun whole.parent) = false
        rw [hflags, halike.dryRun_eq]
        exact hdry
      rw [hreplayed.destroyed_eq, halike.destroyed_eq, burnt_eq hsound.drops_nonneg,
        hdryWhole]
      rfl
    · rename_i happly
      exact ⟨rfl, .inl ⟨hsame happly, .inl rfl⟩⟩
    · rename_i happly
      exact ⟨rfl, .inl ⟨hsame happly, .inr (.inl rfl)⟩⟩

omit [LawfulApplyView V] in
theorem sound_new {v : V} (hv : Valid v) (hform : EntriesWellFormed (state v)) :
    Sound v (.new v) where
  valid := valid_new hv
  drops_nonneg := le_rfl
  rooted := ⟨⟨hv, rfl, rfl, rfl⟩, rfl⟩
  wellFormed := by
    have hstate : state (FlowSandbox.new v) = state v := ApplyStateTable.shown_new (state v)
    rw [hstate]
    exact hform

/-- How a batch ends. The view is left alike, or the loop has finished and what it applied is
committed. -/
theorem followup_cases {v : V} (hv : Valid v) (hdry : ApplyView.dryRun v = false)
    (hform : EntriesWellFormed (state v)) (hdestination : dest ≠ .dryRun) {batch : Batch V}
    {inners : List (InnerTransaction V)} (hinners : batch.innerTransactions = some inners)
    {run : BatchRun V} (hrun : runBatch dest (batchMode batch.flags) inners (.new v) = run)
    {followup : BatchFollowup V}
    (hfollowup : applySubmitBatchFollowup dest batch v = followup) :
    followup.attempted = run.attempted ∧
    ((Alike v followup.view ∧ (followup.outcome = none ∨
        followup.outcome = some ⟨.tefInternal, []⟩ ∨
        (∃ result, next (batchMode batch.flags) result = .discard) ∧
          followup.outcome = some ⟨.tesSuccess, []⟩)) ∨
      ∃ last, run.ending = .finished last ∧
        followup.outcome = some ⟨.tesSuccess, appliedInner run.attempted⟩ ∧
        ∃ whole, AppliesInOrder dest (.new v) (appliedInner run.attempted) whole ∧
          state followup.view = state whole ∧
          destroyed followup.view = destroyed v + destroyed whole) := by
  have hsound : SoundRun v dest (.new v) run.attempted run.ending := by
    rw [← hrun]
    exact (sound_new hv hform).runBatch hdestination
  simp only [applySubmitBatchFollowup, hinners, hrun] at hfollowup
  rcases hending : run.ending with last | ⟨returned, last⟩ | last
  · rw [hending] at hfollowup hsound
    subst hfollowup
    obtain ⟨hlast, happlies⟩ := hsound
    obtain ⟨hattempted, hcase⟩ := hlast.finishBatch hdry run.attempted
    refine ⟨hattempted, ?_⟩
    rcases hcase with ⟨halike, hnone | hinternal | ⟨hempty, htes⟩⟩ | ⟨htes, hstate, hdestroyed⟩
    · exact .inl ⟨halike, .inl hnone⟩
    · exact .inl ⟨halike, .inr (.inl hinternal)⟩
    · refine .inr ⟨last, rfl, ?_, ?_⟩
      · rw [hempty]
        exact htes
      · rw [hempty]
        exact appliesInOrder_nil_of_alike halike
    · exact .inr ⟨last, rfl, htes, last, happlies, hstate, hdestroyed⟩
  · rw [hending] at hfollowup hsound
    subst hfollowup
    refine ⟨rfl, .inl ⟨hsound.1, .inr ?_⟩⟩
    rcases returned_cases (hrun ▸ hending) with rfl | ⟨rfl, hdiscard⟩
    · exact .inl rfl
    · exact .inr ⟨hdiscard, rfl⟩
  · rw [hending] at hfollowup hsound
    subst hfollowup
    exact ⟨rfl, .inl ⟨hsound.1, .inl rfl⟩⟩

omit [LawfulApplyView V] in
/-- A batch that passes preflight has a list of transactions and one mode. -/
theorem exists_of_preflight {batch : Batch V} {rules : BatchPreflightRules}
    (h : batch.preflight rules = .tesSuccess) :
    ∃ inners, batch.innerTransactions = some inners ∧ countOnes (batchMode batch.flags) = 1 := by
  unfold Batch.preflight at h
  split at h
  · cases h
  · rename_i inners hinners
    exact ⟨inners, hinners, countOnes_of_validate h⟩

/-- A batch that passed preflight does what its mode promises, whatever its transactions do. Where
the result is not a success the view is as it was. -/
theorem applySubmitBatchFollowup_keeps_mode (v : V) (hv : Valid v)
    (hdry : ApplyView.dryRun v = false) (hform : EntriesWellFormed (state v)) (batch : Batch V)
    (rules : BatchPreflightRules) (hpreflight : batch.preflight rules = .tesSuccess)
    (dest : BatchApplyDestination) (hdestination : dest ≠ .dryRun) :
    ∃ inners, batch.innerTransactions = some inners ∧
      KeepsMode dest (batchMode batch.flags) inners v
        (applySubmitBatchFollowup dest batch v) := by
  obtain ⟨inners, hinners, hcount⟩ := exists_of_preflight hpreflight
  have hmode := batchMode_cases hcount
  refine ⟨inners, hinners, ?_⟩
  obtain ⟨run, hrun⟩ : ∃ run,
    runBatch dest (batchMode batch.flags) inners (.new v) = run := ⟨_, rfl⟩
  obtain ⟨followup, hfollowup⟩ : ∃ followup,
    applySubmitBatchFollowup dest batch v = followup := ⟨_, rfl⟩
  obtain ⟨hattempted, hcase⟩ := followup_cases hv hdry hform hdestination hinners hrun hfollowup
  have hstops : ∀ before inner result after, followup.attempted =
      before ++ (inner, some result) :: after → next (batchMode batch.flags) result ≠ .go →
        after = [] := by
    intro before inner result after hsplit
    rw [hattempted, ← hrun] at hsplit
    exact attempted_stops hsplit
  rw [hfollowup]
  refine ⟨hmode, ?_, ?_, ?_, ?_, ?_, ?_, ?_, ?_, ?_⟩
  · rw [hattempted, ← hrun]
    exact map_attempted_isPrefix
  · intro huntil before inner result after hsplit hresult
    apply hstops before inner result after hsplit
    rw [huntil]
    exact next_ne_go_of_untilFailure hresult
  · intro honly before inner result after hsplit hresult
    apply hstops before inner result after hsplit
    rw [honly]
    exact next_ne_go_of_onlyOne hresult
  · intro hindependent outcome houtcome hresult
    rw [hattempted]
    rcases hcase with ⟨-, hnone | hinternal | ⟨⟨result, hdiscard⟩, -⟩⟩ | ⟨last, hfinished, -⟩
    · cases hnone.symm.trans houtcome
    · cases hinternal.symm.trans houtcome
      cases hresult
    · rw [hindependent, next_independent] at hdiscard
      cases hdiscard
    · rw [← hrun, hindependent] at hfinished ⊢
      exact attempted_independent hfinished
  · intro hwhole outcome houtcome
    rcases hcase with ⟨-, hnone | hinternal | ⟨-, htes⟩⟩ | ⟨last, hfinished, htes, -⟩
    · cases hnone.symm.trans houtcome
    · cases hinternal.symm.trans houtcome
      exact .inl rfl
    · cases htes.symm.trans houtcome
      exact .inl rfl
    · cases htes.symm.trans houtcome
      rw [← hrun, hwhole] at hfinished ⊢
      exact .inr (appliedInner_allOrNothing hfinished)
  · intro outcome houtcome hresult
    rw [hattempted]
    rcases hcase with ⟨-, hnone | hinternal | ⟨⟨result, hdiscard⟩, htes⟩⟩ | ⟨last, -, htes, -⟩
    · cases hnone.symm.trans houtcome
    · cases hinternal.symm.trans houtcome
      cases hresult
    · cases htes.symm.trans houtcome
      exact .inr ⟨eq_allOrNothing_of_discard hdiscard hmode, rfl⟩
    · cases htes.symm.trans houtcome
      exact .inl rfl
  · intro outcome houtcome
    rcases hcase with ⟨halike, hnone | hinternal | ⟨-, htes⟩⟩ | ⟨last, -, htes, happlies⟩
    · cases hnone.symm.trans houtcome
    · cases hinternal.symm.trans houtcome
      exact appliesInOrder_nil_of_alike halike
    · cases htes.symm.trans houtcome
      exact appliesInOrder_nil_of_alike halike
    · cases htes.symm.trans houtcome
      exact happlies
  · intro outcome houtcome hresult
    rcases hcase with ⟨halike, hnone | hinternal | ⟨-, htes⟩⟩ | ⟨last, -, htes, -⟩
    · cases hnone.symm.trans houtcome
    · cases hinternal.symm.trans houtcome
      exact ⟨halike, rfl⟩
    · cases htes.symm.trans houtcome
      exact absurd rfl hresult
    · cases htes.symm.trans houtcome
      exact absurd rfl hresult
  · intro hnone
    rcases hcase with ⟨halike, -⟩ | ⟨last, -, htes, -⟩
    · exact halike
    · cases hnone.symm.trans htes

variable {V : Type} [ApplyView V] [ApplyModel V] [LawfulApplyView V]

theorem writeEntry_wellFormed {sle : STLedgerEntry} (hsle : sle.WellFormed) {view : FlowSandbox V}
    (hv : Valid view) (hform : EntriesWellFormed (state view)) :
    EntriesWellFormed (state (view.writeEntry sle)) := by
  have hput : EntriesWellFormed ((state view).put sle) := by
    intro key found hfind
    rw [LedgerState.find_put] at hfind
    split_ifs at hfind
    · cases hfind
      exact hsle
    · exact hform key found hfind
  unfold FlowSandbox.writeEntry
  rw [LawfulReadView.exists_eq hv _ (Keylet.fits_any _ _)]
  split
  · rename_i hpres
    obtain ⟨_, hreplace, hmoves, -⟩ := FlowSandbox.rawReplace_eq hv sle (Except.ok.inj hpres)
    cases hreplace
    rw [hmoves.state_eq]
    exact hput
  · rename_i habsent
    obtain ⟨_, hinsert, hmoves, -⟩ := FlowSandbox.rawInsert_eq hv sle
      (by simpa using Except.ok.inj habsent)
    cases hinsert
    rw [hmoves.state_eq]
    exact hput
  · exact hform

/-- A transaction that writes one entry. -/
def sampleInner (sequence : UInt32) (sle : STLedgerEntry) (hsle : sle.WellFormed) (result : Ter) :
    InnerTransaction V where
  facts :=
    { transactionId := ⟨List.replicate 31 0 ++ [UInt8.ofNat sequence.toNat], rfl⟩
      txnType := 0
      flags := innerBatchTransactionFlag
      signatureFacts := ⟨false, false, true⟩
      counterpartySignatureFacts := none
      sponsor := none
      sponsorSignatureFacts := none
      feeIsSponsored := false
      feeIsNativeZero := true
      account := sampleAccount
      sequence
      ticketSequence := none
      isRawTransactionWrapped := true
      preflight := .tesSuccess }
  tx := sampleTx
  preflight _ := some .tesSuccess
  preclaim _ := some .tesSuccess
  shell _ view := (some result, view.writeEntry sle)
  shell_runs _ view := view.writeEntry_runs sle
  shell_wellFormed _ _ hv hform := writeEntry_wellFormed hsle hv hform

/-- A check where the ledger has an account root. -/
def sampleIntruder : STLedgerEntry := { sampleCheck with key := sampleRoot.key }

theorem sampleIntruder_wellFormed : sampleIntruder.WellFormed where
  threadable := ⟨STObject.typed_of_all (by decide), fun h => absurd h (by decide)⟩
  ownerCount_slot h := absurd h (by decide)
  states_type h := absurd h (by decide)

theorem sampleLedger_wellFormed : EntriesWellFormed (state sampleLedger) := by
  intro key sle hfind
  have hstate : state sampleLedger = LedgerState.empty.put sampleRoot := Sandbox.state_new _ false
  rw [hstate, LedgerState.find_put, LedgerState.find_empty] at hfind
  split_ifs at hfind
  cases hfind
  exact sampleRoot_wellFormed

/-- The second transaction only claims its fee. -/
def sampleBatch : Batch (Sandbox BaseView) where
  flags := untilFailure
  innerTransactions := some [sampleInner 1 sampleCheck sampleCheck_wellFormed .tesSuccess,
    sampleInner 2 sampleRoot sampleRoot_wellFormed .tecClaim,
    sampleInner 3 sampleCheck sampleCheck_wellFormed .tesSuccess]

theorem applySubmitBatchFollowup_keeps_mode_sampleBatch :
    (∃ inners, sampleBatch.innerTransactions = some inners ∧
      KeepsMode .open (batchMode sampleBatch.flags) inners sampleLedger
        (applySubmitBatchFollowup .open sampleBatch sampleLedger)) ∧
      (applySubmitBatchFollowup .open sampleBatch sampleLedger).attempted.length = 2 :=
  ⟨applySubmitBatchFollowup_keeps_mode sampleLedger sampleLedger_valid rfl sampleLedger_wellFormed
    sampleBatch ⟨true, true⟩ rfl .open (by decide), rfl⟩

/-- The first transaction puts an entry of another kind where the ledger has one. Its commit fails,
the batch returns, and the second transaction is never attempted. -/
theorem applySubmitBatchFollowup_independent_returns_early :
    ∃ (batch : Batch (Sandbox BaseView)) (inners : List (InnerTransaction (Sandbox BaseView))),
      batch.preflight ⟨true, true⟩ = .tesSuccess ∧ batchMode batch.flags = independent ∧
      batch.innerTransactions = some inners ∧ inners.length = 2 ∧
      (applySubmitBatchFollowup .open batch sampleLedger).attempted.length = 1 ∧
      (applySubmitBatchFollowup .open batch sampleLedger).outcome.map
        BatchFollowupOutcome.result = some .tefInternal :=
  ⟨⟨independent, some [sampleInner 1 sampleIntruder sampleIntruder_wellFormed .tesSuccess,
    sampleInner 2 sampleCheck sampleCheck_wellFormed .tesSuccess]⟩, _, rfl, rfl, rfl, rfl, rfl, rfl⟩

end Quaxar.OpenLedger
