import Quaxar.Views.FlowSandbox
import Quaxar.Views.RawStateTable

/-!
# Committing a sandbox

Once the entries of a sandbox are validated, replaying them cannot fail: every key is
replayed once, and the parent stands at it as the entry's action promises. So `apply`
either makes the parent read as the sandbox did, or leaves its state as it was.
-/

namespace Quaxar.Views

open Std (ExtTreeMap)

open ReadModel ApplyModel
open EStateM (wp_bind wp_forM wp_of_ok)
open ApplyStateTable (shows_isSome shows_of_ne)
open LawfulReadView (exists_eq succ_eq)
open LawfulApplyView (peek_eq insert_eq destroyXrp_eq read_checkedOut exists_checkedOut erase_eq
  update_eq)

section Alike

variable {V : Type} [ApplyView V] [ApplyModel V]

/-- Views of one state and one sum of destroyed drops. -/
structure Alike (v w : V) : Prop where
  valid : Valid w
  state_eq : state w = state v
  destroyed_eq : destroyed w = destroyed v
  dryRun_eq : ApplyView.dryRun w = ApplyView.dryRun v

/-- `w` is `v` after reads: it answers a keylet alike unless it has checked out the key. -/
structure Unwritten (v w : V) : Prop extends Alike v w where
  checkedOut : ∀ a, ((state v).find a).isSome = true → CheckedOut v a → CheckedOut w a
  reads : ∀ k, CheckedOut w k.key ∨ SameReads v w k

variable {u v w : V}

theorem Unwritten.refl (hv : Valid v) : Unwritten v v :=
  ⟨⟨hv, rfl, rfl, rfl⟩, fun _ _ h => h, fun k => .inr (.refl v k)⟩

/-- A peek leaves the view untouched. -/
theorem Unwritten.of_peek {k : Keylet} {found : Option STLedgerEntry} (hv : Valid v)
    (hmoves : Moves v w (state v) (destroyed v) (some k.key))
    (hout : found.isSome → CheckedOut w k.key) (hsame : found = none → w = v) :
    Unwritten v w := by
  cases found with
  | none =>
    rw [hsame rfl]
    exact .refl hv
  | some sle =>
    refine ⟨⟨hmoves.valid, hmoves.state_eq, hmoves.destroyed_eq, hmoves.dryRun_eq⟩,
      hmoves.checkedOut, fun other => ?_⟩
    by_cases hkey : k.key = other.key
    · exact .inl (hkey ▸ hout rfl)
    · exact .inr (hmoves.frame other (by simpa using hkey))

variable [LawfulApplyView V]

/-- Where nothing is, every keylet finds nothing. -/
theorem Alike.sameReads_of_none (hv : Valid v) (h : Alike v w) {k : Keylet}
    (hnone : (state v).find k.key = none) : SameReads v w k := by
  have hfits : k.Fits ((state v).find k.key) := hnone ▸ k.fits_none
  have hfits' : k.Fits ((state w).find k.key) := h.state_eq ▸ hfits
  constructor
  · rw [LawfulReadView.read_eq h.valid hfits', LawfulReadView.read_eq hv hfits, h.state_eq]
  · rw [exists_eq h.valid k hfits', exists_eq hv k hfits, h.state_eq]

theorem Unwritten.trans (hu : Valid u) (h : Unwritten u v) (h' : Unwritten v w) :
    Unwritten u w := by
  have halike : Alike u w := ⟨h'.valid, h'.state_eq.trans h.state_eq,
    h'.destroyed_eq.trans h.destroyed_eq, h'.dryRun_eq.trans h.dryRun_eq⟩
  have hout : ∀ a, ((state u).find a).isSome = true → CheckedOut v a → CheckedOut w a :=
    fun a ha => h'.checkedOut a (h.state_eq ▸ ha)
  refine ⟨halike, fun a ha hcheck => hout a ha (h.checkedOut a ha hcheck), fun k => ?_⟩
  rcases hfind : (state u).find k.key with _ | sle
  · exact .inr (halike.sameReads_of_none hu hfind)
  · rcases h'.reads k with hcheck | hsame
    · exact .inl hcheck
    · rcases h.reads k with hcheck | hsame'
      · exact .inl (hout _ (by rw [hfind]; rfl) hcheck)
      · exact .inr (hsame'.trans hsame)

/-- The answer changes exactly where a checked out entry was not found before. -/
theorem Unwritten.read_eq_iff (h : Unwritten v w) (k : Keylet) :
    ReadView.read w k = ReadView.read v k ↔
      (CheckedOut w k.key →
        ReadView.read v k = .ok ((state v).find k.key)) := by
  have hshown : CheckedOut w k.key →
      ReadView.read w k = .ok ((state v).find k.key) := by
    intro hout
    rw [read_checkedOut h.valid k hout, h.state_eq]
  constructor
  · intro heq hout
    rw [← heq, hshown hout]
  · intro himp
    rcases h.reads k with hout | hsame
    · rw [hshown hout, himp hout]
    · exact hsame.read_eq

theorem Unwritten.exists_eq_iff (h : Unwritten v w) (k : Keylet) :
    ReadView.exists w k = ReadView.exists v k ↔
      (CheckedOut w k.key →
        ReadView.exists v k = .ok ((state v).find k.key).isSome) := by
  have hshown : CheckedOut w k.key →
      ReadView.exists w k = .ok ((state v).find k.key).isSome := by
    intro hout
    rw [exists_checkedOut h.valid k hout, h.state_eq]
  constructor
  · intro heq hout
    rw [← heq, hshown hout]
  · intro himp
    rcases h.reads k with hout | hsame
    · rw [hshown hout, himp hout]
    · exact hsame.exists_eq

end Alike

namespace FlowSandbox

variable {V : Type} [ApplyView V] [ApplyModel V] [LawfulApplyView V] {sb : FlowSandbox V}
  {done rest : List (Uint256 × Entry)} {item : Uint256 × Entry} {v v' : V}

/-- The parent has been read and checked out at the keys of `done`, and not been changed. -/
structure Prepared (sb : FlowSandbox V) (done : List (Uint256 × Entry)) (v : V) : Prop
    extends Unwritten sb.parent v where
  checkedOut_done : ∀ item ∈ done, item.2.action ≠ .insert → CheckedOut v item.1
  frame : ∀ k, k.key ∉ sb.items → SameReads sb.parent v k

omit [LawfulApplyView V] in
theorem prepared_nil (hv : Valid sb) : Prepared sb [] sb.parent :=
  ⟨.refl hv.1, by simp, fun _ _ => .refl ..⟩

omit [ApplyView V] [ApplyModel V] [LawfulApplyView V] in
theorem mem_items_of_mem (h : item ∈ sb.items.toList) : item.1 ∈ sb.items :=
  OrderedMap.mem_iff_exists.mpr
    ⟨item.2, ExtTreeMap.mem_toList_iff_getElem?_eq_some.mp h⟩

omit [ApplyView V] [LawfulApplyView V] in
theorem fits_of_mem (hv : Valid sb) (h : item ∈ sb.items.toList) :
    item.2.sle.key = item.1 ∧
      item.2.action.toTableAction.Fits ((state sb.parent).find item.1) item.2.sle := by
  have hitem : sb.items[item.1]? = some item.2 :=
    ExtTreeMap.mem_toList_iff_getElem?_eq_some.mp h
  exact hv.2 item.1 item.2.toStateEntry (by rw [getElem?_table, hitem]; rfl)

omit [ApplyView V] [LawfulApplyView V] in
theorem isSome_of_mem (hv : Valid sb) (h : item ∈ sb.items.toList)
    (hact : item.2.action ≠ .insert) : ((state sb.parent).find item.1).isSome = true := by
  have hfits := (fits_of_mem hv h).2
  rcases hcases : item.2.action with _ | _ | _
  · exact absurd hcases hact
  · rw [hcases] at hfits
    exact hfits
  · rw [hcases] at hfits
    exact hfits

omit [LawfulApplyView V] in
/-- A move at a key of the sandbox does not show at the keys that are not in it. -/
theorem reads_parent {next : LedgerState} {drops : XRPAmount} {key : Uint256}
    (hmoves : Moves v v' next drops (some key)) (hkey : key ∈ sb.items)
    (h : ∀ k, k.key ∉ sb.items → SameReads sb.parent v k)
    (k : Keylet) (hkeylet : k.key ∉ sb.items) :
    SameReads sb.parent v' k := by
  refine (h k hkeylet).trans (hmoves.frame k ?_)
  intro heq
  rw [Option.some.inj heq] at hkey
  exact hkeylet hkey

theorem Prepared.peek (hv : Valid sb) (h : Prepared sb done v) {k : Keylet}
    (hkey : k.key ∈ sb.items) (hdone : ∀ item ∈ done, item ∈ sb.items.toList)
    (hmoves : Moves v v' (state v) (destroyed v) (some k.key)) (hpeek : Unwritten v v') :
    Prepared sb done v' where
  toUnwritten := h.toUnwritten.trans hv.1 hpeek
  checkedOut_done item hitem hact := by
    apply hpeek.checkedOut item.1 _ (h.checkedOut_done item hitem hact)
    rw [h.state_eq]
    exact isSome_of_mem hv (hdone item hitem) hact
  frame := reads_parent hmoves hkey h.frame

theorem wp_validateEntry (operation : String) (hv : Valid sb)
    (hitems : sb.items.toList = done ++ item :: rest) (h : Prepared sb done v) :
    (validateEntry operation item).wp (fun _ v => Prepared sb (done ++ [item]) v)
      (fun _ v => Prepared sb done v) v := by
  have hmem : item ∈ sb.items.toList := by simp [hitems]
  have hdone : ∀ other ∈ done, other ∈ sb.items.toList := by
    intro other hother
    simp [hitems, hother]
  obtain ⟨found, v', hread, hpeek, hmoves, hout, hsame⟩ :=
    peek_eq h.valid ⟨item.2.sle.entryType, item.1⟩
  have hprepared := h.peek hv (mem_items_of_mem hmem) hdone hmoves
    (.of_peek h.valid hmoves hout hsame)
  unfold validateEntry
  simp only [wp_bind, EStateM.wp_get, hread, EStateM.wp_ofExcept_ok]
  -- whatever has been found, the entry is rejected, passed over or checked out
  have hpeeked : found.isSome = true →
      ((do let _ ← ApplyView.peek (V := V) ⟨item.2.sle.entryType, item.1⟩) :
        EStateM ViewError V Unit).wp (fun _ v => Prepared sb (done ++ [item]) v)
        (fun _ v => Prepared sb done v) v := by
    intro hsome
    rw [wp_bind, wp_of_ok hpeek]
    refine { hprepared with checkedOut_done := ?_ }
    intro other hother hact
    rcases List.mem_append.mp hother with hother | hother
    · exact hprepared.checkedOut_done other hother hact
    · rw [List.mem_singleton.mp hother]
      exact hout hsome
  rcases hact : item.2.action with _ | _ | _
  · cases found with
    | some sle => exact h
    | none =>
      refine { h with checkedOut_done := ?_ }
      intro other hother hne
      rcases List.mem_append.mp hother with hother | hother
      · exact h.checkedOut_done other hother hne
      · rw [List.mem_singleton.mp hother] at hne
        exact absurd hact hne
  · cases found with
    | some sle => exact hpeeked rfl
    | none => exact h
  · cases found with
    | some sle => exact hpeeked rfl
    | none => exact h

theorem wp_validateParentCommit (operation : String) (hv : Valid sb) :
    (validateParentCommit operation sb.items).wp
      (fun _ v => Prepared sb sb.items.toList v)
      (fun _ v => Prepared sb [] v) sb.parent := by
  have hloop := wp_forM (E := fun _ v => Prepared sb [] v) (validateEntry operation)
    (fun rest v => ∃ done, sb.items.toList = done ++ rest ∧ Prepared sb done v) (by
      rintro item rest v ⟨done, hitems, h⟩
      refine (wp_validateEntry operation hv hitems h).mono ?_ ?_
      · intro _ v' h'
        exact ⟨done ++ [item], by simp [hitems], h'⟩
      · intro _ v' h'
        exact { h' with checkedOut_done := by simp })
    sb.items.toList ⟨[], rfl, prepared_nil hv⟩
  refine hloop.mono ?_ fun _ _ h => h
  rintro _ v ⟨done, hitems, h⟩
  rw [List.append_nil] at hitems
  rwa [hitems]

/-- The entries of `done` have been replayed, those that follow are checked out. -/
structure Replayed (sb : FlowSandbox V) (drops : XRPAmount)
    (done rest : List (Uint256 × Entry)) (v : V) : Prop where
  valid : Valid v
  destroyed_eq : destroyed v = drops
  dryRun_eq : ApplyView.dryRun v = ApplyView.dryRun sb.parent
  find_done : ∀ item ∈ done, (state v).find item.1 = item.2.toStateEntry.shows
  find_other : ∀ a, a ∉ done.map Prod.fst → (state v).find a = (state sb.parent).find a
  checkedOut_done : ∀ item ∈ done, item.2.action ≠ .erase → CheckedOut v item.1
  checkedOut_rest : ∀ item ∈ rest, item.2.action ≠ .insert → CheckedOut v item.1
  frame : ∀ k, k.key ∉ sb.items → SameReads sb.parent v k

omit [ApplyView V] [ApplyModel V] [LawfulApplyView V] in
theorem nodup_split (hitems : sb.items.toList.Perm (done ++ item :: rest)) :
    item.1 ∉ done.map Prod.fst ∧ (∀ other ∈ rest, item.1 ≠ other.1) ∧
      ∀ other ∈ rest, other.1 ∉ done.map Prod.fst := by
  have hnodup := (hitems.map Prod.fst).nodup_iff.mp (OrderedMap.nodup_keys_toList sb.items)
  rw [List.map_append, List.nodup_append, List.map_cons, List.nodup_cons] at hnodup
  obtain ⟨-, ⟨hitem, -⟩, hdisj⟩ := hnodup
  refine ⟨?_, ?_, ?_⟩
  · intro hmem
    exact hdisj _ hmem _ List.mem_cons_self rfl
  · intro other hother heq
    exact hitem (heq ▸ List.mem_map_of_mem hother)
  · intro other hother hmem
    exact hdisj _ hmem _ (List.mem_cons_of_mem _ (List.mem_map_of_mem hother)) rfl

omit [LawfulApplyView V] in
theorem Replayed.perm {drops : XRPAmount} {done' : List (Uint256 × Entry)}
    (h : Replayed sb drops done rest v) (hperm : done.Perm done') :
    Replayed sb drops done' rest v :=
  { h with
    find_done := fun item hitem => h.find_done item (hperm.mem_iff.mpr hitem)
    find_other := fun a ha => h.find_other a fun hmem => ha ((hperm.map _).mem_iff.mp hmem)
    checkedOut_done := fun item hitem => h.checkedOut_done item (hperm.mem_iff.mpr hitem) }

section Entry

variable {drops : XRPAmount} (hv : Valid sb)
  (hitems : sb.items.toList.Perm (done ++ item :: rest))
  (h : Replayed sb drops done (item :: rest) v)

include hv hitems h

omit [LawfulApplyView V] in
/-- A move that settles one more key. -/
theorem Replayed.step {next : LedgerState}
    (hmoves : Moves v v' next (destroyed v) (some item.1))
    (hnext : ∀ a, next.find a = if item.1 = a then item.2.toStateEntry.shows else (state v).find a)
    (hout : item.2.action ≠ .erase → CheckedOut v' item.1) :
    Replayed sb drops (done ++ [item]) rest v' := by
  obtain ⟨hfresh, hrest, hother⟩ := nodup_split hitems
  have hdone : ∀ other ∈ done, item.1 ≠ other.1 := by
    intro other hmem heq
    exact hfresh (heq ▸ List.mem_map_of_mem hmem)
  refine ⟨hmoves.valid, hmoves.destroyed_eq.trans h.destroyed_eq,
    hmoves.dryRun_eq.trans h.dryRun_eq, ?_, ?_, ?_, ?_, ?_⟩
  · intro other hmem
    rw [hmoves.state_eq, hnext]
    rcases List.mem_append.mp hmem with hmem | hmem
    · rw [if_neg (hdone other hmem)]
      exact h.find_done other hmem
    · rw [List.mem_singleton.mp hmem, if_pos rfl]
  · intro a ha
    rw [List.map_append, List.mem_append, not_or, List.map_singleton, List.mem_singleton] at ha
    rw [hmoves.state_eq, hnext, if_neg (Ne.symm ha.2)]
    exact h.find_other a ha.1
  · intro other hmem hact
    rcases List.mem_append.mp hmem with hmem | hmem
    · apply hmoves.checkedOut other.1 _ (h.checkedOut_done other hmem hact)
      rw [hnext, if_neg (hdone other hmem), h.find_done other hmem,
        shows_isSome]
      simpa [Entry.toStateEntry, toTableAction_eq_erase] using hact
    · rw [List.mem_singleton.mp hmem] at hact ⊢
      exact hout hact
  · intro other hmem hact
    apply hmoves.checkedOut other.1 _
      (h.checkedOut_rest other (List.mem_cons_of_mem item hmem) hact)
    rw [hnext, if_neg (hrest other hmem), h.find_other _ (hother other hmem)]
    exact isSome_of_mem hv (hitems.mem_iff.mpr (by simp [hmem])) hact
  · exact reads_parent hmoves (mem_items_of_mem (hitems.mem_iff.mpr (by simp))) h.frame

/-- A modified or erased entry is found again where it was checked out. -/
theorem Replayed.peek (hact : item.2.action ≠ .insert)
    (entryType : LedgerEntryType) :
    ∃ sle v', ApplyView.peek ⟨entryType, item.1⟩ v = .ok (some sle) v' ∧
      (state sb.parent).find item.1 = some sle ∧
      Replayed sb drops done (item :: rest) v' := by
  obtain ⟨hfresh, -, hother⟩ := nodup_split hitems
  have hmem : item ∈ sb.items.toList := hitems.mem_iff.mpr (by simp)
  have hsome := isSome_of_mem hv hmem hact
  rw [Option.isSome_iff_exists] at hsome
  obtain ⟨sle, hsle⟩ := hsome
  obtain ⟨found, v', hread, hpeek, hmoves, -⟩ :=
    peek_eq h.valid ⟨entryType, item.1⟩
  rw [read_checkedOut h.valid ⟨entryType, item.1⟩
    (h.checkedOut_rest item List.mem_cons_self hact)] at hread
  have hfound : found = some sle := by
    rw [← Except.ok.inj hread, ← hsle]
    exact h.find_other item.1 hfresh
  refine ⟨sle, v', hfound ▸ hpeek, hsle, ⟨hmoves.valid,
    hmoves.destroyed_eq.trans h.destroyed_eq, hmoves.dryRun_eq.trans h.dryRun_eq,
    ?_, ?_, ?_, ?_, ?_⟩⟩
  · rw [hmoves.state_eq]
    exact h.find_done
  · rw [hmoves.state_eq]
    exact h.find_other
  · intro other hmem hne
    apply hmoves.checkedOut other.1 _ (h.checkedOut_done other hmem hne)
    rw [h.find_done other hmem, shows_isSome]
    simpa [Entry.toStateEntry, toTableAction_eq_erase] using hne
  · intro other hmem hne
    apply hmoves.checkedOut other.1 _ (h.checkedOut_rest other hmem hne)
    have hnot : other.1 ∉ done.map Prod.fst := by
      rcases List.mem_cons.mp hmem with rfl | hmem
      · exact hfresh
      · exact hother other hmem
    rw [h.find_other other.1 hnot]
    exact isSome_of_mem hv (hitems.mem_iff.mpr (List.mem_append_right _ hmem)) hne
  · exact reads_parent hmoves (mem_items_of_mem hmem) h.frame

theorem Replayed.insert (hact : item.2.action = .insert) :
    ∃ v', ApplyView.insert item.2.sle v = .ok () v' ∧
      Replayed sb drops (done ++ [item]) rest v' := by
  have hmem : item ∈ sb.items.toList := hitems.mem_iff.mpr (by simp)
  obtain ⟨hkey, hfits⟩ := fits_of_mem hv hmem
  rw [hact] at hfits
  obtain ⟨v', hinsert, hmoves, hout⟩ := insert_eq h.valid item.2.sle (by
    rw [hkey, h.find_other item.1 (nodup_split hitems).1]
    exact hfits)
  rw [hkey] at hmoves hout
  refine ⟨v', hinsert, h.step hv hitems hmoves ?_ fun _ => hout⟩
  intro a
  rw [LedgerState.find_put, hkey, shows_of_ne
    (by simp [Entry.toStateEntry, hact, Action.toTableAction])]
  rfl

theorem Replayed.update (hact : item.2.action = .modify) :
    ∃ v', ApplyView.update item.2.sle v = .ok () v' ∧
      Replayed sb drops (done ++ [item]) rest v' := by
  have hmem : item ∈ sb.items.toList := hitems.mem_iff.mpr (by simp)
  obtain ⟨hkey, -⟩ := fits_of_mem hv hmem
  have hout := h.checkedOut_rest item List.mem_cons_self (by simp [hact])
  obtain ⟨v', hupdate, hmoves⟩ := update_eq h.valid item.2.sle (by
    rw [hkey, h.find_other item.1 (nodup_split hitems).1]
    exact isSome_of_mem hv hmem (by simp [hact])) (by rwa [hkey])
  rw [hkey] at hmoves
  have hnext : ∀ a, ((state v).put item.2.sle).find a =
      if item.1 = a then item.2.toStateEntry.shows else (state v).find a := by
    intro a
    rw [LedgerState.find_put, hkey, shows_of_ne
      (by simp [Entry.toStateEntry, hact, Action.toTableAction])]
    rfl
  refine ⟨v', hupdate, h.step hv hitems hmoves hnext fun _ => hmoves.checkedOut item.1 ?_ hout⟩
  rw [hnext, if_pos rfl, shows_isSome]
  simp [Entry.toStateEntry, hact, Action.toTableAction]

theorem Replayed.erase (hact : item.2.action = .erase) :
    ∃ v', ApplyView.erase item.2.sle v = .ok () v' ∧
      Replayed sb drops (done ++ [item]) rest v' := by
  have hmem : item ∈ sb.items.toList := hitems.mem_iff.mpr (by simp)
  obtain ⟨hkey, -⟩ := fits_of_mem hv hmem
  have hout := h.checkedOut_rest item List.mem_cons_self (by simp [hact])
  obtain ⟨v', herase, hmoves⟩ := erase_eq h.valid item.2.sle (by
    rw [hkey, h.find_other item.1 (nodup_split hitems).1]
    exact isSome_of_mem hv hmem (by simp [hact])) (by rwa [hkey])
  rw [hkey] at hmoves
  refine ⟨v', herase, h.step hv hitems hmoves ?_ fun hne => absurd hact hne⟩
  intro a
  rw [LedgerState.find_remove, ApplyStateTable.shows_of_erase
    (by simp [Entry.toStateEntry, hact, Action.toTableAction])]

omit [LawfulApplyView V] in
/-- An entry that the parent has already is replayed by leaving it there. -/
theorem Replayed.skip (hact : item.2.action = .modify)
    (hsame : (state sb.parent).find item.1 = some item.2.sle) :
    Replayed sb drops (done ++ [item]) rest v := by
  have hout := h.checkedOut_rest item List.mem_cons_self (by simp [hact])
  have hmoves : Moves v v (state v) (destroyed v) (some item.1) :=
    ⟨h.valid, rfl, rfl, rfl, fun _ _ hout => hout, fun _ _ => .refl ..⟩
  refine h.step hv hitems hmoves ?_ fun _ => hout
  intro a
  split_ifs with ha
  · rw [← ha, h.find_other item.1 (nodup_split hitems).1, hsame, shows_of_ne
      (by simp [Entry.toStateEntry, hact, Action.toTableAction])]
    rfl
  · rfl

theorem wp_applyEntry :
    (applyEntry item).wp (fun _ v => Replayed sb drops (done ++ [item]) rest v)
      (fun _ _ => False) v := by
  unfold applyEntry
  rcases hact : item.2.action with _ | _ | _
  · obtain ⟨v', hinsert, h'⟩ := h.insert hv hitems hact
    rwa [wp_of_ok hinsert]
  · obtain ⟨sle, v₁, hpeek, -, h₁⟩ :=
      h.peek hv hitems (by simp [hact]) item.2.sle.entryType
    obtain ⟨v', hupdate, h'⟩ := h₁.update hv hitems hact
    simp only [wp_bind, wp_of_ok hpeek, Option.isNone_some, Bool.false_eq_true,
      if_false]
    rwa [wp_of_ok hupdate]
  · obtain ⟨sle, v₁, hpeek, -, h₁⟩ :=
      h.peek hv hitems (by simp [hact]) item.2.sle.entryType
    obtain ⟨v', herase, h'⟩ := h₁.erase hv hitems hact
    simp only [wp_bind, wp_of_ok hpeek, Option.isNone_some, Bool.false_eq_true,
      if_false]
    rwa [wp_of_ok herase]

end Entry

omit [LawfulApplyView V] in
theorem Prepared.replayed (hv : Valid sb) (h : Prepared sb sb.items.toList v)
    {drops : XRPAmount} (hmoves : Moves v v' (state v) drops none) :
    Replayed sb drops [] sb.items.toList v' where
  valid := hmoves.valid
  destroyed_eq := hmoves.destroyed_eq
  dryRun_eq := hmoves.dryRun_eq.trans h.dryRun_eq
  find_done := by simp
  find_other a _ := by rw [hmoves.state_eq, h.state_eq]
  checkedOut_done := by simp
  checkedOut_rest item hitem hact := by
    apply hmoves.checkedOut item.1 _ (h.checkedOut_done item hitem hact)
    rw [h.state_eq]
    exact isSome_of_mem hv hitem hact
  frame k hkeylet := (h.frame k hkeylet).trans (hmoves.frame k (by simp))

/-- The drops that `apply` burns in the parent. -/
def burnt (sb : FlowSandbox V) : XRPAmount :=
  if 0 < sb.dropsDestroyed ∧ ApplyView.dryRun sb = false then sb.dropsDestroyed
  else 0

theorem wp_applyDrops (hv : Valid sb) (h : Prepared sb sb.items.toList v) :
    sb.applyDrops.wp
      (fun _ v => Replayed sb (destroyed sb.parent + sb.burnt) []
        sb.items.toList v)
      (fun _ v => Prepared sb [] v) v := by
  unfold applyDrops burnt
  split_ifs with hburn
  · rcases destroyXrp_eq h.valid sb.dropsDestroyed with
      ⟨v', hdestroy, hmoves⟩ | ⟨e, hdestroy⟩
    · rw [wp_of_ok hdestroy, ← h.destroyed_eq]
      exact h.replayed hv hmoves
    · rw [EStateM.wp_of_error hdestroy]
      exact { h with checkedOut_done := by simp }
  · rw [EStateM.wp_pure, add_zero, ← h.destroyed_eq]
    exact h.replayed hv ⟨h.valid, rfl, rfl, rfl, fun _ _ h => h, fun _ _ => .refl ..⟩

/-- Either every entry is replayed, or the parent is as it was. -/
theorem wp_applyImpl (hv : Valid sb) :
    sb.applyImpl.wp
      (fun _ v => Replayed sb (destroyed sb.parent + sb.burnt)
        sb.items.toList [] v)
      (fun _ v => Prepared sb [] v) sb.parent := by
  unfold applyImpl
  rw [wp_bind]
  refine (wp_validateParentCommit "FlowSandbox::apply" hv).mono ?_ fun _ _ h => h
  intro _ v₁ h₁
  rw [wp_bind]
  refine (wp_applyDrops hv h₁).mono ?_ fun _ _ h => h
  intro _ v₂ h₂
  have hloop := wp_forM (E := fun _ _ => False) applyEntry
    (fun rest v => ∃ done, sb.items.toList.Perm (done ++ rest) ∧
      Replayed sb (destroyed sb.parent + sb.burnt) done rest v) (by
      rintro item rest v ⟨done, hitems, h⟩
      refine (wp_applyEntry hv hitems h).mono ?_ fun _ _ h => h
      intro _ v' h'
      exact ⟨done ++ [item], by simpa using hitems, h'⟩)
    sb.items.toList ⟨[], by simp, h₂⟩
  refine hloop.mono ?_ fun _ _ h => h.elim
  rintro _ v ⟨done, hitems, h⟩
  rw [List.append_nil] at hitems
  exact h.perm hitems.symm

variable {drops : XRPAmount}

omit [LawfulApplyView V] in
theorem Replayed.state_eq (hv : Valid sb)
    (h : Replayed sb drops sb.items.toList [] v) : state v = state sb := by
  apply LedgerState.ext
  intro a
  rcases hitem : sb.items[a]? with _ | entry
  · rw [find_of_no_item hv hitem]
    apply h.find_other
    rw [List.mem_map]
    rintro ⟨⟨b, entry⟩, hb, rfl⟩
    rw [ExtTreeMap.mem_toList_iff_getElem?_eq_some, hitem] at hb
    cases hb
  · rw [(fits_of_item hv hitem).2,
      h.find_done (a, entry) (ExtTreeMap.mem_toList_iff_getElem?_eq_some.mpr hitem)]
    simp [StateEntry.shows, Entry.toStateEntry, toTableAction_eq_erase]

/-- The parent answers as the sandbox did, at every keylet. -/
theorem Replayed.sameReads (hv : Valid sb)
    (h : Replayed sb drops sb.items.toList [] v) (k : Keylet) :
    SameReads sb v k := by
  rcases hitem : sb.items[k.key]? with _ | entry
  · refine SameReads.trans ⟨?_, ?_⟩ (h.frame k (by simpa using hitem))
    · change _ = sb.read k
      rw [read, hitem]
    · change _ = sb.exists k
      rw [FlowSandbox.exists, hitem]
  · have hmem : (k.key, entry) ∈ sb.items.toList :=
      ExtTreeMap.mem_toList_iff_getElem?_eq_some.mpr hitem
    have hout : k.key ∈ sb.table.items :=
      (mem_table sb).mpr (OrderedMap.mem_iff_exists.mpr ⟨entry, hitem⟩)
    -- an erased key is absent in the parent, any other one is checked out there
    have hparent : ReadView.read v k = .ok ((state v).find k.key) ∧
        ReadView.exists v k = .ok ((state v).find k.key).isSome := by
      by_cases hact : entry.action = .erase
      · have hfits : k.Fits ((state v).find k.key) := by
          rw [h.state_eq hv, (fits_of_item hv hitem).2, if_pos hact]
          exact k.fits_none
        exact ⟨LawfulReadView.read_eq h.valid hfits, exists_eq h.valid k hfits⟩
      · have hcheck := h.checkedOut_done _ hmem hact
        exact ⟨read_checkedOut h.valid k hcheck, exists_checkedOut h.valid k hcheck⟩
    constructor
    · rw [hparent.1, h.state_eq hv]
      exact ((sb.read_eq_table k).trans (ApplyStateTable.read_of_some hv.2 hout)).symm
    · rw [hparent.2, h.state_eq hv]
      exact ((sb.exists_eq_table k).trans
        (ApplyStateTable.exists_of_some hv.2 hout)).symm

end FlowSandbox

/-- Histories of a sandbox: absent keys are inserted, present ones updated and erased,
drops destroyed, and sandboxes nested in it are applied, fail to apply, or are dropped. -/
inductive FlowSandbox.Runs : (V : Type) → [ApplyView V] → FlowSandbox V → FlowSandbox V → Prop
  | refl {V : Type} [ApplyView V] (s : FlowSandbox V) : Runs V s s
  | peek {V : Type} [ApplyView V] {s t u : FlowSandbox V} (k : Keylet)
      {found : Option STLedgerEntry} (hruns : Runs V s t)
      (hpeek : ApplyView.peek k t = .ok found u) : Runs V s u
  | insert {V : Type} [ApplyView V] {s t u : FlowSandbox V} (sle : STLedgerEntry)
      (hruns : Runs V s t) (habsent : ReadView.exists t ⟨.any, sle.key⟩ = .ok false)
      (hinsert : ApplyView.insert sle t = .ok () u) : Runs V s u
  | update {V : Type} [ApplyView V] {s t u : FlowSandbox V} (sle : STLedgerEntry)
      (hruns : Runs V s t) (hpres : ReadView.exists t ⟨.any, sle.key⟩ = .ok true)
      (hupdate : ApplyView.update sle t = .ok () u) : Runs V s u
  | erase {V : Type} [ApplyView V] {s t u : FlowSandbox V} (sle : STLedgerEntry)
      (hruns : Runs V s t) (hpres : ReadView.exists t ⟨.any, sle.key⟩ = .ok true)
      (herase : ApplyView.erase sle t = .ok () u) : Runs V s u
  | destroyXrp {V : Type} [ApplyView V] {s t u : FlowSandbox V} (fee : XRPAmount)
      (hruns : Runs V s t) (hfee : 0 ≤ fee)
      (hdestroy : ApplyView.destroyXrp fee t = .ok () u) : Runs V s u
  | applied {V : Type} [ApplyView V] {s t u : FlowSandbox V} {child : FlowSandbox (FlowSandbox V)}
      (hruns : Runs V s t) (hchild : Runs (FlowSandbox V) (.new t) child)
      (happly : child.apply = .ok () u) : Runs V s u
  | failed {V : Type} [ApplyView V] {s t u : FlowSandbox V} {child : FlowSandbox (FlowSandbox V)}
      {e : ViewError} (hruns : Runs V s t) (hchild : Runs (FlowSandbox V) (.new t) child)
      (happly : child.apply = .error e u) : Runs V s u
  | dropped {V : Type} [ApplyView V] {s t : FlowSandbox V} {child : FlowSandbox (FlowSandbox V)}
      (hruns : Runs V s t) (hchild : Runs (FlowSandbox V) (.new t) child) : Runs V s child.parent

namespace FlowSandbox

variable {V : Type} [ApplyView V]

/-- A property that peeking does not change, whether it returns or fails. -/
def PeekStable (P : V → Prop) : Prop :=
  ∀ k v, P v → (ApplyView.peek k).wp (fun _ => P) (fun _ => P) v

/-- A property that no operation changes. -/
structure Stable (P : V → Prop) : Prop where
  peek : PeekStable P
  insert : ∀ sle v, P v → (ApplyView.insert sle).wp (fun _ => P) (fun _ => P) v
  update : ∀ sle v, P v → (ApplyView.update sle).wp (fun _ => P) (fun _ => P) v
  erase : ∀ sle v, P v → (ApplyView.erase sle).wp (fun _ => P) (fun _ => P) v
  destroyXrp : ∀ fee v, P v → (ApplyView.destroyXrp fee).wp (fun _ => P) (fun _ => P) v

theorem Stable.and {P Q : V → Prop} (hP : Stable P) (hQ : Stable Q) :
    Stable fun v => P v ∧ Q v where
  peek k v h := (hP.peek k v h.1).and (hQ.peek k v h.2)
  insert sle v h := (hP.insert sle v h.1).and (hQ.insert sle v h.2)
  update sle v h := (hP.update sle v h.1).and (hQ.update sle v h.2)
  erase sle v h := (hP.erase sle v h.1).and (hQ.erase sle v h.2)
  destroyXrp fee v h := (hP.destroyXrp fee v h.1).and (hQ.destroyXrp fee v h.2)

theorem Stable.validateParentCommit {P : V → Prop} (hP : Stable P) (operation : String)
    (items : ExtTreeMap Uint256 Entry) {v : V} (hv : P v) :
    (validateParentCommit operation items).wp (fun _ => P) (fun _ => P) v := by
  refine wp_forM (E := fun _ => P) (validateEntry _) (fun _ => P) ?_ _ hv
  intro item _ v hv
  unfold validateEntry
  simp only [wp_bind, EStateM.wp_get]
  rcases ReadView.read v ⟨item.2.sle.entryType, item.1⟩ with e | found
  · exact hv
  · have hpeek := hP.peek ⟨item.2.sle.entryType, item.1⟩ v hv
    rcases item.2.action with _ | _ | _ <;> cases found <;>
      first
      | exact hv
      | (simp only [EStateM.wp_ofExcept_ok, wp_bind]
         exact hpeek)

theorem Stable.applyDrops {P : V → Prop} (hP : Stable P) (sb : FlowSandbox V) {v : V}
    (hv : P v) : sb.applyDrops.wp (fun _ => P) (fun _ => P) v := by
  unfold FlowSandbox.applyDrops
  split_ifs
  · exact hP.destroyXrp _ v hv
  · exact hv

theorem Stable.applyImpl {P : V → Prop} (hP : Stable P) (sb : FlowSandbox V) {v : V}
    (hv : P v) : sb.applyImpl.wp (fun _ => P) (fun _ => P) v := by
  unfold FlowSandbox.applyImpl
  rw [wp_bind]
  refine (hP.validateParentCommit _ _ hv).mono ?_ fun _ _ h => h
  intro _ v hv
  rw [wp_bind]
  refine (hP.applyDrops sb hv).mono ?_ fun _ _ h => h
  intro _ v hv
  refine wp_forM (E := fun _ => P) applyEntry (fun _ => P) ?_ _ hv
  intro item _ v hv
  unfold applyEntry
  have hpeek := hP.peek ⟨item.2.sle.entryType, item.1⟩ v hv
  rcases item.2.action with _ | _ | _
  · exact hP.insert _ v hv
  · simp only [wp_bind]
    refine hpeek.mono ?_ fun _ _ h => h
    rintro (_ | sle) v hv
    · exact hv
    · exact hP.update _ v hv
  · simp only [wp_bind]
    refine hpeek.mono ?_ fun _ _ h => h
    rintro (_ | sle) v hv
    · exact hv
    · exact hP.erase _ v hv

/-- Peeking at a sandbox changes it in its parent only, where the parent is peeked at. -/
theorem peekStable_of_parent {P : FlowSandbox V → Prop}
    (hpeek : ∀ k sb, P sb → (ApplyView.peek k).wp
      (fun _ parent => P { sb with parent }) (fun _ parent => P { sb with parent })
      sb.parent) : PeekStable P := by
  intro k sb h
  have hparent := hpeek k sb h
  change (peek k).wp _ _ sb
  unfold EStateM.wp at hparent ⊢
  unfold peek
  rcases sb.items[k.key]? with _ | entry
  · rcases hrun : ApplyView.peek k sb.parent with ⟨found, parent⟩ | ⟨e, parent⟩
    · rwa [hrun] at hparent
    · rwa [hrun] at hparent
  · exact h

/-- The other operations change its items and its drops. -/
theorem stable_of_peek {P : FlowSandbox V → Prop} (hpeek : PeekStable P)
    (hframe : ∀ sb items drops, P sb →
      P { sb with items, dropsDestroyed := drops }) : Stable P where
  peek := hpeek
  insert sle sb h := hframe sb _ _ h
  update sle sb h := hframe sb _ _ h
  erase sle sb h := by
    change (rawErase sle).wp _ _ sb
    unfold EStateM.wp rawErase
    split_ifs
    · exact hframe sb _ _ h
    · exact hframe sb _ _ h
  destroyXrp fee sb h := by
    change (rawDestroyXrp fee).wp _ _ sb
    unfold EStateM.wp rawDestroyXrp
    rcases sb.dropsDestroyed.checkedAdd fee "attempt to add with overflow" with e | drops
    · exact h
    · exact hframe sb _ _ h

theorem stable_parent {P : V → Prop} (hP : PeekStable P) :
    Stable fun sb : FlowSandbox V => P sb.parent :=
  stable_of_peek (peekStable_of_parent fun k sb h => hP k sb.parent h)
    fun _ _ _ h => h

theorem stable_flags (flags : Option Bool) :
    Stable fun sb : FlowSandbox V => sb.flags = flags :=
  stable_of_peek (peekStable_of_parent fun _ _ h =>
    EStateM.wp_of_forall (fun _ _ => h) fun _ _ => h) fun _ _ _ h => h

/-- What every operation keeps, a history keeps. -/
theorem Runs.stable {s t : FlowSandbox V} (hruns : Runs V s t) {P : FlowSandbox V → Prop}
    (hP : Stable P) (hs : P s) : P t := by
  induction hruns with
  | refl s => exact hs
  | peek k _ hpeek ih => exact (hP.peek k _ (ih hP hs)).ok hpeek
  | insert sle _ _ hinsert ih => exact (hP.insert sle _ (ih hP hs)).ok hinsert
  | update sle _ _ hupdate ih => exact (hP.update sle _ (ih hP hs)).ok hupdate
  | erase sle _ _ herase ih => exact (hP.erase sle _ (ih hP hs)).ok herase
  | destroyXrp fee _ _ hdestroy ih => exact (hP.destroyXrp fee _ (ih hP hs)).ok hdestroy
  | applied _ _ happly ih ihchild =>
    have hchild := ihchild (stable_parent hP.peek) (ih hP hs)
    exact (hP.applyImpl _ hchild).ok happly
  | failed _ _ happly ih ihchild =>
    have hchild := ihchild (stable_parent hP.peek) (ih hP hs)
    exact (hP.applyImpl _ hchild).error happly
  | dropped _ _ ih ihchild => exact ihchild (stable_parent hP.peek) (ih hP hs)

/-- A history leaves in the parent what peeking leaves. -/
theorem Runs.parent {s t : FlowSandbox V} (hruns : Runs V s t) {P : V → Prop}
    (hP : PeekStable P) (hs : P s.parent) : P t.parent :=
  hruns.stable (stable_parent hP) hs

variable {V : Type} [ApplyView V]

theorem peekStable_drops : PeekStable fun sb : FlowSandbox V => 0 ≤ sb.dropsDestroyed :=
  peekStable_of_parent fun _ _ h => EStateM.wp_of_forall (fun _ _ => h) fun _ _ => h

theorem burnt_nonneg (sb : FlowSandbox V) : 0 ≤ sb.burnt := by
  unfold burnt
  split_ifs with h
  · exact h.1.le
  · exact le_rfl

theorem burnt_eq {sb : FlowSandbox V} (hdrops : 0 ≤ sb.dropsDestroyed) :
    sb.burnt = if ApplyView.dryRun sb then 0 else sb.dropsDestroyed := by
  unfold burnt
  cases ApplyView.dryRun sb with
  | true => simp
  | false =>
    rcases hdrops.lt_or_eq with h | h
    · simp [h]
    · simp [← h]

theorem Runs.valid {s t : FlowSandbox V} (hruns : Runs V s t) :
    ∀ [ApplyModel V] [LawfulApplyView V], Valid s → 0 ≤ s.dropsDestroyed →
      Valid t ∧ 0 ≤ t.dropsDestroyed := by
  induction hruns with intro _ _ hs hdrops
  | refl s => exact ⟨hs, hdrops⟩
  | peek k _ hpeek ih =>
    obtain ⟨ht, hdrops⟩ := ih hs hdrops
    obtain ⟨found, u, -, hpeek', hmoves, -⟩ := peek_eq ht k
    rw [hpeek'] at hpeek
    cases hpeek
    exact ⟨hmoves.valid, hdrops.trans_eq hmoves.destroyed_eq.symm⟩
  | insert sle _ habsent hinsert ih =>
    obtain ⟨ht, hdrops⟩ := ih hs hdrops
    rw [exists_eq ht _ (Keylet.fits_any _ _)] at habsent
    obtain ⟨u, hinsert', hmoves, -⟩ := insert_eq ht sle (by simpa using habsent)
    rw [hinsert'] at hinsert
    cases hinsert
    exact ⟨hmoves.valid, hdrops.trans_eq hmoves.destroyed_eq.symm⟩
  | update sle _ hpres hupdate ih =>
    obtain ⟨ht, hdrops⟩ := ih hs hdrops
    rw [exists_eq ht _ (Keylet.fits_any _ _)] at hpres
    obtain ⟨u, hupdate', hmoves, -⟩ := rawReplace_eq ht sle (Except.ok.inj hpres)
    cases hupdate'.symm.trans hupdate
    exact ⟨hmoves.valid, hdrops.trans_eq hmoves.destroyed_eq.symm⟩
  | erase sle _ hpres herase ih =>
    obtain ⟨ht, hdrops⟩ := ih hs hdrops
    rw [exists_eq ht _ (Keylet.fits_any _ _)] at hpres
    obtain ⟨u, herase', hmoves⟩ := rawErase_eq ht sle (Except.ok.inj hpres)
    cases herase'.symm.trans herase
    exact ⟨hmoves.valid, hdrops.trans_eq hmoves.destroyed_eq.symm⟩
  | destroyXrp fee _ hfee hdestroy ih =>
    obtain ⟨ht, hdrops⟩ := ih hs hdrops
    rcases destroyXrp_eq ht fee with ⟨u, hdestroy', hmoves⟩ | ⟨e, hdestroy'⟩
    · cases hdestroy'.symm.trans hdestroy
      exact ⟨hmoves.valid, (add_nonneg hdrops hfee).trans_eq hmoves.destroyed_eq.symm⟩
    · cases hdestroy'.symm.trans hdestroy
  | applied _ hchild happly ih ihchild =>
    obtain ⟨ht, hdrops⟩ := ih hs hdrops
    obtain ⟨hvalid, -⟩ := ihchild (valid_new ht) le_rfl
    have hparent := hchild.parent peekStable_drops hdrops
    have hcommit := (wp_applyImpl hvalid).ok happly
    exact ⟨hcommit.valid,
      (add_nonneg hparent (burnt_nonneg _)).trans_eq hcommit.destroyed_eq.symm⟩
  | failed _ hchild happly ih ihchild =>
    obtain ⟨ht, hdrops⟩ := ih hs hdrops
    obtain ⟨hvalid, -⟩ := ihchild (valid_new ht) le_rfl
    have hparent := hchild.parent peekStable_drops hdrops
    have hsame := (wp_applyImpl hvalid).error happly
    exact ⟨hsame.valid, hparent.trans_eq hsame.destroyed_eq.symm⟩
  | dropped _ hchild ih ihchild =>
    obtain ⟨ht, hdrops⟩ := ih hs hdrops
    obtain ⟨hvalid, -⟩ := ihchild (valid_new ht) le_rfl
    exact ⟨hvalid.1, hchild.parent peekStable_drops hdrops⟩

theorem Runs.trans {s t u : FlowSandbox V} (hst : Runs V s t) (htu : Runs V t u) : Runs V s u := by
  induction htu with
  | refl _ => exact hst
  | peek k _ hpeek ih => exact .peek k (ih hst) hpeek
  | insert sle _ habsent hinsert ih => exact .insert sle (ih hst) habsent hinsert
  | update sle _ hpres hupdate ih => exact .update sle (ih hst) hpres hupdate
  | erase sle _ hpres herase ih => exact .erase sle (ih hst) hpres herase
  | destroyXrp fee _ hfee hdestroy ih => exact .destroyXrp fee (ih hst) hfee hdestroy
  | applied _ hchild happly ih _ => exact .applied (ih hst) hchild happly
  | failed _ hchild happly ih _ => exact .failed (ih hst) hchild happly
  | dropped _ hchild ih _ => exact .dropped (ih hst) hchild

end FlowSandbox

variable {V : Type} [ApplyView V] [ApplyModel V] [LawfulApplyView V]

theorem Alike.peekStable (v : V) : FlowSandbox.PeekStable (Alike v) := by
  intro k w h
  obtain ⟨found, w', -, hpeek, hmoves, -⟩ := peek_eq h.valid k
  rw [wp_of_ok hpeek]
  exact ⟨hmoves.valid, hmoves.state_eq.trans h.state_eq,
    hmoves.destroyed_eq.trans h.destroyed_eq, hmoves.dryRun_eq.trans h.dryRun_eq⟩

theorem Unwritten.peekStable {v : V} (hv : Valid v) : FlowSandbox.PeekStable (Unwritten v) := by
  intro k w h
  obtain ⟨found, w', -, hpeek, hmoves, hout, hsame⟩ := peek_eq h.valid k
  rw [wp_of_ok hpeek]
  exact h.trans hv (.of_peek h.valid hmoves hout hsame)

/-- A sandbox that is dropped leaves its parent untouched. -/
theorem FlowSandbox.Runs.unwritten {v : V} (hv : Valid v) {sb : FlowSandbox V}
    (hruns : Runs V (.new v) sb) : Unwritten v sb.parent :=
  hruns.parent (Unwritten.peekStable hv) (.refl hv)

theorem FlowSandbox.Runs.unwritten_of_error {v : V} (hv : Valid v) {sb : FlowSandbox V}
    (hruns : Runs V (.new v) sb) {e : ViewError} {parent : V}
    (happly : sb.apply = .error e parent) : Unwritten v parent := by
  have hvalid := (hruns.valid (valid_new hv) le_rfl).1
  exact (hruns.unwritten hv).trans hv ((wp_applyImpl hvalid).error happly).toUnwritten

/-- A sandbox that is applied makes the parent answer every keylet as the sandbox did, and
adds its destroyed drops outside a dry run. A sandbox that is dropped or fails to apply
leaves the parent's entries, their order and its destroyed drops, and the answer to a keylet
stays the same if and only if the parent has not checked out the key or had found the entry
for the keylet before. -/
theorem flowSandbox_commits_or_vanishes (v : V) (hv : Valid v) (sb : FlowSandbox V)
    (hruns : FlowSandbox.Runs V (.new v) sb) :
    (∀ parent, sb.apply = .ok () parent →
      (∀ k, ReadView.read parent k = ReadView.read sb k) ∧
      (∀ k, ReadView.exists parent k = ReadView.exists sb k) ∧
      (∀ key last, ReadView.succ parent key last = ReadView.succ sb key last) ∧
      destroyed parent = destroyed v +
        if ApplyView.dryRun sb then 0 else sb.dropsDestroyed) ∧
    ∀ parent, (parent = sb.parent ∨ ∃ e, sb.apply = .error e parent) →
      state parent = state v ∧
      (∀ key last, ReadView.succ parent key last = ReadView.succ v key last) ∧
      destroyed parent = destroyed v ∧
      ∀ k, (ReadView.read parent k = ReadView.read v k ↔
          (CheckedOut parent k.key →
            ReadView.read v k = .ok ((state v).find k.key))) ∧
        (ReadView.exists parent k = ReadView.exists v k ↔
          (CheckedOut parent k.key →
            ReadView.exists v k = .ok ((state v).find k.key).isSome)) := by
  obtain ⟨hvalid, hdrops⟩ := hruns.valid (FlowSandbox.valid_new hv) le_rfl
  have hparent := hruns.unwritten hv
  constructor
  · intro parent happly
    have hcommit := (FlowSandbox.wp_applyImpl hvalid).ok happly
    refine ⟨fun k => (hcommit.sameReads hvalid k).read_eq,
      fun k => (hcommit.sameReads hvalid k).exists_eq, fun key last => ?_, ?_⟩
    · rw [succ_eq hcommit.valid, succ_eq hvalid, hcommit.state_eq hvalid]
    · rw [hcommit.destroyed_eq, hparent.destroyed_eq, FlowSandbox.burnt_eq hdrops]
  · intro parent hcase
    have hunwritten : Unwritten v parent := by
      rcases hcase with rfl | ⟨e, happly⟩
      · exact hparent
      · exact hruns.unwritten_of_error hv happly
    refine ⟨hunwritten.state_eq, fun key last => ?_, hunwritten.destroyed_eq, fun k =>
      ⟨hunwritten.read_eq_iff k, hunwritten.exists_eq_iff k⟩⟩
    rw [succ_eq hunwritten.valid, succ_eq hv, hunwritten.state_eq]

/-- Write an entry, whether its key is there or not. -/
def FlowSandbox.writeEntry {V : Type} [ApplyView V] (view : FlowSandbox V) (sle : STLedgerEntry) :
    FlowSandbox V :=
  match ReadView.exists view ⟨.any, sle.key⟩ with
  | .ok true => view.store (if view.isInserted sle.key then .insert else .modify) sle
  | .ok false => view.store (if view.isErased sle.key then .modify else .insert) sle
  | .error _ => view

theorem FlowSandbox.writeEntry_runs {V : Type} [ApplyView V] (view : FlowSandbox V)
    (sle : STLedgerEntry) : Runs V view (view.writeEntry sle) := by
  unfold writeEntry
  split
  · rename_i hpres
    exact .update sle (.refl view) hpres rfl
  · rename_i habsent
    exact .insert sle (.refl view) habsent rfl
  · exact .refl view

/-- A sandbox over an open ledger with an account and an offer. -/
def sampleParent : Sandbox (RawStateTable BaseView) := .new sampleOpen false

theorem sampleParent_valid : Valid sampleParent :=
  Sandbox.valid_new sampleOpen_valid false

/-- The offer is erased, a check is added and ten drops are destroyed. -/
theorem flowSandbox_commits_or_vanishes_sample :
    ∃ (sb : FlowSandbox (Sandbox (RawStateTable BaseView)))
      (parent : Sandbox (RawStateTable BaseView)),
      FlowSandbox.Runs _ (.new sampleParent) sb ∧ sb.apply = .ok () parent ∧
      destroyed parent = 10 ∧
      ReadView.read parent ⟨.check, (sampleEntry .check 3).key⟩ =
        .ok (some (sampleEntry .check 3)) ∧
      ReadView.exists parent ⟨.offer, (sampleEntry .offer 2).key⟩ = .ok false := by
  have herased : FlowSandbox.Runs _ (.new sampleParent) _ :=
    .erase (sampleEntry .offer 2) (.refl _) rfl rfl
  have hinserted : FlowSandbox.Runs _ (.new sampleParent) _ :=
    .insert (sampleEntry .check 3) herased rfl rfl
  have hruns : FlowSandbox.Runs _ (.new sampleParent) _ :=
    .destroyXrp 10 hinserted (by decide) rfl
  have happly := (flowSandbox_commits_or_vanishes sampleParent sampleParent_valid _ hruns).1
  refine ⟨_, _, hruns, rfl, ?_, ?_, ?_⟩
  · exact (happly _ rfl).2.2.2.trans rfl
  · exact ((happly _ rfl).1 _).trans rfl
  · exact ((happly _ rfl).2.1 _).trans rfl

/-- A nested sandbox that is applied checks out the parent's offer, and the parent's table
then shows it to a keylet of another kind, also when the outer sandbox is dropped. -/
theorem flowSandbox_dropped_parent_reads_other_kind :
    ∃ sb : FlowSandbox (Sandbox (RawStateTable BaseView)),
      FlowSandbox.Runs _ (.new sampleParent) sb ∧
      ReadView.read sampleParent ⟨.check, (sampleEntry .offer 2).key⟩ = .ok none ∧
      ReadView.exists sampleParent ⟨.check, (sampleEntry .offer 2).key⟩ = .ok false ∧
      ReadView.read sb.parent ⟨.check, (sampleEntry .offer 2).key⟩ =
        .ok (some (sampleEntry .offer 2)) ∧
      ReadView.exists sb.parent ⟨.check, (sampleEntry .offer 2).key⟩ = .ok true := by
  have hchild : FlowSandbox.Runs (FlowSandbox _) (.new (.new sampleParent)) _ :=
    .update { sampleEntry .offer 2 with object := ⟨∅, true⟩ } (.refl _) rfl rfl
  have hruns : FlowSandbox.Runs _ (.new sampleParent) _ := .applied (.refl _) hchild rfl
  exact ⟨_, hruns, rfl, rfl, rfl, rfl⟩

end Quaxar.Views
