import Quaxar.Views.TxMeta

/-!
# Committing a transaction's plan

`applyWithTxMeta` replays the plan into the parent: the sandbox's entries as the plan has
threaded them, and then the supplementary owners. An entry that the code takes for the
parent's own is left alone. The maps are iterated in the order that `order` puts their keys
in; the source's order is `id`, and the state that is committed is the same for all.
-/

namespace Quaxar.Views

open Std (ExtTreeMap)

open ReadModel ApplyModel
open EStateM (wp_bind wp_forM wp_of_ok)
open LedgerState (key_of_find find_put)

namespace FlowSandbox

variable {V : Type} [ApplyView V] (tx : TxContext) (order : List Uint256 → List Uint256)

/-- Replay one entry of the plan into the parent. -/
def applyPlanned (item : Uint256 × Entry) : EStateM ViewError V Unit := do
  let k : Keylet := ⟨item.2.sle.entryType, item.1⟩
  match item.2.action with
  | .insert => ApplyView.insert item.2.sle
  | .modify =>
    match ← ApplyView.peek k with
    | none =>
      throw (.conversion "FlowSandbox::apply_with_tx_thread: modified parent entry disappeared")
    | some original =>
      if item.2.sle.isEquivalent tx.formats original then pure ()
      else ApplyView.update item.2.sle
  | .erase =>
    if (← ApplyView.peek k).isNone then
      throw (.conversion "FlowSandbox::apply_with_tx_thread: erased parent entry disappeared")
    ApplyView.erase item.2.sle

/-- Replay one supplementary owner. -/
def applyOwner (item : Uint256 × STLedgerEntry) : EStateM ViewError V Unit := do
  if (← ApplyView.peek ⟨.accountRoot, item.1⟩).isNone then
    throw (.conversion "FlowSandbox::apply_with_tx_thread: owner account disappeared")
  ApplyView.update item.2

/-- The loops over the plan. -/
def replayPlan (plan : TxMetaPlan) : EStateM ViewError V Unit := do
  forM (OrderedMap.entriesIn plan.items (order plan.items.keys)) (applyPlanned tx)
  forM (OrderedMap.entriesIn plan.newMod (order plan.newMod.keys)) applyOwner

def applyTxMetaPlan (sb : FlowSandbox V) (plan : TxMetaPlan) : EStateM ViewError V Unit := do
  validateParentCommit "FlowSandbox::apply_with_tx_thread" sb.items
  sb.applyDrops
  replayPlan tx order plan

/-- Like `apply`, it uses the sandbox up and leaves its parent. -/
def applyWithTxMeta (sb : FlowSandbox V) : EStateM.Result ViewError V Unit :=
  match buildTxMetaPlan tx sb (order sb.items.keys) with
  | .error e => .error e sb.parent
  | .ok plan => applyTxMetaPlan tx order sb plan sb.parent

section Stable

variable {V : Type} [ApplyView V] {P : V → Prop} (hP : Stable P) (tx : TxContext)
  (order : List Uint256 → List Uint256)

include hP

/-- What every operation of the parent keeps, the commit of a plan keeps. -/
theorem Stable.applyTxMetaPlan (sb : FlowSandbox V) (plan : TxMetaPlan) {v : V} (hv : P v) :
    (applyTxMetaPlan tx order sb plan).wp (fun _ => P) (fun _ => P) v := by
  unfold FlowSandbox.applyTxMetaPlan replayPlan
  rw [wp_bind]
  refine (hP.validateParentCommit _ _ hv).mono ?_ fun _ _ h => h
  intro _ v hv
  rw [wp_bind]
  refine (hP.applyDrops sb hv).mono ?_ fun _ _ h => h
  intro _ v hv
  rw [wp_bind]
  refine (wp_forM (E := fun _ => P) (applyPlanned tx) (fun _ => P) ?_ _ hv).mono ?_
    fun _ _ h => h
  · intro item _ v hv
    unfold applyPlanned
    have hpeek := hP.peek ⟨item.2.sle.entryType, item.1⟩ v hv
    rcases item.2.action with _ | _ | _
    · exact hP.insert _ v hv
    · simp only [wp_bind]
      refine hpeek.mono ?_ fun _ _ h => h
      rintro (_ | original) v hv
      · exact hv
      · rw [EStateM.wp_ite]
        split_ifs
        · exact hv
        · exact hP.update _ v hv
    · simp only [wp_bind]
      refine hpeek.mono ?_ fun _ _ h => h
      rintro (_ | sle) v hv
      · exact hv
      · exact hP.erase _ v hv
  · intro _ v hv
    refine wp_forM (E := fun _ => P) applyOwner (fun _ => P) ?_ _ hv
    intro item _ v hv
    unfold applyOwner
    rw [wp_bind]
    refine (hP.peek ⟨.accountRoot, item.1⟩ v hv).mono ?_ fun _ _ h => h
    rintro (_ | sle) v hv
    · exact hv
    · exact hP.update _ v hv

end Stable

section Settled

variable {V : Type} [ApplyModel V] (tx : TxContext) (sb : FlowSandbox V) (plan : TxMetaPlan)

/-- What the parent holds once an entry of the plan has been replayed. -/
def settle (key : Uint256) (entry : Entry) : Entry :=
  match entry.action, (state sb.parent).find key with
  | .modify, some original =>
    if entry.sle.isEquivalent tx.formats original then ⟨.modify, original⟩ else entry
  | _, _ => entry

/-- The sandbox whose plain commit has the effect of the plan's. -/
def settled : FlowSandbox V := { sb with items := plan.items.map (settle tx sb) }

def settledItem (item : Uint256 × Entry) : Uint256 × Entry :=
  (item.1, settle tx sb item.1 item.2)

theorem settle_action (key : Uint256) (entry : Entry) :
    (settle tx sb key entry).action = entry.action := by
  unfold settle
  split
  · split_ifs
    · simp_all
    · rfl
  · rfl

theorem toList_settled :
    (settled tx sb plan).items.toList = plan.items.toList.map (settledItem tx sb) :=
  ExtTreeMap.toList_map

theorem getElem?_settled (key : Uint256) :
    (settled tx sb plan).items[key]? = (plan.items[key]?).map (settle tx sb key) :=
  ExtTreeMap.getElem?_map

variable {tx sb}

theorem settledItem_of_ne {item : Uint256 × Entry} (hact : item.2.action ≠ .modify) :
    settledItem tx sb item = item := by
  unfold settledItem settle
  split
  · contradiction
  · rfl

variable {key : Uint256} {sle original : STLedgerEntry}
  (hfind : (state sb.parent).find key = some original)

include hfind

theorem settledItem_of_equivalent (hequiv : sle.isEquivalent tx.formats original = true) :
    settledItem tx sb (key, ⟨.modify, sle⟩) = (key, ⟨.modify, original⟩) := by
  simp only [settledItem, settle, hfind, hequiv, if_true]

theorem settledItem_of_not_equivalent (hequiv : sle.isEquivalent tx.formats original = false) :
    settledItem tx sb (key, ⟨.modify, sle⟩) = (key, ⟨.modify, sle⟩) := by
  simp only [settledItem, settle, hfind, hequiv, Bool.false_eq_true, if_false]

end Settled

variable {V : Type} [ApplyView V] [ApplyModel V] [LawfulApplyView V]

/-- The supplementary owners of `done` have been replayed, those of `rest` read as in the
parent. -/
structure Supplemented (base : FlowSandbox V) (drops : XRPAmount)
    (done rest : List (Uint256 × STLedgerEntry)) (v : V) : Prop where
  valid : Valid v
  destroyed_eq : destroyed v = drops
  find_done : ∀ item ∈ done, (state v).find item.1 = some item.2
  find_other : ∀ a, a ∉ done.map Prod.fst → (state v).find a = (state base).find a
  read_rest : ∀ item ∈ rest, ReadView.read v ⟨.accountRoot, item.1⟩ =
    ReadView.read base.parent ⟨.accountRoot, item.1⟩

variable {base : FlowSandbox V} {drops : XRPAmount} {done rest : List (Uint256 × STLedgerEntry)}
  {item : Uint256 × STLedgerEntry} {v : V}

theorem wp_applyOwner (h : Supplemented base drops done (item :: rest) v)
    (hnodup : ((done ++ item :: rest).map Prod.fst).Nodup) (hkey : item.2.key = item.1)
    {old : STLedgerEntry}
    (hread : ReadView.read base.parent ⟨.accountRoot, item.1⟩ = .ok (some old)) :
    (applyOwner item).wp (fun _ v => Supplemented base drops (done ++ [item]) rest v)
      (fun _ _ => False) v := by
  rw [List.map_append, List.map_cons, List.nodup_append, List.nodup_cons] at hnodup
  obtain ⟨-, ⟨hrest, -⟩, hdone⟩ := hnodup
  obtain ⟨found, v₁, hfound, hpeek, hmoves₁, hout, -⟩ :=
    LawfulApplyView.peek_eq h.valid ⟨.accountRoot, item.1⟩
  rw [h.read_rest item List.mem_cons_self, hread] at hfound
  cases hfound
  have hpres : ((state v₁).find item.2.key).isSome = true := by
    obtain ⟨found, hfound, hfinds⟩ := LawfulReadView.read_finds h.valid ⟨.accountRoot, item.1⟩
    rw [h.read_rest item List.mem_cons_self, hread] at hfound
    cases hfound
    rw [hkey, hmoves₁.state_eq]
    rcases hfinds with hfinds | ⟨hnone, -⟩
    · rw [← hfinds]
      rfl
    · cases hnone
  obtain ⟨v₂, hupdate, hmoves₂⟩ :=
    LawfulApplyView.update_eq hmoves₁.valid item.2 hpres (by rw [hkey]; exact hout rfl)
  unfold applyOwner
  simp only [wp_bind, wp_of_ok hpeek, Option.isNone_some, Bool.false_eq_true,
    if_false, wp_of_ok hupdate]
  rw [hkey] at hmoves₂
  have hfind : ∀ a, (state v₂).find a = if item.1 = a then some item.2 else (state v).find a := by
    intro a
    rw [hmoves₂.state_eq, find_put, hkey, hmoves₁.state_eq]
  refine ⟨hmoves₂.valid,
    hmoves₂.destroyed_eq.trans (hmoves₁.destroyed_eq.trans h.destroyed_eq), ?_, ?_, ?_⟩
  · intro other hother
    rw [hfind]
    rcases List.mem_append.mp hother with hother | hother
    · rw [if_neg, h.find_done other hother]
      intro heq
      exact hdone _ (List.mem_map_of_mem hother) _ List.mem_cons_self heq.symm
    · rw [List.mem_singleton.mp hother, if_pos rfl]
  · intro a ha
    rw [List.map_append, List.mem_append, not_or, List.map_singleton, List.mem_singleton] at ha
    rw [hfind, if_neg (Ne.symm ha.2)]
    exact h.find_other a ha.1
  · intro other hother
    have hne : some item.1 ≠ some other.1 := by
      intro heq
      apply hrest
      rw [Option.some.inj heq]
      exact List.mem_map_of_mem hother
    rw [(hmoves₂.frame _ hne).read_eq, (hmoves₁.frame _ hne).read_eq]
    exact h.read_rest other (List.mem_cons_of_mem item hother)

section Commit

variable {V : Type} [ApplyView V] [ApplyModel V] [LawfulApplyView V] {tx : TxContext}
  {sb : FlowSandbox V} {plan : TxMetaPlan} {touched : Set Uint256} (hv : Valid sb)
  (hform : ∀ key sle, (state sb).find key = some sle → sle.WellFormed)
  (h : Planned tx sb touched plan)

include hv hform h

theorem Planned.key_eq {key : Uint256} {entry : Entry} (hitem : sb.items[key]? = some entry) :
    ∃ sle, plan.items[key]? = some ⟨entry.action, sle⟩ ∧ sle.key = key := by
  obtain ⟨sle, hsle, hthreads⟩ := h.item key entry hitem
  have hkey : entry.sle.key = key :=
    (fits_of_mem hv (ExtTreeMap.mem_toList_iff_getElem?_eq_some.mpr hitem)).1
  refine ⟨sle, hsle, ?_⟩
  rcases hthreads with ⟨hdue, hthread⟩ | ⟨-, rfl⟩
  · have hsle := wellFormed_of_read hv hform (read_of_live hitem hdue.1 .any)
    exact (threadSle_eq_ok hsle hthread).2.1.trans hkey
  · exact hkey

theorem Planned.valid_settled : Valid (settled tx sb plan) := by
  refine ⟨hv.1, ?_⟩
  intro key stateEntry hstate
  rw [getElem?_table, getElem?_settled, Option.map_map, Option.map_eq_some_iff] at hstate
  obtain ⟨entry, hentry, rfl⟩ := hstate
  rcases hitem : sb.items[key]? with _ | old
  · rw [h.no_item key hitem] at hentry
    cases hentry
  obtain ⟨sle, hsle, hkey⟩ := h.key_eq hv hform hitem
  rw [hentry] at hsle
  cases hsle
  obtain ⟨hfits, -⟩ := fits_of_item hv hitem
  refine ⟨?_, ?_⟩
  · change (settle tx sb key _).sle.key = key
    unfold settle
    split
    · rename_i original hfind
      split_ifs
      · exact key_of_find hfind
      · exact hkey
    · exact hkey
  · change ((settle tx sb key _).action.toTableAction).Fits _ _
    rw [settle_action]
    obtain ⟨_ | _ | _, oldSle⟩ := old
    · exact hfits
    · exact hfits
    · exact hfits

omit [LawfulApplyView V] hv hform in
/-- The parent that is prepared for the sandbox is prepared for the settled one. -/
theorem Planned.prepared_settled {v : V} (hprepared : Prepared sb sb.items.toList v) :
    Prepared (settled tx sb plan) (settled tx sb plan).items.toList v where
  toUnwritten := hprepared.toUnwritten
  checkedOut_done item hitem hact := by
    rw [toList_settled, List.mem_map] at hitem
    obtain ⟨⟨key, entry⟩, hentry, rfl⟩ := hitem
    rw [ExtTreeMap.mem_toList_iff_getElem?_eq_some] at hentry
    change (settle tx sb key entry).action ≠ _ at hact
    rw [settle_action] at hact
    rcases hold : sb.items[key]? with _ | old
    · rw [h.no_item key hold] at hentry
      cases hentry
    · obtain ⟨sle, hsle, -⟩ := h.item key old hold
      rw [hentry] at hsle
      cases hsle
      exact hprepared.checkedOut_done (key, old)
        (ExtTreeMap.mem_toList_iff_getElem?_eq_some.mpr hold) hact
  frame k hkeylet := by
    apply hprepared.frame
    intro hmem
    apply hkeylet
    obtain ⟨old, hold⟩ := OrderedMap.mem_iff_exists.mp hmem
    obtain ⟨sle, hsle, -⟩ := h.item k.key old hold
    rw [OrderedMap.mem_iff_exists, getElem?_settled, hsle]
    exact ⟨_, rfl⟩

/-- Replaying an entry of the plan settles it. -/
theorem Planned.wp_applyPlanned {v : V} {item : Uint256 × Entry}
    {done rest : List (Uint256 × Entry)} (hitems : (settled tx sb plan).items.toList.Perm
      (done ++ settledItem tx sb item :: rest))
    (hreplayed : Replayed (settled tx sb plan) drops done
      (settledItem tx sb item :: rest) v) :
    (applyPlanned tx item).wp
      (fun _ v => Replayed (settled tx sb plan) drops
        (done ++ [settledItem tx sb item]) rest v) (fun _ _ => False) v := by
  have hsettled := h.valid_settled hv hform
  obtain ⟨key, action, sle⟩ := item
  unfold applyPlanned
  rcases action with _ | _ | _
  · rw [settledItem_of_ne (by simp)] at hitems hreplayed ⊢
    obtain ⟨v', hinsert, h'⟩ := hreplayed.insert hsettled hitems rfl
    rwa [wp_of_ok hinsert]
  · have hact : (settledItem tx sb (key, ⟨.modify, sle⟩)).2.action ≠ .insert := by
      change (settle tx sb key ⟨.modify, sle⟩).action ≠ .insert
      rw [settle_action]
      simp
    obtain ⟨original, v₁, hpeek, hfind, h₁⟩ :=
      hreplayed.peek hsettled hitems hact sle.entryType
    change ApplyView.peek ⟨sle.entryType, key⟩ v = .ok (some original) v₁ at hpeek
    change (state sb.parent).find key = some original at hfind
    simp only [wp_bind, wp_of_ok hpeek]
    cases hequiv : sle.isEquivalent tx.formats original with
    | true =>
      have hitem := settledItem_of_equivalent hfind hequiv
      rw [hitem] at hitems h₁ ⊢
      exact h₁.skip hsettled hitems rfl hfind
    | false =>
      have hitem := settledItem_of_not_equivalent hfind hequiv
      rw [hitem] at hitems h₁ ⊢
      obtain ⟨v', hupdate, h'⟩ := h₁.update hsettled hitems rfl
      simp only [Bool.false_eq_true, if_false]
      rwa [wp_of_ok hupdate]
  · rw [settledItem_of_ne (by simp)] at hitems hreplayed ⊢
    obtain ⟨original, v₁, hpeek, -, h₁⟩ :=
      hreplayed.peek hsettled hitems (by simp) sle.entryType
    obtain ⟨v', herase, h'⟩ := h₁.erase hsettled hitems rfl
    simp only [wp_bind, wp_of_ok hpeek, Option.isNone_some, Bool.false_eq_true,
      if_false]
    rwa [wp_of_ok herase]

/-- A supplementary owner stands for an entry that only the parent has. -/
theorem Planned.supplement_eq {key : Uint256} {threaded : STLedgerEntry}
    (hnew : plan.newMod[key]? = some threaded) :
    threaded.key = key ∧ sb.items[key]? = none ∧ key ∈ touched ∧
      ∃ sle, (state sb).find key = some sle ∧
        ReadView.read sb.parent ⟨.accountRoot, key⟩ = .ok (some sle) ∧
        tx.threadSle sle = .ok threaded := by
  obtain ⟨hitem, hmem, sle, hread, hthread⟩ := h.newMod key threaded hnew
  obtain ⟨found, hfound, hfinds⟩ := LawfulReadView.read_finds hv.1 ⟨.accountRoot, key⟩
  rw [hread] at hfound
  cases hfound
  have hfind : (state sb).find key = some sle := by
    rw [find_of_no_item hv hitem]
    rcases hfinds with hfinds | ⟨hnone, -⟩
    · exact hfinds.symm
    · cases hnone
  refine ⟨?_, hitem, hmem, sle, hfind, hread, hthread⟩
  exact (threadSle_eq_ok (hform key sle hfind) hthread).2.1.trans (key_of_find hfind)

/-- From a prepared parent both loops of the commit succeed. -/
theorem Planned.wp_replayPlan {order : List Uint256 → List Uint256}
    (horder : ∀ keys, (order keys).Perm keys) {v : V}
    (hreplayed : Replayed (settled tx sb plan) drops []
      (settled tx sb plan).items.toList v) :
    (replayPlan tx order plan).wp
      (fun _ v => Supplemented (settled tx sb plan) drops
        (OrderedMap.entriesIn plan.newMod (order plan.newMod.keys)) [] v)
      (fun _ _ => False) v := by
  have hperm := OrderedMap.entriesIn_perm plan.items (horder plan.items.keys)
  have hperm' := OrderedMap.entriesIn_perm plan.newMod (horder plan.newMod.keys)
  have hitems := hperm.map (settledItem tx sb)
  rw [← toList_settled] at hitems
  have hstart : Replayed (settled tx sb plan) drops []
      ((OrderedMap.entriesIn plan.items (order plan.items.keys)).map (settledItem tx sb)) v :=
    { hreplayed with
      checkedOut_rest := fun item hitem =>
        hreplayed.checkedOut_rest item (hitems.mem_iff.mp hitem) }
  unfold replayPlan
  rw [wp_bind]
  refine (wp_forM (E := fun _ _ => False) (applyPlanned tx)
    (fun rest v => ∃ done, (settled tx sb plan).items.toList.Perm
        (done ++ rest.map (settledItem tx sb)) ∧
      Replayed (settled tx sb plan) drops done (rest.map (settledItem tx sb)) v) ?_ _
    ⟨[], by simpa using hitems.symm, hstart⟩).mono ?_ fun _ _ h => h
  · rintro item rest v ⟨done, hdone, hv'⟩
    refine (h.wp_applyPlanned hv hform hdone hv').mono ?_ fun _ _ h => h
    intro _ v' h'
    exact ⟨done ++ [settledItem tx sb item], by simpa using hdone, h'⟩
  rintro _ v₁ ⟨done, hdone, h₁⟩
  rw [List.map_nil, List.append_nil] at hdone
  have h₁ := h₁.perm hdone.symm
  have hsettled := h.valid_settled hv hform
  refine (wp_forM (E := fun _ _ => False) applyOwner
    (fun rest v => ∃ done, plan.newMod.toList.Perm (done ++ rest) ∧
      OrderedMap.entriesIn plan.newMod (order plan.newMod.keys) = done ++ rest ∧
      Supplemented (settled tx sb plan) drops done rest v) ?_ _
    ⟨[], hperm'.symm, rfl, ?_⟩).mono ?_ fun _ _ h => h
  · rintro item rest v ⟨done, hdone, hentries, hv'⟩
    have hnodup := (hdone.map Prod.fst).nodup_iff.mp (OrderedMap.nodup_keys_toList plan.newMod)
    have hnew : plan.newMod[item.1]? = some item.2 :=
      ExtTreeMap.mem_toList_iff_getElem?_eq_some.mp (hdone.mem_iff.mpr (by simp))
    obtain ⟨hkey, -, -, old, -, hread, -⟩ := h.supplement_eq hv hform hnew
    refine (wp_applyOwner hv' hnodup hkey hread).mono ?_ fun _ _ h => h
    intro _ v' h'
    exact ⟨done ++ [item], by simpa using hdone, by simpa using hentries, h'⟩
  · refine ⟨h₁.valid, h₁.destroyed_eq, by simp, ?_, ?_⟩
    · intro a _
      rw [h₁.state_eq hsettled]
    · intro item hitem
      refine (h₁.frame _ ?_).read_eq
      have hnew : plan.newMod[item.1]? = some item.2 :=
        ExtTreeMap.mem_toList_iff_getElem?_eq_some.mp (hperm'.mem_iff.mp hitem)
      obtain ⟨-, hnone, -⟩ := h.supplement_eq hv hform hnew
      rw [OrderedMap.mem_iff_exists, getElem?_settled, h.no_item _ hnone]
      simp
  · rintro _ v₂ ⟨done, -, hentries, h₂⟩
    rw [List.append_nil] at hentries
    rwa [hentries]

/-- A plan that is committed in one order is committed in every other. -/
theorem Planned.applyTxMetaPlan_eq_ok {order : List Uint256 → List Uint256}
    (horder : ∀ keys, (order keys).Perm keys) {parent : V}
    (hok : applyTxMetaPlan tx order sb plan sb.parent = .ok () parent) :
    Supplemented (settled tx sb plan) (destroyed sb.parent + sb.burnt)
        (OrderedMap.entriesIn plan.newMod (order plan.newMod.keys)) [] parent ∧
      ∀ order' : List Uint256 → List Uint256, (∀ keys, (order' keys).Perm keys) →
        ∃ parent', applyTxMetaPlan tx order' sb plan sb.parent = .ok () parent' := by
  unfold applyTxMetaPlan at hok
  rw [EStateM.bind_eq_ok_iff] at hok
  obtain ⟨_, v₁, hvalidate, hok⟩ := hok
  rw [EStateM.bind_eq_ok_iff] at hok
  obtain ⟨_, v₂, hdrops, hreplay⟩ := hok
  have hprepared := h.prepared_settled ((wp_validateParentCommit _ hv).ok hvalidate)
  have hreplayed : Replayed (settled tx sb plan) (destroyed sb.parent + sb.burnt)
      [] (settled tx sb plan).items.toList v₂ :=
    (wp_applyDrops (h.valid_settled hv hform) hprepared).ok hdrops
  refine ⟨(h.wp_replayPlan hv hform horder hreplayed).ok hreplay, ?_⟩
  intro order' horder'
  have hwp := h.wp_replayPlan hv hform horder' hreplayed
  rcases hresult : replayPlan tx order' plan v₂ with ⟨_, parent'⟩ | ⟨e, parent'⟩
  · refine ⟨parent', ?_⟩
    unfold applyTxMetaPlan
    rw [EStateM.bind_of_ok hvalidate, EStateM.bind_of_ok hdrops]
    exact hresult
  · exact (hwp.error hresult).elim

variable {drops : XRPAmount} {parent : V} {keys : List Uint256} {key : Uint256}
  {sle : STLedgerEntry}
  (hparent : Supplemented (settled tx sb plan) drops
    (OrderedMap.entriesIn plan.newMod keys) [] parent)
  (hkeys : keys.Perm plan.newMod.keys)

omit [LawfulApplyView V] hv hform h in
include hparent hkeys in
theorem find_supplement {threaded : STLedgerEntry} (hnew : plan.newMod[key]? = some threaded) :
    (state parent).find key = some threaded :=
  hparent.find_done (key, threaded) ((OrderedMap.entriesIn_perm plan.newMod hkeys).mem_iff.mpr
    (ExtTreeMap.mem_toList_iff_getElem?_eq_some.mpr hnew))

omit [LawfulApplyView V] hv hform h in
include hparent hkeys in
theorem find_no_supplement (hnew : plan.newMod[key]? = none) :
    (state parent).find key = (state (settled tx sb plan)).find key := by
  apply hparent.find_other
  rw [List.mem_map]
  rintro ⟨⟨other, threaded⟩, hmem, rfl⟩
  have hfound := ExtTreeMap.mem_toList_iff_getElem?_eq_some.mp
    ((OrderedMap.entriesIn_perm plan.newMod hkeys).mem_iff.mp hmem)
  rw [hnew] at hfound
  cases hfound

include hparent hkeys in
/-- Where the sandbox has an entry, the parent holds what the plan settled on. -/
theorem Planned.find_item {entry : Entry} (hitem : sb.items[key]? = some entry) :
    ∃ new, plan.items[key]? = some ⟨entry.action, new⟩ ∧
      Threads tx (entry.action ≠ .erase ∧ key ∈ touched) entry.sle new ∧
      (state parent).find key = if entry.action = .erase then none
        else some (settle tx sb key ⟨entry.action, new⟩).sle := by
  obtain ⟨new, hnew, hthreads⟩ := h.item key entry hitem
  refine ⟨new, hnew, hthreads, ?_⟩
  have hnone : plan.newMod[key]? = none := by
    rcases hside : plan.newMod[key]? with _ | threaded
    · rfl
    · rw [(h.newMod key threaded hside).1] at hitem
      cases hitem
  rw [find_no_supplement hparent hkeys hnone]
  have hsettled : (settled tx sb plan).items[key]? =
      some (settle tx sb key ⟨entry.action, new⟩) := by
    rw [getElem?_settled, hnew]
    rfl
  rw [(fits_of_item (h.valid_settled hv hform) hsettled).2, settle_action]

end Commit

section Keys

variable {V : Type} [ApplyView V] [ApplyModel V] [LawfulApplyView V] {tx : TxContext}
  {sb : FlowSandbox V} {plan : TxMetaPlan} {drops : XRPAmount} {parent : V}
  {keys : List Uint256} {key : Uint256} {sle : STLedgerEntry} (hv : Valid sb)
  (hform : ∀ key sle, (state sb).find key = some sle → sle.WellFormed)
  (h : Planned tx sb (touchedKeys tx sb) plan)
  (hparent : Supplemented (settled tx sb plan) drops
    (OrderedMap.entriesIn plan.newMod keys) [] parent)
  (hkeys : keys.Perm plan.newMod.keys)

/-- `after` holds at `key` the threaded `sle`, or still the entry of `before` if the code
takes that for the threaded one. -/
def HoldsThreaded (tx : TxContext) (before after : LedgerState) (key : Uint256)
    (sle : STLedgerEntry) : Prop :=
  ∃ threaded, tx.threadSle sle = .ok threaded ∧
    (after.find key = some threaded ∨ ∃ original, before.find key = some original ∧
      after.find key = some original ∧ threaded.isEquivalent tx.formats original = true)

include hv hform h hparent hkeys

theorem holdsThreaded_of_item {action : Action} (hitem : sb.items[key]? = some ⟨action, sle⟩)
    (hact : action ≠ .erase) (hmem : key ∈ touchedKeys tx sb) :
    HoldsThreaded tx (state sb.parent) (state parent) key sle := by
  obtain ⟨threaded, -, hthreads, hfind⟩ := h.find_item hv hform hparent hkeys hitem
  rcases hthreads with ⟨-, hthread⟩ | ⟨hnot, -⟩
  · refine ⟨threaded, hthread, ?_⟩
    rw [if_neg hact] at hfind
    unfold settle at hfind
    split at hfind
    · rename_i original _ horiginal
      split_ifs at hfind with hequiv
      · exact .inr ⟨original, horiginal, hfind, hequiv⟩
      · exact .inl hfind
    · exact .inl hfind
  · exact absurd ⟨hact, hmem⟩ hnot

theorem holdsThreaded_of_owner (hmem : key ∈ touchedKeys tx sb)
    (hfind : (state sb).find key = some sle) (hroot : sle.entryType = .accountRoot) :
    HoldsThreaded tx (state sb.parent) (state parent) key sle := by
  rcases hitem : sb.items[key]? with _ | ⟨action, old⟩
  · have hkey := key_of_find hfind
    rw [find_of_no_item hv hitem] at hfind
    have hread : ReadView.read sb.parent ⟨.accountRoot, key⟩ = .ok (some sle) := by
      rw [← hfind]
      apply LawfulReadView.read_eq hv.1
      intro other hother
      rw [hfind] at hother
      cases hother
      simp [Keylet.checkLedgerEntry, hroot, hkey]
    obtain ⟨threaded, hthread, hnew⟩ := h.supplement key sle hitem hmem hread
    exact ⟨threaded, hthread, .inl (find_supplement hparent hkeys hnew)⟩
  · rw [(fits_of_item hv hitem).2] at hfind
    split_ifs at hfind with hact
    cases hfind
    exact holdsThreaded_of_item hv hform h hparent hkeys hitem hact hmem

theorem find_unchanged (hchanged : ∀ sle, ¬Changed tx sb key sle)
    (hlive : ∀ entry, sb.items[key]? = some entry → entry.action = .modify)
    (howner : ∀ other, Names tx sb other key → (state sb).find key = none) :
    (state parent).find key = (state sb.parent).find key := by
  have habsent : key ∈ touchedKeys tx sb → (state sb).find key = none := by
    rintro ⟨other, hnames | ⟨rfl, ⟨sle, hinsert⟩ | ⟨sle, hmodified⟩⟩⟩
    · exact howner other hnames
    · cases hlive _ hinsert
    · exact absurd hmodified (hchanged sle)
  rcases hitem : sb.items[key]? with _ | ⟨action, sle⟩
  · have hnew : plan.newMod[key]? = none := by
      rcases hside : plan.newMod[key]? with _ | threaded
      · rfl
      · obtain ⟨-, -, hmem, sle, hfind, -⟩ := h.supplement_eq hv hform hside
        rw [habsent hmem] at hfind
        cases hfind
    rw [find_no_supplement hparent hkeys hnew]
    apply find_of_no_item (h.valid_settled hv hform)
    rw [getElem?_settled, h.no_item key hitem]
    rfl
  · obtain rfl : action = .modify := hlive _ hitem
    obtain ⟨hfits, hshown⟩ := fits_of_item hv hitem
    obtain ⟨original, horiginal⟩ := Option.isSome_iff_exists.mp hfits
    obtain ⟨new, -, hthreads, hfind⟩ := h.find_item hv hform hparent hkeys hitem
    rcases hthreads with ⟨⟨-, hmem⟩, -⟩ | ⟨-, rfl⟩
    · rw [habsent hmem] at hshown
      simp at hshown
    · have hequiv : new.isEquivalent tx.formats original = true := by
        by_contra hne
        exact hchanged new ⟨hitem, original, horiginal, by simpa using hne⟩
      rw [hfind, horiginal]
      simp [settle, horiginal, hequiv]

end Keys

section Result

variable {V : Type} [ApplyView V] [ApplyModel V] [LawfulApplyView V] {tx : TxContext}
  {order : List Uint256 → List Uint256} {sb : FlowSandbox V} {parent : V}
  (hv : Valid sb)
  (hform : ∀ key sle, (state sb).find key = some sle → sle.WellFormed)
  (horder : ∀ keys, (order keys).Perm keys)

include hv hform horder

/-- A commit with metadata burns what a plain one burns. -/
theorem applyWithTxMeta_valid (hok : sb.applyWithTxMeta tx order = .ok () parent) :
    Valid parent ∧ destroyed parent = destroyed sb.parent + sb.burnt := by
  unfold applyWithTxMeta at hok
  rcases hbuild : buildTxMetaPlan tx sb (order sb.items.keys) with e | plan
  · rw [hbuild] at hok
    cases hok
  rw [hbuild] at hok
  obtain ⟨h, -⟩ := buildTxMetaPlan_eq_ok hv hform (horder _) hbuild
  obtain ⟨hparent, -⟩ := h.applyTxMetaPlan_eq_ok hv hform horder hok
  exact ⟨hparent.valid, hparent.destroyed_eq⟩

theorem applyWithTxMeta_wellFormed
    (hbefore : ∀ key sle, (state sb.parent).find key = some sle → sle.WellFormed)
    (hok : sb.applyWithTxMeta tx order = .ok () parent) {key : Uint256} {sle : STLedgerEntry}
    (hfind : (state parent).find key = some sle) : sle.WellFormed := by
  unfold applyWithTxMeta at hok
  rcases hbuild : buildTxMetaPlan tx sb (order sb.items.keys) with e | plan
  · rw [hbuild] at hok
    cases hok
  rw [hbuild] at hok
  obtain ⟨h, -⟩ := buildTxMetaPlan_eq_ok hv hform (horder _) hbuild
  obtain ⟨hparent, -⟩ := h.applyTxMetaPlan_eq_ok hv hform horder hok
  have hkeys := horder plan.newMod.keys
  rcases hitem : sb.items[key]? with _ | entry
  · rcases hnew : plan.newMod[key]? with _ | threaded
    · rw [find_no_supplement hparent hkeys hnew] at hfind
      have hnone : (settled tx sb plan).items[key]? = none := by
        rw [getElem?_settled, h.no_item key hitem]
        rfl
      rw [find_of_no_item (h.valid_settled hv hform) hnone] at hfind
      exact hbefore key sle hfind
    · obtain ⟨-, -, -, old, hold, -, hthread⟩ := h.supplement_eq hv hform hnew
      rw [find_supplement hparent hkeys hnew] at hfind
      cases hfind
      exact threadSle_wellFormed (hform key old hold) hthread
  · obtain ⟨new, hplan, hthreads, hfound⟩ := h.find_item hv hform hparent hkeys hitem
    rw [hfound] at hfind
    split_ifs at hfind with herase
    have hshown := (fits_of_item hv hitem).2
    rw [if_neg herase] at hshown
    have hold := hform key entry.sle hshown
    have hnewForm : new.WellFormed := by
      rcases hthreads with ⟨-, hthread⟩ | ⟨-, rfl⟩
      · exact threadSle_wellFormed hold hthread
      · exact hold
    cases hfind
    unfold settle
    split
    · rename_i original _ horiginal
      split_ifs
      · exact hbefore key original horiginal
      · exact hnewForm
    · exact hnewForm

end Result

end FlowSandbox

section Exactly

open FlowSandbox

variable {V : Type} [ApplyView V] [ApplyModel V] [LawfulApplyView V]

/-- A committed transaction leaves erased keys absent. Inserted and changed entries, and
the roots of the owners of inserted and erased ones, are threaded. Every other key is as it
was. In whatever order the keys are visited, the transaction is committed to the same
state. -/
theorem applyWithTxMeta_threads_exactly (tx : TxContext) (v : V) (hv : Valid v)
    (sb : FlowSandbox V) (hruns : FlowSandbox.Runs V (.new v) sb)
    (hform : ∀ key sle, (state sb).find key = some sle → sle.WellFormed)
    (order : List Uint256 → List Uint256) (horder : ∀ keys, (order keys).Perm keys) (parent : V)
    (hok : sb.applyWithTxMeta tx order = .ok () parent) :
    (∀ key sle, sb.items[key]? = some ⟨.erase, sle⟩ → (state parent).find key = none) ∧
    (∀ key sle, sb.items[key]? = some ⟨.insert, sle⟩ ∨ Changed tx sb key sle →
      HoldsThreaded tx (state v) (state parent) key sle) ∧
    (∀ key root sle, Names tx sb key root → (state sb).find root = some sle →
      sle.entryType = .accountRoot → HoldsThreaded tx (state v) (state parent) root sle) ∧
    (∀ key, (∀ entry, sb.items[key]? = some entry → entry.action = .modify) →
      (∀ sle, ¬Changed tx sb key sle) →
      (∀ other, Names tx sb other key → (state sb).find key = none) →
        (state parent).find key = (state v).find key) ∧
    ∀ order' : List Uint256 → List Uint256, (∀ keys, (order' keys).Perm keys) →
      ∃ parent', sb.applyWithTxMeta tx order' = .ok () parent' ∧
        state parent' = state parent ∧ destroyed parent' = destroyed parent := by
  obtain ⟨hvalid, -⟩ := hruns.valid (FlowSandbox.valid_new hv) le_rfl
  have halike : Alike v sb.parent := hruns.parent (Alike.peekStable v) ⟨hv, rfl, rfl, rfl⟩
  rw [← halike.state_eq]
  unfold applyWithTxMeta at hok
  rcases hbuild : buildTxMetaPlan tx sb (order sb.items.keys) with e | plan
  · rw [hbuild] at hok
    cases hok
  rw [hbuild] at hok
  obtain ⟨h, -⟩ := buildTxMetaPlan_eq_ok hvalid hform (horder _) hbuild
  obtain ⟨hparent, hagain⟩ := h.applyTxMetaPlan_eq_ok hvalid hform horder hok
  have hkeys := horder plan.newMod.keys
  refine ⟨?_, ?_, ?_, ?_, ?_⟩
  · intro key sle hitem
    obtain ⟨_, -, -, hfind⟩ := h.find_item hvalid hform hparent hkeys hitem
    exact hfind
  · rintro key sle (hinsert | hchanged)
    · exact holdsThreaded_of_item hvalid hform h hparent hkeys hinsert (by simp)
        ⟨key, .inr ⟨rfl, .inl ⟨sle, hinsert⟩⟩⟩
    · exact holdsThreaded_of_item hvalid hform h hparent hkeys hchanged.1 (by simp)
        ⟨key, .inr ⟨rfl, .inr ⟨sle, hchanged⟩⟩⟩
  · intro key root sle hnames hfind hroot
    exact holdsThreaded_of_owner hvalid hform h hparent hkeys ⟨key, .inl hnames⟩ hfind hroot
  · intro key hlive hchanged howner
    exact find_unchanged hvalid hform h hparent hkeys hchanged hlive howner
  · intro order' horder'
    obtain ⟨parent', hok'⟩ := hagain order' horder'
    obtain ⟨hparent', -⟩ := h.applyTxMetaPlan_eq_ok hvalid hform horder' hok'
    have hbuild' := buildTxMetaPlan_perm hvalid hform (horder _) (horder' _) hbuild
    refine ⟨parent', ?_, ?_, hparent'.destroyed_eq.trans hparent.destroyed_eq.symm⟩
    · unfold applyWithTxMeta
      rw [hbuild']
      exact hok'
    · apply LedgerState.ext
      intro key
      have hkeys' := horder' plan.newMod.keys
      rcases hnew : plan.newMod[key]? with _ | threaded
      · rw [find_no_supplement hparent hkeys hnew, find_no_supplement hparent' hkeys' hnew]
      · rw [find_supplement hparent hkeys hnew, find_supplement hparent' hkeys' hnew]

end Exactly

section Samples

open FlowSandbox

open Protocol (AccountID STAmount)

/-- A transaction whose account roots are found under the bytes of the account. The formats
are asked only for account roots without an owner count. -/
def sampleTx : TxContext where
  formats := ⟨fun _ => none, fun _ => [], fun _ x y => x = y, by simp⟩
  rules := ⟨true, true⟩
  txId := (sampleEntry .any 9).key
  ledgerSeq := 7
  accountKey account := ⟨List.replicate 12 0 ++ account.data, by simp [account.length_data]⟩

def sampleAccount : AccountID := ⟨List.replicate 19 0 ++ [1], rfl⟩

/-- An account root that no transaction has touched. -/
def sampleRoot : STLedgerEntry where
  object := ⟨(((∅ : ExtTreeMap SField (Option FieldValue)).insert sfLedgerEntryType
    (some (.other 1 [0x00, 0x61]))).insert sfOwnerCount (some (.uint32 0))).insert
      sfPreviousTxnID none |>.insert sfPreviousTxnLgrSeq none, false⟩
  key := sampleTx.accountKey sampleAccount
  entryType := .accountRoot

def sampleCheck : STLedgerEntry :=
  { sampleEntry .check 2 with
    object := ⟨(∅ : ExtTreeMap SField (Option FieldValue)).insert sfAccount
      (some (.account sampleAccount)), false⟩ }

theorem sampleRoot_wellFormed : sampleRoot.WellFormed where
  threadable := ⟨STObject.typed_of_all (by decide), fun _ => .inl (by decide)⟩
  ownerCount_slot _ := .inl (by decide)
  states_type _ := by decide

theorem sampleCheck_wellFormed : sampleCheck.WellFormed where
  threadable := ⟨STObject.typed_of_all (by decide), fun h => absurd h (by decide)⟩
  ownerCount_slot h := absurd h (by decide)
  states_type h := absurd h (by decide)

def sampleLedger : Sandbox BaseView := .new (.ledger (LedgerState.empty.put sampleRoot)) false

/-- A check has been written for the account of the ledger. -/
def sampleDelta : FlowSandbox (Sandbox BaseView) :=
  (FlowSandbox.new sampleLedger).store .insert sampleCheck

theorem sampleDelta_runs : Runs (Sandbox BaseView) (.new sampleLedger) sampleDelta :=
  .insert sampleCheck (.refl _) rfl rfl

theorem sampleLedger_valid : Valid sampleLedger := Sandbox.valid_new trivial false

theorem sampleDelta_find (key : Uint256) : (state sampleDelta).find key =
    if sampleCheck.key = key then some sampleCheck
    else if sampleRoot.key = key then some sampleRoot else none := by
  obtain ⟨hvalid, -⟩ := sampleDelta_runs.valid (FlowSandbox.valid_new sampleLedger_valid) le_rfl
  have hitem : sampleDelta.items[key]? =
      if sampleCheck.key = key then some ⟨.insert, sampleCheck⟩ else none := by
    refine (OrderedMap.getElem?_insert _ _ _ _).trans ?_
    split_ifs
    · rfl
    · exact ExtTreeMap.getElem?_empty
  split_ifs at hitem ⊢ with hcheck hroot
  · exact (fits_of_item hvalid hitem).2
  all_goals
    rw [find_of_no_item hvalid hitem]
    change (LedgerState.empty.put sampleRoot).find key = _
    rw [find_put]
    simp [hroot]

theorem sampleDelta_wellFormed (key : Uint256) (sle : STLedgerEntry)
    (hfind : (state sampleDelta).find key = some sle) : sle.WellFormed := by
  rw [sampleDelta_find] at hfind
  split_ifs at hfind
  · cases hfind
    exact sampleCheck_wellFormed
  · cases hfind
    exact sampleRoot_wellFormed

/-- The root of the check's writer is threaded. -/
theorem applyWithTxMeta_threads_exactly_check :
    ∃ parent, sampleDelta.applyWithTxMeta sampleTx id = .ok () parent ∧
      (state parent).find sampleRoot.key = some { sampleRoot with
        object := (sampleRoot.object.setField sfPreviousTxnID (.uint256 sampleTx.txId)).setField
          sfPreviousTxnLgrSeq (.uint32 7) } := by
  have hok : ∃ parent, sampleDelta.applyWithTxMeta sampleTx id = .ok () parent := ⟨_, rfl⟩
  obtain ⟨parent, hok⟩ := hok
  obtain ⟨-, -, howner, -, -⟩ := applyWithTxMeta_threads_exactly sampleTx sampleLedger
    sampleLedger_valid sampleDelta sampleDelta_runs sampleDelta_wellFormed id
    (fun _ => List.Perm.refl _) parent hok
  have hnames : Names sampleTx sampleDelta sampleCheck.key sampleRoot.key :=
    ⟨sampleCheck, [sampleAccount], sampleAccount, .inl rfl, rfl, by simp, rfl⟩
  obtain ⟨threaded, hthread, hfind⟩ := howner sampleCheck.key sampleRoot.key sampleRoot hnames
    (by rw [sampleDelta_find, if_neg (by decide), if_pos rfl]) rfl
  refine ⟨parent, hok, ?_⟩
  cases hthread
  rcases hfind with hfind | ⟨original, horiginal, -, hequiv⟩
  · exact hfind
  · cases horiginal
    cases hequiv

/-- A trust line with a limit of no USD, set against `issuer`. -/
def sampleLine (issuer : AccountID) : STLedgerEntry :=
  { sampleEntry .rippleState 3 with
    object := ⟨(∅ : ExtTreeMap SField (Option FieldValue)).insert sfLowLimit
      (some (.amount ⟨.issue ⟨sampleAccount, issuer⟩, 0, -100, false⟩)), false⟩ }

/-- Only the issuer of a limit is changed. The code takes that for no change and loses it. -/
theorem applyWithTxMeta_loses_issuer_change :
    ∃ (sb : FlowSandbox (Sandbox BaseView)) (parent : Sandbox BaseView),
      Runs (Sandbox BaseView) (.new (.new (.ledger
        (LedgerState.empty.put (sampleLine sampleAccount))) false)) sb ∧
      ReadView.read sb ⟨.any, (sampleLine .zero).key⟩ =
        .ok (some (sampleLine .zero)) ∧
      sb.applyWithTxMeta sampleTx id = .ok () parent ∧
      ReadView.read parent ⟨.any, (sampleLine .zero).key⟩ =
        .ok (some (sampleLine sampleAccount)) ∧
      sampleLine sampleAccount ≠ sampleLine BaseUInt.zero := by
  have hruns : Runs (Sandbox BaseView) (.new (.new (.ledger
      (LedgerState.empty.put (sampleLine sampleAccount))) false)) _ :=
    .update (sampleLine .zero) (.refl _) rfl rfl
  exact ⟨_, _, hruns, rfl, rfl, rfl, by decide⟩

end Samples

end Quaxar.Views
