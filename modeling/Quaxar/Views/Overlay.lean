import Quaxar.Views.ApplyStateTable

/-!
# The table is an exact overlay

Each operation of the table does to the shown state what its name says. Over a whole
history the table therefore reads like the map that underwent the same operations, and
`apply` turns a ledger that holds the base into that map.
-/

namespace Quaxar.Views

open Std (ExtTreeMap)
open LedgerState (find_put find_remove)

namespace ApplyStateTable

variable {entry : StateEntry} {key : Uint256} {base : LedgerState} {table table' : ApplyStateTable}
  {sle : STLedgerEntry}

/-- From `table` to `table'` the shown state becomes `next`, and only `key` is touched. -/
structure Becomes (base : LedgerState) (table table' : ApplyStateTable) (next : LedgerState)
    (key : Uint256) : Prop where
  tracks : Tracks base table'
  shown_eq : shown base table' = next
  drops_eq : table'.dropsDestroyed = table.dropsDestroyed
  mem_items : ∀ a, (next.find a).isSome → a ∈ table.items → a ∈ table'.items
  frame : ∀ a, key ≠ a → table'.items[a]? = table.items[a]?

theorem mem_items_store (action : Action) (key : Uint256) (h : key ∈ table.items) :
    key ∈ (table.store action sle).items := by
  rw [OrderedMap.mem_iff_exists] at h ⊢
  rw [getElem?_store]
  split_ifs
  · exact ⟨_, rfl⟩
  · exact h

section

variable (ht : Tracks base table)

include ht

theorem becomes_store (action : Action)
    (hfits : action.Fits (base.find sle.key) sle) (hact : action ≠ .erase) :
    Becomes base table (table.store action sle) ((shown base table).put sle) sle.key where
  tracks := ht.store hfits
  shown_eq := ht.shown_store hfits hact
  drops_eq := rfl
  mem_items key _ := mem_items_store action key
  frame a ha := by rw [getElem?_store, if_neg ha]

theorem insert_of_absent (habsent : (shown base table).find sle.key = none) :
    ∃ table', insert sle table = .ok () table' ∧
      Becomes base table table' ((shown base table).put sle) sle.key := by
  rcases hitem : table.items[sle.key]? with _ | entry
  · rw [ht.find_of_none hitem] at habsent
    exact ⟨table.store .insert sle, by simp [insert, hitem],
      becomes_store ht .insert habsent (by decide)⟩
  · have herase : entry.action = .erase := by
      by_contra h
      have hsome := shows_isSome.mpr h
      rw [← ht.find_of_some hitem, habsent] at hsome
      cases hsome
    have hfits := (ht _ _ hitem).2
    rw [herase] at hfits
    exact ⟨table.store .modify sle, by simp [insert, hitem, herase],
      becomes_store ht .modify hfits (by decide)⟩

theorem keepAction_of_present (hitem : table.items[sle.key]? = some entry)
    (hpres : ((shown base table).find sle.key).isSome) :
    ∃ table', replace sle table = .ok () table' ∧ update sle table = .ok () table' ∧
      Becomes base table table' ((shown base table).put sle) sle.key := by
  rw [ht.find_of_some hitem, shows_isSome] at hpres
  have hfits := (ht _ _ hitem).2
  rcases hact : entry.action with _ | _ | _ | _
  · rw [hact] at hfits
    have hsome : (base.find sle.key).isSome = true := by
      rw [show base.find sle.key = some entry.sle from hfits]
      rfl
    exact ⟨table.store .modify sle, by simp [replace, hitem, hact],
      by simp [update, hitem, hact], becomes_store ht .modify hsome (by decide)⟩
  · exact absurd hact hpres
  · rw [hact] at hfits
    exact ⟨table.store .insert sle, by simp [replace, hitem, hact],
      by simp [update, hitem, hact], becomes_store ht .insert hfits (by decide)⟩
  · rw [hact] at hfits
    exact ⟨table.store .modify sle, by simp [replace, hitem, hact],
      by simp [update, hitem, hact], becomes_store ht .modify hfits (by decide)⟩

theorem replace_of_present (hpres : ((shown base table).find sle.key).isSome) :
    ∃ table', replace sle table = .ok () table' ∧
      Becomes base table table' ((shown base table).put sle) sle.key := by
  rcases hitem : table.items[sle.key]? with _ | entry
  · rw [ht.find_of_none hitem] at hpres
    exact ⟨table.store .modify sle, by simp [replace, hitem],
      becomes_store ht .modify hpres (by decide)⟩
  · obtain ⟨table', hreplace, -, hbecomes⟩ := keepAction_of_present ht hitem hpres
    exact ⟨table', hreplace, hbecomes⟩

theorem update_of_present (hout : sle.key ∈ table.items)
    (hpres : ((shown base table).find sle.key).isSome) :
    ∃ table', update sle table = .ok () table' ∧
      Becomes base table table' ((shown base table).put sle) sle.key := by
  obtain ⟨entry, hitem⟩ := OrderedMap.mem_iff_exists.mp hout
  obtain ⟨table', -, hupdate, hbecomes⟩ := keepAction_of_present ht hitem hpres
  exact ⟨table', hupdate, hbecomes⟩

theorem becomes_mark (hfits : Action.erase.Fits (base.find sle.key) sle) :
    Becomes base table (table.store .erase sle) ((shown base table).remove sle.key) sle.key where
  tracks := ht.store hfits
  shown_eq := ht.shown_store_erase hfits
  drops_eq := rfl
  mem_items key _ := mem_items_store .erase key
  frame a ha := by rw [getElem?_store, if_neg ha]

theorem becomes_forget (habsent : base.find key = none) :
    Becomes base table { table with items := table.items.erase key }
      ((shown base table).remove key) key where
  tracks := ht.forget key
  shown_eq := ht.shown_forget habsent
  drops_eq := rfl
  mem_items a ha hmem := by
    rw [find_remove] at ha
    rw [OrderedMap.mem_iff_exists] at hmem ⊢
    rw [OrderedMap.getElem?_erase]
    split_ifs at ha ⊢ with hne
    · cases ha
    · exact hmem
  frame a ha := by rw [OrderedMap.getElem?_erase, if_neg ha]

theorem erase_of_present (hout : sle.key ∈ table.items)
    (hpres : ((shown base table).find sle.key).isSome) :
    ∃ table', erase sle table = .ok () table' ∧
      Becomes base table table' ((shown base table).remove sle.key) sle.key := by
  obtain ⟨entry, hitem⟩ := OrderedMap.mem_iff_exists.mp hout
  rw [ht.find_of_some hitem, shows_isSome] at hpres
  have hfits := (ht _ _ hitem).2
  -- an inserted entry is dropped, any other one is marked
  rcases hact : entry.action with _ | _ | _ | _
  · rw [hact] at hfits
    have hsome : (base.find sle.key).isSome = true := by
      rw [show base.find sle.key = some entry.sle from hfits]
      rfl
    exact ⟨_, by simp [erase, hitem, hact], becomes_mark ht hsome⟩
  · exact absurd hact hpres
  · rw [hact] at hfits
    exact ⟨_, by simp [erase, hitem, hact], becomes_forget ht hfits⟩
  · rw [hact] at hfits
    exact ⟨_, by simp [erase, hitem, hact], becomes_mark ht hfits⟩

end

theorem mem_items_store_self (action : Action) : sle.key ∈ (table.store action sle).items := by
  rw [OrderedMap.mem_iff_exists, getElem?_store, if_pos rfl]
  exact ⟨_, rfl⟩

theorem mem_items_of_insert (h : insert sle table = .ok () table') : sle.key ∈ table'.items := by
  unfold insert at h
  split at h
  · split at h <;> cases h
    exact mem_items_store_self .modify
  · cases h
    exact mem_items_store_self .insert

theorem mem_items_of_replace (h : replace sle table = .ok () table') : sle.key ∈ table'.items := by
  unfold replace at h
  split at h
  · split at h <;> cases h <;> exact mem_items_store_self _
  · cases h
    exact mem_items_store_self .modify

theorem mem_items_of_update (h : update sle table = .ok () table') : sle.key ∈ table.items := by
  rcases hitem : table.items[sle.key]? with _ | entry
  · simp [update, hitem] at h
  · exact OrderedMap.mem_iff_exists.mpr ⟨entry, hitem⟩

theorem mem_items_of_erase (h : erase sle table = .ok () table') : sle.key ∈ table.items := by
  rcases hitem : table.items[sle.key]? with _ | entry
  · simp [erase, hitem] at h
  · exact OrderedMap.mem_iff_exists.mpr ⟨entry, hitem⟩

section Reads

open ReadModel

variable {B : Type} [ReadView B] [ReadModel B] [LawfulReadView B] {base : B}

theorem isErased_eq_true :
    table.isErased key = true ↔
      ∃ entry, table.items[key]? = some entry ∧ entry.action = .erase := by
  simp [isErased, Option.any_eq_true]

variable (hbase : Valid base) (ht : Tracks (state base) table) {k : Keylet}

include hbase ht

omit [LawfulReadView B] hbase in
theorem exists_of_some (hout : k.key ∈ table.items) :
    table.exists base k = .ok ((shown (state base) table).find k.key).isSome := by
  obtain ⟨entry, hitem⟩ := OrderedMap.mem_iff_exists.mp hout
  rw [ht.find_of_some hitem]
  unfold ApplyStateTable.exists StateEntry.shows
  rw [hitem]
  split_ifs with h <;> simp [h]

omit [LawfulReadView B] hbase in
theorem exists_eq
    (hexists : ReadView.exists base k = .ok ((state base).find k.key).isSome) :
    table.exists base k = .ok ((shown (state base) table).find k.key).isSome := by
  rcases hitem : table.items[k.key]? with _ | entry
  · simp [ApplyStateTable.exists, hitem, ht.find_of_none hitem, hexists]
  · exact exists_of_some ht (OrderedMap.mem_iff_exists.mpr ⟨entry, hitem⟩)

theorem exists_of_fits (hfits : k.Fits ((shown (state base) table).find k.key)) :
    table.exists base k = .ok ((shown (state base) table).find k.key).isSome := by
  rcases hitem : table.items[k.key]? with _ | entry
  · rw [ht.find_of_none hitem] at hfits
    exact exists_eq ht (LawfulReadView.exists_eq hbase k hfits)
  · exact exists_of_some ht (OrderedMap.mem_iff_exists.mpr ⟨entry, hitem⟩)

omit [LawfulReadView B] hbase in
theorem read_of_some (hout : k.key ∈ table.items) :
    table.read base k = .ok ((shown (state base) table).find k.key) := by
  obtain ⟨entry, hitem⟩ := OrderedMap.mem_iff_exists.mp hout
  rw [ht.find_of_some hitem]
  simp [read, hitem, StateEntry.shows]

omit [LawfulReadView B] hbase in
/-- Where the base reads its own map exactly, so does the table. -/
theorem read_eq
    (hread : ReadView.read base k = .ok ((state base).find k.key)) :
    table.read base k = .ok ((shown (state base) table).find k.key) := by
  rcases hitem : table.items[k.key]? with _ | entry
  · simp [read, hitem, ht.find_of_none hitem, hread]
  · exact read_of_some ht (OrderedMap.mem_iff_exists.mpr ⟨entry, hitem⟩)

theorem read_finds (k : Keylet) :
    ∃ found, table.read base k = .ok found ∧
      k.Finds ((shown (state base) table).find k.key) found := by
  rcases hitem : table.items[k.key]? with _ | entry
  · obtain ⟨found, hread, hfinds⟩ := LawfulReadView.read_finds hbase k
    exact ⟨found, by simp [read, hitem, hread],
      by rwa [ht.find_of_none hitem]⟩
  · exact ⟨_, read_of_some ht (OrderedMap.mem_iff_exists.mpr ⟨entry, hitem⟩), Or.inl rfl⟩

theorem peek_eq (k : Keylet) :
    ∃ found table', table.read base k = .ok found ∧
      peek base k table = .ok found table' ∧
      Becomes (state base) table table' (shown (state base) table) k.key ∧
      (found.isSome → k.key ∈ table'.items) ∧ (found = none → table' = table) := by
  have hsame : Becomes (state base) table table (shown (state base) table) k.key :=
    ⟨ht, rfl, rfl, fun _ _ h => h, fun _ _ => rfl⟩
  rcases hitem : table.items[k.key]? with _ | entry
  · obtain ⟨found, hread, hfinds⟩ := LawfulReadView.read_finds hbase k
    cases found with
    | none =>
      exact ⟨none, table, by simp [read, hitem, hread],
        by simp [peek, hitem, hread], hsame, by simp, fun _ => rfl⟩
    | some sle =>
      have hpres : (state base).find k.key = some sle := by
        rcases hfinds with h | h
        · exact h.symm
        · cases h.1
      have hkey : sle.key = k.key := LedgerState.key_of_find hpres
      have hfits : Action.cache.Fits ((state base).find sle.key) sle := by rwa [hkey]
      refine ⟨some sle, table.store .cache sle, by simp [read, hitem, hread],
        by simp [peek, hitem, hread, store, hkey], ?_, ?_, nofun⟩
      · have hput : (shown (state base) table).put sle = shown (state base) table := by
          apply LedgerState.ext
          intro a
          rw [find_put]
          split_ifs with ha
          · rw [← ha, hkey, ht.find_of_none hitem, hpres]
          · rfl
        rw [← hput, ← hkey]
        exact becomes_store ht .cache hfits (by decide)
      · intro _
        rw [OrderedMap.mem_iff_exists, getElem?_store, if_pos hkey]
        exact ⟨_, rfl⟩
  · have hmem : k.key ∈ table.items := OrderedMap.mem_iff_exists.mpr ⟨entry, hitem⟩
    refine ⟨_, table, read_of_some ht hmem, ?_, hsame, fun _ => hmem, fun _ => rfl⟩
    rw [ht.find_of_some hitem]
    simp [peek, hitem, StateEntry.shows]

/-- Skipping what the table erased in the base and merging what it holds itself gives the
successor in the shown state. -/
theorem succ_eq (key : Uint256)
    (last : Option Uint256) :
    table.succ base key last = .ok ((shown (state base) table).succ key last) := by
  have hfuel : (table.items.keys.toFinset.filter (key < ·)).card < table.items.size + 1 := by
    have hle := (Finset.card_filter_le table.items.keys.toFinset (key < ·)).trans
      (List.toFinset_card_le table.items.keys)
    rw [ExtTreeMap.length_keys] at hle
    omega
  obtain ⟨next, hskip, hnext⟩ := OrderedMap.skipNext_isNext
    (fun key => ReadView.succ base key last) table.isErased
    (.unwound "successor does not advance")
    (fun key => ⟨_, LawfulReadView.succ_eq hbase key last, (state base).succ_isNext key last⟩)
    table.items.keys.toFinset (by
      intro a ha
      obtain ⟨entry, hentry, -⟩ := isErased_eq_true.mp ha
      simpa using OrderedMap.mem_iff_exists.mpr ⟨entry, hentry⟩)
    (table.items.size + 1) key hfuel
  have hlocal := OrderedMap.find?_isNext key table.items.toList
    (OrderedMap.toList_pairwise_lt table.items)
    fun entry => decide (entry.action ≠ .erase)
  have hmerged := (hnext.union hlocal).below last
  have hsame : OrderedMap.IsNext {a | ((shown (state base) table).find a).isSome = true ∧
      OrderedMap.below last a = true} key _ := hmerged.congr (by
    intro a
    simp only [Set.mem_union, Set.mem_ofPred, ExtTreeMap.mem_toList_iff_getElem?_eq_some]
    rcases hitem : table.items[a]? with _ | entry
    · simp [ht.find_of_none hitem, isErased, hitem]
    · rw [ht.find_of_some hitem, shows_isSome]
      by_cases h : entry.action = .erase
      · simp [isErased, hitem, h]
      · simp [h])
  rw [succ, hskip, Except.ok_bind]
  exact congrArg Except.ok (hsame.unique ((shown (state base) table).succ_isNext key last))

end Reads

/-- One entry of the table, brought to a state that is still like the base at its key. -/
theorem applyOp_batchOp {s : LedgerState} (hkey : entry.sle.key = key)
    (hfits : entry.action.Fits (s.find key) entry.sle) :
    ∃ s', (batchOp entry).toList.foldlM LedgerState.applyOp s = .ok s' ∧
      ∀ a, s'.find a = if key = a then entry.shows else s.find a := by
  subst hkey
  rcases hact : entry.action with _ | _ | _ | _
  · rw [hact] at hfits
    refine ⟨s, by simp [batchOp, hact, pure, Except.pure], ?_⟩
    intro a
    rw [shows_of_ne (by simp [hact])]
    split_ifs with ha
    · rw [← ha]
      exact hfits
    · rfl
  · rw [hact] at hfits
    have hpres : (s.find entry.sle.key).isSome = true := hfits
    refine ⟨s.remove entry.sle.key, by simp [batchOp, hact, LedgerState.applyOp, hpres], ?_⟩
    intro a
    rw [find_remove, shows_of_erase hact]
  · rw [hact] at hfits
    have habsent : s.find entry.sle.key = none := hfits
    refine ⟨s.put entry.sle, by simp [batchOp, hact, LedgerState.applyOp, habsent], ?_⟩
    intro a
    rw [find_put, shows_of_ne (by simp [hact])]
  · rw [hact] at hfits
    have hpres : (s.find entry.sle.key).isSome = true := hfits
    refine ⟨s.put entry.sle, by simp [batchOp, hact, LedgerState.applyOp, hpres], ?_⟩
    intro a
    rw [find_put, shows_of_ne (by simp [hact])]

theorem foldlM_batchOps (l : List (Uint256 × StateEntry)) (s : LedgerState)
    (hnodup : (l.map Prod.fst).Nodup) (hfits : ∀ item ∈ l, item.2.sle.key = item.1 ∧
      item.2.action.Fits (s.find item.1) item.2.sle) :
    ∃ s', (l.filterMap fun item => batchOp item.2).foldlM LedgerState.applyOp s = .ok s' ∧
      (∀ item ∈ l, s'.find item.1 = item.2.shows) ∧
      ∀ a, a ∉ l.map Prod.fst → s'.find a = s.find a := by
  induction l generalizing s with
  | nil => exact ⟨s, rfl, by simp, fun _ _ => rfl⟩
  | cons item l ih =>
    rw [List.map_cons, List.nodup_cons] at hnodup
    obtain ⟨hkey, hitem⟩ := hfits item List.mem_cons_self
    obtain ⟨s₁, hop, hfind₁⟩ := applyOp_batchOp hkey hitem
    -- the later entries are at other keys, where nothing has changed yet
    have hne : ∀ other ∈ l, item.1 ≠ other.1 := by
      intro other hother heq
      exact hnodup.1 (heq ▸ List.mem_map_of_mem hother)
    obtain ⟨s₂, hrest, hmem, hskip⟩ := ih s₁ hnodup.2 (by
      intro other hother
      have := hfits other (List.mem_cons_of_mem item hother)
      rwa [hfind₁, if_neg (hne other hother)])
    refine ⟨s₂, ?_, ?_, ?_⟩
    · have happend : (item :: l).filterMap (fun item => batchOp item.2) =
          (batchOp item.2).toList ++ l.filterMap fun item => batchOp item.2 := by
        rcases h : batchOp item.2 with _ | op <;> simp [h]
      rw [happend, List.foldlM_append, hop]
      exact hrest
    · intro other hother
      rcases List.mem_cons.mp hother with rfl | hother
      · rw [hskip _ hnodup.1, hfind₁, if_pos rfl]
      · exact hmem other hother
    · intro a ha
      rw [List.map_cons, List.mem_cons, not_or] at ha
      rw [hskip a ha.2, hfind₁, if_neg (Ne.symm ha.1)]

theorem Tracks.rawApplySleBatch (ht : Tracks base table) (drops : ℕ) :
    Ledger.rawApplySleBatch table.batchOps ⟨base, drops⟩ = .ok () ⟨shown base table, drops⟩ := by
  obtain ⟨s', hfold, hmem, hskip⟩ := foldlM_batchOps table.items.toList base
    (OrderedMap.nodup_keys_toList table.items) (by
      rintro ⟨key, entry⟩ hitem
      exact ht key entry (ExtTreeMap.mem_toList_iff_getElem?_eq_some.mp hitem))
  have hstate : s' = shown base table := by
    apply LedgerState.ext
    intro a
    rcases hitem : table.items[a]? with _ | entry
    · rw [ht.find_of_none hitem]
      apply hskip
      rw [List.mem_map]
      rintro ⟨⟨b, entry⟩, hb, rfl⟩
      rw [ExtTreeMap.mem_toList_iff_getElem?_eq_some, hitem] at hb
      cases hb
    · rw [ht.find_of_some hitem]
      exact hmem (a, entry) (ExtTreeMap.mem_toList_iff_getElem?_eq_some.mpr hitem)
  unfold Ledger.rawApplySleBatch batchOps
  rw [hfold, hstate]

theorem Tracks.apply_eq (ht : Tracks base table) (drops : ℕ) :
    table.apply ⟨base, drops⟩ =
      Ledger.rawDestroyXrp table.dropsDestroyed ⟨shown base table, drops⟩ := by
  unfold apply
  rw [EStateM.bind_of_ok (ht.rawApplySleBatch drops)]

theorem Tracks.nodup_batchOps (ht : Tracks base table) :
    (table.batchOps.map fun op => op.2.key).Nodup := by
  have hsub : (table.batchOps.map fun op => op.2.key).Sublist
      (table.items.toList.map Prod.fst) := by
    have hkeys : ∀ l : List (Uint256 × StateEntry), (∀ item ∈ l, item.2.sle.key = item.1) →
        ((l.filterMap fun item => batchOp item.2).map fun op => op.2.key).Sublist
          (l.map Prod.fst) := by
      intro l hl
      induction l with
      | nil => simp
      | cons item l ih =>
        have hkey := hl item List.mem_cons_self
        have hrest := ih fun other hother => hl other (List.mem_cons_of_mem item hother)
        unfold batchOp at hrest ⊢
        rcases hact : item.2.action with _ | _ | _ | _ <;> simp [hact, hkey, hrest]
    apply hkeys
    rintro ⟨key, entry⟩ hitem
    exact (ht key entry (ExtTreeMap.mem_toList_iff_getElem?_eq_some.mp hitem)).1
  exact hsub.nodup (OrderedMap.nodup_keys_toList table.items)

end ApplyStateTable

/-- What a transaction can do to the table. -/
inductive TableOp where
  | peek (k : Keylet)
  | insert (sle : STLedgerEntry)
  | replace (sle : STLedgerEntry)
  | update (sle : STLedgerEntry)
  | erase (sle : STLedgerEntry)
  | destroyXrp (fee : XRPAmount)

namespace TableOp

def run {B : Type} [ReadView B] (base : B) : TableOp → EStateM ViewError ApplyStateTable Unit
  | peek k => do
    let _ ← ApplyStateTable.peek base k
  | insert sle => ApplyStateTable.insert sle
  | replace sle => ApplyStateTable.replace sle
  | update sle => ApplyStateTable.update sle
  | erase sle => ApplyStateTable.erase sle
  | destroyXrp fee => ApplyStateTable.destroyXrp fee

/-- The same operations on a map and a sum of destroyed drops. Only absent keys are
inserted, and only present ones are replaced, updated or erased. -/
def onMap : LedgerState × XRPAmount → TableOp → Option (LedgerState × XRPAmount)
  | (s, drops), peek _ => some (s, drops)
  | (s, drops), insert sle => if (s.find sle.key).isSome then none else some (s.put sle, drops)
  | (s, drops), replace sle => if (s.find sle.key).isSome then some (s.put sle, drops) else none
  | (s, drops), update sle => if (s.find sle.key).isSome then some (s.put sle, drops) else none
  | (s, drops), erase sle =>
    if (s.find sle.key).isSome then some (s.remove sle.key, drops) else none
  | (s, drops), destroyXrp fee => some (s, drops + fee)

section Runs

open ReadModel ApplyStateTable

variable {B : Type} [ReadView B] [ReadModel B] [LawfulReadView B] {base : B}
  {table table' : ApplyStateTable} {s s' : LedgerState} {drops drops' : XRPAmount}

theorem destroyXrp_eq_ok {fee : XRPAmount}
    (h : ApplyStateTable.destroyXrp fee table = .ok () table') :
    table' = { table with dropsDestroyed := table.dropsDestroyed + fee } := by
  unfold ApplyStateTable.destroyXrp at h
  split at h
  · rename_i drops hadd
    cases h
    rw [XRPAmount.checkedAdd_eq_ok hadd]
  · cases h

/-- An operation that the map allows and that returns keeps table and map together. -/
theorem run_eq_ok (hbase : Valid base) (ht : Tracks (state base) table) (op : TableOp)
    (hmap : onMap (shown (state base) table, table.dropsDestroyed) op = some (s', drops'))
    (hrun : op.run base table = .ok () table') :
    Tracks (state base) table' ∧ shown (state base) table' = s' ∧
      table'.dropsDestroyed = drops' := by
  have hof : ∀ {x : EStateM ViewError ApplyStateTable Unit} {next : LedgerState} {key : Uint256},
      (∃ t, x table = .ok () t ∧ Becomes (state base) table t next key) →
      x table = .ok () table' → next = s' → table.dropsDestroyed = drops' →
      Tracks (state base) table' ∧ shown (state base) table' = s' ∧
        table'.dropsDestroyed = drops' := by
    rintro x next key ⟨t, hx, hbecomes⟩ hx' rfl rfl
    rw [hx] at hx'
    cases hx'
    exact ⟨hbecomes.tracks, hbecomes.shown_eq, hbecomes.drops_eq⟩
  cases op with
  | peek k =>
    obtain ⟨found, t, -, hpeek, hbecomes, -⟩ := ApplyStateTable.peek_eq hbase ht k
    simp only [onMap, Option.some.injEq, Prod.mk.injEq] at hmap
    refine hof ⟨t, ?_, hbecomes⟩ hrun hmap.1 hmap.2
    change (ApplyStateTable.peek base k >>= fun _ => pure ()) table = _
    rw [EStateM.bind_of_ok hpeek]
    rfl
  | insert sle =>
    simp only [onMap, Option.ite_none_left_eq_some, Option.some.injEq, Prod.mk.injEq] at hmap
    exact hof (insert_of_absent ht (by simpa using hmap.1)) hrun hmap.2.1 hmap.2.2
  | replace sle =>
    simp only [onMap, Option.ite_none_right_eq_some, Option.some.injEq, Prod.mk.injEq] at hmap
    exact hof (replace_of_present ht hmap.1) hrun hmap.2.1 hmap.2.2
  | update sle =>
    simp only [onMap, Option.ite_none_right_eq_some, Option.some.injEq, Prod.mk.injEq] at hmap
    exact hof (update_of_present ht (mem_items_of_update hrun) hmap.1) hrun hmap.2.1 hmap.2.2
  | erase sle =>
    simp only [onMap, Option.ite_none_right_eq_some, Option.some.injEq, Prod.mk.injEq] at hmap
    exact hof (erase_of_present ht (mem_items_of_erase hrun) hmap.1) hrun hmap.2.1 hmap.2.2
  | destroyXrp fee =>
    simp only [onMap, Option.some.injEq, Prod.mk.injEq] at hmap
    rw [destroyXrp_eq_ok hrun]
    exact ⟨ht, hmap.1, hmap.2⟩

theorem forM_run_eq_ok (hbase : Valid base) (ops : List TableOp) (ht : Tracks (state base) table)
    (hmap : ops.foldlM onMap (shown (state base) table, table.dropsDestroyed) = some (s', drops'))
    (hrun : forM ops (run base) table = .ok () table') :
    Tracks (state base) table' ∧ shown (state base) table' = s' ∧
      table'.dropsDestroyed = drops' := by
  induction ops generalizing table with
  | nil =>
    cases hmap
    cases hrun
    exact ⟨ht, rfl, rfl⟩
  | cons op ops ih =>
    rw [List.foldlM_cons, Option.bind_eq_bind, Option.bind_eq_some_iff] at hmap
    obtain ⟨⟨s₁, drops₁⟩, hop, hrest⟩ := hmap
    rw [List.forM_cons, EStateM.bind_eq_ok_iff] at hrun
    obtain ⟨_, table₁, hrun₁, hrun₂⟩ := hrun
    obtain ⟨ht₁, rfl, rfl⟩ := run_eq_ok hbase ht op hop hrun₁
    exact ih ht₁ hrest hrun₂

end Runs

end TableOp

/-- For any finite map as the base and any history that the map `M` can follow and the
table returns from: the table reads as `M` does, and committing it to a ledger that holds
the base operates on no key twice, succeeds at every key and leaves `M`, from which the
sum of the destroyed drops is taken. -/
theorem applyStateTable_exact_overlay (m : LedgerState) (ops : List TableOp)
    (table : ApplyStateTable) (M : LedgerState) (destroyed : XRPAmount)
    (hmap : ops.foldlM TableOp.onMap (m, 0) = some (M, destroyed))
    (hrun : forM ops (TableOp.run (BaseView.ofMap m)) ApplyStateTable.new = .ok () table) :
    (∀ k, table.exists (BaseView.ofMap m) k = .ok (M.find k.key).isSome) ∧
    (∀ k, table.read (BaseView.ofMap m) k = .ok (M.find k.key)) ∧
    (∀ key last, ∃ next, table.succ (BaseView.ofMap m) key last = .ok next ∧
      OrderedMap.IsNext {a | (M.find a).isSome = true ∧ OrderedMap.below last a = true} key next) ∧
    (table.batchOps.map fun op => op.2.key).Nodup ∧
    ∀ drops, Ledger.rawApplySleBatch table.batchOps ⟨m, drops⟩ = .ok () ⟨M, drops⟩ ∧
      table.apply ⟨m, drops⟩ = Ledger.rawDestroyXrp destroyed ⟨M, drops⟩ := by
  have hbase : ReadModel.Valid (BaseView.ofMap m) := trivial
  obtain ⟨ht, hshown, hdrops⟩ := TableOp.forM_run_eq_ok hbase ops
    (ApplyStateTable.tracks_new m) (by rw [ApplyStateTable.shown_new]; exact hmap) hrun
  subst hshown hdrops
  refine ⟨?_, ?_, ?_, ht.nodup_batchOps, ?_⟩
  · intro k
    exact ApplyStateTable.exists_eq ht rfl
  · intro k
    exact ApplyStateTable.read_eq ht (BaseView.read_ofMap m k)
  · intro key last
    exact ⟨_, ApplyStateTable.succ_eq hbase ht key last, LedgerState.succ_isNext _ key last⟩
  · intro drops
    exact ⟨ht.rawApplySleBatch drops, ht.apply_eq drops⟩

/-- An entry without fields, under a key of one byte. -/
def sampleEntry (entryType : LedgerEntryType) (b : UInt8) : STLedgerEntry :=
  ⟨⟨∅, false⟩, ⟨List.replicate 31 0 ++ [b], rfl⟩, entryType⟩

/-- An offer turned into an escrow, another one erased, and a check added. -/
theorem applyStateTable_exact_overlay_sample :
    ∃ table, forM [TableOp.peek ⟨.offer, (sampleEntry .offer 1).key⟩,
        .update (sampleEntry .escrow 1), .peek ⟨.offer, (sampleEntry .offer 2).key⟩,
        .erase (sampleEntry .offer 2), .insert (sampleEntry .check 3), .destroyXrp 10]
        (TableOp.run (BaseView.ofMap
          ((LedgerState.empty.put (sampleEntry .offer 1)).put (sampleEntry .offer 2))))
        ApplyStateTable.new = .ok () table ∧
      table.apply ⟨(LedgerState.empty.put (sampleEntry .offer 1)).put (sampleEntry .offer 2), 100⟩ =
        .ok () ⟨((((LedgerState.empty.put (sampleEntry .offer 1)).put (sampleEntry .offer 2)).put
          (sampleEntry .escrow 1)).remove (sampleEntry .offer 2).key).put (sampleEntry .check 3),
          90⟩ := by
  refine ⟨_, rfl, ?_⟩
  obtain ⟨-, -, -, -, happly⟩ := applyStateTable_exact_overlay
    ((LedgerState.empty.put (sampleEntry .offer 1)).put (sampleEntry .offer 2))
    [.peek ⟨.offer, (sampleEntry .offer 1).key⟩, .update (sampleEntry .escrow 1),
      .peek ⟨.offer, (sampleEntry .offer 2).key⟩, .erase (sampleEntry .offer 2),
      .insert (sampleEntry .check 3), .destroyXrp 10] _ _ 10 rfl rfl
  rw [(happly 100).2]
  rfl

end Quaxar.Views
