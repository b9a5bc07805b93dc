import Quaxar.Views.DirectoryRuns

/-!
# Deleting a directory

`dirDelete` walks the pages from the root, calls back for their keys and erases them. It stops at
a page without a forward link. After a removal the link of the last page can be there and be 0, and
then the walk comes back to the root, which it takes for a cycle.
-/

namespace Quaxar.Views.Directory

open LinkedRing (Linked Follows single append unlink)
open ReadModel ApplyModel
open Function (update_self update_of_ne)

variable {V C : Type} [ApplyView V] (ctx : Context) (dir : Keylet)

/-- The loop of `dir_delete`. The pages are `u64` numbers and none is visited twice, so that
`2 ^ 64 + 1` rounds are enough. -/
def deletePages (callback : C → Uint256 → C) : ℕ → List ℕ → ℕ → C → EStateM ViewError V (Bool × C)
  | 0, _, _, _ => throw (.conversion "Directory chain: cycle detected")
  | rounds + 1, visited, page, called =>
    if visited.contains page then throw (.conversion "Directory chain: cycle detected")
    else do
      let k ← EStateM.ofExcept (pageKeylet ctx dir page)
      match ← ApplyView.peek k with
      | none => pure (false, called)
      | some node =>
        let called := (node.object.getFieldV256 sfIndexes).foldl callback called
        ApplyView.erase node
        if node.object.isFieldPresent sfIndexNext then
          deletePages callback rounds (page :: visited) (node.object.getFieldU64 sfIndexNext) called
        else pure (true, called)

/-- The callback changes a state `called` of its own. -/
def dirDelete (callback : C → Uint256 → C) (called : C) : EStateM ViewError V (Bool × C) :=
  deletePages ctx dir callback (2 ^ 64 + 1) [] 0 called

/-- The entry of the last page, which the root points back to. -/
def lastPage (s : LedgerState) : Option STLedgerEntry :=
  (s.find (pageKey ctx dir 0)).bind fun root =>
    s.find (pageKey ctx dir (root.object.getFieldU64 sfIndexPrevious))

/-- The last page has no forward link. -/
def EndsOpen (s : LedgerState) : Prop :=
  ∃ sle, lastPage ctx dir s = some sle ∧ sle.object.isFieldPresent sfIndexNext = false

/-- The keys of page `n`. -/
def keysOn (D : ℕ → Option Page) (n : ℕ) : List Uint256 :=
  ((D n).map LinkedRing.Node.value).getD []

variable {D : ℕ → Option Page} {n : ℕ}

theorem keysOn_of_eq_some {page : Page} (h : D n = some page) : keysOn D n = page.value := by
  rw [keysOn, h]
  rfl

theorem isSome_of_mem_keysOn {key : Uint256} (h : key ∈ keysOn D n) : (D n).isSome = true := by
  rcases hD : D n with _ | page
  · simp [keysOn, hD] at h
  · rfl

variable {V : Type} [ApplyView V] [ApplyModel V]

/-- The views that any calls of `dirAdd` and `dirRemove` lead to, from one without the directory.
The calls may fail or be refused. -/
inductive Calls (ctx : Context) (dir : Keylet) (base : LedgerState) : V → Prop
  | absent {v : V} (hvalid : Valid v) (hbase : state v = base)
      (habsent : ∀ n < 2 ^ 64, base.find (pageKey ctx dir n) = none) :
      Calls ctx dir base v
  | add {v : V} (h : Calls ctx dir base v) (preserveOrder : Bool) (key : Uint256)
      {describe : STObject → STObject} (hdescribe : Describes describe) :
      Calls ctx dir base ((dirAdd ctx preserveOrder dir key describe).after v)
  | remove {v : V} (h : Calls ctx dir base v) {page : ℕ} (hpage : page < 2 ^ 64)
      (key : Uint256) (keepRoot : Bool) :
      Calls ctx dir base ((dirRemove ctx dir page key keepRoot).after v)

/-- The pages are linked, and all but the root have keys. -/
structure Intact (D : ℕ → Option Page) : Prop where
  linked : Linked D
  nonempty : ∀ n page, D n = some page → n ≠ 0 → page.value ≠ []
  nodup : ∀ n page, D n = some page → page.value.Nodup

variable [LawfulApplyView V] {ctx : Context} {dir : Keylet} {base : LedgerState} {v : V}
  {D : ℕ → Option Page} {out : Set ℕ} {n : ℕ} {page root : Page} {key : Uint256}

theorem intact_single (key : Uint256) : Intact (single [key]) where
  linked := LinkedRing.linked_single [key]
  nonempty n page hpage hn := by
    simp only [single] at hpage
    split_ifs at hpage
    contradiction
  nodup n page hpage := by
    simp only [single] at hpage
    split_ifs at hpage
    cases hpage
    exact List.nodup_singleton key

theorem Intact.setKeys (h : Intact D) (hpage : D n = some page) {keys : List Uint256}
    (hne : n ≠ 0 → keys ≠ []) (hnodup : keys.Nodup) :
    Intact (Function.update D n (some { page with value := keys })) where
  linked := linked_update h.linked hpage keys
  nonempty m other hother hm := by
    by_cases hmn : m = n
    · subst hmn
      rw [update_self] at hother
      cases hother
      exact hne hm
    · rw [update_of_ne hmn] at hother
      exact h.nonempty m other hother hm
  nodup m other hother := by
    by_cases hmn : m = n
    · subst hmn
      rw [update_self] at hother
      cases hother
      exact hnodup
    · rw [update_of_ne hmn] at hother
      exact h.nodup m other hother

theorem Intact.append (h : Intact D) (hroot : D 0 = some root)
    (hn : ∀ m, (D m).isSome = true → m < n) (key : Uint256) :
    Intact (append D n root.prev [key]) where
  linked := h.linked.append hroot [key] hn
  nonempty m other hother hm := by
    rcases LinkedRing.append_eq_some hother with ⟨-, rfl⟩ | ⟨-, old, hold, rfl⟩
    · simp
    · exact h.nonempty m old hold hm
  nodup m other hother := by
    rcases LinkedRing.append_eq_some hother with ⟨-, rfl⟩ | ⟨-, old, hold, rfl⟩
    · simp
    · exact h.nodup m old hold

theorem Intact.unlink (h : Intact D) (hpage : D n = some page) (hn : n ≠ 0) :
    Intact (unlink D n page) where
  linked := h.linked.unlink hpage hn
  nonempty m other hother hm := by
    obtain ⟨-, old, hold, rfl⟩ := LinkedRing.unlink_eq_some hother
    exact h.nonempty m old hold hm
  nodup m other hother := by
    obtain ⟨-, old, hold, rfl⟩ := LinkedRing.unlink_eq_some hother
    exact h.nodup m old hold

/-- A view with a directory that is not there, or whose pages are intact. -/
def Keeps (ctx : Context) (dir : Keylet) (base : LedgerState) (v : V) : Prop :=
  ∃ D, Stores ctx dir base v D ∅ ∧ ((∀ n, D n = none) ∨ Intact D)

theorem dirAdd_keeps (hprop : Proper ctx dir) (h : Keeps ctx dir base v)
    (preserveOrder : Bool) (key : Uint256) {describe : STObject → STObject}
    (hdescribe : Describes describe) :
    Keeps ctx dir base ((dirAdd ctx preserveOrder dir key describe).after v) := by
  obtain ⟨D, hst, hnone | hintact⟩ := h
  · obtain rfl : D = fun _ => none := funext hnone
    obtain ⟨v', hadd, hst⟩ := dirAdd_absent hprop hst preserveOrder key hdescribe
    rw [EStateM.after_of_ok hadd]
    exact ⟨_, hst, .inr (intact_single key)⟩
  · obtain ⟨root, hroot⟩ := Option.isSome_iff_exists.mp hintact.linked.root
    obtain ⟨page, hlast, -, hmax⟩ := hintact.linked.last hroot
    have hadds := dirAdd_adds hprop hst hlast hroot hmax preserveOrder key hdescribe
    unfold EStateM.after
    generalize dirAdd ctx preserveOrder dir key describe v = result at hadds
    cases hadds with
    | doubled hkey hst => exact ⟨D, hst, .inr hintact⟩
    | extended hlt hkey hperm hst =>
      refine ⟨_, hst, .inr (hintact.setKeys hlast ?_ ?_)⟩
      · intro _ hnil
        rw [hnil] at hperm
        simp at hperm
      · rw [hperm.nodup_iff, List.nodup_cons]
        exact ⟨hkey, hintact.nodup _ page hlast⟩
    | appended hst =>
      exact ⟨_, hst,
        .inr (hintact.append hroot (fun m hm => Nat.lt_succ_of_le (hmax m hm)) key)⟩
    | full hroom hst => exact ⟨D, hst, .inr hintact⟩

theorem dirRemove_keeps (hprop : Proper ctx dir) (h : Keeps ctx dir base v)
    (hn : n < 2 ^ 64) (key : Uint256) (keepRoot : Bool) :
    Keeps ctx dir base ((dirRemove ctx dir n key keepRoot).after v) := by
  obtain ⟨D, hst, hnone | hintact⟩ := h
  · obtain ⟨v', hremove, hst'⟩ := dirRemove_absent hprop hst (hnone n) hn key keepRoot
    rw [EStateM.after_of_ok hremove]
    exact ⟨D, hst', .inl hnone⟩
  · have hremoves := dirRemove_removes hprop hst hintact.linked hintact.nonempty hn key keepRoot
    unfold EStateM.after
    generalize dirRemove ctx dir n key keepRoot v = result at hremoves
    cases hremoves with
    | missing hkey hst => exact ⟨D, hst, .inr hintact⟩
    | shortened hpage hne hst =>
      exact ⟨_, hst, .inr (hintact.setKeys hpage (fun _ => hne)
        ((hintact.nodup _ _ hpage).erase key))⟩
    | emptied hn hpage hnil hkeep hst =>
      exact ⟨_, hst, .inr (hintact.setKeys hpage (fun h0 => absurd rfl h0) List.nodup_nil)⟩
    | erased hn hpage hnil hnext hst =>
      exact ⟨_, hst, .inl (update_root_eq_none hintact.linked hpage hnext)⟩
    | unlinked hn hpage hroot hnil hkeep hst =>
      exact ⟨_, hst, .inr (hintact.unlink hpage hn)⟩
    | collapsed hn hpage hroot hnil hnext hprev hempty hst =>
      exact ⟨_, hst, .inl (unlink_root_eq_none hintact.linked hpage hn hnext hprev)⟩

theorem Calls.keeps (hprop : Proper ctx dir) (h : Calls ctx dir base v) :
    Keeps ctx dir base v := by
  induction h with
  | absent hvalid hbase habsent =>
    exact ⟨fun _ => none, Stores.absent hvalid hbase habsent, .inl fun _ => rfl⟩
  | add h preserveOrder key hdescribe ih =>
    exact dirAdd_keeps hprop ih preserveOrder key hdescribe
  | remove h hpage key keepRoot ih => exact dirRemove_keeps hprop ih hpage key keepRoot

variable {V : Type} [ApplyView V] [ApplyModel V]

/-- Deleting calls back for `keys`, which are the keys of the directory, each once, and leaves no
page. -/
structure Deletes (ctx : Context) (dir : Keylet) (v : V) (keys : List Uint256) (v' : V) :
    Prop where
  run : ∀ {C : Type} (callback : C → Uint256 → C) (called : C),
    dirDelete ctx dir callback called v = .ok (true, keys.foldl callback called) v'
  once : keys.Nodup
  mem_iff : ∀ key, key ∈ keys ↔ ∃ n, key ∈ keysOn (pageAt ctx dir (state v)) n
  gone : ∀ n, pageAt ctx dir (state v') n = none

variable [LawfulApplyView V] {ctx : Context} {dir : Keylet} {base : LedgerState} {v : V}
  {D : ℕ → Option Page} {n : ℕ} {page : Page}

theorem HasLink.isFieldPresent {object : STObject} {field : SField} (h : HasLink object field n)
    (hn : n ≠ 0) : object.isFieldPresent field = true := by
  rcases h with ⟨-, h0⟩ | hslot
  · exact absurd h0 hn
  · rw [STObject.isFieldPresent, STObject.peekAtPfield, hslot]
    rfl

variable {visited : List ℕ}

theorem deletePages_succ (hprop : Proper ctx dir) (h : Stores ctx dir base v D ∅)
    (hpage : D n = some page) (hfresh : n ∉ visited) :
    ∃ node v', (state v).find (pageKey ctx dir n) = some node ∧
      IsPage node (pageKey ctx dir n) page ∧
      (∀ key, key ≠ pageKey ctx dir n → (state v').find key = (state v).find key) ∧
      Stores ctx dir base v' (Function.update D n none) ∅ ∧
      ∀ {C : Type} (callback : C → Uint256 → C) (rounds : ℕ) (called : C),
        deletePages ctx dir callback (rounds + 1) visited n called v =
          (if node.object.isFieldPresent sfIndexNext then
            deletePages ctx dir callback rounds (n :: visited) page.next
              (page.value.foldl callback called)
          else pure (true, page.value.foldl callback called)) v' := by
  have hsome : (D n).isSome = true := by rw [hpage]; rfl
  obtain ⟨node, hfind, hnode⟩ := find_page h hpage
  obtain ⟨found, v₁, hpeek, rfl, -, hst, hstate⟩ :=
    peek_eq hprop.distinct h (h.within n hsome)
  obtain ⟨v₂, herase, hother, hst⟩ :=
    hst.erase hprop.distinct hsome (Set.mem_insert n ∅) hnode.key_eq
  refine ⟨node, v₂, hfind, hnode, ?_, hst.forget, ?_⟩
  · intro key hkey
    rw [hother key hkey, hstate]
  · intro C callback rounds called
    rw [hfind] at hpeek
    rw [deletePages, if_neg (by simpa using hfresh), pageKeylet_eq hprop.isDirectory,
      EStateM.ofExcept, pure_bind, EStateM.bind_of_ok hpeek]
    simp only [hnode.object.getFieldV256, hnode.object.next_link.getFieldU64]
    rw [EStateM.bind_of_ok herase]

/-- The loop from page `n` on, when `n :: rest` are the pages that are left. It erases them all,
and then the link of the last one decides. -/
theorem deletePages_eq (hprop : Proper ctx dir) {s : LedgerState} (rest : List ℕ)
    (h : Stores ctx dir base v (fun m => if m ∈ n :: rest then D m else none) ∅)
    (hbounded : ∀ m ∈ n :: rest, m < 2 ^ 64) (hentries : ∀ m ∈ n :: rest,
      (state v).find (pageKey ctx dir m) = s.find (pageKey ctx dir m))
    (hsort : (n :: rest).Pairwise (· < ·)) (hlinks : (n :: rest ++ [0]).IsChain (Follows D))
    (hfresh : ∀ m ∈ n :: rest, m ∉ visited) (hzero : 0 ∈ n :: visited) :
    ∃ last v', s.find (pageKey ctx dir ((n :: rest).getLast (List.cons_ne_nil n rest))) =
        some last ∧ Stores ctx dir base v' (fun _ => none) ∅ ∧
      ∀ {C : Type} (callback : C → Uint256 → C) (extra : ℕ) (called : C),
        deletePages ctx dir callback (extra + rest.length + 2) visited n called v =
          if last.object.isFieldPresent sfIndexNext then
            .error (.conversion "Directory chain: cycle detected") v'
          else .ok (true, ((n :: rest).flatMap (keysOn D)).foldl callback called) v' := by
  induction rest generalizing n v visited with
  | nil =>
    obtain ⟨⟨page, root, hpage, -, hnext, -⟩, -⟩ := List.isChain_cons_cons.mp hlinks
    obtain ⟨node, v', hfind, hnode, -, hst, hrun⟩ := deletePages_succ hprop h
      (by rw [if_pos (List.mem_cons_self ..), hpage]) (hfresh n (List.mem_cons_self ..))
    rw [hentries n (List.mem_cons_self ..)] at hfind
    refine ⟨node, v', hfind, ?_, ?_⟩
    · convert hst using 1
      funext m
      by_cases hm : m = n
      · rw [hm, update_self]
      · rw [update_of_ne hm, if_neg (by simpa using hm)]
    · intro C callback extra called
      change deletePages ctx dir callback (extra + 1 + 1) visited n called v = _
      rw [hrun callback (extra + 1) called, hnext, List.flatMap_singleton, keysOn_of_eq_some hpage]
      split_ifs
      · rw [deletePages, if_pos (by simpa using hzero)]
        rfl
      · rfl
  | cons next rest ih =>
    obtain ⟨⟨page, other, hpage, -, hnext, -⟩, hlinks'⟩ := List.isChain_cons_cons.mp hlinks
    obtain ⟨hlt, hsort'⟩ := List.pairwise_cons.mp hsort
    obtain ⟨node, v₁, hfind, hnode, hother, hst, hrun⟩ := deletePages_succ hprop h
      (by rw [if_pos (List.mem_cons_self ..), hpage]) (hfresh n (List.mem_cons_self ..))
    have hpages : Function.update (fun m => if m ∈ n :: next :: rest then D m else none) n none =
        fun m => if m ∈ next :: rest then D m else none := by
      funext m
      by_cases hm : m = n
      · rw [hm, update_self, if_neg fun hmem => lt_irrefl n (hlt n hmem)]
      · simp [hm]
    rw [hpages] at hst
    have hne : next ≠ 0 := Nat.ne_zero_of_lt (hlt next (List.mem_cons_self ..))
    have hentries' : ∀ m ∈ next :: rest,
        (state v₁).find (pageKey ctx dir m) = s.find (pageKey ctx dir m) := by
      intro m hm
      rw [hother, hentries m (List.mem_cons_of_mem n hm)]
      intro heq
      exact (hlt m hm).ne' (hprop.distinct m (hbounded m (List.mem_cons_of_mem n hm)) n
        (hbounded n (List.mem_cons_self ..)) heq)
    have hfresh' : ∀ m ∈ next :: rest, m ∉ n :: visited := by
      intro m hm hmem
      rcases List.mem_cons.mp hmem with rfl | hmem
      · exact lt_irrefl m (hlt m hm)
      · exact hfresh m (List.mem_cons_of_mem n hm) hmem
    obtain ⟨last, v', hlast, hgone, hrun'⟩ := ih hst
      (fun m hm => hbounded m (List.mem_cons_of_mem n hm)) hentries' hsort' hlinks' hfresh'
      (List.mem_cons_of_mem next hzero)
    refine ⟨last, v', ?_, hgone, ?_⟩
    · rwa [List.getLast_cons (List.cons_ne_nil next rest)]
    · intro C callback extra called
      have hpres := hnode.object.next_link.isFieldPresent (by rwa [hnext])
      have hkeys : (n :: next :: rest).flatMap (keysOn D) =
          page.value ++ (next :: rest).flatMap (keysOn D) := by
        rw [List.flatMap_cons, keysOn_of_eq_some hpage]
      rw [List.length_cons, ← Nat.add_assoc, hrun callback (extra + rest.length + 2) called,
        if_pos hpres, hnext, hrun', hkeys, List.foldl_append]

variable {numbers : List ℕ}

theorem length_le_of_bounded {b : ℕ} (hnodup : numbers.Nodup) (h : ∀ m ∈ numbers, m < b) :
    numbers.length ≤ b := by
  have hsub : numbers ⊆ List.range b := fun m hm => List.mem_range.mpr (h m hm)
  simpa using (hnodup.subperm hsub).length_le

/-- Deleting a directory that is there. The pages are `numbers`. -/
theorem dirDelete_eq (hprop : Proper ctx dir) (h : Stores ctx dir base v D ∅)
    (hlinked : Linked D) :
    ∃ (numbers : List ℕ) (last : STLedgerEntry) (v' : V), numbers.Nodup ∧
      (∀ m, (D m).isSome = true ↔ m ∈ numbers) ∧ lastPage ctx dir (state v) = some last ∧
      Stores ctx dir base v' (fun _ => none) ∅ ∧
      ∀ {C : Type} (callback : C → Uint256 → C) (called : C),
        dirDelete ctx dir callback called v =
          if last.object.isFieldPresent sfIndexNext then
            .error (.conversion "Directory chain: cycle detected") v'
          else .ok (true, (numbers.flatMap (keysOn D)).foldl callback called) v' := by
  obtain ⟨numbers, hhead, hsort, hmem, hlinks⟩ := hlinked.exists_list
  obtain ⟨rest, rfl⟩ : ∃ rest, numbers = 0 :: rest := by
    rcases numbers with _ | ⟨m, rest⟩
    · cases hhead
    · exact ⟨rest, by rw [Option.some.inj hhead]⟩
  have hpages : (fun m => if m ∈ 0 :: rest then D m else none) = D := by
    funext m
    by_cases hm : m ∈ 0 :: rest
    · rw [if_pos hm]
    · rw [if_neg hm]
      exact (Option.not_isSome_iff_eq_none.mp (mt (hmem m).mp hm)).symm
  have hbounded : ∀ m ∈ 0 :: rest, m < 2 ^ 64 := fun m hm => h.within m ((hmem m).mpr hm)
  have hnodup : (0 :: rest).Nodup := hsort.imp ne_of_lt
  obtain ⟨last, v', hlast, hgone, hrun⟩ := deletePages_eq (D := D) (s := state v) hprop rest
    (by rwa [hpages]) hbounded (fun _ _ => rfl) hsort hlinks (fun m _ => List.not_mem_nil)
    (List.mem_singleton_self 0)
  refine ⟨0 :: rest, last, v', hnodup, hmem, ?_, hgone, ?_⟩
  · -- the last page is the one that the root points back to
    obtain ⟨x, root, -, hroot, -, hprev⟩ := (List.isChain_append.mp hlinks).2.2 _
      (List.getLast?_eq_getLast_of_ne_nil (List.cons_ne_nil 0 rest)) 0 rfl
    obtain ⟨start, hfind, hstart⟩ := find_page h hroot
    rw [lastPage, hfind, Option.bind_some, hstart.object.prev_link.getFieldU64, hprev, hlast]
  · intro C callback called
    have hlen := length_le_of_bounded hnodup hbounded
    rw [List.length_cons] at hlen
    have hrounds : 2 ^ 64 - 1 - rest.length + rest.length + 2 = 2 ^ 64 + 1 := by omega
    rw [dirDelete, ← hrounds, hrun]

omit [ApplyView V] [LawfulApplyView V] in
theorem lastPage_of_absent (h : Stores ctx dir base v D ∅) (hnone : ∀ n, D n = none) :
    lastPage ctx dir (state v) = none := by
  have hroot := h.holds 0 (by norm_num [region])
  rw [hnone 0] at hroot
  rw [lastPage, show (state v).find (pageKey ctx dir 0) = none from hroot]
  rfl

theorem dirDelete_absent (hprop : Proper ctx dir) (h : Stores ctx dir base v D ∅)
    (hroot : D 0 = none) :
    ∃ v' : V, ∀ {C : Type} (callback : C → Uint256 → C) (called : C),
      dirDelete ctx dir callback called v = .ok (false, called) v' := by
  obtain ⟨found, v', hpeek, -, hholds, -⟩ := peek_eq (n := 0) hprop.distinct h (by norm_num)
  rw [hroot] at hholds
  cases hholds
  refine ⟨v', ?_⟩
  intro C callback called
  rw [dirDelete, deletePages, if_neg (by simp), pageKeylet_eq hprop.isDirectory,
    EStateM.ofExcept, pure_bind, EStateM.bind_of_ok hpeek]
  rfl

/-- No key is on two pages. -/
def Separate (D : ℕ → Option Page) : Prop :=
  ∀ n m key, key ∈ keysOn D n → key ∈ keysOn D m → n = m

omit [ApplyView V] [ApplyModel V] [LawfulApplyView V] in
theorem nodup_flatMap_keysOn_iff (hintact : Intact D) (hnodup : numbers.Nodup)
    (hmem : ∀ m, (D m).isSome = true ↔ m ∈ numbers) :
    (numbers.flatMap (keysOn D)).Nodup ↔ Separate D := by
  have hkeys : ∀ m ∈ numbers, (keysOn D m).Nodup := by
    intro m hm
    obtain ⟨page, hD⟩ := Option.isSome_iff_exists.mp ((hmem m).mpr hm)
    rw [keysOn_of_eq_some hD]
    exact hintact.nodup m page hD
  rw [List.nodup_flatMap, and_iff_right hkeys]
  constructor
  · intro hpairwise n m key hn hm
    by_contra hne
    have : Std.Symm (Function.onFun List.Disjoint (keysOn D)) := ⟨fun _ _ h => List.Disjoint.symm h⟩
    exact hpairwise.forall ((hmem n).mp (isSome_of_mem_keysOn hn))
      ((hmem m).mp (isSome_of_mem_keysOn hm)) hne hn hm
  · intro hseparate
    refine hnodup.pairwise_of_forall_ne ?_
    intro n _ m _ hne key hn hm
    exact hne (hseparate n m key hn hm)

/-- After every sequence of calls, deleting the directory calls back once for each of its keys and
leaves no page if and only if the last page has no forward link and no key is on two pages. -/
theorem dirDelete_deletes_iff (hprop : Proper ctx dir) (h : Calls ctx dir base v) :
    (∃ keys v', Deletes ctx dir v keys v') ↔
      EndsOpen ctx dir (state v) ∧ Separate (pageAt ctx dir (state v)) := by
  obtain ⟨D, hst, hnone | hintact⟩ := h.keeps hprop
  · obtain ⟨v₁, hrun⟩ := dirDelete_absent hprop hst (hnone 0)
    refine iff_of_false ?_ ?_
    · rintro ⟨keys, v', hdeletes⟩
      have := hdeletes.run (fun called _ => called) ()
      rw [hrun] at this
      cases this
    · rintro ⟨⟨last, hlast, -⟩, -⟩
      rw [lastPage_of_absent hst hnone] at hlast
      cases hlast
  · obtain ⟨numbers, last, v₁, hnodup, hmem, hlast, hgone, hrun⟩ :=
      dirDelete_eq hprop hst hintact.linked
    have hopen : EndsOpen ctx dir (state v) ↔
        last.object.isFieldPresent sfIndexNext = false := by
      rw [EndsOpen, hlast]
      simp
    rw [hopen, hst.pageAt_eq, ← nodup_flatMap_keysOn_iff hintact hnodup hmem]
    constructor
    · rintro ⟨keys, v', hdeletes⟩
      have hcollect := hdeletes.run (fun called key => key :: called) []
      rw [hrun] at hcollect
      split_ifs at hcollect with hpres
      refine ⟨by simpa using hpres, ?_⟩
      obtain ⟨rfl, -⟩ : numbers.flatMap (keysOn D) = keys ∧ v₁ = v' := by simpa using hcollect
      exact hdeletes.once
    · rintro ⟨hpres, honce⟩
      refine ⟨numbers.flatMap (keysOn D), v₁, ?_, honce, ?_, ?_⟩
      · intro C callback called
        rw [hrun, if_neg (by simp [hpres])]
      · intro key
        rw [hst.pageAt_eq, List.mem_flatMap]
        constructor
        · rintro ⟨n, -, hkey⟩
          exact ⟨n, hkey⟩
        · rintro ⟨n, hkey⟩
          exact ⟨n, (hmem n).mp (isSome_of_mem_keysOn hkey), hkey⟩
      · intro n
        rw [hgone.pageAt_eq]

/-- Where the last page has a forward link, the pages are erased and the walk fails. -/
theorem dirDelete_error (hprop : Proper ctx dir) (h : Calls ctx dir base v)
    {last : STLedgerEntry} (hlast : lastPage ctx dir (state v) = some last)
    (hpres : last.object.isFieldPresent sfIndexNext = true) :
    ∃ v' : V, ∀ {C : Type} (callback : C → Uint256 → C) (called : C),
      dirDelete ctx dir callback called v =
        .error (.conversion "Directory chain: cycle detected") v' := by
  obtain ⟨D, hst, hnone | hintact⟩ := h.keeps hprop
  · rw [lastPage_of_absent hst hnone] at hlast
    cases hlast
  · obtain ⟨numbers, found, v', -, -, hfound, -, hrun⟩ :=
      dirDelete_eq hprop hst hintact.linked
    obtain rfl := Option.some.inj (hlast.symm.trans hfound)
    refine ⟨v', ?_⟩
    intro C callback called
    rw [hrun, if_pos hpres]

variable {live : Uint256 → Option ℕ}

theorem Chain.mem_keysOn_iff (h : Chain D live) {key : Uint256} :
    key ∈ keysOn D n ↔ live key = some n := by
  rcases hD : D n with _ | page
  · refine iff_of_false (by simp [keysOn, hD]) fun hkey => ?_
    simpa [hD] using h.covered key n hkey
  · rw [keysOn_of_eq_some hD]
    exact (h.fits n page hD).mem_iff key

theorem Chain.separate (h : Chain D live) : Separate D := by
  intro n m key hn hm
  rw [h.mem_keysOn_iff] at hn hm
  exact Option.some.inj (hn.symm.trans hm)

theorem Runs.separate (hprop : Proper ctx dir) (h : Runs ctx dir base v live) :
    Separate (pageAt ctx dir (state v)) := by
  obtain ⟨D, hst, ⟨hnone, -⟩ | hchain⟩ := h.stores hprop
  · intro n m key hn
    rw [hst.pageAt_eq] at hn
    simp [keysOn, hnone] at hn
  · rw [hst.pageAt_eq]
    exact hchain.separate

section Sample

theorem calls_sampleBase : Calls sampleContext sampleDirectory LedgerState.empty sampleBase :=
  .absent (Sandbox.valid_new trivial false) (Sandbox.state_new _ false)
    fun _ _ => LedgerState.find_empty _

theorem calls_foldl_sampleAdd (numbers : List ℕ) {v : Sandbox BaseView}
    (h : Calls sampleContext sampleDirectory LedgerState.empty v) :
    Calls sampleContext sampleDirectory LedgerState.empty (numbers.foldl sampleAdd v) := by
  induction numbers generalizing v with
  | nil => exact h
  | cons number numbers ih => exact ih (h.add true (numberKey number) (describes_ownerDir _))

theorem calls_sampleFilled : Calls sampleContext sampleDirectory LedgerState.empty sampleFilled :=
  calls_foldl_sampleAdd (List.range 33) calls_sampleBase

set_option maxRecDepth 100000 in
theorem endsOpen_sampleFilled : EndsOpen sampleContext sampleDirectory (state sampleFilled) := by
  have hlast : ((lastPage sampleContext sampleDirectory (state sampleFilled)).map
      fun sle => sle.object.isFieldPresent sfIndexNext) = some false := by decide +kernel
  exact Option.map_eq_some_iff.mp hlast

theorem dirDelete_deletes_iff_filled :
    EndsOpen sampleContext sampleDirectory (state sampleFilled) ∧
    ∃ keys v', Deletes sampleContext sampleDirectory sampleFilled keys v' := by
  obtain ⟨live, h⟩ := runs_sampleFilled
  exact ⟨endsOpen_sampleFilled, (dirDelete_deletes_iff sample_proper calls_sampleFilled).mpr
    ⟨endsOpen_sampleFilled, h.separate sample_proper⟩⟩

/-- 33 keys are added, and the one on the second page is removed. -/
def sampleShrunk : Sandbox BaseView :=
  (dirRemove sampleContext sampleDirectory 1 (numberKey 32) false).after sampleFilled

set_option maxRecDepth 100000 in
theorem dirDelete_sampleShrunk_fails :
    Calls sampleContext sampleDirectory LedgerState.empty sampleShrunk ∧
    (∃ v', ∀ {C : Type} (callback : C → Uint256 → C) (called : C),
      dirDelete sampleContext sampleDirectory callback called sampleShrunk =
        .error (.conversion "Directory chain: cycle detected") v') ∧
    ¬∃ keys v', Deletes sampleContext sampleDirectory sampleShrunk keys v' := by
  have hcalls : Calls sampleContext sampleDirectory LedgerState.empty sampleShrunk :=
    calls_sampleFilled.remove (by norm_num) _ false
  have hlast : ((lastPage sampleContext sampleDirectory (state sampleShrunk)).map
      fun sle => sle.object.isFieldPresent sfIndexNext) = some true := by decide +kernel
  obtain ⟨sle, hsle, hpres⟩ := Option.map_eq_some_iff.mp hlast
  obtain ⟨v', hfails⟩ := dirDelete_error sample_proper hcalls hsle hpres
  refine ⟨hcalls, ⟨v', hfails⟩, ?_⟩
  rintro ⟨keys, v'', hdeletes⟩
  have hrun := hdeletes.run (fun called _ => called) ()
  rw [hfails] at hrun
  cases hrun

end Sample

omit [LawfulApplyView V] in
theorem Runs.base_absent (h : Runs ctx dir base v live) :
    ∀ n < 2 ^ 64, base.find (pageKey ctx dir n) = none := by
  induction h with
  | absent _ _ habsent => exact habsent
  | add _ _ _ _ ih | full _ _ _ _ ih | remove _ _ _ ih => exact ih

/-- Deleting a directory undoes its history: the callback gets every key that was added and not
removed, once, and the ledger is as it was before the first call. -/
theorem Runs.dirDelete_undoes (hprop : Proper ctx dir) (h : Runs ctx dir base v live)
    (hopen : EndsOpen ctx dir (state v)) : ∃ (keys : List Uint256) (v' : V), keys.Nodup ∧
      (∀ key, key ∈ keys ↔ (live key).isSome = true) ∧ state v' = base ∧
      ∀ {C : Type} (callback : C → Uint256 → C) (called : C),
        dirDelete ctx dir callback called v = .ok (true, keys.foldl callback called) v' := by
  obtain ⟨sle, hsle, hpres⟩ := hopen
  obtain ⟨D, hst, ⟨hnone, -⟩ | hchain⟩ := h.stores hprop
  · rw [lastPage_of_absent hst hnone] at hsle
    cases hsle
  · obtain ⟨numbers, last, v', hnodup, hmem, hlast, hgone, hrun⟩ :=
      dirDelete_eq hprop hst hchain.linked
    have hintact : Intact D := ⟨hchain.linked, fun n page hD => (hchain.fits n page hD).nonempty,
      fun n page hD => (hchain.fits n page hD).nodup⟩
    refine ⟨numbers.flatMap (keysOn D), v', ?_, ?_, ?_, ?_⟩
    · exact (nodup_flatMap_keysOn_iff hintact hnodup hmem).mpr hchain.separate
    · intro key
      simp only [List.mem_flatMap, hchain.mem_keysOn_iff, Option.isSome_iff_exists]
      exact ⟨fun ⟨n, _, hn⟩ => ⟨n, hn⟩, fun ⟨n, hn⟩ =>
        ⟨n, (hmem n).mp (hchain.covered key n hn), hn⟩⟩
    · apply LedgerState.ext
      intro key
      by_cases hkey : ∃ n < 2 ^ 64, pageKey ctx dir n = key
      · obtain ⟨n, hn, rfl⟩ := hkey
        rw [h.base_absent n hn]
        exact hgone.holds n hn
      · exact hgone.frame key fun n hn heq => hkey ⟨n, hn, heq⟩
    · obtain rfl : last = sle := Option.some.inj (hlast.symm.trans hsle)
      intro C callback called
      rw [hrun, if_neg (by simp [hpres])]

theorem Runs.dirDelete_undoes_filled :
    ∃ (live : Uint256 → Option ℕ) (keys : List Uint256) (v' : _),
      Runs sampleContext sampleDirectory .empty sampleFilled live ∧ keys.Nodup ∧
      (∀ key, key ∈ keys ↔ (live key).isSome = true) ∧ state v' = .empty ∧
      dirDelete sampleContext sampleDirectory .concat [] sampleFilled =
        .ok (true, keys.foldl .concat []) v' := by
  obtain ⟨live, h⟩ := runs_sampleFilled
  obtain ⟨keys, v', hnodup, hmem, hstate, hrun⟩ := Runs.dirDelete_undoes sample_proper h
    endsOpen_sampleFilled
  exact ⟨live, keys, v', h, hnodup, hmem, hstate, hrun _ _⟩

end Quaxar.Views.Directory
