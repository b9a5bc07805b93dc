import Quaxar.SHAMap.Spine

/-!
# The mutations over the store refine the mutations on trees

Each operation of a handle whose root holds a tree returns what the operation on
that tree returns, and leaves the handle with a root that holds the resulting
tree. It writes nothing outside the footprint of the handle.
-/

namespace Quaxar.SHAMap

open CellStore

/-- An operation that started in `h` with footprint `S` does what the operation on
trees does. -/
def Follows {β : Type} (h : Heap) (S : Set Addr) (c : ℕ)
    (result : Except Fault (Heap × MutableTree × β)) : Except Fault (Tree × β) → Prop
  | .error f => result = .error f
  | .ok (t, out) => ∃ h' T S', result = .ok (h', T, out) ∧ T.cowid = c ∧
      Holds h' c T.root t S' ∧ Evolves h S h' S'

variable {t : Tree} {d : ℕ} {child : Fin 16 → Tree} {β : Type} {key : Uint256}
  {atEnd : ℕ → Option LeafNode → Except Fault β}
  {wrap : ℕ → ℕ → Uint256 → (Fin 16 → Uint256) → (Fin 16 → Tree) → β → Except Fault β}

/-- Every descent fails where the plain walk fails. -/
theorem descend_of_walk_error {f : Fault} (hw : Tree.walk key d t = .error f) :
    Tree.descend key atEnd wrap d t = .error f := by
  induction t generalizing d with
  | empty => cases hw
  | stub =>
    cases hw
    rfl
  | leaf n => cases hw
  | inner cowid hash hashes child ih =>
    simp only [Tree.walk, Tree.descend, bind, Except.bind] at hw ⊢
    cases henter : Tree.enter d (hashes (keyNibble key d)) (child (keyNibble key d)) with
    | error e =>
      rw [henter] at hw
      simpa using hw
    | ok u =>
      rw [henter] at hw
      have hbelow : Tree.walk key (d + 1) (child (keyNibble key d)) = .error f := by
        unfold Tree.walk
        cases hdesc : Tree.descend key (fun _ terminal => Except.ok terminal)
            (fun _ _ _ _ _ terminal => Except.ok terminal) (d + 1) (child (keyNibble key d)) with
        | error e => simpa [hdesc] using hw
        | ok terminal => simp [hdesc] at hw
      simp only [ih (keyNibble key d) hbelow]

/-- A descent returns the value it finds at its end if every node hands it on. -/
theorem descend_of_walk_ok {terminal : Option LeafNode} {r : β}
    (hend : ∀ d, atEnd d terminal = .ok r)
    (hwrap : ∀ d cowid hash hashes child, wrap d cowid hash hashes child r = .ok r)
    (hw : Tree.walk key d t = .ok terminal) : Tree.descend key atEnd wrap d t = .ok r := by
  induction t generalizing d with
  | empty =>
    cases hw
    exact hend d
  | stub => cases hw
  | leaf n =>
    cases hw
    exact hend d
  | inner cowid hash hashes child ih =>
    simp only [Tree.walk, Tree.descend, bind, Except.bind] at hw ⊢
    cases henter : Tree.enter d (hashes (keyNibble key d)) (child (keyNibble key d)) with
    | error e => simp [henter] at hw
    | ok u =>
      rw [henter] at hw
      have hbelow : Tree.walk key (d + 1) (child (keyNibble key d)) = .ok terminal := by
        unfold Tree.walk
        cases hdesc : Tree.descend key (fun _ terminal => Except.ok terminal)
            (fun _ _ _ _ _ terminal => Except.ok terminal) (d + 1) (child (keyNibble key d)) with
        | error e => simp [hdesc] at hw
        | ok terminal' => simpa [hdesc] using hw
      simp only [ih (keyNibble key d) hbelow, hwrap]

/-- A descent passes through every node of a spine. -/
theorem descend_inner {cowid : ℕ} {hash : Uint256} {hashes : Fin 16 → Uint256}
    (ht : (child (keyNibble key d)).isLoaded = true) (hd : d < leafDepth) :
    Tree.descend key atEnd wrap d (.inner cowid hash hashes child) =
      Tree.descend key atEnd wrap (d + 1) (child (keyNibble key d)) >>=
        wrap d cowid hash hashes child := by
  simp only [Tree.descend, Spine.enter_ok ht hd, bind, Except.bind]

variable {a a' a₁ : Addr} {d' : ℕ} {t' : Tree} {S S' : Set Addr} {path : List PathEntry}
  {plug : Tree → Tree} {T T₁ : MutableTree} {id' : SHAMapNodeId} {h₁ : Heap} {sha : Sha512Half}
  {h : Heap} {c : ℕ} {ty : LeafType}
  {item : SHAMapItem}

theorem Spine.add_eq (sp : Spine h c item.key a d t S path a' d' t' S' plug) :
    Tree.add sha c ty item d t =
      (Tree.add sha c ty item d' t').map (Option.map plug) := by
  induction sp with
  | here H => cases Tree.add sha c ty item _ _ <;> simp [Except.map]
  | step v hid hd slot below ih =>
    unfold Tree.add at ih ⊢
    rw [descend_inner below.top_loaded hd, ih]
    cases Tree.descend item.key _ _ _ _ with
    | error f => rfl
    | ok r => cases r <;> rfl

theorem dirtyUp_append (h : Heap) (T : MutableTree) (key : Uint256) (p q : List PathEntry)
    (x : Addr) :
    T.dirtyUp h key (p ++ q) x =
      T.dirtyUp h key q x >>= fun r => r.2.1.dirtyUp r.1 key p r.2.2 := by
  induction p with
  | nil => cases hq : T.dirtyUp h key q x <;> simp [MutableTree.dirtyUp, hq, bind, Except.bind]
  | cons e p ih =>
    rw [List.cons_append, MutableTree.dirtyUp, ih]
    cases T.dirtyUp h key q x <;> simp [MutableTree.dirtyUp, bind, Except.bind]

theorem walkTowardsKeyWithPath_eq (H : Holds h c T.root t S) (key : Uint256) :
    match Tree.walk key 0 t with
    | .error f => walkTowardsKeyWithPath h T.root key = .error f
    | .ok terminal => ∃ path a' id' t' S' plug,
        walkTowardsKeyWithPath h T.root key =
          .ok (terminal.map fun _ => a', path ++ [⟨a', id'⟩]) ∧
        Spine h c key T.root 0 t S path a' id'.depth t' S' plug ∧
        match terminal with
        | some n => t' = .leaf n
        | none => ∃ n child owned, HoldsInner h c a' n child owned ∧
            S' = HoldsInner.footprint a' n owned ∧
            t' = .inner n.cowid n.hash n.getChildHash child ∧
            n.branches (keyNibble key id'.depth) = none :=
  walkTowardsKeyImpl_eq H rfl (by decide)

theorem addItem_of_leaf {n : LeafNode}
    (hpath : walkTowardsKeyWithPath h T.root item.key = .ok (some a', path ++ [⟨a', id'⟩]))
    (cell : h[a']? = some (.leaf n)) :
    T.addItem sha h ty item =
      if n.item.key = item.key then .ok (h, T, false)
      else if n.leafType ≠ ty then .error (.err (.crossTypeChange ty n.leafType))
      else (do
        let (h, graft, split) ← MutableTree.splitLoop sha T.cowid ty item n.item
          (leafDepth + 1) (newInner h T.cowid).1 path id' h.length
        let (h, t, root) ← T.dirtyUp h item.key graft split
        .ok (h, { t with root := root }, true)) := by
  simp [MutableTree.addItem, hpath, MutableTree.addWithLeafSplit, readNode_of_cell cell,
    newInner, CellStore.alloc, bind, Except.bind]

theorem addItem_of_vacant
    (hpath : walkTowardsKeyWithPath h T.root item.key = .ok (none, path ++ [⟨a', id'⟩]))
    (hunshare : T.unshareNode h a' id' = .ok (h₁, T₁, a₁)) (hT₁ : T₁.cowid = T.cowid) :
    T.addItem sha h ty item = (do
      let (h, leaf) ← newLeaf sha h₁ ty item T.cowid
      let h ← setChild h a₁ (keyNibble item.key id'.depth) (some leaf)
      let (h, t, root) ← T₁.dirtyUp h item.key path a₁
      .ok (h, { t with root := root }, true)) := by
  simp [MutableTree.addItem, hpath, MutableTree.addIntoEmptyBranch, hunshare, hT₁,
    selectBranch, bind, Except.bind]

theorem addItem_follows (H : Holds h T.cowid T.root t S) :
    Follows h S T.cowid (T.addItem sha h ty item)
      (Tree.addItem sha T.cowid ty item t) := by
  have hwalk := walkTowardsKeyWithPath_eq H item.key
  cases hw : Tree.walk item.key 0 t with
  | error f =>
    rw [hw] at hwalk
    have hadd : Tree.add sha T.cowid ty item 0 t = .error f := descend_of_walk_error hw
    simp [Tree.addItem, hadd, Follows, MutableTree.addItem, hwalk, bind, Except.bind]
  | ok terminal =>
    rw [hw] at hwalk
    obtain ⟨path, a', id', t', S', plug, hpath, sp, hend⟩ := hwalk
    have hadd : Tree.add sha T.cowid ty item 0 t = _ := sp.add_eq
    cases terminal with
    | some n =>
      subst hend
      obtain ⟨cell, -⟩ := sp.bottom.leaf_inv
      have hbottom : Tree.add sha T.cowid ty item id'.depth (.leaf n) =
          if n.item.key = item.key then .ok none
          else if n.leafType ≠ ty then .error (.err (.crossTypeChange ty n.leafType))
          else (Tree.split sha T.cowid ty item n.item (leafDepth + 1) id'.depth).map some :=
        rfl
      rw [addItem_of_leaf hpath cell, Tree.addItem, hadd, hbottom]
      split_ifs with hkey hty
      · exact ⟨h, T, S, rfl, rfl, H, .refl h S⟩
      · rfl
      · let fresh : TreeNode := .inner ⟨T.cowid, .zero, fun _ => none⟩
        have hloop := splitLoop_eq sha ty item n.item T.cowid_ne (leafDepth + 1) path id'
          (get_alloc_self h fresh)
        unfold SplitMeets at hloop
        cases hsplit : Tree.split sha T.cowid ty item n.item (leafDepth + 1) id'.depth with
        | error f =>
          rw [hsplit] at hloop
          have hloop' : MutableTree.splitLoop sha T.cowid ty item n.item (leafDepth + 1)
              (newInner h T.cowid).1 path id' h.length = .error f := hloop
          simp [Follows, hloop', Except.map, bind, Except.bind]
        | ok u =>
          rw [hsplit] at hloop
          obtain ⟨h₁, q, last, hlast, hq⟩ := hloop
          have hloop' : MutableTree.splitLoop sha T.cowid ty item n.item (leafDepth + 1)
              (newInner h T.cowid).1 path id' h.length = .ok (h₁, path ++ q, last) := hlast
          obtain ⟨h₂, S₂, hup, H₂, e₂⟩ := hq T rfl
          have e : Evolves h S' h₂ S₂ := by
            refine ((Evolves.alloc h ∅ fresh).shrink (by simp [alloc])).trans e₂ |>.mono ?_
            exact Set.empty_subset S'
          obtain ⟨h₃, T₃, a₃, S₃, hup₃, hT₃, H₃, e₃⟩ := sp.dirtyUp e H₂ T rfl
          refine ⟨h₃, { T₃ with root := a₃ }, S₃, ?_, hT₃, H₃, e₃⟩
          simp only [hloop', dirtyUp_append, hup, hup₃, bind, Except.bind]
    | none =>
      obtain ⟨n, child, owned, v, rfl, rfl, hempty⟩ := hend
      have hslot := v.slot (keyNibble item.key id'.depth)
      rw [hempty] at hslot
      have hbottom : Tree.add sha T.cowid ty item id'.depth
          (.inner n.cowid n.hash n.getChildHash child) =
          (Tree.freshLeaf sha T.cowid ty item).map fun leaf =>
            some (Tree.dirty T.cowid n.getChildHash child (keyNibble item.key id'.depth) leaf) := by
        simp only [Tree.add, Tree.descend, hslot.1, Tree.enter, bind, Except.bind]
        cases Tree.freshLeaf sha T.cowid ty item <;> rfl
      obtain ⟨h₁, T₁, a₁, hunshare, hT₁, v₁, e₁⟩ := v.unshareNode T rfl id'
      have hnew := newLeaf_eq sha ty item h₁ T.cowid_ne
      rw [addItem_of_vacant hpath hunshare hT₁, Tree.addItem, hadd, hbottom]
      cases hfresh : Tree.freshLeaf sha T.cowid ty item with
      | error f =>
        rw [hfresh] at hnew
        simp [Follows, hnew, Except.map, bind, Except.bind]
      | ok leaf =>
        rw [hfresh] at hnew
        obtain ⟨h₂, hleaf, H₂, e₂⟩ := hnew
        obtain ⟨h₃, hset, v₃, e₃⟩ := v₁.setChild_owned (keyNibble item.key id'.depth)
          (some h₁.length) rfl T.cowid_ne (by rw [hslot.2]; exact e₂) H₂
        obtain ⟨h₄, T₄, a₄, S₄, hup, hT₄, H₄, e₄⟩ :=
          sp.dirtyUp (e₁.trans e₃) v₃.holds_withChild T₁ hT₁
        refine ⟨h₄, { T₄ with root := a₄ }, S₄, ?_, hT₄, H₄, e₄⟩
        simp only [hleaf, hset, hup, bind, Except.bind]

variable (sha : Sha512Half) (ty : LeafType)

theorem Spine.depth_eq (sp : Spine h c key a d t S path a' d' t' S' plug) :
    d' = d + path.length := by
  induction sp with
  | here H => simp
  | step v hid hd slot below ih =>
    rw [ih, List.length_cons]
    omega

theorem Spine.owned_subset (sp : Spine h c key a d t S path a' d' t' S' plug) : S' ⊆ S := by
  induction sp with
  | here H => exact subset_rfl
  | step v hid hd slot below ih => exact ih.trans (HoldsInner.owned_subset _ _ _ _)

/-- An update along a spine. When the hash of the leaf stays the same only the
leaf is replaced, and an owned leaf is replaced in the store as well. -/
theorem Spine.update_eq (sp : Spine h c item.key a d t S path a' d' t' S' plug) (hc : c ≠ 0) :
    ∃ replace : Tree → Tree, replace t' = t ∧ (path = [] → ∀ u, replace u = u) ∧
      Tree.update sha c ty item d t =
        (Tree.update sha c ty item d' t').map
          (fun r => (r.1, if r.1 then plug r.2 else replace r.2)) ∧
      ∀ n n', t' = .leaf n → n.cowid = c → n'.cowid = c →
        Holds (h.set a' (.leaf n')) c a (replace (.leaf n')) S := by
  induction sp with
  | @here a d t S H =>
    refine ⟨fun u => u, rfl, fun _ _ => rfl, ?_, ?_⟩
    · cases Tree.update sha c ty item d t <;> simp [Except.map]
    · rintro n n' rfl hn hn'
      obtain ⟨cell, rfl⟩ := H.leaf_inv
      have H' := Holds.ownedLeaf (get_write_self (y := .leaf n') cell) hn' hc
      have hS : {x | x = a ∧ n.cowid ≠ 0} = {a} := by
        ext x
        simp [hn, hc]
      rwa [hS]
  | @step a x a' d d' n child owned id hash path t' S' plug v hid hd slot below ih =>
    obtain ⟨replace, hsame, -, hrun, hput⟩ := ih
    refine ⟨fun u => .inner n.cowid n.hash n.getChildHash
      (Function.update child (keyNibble item.key d) (replace u)), ?_, by simp, ?_, ?_⟩
    · simp only [hsame, Function.update_eq_self]
    · unfold Tree.update at hrun ⊢
      rw [descend_inner below.top_loaded hd, hrun]
      cases Tree.descend item.key _ _ d' t' with
      | error f => rfl
      | ok r =>
        obtain ⟨changed, u⟩ := r
        cases changed <;> rfl
    · rintro m m' rfl hm hm'
      have hbelow := hput m m' rfl hm hm'
      obtain ⟨cell, hS'⟩ := below.bottom.leaf_inv
      have hmem : a' ∈ owned (keyNibble item.key d) := by
        refine below.owned_subset ?_
        rw [hS']
        exact ⟨rfl, hm ▸ hc⟩
      have hne : (TreeNode.leaf m).cowid ≠ 0 := by simpa [TreeNode.cowid, hm] using hc
      refine HoldsInner.holds ⟨?_, v.own, ?_, v.apart, v.self, v.closed⟩
      · rw [List.getElem?_set_ne, v.cell]
        rintro rfl
        exact v.self _ hmem
      · intro b
        by_cases hb : b = keyNibble item.key d
        · subst hb
          rw [Function.update_self, slot]
          exact hbelow
        · rw [Function.update_of_ne hb]
          refine (v.slot b).map fun y Hy => Hy.write_other _ cell hne fun hy => ?_
          exact Set.disjoint_left.mp (v.apart _ _ hb) hy hmem

variable {n : LeafNode}

theorem unshareNode_sharedLeaf (cell : h[a]? = some (.leaf n)) (hn : n.cowid = 0)
    (id : SHAMapNodeId) :
    T.unshareNode h a id =
      if minItemBytes ≤ n.item.size then
        .ok ((alloc h (.leaf { n with cowid := T.cowid })).1,
          if id.isRoot then { T with root := h.length } else T, h.length)
      else .error .panic := by
  simp only [MutableTree.unshareNode, readNode_of_cell cell, TreeNode.cowid, hn, Nat.zero_le,
    if_true, T.cowid_ne.symm, if_false, cloneWithCowid, newLeafWithHash, bind, Except.bind]
  split_ifs <;> rfl

theorem setItem_eq (item : SHAMapItem) (cell : h[a]? = some (.leaf n)) (hn : n.cowid ≠ 0) :
    setItem sha h a item =
      .ok (h.set a (.leaf { n with
          item := item, hash := computeLeafHash sha n.leafType item }),
        n.hash != computeLeafHash sha n.leafType item) := by
  simp [setItem, readNode_of_cell cell, hn, bind, Except.bind]

/-- The end of `update_item`, once the leaf to write is owned. -/
def finishUpdate (item : SHAMapItem) (path : List PathEntry) (r : Heap × MutableTree × Addr) :
    Except Fault (Heap × MutableTree × Bool) := do
  let (h, changed) ← setItem sha r.1 r.2.2 item
  if changed then
    let (h, t, root) ← r.2.1.dirtyUp h item.key path r.2.2
    .ok (h, { t with root := root }, true)
  else .ok (h, r.2.1, true)

theorem updateItem_of_leaf
    (hpath : walkTowardsKeyWithPath h T.root item.key = .ok (some a', path ++ [⟨a', id'⟩]))
    (cell : h[a']? = some (.leaf n)) :
    T.updateItem sha h ty item =
      if n.item.key ≠ item.key then .error (.err (.missingExactLeaf item.key))
      else if n.leafType ≠ ty then .error (.err (.crossTypeChange ty n.leafType))
      else T.unshareNode h a' id' >>= finishUpdate sha item path := by
  simp only [MutableTree.updateItem, hpath, List.getLast?_append, List.getLast?_singleton,
    Option.some_or, readNode_of_cell cell, List.dropLast_concat, bind, Except.bind, finishUpdate]

/-- Writing an owned leaf whose hash changes and rebuilding the spine above it. -/
theorem Spine.finishUpdate_changed {S₁ : Set Addr} {m : LeafNode}
    (sp : Spine h T.cowid item.key T.root 0 t S path a' d' t' S' plug)
    (cell : h₁[a₁]? = some (.leaf m)) (hm : m.cowid = T.cowid) (hT₁ : T₁.cowid = T.cowid)
    (e : Evolves h S' h₁ S₁) (ha₁ : a₁ ∈ S₁)
    (hne : m.hash ≠ computeLeafHash sha m.leafType item) :
    Follows h S T.cowid (finishUpdate sha item path (h₁, T₁, a₁))
      (.ok (plug (.leaf { m with
        item := item, hash := computeLeafHash sha m.leafType item }), true)) := by
  have hset := setItem_eq sha item cell (hm ▸ T.cowid_ne)
  let m' : LeafNode :=
    { m with item := item, hash := computeLeafHash sha m.leafType item }
  have e₂ : Evolves h S' (h₁.set a₁ (.leaf m')) {a₁} :=
    (e.trans (Evolves.write (.leaf m') ha₁)).shrink (Set.singleton_subset_iff.mpr ha₁)
  have H₂ : Holds (h₁.set a₁ (.leaf m')) T.cowid a₁ (.leaf m') {a₁} :=
    .ownedLeaf (get_write_self cell) hm T.cowid_ne
  obtain ⟨h₃, T₃, a₃, S₃, hup, hT₃, H₃, e₃⟩ := sp.dirtyUp e₂ H₂ T₁ hT₁
  refine ⟨h₃, { T₃ with root := a₃ }, S₃, ?_, hT₃, H₃, e₃⟩
  have hflag : (m.hash != computeLeafHash sha m.leafType item) = true := by simpa using hne
  simp only [finishUpdate, hset, hflag, if_true, bind, Except.bind]
  rw [show T₁.dirtyUp _ item.key path a₁ = _ from hup]

/-- An owned leaf is overwritten in place. -/
theorem Spine.finishUpdate_owned
    (sp : Spine h T.cowid item.key T.root 0 t S path a' d' (.leaf n) S' plug)
    (hown : n.cowid = T.cowid) {replace : Tree → Tree}
    (hput : ∀ n' : LeafNode, n'.cowid = T.cowid →
      Holds (h.set a' (.leaf n')) T.cowid T.root (replace (.leaf n')) S) :
    Follows h S T.cowid (finishUpdate sha item path (h, T, a'))
      (.ok ((if n.hash = computeLeafHash sha n.leafType item then replace else plug)
        (.leaf { n with item := item, hash := computeLeafHash sha n.leafType item }), true)) := by
  obtain ⟨cell, hS'⟩ := sp.bottom.leaf_inv
  have hne : n.cowid ≠ 0 := hown ▸ T.cowid_ne
  have hmem : a' ∈ S' := by rw [hS']; exact ⟨rfl, hne⟩
  split_ifs with hchg
  · refine ⟨_, T, S, ?_, rfl, hput _ hown, Evolves.write _ (sp.owned_subset hmem)⟩
    simp [finishUpdate, setItem_eq sha item cell hne, hchg, bind, Except.bind]
  · exact sp.finishUpdate_changed sha cell hown rfl (.refl h S') hmem hchg

/-- Of a shared leaf an owned copy is written. If the hash stays the same the copy is dropped,
unless the leaf is the root. -/
theorem Spine.finishUpdate_shared (H : Holds h T.cowid T.root t S)
    (sp : Spine h T.cowid item.key T.root 0 t S path a' id'.depth (.leaf n) S' plug) :
    Follows h S T.cowid
      (finishUpdate sha item path ((alloc h (.leaf { n with cowid := T.cowid })).1,
        if id'.isRoot then { T with root := h.length } else T, h.length))
      (.ok (if n.hash = computeLeafHash sha n.leafType item ∧ id'.depth ≠ 0 then t
        else (if n.hash = computeLeafHash sha n.leafType item then id else plug)
          (.leaf ⟨n.leafType, item, T.cowid, computeLeafHash sha n.leafType item⟩), true)) := by
  let copy : LeafNode := { n with cowid := T.cowid }
  let n' : LeafNode := ⟨n.leafType, item, T.cowid, computeLeafHash sha n.leafType item⟩
  have cell₁ : (alloc h (.leaf copy)).1[h.length]? = some (.leaf copy) :=
    get_alloc_self h (.leaf copy)
  by_cases hchg : n.hash = computeLeafHash sha n.leafType item
  · have hfinish (T₁ : MutableTree) :
        finishUpdate sha item path ((alloc h (.leaf copy)).1, T₁, h.length) =
          .ok ((alloc h (.leaf copy)).1.set h.length (.leaf n'), T₁, true) := by
      have hset := setItem_eq sha item cell₁ T.cowid_ne
      have hflag : (copy.hash != computeLeafHash sha copy.leafType item) = false := by
        simpa [copy] using hchg
      rw [hflag] at hset
      simp only [finishUpdate, hset, bind, Except.bind]
      rfl
    have e₂ := (Evolves.alloc h S (.leaf copy)).trans
      (Evolves.write (.leaf n') (Set.mem_insert h.length S))
    by_cases hd : id'.depth = 0
    · have H₂ : Holds ((alloc h (.leaf copy)).1.set h.length (.leaf n')) T.cowid h.length
          (.leaf n') {h.length} := .ownedLeaf (get_write_self cell₁) rfl T.cowid_ne
      refine ⟨_, { T with root := h.length }, {h.length}, ?_, rfl, ?_, e₂.shrink (by simp)⟩
      · rw [if_pos (by simp [SHAMapNodeId.isRoot, hd])]
        exact hfinish _
      · simpa [hchg, hd] using H₂
    · have hfresh : h.length ∉ S := fun hmem => lt_irrefl _ (H.owned_lt _ hmem)
      have H₂ := (H.alloc (.leaf copy)).write_other (.leaf n') cell₁ T.cowid_ne hfresh
      refine ⟨_, T, S, ?_, rfl, ?_, e₂.shrink (by simp)⟩
      · rw [if_neg (by simp [SHAMapNodeId.isRoot, hd])]
        exact hfinish T
      · simpa [hchg, hd] using H₂
  · have hfin := sp.finishUpdate_changed sha cell₁ rfl
      (show (if id'.isRoot then { T with root := h.length } else T).cowid = T.cowid by
        split_ifs <;> rfl) (Evolves.alloc h S' (.leaf copy)) (Set.mem_insert _ _) hchg
    simpa [hchg] using hfin

theorem updateItem_follows (H : Holds h T.cowid T.root t S) :
    Follows h S T.cowid (T.updateItem sha h ty item)
      (Tree.updateItem sha T.cowid ty item t) := by
  have hwalk := walkTowardsKeyWithPath_eq H item.key
  cases hw : Tree.walk item.key 0 t with
  | error f =>
    rw [hw] at hwalk
    have hupd : Tree.update sha T.cowid ty item 0 t = .error f := descend_of_walk_error hw
    simp [Tree.updateItem, hupd, Follows, MutableTree.updateItem, hwalk, bind, Except.bind]
  | ok terminal =>
    rw [hw] at hwalk
    obtain ⟨path, a', id', t', S', plug, hpath, sp, hend⟩ := hwalk
    obtain ⟨replace, hsame, hid, hupd, hput⟩ := sp.update_eq sha ty T.cowid_ne
    cases terminal with
    | none =>
      obtain ⟨n, child, owned, v, rfl, rfl, hempty⟩ := hend
      have hslot := v.slot (keyNibble item.key id'.depth)
      rw [hempty] at hslot
      have hbottom : Tree.update sha T.cowid ty item id'.depth
          (.inner n.cowid n.hash n.getChildHash child) =
          .error (.err (.missingExactLeaf item.key)) := by
        simp [Tree.update, Tree.descend, hslot.1, Tree.enter, bind, Except.bind]
      simp [Tree.updateItem, hupd, hbottom, Follows, MutableTree.updateItem, hpath, Except.map,
        bind, Except.bind]
    | some n =>
      subst hend
      obtain ⟨cell, -⟩ := sp.bottom.leaf_inv
      rw [updateItem_of_leaf sha ty hpath cell, Tree.updateItem, hupd]
      have hbottom : Tree.update sha T.cowid ty item id'.depth (.leaf n) =
          if n.item.key ≠ item.key then .error (.err (.missingExactLeaf item.key))
          else if n.leafType ≠ ty then .error (.err (.crossTypeChange ty n.leafType))
          else if n.cowid = T.cowid ∨ minItemBytes ≤ n.item.size then
            .ok (n.hash != computeLeafHash sha ty item,
              if n.hash ≠ computeLeafHash sha ty item ∨ n.cowid = T.cowid ∨ id'.depth = 0
              then .leaf ⟨ty, item, T.cowid, computeLeafHash sha ty item⟩ else .leaf n)
          else .error .panic := rfl
      rw [hbottom]
      by_cases hkey : n.item.key ≠ item.key
      · rw [if_pos hkey, if_pos hkey]
        rfl
      by_cases hty : n.leafType ≠ ty
      · rw [if_neg hkey, if_neg hkey, if_pos hty, if_pos hty]
        rfl
      rw [if_neg hkey, if_neg hkey, if_neg hty, if_neg hty]
      obtain rfl := not_not.mp hty
      by_cases hown : n.cowid = T.cowid
      · rw [if_pos (.inl hown), HoldsInner.unshareNode_owned cell hown]
        have hfin := sp.finishUpdate_owned sha hown fun n' hn' => hput n n' rfl hown hn'
        rw [hown] at hfin ⊢
        by_cases hchg : n.hash = computeLeafHash sha n.leafType item
        · simpa [hchg, Except.map, bind, Except.bind] using hfin
        · simpa [hchg, Except.map, bind, Except.bind] using hfin
      · rw [unshareNode_sharedLeaf cell (sp.bottom.cowid_cases.resolve_right hown)]
        by_cases hclone : minItemBytes ≤ n.item.size
        · have hclone' : n.cowid = T.cowid ∨ minItemBytes ≤ n.item.size := .inr hclone
          rw [if_pos hclone, if_pos hclone']
          have hfin := sp.finishUpdate_shared sha H
          by_cases hchg : n.hash = computeLeafHash sha n.leafType item
          · by_cases hd : id'.depth = 0
            · have hnil : path = [] := by
                have hlen := sp.depth_eq
                exact List.length_eq_zero_iff.mp (by omega)
              simpa [hchg, hd, hid hnil, Except.map, bind, Except.bind] using hfin
            · simpa [hchg, hd, hown, hsame, Except.map, bind, Except.bind] using hfin
          · simpa [hchg, Except.map, bind, Except.bind] using hfin
        · rw [if_neg hclone, if_neg (by simp [hown, hclone])]
          rfl

namespace HoldsInner

variable {n : InnerNode} {owned : Fin 16 → Set Addr} (v : HoldsInner h c a n child owned)

include v

theorem isEmptyBranch_eq (b : Fin 16) : n.isEmptyBranch b = (child b).isEmpty := by
  have hslot := v.slot b
  match hs : n.branches b with
  | none =>
    rw [hs] at hslot
    simp [InnerNode.isEmptyBranch, hs, hslot.1, Tree.isEmpty]
  | some ⟨_, none⟩ =>
    rw [hs] at hslot
    simp [InnerNode.isEmptyBranch, hs, hslot.1, Tree.isEmpty]
  | some ⟨_, some x⟩ =>
    rw [hs] at hslot
    have hl := Holds.isLoaded hslot
    cases hc : child b <;> simp_all [InnerNode.isEmptyBranch, Tree.isEmpty, Tree.isLoaded]

theorem branchCount_eq : n.branchCount = (Tree.branches child).length := by
  simp only [InnerNode.branchCount, Tree.branches, v.isEmptyBranch_eq]

theorem selectOnlyBranch_eq : MutableTree.selectOnlyBranch n = (Tree.branches child).head? := by
  simp only [MutableTree.selectOnlyBranch, Tree.branches, v.isEmptyBranch_eq, List.head?_filter]

theorem loadedChildren_eq :
    MutableTree.loadedChildren n = (Tree.branches child).map n.getChild := by
  have hgen : ∀ l : List (Fin 16), (l.filterMap n.branches).map Branch.child =
      (l.filter fun b => !n.isEmptyBranch b).map n.getChild := by
    intro l
    induction l with
    | nil => rfl
    | cons b l ih =>
      cases hs : n.branches b with
      | none => simp [hs, ih, InnerNode.isEmptyBranch]
      | some s => simp [hs, ih, InnerNode.isEmptyBranch, InnerNode.getChild]
  rw [MutableTree.loadedChildren, hgen]
  simp only [Tree.branches, v.isEmptyBranch_eq]

end HoldsInner

theorem Tree.height_child_lt (cowid : ℕ) (hash : Uint256) (hashes : Fin 16 → Uint256)
    (child : Fin 16 → Tree) (b : Fin 16) :
    (child b).height < (Tree.inner cowid hash hashes child).height := by
  have hle : (child b).height ≤ Finset.univ.sup fun b => (child b).height :=
    Finset.le_sup (f := fun b => (child b).height) (Finset.mem_univ b)
  rw [Tree.height]
  omega

/-- The chain of only children over the store is the one on the tree. -/
theorem onlyBelowLoadedLeaf_eq : ∀ {a : Addr} {S : Set Addr} {fuel : ℕ},
    Holds h c a t S → t.height ≤ fuel →
    match Tree.onlyBelow t with
    | none => MutableTree.onlyBelowLoadedLeaf h fuel a = .ok none
    | some n => ∃ x, MutableTree.onlyBelowLoadedLeaf h fuel a = .ok (some x) ∧
        h[x]? = some (.leaf n) := by
  induction t with
  | empty =>
    intro a S fuel H
    exact absurd H.isLoaded (by simp [Tree.isLoaded])
  | stub =>
    intro a S fuel H
    exact absurd H.isLoaded (by simp [Tree.isLoaded])
  | leaf n =>
    intro a S fuel H hfuel
    obtain ⟨cell, -⟩ := H.leaf_inv
    obtain ⟨fuel, rfl⟩ : ∃ k, fuel = k + 1 := ⟨fuel - 1, by simp only [Tree.height] at hfuel; omega⟩
    refine ⟨a, ?_, cell⟩
    simp [MutableTree.onlyBelowLoadedLeaf, readNode_of_cell cell, bind, Except.bind]
  | inner cowid hash hashes child ih =>
    intro a S fuel H hfuel
    obtain ⟨n, owned, v, rfl, rfl, rfl, rfl⟩ := H.inner_inv
    obtain ⟨fuel, rfl⟩ : ∃ k, fuel = k + 1 := ⟨fuel - 1, by simp only [Tree.height] at hfuel; omega⟩
    simp only [MutableTree.onlyBelowLoadedLeaf, readNode_of_cell v.cell, v.loadedChildren_eq,
      Tree.onlyBelow, bind, Except.bind]
    rcases hb : Tree.branches child with _ | ⟨b, _ | ⟨b', bs⟩⟩
    · rfl
    · have hslot := v.slot b
      have hlt := Tree.height_child_lt n.cowid n.hash n.getChildHash child b
      rcases hs : n.branches b with _ | ⟨_, _ | x⟩
      · rw [hs] at hslot
        simp [InnerNode.getChild, hs, hslot.1, Tree.onlyBelow]
      · rw [hs] at hslot
        simp [InnerNode.getChild, hs, hslot.1, Tree.onlyBelow]
      · rw [hs] at hslot
        have hrec := @ih b x (owned b) fuel hslot (by omega)
        simpa [InnerNode.getChild, hs] using hrec
    · cases hx : n.getChild b <;> simp [hx]

/-- A slot that refers to a child set by `set_child`, or is cleared. -/
abbrev slotOf (prev : Option Addr) : Option Branch := prev.map fun x => ⟨.zero, some x⟩

/-- Replacing a node after a removal follows `Tree.settle`. -/
theorem settleNode_eq {n : InnerNode} {owned : Fin 16 → Set Addr}
    (v : HoldsInner h c a n child owned) (ht : .inner n.cowid n.hash n.getChildHash child = t)
    (hT : T.cowid = c) (hn : n.cowid = c) :
    match Tree.settle sha c t child with
    | .error f => T.settleNode sha h a n = .error f
    | .ok u => ∃ h' prev S', T.settleNode sha h a n = .ok (h', prev) ∧
        HoldsSlot h' c (slotOf prev) u S' ∧
        Evolves h (HoldsInner.footprint a n owned) h' S' := by
  subst hT ht
  have hcount := v.branchCount_eq
  unfold MutableTree.settleNode Tree.settle
  match hb : Tree.branches child with
  | [] =>
    rw [hb] at hcount
    simp only [hcount, List.length_nil]
    exact ⟨h, none, ∅, rfl, ⟨rfl, rfl⟩, (Evolves.refl h _).shrink (Set.empty_subset _)⟩
  | _ :: _ :: l =>
    rw [hb] at hcount
    simp only [hcount, List.length_cons]
    exact ⟨h, some a, _, rfl, v.holds, .refl h _⟩
  | [b] =>
    rw [hb] at hcount
    simp only [hcount, List.length_singleton]
    have H := v.holds
    have hbelow := onlyBelowLoadedLeaf_eq H (H.height_le.trans (Nat.le_succ _))
    unfold MutableTree.collapse
    cases honly : Tree.onlyBelow (.inner n.cowid n.hash n.getChildHash child) with
    | none =>
      rw [honly] at hbelow
      simp only [hbelow, bind, Except.bind]
      exact ⟨h, some a, _, rfl, H, .refl h _⟩
    | some leaf =>
      rw [honly] at hbelow
      obtain ⟨x, hx, cell⟩ := hbelow
      have hne : n.cowid ≠ 0 := hn ▸ T.cowid_ne
      have hsel : MutableTree.selectOnlyBranch n = some b := by
        rw [v.selectOnlyBranch_eq, hb]
        rfl
      let h₁ := h.set a (.inner (n.withChild b none))
      have hset : setChild h a b none = .ok h₁ := by
        simp [setChild, readNode_of_cell v.cell, hne, h₁, bind, Except.bind]
      have e₁ : Evolves h (HoldsInner.footprint a n owned) h₁ ∅ :=
        (Evolves.write _ (.inl ⟨rfl, hne⟩)).shrink (Set.empty_subset _)
      have hnew := newLeaf_eq sha leaf.leafType leaf.item h₁ T.cowid_ne
      simp only [hx, readNode_of_cell cell, hsel, hset, bind, Except.bind]
      cases hfresh : Tree.freshLeaf sha T.cowid leaf.leafType leaf.item with
      | error f =>
        rw [hfresh] at hnew
        simp only [hnew]
      | ok u =>
        rw [hfresh] at hnew
        obtain ⟨h₂, hrun, H₂, e₂⟩ := hnew
        simp only [hrun]
        exact ⟨h₂, some h₁.length, _, rfl, H₂, e₁.trans e₂⟩

/-- The upward loop of `delete_item` along a spine follows `Tree.erase`. -/
theorem Spine.deleteUp (sp : Spine h T.cowid key a d t S path a' d' t' S' plug) (n : LeafNode)
    (ht' : t' = .leaf n) (hkey : n.item.key = key) (hpath : d = 0 → path ≠ []) :
    match Tree.erase sha T.cowid key d t with
    | .error f => T.deleteUp sha h key path = .error f
    | .ok none => False
    | .ok (some u) => ∃ h₂ T₂ prev S₂, T.deleteUp sha h key path = .ok (h₂, T₂, prev) ∧
        T₂.cowid = T.cowid ∧ Evolves h S h₂ S₂ ∧
        if d = 0 then Holds h₂ T.cowid T₂.root u S₂ else
          HoldsSlot h₂ T.cowid (slotOf prev) u S₂ := by
  induction sp with
  | @here a d t S H =>
    subst ht'
    have herase : Tree.erase sha T.cowid key d (.leaf n) = .ok (some .empty) := by
      simp [Tree.erase, Tree.descend, hkey]
    rw [herase]
    have hd : d ≠ 0 := fun hd => hpath hd rfl
    refine ⟨h, T, none, ∅, rfl, rfl, (Evolves.refl h S).shrink (Set.empty_subset S), ?_⟩
    simp [hd, HoldsSlot]
  | @step a x a' d d' m child owned id hash path t' S' plug v hid hd slot below ih =>
    have hrec := ih ht' (by simp)
    have hbranch : selectBranch id key = keyNibble key d := by rw [selectBranch, hid]
    have herase : Tree.erase sha T.cowid key d (.inner m.cowid m.hash m.getChildHash child) =
        Tree.erase sha T.cowid key (d + 1) (child (keyNibble key d)) >>= _ :=
      descend_inner below.top_loaded hd
    rw [herase]
    cases hbelow : Tree.erase sha T.cowid key (d + 1) (child (keyNibble key d)) with
    | error f =>
      rw [hbelow] at hrec
      simp only [MutableTree.deleteUp, hrec, bind, Except.bind]
    | ok r =>
      rw [hbelow] at hrec
      cases r with
      | none => exact hrec.elim
      | some u =>
        obtain ⟨h₂, T₂, prev, S₂, hrun, hT₂, e₂, hslot⟩ := hrec
        obtain ⟨hm, h₃, T₃, a₃, hunshare, hset, hT₃, v₃, e₃⟩ :=
          v.unshare_setChild e₂ hslot T₂ hT₂ id
        have hread := readNode_of_cell v₃.cell
        by_cases hz : d = 0
        · simp only [hz, if_true, bind, Except.bind]
          refine ⟨h₃, { T₃ with root := a₃ }, none, _, ?_, hT₃, e₃, ?_⟩
          · have hroot : id.isRoot = true := by simp [SHAMapNodeId.isRoot, hid, hz]
            simp only [MutableTree.deleteUp, hrun, hunshare, hbranch, hset, hroot, if_true, bind,
              Except.bind]
          · subst hz
            exact v₃.holds_withChild
        · have ht : _ = Tree.dirty T.cowid m.getChildHash child (keyNibble key d) u :=
            congrArg (fun hashes => Tree.inner T.cowid .zero hashes _)
              (HoldsInner.getChildHash_withChild { m with cowid := T.cowid } (keyNibble key d) prev)
          have hsettle := settleNode_eq sha v₃ ht hT₃ rfl
          have hloop : T.deleteUp sha h key (⟨a, id⟩ :: path) =
              (T₃.settleNode sha h₃ a₃
                ({ m with cowid := T.cowid }.withChild (keyNibble key d) prev)).map
                fun r => (r.1, T₃, r.2) := by
            simp only [MutableTree.deleteUp, hrun, hunshare, hbranch, hset, SHAMapNodeId.isRoot,
              hid, hread, bind, Except.bind]
            rw [if_neg (by simpa using hz)]
            rfl
          rw [hloop]
          simp only [hz, if_false, bind, Except.bind]
          cases hu : Tree.settle sha T.cowid
              (Tree.dirty T.cowid m.getChildHash child (keyNibble key d) u)
              (Function.update child (keyNibble key d) u) with
          | error f =>
            rw [hu] at hsettle
            rw [hsettle]
            rfl
          | ok w =>
            rw [hu] at hsettle
            obtain ⟨h₄, prev₄, S₄, hrun₄, hslot₄, e₄⟩ := hsettle
            rw [hrun₄]
            exact ⟨h₄, T₃, prev₄, S₄, rfl, hT₃, e₃.trans e₄, hslot₄⟩

theorem deleteItem_follows (H : Holds h T.cowid T.root t S) :
    Follows h S T.cowid (T.deleteItem sha h key)
      (Tree.deleteItem sha T.cowid key t) := by
  have hwalk := walkTowardsKeyWithPath_eq H key
  have hkeep : ∀ out : Bool, Follows h S T.cowid (.ok (h, T, out)) (.ok (t, out)) :=
    fun out => ⟨h, T, S, rfl, rfl, H, .refl h S⟩
  cases hw : Tree.walk key 0 t with
  | error f =>
    rw [hw] at hwalk
    have herase : Tree.erase sha T.cowid key 0 t = .error f := descend_of_walk_error hw
    have hdel : Tree.deleteItem sha T.cowid key t = .error f := by
      cases t with
      | leaf n => cases hw
      | _ => simp [Tree.deleteItem, herase, bind, Except.bind]
    rw [hdel]
    simp [Follows, MutableTree.deleteItem, hwalk, bind, Except.bind]
  | ok terminal =>
    rw [hw] at hwalk
    obtain ⟨path, a', id', t', S', plug, hpath, sp, hend⟩ := hwalk
    have habsent : (∀ n, terminal = some n → n.item.key ≠ key) →
        Tree.deleteItem sha T.cowid key t = .ok (t, false) := by
      intro hne
      have herase : Tree.erase sha T.cowid key 0 t = .ok none := by
        refine descend_of_walk_ok ?_ ?_ hw
        · intro d
          cases terminal with
          | none => rfl
          | some n => simp [hne n rfl]
        · intros
          rfl
      cases t with
      | leaf n =>
        cases hw
        simp [Tree.deleteItem, hne n rfl]
      | _ => simp [Tree.deleteItem, herase, bind, Except.bind]
    cases terminal with
    | none =>
      rw [habsent (by simp)]
      simpa [MutableTree.deleteItem, hpath, bind, Except.bind] using hkeep false
    | some n =>
      subst hend
      obtain ⟨cell, -⟩ := sp.bottom.leaf_inv
      have hrun : T.deleteItem sha h key =
          if n.item.key ≠ key then .ok (h, T, false)
          else (T.deleteUp sha h key path).map fun r => (r.1, r.2.1, true) := by
        simp only [MutableTree.deleteItem, hpath, Option.map_some, readNode_of_cell cell,
          List.dropLast_concat, bind, Except.bind]
        rfl
      rw [hrun]
      by_cases hkey : n.item.key = key
      · rw [if_neg (not_not.mpr hkey)]
        generalize id'.depth = d' at sp
        cases sp with
        | here _ => simpa [Tree.deleteItem, hkey, MutableTree.deleteUp, Except.map] using hkeep true
        | step v hid hd slot below =>
          have hup := (Spine.step v hid hd slot below).deleteUp sha n rfl hkey (by simp)
          rw [Tree.deleteItem]
          · cases herase : Tree.erase sha T.cowid key 0 _ with
            | error f =>
              rw [herase] at hup
              rw [hup]
              rfl
            | ok r =>
              rw [herase] at hup
              cases r with
              | none => exact hup.elim
              | some u =>
                obtain ⟨h₂, T₂, prev, S₂, hrun₂, hT₂, e₂, H₂⟩ := hup
                rw [hrun₂]
                exact ⟨h₂, T₂, S₂, rfl, hT₂, H₂, e₂⟩
          · simp
      · rw [if_pos hkey, habsent (by simpa using hkey)]
        exact hkeep false

end Quaxar.SHAMap
