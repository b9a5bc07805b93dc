import Quaxar.SHAMap.Ownership

/-!
# Spines

A `Spine` is the part of a held tree between its root and the node where the walk
towards a key ended. The walk over the store finds the spine that the walk on the
tree describes, `dirty_up` rebuilds it around a new subtree, and the leaf splitting
loop extends it. These are the inductions shared by the mutations.
-/

namespace Quaxar.SHAMap

open CellStore

/-- The nodes above the node `a'` on the way to `key`; `plug` puts a new subtree
in the place of that node. -/
inductive Spine (h : Heap) (c : ℕ) (key : Uint256) :
    Addr → ℕ → Tree → Set Addr → List PathEntry → Addr → ℕ → Tree → Set Addr →
      (Tree → Tree) → Prop
  | here {a : Addr} {d : ℕ} {t : Tree} {S : Set Addr} (H : Holds h c a t S) :
      Spine h c key a d t S [] a d t S id
  | step {a x a' : Addr} {d d' : ℕ} {n : InnerNode} {child : Fin 16 → Tree}
      {owned : Fin 16 → Set Addr} {id : SHAMapNodeId} {hash : Uint256} {path : List PathEntry}
      {t' : Tree} {S' : Set Addr} {plug : Tree → Tree}
      (v : HoldsInner h c a n child owned) (hid : id.depth = d) (hd : d < leafDepth)
      (slot : n.branches (keyNibble key d) = some ⟨hash, some x⟩)
      (below : Spine h c key x (d + 1) (child (keyNibble key d)) (owned (keyNibble key d))
        path a' d' t' S' plug) :
      Spine h c key a d (.inner n.cowid n.hash n.getChildHash child)
        (HoldsInner.footprint a n owned) (⟨a, id⟩ :: path) a' d' t' S'
        (fun s => Tree.dirty c n.getChildHash child (keyNibble key d) (plug s))

namespace Spine

variable {h h₁ : Heap} {c : ℕ} {key : Uint256} {a a' x : Addr} {d d' : ℕ} {t t' u : Tree}
  {S S' S₁ : Set Addr} {path : List PathEntry} {plug : Tree → Tree}

theorem bottom (sp : Spine h c key a d t S path a' d' t' S' plug) : Holds h c a' t' S' := by
  induction sp with
  | here H => exact H
  | step _ _ _ _ _ ih => exact ih

theorem top_loaded (sp : Spine h c key a d t S path a' d' t' S' plug) : t.isLoaded = true := by
  cases sp with
  | here H => exact H.isLoaded
  | step => rfl

theorem enter_ok (ht : t.isLoaded = true) (hd : d < leafDepth) (hash : Uint256) :
    Tree.enter d hash t = .ok () := by
  cases t <;> simp_all [Tree.enter, Tree.isLoaded]

/-- `dirty_up` along a spine puts the new subtree in its place. -/
theorem dirtyUp (sp : Spine h c key a d t S path a' d' t' S' plug) (e : Evolves h S' h₁ S₁)
    (new : Holds h₁ c x u S₁) (T : MutableTree) (hT : T.cowid = c) :
    ∃ h₂ T₂ a₂ S₂, T.dirtyUp h₁ key path x = .ok (h₂, T₂, a₂) ∧ T₂.cowid = c ∧
      Holds h₂ c a₂ (plug u) S₂ ∧ Evolves h S h₂ S₂ := by
  induction sp with
  | here H => exact ⟨h₁, T, x, S₁, rfl, hT, new, e⟩
  | @step a y a' d d' n child owned id hash path t' S' plug v hid hd slot below ih =>
    obtain ⟨h₂, T₂, a₂, S₂, hrun, hT₂, H₂, e₂⟩ := ih e
    have new₂ : HoldsSlot h₂ c ((some a₂).map fun x => ⟨.zero, some x⟩) (plug u) S₂ := H₂
    obtain ⟨hm, h₃, T₃, a₃, hunshare, hset, hT₃, v₃, e₃⟩ :=
      v.unshare_setChild e₂ new₂ T₂ hT₂ id
    have hbranch : selectBranch id key = keyNibble key d := by rw [selectBranch, hid]
    refine ⟨h₃, T₃, a₃, _, ?_, hT₃, ?_, e₃⟩
    · simp only [MutableTree.dirtyUp, hrun, hunshare, hset, hbranch, bind, Except.bind]
    · exact v₃.holds_withChild

end Spine

theorem walkTowardsKeyImpl_eq {h : Heap} {c : ℕ} {key : Uint256} {t : Tree} :
    ∀ {a : Addr} {S : Set Addr} {d fuel : ℕ} {id : SHAMapNodeId}, Holds h c a t S →
      id.depth = d → leafDepth < d + fuel →
      match Tree.walk key d t with
      | .error f => walkTowardsKeyImpl h key fuel a id = .error f
      | .ok terminal => ∃ path a' id' t' S' plug,
          walkTowardsKeyImpl h key fuel a id =
            .ok (terminal.map fun _ => a', path ++ [⟨a', id'⟩]) ∧
          Spine h c key a d t S path a' id'.depth t' S' plug ∧
          match terminal with
          | some n => t' = .leaf n
          | none => ∃ n child owned, HoldsInner h c a' n child owned ∧
              S' = HoldsInner.footprint a' n owned ∧
              t' = .inner n.cowid n.hash n.getChildHash child ∧
              n.branches (keyNibble key id'.depth) = none := by
  induction t with
  | empty =>
    intro a S d fuel id H
    exact absurd H.isLoaded (by simp [Tree.isLoaded])
  | stub =>
    intro a S d fuel id H
    exact absurd H.isLoaded (by simp [Tree.isLoaded])
  | leaf n =>
    intro a S d fuel id H hid hfuel
    obtain ⟨n', cell, heq⟩ | ⟨n', child, cell, heq⟩ := H.cell_cases
    · cases heq
      obtain ⟨fuel, rfl⟩ : ∃ k, fuel = k + 1 := ⟨fuel - 1, by have := id.depth_le; omega⟩
      subst hid
      refine ⟨[], a, id, .leaf n, S, _, ?_, .here H, rfl⟩
      simp [walkTowardsKeyImpl, readNode_of_cell cell, bind, Except.bind]
    · cases heq
  | inner cowid hash hashes child ih =>
    intro a S d fuel id H hid hfuel
    obtain ⟨n, owned, v, rfl, rfl, rfl, rfl⟩ := H.inner_inv
    obtain ⟨fuel, rfl⟩ : ∃ k, fuel = k + 1 := ⟨fuel - 1, by have := id.depth_le; omega⟩
    have hbranch : selectBranch id key = keyNibble key d := by rw [selectBranch, hid]
    have hslot := v.slot (keyNibble key d)
    match hs : n.branches (keyNibble key d) with
    | none =>
      rw [hs] at hslot
      have hwalk : Tree.walk key d (.inner n.cowid n.hash n.getChildHash child) = .ok none := by
        simp [Tree.walk, Tree.descend, hslot.1, Tree.enter, bind, Except.bind]
      rw [hwalk]
      subst hid
      refine ⟨[], a, id, _, _, _, ?_, .here H, n, child, owned, v, rfl, rfl, hs⟩
      simp [walkTowardsKeyImpl, readNode_of_cell v.cell, hbranch, hs, bind, Except.bind]
    | some ⟨hash, none⟩ =>
      rw [hs] at hslot
      have hwalk : Tree.walk key d (.inner n.cowid n.hash n.getChildHash child) =
          .error (.err (.traversal (.missingNode hash))) := by
        simp [Tree.walk, Tree.descend, hslot.1, Tree.enter, bind, Except.bind,
          InnerNode.getChildHash, hs]
      rw [hwalk]
      simp [walkTowardsKeyImpl, readNode_of_cell v.cell, hbranch, hs, bind, Except.bind]
    | some ⟨hash, some x⟩ =>
      rw [hs] at hslot
      have Hx : Holds h c x (child (keyNibble key d)) (owned (keyNibble key d)) := hslot
      by_cases hd : d < leafDepth
      · obtain ⟨childId, hchild, hdepth⟩ :=
          id.getChildNodeId_of_lt (keyNibble key d) (by rw [hid]; exact hd)
        have hwalk : Tree.walk key d (.inner n.cowid n.hash n.getChildHash child) =
            Tree.walk key (d + 1) (child (keyNibble key d)) := by
          simp only [Tree.walk, Tree.descend, Spine.enter_ok Hx.isLoaded hd, bind, Except.bind]
          cases Tree.descend key _ _ (d + 1) (child (keyNibble key d)) <;> rfl
        have hrec := ih (keyNibble key d) Hx (hdepth.trans (by rw [hid]))
          (show leafDepth < d + 1 + fuel by omega)
        have hrun : walkTowardsKeyImpl h key (fuel + 1) a id =
            (walkTowardsKeyImpl h key fuel x childId).map fun r => (r.1, ⟨a, id⟩ :: r.2) := by
          simp only [walkTowardsKeyImpl, readNode_of_cell v.cell, hbranch, hs, hchild, bind,
            Except.bind, Except.map]
        rw [hwalk]
        cases hw : Tree.walk key (d + 1) (child (keyNibble key d)) with
        | error f =>
          rw [hw] at hrec
          rw [hrun, hrec]
          rfl
        | ok terminal =>
          rw [hw] at hrec
          obtain ⟨path, a', id', t', S', plug, hpath, sp, hend⟩ := hrec
          refine ⟨⟨a, id⟩ :: path, a', id', t', S', _, ?_, .step v hid hd hs sp, hend⟩
          rw [hrun, hpath]
          rfl
      · have hwalk : Tree.walk key d (.inner n.cowid n.hash n.getChildHash child) =
            .error .panic := by
          have henter : Tree.enter d (n.getChildHash (keyNibble key d))
              (child (keyNibble key d)) = .error .panic := by
            have hl := Hx.isLoaded
            cases hc : child (keyNibble key d) <;> simp_all [Tree.enter, Tree.isLoaded]
          simp [Tree.walk, Tree.descend, henter, bind, Except.bind]
        have hchild := id.getChildNodeId_of_ge (keyNibble key d) (by rw [hid]; omega)
        rw [hwalk]
        simp [walkTowardsKeyImpl, readNode_of_cell v.cell, hbranch, hs, hchild, bind, Except.bind]

variable (sha : Sha512Half) {c : ℕ} (ty : LeafType) (item existing : SHAMapItem)

theorem newLeaf_eq (h : Heap) (hc : c ≠ 0) :
    match Tree.freshLeaf sha c ty item with
    | .error f => newLeaf sha h ty item c = .error f
    | .ok t => ∃ h₁, newLeaf sha h ty item c = .ok (h₁, h.length) ∧
        Holds h₁ c h.length t {h.length} ∧ Evolves h ∅ h₁ {h.length} := by
  unfold Tree.freshLeaf newLeaf newLeafWithHash
  split_ifs with hsize
  · let n : LeafNode := ⟨ty, item, c, computeLeafHash sha ty item⟩
    refine ⟨(alloc h (.leaf n)).1, rfl, .ownedLeaf (get_alloc_self h (.leaf n)) rfl hc, ?_⟩
    exact (Evolves.alloc h ∅ (.leaf n)).shrink (by simp)
  · rfl

theorem HoldsInner.vacant {h : Heap} {a : Addr}
    (cell : h[a]? = some (.inner ⟨c, .zero, fun _ => none⟩)) :
    HoldsInner h c a ⟨c, .zero, fun _ => none⟩ (fun _ => .empty) (fun _ => ∅) :=
  ⟨cell, .inr rfl, fun _ => ⟨rfl, rfl⟩, fun _ _ _ => by simp, fun _ => by simp, fun _ _ => rfl⟩

theorem HoldsInner.footprint_vacant (hc : c ≠ 0) (a : Addr) :
    footprint a ⟨c, .zero, fun _ => none⟩ (fun _ => ∅) = {a} := by
  ext x
  simp [footprint, hc]

theorem vacantHash (c : ℕ) (hash : Uint256) :
    InnerNode.getChildHash ⟨c, hash, fun _ => none⟩ = fun _ => BaseUInt.zero := rfl

theorem splitLoop_of_ne {id : SHAMapNodeId} {fuel : ℕ} {h : Heap} {graft : List PathEntry}
    {split : Addr} (hne : keyNibble item.key id.depth ≠ keyNibble existing.key id.depth) :
    MutableTree.splitLoop sha c ty item existing (fuel + 1) h graft id split = (do
      let (h, x) ← newLeaf sha h ty item c
      let h ← setChild h split (keyNibble item.key id.depth) (some x)
      let (h, y) ← newLeaf sha h ty existing c
      let h ← setChild h split (keyNibble existing.key id.depth) (some y)
      .ok (h, graft, split)) := by
  rw [MutableTree.splitLoop]
  simp only [selectBranch, ne_eq, hne, not_false_eq_true, if_true]

/-- The leaf splitting loop followed by the part of `dirty_up` that runs over the
nodes it created gives the split tree at the first of these nodes. -/
def SplitMeets (c fuel : ℕ) (h : Heap) (split : Addr) (graft : List PathEntry)
    (id : SHAMapNodeId) : Prop :=
  match Tree.split sha c ty item existing fuel id.depth with
  | .error f => MutableTree.splitLoop sha c ty item existing fuel h graft id split = .error f
  | .ok t => ∃ h₁ q last,
      MutableTree.splitLoop sha c ty item existing fuel h graft id split =
        .ok (h₁, graft ++ q, last) ∧
      ∀ T : MutableTree, T.cowid = c → ∃ h₂ S₂,
        T.dirtyUp h₁ item.key q last = .ok (h₂, T, split) ∧
        Holds h₂ c split t S₂ ∧ Evolves h {split} h₂ S₂

section

variable {h : Heap} {split : Addr} {graft : List PathEntry} {id : SHAMapNodeId} {fuel : ℕ}
  (hc : c ≠ 0) (cell : h[split]? = some (.inner ⟨c, .zero, fun _ => none⟩))

include hc cell

/-- Where the keys part, both leaves go under this node. -/
theorem splitMeets_apart (hne : keyNibble item.key id.depth ≠ keyNibble existing.key id.depth) :
    SplitMeets sha ty item existing c (fuel + 1) h split graft id := by
  have v := HoldsInner.vacant cell
  rw [SplitMeets, Tree.split, if_pos hne, splitLoop_of_ne sha ty item existing hne]
  have hnew := newLeaf_eq sha ty item h hc
  cases hfresh : Tree.freshLeaf sha c ty item with
  | error f =>
    rw [hfresh] at hnew
    simp only [hnew, bind, Except.bind]
  | ok newLeafTree =>
    rw [hfresh] at hnew
    obtain ⟨h₁, hrun₁, H₁, e₁⟩ := hnew
    obtain ⟨h₂, hset₂, v₂, e₂⟩ := v.setChild_owned (keyNibble item.key id.depth)
      (some h.length) rfl hc e₁ H₁
    have hold := newLeaf_eq sha ty existing h₂ hc
    cases hfresh' : Tree.freshLeaf sha c ty existing with
    | error f =>
      rw [hfresh'] at hold
      simp only [hrun₁, hset₂, hold, bind, Except.bind]
    | ok oldLeafTree =>
      rw [hfresh'] at hold
      obtain ⟨h₃, hrun₃, H₃, e₃⟩ := hold
      have hvacant : Function.update (fun _ => (∅ : Set Addr)) (keyNibble item.key id.depth)
          {h.length} (keyNibble existing.key id.depth) = ∅ := by
        rw [Function.update_of_ne (Ne.symm hne)]
      obtain ⟨h₄, hset₄, v₄, e₄⟩ := v₂.setChild_owned (keyNibble existing.key id.depth)
        (some h₂.length) rfl hc (by rw [hvacant]; exact e₃) H₃
      refine ⟨h₄, [], split, ?_, fun T hT => ?_⟩
      · simp only [hrun₁, hset₂, hrun₃, hset₄, bind, Except.bind, List.append_nil]
      · have H := v₄.holds_withChild
        have e := e₂.trans e₄
        rw [HoldsInner.footprint_vacant hc split] at e
        rw [HoldsInner.getChildHash_withChild] at H
        exact ⟨h₄, _, rfl, by simpa [Tree.dirty, vacantHash] using H, e⟩

/-- Where the keys agree, one more inner node goes under this node. -/
theorem splitMeets_below (heq : keyNibble item.key id.depth = keyNibble existing.key id.depth)
    (hd : id.depth < leafDepth)
    (ih : ∀ childId, SplitMeets sha ty item existing c fuel (newInner h c).1 h.length
      (graft ++ [⟨split, id⟩]) childId) :
    SplitMeets sha ty item existing c (fuel + 1) h split graft id := by
  obtain ⟨childId, hchild, hdepth⟩ := id.getChildNodeId_of_lt (keyNibble item.key id.depth) hd
  have hloop : MutableTree.splitLoop sha c ty item existing (fuel + 1) h graft id split =
      MutableTree.splitLoop sha c ty item existing fuel (newInner h c).1
        (graft ++ [⟨split, id⟩]) childId h.length := by
    rw [MutableTree.splitLoop]
    simp only [selectBranch, ne_eq, heq, not_true_eq_false, if_false]
    rw [← heq, hchild]
    rfl
  have hrec := ih childId
  rw [SplitMeets, hdepth] at hrec
  rw [SplitMeets, hloop, Tree.split, if_neg (not_not.mpr heq), if_pos hd]
  cases hbelow : Tree.split sha c ty item existing fuel (id.depth + 1) with
  | error f =>
    rw [hbelow] at hrec
    exact hrec
  | ok below =>
    rw [hbelow] at hrec
    obtain ⟨h₁, q, last, hrun, hup⟩ := hrec
    refine ⟨h₁, ⟨split, id⟩ :: q, last, by rw [hrun]; simp, fun T hT => ?_⟩
    obtain ⟨h₂, S₂, hdirty, H₂, e₂⟩ := hup T hT
    have v := HoldsInner.vacant cell
    have e : Evolves h ∅ h₂ S₂ := ((Evolves.alloc h ∅ _).shrink (by simp)).trans e₂
    obtain ⟨h₃, hset, v₃, e₃⟩ := v.setChild_owned (keyNibble item.key id.depth)
      (some h.length) rfl hc e H₂
    have hunshare := HoldsInner.unshareNode_owned (T := T) (v.cell_evolves (b := 0) e) hT.symm id
    rw [HoldsInner.footprint_vacant hc split] at e₃
    refine ⟨h₃, _, ?_, by simpa [Tree.single, Tree.dirty, vacantHash] using
      v₃.holds_withChild, e₃⟩
    simp only [MutableTree.dirtyUp, hdirty, hunshare, selectBranch, hset, bind, Except.bind]

end

theorem splitLoop_eq (hc : c ≠ 0) : ∀ (fuel : ℕ) {h : Heap} {split : Addr} (graft : List PathEntry)
    (id : SHAMapNodeId), h[split]? = some (.inner ⟨c, .zero, fun _ => none⟩) →
    SplitMeets sha ty item existing c fuel h split graft id := by
  intro fuel
  induction fuel with
  | zero =>
    intro h split graft id cell
    rfl
  | succ fuel ih =>
    intro h split graft id cell
    by_cases hne : keyNibble item.key id.depth ≠ keyNibble existing.key id.depth
    · exact splitMeets_apart sha ty item existing hc cell hne
    have heq := not_not.mp hne
    by_cases hd : id.depth < leafDepth
    · exact splitMeets_below sha ty item existing hc cell heq hd
        fun childId => ih _ childId (get_alloc_self h _)
    · have hchild := id.getChildNodeId_of_ge (keyNibble item.key id.depth) (by omega)
      rw [SplitMeets, Tree.split, if_neg hne, if_neg hd]
      rw [MutableTree.splitLoop]
      simp only [selectBranch, ne_eq, heq, not_true_eq_false, if_false]
      rw [← heq, hchild]

end Quaxar.SHAMap
