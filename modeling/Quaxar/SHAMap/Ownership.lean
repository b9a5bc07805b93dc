import Quaxar.SHAMap.Holds

/-!
# Rebuilding an inner node

All mutations write an inner node in one way: they take the node itself if the
handle owns it and an owned copy otherwise, and then set one child. The lemma
`unshare_setChild` says what such a step leaves in the store, once and for all:
the node stands for the tree `Tree.dirty`, and nothing outside the tree's own
footprint was written.
-/

namespace Quaxar.SHAMap

open CellStore
open Function (update update_of_ne update_self)

theorem readNode_of_cell {h : Heap} {a : Addr} {n : TreeNode} (cell : h[a]? = some n) :
    readNode h a = .ok n := by
  simp [readNode, cell]

namespace Holds

variable {h : Heap} {c : ℕ} {a x : Addr} {t : Tree} {S : Set Addr}

theorem alloc (H : Holds h c a t S) (y : TreeNode) : Holds (CellStore.alloc h y).1 c a t S :=
  H.evolves (Evolves.alloc h ∅ y) (Set.disjoint_empty S) (by simp)

theorem ownedLeaf {n : LeafNode} (cell : h[a]? = some (.leaf n)) (hn : n.cowid = c)
    (hc : c ≠ 0) : Holds h c a (.leaf n) {a} := by
  have hS : {x | x = a ∧ n.cowid ≠ 0} = {a} := by
    ext x
    simp [hn, hc]
  rw [← hS]
  exact .leaf cell (.inr hn)

theorem write_other (H : Holds h c a t S) {m : TreeNode} (y : TreeNode) (cell : h[x]? = some m)
    (hm : m.cowid ≠ 0) (hx : x ∉ S) : Holds (h.set x y) c a t S := by
  refine H.evolves (Evolves.write y (Set.mem_singleton x)) (by simpa using hx) ?_
  intro z hz
  rw [Set.mem_singleton_iff.mp hz]
  exact ⟨m, cell, hm⟩

end Holds

namespace HoldsSlot

variable {h h' : Heap} {c : ℕ} {a x : Addr} {s s' : Option Branch} {t : Tree} {S T T' : Set Addr}
  (H : HoldsSlot h c s t S)

include H

theorem map (f : ∀ a, Holds h c a t S → Holds h' c a t S) : HoldsSlot h' c s t S := by
  match s with
  | none => exact H
  | some ⟨_, none⟩ => exact H
  | some ⟨_, some a⟩ => exact f a H

theorem owned_cell : ∀ x ∈ S, ∃ n, h[x]? = some n ∧ n.cowid = c ∧ n.cowid ≠ 0 := by
  match s with
  | none => simp [H.2]
  | some ⟨_, none⟩ => simp [H.2]
  | some ⟨_, some a⟩ => exact Holds.owned_cell H

theorem owned_lt : ∀ x ∈ S, x < h.length := by
  intro x hx
  obtain ⟨n, cell, -⟩ := H.owned_cell x hx
  exact (List.getElem?_eq_some_iff.mp cell).1

/-- The stored hash of a slot plays no part in what the slot holds. -/
theorem congr_child (hs : s'.map Branch.child = s.map Branch.child) : HoldsSlot h c s' t S := by
  match s, s' with
  | none, none => exact H
  | some ⟨_, none⟩, some ⟨_, none⟩ => exact H
  | some ⟨_, some a⟩, some ⟨_, some a'⟩ =>
    simp only [Option.map_some, Option.some.injEq] at hs
    subst hs
    exact H

end HoldsSlot

namespace HoldsInner

variable {h h₁ h₂ : Heap} {c : ℕ} {a a₂ : Addr} {n : InnerNode} {child : Fin 16 → Tree}
  {owned : Fin 16 → Set Addr} {b : Fin 16} {prev : Option Addr} {t : Tree} {S : Set Addr}

/-- The footprint of an opened node. -/
def footprint (a : Addr) (n : InnerNode) (owned : Fin 16 → Set Addr) : Set Addr :=
  {x | x = a ∧ n.cowid ≠ 0} ∪ ⋃ b, owned b

theorem owned_subset (a : Addr) (n : InnerNode) (owned : Fin 16 → Set Addr) (b : Fin 16) :
    owned b ⊆ footprint a n owned :=
  fun _ hx => .inr (Set.mem_iUnion.mpr ⟨b, hx⟩)

theorem getChildHash_withChild (n : InnerNode) (b : Fin 16) (prev : Option Addr) :
    (n.withChild b prev).getChildHash = update n.getChildHash b BaseUInt.zero := by
  funext b'
  by_cases hb : b' = b
  · subst hb
    cases prev <;> simp [InnerNode.withChild, InnerNode.getChildHash]
  · simp [InnerNode.withChild, InnerNode.getChildHash, hb]

theorem holds_withChild {child' : Fin 16 → Tree} {owned' : Fin 16 → Set Addr}
    (v : HoldsInner h c a (n.withChild b prev) child' owned') :
    Holds h c a (.inner n.cowid .zero (update n.getChildHash b .zero) child')
      (footprint a (n.withChild b prev) owned') := by
  have H := v.holds
  rw [getChildHash_withChild] at H
  exact H

variable {n' : InnerNode} {s : Option Branch}

theorem evolves_rebuild (e : Evolves h (owned b) h₁ S) (grows : h₁.length ≤ h₂.length)
    (other : ∀ x < h.length, x ∉ footprint a n owned → h₂[x]? = h₁[x]?)
    (root : a₂ ∈ footprint a n owned ∨ h.length ≤ a₂) :
    Evolves h (footprint a n owned) h₂ (footprint a₂ n' (update owned b S)) := by
  refine ⟨e.grows.trans grows, ?_, ?_⟩
  · intro x hx hn
    rw [other x hx hn]
    exact e.frame x hx fun hb => hn (owned_subset a n owned b hb)
  · rintro x (⟨rfl, -⟩ | hx)
    · exact root
    · obtain ⟨b', hx⟩ := Set.mem_iUnion.mp hx
      by_cases hb : b' = b
      · subst hb
        rw [update_self] at hx
        exact (e.owned x hx).imp_left fun hx => owned_subset a n owned b' hx
      · rw [update_of_ne hb] at hx
        exact .inl (owned_subset a n owned b' hx)

theorem unshareNode_owned {T : MutableTree} {m : TreeNode} (cell : h[a]? = some m)
    (hm : m.cowid = T.cowid) (id : SHAMapNodeId) : T.unshareNode h a id = .ok (h, T, a) := by
  simp [MutableTree.unshareNode, readNode_of_cell cell, hm, bind, Except.bind]

variable (v : HoldsInner h c a n child owned) (e : Evolves h (owned b) h₁ S)

include v e

/-- The siblings of a child survive a computation confined to that child. -/
theorem sibling {b' : Fin 16} (hb : b' ≠ b) : HoldsSlot h₁ c (n.branches b') (child b')
    (owned b') := by
  refine (v.slot b').map fun x H => H.evolves e (v.apart b' b hb) ?_
  intro y hy
  obtain ⟨m, cell, -, hne⟩ := (v.slot b).owned_cell y hy
  exact ⟨m, cell, hne⟩

/-- The cell of a node survives a computation confined to one of its children. -/
theorem cell_evolves : h₁[a]? = some (.inner n) :=
  e.get v.cell (v.self b)

/-- An owned node with one new slot, opened. -/
theorem rebuild (cell : h₂[a₂]? = some (.inner n')) (hn' : n'.cowid = c)
    (hbr : n'.branches = update n.branches b s)
    (keep : ∀ b' ≠ b, HoldsSlot h₂ c (n.branches b') (child b') (owned b'))
    (new : HoldsSlot h₂ c s t S) (self : ∀ b', a₂ ∉ update owned b S b') (hc : c ≠ 0) :
    HoldsInner h₂ c a₂ n' (update child b t) (update owned b S) := by
  refine ⟨cell, .inr hn', ?_, ?_, self, fun hz => absurd (hn' ▸ hz) hc⟩
  · intro b'
    rw [hbr]
    by_cases hb : b' = b
    · subst hb
      simpa using new
    · simpa [hb] using keep b' hb
  · -- new addresses are old members of the child's footprint or were not allocated yet
    have apart : ∀ b' ≠ b, Disjoint (owned b') S := by
      intro b' hb
      rw [Set.disjoint_left]
      intro x hx hS
      rcases e.owned x hS with hold | hnew
      · exact Set.disjoint_left.mp (v.apart b' b hb) hx hold
      · exact absurd ((v.slot b').owned_lt x hx) (Nat.not_lt.mpr hnew)
    intro b₁ b₂ hne
    by_cases h1 : b₁ = b
    · subst h1
      simpa [hne.symm] using (apart b₂ hne.symm).symm
    · by_cases h2 : b₂ = b
      · subst h2
        simpa [hne] using apart b₁ hne
      · simpa [h1, h2] using v.apart b₁ b₂ hne

/-- Writing one slot of an owned node in place, after the child's subtree was
changed. -/
theorem write_slot (hown : n.cowid = c) (hc : c ≠ 0) {m : InnerNode} (hm : m.cowid = c)
    (hbr : m.branches = update n.branches b s) (new : HoldsSlot h₁ c s t S) :
    HoldsInner (h₁.set a (.inner m)) c a m (update child b t)
        (update owned b S) ∧
      Evolves h (footprint a n owned) (h₁.set a (.inner m))
        (footprint a m (update owned b S)) := by
  have cell₁ := v.cell_evolves e
  have hne : (TreeNode.inner n).cowid ≠ 0 := by simpa [TreeNode.cowid, hown] using hc
  have hroot : a ∈ footprint a n owned := .inl ⟨rfl, by rw [hown]; exact hc⟩
  have hself : a ∉ S := by
    intro hmem
    rcases e.owned a hmem with hold | hnew
    · exact v.self b hold
    · exact absurd (List.getElem?_eq_some_iff.mp v.cell).1 (Nat.not_lt.mpr hnew)
  have hlive : ∀ (s : Option Branch) (u : Tree) (R : Set Addr), HoldsSlot h₁ c s u R → a ∉ R →
      HoldsSlot (h₁.set a (.inner m)) c s u R := by
    intro s u R H hR
    exact H.map fun x Hx => Hx.write_other _ cell₁ hne hR
  constructor
  · refine v.rebuild e (get_write_self cell₁) hm hbr
      (fun b' hb => hlive _ _ _ (v.sibling e hb) (v.self b')) (hlive _ _ _ new hself) ?_ hc
    intro b' hmem
    by_cases hb : b' = b
    · subst hb
      rw [update_self] at hmem
      exact hself hmem
    · rw [update_of_ne hb] at hmem
      exact v.self b' hmem
  · refine evolves_rebuild e (by simp) ?_ (.inl hroot)
    intro x _ hn
    refine List.getElem?_set_ne fun hax => hn ?_
    rwa [← hax]

omit e in
theorem setChild_owned (b : Fin 16) (prev : Option Addr)
    (hown : n.cowid = c) (hc : c ≠ 0) (e : Evolves h (owned b) h₁ S)
    (new : HoldsSlot h₁ c (prev.map fun x => ⟨.zero, some x⟩) t S) :
    ∃ h₂, setChild h₁ a b prev = .ok h₂ ∧
      HoldsInner h₂ c a (n.withChild b prev) (update child b t)
        (update owned b S) ∧
      Evolves h (footprint a n owned) h₂
        (footprint a (n.withChild b prev) (update owned b S)) := by
  obtain ⟨v₂, e₂⟩ := v.write_slot e hown hc (m := n.withChild b prev) hown rfl new
  refine ⟨h₁.set a (.inner (n.withChild b prev)), ?_, v₂, e₂⟩
  simp [setChild, readNode_of_cell (v.cell_evolves e), hown, hc, bind, Except.bind]

theorem shareChild_owned {s : Branch} (hs : n.branches b = some s) (hown : n.cowid = c) (hc : c ≠ 0)
    {x : Addr} (new : Holds h₁ c x t S) :
    ∃ h₂ n₂, shareChild h₁ a b x = .ok h₂ ∧ n₂.cowid = c ∧ n₂.getChildHash = n.getChildHash ∧
      HoldsInner h₂ c a n₂ (update child b t) (update owned b S) ∧
      Evolves h (footprint a n owned) h₂ (footprint a n₂ (update owned b S)) := by
  let n₂ : InnerNode :=
    { n with branches := update n.branches b (some { s with child := some x }) }
  obtain ⟨v₂, e₂⟩ := v.write_slot e hown hc (m := n₂) hown rfl
    (show HoldsSlot h₁ c (some { s with child := some x }) t S from new)
  refine ⟨h₁.set a (.inner n₂), n₂, ?_, hown, ?_, v₂, e₂⟩
  · simp [shareChild, readNode_of_cell (v.cell_evolves e), hs, hown, hc, bind, Except.bind, n₂]
  · funext b'
    by_cases hb : b' = b
    · subst hb
      simp [InnerNode.getChildHash, n₂, hs]
    · simp [InnerNode.getChildHash, n₂, hb]

omit e in
/-- Unsharing a node leaves an owned node with the same children. -/
theorem unshareNode (T : MutableTree) (hT : T.cowid = c)
    (id : SHAMapNodeId) :
    ∃ h₁ T₁ a₁, T.unshareNode h a id = .ok (h₁, T₁, a₁) ∧ T₁.cowid = c ∧
      HoldsInner h₁ c a₁ { n with cowid := c } child owned ∧
      Evolves h (footprint a n owned) h₁ (footprint a₁ { n with cowid := c } owned) := by
  have hc : c ≠ 0 := hT ▸ T.cowid_ne
  rcases v.own with hz | hown
  · let copy : TreeNode := .inner { n with cowid := c }
    refine ⟨(CellStore.alloc h copy).1, if id.isRoot then { T with root := h.length } else T,
      h.length, ?_, ?_, ?_, ?_⟩
    · simp [MutableTree.unshareNode, readNode_of_cell v.cell, TreeNode.cowid, hz, hT, hc.symm,
        cloneWithCowid, bind, Except.bind, copy, CellStore.alloc]
    · split_ifs <;> exact hT
    · refine ⟨get_alloc_self h copy, .inr rfl, fun b => (v.slot b).map fun x H => H.alloc copy,
        v.apart, ?_, fun hzero => absurd hzero hc⟩
      intro b
      simp [v.closed hz b]
    · refine ((Evolves.alloc h _ copy).mono (T := footprint a n owned) le_rfl).shrink ?_
      rintro x (⟨rfl, -⟩ | hx)
      · exact .inl rfl
      · exact .inr (.inr hx)
  · have hsame : ({ n with cowid := c } : InnerNode) = n := by rw [← hown]
    rw [hsame]
    exact ⟨h, T, a, unshareNode_owned v.cell (hown.trans hT.symm) id, hT, v, .refl h _⟩

/-- Unsharing a node and setting one of its children, after the child's subtree
was changed. -/
theorem unshare_setChild
    (new : HoldsSlot h₁ c (prev.map fun x => ⟨.zero, some x⟩) t S)
    (T : MutableTree) (hT : T.cowid = c) (id : SHAMapNodeId) :
    ∃ hm h₂ T₂ a₂, T.unshareNode h₁ a id = .ok (hm, T₂, a₂) ∧ setChild hm a₂ b prev = .ok h₂ ∧
      T₂.cowid = c ∧
      HoldsInner h₂ c a₂ ({ n with cowid := c }.withChild b prev) (update child b t)
        (update owned b S) ∧
      Evolves h (footprint a n owned) h₂
        (footprint a₂ ({ n with cowid := c }.withChild b prev) (update owned b S)) := by
  have hc : c ≠ 0 := hT ▸ T.cowid_ne
  have cell₁ := v.cell_evolves e
  have hread := readNode_of_cell cell₁
  rcases v.own with hz | hown
  · -- a shared node is copied to a fresh cell, which is then written
    have hne : n.cowid ≠ c := fun heq => hc (heq ▸ hz)
    let copy : TreeNode := .inner { n with cowid := c }
    let hm := (CellStore.alloc h₁ copy).1
    have hcell : hm[h₁.length]? = some copy := get_alloc_self h₁ copy
    have hmne : copy.cowid ≠ 0 := hc
    have hlive : ∀ (s : Option Branch) (u : Tree) (R : Set Addr), HoldsSlot h₁ c s u R →
        HoldsSlot (hm.set h₁.length (.inner ({ n with cowid := c }.withChild b prev))) c s u R := by
      intro s u R H
      have hfresh : h₁.length ∉ R := fun hmem => absurd (H.owned_lt _ hmem) (lt_irrefl _)
      exact H.map fun x Hx => (Hx.alloc copy).write_other _ hcell hmne hfresh
    refine ⟨hm, hm.set h₁.length (.inner ({ n with cowid := c }.withChild b prev)),
      if id.isRoot then { T with root := h₁.length } else T, h₁.length, ?_, ?_, ?_, ?_, ?_⟩
    · simp [MutableTree.unshareNode, hread, TreeNode.cowid, hz, hT, hc.symm, cloneWithCowid,
        bind, Except.bind, hm, copy, CellStore.alloc]
    · simp [setChild, readNode_of_cell hcell, copy, hc, bind, Except.bind]
    · split_ifs <;> exact hT
    · refine v.rebuild e (get_write_self hcell) rfl rfl (fun b' hb => hlive _ _ _ (v.sibling e hb))
        (hlive _ _ _ new) ?_ hc
      intro b' hmem
      by_cases hb : b' = b
      · subst hb
        rw [update_self] at hmem
        exact lt_irrefl _ (new.owned_lt _ hmem)
      · rw [update_of_ne hb] at hmem
        exact lt_irrefl _ ((v.slot b').owned_lt _ hmem |>.trans_le e.grows)
    · refine evolves_rebuild e (by simp [hm, CellStore.alloc]) ?_ (.inr e.grows)
      intro x hx _
      have hx₁ : x < h₁.length := hx.trans_le e.grows
      rw [List.getElem?_set_ne (by omega)]
      simp [hm, CellStore.alloc, List.getElem?_append_left hx₁]
  · have hsame : ({ n with cowid := c } : InnerNode) = n := by rw [← hown]
    obtain ⟨h₂, hset, v₂, e₂⟩ := v.setChild_owned b prev hown hc e new
    rw [hsame]
    exact ⟨h₁, h₂, T, a, unshareNode_owned cell₁ (hown.trans hT.symm) id, hset, hT, v₂, e₂⟩

end HoldsInner

end Quaxar.SHAMap
