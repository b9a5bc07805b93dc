import Quaxar.SHAMap.Tree

/-!
# Trees held by a store

`Holds h c a t S` relates an address to the tree it stands for, seen by a handle
that owns the nodes with identifier `c`, and collects in `S` the addresses of the
owned nodes of that tree. A held tree keeps the copy-on-write discipline: a node
is shared or owned by this handle, a shared node has only shared nodes below it,
and no owned node is reached twice. Shared nodes and the nodes of `S` are all a
tree depends on, which is the frame rule `Holds.frame`.
-/

namespace Quaxar.SHAMap

open CellStore

inductive Holds (h : Heap) (c : ℕ) : Addr → Tree → Set Addr → Prop
  | leaf {a : Addr} {n : LeafNode} (cell : h[a]? = some (.leaf n))
      (own : n.cowid = 0 ∨ n.cowid = c) :
      Holds h c a (.leaf n) {x | x = a ∧ n.cowid ≠ 0}
  | inner {a : Addr} {n : InnerNode} {child : Fin 16 → Tree} {owned : Fin 16 → Set Addr}
      (cell : h[a]? = some (.inner n)) (own : n.cowid = 0 ∨ n.cowid = c)
      (vacant : ∀ b, n.branches b = none → child b = .empty ∧ owned b = ∅)
      (unloaded : ∀ b hash, n.branches b = some ⟨hash, none⟩ → child b = .stub ∧ owned b = ∅)
      (loaded : ∀ b hash x, n.branches b = some ⟨hash, some x⟩ → Holds h c x (child b) (owned b))
      (apart : ∀ b b', b ≠ b' → Disjoint (owned b) (owned b'))
      (self : ∀ b, a ∉ owned b) (closed : n.cowid = 0 → ∀ b, owned b = ∅) :
      Holds h c a (.inner n.cowid n.hash n.getChildHash child)
        ({x | x = a ∧ n.cowid ≠ 0} ∪ ⋃ b, owned b)

/-- What a slot of an inner node stands for. -/
def HoldsSlot (h : Heap) (c : ℕ) : Option Branch → Tree → Set Addr → Prop
  | none, t, S => t = .empty ∧ S = ∅
  | some ⟨_, none⟩, t, S => t = .stub ∧ S = ∅
  | some ⟨_, some x⟩, t, S => Holds h c x t S

/-- An inner node of a held tree, opened. -/
structure HoldsInner (h : Heap) (c : ℕ) (a : Addr) (n : InnerNode) (child : Fin 16 → Tree)
    (owned : Fin 16 → Set Addr) : Prop where
  cell : h[a]? = some (.inner n)
  own : n.cowid = 0 ∨ n.cowid = c
  slot : ∀ b, HoldsSlot h c (n.branches b) (child b) (owned b)
  apart : ∀ b b', b ≠ b' → Disjoint (owned b) (owned b')
  self : ∀ b, a ∉ owned b
  closed : n.cowid = 0 → ∀ b, owned b = ∅

namespace HoldsInner

variable {h : Heap} {c : ℕ} {a : Addr} {n : InnerNode} {child : Fin 16 → Tree}
  {owned : Fin 16 → Set Addr}

theorem holds (v : HoldsInner h c a n child owned) :
    Holds h c a (.inner n.cowid n.hash n.getChildHash child)
      ({x | x = a ∧ n.cowid ≠ 0} ∪ ⋃ b, owned b) := by
  refine .inner v.cell v.own ?_ ?_ ?_ v.apart v.self v.closed
  · intro b hb
    simpa [HoldsSlot, hb] using v.slot b
  · intro b hash hb
    simpa [HoldsSlot, hb] using v.slot b
  · intro b hash x hb
    simpa [HoldsSlot, hb] using v.slot b

end HoldsInner

namespace Holds

variable {h h' : Heap} {c : ℕ} {a : Addr} {t t' : Tree} {S S' T T' : Set Addr}

theorem inner_inv {cowid : ℕ} {hash : Uint256} {hashes : Fin 16 → Uint256}
    {child : Fin 16 → Tree} (H : Holds h c a (.inner cowid hash hashes child) S) :
    ∃ n owned, HoldsInner h c a n child owned ∧ n.cowid = cowid ∧ n.hash = hash ∧
      n.getChildHash = hashes ∧ S = {x | x = a ∧ n.cowid ≠ 0} ∪ ⋃ b, owned b := by
  cases H with
  | @inner _ n _ owned cell own vacant unloaded loaded apart self closed =>
    refine ⟨n, owned, ⟨cell, own, ?_, apart, self, closed⟩, rfl, rfl, rfl, rfl⟩
    intro b
    match hb : n.branches b with
    | none => exact vacant b hb
    | some ⟨hash, none⟩ => exact unloaded b hash hb
    | some ⟨hash, some x⟩ => exact loaded b hash x hb

theorem leaf_inv {n : LeafNode} (H : Holds h c a (.leaf n) S) :
    h[a]? = some (.leaf n) ∧ S = {x | x = a ∧ n.cowid ≠ 0} := by
  cases H with
  | leaf cell _ => exact ⟨cell, rfl⟩

section

variable (H : Holds h c a t S)

include H

/-- An address stands for a leaf or an inner node, according to its cell. -/
theorem cell_cases :
    (∃ n, h[a]? = some (.leaf n) ∧ t = .leaf n) ∨
      ∃ n child, h[a]? = some (.inner n) ∧ t = .inner n.cowid n.hash n.getChildHash child := by
  cases H with
  | leaf cell _ => exact .inl ⟨_, cell, rfl⟩
  | inner cell _ _ _ _ _ _ _ => exact .inr ⟨_, _, cell, rfl⟩

theorem cell_eq : ∃ n, h[a]? = some n ∧ n.cowid = t.cowid ∧ n.hash = t.hash := by
  rcases H.cell_cases with ⟨n, cell, rfl⟩ | ⟨n, child, cell, rfl⟩
  · exact ⟨_, cell, rfl, rfl⟩
  · exact ⟨_, cell, rfl, rfl⟩

theorem lt_length : a < h.length := by
  obtain ⟨n, cell, -⟩ := H.cell_eq
  exact (List.getElem?_eq_some_iff.mp cell).1

theorem isLoaded : t.isLoaded = true := by
  rcases H.cell_cases with ⟨n, -, rfl⟩ | ⟨n, child, -, rfl⟩ <;> rfl

theorem cowid_cases : t.cowid = 0 ∨ t.cowid = c := by
  cases H with
  | leaf _ own => exact own
  | inner _ own _ _ _ _ _ _ => exact own

theorem owned_cell : ∀ x ∈ S, ∃ n, h[x]? = some n ∧ n.cowid = c ∧ n.cowid ≠ 0 := by
  induction H with
  | leaf cell own =>
    rintro x ⟨rfl, hne⟩
    exact ⟨_, cell, own.resolve_left hne, hne⟩
  | @inner a n child owned cell own vacant unloaded loaded apart self closed ih =>
    rintro x (⟨rfl, hne⟩ | hx)
    · exact ⟨_, cell, own.resolve_left hne, hne⟩
    · obtain ⟨b, hb⟩ := Set.mem_iUnion.mp hx
      match hs : n.branches b with
      | none => simp [(vacant b hs).2] at hb
      | some ⟨hash, none⟩ => simp [(unloaded b hash hs).2] at hb
      | some ⟨hash, some y⟩ => exact ih b hash y hs x hb

theorem owned_lt : ∀ x ∈ S, x < h.length := by
  intro x hx
  obtain ⟨n, cell, -⟩ := H.owned_cell x hx
  exact (List.getElem?_eq_some_iff.mp cell).1

/-- A held tree depends only on its owned cells and on shared ones. -/
theorem frame (hS : ∀ x ∈ S, h'[x]? = h[x]?)
    (shared : ∀ (x : Addr) (n : TreeNode), h[x]? = some n → n.cowid = 0 → h'[x]? = some n) :
    Holds h' c a t S := by
  induction H with
  | @leaf a n cell own =>
    refine .leaf ?_ own
    by_cases hz : n.cowid = 0
    · exact shared a _ cell hz
    · rw [hS a ⟨rfl, hz⟩, cell]
  | @inner a n child owned cell own vacant unloaded loaded apart self closed ih =>
    refine .inner ?_ own vacant unloaded ?_ apart self closed
    · by_cases hz : n.cowid = 0
      · exact shared a _ cell hz
      · rw [hS a (.inl ⟨rfl, hz⟩), cell]
    · intro b hash x hb
      exact ih b hash x hb fun y hy => hS y (.inr (Set.mem_iUnion.mpr ⟨b, hy⟩))

/-- A computation that writes only cells `T` owned by others keeps the tree. -/
theorem evolves (e : Evolves h T h' T') (hd : Disjoint S T)
    (hT : ∀ x ∈ T, ∃ n, h[x]? = some n ∧ n.cowid ≠ 0) : Holds h' c a t S := by
  refine H.frame ?_ ?_
  · intro x hx
    exact e.frame x (H.owned_lt x hx) (Set.disjoint_left.mp hd hx)
  · intro x n hn hz
    refine e.get hn fun hx => ?_
    obtain ⟨m, hm, hne⟩ := hT x hx
    rw [hn] at hm
    cases hm
    exact hne hz

theorem functional : Holds h c a t' S' → t = t' := by
  induction H generalizing t' S' with
  | leaf cell own =>
    intro H'
    cases H' with
    | leaf cell' _ =>
      rw [cell] at cell'
      cases cell'
      rfl
    | inner cell' _ _ _ _ _ _ _ => simp [cell] at cell'
  | @inner a n child owned cell own vacant unloaded loaded apart self closed ih =>
    intro H'
    cases H' with
    | leaf cell' _ => simp [cell] at cell'
    | @inner _ n' child' owned' cell' _ vacant' unloaded' loaded' _ _ _ =>
      rw [cell] at cell'
      cases cell'
      congr 1
      funext b
      match hb : n.branches b with
      | none => rw [(vacant b hb).1, (vacant' b hb).1]
      | some ⟨hash, none⟩ => rw [(unloaded b hash hb).1, (unloaded' b hash hb).1]
      | some ⟨hash, some x⟩ => exact ih b hash x hb (loaded' b hash x hb)

/-- A longest branch visits different cells: an address below `a` stands for a
smaller tree than `a` does. -/
theorem exists_branch :
    ∃ l : List Addr, l.length = t.height ∧ l.Nodup ∧
      ∀ x ∈ l, ∃ t' S', Holds h c x t' S' ∧ t'.height ≤ t.height := by
  induction H with
  | @leaf a n cell own =>
    refine ⟨[a], rfl, by simp, ?_⟩
    intro x hx
    rw [List.mem_singleton.mp hx]
    exact ⟨_, _, .leaf cell own, le_refl _⟩
  | @inner a n child owned cell own vacant unloaded loaded apart self closed ih =>
    have H : Holds h c a _ _ := .inner cell own vacant unloaded loaded apart self closed
    obtain ⟨b, -, hmax⟩ := Finset.exists_mem_eq_sup Finset.univ ⟨0, Finset.mem_univ 0⟩
      fun b => (child b).height
    have hheight : (Tree.inner n.cowid n.hash n.getChildHash child).height =
        1 + (child b).height := by rw [Tree.height, hmax]
    have hbelow : ∃ l : List Addr, l.length = (child b).height ∧ l.Nodup ∧
        ∀ x ∈ l, ∃ t' S', Holds h c x t' S' ∧ t'.height ≤ (child b).height := by
      match hb : n.branches b with
      | none => exact ⟨[], by simp [(vacant b hb).1, Tree.height]⟩
      | some ⟨hash, none⟩ => exact ⟨[], by simp [(unloaded b hash hb).1, Tree.height]⟩
      | some ⟨hash, some x⟩ => exact ih b hash x hb
    obtain ⟨l, hlen, hnodup, hl⟩ := hbelow
    refine ⟨a :: l, by rw [hheight, List.length_cons, hlen, add_comm], ?_, ?_⟩
    · refine List.nodup_cons.mpr ⟨fun hmem => ?_, hnodup⟩
      obtain ⟨t', S', H', hle⟩ := hl a hmem
      rw [← H.functional H', hheight] at hle
      omega
    · intro x hx
      rcases List.mem_cons.mp hx with rfl | hx
      · exact ⟨_, _, H, le_refl _⟩
      · obtain ⟨t', S', H', hle⟩ := hl x hx
        exact ⟨t', S', H', by omega⟩

theorem height_le : t.height ≤ h.length := by
  obtain ⟨l, hlen, hnodup, hl⟩ := H.exists_branch
  rw [← hlen, ← List.toFinset_card_of_nodup hnodup, ← Finset.card_range h.length]
  refine Finset.card_le_card fun x hx => ?_
  obtain ⟨t', S', H', -⟩ := hl x (List.mem_toFinset.mp hx)
  exact Finset.mem_range.mpr H'.lt_length

end

end Holds

end Quaxar.SHAMap
