import Quaxar.SHAMap.Merkle
import Quaxar.SHAMap.Compare

/-!
# Trees that stand for a trie

A tree in memory stands for a trie of typed leaves: its stored hashes are the Merkle
hashes of the trie, and the nodes that are not loaded can be fetched by their hash.
Between two calls of `update_hash` a tree may also carry zero hashes above the
places where it was changed; `ensure_loaded_hashes` fills these in.
-/

namespace Quaxar.SHAMap

open RadixTrie

/-- `node` is what a descent into the slot `child` with stored hash `hash` finds. -/
def NodeSource.Resolves (src : NodeSource) (hash : Uint256) (child node : Tree) : Prop :=
  child ≠ .stub ∧ node = child ∨
    child = .stub ∧ src.backed = true ∧ src.fetch hash = some node ∧ node.isLoaded = true

variable (sha : Sha512Half) (src : NodeSource)

/-- The tree carries the hashes of the trie and can be walked down to its leaves. -/
inductive Stands : Tree → MerkleTrie → Prop
  | empty : Stands .empty .empty
  | leaf {n : LeafNode} (hash_eq : n.hash = computeLeafHash sha n.leafType n.item) :
      Stands (.leaf n) (.leaf ⟨n.leafType, n.item⟩)
  | inner {cowid : ℕ} {hash : Uint256} {hashes : Fin 16 → Uint256} {child node : Fin 16 → Tree}
      {kids : Fin 16 → MerkleTrie} (hash_eq : hash = merkleHash sha (.inner kids))
      (hashes_eq : ∀ b, hashes b = merkleHash sha (kids b))
      (resolves : ∀ b, src.Resolves (hashes b) (child b) (node b))
      (below : ∀ b, Stands (node b) (kids b)) :
      Stands (.inner cowid hash hashes child) (.inner kids)

/-- The tree stands for the trie once its zero hashes are filled in. -/
inductive Loads : Tree → MerkleTrie → Prop
  | clean {t : Tree} {T : MerkleTrie} (stands : Stands sha src t T) : Loads t T
  | leaf {n : LeafNode} (stale : n.hash = .zero) :
      Loads (.leaf n) (.leaf ⟨n.leafType, n.item⟩)
  | inner {cowid : ℕ} {hash : Uint256} {hashes : Fin 16 → Uint256} {child : Fin 16 → Tree}
      {kids : Fin 16 → MerkleTrie} (stale : hash = .zero)
      (vacant : ∀ b, child b = .empty → hashes b = .zero)
      (unloaded : ∀ b, child b = .stub → hashes b = merkleHash sha (kids b) ∧
        ∃ node, src.Resolves (hashes b) .stub node ∧ Stands sha src node (kids b))
      (below : ∀ b, child b ≠ .stub → Loads (child b) (kids b)) :
      Loads (.inner cowid hash hashes child) (.inner kids)

variable {sha : Sha512Half} {src : NodeSource} {t : Tree} {T : MerkleTrie}

namespace Stands

theorem hash_eq_merkle (h : Stands sha src t T) : t.hash = merkleHash sha T := by
  cases h with
  | empty => rfl
  | leaf hash_eq => exact hash_eq
  | inner hash_eq _ _ _ => exact hash_eq

theorem isEmpty_iff (h : Stands sha src t T) : t.isEmpty = true ↔ T = .empty := by
  cases h <;> simp [Tree.isEmpty]

theorem leaf_inv {e : LeafEntry} (h : Stands sha src t (.leaf e)) :
    ∃ n, t = .leaf n ∧ n.leafType = e.leafType ∧ n.item = e.item := by
  cases h with
  | leaf _ => exact ⟨_, rfl, rfl, rfl⟩

end Stands

variable {hash : Uint256} {child node : Tree}

theorem NodeSource.Resolves.isEmpty_eq (h : src.Resolves hash child node) :
    child.isEmpty = node.isEmpty := by
  rcases h with ⟨-, rfl⟩ | ⟨rfl, -, -, hload⟩
  · rfl
  · cases node <;> simp_all [Tree.isEmpty, Tree.isLoaded]

/-- An inner node that stands for a trie, opened. -/
structure StandsInner (sha : Sha512Half) (src : NodeSource)
    (hashes : Fin 16 → Uint256) (child node : Fin 16 → Tree) (kids : Fin 16 → MerkleTrie) :
    Prop where
  hashes_eq : ∀ b, hashes b = merkleHash sha (kids b)
  resolves : ∀ b, src.Resolves (hashes b) (child b) (node b)
  below : ∀ b, Stands sha src (node b) (kids b)

theorem Stands.inner_inv {kids : Fin 16 → MerkleTrie} (h : Stands sha src t (.inner kids)) :
    ∃ cowid hash hashes child node, t = .inner cowid hash hashes child ∧
      StandsInner sha src hashes child node kids := by
  cases h with
  | inner _ hashes_eq resolves below => exact ⟨_, _, _, _, _, rfl, hashes_eq, resolves, below⟩

namespace StandsInner

variable {hashes : Fin 16 → Uint256} {child node : Fin 16 → Tree} {kids : Fin 16 → MerkleTrie}

theorem isEmpty_iff (v : StandsInner sha src hashes child node kids) (b : Fin 16) :
    (child b).isEmpty = true ↔ kids b = .empty := by
  rw [(v.resolves b).isEmpty_eq, (v.below b).isEmpty_iff]

/-- A descent into a branch that is not empty finds the node below it. -/
theorem descendExpect_eq (v : StandsInner sha src hashes child node kids) {b : Fin 16}
    (hb : kids b ≠ .empty) : src.descendExpect hashes child b = .ok (node b) := by
  have hne : (node b).isEmpty = false := by
    rw [Bool.eq_false_iff, Ne, (v.below b).isEmpty_iff]
    exact hb
  have hdescend : src.descend hashes child b = .ok (some (node b)) := by
    unfold NodeSource.descend
    rcases v.resolves b with ⟨hstub, hnode⟩ | ⟨hstub, hbacked, hfetch, -⟩
    · rw [hnode] at hne ⊢
      cases hc : child b with
      | empty => simp [hc, Tree.isEmpty] at hne
      | stub => exact absurd hc hstub
      | leaf n => rfl
      | inner cowid hash hashes child => rfl
    · have hhash : (node b).hash = hashes b := by rw [(v.below b).hash_eq_merkle, v.hashes_eq b]
      simp [hstub, hbacked, hfetch, hhash]
  simp [NodeSource.descendExpect, NodeSource.descendThrow, hdescend, bind, Except.bind]

end StandsInner

theorem Tree.isEmpty_ensure (sha : Sha512Half) (t : Tree) :
    (t.ensureLoadedHashes sha).isEmpty = t.isEmpty := by
  cases t with
  | empty => rfl
  | stub => rfl
  | leaf n =>
    unfold ensureLoadedHashes
    split <;> rfl
  | inner cowid hash hashes child =>
    unfold ensureLoadedHashes
    split <;> rfl

theorem Tree.ensure_ne_stub (h : t ≠ .stub) : t.ensureLoadedHashes sha ≠ .stub := by
  cases t with
  | empty => exact h
  | stub => exact absurd rfl h
  | leaf n =>
    unfold ensureLoadedHashes
    split <;> simp
  | inner cowid hash hashes child =>
    unfold ensureLoadedHashes
    split <;> simp

variable {cowid : ℕ} {hashes : Fin 16 → Uint256} {child : Fin 16 → Tree}
  {kids : Fin 16 → MerkleTrie}

/-- Rehashing an inner node whose children stand for their tries. -/
theorem stands_rehash (vacant : ∀ b, child b = .empty → hashes b = .zero)
    (unloaded : ∀ b, child b = .stub → hashes b = merkleHash sha (kids b) ∧
      ∃ node, src.Resolves (hashes b) .stub node ∧ Stands sha src node (kids b))
    (below : ∀ b, child b ≠ .stub →
      Stands sha src ((child b).ensureLoadedHashes sha) (kids b)) :
    Stands sha src
      ((Tree.inner cowid .zero hashes child).ensureLoadedHashes sha)
      (.inner kids) := by
  have hnode : ∀ b, ∃ node, src.Resolves (hashes b)
      ((child b).ensureLoadedHashes sha) node ∧ Stands sha src node (kids b) := by
    intro b
    by_cases hb : child b = .stub
    · obtain ⟨-, node, hres, hstands⟩ := unloaded b hb
      exact ⟨node, by rwa [hb], hstands⟩
    · exact ⟨_, .inl ⟨Tree.ensure_ne_stub hb, rfl⟩, below b hb⟩
  choose node hres hstands using hnode
  have hempty : ∀ b, (child b).isEmpty = (kids b).isEmpty := by
    intro b
    rw [← Tree.isEmpty_ensure sha, (hres b).isEmpty_eq, Bool.eq_iff_iff,
      (hstands b).isEmpty_iff, Trie.isEmpty_iff]
  have hhashes : ∀ b, (if (child b).isLoaded then ((child b).ensureLoadedHashes sha).hash
      else hashes b) = merkleHash sha (kids b) := by
    intro b
    cases hc : child b with
    | empty =>
      have hkid : kids b = .empty := by
        rw [← Trie.isEmpty_iff, ← hempty b, hc]
        rfl
      simp [Tree.isLoaded, vacant b hc, hkid, merkleHash]
    | stub => exact (unloaded b hc).1
    | leaf n =>
      rw [← hc, if_pos (by rw [hc]; rfl)]
      exact (below b (by simp [hc])).hash_eq_merkle
    | inner cowid' hash' hashes' child' =>
      rw [← hc, if_pos (by rw [hc]; rfl)]
      exact (below b (by simp [hc])).hash_eq_merkle
  have hbranches : (Tree.branches child).isEmpty =
      (List.finRange 16).all fun b => (kids b).isEmpty := by
    rw [Bool.eq_iff_iff]
    simp [Tree.branches, hempty]
  have hres' : ∀ b, src.Resolves (if (child b).isLoaded then
      ((child b).ensureLoadedHashes sha).hash else hashes b)
      ((child b).ensureLoadedHashes sha) (node b) := by
    intro b
    by_cases hb : child b = .stub
    · have hstub := hres b
      rwa [hb] at hstub ⊢
    · rcases hres b with hloaded | ⟨hstub, -⟩
      · exact .inl hloaded
      · exact absurd hstub (Tree.ensure_ne_stub hb)
  simp only [Tree.ensureLoadedHashes, ne_eq, not_true, if_false]
  refine .inner ?_ hhashes hres' hstands
  simp only [merkleHash, hbranches, hhashes]

theorem Stands.ensure (h : Stands sha src t T) :
    Stands sha src (t.ensureLoadedHashes sha) T := by
  induction h with
  | empty => exact .empty
  | @leaf n hash_eq =>
    unfold Tree.ensureLoadedHashes
    split
    · exact .leaf hash_eq
    · exact .leaf rfl
  | @inner cowid hash hashes child node kids hash_eq hashes_eq resolves below ih =>
    by_cases hz : hash = .zero
    · subst hz
      refine stands_rehash ?_ ?_ ?_
      · intro b hb
        have hkid : kids b = .empty := by
          rw [← (below b).isEmpty_iff, ← (resolves b).isEmpty_eq, hb]
          rfl
        rw [hashes_eq b, hkid]
        rfl
      · intro b hb
        exact ⟨hashes_eq b, node b, hb ▸ resolves b, below b⟩
      · intro b hb
        rcases resolves b with ⟨-, hnode⟩ | ⟨hstub, -⟩
        · exact hnode ▸ ih b
        · exact absurd hstub hb
    · unfold Tree.ensureLoadedHashes
      rw [if_pos hz]
      exact .inner hash_eq hashes_eq resolves below

/-- `ensure_loaded_hashes` completes the hashes of a tree that was changed. -/
theorem Loads.ensure (h : Loads sha src t T) :
    Stands sha src (t.ensureLoadedHashes sha) T := by
  induction h with
  | clean stands => exact stands.ensure
  | leaf stale =>
    unfold Tree.ensureLoadedHashes
    rw [if_neg (not_not.mpr stale)]
    exact .leaf rfl
  | inner stale vacant unloaded below ih =>
    subst stale
    exact stands_rehash vacant unloaded ih

end Quaxar.SHAMap
