import Quaxar.SHAMap.Canonical
import Quaxar.SHAMap.Family

/-!
# A mutable tree is a map of items

The abstract model of a tree is a partial function from keys to items. A run of
insertions, updates and deletions on a new tree answers as the map does, keeps the
items of the map in its leaves, and leads after hashing to nodes that only depend on
the map: the history of the tree cannot be read from it.
-/

namespace Quaxar.SHAMap

open RadixTrie CellStore

abbrev ItemMap := Uint256 → Option SHAMapItem

/-- A call on a tree of one leaf type. -/
inductive MapOp where
  | add (item : SHAMapItem)
  | update (item : SHAMapItem)
  | delete (key : Uint256)

namespace MapOp

def treeOp (ty : LeafType) : MapOp → TreeOp
  | add item => .add ty item
  | update item => .update ty item
  | delete key => .delete key

/-- The payload has the length that a leaf requires. -/
def Sized : MapOp → Prop
  | add item => minItemBytes ≤ item.size
  | update item => minItemBytes ≤ item.size
  | delete _ => True

/-- What the call does to the map, and what it reports. -/
def apply (m : ItemMap) : MapOp → ItemMap × Outcome
  | add item =>
    if (m item.key).isSome then (m, .answer false)
    else (Function.update m item.key (some item), .answer true)
  | update item =>
    if (m item.key).isSome then (Function.update m item.key (some item), .answer true)
    else (m, .failed (.missingExactLeaf item.key))
  | delete key =>
    if (m key).isSome then (Function.update m key none, .answer true) else (m, .answer false)

/-- Run a list of calls from a given map. -/
def run (m : ItemMap) : List MapOp → ItemMap × List Outcome
  | [] => (m, [])
  | op :: ops =>
    let (m, out) := op.apply m
    let (m, outs) := run m ops
    (m, out :: outs)

/-- The map that a list of calls builds up from nothing. -/
def build (ops : List MapOp) : ItemMap := (run (fun _ => none) ops).1

end MapOp

/-- The root of a tree with the items of a map, each under its own key. -/
structure Models (sha : Sha512Half) (c : ℕ) (ty : LeafType) (t : Tree)
    (m : ItemMap) : Prop where
  root : Tree.IsInner sha c ty 0 t fun x => m x.key = some x
  keyed : ∀ key x, m key = some x → x.key = key

variable {t' : Tree}

namespace Models

variable {sha : Sha512Half} {c : ℕ} {ty : LeafType} {t : Tree} {m : ItemMap}
  (M : Models sha c ty t m)

include M

theorem exists_key_iff (key : Uint256) :
    (∃ x : SHAMapItem, m x.key = some x ∧ x.key = key) ↔ (m key).isSome = true := by
  constructor
  · rintro ⟨x, hx, rfl⟩
    simp [hx]
  · intro h
    obtain ⟨x, hx⟩ := Option.isSome_iff_exists.mp h
    have hk := M.keyed key x hx
    exact ⟨x, by rw [hk, hx], hk⟩

theorem set {item : SHAMapItem} (h : Tree.IsInner sha c ty 0 t' fun x =>
      x = item ∨ m x.key = some x ∧ x.key ≠ item.key) :
    Models sha c ty t' (Function.update m item.key (some item)) where
  root := by
    obtain ⟨hash, hashes, child, rfl, r⟩ := h
    refine ⟨hash, hashes, child, rfl, r.congr fun x => ?_⟩
    by_cases hk : x.key = item.key
    · simp only [hk, Function.update_self, Option.some.injEq, ne_eq, not_true, and_false, or_false]
      exact eq_comm
    · have hne : x ≠ item := fun h => hk (by rw [h])
      simp [hk, hne]
  keyed key x hx := by
    by_cases hk : key = item.key
    · subst hk
      rw [Function.update_self] at hx
      rw [← Option.some.inj hx]
    · rw [Function.update_of_ne hk] at hx
      exact M.keyed key x hx

theorem drop {key : Uint256}
    (h : Tree.IsInner sha c ty 0 t' fun x => m x.key = some x ∧ x.key ≠ key) :
    Models sha c ty t' (Function.update m key none) where
  root := by
    obtain ⟨hash, hashes, child, rfl, r⟩ := h
    refine ⟨hash, hashes, child, rfl, r.congr fun x => ?_⟩
    by_cases hk : x.key = key
    · simp [hk]
    · simp [hk]
  keyed key' x hx := by
    by_cases hk : key' = key
    · subst hk
      simp at hx
    · rw [Function.update_of_ne hk] at hx
      exact M.keyed key' x hx

theorem apply {op : MapOp} (hop : op.Sized) :
    ∃ t', t.apply sha c (op.treeOp ty) = .ok (t', (op.apply m).2) ∧
      Models sha c ty t' (op.apply m).1 := by
  obtain ⟨hash, hashes, child, rfl, r⟩ := M.root
  have hd : 0 < leafDepth := by decide
  have hchild : ∀ key, Tree.Along key (0 + 1) fun x : SHAMapItem =>
      m x.key = some x ∧ itemDigits x 0 = keyNibble key 0 :=
    fun key => (Tree.along_zero key _).step
  cases op with
  | add item =>
    rcases r.add hd ((r.carries_child _).add hop (hchild item.key)) with
      ⟨hex, hrun⟩ | ⟨hnew, t', hrun, ht'⟩
    · rw [M.exists_key_iff] at hex
      refine ⟨.inner c hash hashes child, ?_, ?_⟩
      · simp only [Tree.apply, MapOp.treeOp, Tree.addItem, hrun, MapOp.apply, hex, if_true, bind,
          Except.bind, report]
      · simpa only [MapOp.apply, hex, if_true] using M
    · have hne : ∀ x : SHAMapItem, m x.key = some x → x.key ≠ item.key :=
        fun x hx hk => hnew ⟨x, hx, hk⟩
      rw [M.exists_key_iff, Bool.not_eq_true] at hnew
      refine ⟨t', ?_, ?_⟩
      · simp only [Tree.apply, MapOp.treeOp, Tree.addItem, hrun, MapOp.apply, hnew, bind,
          Except.bind, report, Bool.false_eq_true, if_false]
      · simp only [MapOp.apply, hnew, Bool.false_eq_true, if_false]
        obtain ⟨hash', hashes', child', rfl, r'⟩ := ht'
        refine M.set ⟨hash', hashes', child', rfl, r'.congr fun x => ?_⟩
        exact or_congr_right ⟨fun hx => ⟨hx, hne x hx⟩, And.left⟩
  | update item =>
    rcases r.update hd ((r.carries_child _).update hop (hchild item.key)) with
      ⟨hnone, hrun⟩ | ⟨hex, changed, t', hrun, ht'⟩
    · rw [M.exists_key_iff, Bool.not_eq_true] at hnone
      refine ⟨.inner c hash hashes child, ?_, ?_⟩
      · simp only [Tree.apply, MapOp.treeOp, Tree.updateItem, hrun, MapOp.apply, hnone, bind,
          Except.bind, report, Bool.false_eq_true, if_false]
      · simpa only [MapOp.apply, hnone, Bool.false_eq_true, if_false] using M
    · rw [M.exists_key_iff] at hex
      refine ⟨t', ?_, ?_⟩
      · simp only [Tree.apply, MapOp.treeOp, Tree.updateItem, hrun, MapOp.apply, hex, if_true, bind,
          Except.bind, report]
      · simp only [MapOp.apply, hex, if_true]
        exact M.set ht'
  | delete key =>
    rcases r.erase hd ((r.carries_child _).erase (hchild key) Nat.one_pos) with
      ⟨hnone, hrun⟩ | ⟨hex, hashes', child', hrun, r'⟩
    · rw [M.exists_key_iff, Bool.not_eq_true] at hnone
      refine ⟨.inner c hash hashes child, ?_, ?_⟩
      · simp only [Tree.apply, MapOp.treeOp, Tree.deleteItem, hrun, MapOp.apply, hnone, bind,
          Except.bind, report, Bool.false_eq_true, if_false]
      · simpa only [MapOp.apply, hnone, Bool.false_eq_true, if_false] using M
    · rw [M.exists_key_iff] at hex
      refine ⟨.inner c BaseUInt.zero hashes' child', ?_, ?_⟩
      · simp only [Tree.apply, MapOp.treeOp, Tree.deleteItem, hrun, MapOp.apply, hex, if_true, bind,
          Except.bind, report]
      · simp only [MapOp.apply, hex, if_true]
        exact M.drop ⟨_, hashes', child', rfl, r'⟩

theorem find (key : Uint256) : (t.find key).map (Option.map LeafNode.item) = .ok (m key) := by
  obtain ⟨hash, hashes, child, rfl, r⟩ := M.root
  obtain ⟨terminal, hwalk, hfind⟩ :=
    r.walk (by decide) ((r.carries_child _).walk (Tree.along_zero key _).step)
  have hmap : (terminal.filter fun n => n.item.key = key).map LeafNode.item = m key := by
    apply Option.ext
    intro x
    have hkeyed : m key = some x ↔ m x.key = some x ∧ x.key = key := by
      constructor
      · intro hx
        have hk := M.keyed key x hx
        exact ⟨by rw [hk, hx], hk⟩
      · rintro ⟨hx, rfl⟩
        exact hx
    rw [hkeyed, hfind x]
    constructor
    · intro h
      obtain ⟨n, hn, rfl⟩ := Option.map_eq_some_iff.mp h
      obtain ⟨hn, hk⟩ := Option.filter_eq_some_iff.mp hn
      exact ⟨n, hn, rfl, by simpa using hk⟩
    · rintro ⟨n, rfl, rfl, hk⟩
      simp [Option.filter, hk]
  simp only [Tree.find, hwalk, bind, Except.bind, Except.map, hmap]

end Models

/-- `b` is a loaded child of the inner node at `a`. -/
def IsChild (h : Heap) (a b : Addr) : Prop :=
  ∃ n branch, h[a]? = some (.inner n) ∧ n.getChild branch = some b

/-- A leaf with this item is reachable from `a`. -/
def StoredBelow (h : Heap) (a : Addr) (x : SHAMapItem) : Prop :=
  ∃ b n, Relation.ReflTransGen (IsChild h) a b ∧ h[b]? = some (.leaf n) ∧ n.item = x

variable {h : Heap} {c : ℕ} {a : Addr} {t : Tree} {S : Set Addr} {n : InnerNode}
  {child : Fin 16 → Tree} {owned : Fin 16 → Set Addr} {b : Addr}

theorem HoldsInner.isChild_iff (v : HoldsInner h c a n child owned) :
    IsChild h a b ↔ ∃ branch, n.getChild branch = some b := by
  constructor
  · rintro ⟨m, branch, hm, hb⟩
    rw [v.cell] at hm
    cases hm
    exact ⟨branch, hb⟩
  · rintro ⟨branch, hb⟩
    exact ⟨n, branch, v.cell, hb⟩

theorem HoldsInner.holds_child (v : HoldsInner h c a n child owned) {branch : Fin 16}
    (hb : n.getChild branch = some b) : Holds h c b (child branch) (owned branch) := by
  have hslot := v.slot branch
  rcases hs : n.branches branch with _ | ⟨_, _ | x⟩
  · simp [InnerNode.getChild, hs] at hb
  · simp [InnerNode.getChild, hs] at hb
  · obtain rfl : x = b := by simpa [InnerNode.getChild, hs] using hb
    rwa [hs] at hslot

/-- The leaves that are reached over the store are the items of the tree. -/
theorem Holds.storedBelow_iff {x : SHAMapItem} {a : Addr} {S : Set Addr} (H : Holds h c a t S) :
    StoredBelow h a x ↔ Mem x t.shape := by
  induction t generalizing a S with
  | empty => exact absurd H.isLoaded (by simp [Tree.isLoaded])
  | stub => exact absurd H.isLoaded (by simp [Tree.isLoaded])
  | leaf n =>
    obtain ⟨cell, -⟩ := H.leaf_inv
    constructor
    · rintro ⟨b, m, hreach, hm, rfl⟩
      rcases Relation.ReflTransGen.cases_head hreach with rfl | ⟨b', ⟨k, _, hk, -⟩, -⟩
      · rw [cell] at hm
        cases hm
        rfl
      · rw [cell] at hk
        cases hk
    · intro hx
      exact ⟨a, n, .refl, cell, hx.symm⟩
  | inner cowid hash hashes child ih =>
    obtain ⟨n, owned, v, -⟩ := H.inner_inv
    constructor
    · rintro ⟨b, m, hreach, hm, rfl⟩
      rcases Relation.ReflTransGen.cases_head hreach with rfl | ⟨b', hchild, hrest⟩
      · rw [v.cell] at hm
        cases hm
      · obtain ⟨branch, hb⟩ := v.isChild_iff.mp hchild
        exact ⟨branch, (ih branch (v.holds_child hb)).mp ⟨b, m, hrest, hm, rfl⟩⟩
    · rintro ⟨branch, hx⟩
      have hslot := v.slot branch
      rcases hs : n.branches branch with _ | ⟨_, _ | y⟩
      · rw [hs] at hslot
        simp [hslot.1, Tree.shape] at hx
      · rw [hs] at hslot
        simp [hslot.1, Tree.shape] at hx
      · have hb : n.getChild branch = some y := by simp [InnerNode.getChild, hs]
        obtain ⟨b, m, hrest, hm, hitem⟩ := (ih branch (v.holds_child hb)).mpr hx
        exact ⟨b, m, .head (v.isChild_iff.mpr ⟨branch, hb⟩) hrest, hm, hitem⟩

/-- Every node reached from a canonical subtree heads a canonical subtree. -/
theorem Holds.canon_of_reach {d : ℕ} (H : Holds h c a t S) (hcanon : Canon itemDigits d t.shape)
    (hreach : Relation.ReflTransGen (IsChild h) a b) :
    ∃ t' S' d', Holds h c b t' S' ∧ Canon itemDigits d' t'.shape := by
  induction hreach with
  | refl => exact ⟨t, S, d, H, hcanon⟩
  | tail _ hchild ih =>
    obtain ⟨t', S', d', H', hcanon'⟩ := ih
    obtain ⟨k, branch, hk, hb⟩ := hchild
    rcases H'.cell_cases with ⟨n, cell, rfl⟩ | ⟨n, child, cell, rfl⟩
    · rw [hk] at cell
      cases cell
    · rw [hk] at cell
      cases cell
      obtain ⟨n, owned, v, -⟩ := H'.inner_inv
      obtain rfl : n = k := by
        have := v.cell.symm.trans hk
        simpa using this
      obtain ⟨s, -⟩ := canon_inner.mp hcanon'
      exact ⟨child branch, owned branch, d' + 1, v.holds_child hb, s.canon branch⟩

/-- Below a root with canonical children, every inner node has two leaves below it. -/
theorem Holds.two_below {cowid : ℕ} {hash : Uint256} {hashes : Fin 16 → Uint256}
    (H : Holds h c a (.inner cowid hash hashes child) S)
    (hsort : Sorted itemDigits 0 fun b => (child b).shape)
    (hreach : Relation.TransGen (IsChild h) a b) (hn : h[b]? = some (.inner n)) :
    ∃ x y, StoredBelow h b x ∧ StoredBelow h b y ∧ x.key ≠ y.key := by
  obtain ⟨root, owned, v, -⟩ := H.inner_inv
  obtain ⟨b', hchild, hrest⟩ := Relation.TransGen.head'_iff.mp hreach
  obtain ⟨branch, hb⟩ := v.isChild_iff.mp hchild
  obtain ⟨t', S', d', H', hcanon⟩ :=
    (v.holds_child hb).canon_of_reach (hsort.canon branch) hrest
  rcases H'.cell_cases with ⟨k, cell, rfl⟩ | ⟨k, child', cell, rfl⟩
  · rw [hn] at cell
    cases cell
  · obtain ⟨-, x, y, hx, hy, hne⟩ := canon_inner.mp hcanon
    exact ⟨x, y, H'.storedBelow_iff.mpr hx, H'.storedBelow_iff.mpr hy,
      mt itemDigits_eq_iff.mpr hne⟩

/-- Sharing a tree keeps its items where they are. -/
theorem Tree.shape_share (sha : Sha512Half) (t : Tree) :
    (t.share sha).shape = t.shape := by
  induction t with
  | empty => rfl
  | stub => rfl
  | leaf n =>
    unfold Tree.share
    split <;> rfl
  | inner cowid hash hashes child ih =>
    unfold Tree.share
    split
    · rfl
    · simp only [Tree.shape, ih]

/-- The step of a run on a single handle. -/
def treeStep (sha : Sha512Half) (s : Heap × MutableTree) (op : TreeOp) :
    Except Fault ((Heap × MutableTree) × Outcome) :=
  s.2.apply sha s.1 op

/-- The two handles stand for the same nodes: the same shape, items, types and hashes. -/
def SameNodes (h : Heap) (T : MutableTree) (h' : Heap) (T' : MutableTree) : Prop :=
  ∃ t S S', Holds h T.cowid T.root t S ∧ Holds h' T'.cowid T'.root t S'

variable {sha : Sha512Half} {ty : LeafType} {m : ItemMap}

theorem models_new (sha : Sha512Half) (ty : LeafType) (h : Heap) (c : ℕ)
    (hc : c ≠ 0) : ∃ t S,
      Holds (MutableTree.new h c hc).1 c (MutableTree.new h c hc).2.root t S ∧
        Models sha c ty t fun _ => none := by
  refine ⟨_, _, (HoldsInner.vacant (get_alloc_self h _)).holds, ⟨⟨_, _, _, rfl, ?_⟩, ?_⟩⟩
  · exact Tree.carriesInner_new.congr fun x => by simp
  · intro key x hx
    cases hx

theorem Models.run : ∀ {ops : List MapOp} {h : Heap} {T : MutableTree} {t : Tree} {S : Set Addr}
    {m : ItemMap}, (∀ op ∈ ops, op.Sized) → Holds h T.cowid T.root t S →
    Models sha T.cowid ty t m →
    ∃ h' T' t' S', runOps (treeStep sha) (h, T) (ops.map (MapOp.treeOp ty)) =
        .ok ((h', T'), (MapOp.run m ops).2) ∧ T'.cowid = T.cowid ∧
      Holds h' T'.cowid T'.root t' S' ∧
      Models sha T'.cowid ty t' (MapOp.run m ops).1 := by
  intro ops
  induction ops with
  | nil =>
    intro h T t S m _ H M
    exact ⟨h, T, t, S, rfl, rfl, H, M⟩
  | cons op ops ih =>
    intro h T t S m hops H M
    obtain ⟨t₁, hstep, M₁⟩ := M.apply (hops op (by simp))
    have hfollow := apply_follows sha H (op.treeOp ty) (by cases op <;> trivial)
    rw [hstep] at hfollow
    obtain ⟨h₁, T₁, S₁, happly, hc, H₁, -⟩ := hfollow
    rw [← hc] at H₁ M₁
    obtain ⟨h₂, T₂, t₂, S₂, hrest, hc₂, H₂, M₂⟩ :=
      ih (fun op hop => hops op (by simp [hop])) H₁ M₁
    refine ⟨h₂, T₂, t₂, S₂, ?_, hc₂.trans hc, H₂, M₂⟩
    simp only [List.map_cons, runOps, treeStep, happly, bind, Except.bind] at hrest ⊢
    simp only [hrest, MapOp.run]

/-- The nodes of a hashed tree depend on its map alone. -/
theorem Models.share_eq {c' : ℕ} (M : Models sha c ty t m)
    (M' : Models sha c' ty t' m) (hc : c ≠ 0) (hc' : c' ≠ 0) :
    t.share sha = t'.share sha := by
  obtain ⟨hash, hashes, child, rfl, r⟩ := M.root
  obtain ⟨hash', hashes', child', rfl, r'⟩ := M'.root
  refine r.fresh.share_eq r'.fresh hc hc' ?_
  have hchild := r.sorted.ext r'.sorted fun x => by rw [r.mem x, r'.mem x]
  simp only [Tree.shape, hchild]

theorem run_unshare (sha : Sha512Half) (ty : LeafType) (h₀ : Heap) (c : ℕ)
    (hc : c ≠ 0) (ops : List MapOp) (sized : ∀ op ∈ ops, op.Sized) :
    ∃ h T t S h' T' S' count,
      runOps (treeStep sha) (MutableTree.new h₀ c hc) (ops.map (MapOp.treeOp ty)) =
        .ok ((h, T), (MapOp.run (fun _ => none) ops).2) ∧
      T.unshare sha h = .ok (h', T', count) ∧ Holds h T.cowid T.root t S ∧
      Models sha T.cowid ty t (MapOp.build ops) ∧
      Holds h' T'.cowid T'.root (t.share sha) S' := by
  obtain ⟨t₀, S₀, H₀, M₀⟩ := models_new sha ty h₀ c hc
  obtain ⟨h, T, t, S, hops, -, H, M⟩ := M₀.run (T := (MutableTree.new h₀ c hc).2) sized H₀
  obtain ⟨h', T', S', hshare, hc', H', -⟩ := walkSubtree_follows sha none (by simp) H
  exact ⟨h, T, t, S, h', T', S', _, hops, hshare, H, M, by rwa [hc']⟩

/-- Every run of calls on a new tree answers as the map does and reaches exactly the
items of the map. Hashing then leads to the canonical trie of the map: no inner node
below the root has fewer than two leaves below it, and the nodes and the root hash are
those of any other run with the same map. -/
theorem mutableTree_history_independent (sha : Sha512Half) (ty : LeafType)
    (h₀ : Heap) (c : ℕ) (hc : c ≠ 0) (ops : List MapOp) (sized : ∀ op ∈ ops, op.Sized) :
    ∃ h T h' T' count,
      runOps (treeStep sha) (MutableTree.new h₀ c hc) (ops.map (MapOp.treeOp ty)) =
        .ok ((h, T), (MapOp.run (fun _ => none) ops).2) ∧
      (∀ x, StoredBelow h T.root x ↔ MapOp.build ops x.key = some x) ∧
      (∀ key, (findKey h T.root key).map (Option.map LeafNode.item) =
        .ok (MapOp.build ops key)) ∧
      T.unshare sha h = .ok (h', T', count) ∧
      (∀ x, StoredBelow h' T'.root x ↔ MapOp.build ops x.key = some x) ∧
      (∀ a n, Relation.TransGen (IsChild h') T'.root a → h'[a]? = some (.inner n) →
        ∃ x y, StoredBelow h' a x ∧ StoredBelow h' a y ∧ x.key ≠ y.key) ∧
      ∀ (h₁ : Heap) (c₁ : ℕ) (hc₁ : c₁ ≠ 0) (ops₁ : List MapOp), (∀ op ∈ ops₁, op.Sized) →
        MapOp.build ops₁ = MapOp.build ops → ∀ h₂ T₂ outs₂ h₂' T₂' count₂,
          runOps (treeStep sha) (MutableTree.new h₁ c₁ hc₁)
            (ops₁.map (MapOp.treeOp ty)) = .ok ((h₂, T₂), outs₂) →
          T₂.unshare sha h₂ = .ok (h₂', T₂', count₂) →
            SameNodes h' T' h₂' T₂' ∧
            (readNode h' T'.root).map TreeNode.hash =
              (readNode h₂' T₂'.root).map TreeNode.hash := by
  obtain ⟨h, T, t, S, h', T', S', count, hops, hshare, H, M, H'⟩ :=
    run_unshare sha ty h₀ c hc ops sized
  obtain ⟨hash, hashes, child, ht, r⟩ := M.root
  have hitems : ∀ x, Mem x t.shape ↔ MapOp.build ops x.key = some x := by
    intro x
    rw [ht]
    exact r.mem x
  refine ⟨h, T, h', T', count, hops, ?_, ?_, hshare, ?_, ?_, ?_⟩
  · intro x
    rw [H.storedBelow_iff, hitems x]
  · intro key
    rw [findKey_eq H key, M.find key]
  · intro x
    rw [H'.storedBelow_iff, Tree.shape_share, hitems x]
  · intro a n hreach hn
    have hshape := Tree.shape_share sha t
    rw [ht] at hshape H'
    cases hs : (Tree.inner T.cowid hash hashes child).share sha with
    | empty => simp [hs, Tree.shape] at hshape
    | stub => simp [hs, Tree.shape] at hshape
    | leaf k => simp [hs, Tree.shape] at hshape
    | inner cowid' hash' hashes' child' =>
      rw [hs] at hshape H'
      refine H'.two_below ?_ hreach hn
      rw [Trie.inner.inj hshape]
      exact r.sorted
  · intro h₁ c₁ hc₁ ops₁ sized₁ hmap h₂ T₂ outs₂ h₂' T₂' count₂ hrun₂ hshare₂
    obtain ⟨g, U, u, R, g', U', R', count', gops, gshare, G, N, G'⟩ :=
      run_unshare sha ty h₁ c₁ hc₁ ops₁ sized₁
    rw [gops] at hrun₂
    cases hrun₂
    rw [gshare] at hshare₂
    cases hshare₂
    rw [hmap] at N
    rw [← M.share_eq N T.cowid_ne T₂.cowid_ne] at G'
    refine ⟨⟨_, S', R', H', G'⟩, ?_⟩
    obtain ⟨k, cell, -, hk⟩ := H'.cell_eq
    obtain ⟨k', cell', -, hk'⟩ := G'.cell_eq
    rw [readNode_of_cell cell, readNode_of_cell cell']
    simp only [Except.map, hk, hk']

def sampleOps : List MapOp :=
  [.add (firstItem 16), .add (firstItem 32), .delete (firstItem 16).key]

/-- Of two items that are added and one that is deleted one is left. -/
theorem mutableTree_history_independent_add_delete :
    (∀ op ∈ sampleOps, op.Sized) ∧
    ∃ h T, runOps (treeStep checksum) (MutableTree.new [] 1 one_ne_zero)
        (sampleOps.map (MapOp.treeOp .accountState)) =
        .ok ((h, T), [.answer true, .answer true, .answer true]) ∧
      (findKey h T.root (firstItem 16).key).map (Option.map LeafNode.item) = .ok none ∧
      (findKey h T.root (firstItem 32).key).map (Option.map LeafNode.item) =
        .ok (some (firstItem 32)) := by
  have hsized : ∀ op ∈ sampleOps, op.Sized := by
    simp [sampleOps, MapOp.Sized, minItemBytes, SHAMapItem.size, firstItem, itemOf]
  obtain ⟨h, T, h', T', count, hrun, -, hfind, -⟩ :=
    mutableTree_history_independent checksum .accountState [] 1 one_ne_zero _ hsized
  exact ⟨hsized, h, T, hrun, hfind _, hfind _⟩

end Quaxar.SHAMap
