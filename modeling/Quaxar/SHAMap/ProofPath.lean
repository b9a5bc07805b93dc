import Quaxar.SHAMap.CompareExact
import Quaxar.SHAMap.Wire

/-!
# Proof paths

`get_proof_path` returns the wire forms of the nodes from a leaf up to the root, and
`verify_proof_path` checks such a list against a root hash. A path that was read off a
canonical tree is accepted, and if SHA-512Half has no collision then an accepted path
shows that the tree has a leaf with the key. A path that leads to a leaf of more than
16 MiB makes the check panic.
-/

namespace Quaxar.SHAMap

open RadixTrie

/-- An inner node without its children, which its wire form does not show. -/
def wireInner (cowid : ℕ) (hash : Uint256) (hashes : Fin 16 → Uint256) (child : Fin 16 → Tree) :
    InnerNode :=
  ⟨cowid, hash, fun b => if (child b).isEmpty then none else some ⟨hashes b, none⟩⟩

/-- `walk_towards_key_impl` over nodes that may have to be fetched, with the visited
nodes. The depth of the identifier bounds the walk. -/
def NodeSource.walkTowardsKeyImpl (src : NodeSource) (key : Uint256) :
    ℕ → Tree → SHAMapNodeId → Except Fault (Option LeafNode × List TreeNode)
  | 0, _, _ => .error .panic
  | _ + 1, .empty, _ => .error .panic
  | _ + 1, .stub, _ => .error .panic
  | _ + 1, .leaf n, _ => .ok (some n, [.leaf n])
  | fuel + 1, .inner cowid hash hashes child, id =>
    let branch := selectBranch id key
    if (child branch).isEmpty then .ok (none, [.inner (wireInner cowid hash hashes child)])
    else do
      let next ← src.descendExpect hashes child branch
      match id.getChildNodeId branch with
      | .error _ => .error .panic
      | .ok childId => do
        let walked ← src.walkTowardsKeyImpl key fuel next childId
        .ok (walked.1, .inner (wireInner cowid hash hashes child) :: walked.2)

def NodeSource.walkTowardsKeyWithPath (src : NodeSource) (root : Tree) (key : Uint256) :
    Except Fault (Option LeafNode × List TreeNode) :=
  src.walkTowardsKeyImpl key (leafDepth + 1) root SHAMapNodeId.root

/-- The blobs of a path, from its end; a node that cannot be serialized spoils it. -/
def finalizeProofPath (key : Uint256) (leaf : Option LeafNode) (path : List TreeNode) :
    Option (List Blob) :=
  match leaf with
  | none => none
  | some n =>
    if n.item.key ≠ key then none
    else path.reverse.mapM fun node => node.serializeForWire.toOption

def getProofPathBacked (src : NodeSource) (root : Tree) (key : Uint256) :
    Except Fault (Option (List Blob)) := do
  let walked ← src.walkTowardsKeyWithPath root key
  .ok (finalizeProofPath key walked.1 walked.2)

/-- `get_proof_path` hides the error of a missing node. -/
def getProofPath (root : Tree) (key : Uint256) : Except Fault (Option (List Blob)) :=
  match getProofPathBacked .unbacked root key with
  | .error (.err _) => .ok none
  | found => found

variable (sha : Sha512Half)

/-- The loop of `verify_proof_path` over a path of `len` nodes, from the root. -/
def verifyLoop (key : Uint256) (len : ℕ) : ℕ → Uint256 → List Blob → Except CodecFault Bool
  | _, _, [] => .ok false
  | depth, hash, blob :: rest =>
    match makeFromWire sha blob with
    | .error .panic => .error .panic
    | .error (.err _) => .ok false
    | .ok none => .ok false
    | .ok (some node) =>
      if (node.updateHash sha).hash ≠ hash then .ok false
      else
        match node with
        | .inner n =>
          -- only a leaf can be at depth 64
          if leafDepth ≤ depth then .ok false
          else
            match SHAMapNodeId.createId depth key with
            | .error _ => .ok false
            | .ok nodeId =>
              verifyLoop key len (depth + 1) (n.getChildHash (selectBranch nodeId key)) rest
        | .leaf n => .ok (n.item.key = key && depth + 1 = len)

def verifyProofPath (rootHash key : Uint256) (path : List Blob) : Except CodecFault Bool :=
  if path.isEmpty ∨ leafDepth + 1 < path.length then .ok false
  else verifyLoop sha key path.length 0 rootHash path.reverse

variable {path : List Blob} {sha : Sha512Half} {key hash : Uint256} {len d : ℕ} {blob : Blob}
  {rest : List Blob}

theorem verifyLoop_leaf {n : LeafNode} (h : makeFromWire sha blob = .ok (some (.leaf n))) :
    verifyLoop sha key len d hash (blob :: rest) =
      .ok (decide (computeLeafHash sha n.leafType n.item = hash ∧ n.item.key = key ∧
        d + 1 = len)) := by
  unfold verifyLoop
  simp only [h, TreeNode.updateHash, TreeNode.hash]
  by_cases hhash : computeLeafHash sha n.leafType n.item = hash
  · simp [hhash]
  · simp [hhash]

theorem verifyLoop_inner {n : InnerNode}
    (h : makeFromWire sha blob = .ok (some (.inner n))) :
    verifyLoop sha key len d hash (blob :: rest) =
      if computeInnerHash sha n.isEmpty n.getChildHash = hash ∧ d < leafDepth then
        verifyLoop sha key len (d + 1) (n.getChildHash (keyNibble key d)) rest
      else .ok false := by
  rw [verifyLoop]
  simp only [h, TreeNode.updateHash, TreeNode.hash]
  by_cases hhash : computeInnerHash sha n.isEmpty n.getChildHash = hash
  · by_cases hd : d < leafDepth
    · obtain ⟨id, hid, hdepth⟩ := SHAMapNodeId.createId_of_le hd.le key
      simp [hhash, hd, Nat.not_le.mpr hd, hid, selectBranch, hdepth]
    · simp [hhash, hd, Nat.not_lt.mp hd]
  · simp [hhash]

variable (sha) in
/-- From the hash of a node at depth `d` the blobs lead down to a leaf that is too large: those
above it are inner nodes, each with the hash that the one before has for the key. -/
inductive ReachesOversized (key : Uint256) : ℕ → Uint256 → List Blob → Prop
  | here {d : ℕ} {hash : Uint256} {blob : Blob} {rest : List Blob} :
      Oversized blob → ReachesOversized key d hash (blob :: rest)
  | step {d : ℕ} {blob : Blob} {rest : List Blob} {n : InnerNode} :
      makeFromWire sha blob = .ok (some (.inner n)) → d < leafDepth →
      ReachesOversized key (d + 1) (n.getChildHash (keyNibble key d)) rest →
      ReachesOversized key d (computeInnerHash sha n.isEmpty n.getChildHash) (blob :: rest)

theorem reachesOversized_cons_iff : ReachesOversized sha key d hash (blob :: rest) ↔
    Oversized blob ∨ ∃ n, makeFromWire sha blob = .ok (some (.inner n)) ∧
      (computeInnerHash sha n.isEmpty n.getChildHash = hash ∧ d < leafDepth) ∧
      ReachesOversized sha key (d + 1) (n.getChildHash (keyNibble key d)) rest := by
  constructor
  · rintro (hbig | ⟨hmade, hd, hrest⟩)
    · exact .inl hbig
    · exact .inr ⟨_, hmade, ⟨rfl, hd⟩, hrest⟩
  · rintro (hbig | ⟨n, hmade, ⟨rfl, hd⟩, hrest⟩)
    · exact .here hbig
    · exact .step hmade hd hrest

/-- The loop panics if it gets to a leaf that is too large, and returns otherwise. -/
theorem verifyLoop_reaches : ∀ d hash,
    (ReachesOversized sha key d hash path → verifyLoop sha key len d hash path = .error .panic) ∧
      (¬ReachesOversized sha key d hash path →
        ∃ accepted, verifyLoop sha key len d hash path = .ok accepted) := by
  induction path with
  | nil =>
    intro d hash
    exact ⟨nofun, fun _ => ⟨false, rfl⟩⟩
  | cons blob rest ih =>
    intro d hash
    rw [reachesOversized_cons_iff, ← @makeFromWire_panic_iff sha]
    rcases hmade : makeFromWire sha blob with (_ | e) | _ | n | n
    · simp [verifyLoop, hmade]
    · simp [verifyLoop, hmade]
    · simp [verifyLoop, hmade]
    · rw [verifyLoop_inner hmade]
      split_ifs with hstep
      · simpa [hstep] using ih (d + 1) _
      · simp [hstep]
    · simp [verifyLoop_leaf hmade]

/-- `verify_proof_path` panics on a path of at most 65 nodes that leads to a leaf that is too
large, and only there. -/
theorem verifyProofPath_reaches {rootHash : Uint256} :
    (path.length ≤ leafDepth + 1 → ReachesOversized sha key 0 rootHash path.reverse →
      verifyProofPath sha rootHash key path = .error .panic) ∧
    (¬(path.length ≤ leafDepth + 1 ∧ ReachesOversized sha key 0 rootHash path.reverse) →
      ∃ accepted, verifyProofPath sha rootHash key path = .ok accepted) := by
  obtain ⟨hpanic, hreturn⟩ :=
    @verifyLoop_reaches path.reverse sha key path.length 0 rootHash
  unfold verifyProofPath
  split_ifs with hlen
  · refine ⟨fun hle hreach => ?_, fun _ => ⟨false, rfl⟩⟩
    rcases hlen with hnil | hlong
    · rw [List.isEmpty_iff.mp hnil] at hreach
      cases hreach
    · omega
  · rw [not_or, Nat.not_lt] at hlen
    exact ⟨fun _ => hpanic, fun hno => hreturn fun hreach => hno ⟨hlen.2, hreach⟩⟩

variable {e : LeafEntry} (sha : Sha512Half)

/-- The byte strings that are hashed for a decoded node. -/
def TreeNode.encodings : TreeNode → Set (List UInt8)
  | .inner n => {x | n.isEmpty = false ∧ x = serializeInnerWithPrefix n.getChildHash}
  | .leaf n => {n.leafType.serializeWithPrefix n.item}

/-- The byte strings that are hashed while a path is verified. -/
def pathEncodings (path : List Blob) : Set (List UInt8) :=
  {x | ∃ blob ∈ path, ∃ node, makeFromWire sha blob = .ok (some node) ∧ x ∈ node.encodings}

variable {sha} {E : Set (List UInt8)} {U : MerkleTrie}

/-- A trie whose hash is that of a leaf is that leaf. -/
theorem CollisionFree.eq_leaf (cf : CollisionFree sha E)
    (hU : nodeEncodings sha U ⊆ E) (he : e.leafType.serializeWithPrefix e.item ∈ E)
    (kU : Keyed sha U) (ke : Keyed sha (.leaf e))
    (h : computeLeafHash sha e.leafType e.item = merkleHash sha U) : U = .leaf e := by
  have hE : nodeEncodings sha (.leaf e) ⊆ E := by
    rintro x rfl
    exact he
  cases U with
  | empty => exact absurd h (cf.ne_zero _ he)
  | leaf x => rw [cf.leaf_eq hU hE kU ke h.symm]
  | inner kids =>
    by_cases hall : ∀ b, kids b = .empty
    · rw [merkleHash_inner_of_empty hall] at h
      exact absurd h (cf.ne_zero _ he)
    · obtain ⟨b, hb⟩ := not_forall.mp hall
      rw [merkleHash_inner_of_ne hb] at h
      exact absurd (cf.injOn he (hU (mem_nodeEncodings_inner hb)) h)
        (serializeWithPrefix_ne_inner _ _ _)

/-- If a decoded inner node has the hash of a trie, its branch `b` has the hash of the
trie that lies there. -/
theorem CollisionFree.exists_below (cf : CollisionFree sha E) {n : InnerNode}
    (hU : nodeEncodings sha U ⊆ E) (hn : (TreeNode.inner n).encodings ⊆ E)
    (kU : Keyed sha U)
    (h : computeInnerHash sha n.isEmpty n.getChildHash = merkleHash sha U)
    (b : Fin 16) : ∃ V : MerkleTrie, n.getChildHash b = merkleHash sha V ∧
      nodeEncodings sha V ⊆ E ∧ Keyed sha V ∧ ∀ e, Mem e V → Mem e U := by
  have hvacant : n.isEmpty = true → ∃ V : MerkleTrie, n.getChildHash b = merkleHash sha V ∧
      nodeEncodings sha V ⊆ E ∧ Keyed sha V ∧ ∀ e, Mem e V → Mem e U := by
    intro hempty
    have hbranch : n.isEmptyBranch b = true := by
      simp only [InnerNode.isEmpty, List.all_eq_true, List.mem_finRange, forall_const] at hempty
      exact hempty b
    refine ⟨.empty, InnerNode.getChildHash_of_isEmptyBranch hbranch, ?_, ?_, ?_⟩
    · exact Set.empty_subset _
    · intro e he
      exact he.elim
    · intro e he
      exact he.elim
  by_cases hempty : n.isEmpty = true
  · exact hvacant hempty
  · have hmem := hn ⟨Bool.eq_false_iff.mpr hempty, rfl⟩
    simp only [computeInnerHash, hempty, Bool.false_eq_true, if_false] at h
    cases U with
    | empty => exact absurd h (cf.ne_zero _ hmem)
    | leaf e => exact absurd (cf.injOn hmem (hU rfl) h).symm (serializeWithPrefix_ne_inner _ _ _)
    | inner kids =>
      by_cases hall : ∀ b, kids b = .empty
      · rw [merkleHash_inner_of_empty hall] at h
        exact absurd h (cf.ne_zero _ hmem)
      · obtain ⟨b', hb'⟩ := not_forall.mp hall
        rw [merkleHash_inner_of_ne hb'] at h
        have henc := serializeInnerWithPrefix_inj
          (cf.injOn hmem (hU (mem_nodeEncodings_inner hb')) h)
        exact ⟨kids b, congrFun henc b, (nodeEncodings_child b).trans hU, kU.child b,
          fun e he => ⟨b, he⟩⟩

/-- A path that is accepted below the hash of a trie ends at a leaf of that trie. -/
theorem verifyLoop_sound (cf : CollisionFree sha E)
    (hpath : pathEncodings sha path ⊆ E) :
    ∀ {d : ℕ} {U : MerkleTrie}, nodeEncodings sha U ⊆ E → Keyed sha U →
      verifyLoop sha key len d (merkleHash sha U) path = .ok true →
      ∃ e, Mem e U ∧ e.item.key = key := by
  induction path with
  | nil =>
    intro d U _ _ h
    simp [verifyLoop] at h
  | cons blob rest ih =>
    intro d U hU kU h
    have hrest : pathEncodings sha rest ⊆ E := by
      rintro x ⟨b, hb, hx⟩
      exact hpath ⟨b, List.mem_cons_of_mem _ hb, hx⟩
    rcases hmade : makeFromWire sha blob with fault | node
    · unfold verifyLoop at h
      cases fault <;> simp [hmade] at h
    · rcases node with _ | n | n
      · unfold verifyLoop at h
        simp [hmade] at h
      · rw [verifyLoop_inner hmade] at h
        split_ifs at h with hstep
        · have hn : (TreeNode.inner n).encodings ⊆ E := fun x hx =>
            hpath ⟨blob, List.mem_cons_self, _, hmade, hx⟩
          obtain ⟨V, hhash, hV, kV, hsub⟩ := cf.exists_below hU hn kU hstep.1 (keyNibble key d)
          rw [hhash] at h
          obtain ⟨e, he, hkey⟩ := ih hrest hV kV h
          exact ⟨e, hsub e he, hkey⟩
        · simp at h
      · rw [verifyLoop_leaf hmade] at h
        obtain ⟨hhash, hkey, -⟩ := of_decide_eq_true (Except.ok.inj h)
        have hn : n.leafType.serializeWithPrefix n.item ∈ E :=
          hpath ⟨blob, List.mem_cons_self, _, hmade, rfl⟩
        have hkeyed : Keyed sha (.leaf ⟨n.leafType, n.item⟩) := by
          rcases makeFromWire_cases hmade with ⟨ty, item, hleaf, hwire⟩ | ⟨_, _, hinner⟩
          · obtain rfl := TreeNode.leaf.inj hleaf
            rintro e rfl
            exact hwire.key_eq
          · cases hinner
        refine ⟨⟨n.leafType, n.item⟩, ?_, hkey⟩
        rw [cf.eq_leaf (e := ⟨n.leafType, n.item⟩) hU hn kU hkeyed hhash]
        exact mem_leaf.mpr rfl

variable {src : NodeSource}

/-- The key of a leaf is the one that its wire form determines. -/
def WireKeyed (sha : Sha512Half) (e : LeafEntry) : Prop :=
  ∃ n, makeFromWire sha (serializeLeafForWire e.leafType e.item) = .ok (some (.leaf n)) ∧
    n.item.key = e.item.key

/-- Such a leaf comes back from the wire. -/
theorem WireKeyed.makeFromWire_eq (h : WireKeyed sha e) :
    makeFromWire sha (serializeLeafForWire e.leafType e.item) =
      .ok (some (makeLeaf sha e.leafType e.item)) ∧
    (e.leafType = .transactionNm →
      e.item.key = computeLeafHash sha e.leafType e.item) := by
  obtain ⟨n, hmade, hkey⟩ := h
  rcases makeFromWire_cases hmade with ⟨ty, item, hleaf, hwire⟩ | ⟨_, _, hinner⟩
  · obtain rfl := TreeNode.leaf.inj hleaf
    obtain ⟨hty, hdata⟩ := serializeLeafForWire_inj hwire.raw_eq
    have hitem : item = e.item := SHAMapItem.ext hkey hdata.symm
    subst hty hitem
    exact ⟨hmade, hwire.key_eq⟩
  · cases hinner

/-- From the node at `t` the walk towards the key reaches its leaf, and the nodes on the
way, as they are on the wire, are accepted below the hash of the trie. -/
def Proves (sha : Sha512Half) (src : NodeSource) (key : Uint256) (d fuel : ℕ)
    (t : Tree) (id : SHAMapNodeId) (U : MerkleTrie) : Prop :=
  ∃ n path blobs, src.walkTowardsKeyImpl key fuel t id = .ok (some n, path) ∧ n.item.key = key ∧
    path.map (fun node => node.serializeForWire.toOption) = blobs.map some ∧
    0 < blobs.length ∧ d + blobs.length ≤ leafDepth + 1 ∧
    verifyLoop sha key (d + blobs.length) d (merkleHash sha U) blobs = .ok true

variable {id : SHAMapNodeId} {fuel : ℕ}

theorem proves_leaf {n : LeafNode} (hd : d ≤ leafDepth)
    (hwire : WireKeyed sha ⟨n.leafType, n.item⟩) (hkey : n.item.key = key) :
    Proves sha src key d (fuel + 1) (.leaf n) id (.leaf ⟨n.leafType, n.item⟩) := by
  refine ⟨n, [.leaf n], [serializeLeafForWire n.leafType n.item], rfl, hkey, rfl, by simp,
    by simpa using hd, ?_⟩
  rw [verifyLoop_leaf hwire.makeFromWire_eq.1]
  simp [hkey, merkleHash]

variable {kids : Fin 16 → MerkleTrie} {hashes : Fin 16 → Uint256} {child node : Fin 16 → Tree}

namespace StandsInner

variable (v : StandsInner sha src hashes child node kids)

include v

theorem getChildHash_eq (cowid : ℕ) (hash : Uint256) :
    (wireInner cowid hash hashes child).getChildHash =
      fun b => merkleHash sha (kids b) := by
  funext b
  by_cases hb : (child b).isEmpty = true
  · simp [InnerNode.getChildHash, wireInner, hb, (v.isEmpty_iff b).mp hb, merkleHash]
  · simp [InnerNode.getChildHash, wireInner, hb, v.hashes_eq b]

/-- The wire form of an inner node is accepted, and hands over to the child. -/
theorem verifyLoop_eq (cowid : ℕ) (hash key : Uint256) {b : Fin 16} (hb : kids b ≠ .empty)
    (hzero : merkleHash sha (kids b) ≠ .zero) :
    ∃ blob, serializeInnerForWire (wireInner cowid hash hashes child) = .ok blob ∧
      ∀ {len d : ℕ} {rest : List Blob}, d < leafDepth →
        verifyLoop sha key len d (merkleHash sha (.inner kids)) (blob :: rest) =
          verifyLoop sha key len (d + 1) (merkleHash sha (kids (keyNibble key d)))
            rest := by
  have hbranch : (wireInner cowid hash hashes child).isEmpty = false := by
    have hchild : (child b).isEmpty = false := by
      rw [Bool.eq_false_iff, Ne, v.isEmpty_iff]
      exact hb
    simp only [InnerNode.isEmpty, List.all_eq_false, List.mem_finRange, true_and]
    exact ⟨b, by simp [InnerNode.isEmptyBranch, wireInner, hchild]⟩
  obtain ⟨blob, hblob⟩ : ∃ blob,
      serializeInnerForWire (wireInner cowid hash hashes child) = .ok blob := by
    unfold serializeInnerForWire
    rw [if_neg (by simp [hbranch])]
    split_ifs
    · exact ⟨_, rfl⟩
    · exact ⟨_, rfl⟩
  refine ⟨blob, hblob, fun {len d rest} hd => ?_⟩
  have hmade := makeFromWire_serializeInner sha hblob
  rw [v.getChildHash_eq] at hmade
  obtain ⟨n, hn, hget, hempty⟩ :=
    exists_ofHashes sha fun b => merkleHash sha (kids b)
  rw [hn] at hmade
  have hnotall : n.isEmpty = false := by
    rw [InnerNode.isEmpty, hempty, List.all_eq_false]
    exact ⟨b, List.mem_finRange b, by simpa using hzero⟩
  rw [verifyLoop_inner hmade, hnotall, hget, merkleHash_inner_of_ne hb]
  simp [computeInnerHash, hd]

theorem proves {cowid : ℕ} (hd : d < leafDepth) (hid : id.depth = d)
    (hb : kids (keyNibble key d) ≠ .empty)
    (hzero : merkleHash sha (kids (keyNibble key d)) ≠ .zero)
    (below : ∀ childId : SHAMapNodeId, childId.depth = d + 1 → Proves sha src key (d + 1)
      fuel (node (keyNibble key d)) childId (kids (keyNibble key d))) :
    Proves sha src key d (fuel + 1) (.inner cowid hash hashes child) id (.inner kids) := by
  obtain ⟨childId, hchild, hdepth⟩ := id.getChildNodeId_of_lt (keyNibble key d) (by rwa [hid])
  obtain ⟨n, path, blobs, hwalk, hkey, hblobs, hpos, hlen, hverify⟩ :=
    below childId (by rw [hdepth, hid])
  obtain ⟨blob, hblob, hstep⟩ := v.verifyLoop_eq cowid hash key hb hzero
  have hne : (child (keyNibble key d)).isEmpty = false := by
    rw [Bool.eq_false_iff, Ne, v.isEmpty_iff]
    exact hb
  refine ⟨n, .inner (wireInner cowid hash hashes child) :: path, blob :: blobs, ?_, hkey, ?_, ?_,
    ?_, ?_⟩
  · simp [NodeSource.walkTowardsKeyImpl, selectBranch, hid, hne, v.descendExpect_eq hb, hchild,
      hwalk]
  · have hser : (TreeNode.inner (wireInner cowid hash hashes child)).serializeForWire.toOption =
        some blob := by
      rw [TreeNode.serializeForWire, hblob]
      rfl
    rw [List.map_cons, List.map_cons, hblobs, hser]
  · simp
  · simp only [List.length_cons]
    omega
  · rw [hstep hd, List.length_cons, ← Nat.add_assoc, Nat.add_right_comm]
    exact hverify

end StandsInner

/-- Below every node of a canonical trie the walk reaches the leaf with the key. -/
theorem Stands.proves (hkey : e.item.key = key) :
    ∀ {t : Tree} {d fuel : ℕ} {id : SHAMapNodeId}, Stands sha src t U →
      Canon entryDigits d U → Prefixed entryDigits (keyNibble key) d U →
      (∀ x ∈ nodeEncodings sha U, sha x ≠ .zero) →
      (∀ e, Mem e U → WireKeyed sha e) → Mem e U → d ≤ leafDepth → id.depth = d →
      leafDepth < d + fuel → Proves sha src key d fuel t id U := by
  induction U with
  | empty =>
    intro t d fuel id _ _ _ _ _ he
    exact he.elim
  | leaf x =>
    intro t d fuel id ht _ _ _ hwire he hd _ hfuel
    obtain rfl := mem_leaf.mp he
    obtain ⟨n, rfl, hty, hitem⟩ := ht.leaf_inv
    obtain ⟨fuel, rfl⟩ : ∃ k, fuel = k + 1 := ⟨fuel - 1, by omega⟩
    have hentry : e = ⟨n.leafType, n.item⟩ := LeafEntry.ext hty.symm hitem.symm
    rw [hentry]
    exact proves_leaf hd (hentry ▸ hwire e rfl) (by rw [hitem, hkey])
  | inner kids ih =>
    intro t d fuel id ht hcanon hplaced hzero hwire he _ hid hfuel
    obtain ⟨s, htwo⟩ := canon_inner.mp hcanon
    obtain ⟨cowid, hash, hashes, child, node, rfl, v⟩ := ht.inner_inv
    have hdigits : ∀ a b : LeafEntry, (∀ i < leafDepth, entryDigits a i = entryDigits b i) →
        entryDigits a = entryDigits b := fun a b h =>
      entryDigits_eq_iff.mpr (eq_of_keyNibble_eq h)
    have hd : d < leafDepth := htwo.depth_lt hdigits hplaced
    have hmem : Mem e (kids (keyNibble key d)) :=
      s.mem_child.mpr ⟨he, by rw [entryDigits, hkey]⟩
    have hne : kids (keyNibble key d) ≠ .empty := by
      intro hempty
      rw [hempty] at hmem
      exact hmem
    have hzero' : ∀ x ∈ nodeEncodings sha (kids (keyNibble key d)),
        sha x ≠ BaseUInt.zero := fun x hx => hzero x (nodeEncodings_child _ hx)
    obtain ⟨fuel, rfl⟩ : ∃ k, fuel = k + 1 := ⟨fuel - 1, by omega⟩
    refine v.proves hd hid hne (merkleHash_ne_zero hzero' (s.canon _) hne) fun childId hchild => ?_
    exact ih _ (v.below _) (s.canon _) (hplaced.child s) hzero'
      (fun x hx => hwire x ⟨_, hx⟩) hmem hd hchild (by omega)

theorem mapM_eq_some {β γ : Type} {f : β → Option γ} :
    ∀ {l : List β} {r : List γ}, l.map f = r.map some → l.mapM f = some r := by
  intro l
  induction l with
  | nil =>
    intro r h
    cases r with
    | nil => rfl
    | cons y r => cases h
  | cons x l ih =>
    intro r h
    cases r with
    | nil => cases h
    | cons y r =>
      obtain ⟨hx, hl⟩ := List.cons.inj h
      rw [List.mapM_cons, hx, ih hl]
      rfl

theorem Proves.getProofPath_verifies {t : Tree} {T : MerkleTrie}
    (h : Proves sha src key 0 (leafDepth + 1) t SHAMapNodeId.root T) :
    ∃ path, getProofPathBacked src t key = .ok (some path) ∧
      verifyProofPath sha (merkleHash sha T) key path = .ok true := by
  obtain ⟨n, path, blobs, hwalk, hkey, hblobs, hpos, hlen, hverify⟩ := h
  have hmapM : path.reverse.mapM (fun node => node.serializeForWire.toOption) =
      some blobs.reverse := by
    apply mapM_eq_some
    rw [List.map_reverse, hblobs, List.map_reverse]
  refine ⟨blobs.reverse, ?_, ?_⟩
  · simp only [getProofPathBacked, NodeSource.walkTowardsKeyWithPath, hwalk, Except.ok_bind,
      finalizeProofPath, hkey, ne_eq, not_true, if_false, hmapM]
  · rw [Nat.zero_add] at hlen hverify
    unfold verifyProofPath
    rw [if_neg, List.length_reverse, List.reverse_reverse]
    · exact hverify
    · rw [List.length_reverse, not_or, Nat.not_lt]
      refine ⟨?_, hlen⟩
      simpa [List.length_pos_iff] using hpos

/-- A canonical tree whose hashes are up to date and whose leaves can be sent. -/
structure HashedTree (sha : Sha512Half) (src : NodeSource) (t : Tree)
    (T : MerkleTrie) : Prop where
  stands : Stands sha src t T
  sorted : ∃ kids, T = .inner kids ∧ Sorted entryDigits 0 kids
  wireKeyed : ∀ e, Mem e T → WireKeyed sha e

variable {t : Tree} {T : MerkleTrie}

theorem HashedTree.keyed (h : HashedTree sha src t T) : Keyed sha T :=
  fun e he => (h.wireKeyed e he).makeFromWire_eq.2

/-- The walk from the root. The root of a canonical tree may have fewer than two leaves
below it, so it takes a step of its own. -/
theorem HashedTree.proves (h : HashedTree sha src t T)
    (hzero : ∀ x ∈ nodeEncodings sha T, sha x ≠ .zero) (he : Mem e T) :
    Proves sha src e.item.key 0 (leafDepth + 1) t SHAMapNodeId.root T := by
  obtain ⟨kids, rfl, s⟩ := h.sorted
  obtain ⟨cowid, hash, hashes, child, node, rfl, v⟩ := h.stands.inner_inv
  have hmem : Mem e (kids (keyNibble e.item.key 0)) := s.mem_child.mpr ⟨he, rfl⟩
  have hne : kids (keyNibble e.item.key 0) ≠ .empty := by
    intro hempty
    rw [hempty] at hmem
    exact hmem
  have hzero' : ∀ x ∈ nodeEncodings sha (kids (keyNibble e.item.key 0)),
      sha x ≠ BaseUInt.zero := fun x hx => hzero x (nodeEncodings_child _ hx)
  have hplaced : Prefixed entryDigits (keyNibble e.item.key) 0 (.inner kids) :=
    fun _ _ i hi => absurd hi (Nat.not_lt_zero i)
  refine v.proves (by decide) rfl hne (merkleHash_ne_zero hzero' (s.canon _) hne)
    fun childId hchild => ?_
  exact (v.below _).proves rfl (s.canon _) (hplaced.child s) hzero'
    (fun x hx => h.wireKeyed x ⟨_, hx⟩) hmem (by decide) hchild (by omega)

/-- Proof paths are complete and sound. The path of a key that is in the tree is
accepted; an accepted path is one of a key in the tree, if SHA-512Half has no collision
among the nodes of the tree and of the path; and the check returns on every path but those
that lead to a leaf that is too large, on which it panics. -/
theorem proofPath_complete_sound (h : HashedTree sha src t T)
    (hzero : ∀ x ∈ nodeEncodings sha T, sha x ≠ .zero) :
    (∀ key, (∃ e, Mem e T ∧ e.item.key = key) → ∃ path,
      getProofPathBacked src t key = .ok (some path) ∧
      (src = .unbacked → getProofPath t key = .ok (some path)) ∧
      verifyProofPath sha t.hash key path = .ok true) ∧
    (∀ key path, CollisionFree sha
        (nodeEncodings sha T ∪ pathEncodings sha path) →
      verifyProofPath sha t.hash key path = .ok true → ∃ e, Mem e T ∧ e.item.key = key) ∧
    ∀ rootHash key path,
      (path.length ≤ leafDepth + 1 → ReachesOversized sha key 0 rootHash path.reverse →
        verifyProofPath sha rootHash key path = .error .panic) ∧
      (¬(path.length ≤ leafDepth + 1 ∧ ReachesOversized sha key 0 rootHash path.reverse) →
        ∃ accepted, verifyProofPath sha rootHash key path = .ok accepted) := by
  rw [h.stands.hash_eq_merkle]
  refine ⟨?_, ?_, fun rootHash key path => verifyProofPath_reaches⟩
  · rintro key ⟨e, he, rfl⟩
    obtain ⟨path, hget, hverify⟩ := (h.proves hzero he).getProofPath_verifies
    refine ⟨path, hget, ?_, hverify⟩
    rintro rfl
    simp [getProofPath, hget]
  · intro key path cf hverify
    unfold verifyProofPath at hverify
    split_ifs at hverify
    · simp at hverify
    · refine verifyLoop_sound cf ?_ Set.subset_union_left h.keyed hverify
      rintro x ⟨blob, hblob, hx⟩
      exact .inr ⟨blob, List.mem_reverse.mp hblob, hx⟩

/-- A tree with two leaves. -/
def sampleTree : Tree := (flatTree checksum leftEntries).ensureLoadedHashes checksum

def sampleLeaf : SHAMapItem := (sampleEntry .accountState 16 0).item

theorem hashedTree_sample :
    HashedTree checksum .unbacked sampleTree (.inner (flatKids leftEntries)) := by
  have hcanon := @canonical_flat checksum .unbacked leftEntries
  refine ⟨hcanon.loads.ensure, hcanon.sorted, fun e he => ?_⟩
  have hmem := mem_of_flat he
  simp only [leftEntries, List.mem_cons, List.not_mem_nil, or_false] at hmem
  rcases hmem with rfl | rfl <;> exact ⟨_, rfl, rfl⟩

def sampleRootHashes (b : Fin 16) : Uint256 := merkleHash checksum (flatKids leftEntries b)

def sampleRootBlob : Blob :=
  ((List.finRange 16).flatMap fun b => if b.val = 1 ∨ b.val = 2 then
    (sampleRootHashes b).data ++ [UInt8.ofNat b] else []) ++ [wireTypeCompressedInner]

/-- The wire forms of a leaf and of the root above it. -/
def samplePath : List Blob := [serializeLeafForWire .accountState sampleLeaf, sampleRootBlob]

theorem makeFromWire_sampleRootBlob :
    makeFromWire checksum sampleRootBlob = .ok (some (ofHashes checksum sampleRootHashes)) := by
  have hget : (wireInner 0 .zero sampleRootHashes
      fun b => if b = 1 ∨ b = 2 then .stub else .empty).getChildHash = sampleRootHashes := by
    funext b
    revert b
    decide +kernel
  rw [← hget]
  exact makeFromWire_serializeInner checksum (by decide +kernel)

/-- Verifying the path hashes what is hashed for the tree. -/
theorem pathEncodings_sample :
    pathEncodings checksum samplePath ⊆ {x | x ∈ flatEncodings checksum leftEntries} := by
  rintro x ⟨blob, hblob, node, hmade, hx⟩
  simp only [samplePath, List.mem_cons, List.not_mem_nil, or_false] at hblob
  rcases hblob with rfl | rfl
  · have hleaf : makeFromWire checksum (serializeLeafForWire .accountState sampleLeaf) =
        .ok (some (makeLeaf checksum .accountState sampleLeaf)) := rfl
    rw [hleaf] at hmade
    obtain rfl := Option.some.inj (Except.ok.inj hmade)
    exact .tail _ (hx ▸ .head _)
  · obtain ⟨n, hn, hget, -⟩ := exists_ofHashes checksum sampleRootHashes
    rw [makeFromWire_sampleRootBlob, hn] at hmade
    obtain rfl := Option.some.inj (Except.ok.inj hmade)
    obtain ⟨-, rfl⟩ := hx
    rw [hget]
    exact .head _

/-- The path of a leaf of the tree is accepted, and shows that the leaf is there. -/
theorem proofPath_complete_sound_sample :
    CollisionFree checksum (nodeEncodings checksum (.inner (flatKids leftEntries)) ∪
      pathEncodings checksum samplePath) ∧
    getProofPath sampleTree sampleLeaf.key = .ok (some samplePath) ∧
    verifyProofPath checksum sampleTree.hash sampleLeaf.key samplePath = .ok true ∧
    ∃ e, Mem e (.inner (flatKids leftEntries)) ∧ e.item.key = sampleLeaf.key := by
  have cf : CollisionFree checksum (nodeEncodings checksum (.inner (flatKids leftEntries)) ∪
      pathEncodings checksum samplePath) :=
    collisionFree_of_list (Set.union_subset nodeEncodings_flat pathEncodings_sample)
      (by decide +kernel)
  have hsample : getProofPath sampleTree sampleLeaf.key = .ok (some samplePath) := by
    decide +kernel
  obtain ⟨complete, sound, -⟩ := proofPath_complete_sound hashedTree_sample
    fun x hx => cf.ne_zero x (.inl hx)
  obtain ⟨path, -, hget, hverify⟩ := complete sampleLeaf.key
    ⟨sampleEntry .accountState 16 0, (mem_flat (by decide)).mpr (by decide), rfl⟩
  obtain rfl := Option.some.inj (Except.ok.inj ((hget rfl).symm.trans hsample))
  exact ⟨cf, hsample, hverify, sound _ _ cf hverify⟩

/-- A leaf that is larger than any item makes the check panic. -/
theorem verifyProofPath_panics :
    verifyProofPath checksum .zero .zero
      [List.replicate (maxItemBytes + 1) 0 ++ [wireTypeTransaction]] = .error .panic := by
  have hlen : maxItemBytes < (List.replicate (maxItemBytes + 1) (0 : UInt8)).length := by
    rw [List.length_replicate]
    exact Nat.lt_succ_self _
  exact verifyProofPath_reaches.1 (by simp) (.here ⟨_, _, rfl, .inl ⟨rfl, hlen⟩⟩)

end Quaxar.SHAMap
