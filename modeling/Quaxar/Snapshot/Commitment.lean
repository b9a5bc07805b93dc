import Quaxar.Snapshot.Rebuild
import Quaxar.SHAMap.ProofPath

/-!
# What a root hash stands for

A mutable tree that is hashed after any calls stands for the typed trie of the map that the calls
build. So its root hash, its proof paths and its comparisons with other trees are about that map.
-/

namespace Quaxar.Snapshot

open RadixTrie SHAMap

variable {sha : Sha512Half} {c d : ℕ} {ty : LeafType} {t : Tree} {m : ItemMap}
  {T : Trie (Fin 16) SHAMapItem} {e : LeafEntry}

theorem mem_typed : Mem e (typed ty T) ↔ e.leafType = ty ∧ Mem e.item T := by
  induction T with
  | empty => simp [typed]
  | leaf item => simp [typed, LeafEntry.ext_iff]
  | inner child ih => simp [typed, Mem, ih]

theorem sorted_typed {child : Fin 16 → Trie (Fin 16) SHAMapItem} (s : Sorted itemDigits d child)
    (hcanon : ∀ b, Canon entryDigits (d + 1) (typed ty (child b))) :
    Sorted entryDigits d fun b => typed ty (child b) :=
  ⟨hcanon, fun b e he => s.placed b e.item (mem_typed.mp he).2⟩

theorem canon_typed (h : Canon itemDigits d T) : Canon entryDigits d (typed ty T) := by
  induction T generalizing d with
  | empty => trivial
  | leaf item => trivial
  | inner child ih =>
    obtain ⟨s, x, y, hx, hy, hne⟩ := canon_inner.mp h
    have hmem : ∀ x, Mem x (.inner child) → Mem ⟨ty, x⟩ (typed ty (.inner child)) :=
      fun x hx => mem_typed.mpr ⟨rfl, hx⟩
    exact canon_inner.mpr ⟨sorted_typed s fun b => ih b (s.canon b), _, _, hmem x hx, hmem y hy,
      hne⟩

theorem stands_share (h : Tree.Fresh sha c ty t) (hc : c ≠ 0) (src : NodeSource) :
    Stands sha src (t.share sha) (typed ty t.shape) := by
  induction h with
  | empty => exact .empty
  | leaf item size =>
    simp only [Tree.share, if_neg hc]
    exact .leaf rfl
  | @inner hash hashes child vacant below ih =>
    have hself := share_hash (Tree.Fresh.inner hash vacant below) hc
    simp only [Tree.share, if_neg hc] at hself ⊢
    refine .inner hself (fun b => ?_) (fun b => Or.inl ⟨?_, rfl⟩) ih
    · exact congrFun (slot_hash vacant below fun b => share_hash (below b) hc) b
    · intro hstub
      have hbelow := ih b
      rw [hstub] at hbelow
      cases hbelow

/-- A transaction without metadata is stored under its hash. -/
def HashKeyed (sha : Sha512Half) (ty : LeafType) (m : ItemMap) : Prop :=
  ty = .transactionNm → ∀ x, m x.key = some x → x.key = computeLeafHash sha ty x

/-- The canonical trie of a map, with leaves of one type. -/
structure TrieOf (ty : LeafType) (m : ItemMap) (A : MerkleTrie) : Prop where
  sorted : ∃ kids, A = .inner kids ∧ Sorted entryDigits 0 kids
  mem : ∀ e, Mem e A ↔ e.leafType = ty ∧ m e.item.key = some e.item

namespace TrieOf

variable {A B : MerkleTrie}

theorem eq (h : TrieOf ty m A) (h' : TrieOf ty m B) : A = B := by
  obtain ⟨kids, rfl, s⟩ := h.sorted
  obtain ⟨kids', rfl, s'⟩ := h'.sorted
  rw [s.ext s' fun e => by rw [h.mem, h'.mem]]

theorem itemAt_eq (h : TrieOf ty m A) (keyed : ∀ key x, m key = some x → x.key = key) :
    itemAt A = m := by
  obtain ⟨kids, rfl, s⟩ := h.sorted
  refine SHAMap.itemAt_eq s keyed fun x => ?_
  constructor
  · rintro ⟨e, he, rfl⟩
    exact ((h.mem e).mp he).2
  · exact fun hx => ⟨⟨ty, x⟩, (h.mem _).mpr ⟨rfl, hx⟩, rfl⟩

theorem keyed (h : TrieOf ty m A) (hkeyed : HashKeyed sha ty m) : Keyed sha A := by
  intro e he hty
  obtain ⟨rfl, hitem⟩ := (h.mem e).mp he
  exact hkeyed hty e.item hitem

theorem of_models (M : Models sha c ty t m) : TrieOf ty m (typed ty t.shape) := by
  obtain ⟨hash, hashes, child, rfl, r⟩ := M.root
  refine ⟨⟨_, rfl, sorted_typed r.sorted fun b => canon_typed (r.sorted.canon b)⟩, fun e => ?_⟩
  rw [mem_typed]
  exact and_congr_right fun _ => r.mem e.item

theorem of_flat {es : List LeafEntry}
    (hes : ∀ e ∈ es, flatLeaf es (keyNibble e.item.key 0) = some e)
    (hty : ∀ e ∈ es, e.leafType = ty) :
    TrieOf ty (itemIn (es.map LeafEntry.item)) (.inner (flatKids es)) := by
  refine ⟨⟨_, rfl, sorted_flat⟩, fun e => ?_⟩
  rw [mem_flat hes, itemIn_flat hes]
  constructor
  · exact fun he => ⟨hty e he, e, he, rfl⟩
  · rintro ⟨rfl, e', he', hitem⟩
    rwa [← LeafEntry.ext (hty e' he') hitem]

end TrieOf

theorem stands_of_models (M : Models sha c ty t m) (hc : c ≠ 0) :
    Stands sha .unbacked (t.share sha) (typed ty t.shape) := by
  obtain ⟨hash, hashes, child, rfl, r⟩ := M.root
  exact stands_share r.fresh hc _

variable (sha ty) (h₀ h₀' : Heap) (c c' : ℕ) (ops ops' : List {op : MapOp // op.Sized})

/-- The tree in memory after the calls on a new tree, hashed. -/
def Hashes (t : Tree) : Prop :=
  ∃ h T outs h' T' count S,
    runOps (treeStep sha) (MutableTree.new h₀ (c + 1) c.succ_ne_zero)
      (ops.unattach.map (MapOp.treeOp ty)) = .ok ((h, T), outs) ∧
    T.unshare sha h = .ok (h', T', count) ∧ Holds h' T'.cowid T'.root t S

/-- The map that the calls build. -/
abbrev built : ItemMap := MapOp.build ops.unattach

theorem exists_hashes : ∃ t owner, Hashes sha ty h₀ c ops (t.share sha) ∧
    owner ≠ 0 ∧ Models sha owner ty t (built ops) := by
  obtain ⟨h, T, t, S, h', T', S', count, hops, hshare, -, M, H'⟩ :=
    run_unshare sha ty h₀ (c + 1) c.succ_ne_zero ops.unattach
      fun op hop => (List.mem_unattach.mp hop).1
  exact ⟨t, T.cowid, ⟨h, T, _, h', T', count, S', hops, hshare, H'⟩, T.cowid_ne, M⟩

variable {A B : MerkleTrie}

/-- If SHA-512Half has no collision among the nodes of the tries of two maps, comparing the trees
after runs that build them comes upon each key at which the maps differ once, with the two items
there. The root hashes are the same if and only if the maps are. -/
theorem compare_runs (hA : TrieOf ty (built ops) A) (hB : TrieOf ty (built ops') B)
    (cf : CollisionFree sha (nodeEncodings sha A ∪ nodeEncodings sha B))
    (hkeyed : HashKeyed sha ty (built ops)) (hkeyed' : HashKeyed sha ty (built ops')) :
    ∃ t t', Hashes sha ty h₀ c ops t ∧ Hashes sha ty h₀' c' ops' t' ∧
      (∃ L N, Exact (built ops) (built ops') L ∧
        ∀ fuel ≥ N, ∀ Δ limit, compare sha fuel t t' .unbacked .unbacked Δ limit =
          .ok (emit L ⟨Δ, limit⟩)) ∧
      (t.hash = t'.hash ↔ built ops = built ops') := by
  obtain ⟨t, owner, H, howner, M⟩ := exists_hashes sha ty h₀ c ops
  obtain ⟨t', owner', H', howner', M'⟩ := exists_hashes sha ty h₀' c' ops'
  have hstands := stands_of_models M howner
  have hstands' := stands_of_models M' howner'
  rw [(TrieOf.of_models M).eq hA] at hstands
  rw [(TrieOf.of_models M').eq hB] at hstands'
  obtain ⟨L, N, hexact, hcompare⟩ := compare_emit ⟨.clean hstands, hA.sorted⟩
    ⟨.clean hstands', hB.sorted⟩ cf (hA.keyed hkeyed) (hB.keyed hkeyed')
  rw [hA.itemAt_eq M.keyed, hB.itemAt_eq M'.keyed] at hexact
  refine ⟨_, _, H, H', ⟨L, N, hexact, hcompare⟩, fun hhash => ?_, fun heq => ?_⟩
  · -- the comparison stops at equal hashes, so there is no difference to come upon
    have hnone := hcompare N le_rfl ∅ 1
    unfold SHAMap.compare at hnone
    rw [if_pos (by rw [hstands.ensure.hash_eq_merkle, hstands'.ensure.hash_eq_merkle,
      ← hstands.hash_eq_merkle, hhash, hstands'.hash_eq_merkle])] at hnone
    cases L with
    | nil =>
      funext key
      by_contra hne
      exact List.not_mem_nil ((hexact.mem ⟨key, _, _⟩).mpr ⟨rfl, rfl, hne⟩)
    | cons δ L => simp [emit, recordDifference] at hnone
  · rw [heq] at M
    rw [M.share_eq M' howner howner']

def opKey : MapOp → Uint256
  | .add item => item.key
  | .update item => item.key
  | .delete key => key

/-- A key that no call names keeps its item. -/
theorem run_of_ne {key : Uint256} (ops : List MapOp) :
    ∀ m, key ∉ ops.map opKey → (MapOp.run m ops).1 key = m key := by
  induction ops with
  | nil => exact fun _ _ => rfl
  | cons op ops ih =>
    intro m hkey
    rw [List.map_cons, List.mem_cons, not_or] at hkey
    rw [MapOp.run, ih _ hkey.2]
    cases op <;> simp only [MapOp.apply] <;> split_ifs <;> simp_all [opKey]

/-- The keys that are named tell the map. -/
theorem build_eq_itemIn {ops : List MapOp} {items : List SHAMapItem}
    (h : ∀ key ∈ ops.map opKey ++ items.map SHAMapItem.key,
      MapOp.build ops key = itemIn items key) : MapOp.build ops = itemIn items := by
  funext key
  by_cases hkey : key ∈ ops.map opKey ++ items.map SHAMapItem.key
  · exact h key hkey
  · rw [List.mem_append, not_or] at hkey
    rw [itemIn_eq_none.mpr hkey.2]
    exact run_of_ne ops _ hkey.1

def addSample (first byte : UInt8) : {op : MapOp // op.Sized} :=
  ⟨.add (sampleEntry .accountState first byte).item, Nat.le_refl 12⟩

def leftRun : List {op : MapOp // op.Sized} := [addSample 16 0, addSample 32 0]

def rightRun : List {op : MapOp // op.Sized} :=
  [addSample 16 1, addSample 64 0, addSample 48 0, addSample 32 0,
    ⟨.delete (sampleEntry .accountState 64 0).item.key, trivial⟩]

theorem built_leftRun : built leftRun = itemIn (leftEntries.map LeafEntry.item) :=
  build_eq_itemIn (by decide)

theorem built_rightRun : built rightRun = itemIn (rightEntries.map LeafEntry.item) :=
  build_eq_itemIn (by decide)

/-- The runs build maps that differ in one item and one key. -/
theorem compare_runs_left_right :
    ∃ t t', Hashes checksum .accountState [] 0 leftRun t ∧
      Hashes checksum .accountState [] 0 rightRun t' ∧ t.hash ≠ t'.hash ∧
      ∃ L N, Exact (built leftRun) (built rightRun) L ∧
        ∀ fuel ≥ N, compare checksum fuel t t' .unbacked .unbacked ∅ 5 = .ok (emit L ⟨∅, 5⟩) := by
  have hleft : TrieOf .accountState (built leftRun) (.inner (flatKids leftEntries)) := by
    rw [built_leftRun]
    exact .of_flat (by decide) (by decide)
  have hright : TrieOf .accountState (built rightRun) (.inner (flatKids rightEntries)) := by
    rw [built_rightRun]
    exact .of_flat (by decide) (by decide)
  obtain ⟨t, t', H, H', ⟨L, N, hexact, hcompare⟩, hhash⟩ := compare_runs checksum .accountState
    [] [] 0 0 leftRun rightRun hleft hright (collisionFree_flat (by decide +kernel)) nofun nofun
  refine ⟨t, t', H, H', fun heq => ?_, L, N, hexact, fun fuel hfuel => hcompare fuel hfuel ∅ 5⟩
  have hsame := congrFun (hhash.mp heq) (sampleEntry .accountState 48 0).item.key
  rw [built_leftRun, built_rightRun] at hsame
  revert hsame
  decide

/-- After every run the proof path of a key of the map is accepted against the root hash, and a path
that is accepted, if SHA-512Half has no collision among its nodes and those of the tree, is one of a
key of the map. -/
theorem proofPath_runs (hA : TrieOf ty (built ops) A)
    (hwire : ∀ x, built ops x.key = some x → WireKeyed sha ⟨ty, x⟩)
    (hzero : ∀ x ∈ nodeEncodings sha A, sha x ≠ BaseUInt.zero) :
    ∃ t, Hashes sha ty h₀ c ops t ∧
      (∀ key, (built ops key).isSome = true → ∃ path,
        getProofPath t key = .ok (some path) ∧
        verifyProofPath sha t.hash key path = .ok true) ∧
      ∀ key path, CollisionFree sha (nodeEncodings sha A ∪ pathEncodings sha path) →
        verifyProofPath sha t.hash key path = .ok true →
        (built ops key).isSome = true := by
  obtain ⟨t, owner, H, howner, M⟩ := exists_hashes sha ty h₀ c ops
  have hstands := stands_of_models M howner
  rw [(TrieOf.of_models M).eq hA] at hstands
  have h : HashedTree sha .unbacked (t.share sha) A := by
    refine ⟨hstands, hA.sorted, fun e he => ?_⟩
    obtain ⟨rfl, hitem⟩ := (hA.mem e).mp he
    exact hwire e.item hitem
  refine ⟨_, H, ?_⟩
  rw [hstands.hash_eq_merkle]
  constructor
  · intro key hkey
    obtain ⟨x, hx⟩ := Option.isSome_iff_exists.mp hkey
    obtain rfl := M.keyed key x hx
    obtain ⟨path, hget, hverify⟩ :=
      (h.proves hzero ((hA.mem ⟨ty, x⟩).mpr ⟨rfl, hx⟩)).getProofPath_verifies
    exact ⟨path, by simp [getProofPath, hget], hverify⟩
  · intro key path cf hverify
    unfold verifyProofPath at hverify
    split_ifs at hverify
    · simp at hverify
    · obtain ⟨e, he, rfl⟩ := verifyLoop_sound cf (by simp [pathEncodings]) Set.subset_union_left
        h.keyed hverify
      simp [((hA.mem e).mp he).2]

/-- The path of the tree with the same items is accepted, for keys of the map only. -/
theorem proofPath_runs_left :
    ∃ t, Hashes checksum .accountState [] 0 leftRun t ∧
      (∃ path, getProofPath t sampleLeaf.key = .ok (some path) ∧
        verifyProofPath checksum t.hash sampleLeaf.key path = .ok true) ∧
      ∀ key, verifyProofPath checksum t.hash key samplePath = .ok true →
        (built leftRun key).isSome = true := by
  have hleft : TrieOf .accountState (built leftRun) (.inner (flatKids leftEntries)) := by
    rw [built_leftRun]
    exact .of_flat (by decide) (by decide)
  have cf : CollisionFree checksum (nodeEncodings checksum (.inner (flatKids leftEntries)) ∪
      pathEncodings checksum samplePath) :=
    collisionFree_of_list (Set.union_subset nodeEncodings_flat pathEncodings_sample)
      (by decide +kernel)
  obtain ⟨t, H, complete, sound⟩ := proofPath_runs checksum .accountState [] 0 leftRun hleft
    (fun x hx => hashedTree_sample.wireKeyed ⟨_, x⟩ ((hleft.mem _).mpr ⟨rfl, hx⟩))
    fun x hx => cf.ne_zero x (.inl hx)
  refine ⟨t, H, complete _ ?_, fun key => sound key _ cf⟩
  rw [built_leftRun]
  decide

end Quaxar.Snapshot
