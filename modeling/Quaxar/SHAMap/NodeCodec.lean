import Quaxar.Lib.BigEndian
import Quaxar.SHAMap.Wire

/-!
# Decoded nodes

`make_from_prefix` reads what `serialize_with_prefix` wrote, and is told the hash of the node.
What either decoder returns has the content of the encoded node. A compressed inner node can
name a branch more than once, and the decoder keeps the last hash but any mark, so that a
branch can be marked without a hash.
-/

namespace Quaxar.SHAMap

variable (sha : Sha512Half)

def TreeNode.serializeWithPrefix : TreeNode → Except SHAMapCodecError Blob
  | .inner n =>
    if n.isEmpty then .error .emptyInnerNodeSerialization
    else .ok (serializeInnerWithPrefix n.getChildHash)
  | .leaf n => .ok (n.leafType.serializeWithPrefix n.item)

/-- A known hash stands in the node instead of the computed one. -/
def TreeNode.withHash (hash : Uint256) : TreeNode → TreeNode
  | .inner n => .inner { n with hash }
  | .leaf n => .leaf { n with hash }

/-- The node that the prefix `p` announces. -/
def makeFromPrefixType (p : UInt32) (data : Blob) : Except CodecFault TreeNode :=
  if p = LeafType.transactionNm.hashPrefix then makeTransactionNode sha data
  else if p = LeafType.accountState.hashPrefix then makeAccountStateNode sha data
  else if p = hashPrefixInnerNode then makeFullInner sha data
  else if p = LeafType.transactionMd.hashPrefix then makeTransactionWithMetaNode sha data
  else .error (.err (.unknownPrefixType p))

def makeFromPrefix (raw : Blob) (hash : Uint256) : Except CodecFault TreeNode :=
  if raw.length < 4 then .error (.err .shortPrefixNode)
  else do
    let node ← makeFromPrefixType sha
      (UInt32.ofNat (BigEndian.ofBytes (raw.take 4))) (raw.drop 4)
    .ok (node.withHash hash)

theorem makeFromPrefix_append {p : UInt32} (hp : UInt32.ofNat (BigEndian.ofBytes (toBeBytes p)) = p)
    (data : Blob) (hash : Uint256) :
    makeFromPrefix sha (toBeBytes p ++ data) hash =
      (do let node ← makeFromPrefixType sha p data; .ok (node.withHash hash)) := by
  have hlen : ¬(toBeBytes p ++ data).length < 4 := by simp [toBeBytes]
  have htake : (toBeBytes p ++ data).take 4 = toBeBytes p := rfl
  have hdrop : (toBeBytes p ++ data).drop 4 = data := rfl
  rw [makeFromPrefix, if_neg hlen, htake, hdrop, hp]

/-- What the formats ask of a leaf. -/
structure LeafNode.Encodable (n : LeafNode) : Prop where
  size : minItemBytes ≤ n.item.size
  key_ne : n.leafType = .accountState → n.item.key ≠ .zero
  key_eq : n.leafType = .transactionNm →
    n.item.key = computeLeafHash sha n.leafType n.item

def TreeNode.Encodable : TreeNode → Prop
  | .inner n => n.isEmpty = false
  | .leaf n => n.Encodable sha

/-- The decoder of each type of leaf. -/
def makeLeafNode : LeafType → Blob → Except CodecFault TreeNode
  | .transactionNm => makeTransactionNode sha
  | .transactionMd => makeTransactionWithMetaNode sha
  | .accountState => makeAccountStateNode sha

/-- The same type, and the same hashes of children or the same item. -/
def SameContent : TreeNode → TreeNode → Prop
  | .inner m, .inner n => m.getChildHash = n.getChildHash
  | .leaf m, .leaf n => m.leafType = n.leafType ∧ m.item = n.item
  | _, _ => False

def TreeNode.isEmptyBranch : TreeNode → Fin 16 → Bool
  | .inner n => n.isEmptyBranch
  | .leaf _ => fun _ => true

/-- Exactly the branches with a hash are marked. -/
def InnerNode.WellMarked (n : InnerNode) : Prop :=
  ∀ b, n.isEmptyBranch b = false ↔ n.getChildHash b ≠ .zero

def TreeNode.WellMarked : TreeNode → Prop
  | .inner n => n.WellMarked
  | .leaf _ => True

/-- An inner node has none when all its children were set since its last `update_hash_deep`. -/
def TreeNode.HasHash : TreeNode → Prop
  | .inner n => ∃ b, n.getChildHash b ≠ .zero
  | .leaf _ => True

variable {sha} {n : LeafNode}

theorem SHAMapItem.new_self (item : SHAMapItem) :
    new item.key item.data = .ok item := by
  rw [new, dif_pos item.size_le]

theorem validateLeafPayload_eq (h : n.Encodable sha) (ty : LeafType) :
    validateLeafPayload ty n.item.data = .ok () :=
  if_neg (not_lt.mpr h.size)

/-- The payload and the key, cut apart again. -/
theorem cut_key (item : SHAMapItem) :
    let data := item.data ++ item.key.data
    ¬data.length < 32 ∧ data.take (data.length - 32) = item.data ∧
      unwrap (BaseUInt.fromSlice (data.drop (data.length - 32))) = .ok item.key := by
  have hlen : (item.data ++ item.key.data).length - 32 = item.data.length := by simp
  refine ⟨by simp, ?_, ?_⟩
  · rw [hlen, List.take_left]
  · rw [hlen, List.drop_left, BaseUInt.fromSlice_data]
    rfl

theorem makeLeafNode_eq (h : n.Encodable sha) :
    makeLeafNode sha n.leafType
        (n.item.data ++ if n.leafType ≠ .transactionNm then n.item.key.data else []) =
      .ok (makeLeaf sha n.leafType n.item) := by
  obtain ⟨hlen, htake, hkey⟩ := cut_key n.item
  cases hty : n.leafType with
  | transactionNm =>
    have hkey : sha (toBeBytes LeafType.transactionNm.hashPrefix ++ n.item.data) =
        n.item.key := by
      rw [h.key_eq hty, hty]
      simp [computeLeafHash, LeafType.serializeWithPrefix]
    rw [makeLeafNode, if_neg (by simp), List.append_nil, makeTransactionNode,
      validateLeafPayload_eq h, hkey, SHAMapItem.new_self]
    rfl
  | transactionMd =>
    rw [makeLeafNode, if_pos (by simp), makeTransactionWithMetaNode, if_neg hlen, htake,
      validateLeafPayload_eq h, hkey]
    simp only [Except.ok_bind, SHAMapItem.new_self]
  | accountState =>
    rw [makeLeafNode, if_pos (by simp), makeAccountStateNode, if_neg hlen, htake,
      validateLeafPayload_eq h, hkey]
    simp [SHAMapItem.new_self, h.key_ne hty]

theorem makeFromWire_leaf (h : n.Encodable sha) :
    makeFromWire sha (serializeLeafForWire n.leafType n.item) =
      .ok (some (makeLeaf sha n.leafType n.item)) := by
  have hmake : ∀ ty data, makeFromWireType sha (LeafType.wireType ty) data =
      makeLeafNode sha ty data := by
    intro ty data
    cases ty <;> rfl
  rw [serializeLeafForWire, makeFromWire_concat, hmake, makeLeafNode_eq h]
  rfl

theorem makeFromPrefix_leaf (h : n.Encodable sha) (hash : Uint256) :
    makeFromPrefix sha (n.leafType.serializeWithPrefix n.item) hash =
      .ok (.leaf ⟨n.leafType, n.item, 0, hash⟩) := by
  have hbytes : ∀ ty : LeafType,
      UInt32.ofNat (BigEndian.ofBytes (toBeBytes ty.hashPrefix)) = ty.hashPrefix := by
    intro ty
    cases ty <;> rfl
  have hmake : ∀ ty data, makeFromPrefixType sha (LeafType.hashPrefix ty) data =
      makeLeafNode sha ty data := by
    intro ty data
    cases ty <;> rfl
  have hbody : n.leafType.serializeWithPrefix n.item = toBeBytes n.leafType.hashPrefix ++
      (n.item.data ++ if n.leafType ≠ .transactionNm then n.item.key.data else []) := by
    unfold LeafType.serializeWithPrefix
    cases n.leafType <;> simp
  rw [hbody, makeFromPrefix_append sha (hbytes _), hmake, makeLeafNode_eq h]
  rfl

/-- The node that the hashes of an inner node give has its branches where it has hashes. -/
theorem exists_decoded (sha : Sha512Half) {n : InnerNode} (hempty : n.isEmpty = false) :
    ∃ m : InnerNode, ofHashes sha n.getChildHash = .inner m ∧ m.getChildHash = n.getChildHash ∧
      (m.isEmptyBranch = n.isEmptyBranch ↔ n.WellMarked) ∧
      ((TreeNode.inner n).HasHash → m.hash = ((TreeNode.inner n).updateHash sha).hash) ∧
      (¬(TreeNode.inner n).HasHash → m.hash = .zero) := by
  obtain ⟨m, hm, hhashes, hnone⟩ := exists_ofHashes sha n.getChildHash
  have hhash : m.hash = computeInnerHash sha m.isEmpty n.getChildHash := by
    rw [← hhashes]
    obtain rfl := TreeNode.inner.inj hm
    rfl
  refine ⟨m, hm, hhashes, ?_, ?_, ?_⟩
  · rw [hnone, funext_iff]
    refine forall_congr' fun b => ?_
    rw [Bool.eq_iff_iff, BaseUInt.isZero_iff, ← Bool.not_eq_true, not_iff_not, eq_comm]
    exact iff_comm
  · rintro ⟨b, hb⟩
    have hsome : m.isEmpty = false := by
      rw [InnerNode.isEmpty, hnone, List.all_eq_false]
      exact ⟨b, List.mem_finRange b, fun h => hb (BaseUInt.isZero_iff.mp h)⟩
    rw [hhash, hsome, ← hempty]
    rfl
  · intro hno
    have hall : m.isEmpty = true := by
      rw [InnerNode.isEmpty, hnone, List.all_eq_true]
      exact fun b _ => BaseUInt.isZero_iff.mpr (not_not.mp fun hb => hno ⟨b, hb⟩)
    rw [hhash, hall]
    rfl

/-- Both formats keep the content of a node, and its branches if each has a hash. The prefix
format comes with the hash; from the wire the node gets the one of `update_hash`. -/
theorem nodeCodec_keeps_content (node : TreeNode) (h : node.Encodable sha) :
    (∃ raw m, node.serializeForWire = .ok raw ∧ makeFromWire sha raw = .ok (some m) ∧
      SameContent m node ∧ (m.isEmptyBranch = node.isEmptyBranch ↔ node.WellMarked) ∧
      (node.HasHash → m.hash = (node.updateHash sha).hash) ∧
      (¬node.HasHash → m.hash = .zero)) ∧
    ∃ raw m, node.serializeWithPrefix = .ok raw ∧
      makeFromPrefix sha raw node.hash = .ok m ∧ SameContent m node ∧
      (m.isEmptyBranch = node.isEmptyBranch ↔ node.WellMarked) ∧ m.hash = node.hash := by
  cases node with
  | leaf n =>
    have hmarks : (fun _ : Fin 16 => true) = (fun _ => true) ↔ True := iff_of_true rfl trivial
    exact ⟨⟨_, _, rfl, makeFromWire_leaf h, ⟨rfl, rfl⟩, hmarks, fun _ => rfl,
        fun hno => absurd trivial hno⟩,
      ⟨_, _, rfl, makeFromPrefix_leaf h _, ⟨rfl, rfl⟩, hmarks, rfl⟩⟩
  | inner n =>
    have hempty : n.isEmpty = false := h
    obtain ⟨m, hm, hhashes, hmarks, hhash⟩ := exists_decoded sha hempty
    constructor
    · obtain ⟨raw, hraw⟩ : ∃ raw, serializeInnerForWire n = .ok raw := by
        unfold serializeInnerForWire
        rw [if_neg (by simp [hempty])]
        split_ifs <;> exact ⟨_, rfl⟩
      refine ⟨raw, .inner m, hraw, ?_, hhashes, hmarks, hhash⟩
      rw [makeFromWire_serializeInner sha hraw, hm]
    · refine ⟨_, .inner { m with hash := n.hash }, if_neg (by simp [hempty]), ?_, hhashes,
        hmarks, rfl⟩
      have hmake : makeFromPrefixType sha hashPrefixInnerNode
          ((List.finRange 16).flatMap fun b => (n.getChildHash b).data) = .ok (.inner m) :=
        (makeFullInner_flatMap sha n.getChildHash).trans (congrArg Except.ok hm)
      rw [serializeInnerWithPrefix, makeFromPrefix_append sha rfl, hmake]
      rfl

/-- An inner node with two branches, and with its hash. -/
def sampleInner : TreeNode :=
  .updateHash checksum <| .inner ⟨0, .zero, fun b =>
    if b.val = 2 ∨ b.val = 9 then some ⟨checksum [UInt8.ofNat b], none⟩ else none⟩

theorem nodeCodec_keeps_content_inner :
    sampleInner.Encodable checksum ∧ sampleInner.WellMarked ∧ ∃ raw m,
      sampleInner.serializeForWire = .ok raw ∧ makeFromWire checksum raw = .ok (some m) ∧
      SameContent m sampleInner ∧ m.isEmptyBranch = sampleInner.isEmptyBranch ∧
      m.hash = sampleInner.hash := by
  have h : sampleInner.Encodable checksum := rfl
  have hmarked : sampleInner.WellMarked := by
    intro b
    revert b
    decide +kernel
  have hhash : sampleInner.HasHash := ⟨2, by decide⟩
  obtain ⟨⟨raw, m, hraw, hmake, hsame, hmarks, hm, -⟩, -⟩ := nodeCodec_keeps_content sampleInner h
  exact ⟨h, hmarked, raw, m, hraw, hmake, hsame, hmarks.mpr hmarked, hm hhash⟩

def onesHash : Uint256 := ⟨List.replicate 32 1, rfl⟩

/-- A child was set, and the hash not yet updated. -/
def sampleStale : InnerNode :=
  InnerNode.withChild ⟨1, onesHash, fun b => if b.val = 0 then some ⟨onesHash, none⟩ else none⟩
    (Fin.last 15) (some 0)

theorem nodeCodec_changes_stale_hash :
    sampleStale.isEmpty = false ∧ ∃ raw m, serializeInnerForWire sampleStale = .ok raw ∧
      makeFromWire checksum raw = .ok (some m) ∧ m.hash ≠ sampleStale.hash :=
  ⟨rfl, _, _, rfl, rfl, by decide⟩

section Marked

variable {raw data : Blob} {n : InnerNode} {hashes : Fin 16 → Uint256} {isBranch : Fin 16 → Bool}

theorem makeInner_wellMarked_iff (h : makeInner sha hashes isBranch = .inner n) :
    n.WellMarked ↔ ∀ b, isBranch b = true → hashes b ≠ BaseUInt.zero := by
  rw [makeInner_eq] at h
  obtain rfl := TreeNode.inner.inj h
  refine forall_congr' fun b => ?_
  cases hb : isBranch b <;>
    simp [InnerNode.isEmptyBranch, InnerNode.getChildHash, hb]

/-- The hashes that chunks give to branch `b`, in their order. -/
def chunkHashes (chunks : List Blob) (b : Fin 16) : List Blob :=
  (chunks.filter fun chunk => ((chunk.drop 32).headD 0).toNat = (b : ℕ)).map (·.take 32)

def zeroBytes : Blob := (BaseUInt.zero : Uint256).data

/-- A compressed inner node gives a branch a zero hash at the end only if it gives it no other. -/
def LastHashesCount (raw : Blob) : Prop :=
  raw.getLast? = some wireTypeCompressedInner → ∀ b,
    ∀ hash ∈ chunkHashes (chunksExact 33 raw.dropLast) b, hash ≠ zeroBytes →
      (chunkHashes (chunksExact 33 raw.dropLast) b).getLastD zeroBytes ≠ zeroBytes

variable {slots slots' : Fin 16 → Uint256 × Bool}

theorem storeChunk_inv {chunk : Blob} (h : storeChunk slots chunk = .ok slots') :
    ∃ (b : Fin 16) (hash : Uint256), ((chunk.drop 32).headD 0).toNat = b ∧
      hash.data = chunk.take 32 ∧
      slots' = Function.update slots b (hash, (slots b).2 || !hash.isZero) := by
  simp only [storeChunk] at h
  split_ifs at h with hb
  obtain ⟨hash, hhash, h⟩ := Except.bind_eq_ok_iff.mp h
  refine ⟨⟨_, hb⟩, hash, rfl, ?_, (Except.ok.inj h).symm⟩
  rcases hslice : (BaseUInt.fromSlice (chunk.take 32) : Option Uint256) with _ | x
  · simp [hslice, unwrap] at hhash
  · rw [hslice] at hhash
    obtain rfl := Except.ok.inj hhash
    exact BaseUInt.data_of_fromSlice hslice

/-- The last hash stays, and any hash but zero marks the branch. -/
theorem foldlM_storeChunk_inv {chunks : List Blob}
    (h : chunks.foldlM storeChunk slots = .ok slots') (b : Fin 16) :
    (slots' b).1.data = (chunkHashes chunks b).getLastD (slots b).1.data ∧
      (slots' b).2 = ((slots b).2 || (chunkHashes chunks b).any (· != zeroBytes)) := by
  induction chunks generalizing slots with
  | nil =>
    obtain rfl := Except.ok.inj h
    simp [chunkHashes]
  | cons chunk chunks ih =>
    obtain ⟨slots₁, hstore, hrest⟩ := Except.bind_eq_ok_iff.mp h
    obtain ⟨c, hash, hc, hdata, rfl⟩ := storeChunk_inv hstore
    obtain ⟨hlast, hmark⟩ := ih hrest
    by_cases hbc : b = c
    · subst hbc
      have htake : chunkHashes (chunk :: chunks) b = hash.data :: chunkHashes chunks b := by
        rw [chunkHashes, List.filter_cons, if_pos (decide_eq_true hc), List.map_cons, ← hdata]
        rfl
      have hzero : (!hash.isZero) = (hash.data != zeroBytes) := by
        rw [Bool.eq_iff_iff]
        simp only [Bool.not_eq_true', ← Bool.not_eq_true, BaseUInt.isZero_iff, bne_iff_ne, ne_eq,
          zeroBytes]
        exact not_congr ⟨congrArg _, BaseUInt.ext⟩
      rw [htake, hlast, hmark, Function.update_self, hzero, List.getLastD_cons, List.any_cons,
        Bool.or_assoc]
      exact ⟨rfl, rfl⟩
    · have hne : ((chunk.drop 32).headD 0).toNat ≠ b := fun h => hbc (Fin.ext (h.symm.trans hc))
      have hskip : chunkHashes (chunk :: chunks) b = chunkHashes chunks b := by
        rw [chunkHashes, List.filter_cons, if_neg fun h => hne (of_decide_eq_true h)]
        rfl
      rw [hskip, hlast, hmark, Function.update_of_ne hbc]
      exact ⟨rfl, rfl⟩

theorem makeCompressedInner_wellMarked_iff
    (h : makeCompressedInner sha data = .ok (.inner n)) :
    n.WellMarked ↔ ∀ b, ∀ hash ∈ chunkHashes (chunksExact 33 data) b, hash ≠ zeroBytes →
      (chunkHashes (chunksExact 33 data) b).getLastD zeroBytes ≠ zeroBytes := by
  unfold makeCompressedInner at h
  split_ifs at h
  obtain ⟨slots, hslots, h⟩ := Except.bind_eq_ok_iff.mp h
  rw [makeInner_wellMarked_iff (Except.ok.inj h)]
  refine forall_congr' fun b => ?_
  obtain ⟨hlast, hmark⟩ := foldlM_storeChunk_inv hslots b
  rw [Bool.false_or] at hmark
  have hzero : (slots b).1 ≠ .zero ↔
      (chunkHashes (chunksExact 33 data) b).getLastD zeroBytes ≠ zeroBytes := by
    change _ = (chunkHashes (chunksExact 33 data) b).getLastD zeroBytes at hlast
    rw [← hlast]
    exact not_congr ⟨congrArg _, BaseUInt.ext⟩
  rw [hmark, hzero, List.any_eq_true]
  simp only [bne_iff_ne]
  exact ⟨fun h hash hmem hne => h ⟨hash, hmem, hne⟩, fun h ⟨hash, hmem, hne⟩ => h hash hmem hne⟩

theorem makeFullInner_wellMarked (h : makeFullInner sha data = .ok (.inner n)) :
    n.WellMarked := by
  unfold makeFullInner at h
  split_ifs at h
  obtain ⟨hashes, -, h⟩ := Except.bind_eq_ok_iff.mp h
  rw [makeInner_wellMarked_iff (Except.ok.inj h)]
  intro b hb hzero
  rw [BaseUInt.isZero_iff.mpr hzero] at hb
  cases hb

theorem makeLeafNode_ne_inner (ty : LeafType) :
    makeLeafNode sha ty data ≠ .ok (.inner n) := by
  intro h
  cases ty with
  | transactionNm =>
    obtain ⟨item, hleaf, -⟩ := makeTransactionNode_inv h
    cases hleaf
  | transactionMd =>
    obtain ⟨item, hleaf, -⟩ := makeTransactionWithMetaNode_inv h
    cases hleaf
  | accountState =>
    obtain ⟨item, hleaf, -⟩ := makeAccountStateNode_inv h
    cases hleaf

/-- An inner node that is decoded is marked exactly where it has hashes, but for a compressed
one that takes a hash back. -/
theorem decodedInner_wellMarked_iff (raw : Blob) (n : InnerNode) :
    (makeFromWire sha raw = .ok (some (.inner n)) →
      (n.WellMarked ↔ LastHashesCount raw)) ∧
    ∀ hash, makeFromPrefix sha raw hash = .ok (.inner n) → n.WellMarked := by
  constructor
  · intro h
    rcases raw.eq_nil_or_concat with rfl | ⟨data, ty, rfl⟩
    · simp [makeFromWire] at h
    · rw [List.concat_eq_append] at h ⊢
      rw [makeFromWire_concat] at h
      obtain ⟨node, hmade, hnode⟩ := Except.bind_eq_ok_iff.mp h
      obtain rfl := Option.some.inj (Except.ok.inj hnode)
      simp only [LastHashesCount, List.getLast?_concat, Option.some.injEq,
        List.dropLast_concat]
      unfold makeFromWireType at hmade
      split_ifs at hmade with h0 h1 h2 h3 h4
      · exact absurd hmade (makeLeafNode_ne_inner .transactionNm)
      · exact absurd hmade (makeLeafNode_ne_inner .accountState)
      · subst h2
        exact iff_of_true (makeFullInner_wellMarked hmade) fun h => absurd h (by decide)
      · rw [makeCompressedInner_wellMarked_iff hmade]
        exact ⟨fun h _ => h, fun h => h h3⟩
      · exact absurd hmade (makeLeafNode_ne_inner .transactionMd)
  · intro hash h
    unfold makeFromPrefix at h
    split_ifs at h
    obtain ⟨node, hmade, hnode⟩ := Except.bind_eq_ok_iff.mp h
    cases node with
    | leaf m => cases hnode
    | inner m =>
      obtain rfl := TreeNode.inner.inj (Except.ok.inj hnode)
      unfold makeFromPrefixType at hmade
      split_ifs at hmade
      · exact absurd hmade (makeLeafNode_ne_inner .transactionNm)
      · exact absurd hmade (makeLeafNode_ne_inner .accountState)
      · have hmarked : m.WellMarked := makeFullInner_wellMarked hmade
        exact hmarked
      · exact absurd hmade (makeLeafNode_ne_inner .transactionMd)

/-- A chunk that gives `hash` to branch 5. -/
def sampleChunk (hash : Uint256) : Blob := hash.data ++ [5]

theorem decodedInner_wellMarked_one :
    ∃ n, makeFromWire checksum
        (sampleChunk onesHash ++ [wireTypeCompressedInner]) = .ok (some (.inner n)) ∧
      n.WellMarked := by
  obtain ⟨n, hn⟩ : ∃ n, makeFromWire checksum
      (sampleChunk onesHash ++ [wireTypeCompressedInner]) = .ok (some (.inner n)) := ⟨_, rfl⟩
  refine ⟨n, hn, ((decodedInner_wellMarked_iff _ n).1 hn).mpr fun _ => ?_⟩
  decide

/-- The second chunk takes the hash back, and the branch stays marked. -/
theorem decodedInner_marked_without_hash :
    ∃ n, makeFromWire checksum (sampleChunk onesHash ++
        sampleChunk .zero ++ [wireTypeCompressedInner]) = .ok (some (.inner n)) ∧
      n.isEmptyBranch 5 = false ∧ n.getChildHash 5 = BaseUInt.zero :=
  ⟨_, rfl, rfl, rfl⟩

end Marked

end Quaxar.SHAMap
