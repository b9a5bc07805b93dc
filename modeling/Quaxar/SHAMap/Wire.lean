import Quaxar.Lib.Except
import Quaxar.SHAMap.TaggedPointer

/-!
# The wire format of nodes

`serialize_for_wire` and `make_from_wire`. The last byte of a node on the wire is its
type. An inner node with fewer than twelve branches is sent as pairs of a hash and a
branch number, any other as its sixteen hashes. A leaf is its payload, followed by its
key unless it is a transaction without metadata, whose key is its hash.
-/

namespace Quaxar.SHAMap

open Except (bind_ne_error)

inductive SHAMapCodecError where
  | emptyInnerNodeSerialization
  | shortLeafNode (nodeType : LeafType) (len : ℕ)
  | shortTransactionWithMetaNode (len : ℕ)
  | shortAccountStateNode (len : ℕ)
  | invalidAccountStateNode
  | invalidFullInnerSize (len : ℕ)
  | invalidCompressedInnerSize (len : ℕ)
  | invalidCompressedInnerBranch (branch : UInt8)
  | unknownWireType (ty : UInt8)
  | shortPrefixNode
  | unknownPrefixType (p : UInt32)
deriving DecidableEq

/-- What stops the codec: an error it returns, or a failed assertion. -/
inductive CodecFault where
  | err (e : SHAMapCodecError)
  | panic
deriving DecidableEq

abbrev Blob := List UInt8

def wireTypeTransaction : UInt8 := 0

def wireTypeAccountState : UInt8 := 1

def wireTypeInner : UInt8 := 2

def wireTypeCompressedInner : UInt8 := 3

def wireTypeTransactionWithMeta : UInt8 := 4

def LeafType.wireType : LeafType → UInt8
  | .transactionNm => wireTypeTransaction
  | .transactionMd => wireTypeTransactionWithMeta
  | .accountState => wireTypeAccountState

def serializeLeafForWire (ty : LeafType) (item : SHAMapItem) : Blob :=
  item.data ++ (if ty ≠ .transactionNm then item.key.data else []) ++ [ty.wireType]

/-- One entry of a compressed inner node. -/
def wireChunk (n : InnerNode) (b : Fin 16) : Blob := (n.getChildHash b).data ++ [UInt8.ofNat b]

def serializeInnerForWire (n : InnerNode) : Except SHAMapCodecError Blob :=
  if n.isEmpty then .error .emptyInnerNodeSerialization
  else if n.branchCount < 12 then
    .ok (((List.finRange 16).filter fun b => !n.isEmptyBranch b).flatMap (wireChunk n) ++
      [wireTypeCompressedInner])
  else .ok ((List.finRange 16).flatMap (fun b => (n.getChildHash b).data) ++ [wireTypeInner])

def TreeNode.serializeForWire : TreeNode → Except SHAMapCodecError Blob
  | .inner n => serializeInnerForWire n
  | .leaf n => .ok (serializeLeafForWire n.leafType n.item)

def unwrap {α : Type} : Option α → Except CodecFault α
  | some a => .ok a
  | none => .error .panic

/-- `SHAMapItem::new` asserts the upper bound of the payload. -/
def SHAMapItem.new (key : Uint256) (data : Blob) : Except CodecFault SHAMapItem :=
  if h : data.length ≤ maxItemBytes then .ok ⟨key, data, h⟩ else .error .panic

def validateLeafPayload (ty : LeafType) (data : Blob) : Except CodecFault Unit :=
  if data.length < minItemBytes then .error (.err (.shortLeafNode ty data.length)) else .ok ()

/-- `chunks_exact`; a shorter rest is left out. -/
def chunksExact (size : ℕ) (data : Blob) : List Blob :=
  (List.range (data.length / size)).map fun i => (data.drop (size * i)).take size

variable (sha : Sha512Half)

/-- `update_hash` on a node without loaded children. -/
def TreeNode.updateHash : TreeNode → TreeNode
  | .inner n => .inner { n with hash := computeInnerHash sha n.isEmpty n.getChildHash }
  | .leaf n => .leaf { n with hash := computeLeafHash sha n.leafType n.item }

/-- `new_leaf` of a shared leaf; its assertion on the payload has been checked before. -/
def makeLeaf (ty : LeafType) (item : SHAMapItem) : TreeNode :=
  .leaf ⟨ty, item, 0, computeLeafHash sha ty item⟩

/-- A shared inner node whose slots were filled with the hashes and then resized for the set
branches. -/
def makeInner (hashes : Fin 16 → Uint256) (isBranch : Fin 16 → Bool) : TreeNode :=
  let slots : TaggedPointer := (List.finRange 16).map hashes
  let resized := slots.resize isBranch (onesBelow isBranch 16)
  .updateHash sha <| .inner ⟨0, .zero, fun b =>
    if isBranch b then some ⟨resized.getHash isBranch b, none⟩ else none⟩

variable (data : Blob)

def makeTransactionNode : Except CodecFault TreeNode := do
  validateLeafPayload .transactionNm data
  let item ← SHAMapItem.new
    (sha (toBeBytes LeafType.transactionNm.hashPrefix ++ data)) data
  .ok (makeLeaf sha .transactionNm item)

def makeTransactionWithMetaNode : Except CodecFault TreeNode :=
  if data.length < 32 then .error (.err (.shortTransactionWithMetaNode data.length))
  else do
    validateLeafPayload .transactionMd (data.take (data.length - 32))
    let key ← unwrap (BaseUInt.fromSlice (data.drop (data.length - 32)))
    let item ← SHAMapItem.new key (data.take (data.length - 32))
    .ok (makeLeaf sha .transactionMd item)

def makeAccountStateNode : Except CodecFault TreeNode :=
  if data.length < 32 then .error (.err (.shortAccountStateNode data.length))
  else do
    validateLeafPayload .accountState (data.take (data.length - 32))
    let key ← unwrap (BaseUInt.fromSlice (data.drop (data.length - 32)))
    if key.isZero then .error (.err .invalidAccountStateNode)
    else do
      let item ← SHAMapItem.new key (data.take (data.length - 32))
      .ok (makeLeaf sha .accountState item)

def makeFullInner : Except CodecFault TreeNode :=
  if data.length ≠ branchFactor * 32 then .error (.err (.invalidFullInnerSize data.length))
  else do
    let hashes ← (chunksExact 32 data).mapM fun chunk => unwrap (BaseUInt.fromSlice chunk)
    let hash (b : Fin 16) : Uint256 := hashes.getD b .zero
    .ok (makeInner sha hash fun b => !(hash b).isZero)

/-- One entry of a compressed inner node. A branch that has once been given a non-zero
hash stays set. -/
def storeChunk (slots : Fin 16 → Uint256 × Bool) (chunk : Blob) :
    Except CodecFault (Fin 16 → Uint256 × Bool) :=
  let b := (chunk.drop 32).headD 0
  if hb : b.toNat < branchFactor then do
    let hash ← unwrap (BaseUInt.fromSlice (chunk.take 32))
    .ok (Function.update slots ⟨b.toNat, hb⟩ (hash, (slots ⟨b.toNat, hb⟩).2 || !hash.isZero))
  else .error (.err (.invalidCompressedInnerBranch b))

def makeCompressedInner : Except CodecFault TreeNode :=
  if data.length % 33 ≠ 0 ∨ 33 * branchFactor < data.length then
    .error (.err (.invalidCompressedInnerSize data.length))
  else do
    let slots ← (chunksExact 33 data).foldlM storeChunk fun _ => (BaseUInt.zero, false)
    .ok (makeInner sha (fun b => (slots b).1) fun b => (slots b).2)

/-- The node that the type byte `ty` announces. -/
def makeFromWireType (ty : UInt8) (data : Blob) : Except CodecFault TreeNode :=
  if ty = wireTypeTransaction then makeTransactionNode sha data
  else if ty = wireTypeAccountState then makeAccountStateNode sha data
  else if ty = wireTypeInner then makeFullInner sha data
  else if ty = wireTypeCompressedInner then makeCompressedInner sha data
  else if ty = wireTypeTransactionWithMeta then makeTransactionWithMetaNode sha data
  else .error (.err (.unknownWireType ty))

def makeFromWire (raw : Blob) : Except CodecFault (Option TreeNode) :=
  match raw.getLast? with
  | none => .ok none
  | some ty => do
    let node ← makeFromWireType sha ty raw.dropLast
    .ok (some node)

variable {size : ℕ}

theorem chunksExact_cons (hsize : 0 < size) {x : Blob} (hx : x.length = size) (data : Blob) :
    chunksExact size (x ++ data) = x :: chunksExact size data := by
  have hlen : (x ++ data).length / size = data.length / size + 1 := by
    rw [List.length_append, hx, Nat.add_comm, Nat.add_div_right _ hsize]
  unfold chunksExact
  rw [hlen, List.range_succ_eq_map, List.map_cons, List.map_map]
  congr 1
  · simp [← hx]
  · apply List.map_congr_left
    intro i _
    have hdrop : size * (i + 1) = x.length + size * i := by rw [hx]; ring
    simp only [Function.comp_apply, Nat.succ_eq_add_one, hdrop, List.drop_length_add_append]

/-- Cutting up blocks that were written one after the other. -/
theorem chunksExact_flatMap {β : Type*} (hsize : 0 < size) {f : β → Blob}
    (hf : ∀ b, (f b).length = size) (l : List β) : chunksExact size (l.flatMap f) = l.map f := by
  induction l with
  | nil => simp [chunksExact]
  | cons b l ih => rw [List.flatMap_cons, chunksExact_cons hsize (hf b), ih, List.map_cons]

theorem length_of_mem_chunksExact {data chunk : Blob} (h : chunk ∈ chunksExact size data) :
    chunk.length = size := by
  simp only [chunksExact, List.mem_map, List.mem_range] at h
  obtain ⟨i, hi, rfl⟩ := h
  have hle : size * (i + 1) ≤ data.length :=
    (Nat.mul_le_mul_left size hi).trans (Nat.mul_div_le _ _)
  rw [Nat.mul_add, Nat.mul_one] at hle
  rw [List.length_take, List.length_drop]
  omega

theorem unwrap_fromSlice {n : ℕ} {bytes : Blob} (h : bytes.length = n) :
    unwrap (BaseUInt.fromSlice bytes : Option (BaseUInt n)) = .ok ⟨bytes, h⟩ := by
  simp [BaseUInt.fromSlice, h, unwrap]

open TaggedPointer in
/-- The set branches have the given hashes. -/
theorem makeInner_eq (hashes : Fin 16 → Uint256) (isBranch : Fin 16 → Bool) :
    makeInner sha hashes isBranch = .updateHash sha (.inner
      ⟨0, .zero, fun b => if isBranch b then some ⟨hashes b, none⟩ else none⟩) := by
  dsimp only [makeInner]
  congr 3
  funext b
  split_ifs with hb
  · rw [getHash_resize hb]
    simp [getHash, childIndex, slotIndex, isDense, branchFactor]
  · rfl

/-- The inner node whose branches are those with a non-zero hash. -/
def ofHashes (hashes : Fin 16 → Uint256) : TreeNode :=
  makeInner sha hashes fun b => !(hashes b).isZero

theorem makeFromWire_concat (ty : UInt8) : makeFromWire sha (data ++ [ty]) =
      (do let node ← makeFromWireType sha ty data; .ok (some node)) := by
  simp [makeFromWire]

theorem makeFullInner_flatMap (hashes : Fin 16 → Uint256) :
    makeFullInner sha ((List.finRange 16).flatMap fun b => (hashes b).data) =
      .ok (ofHashes sha hashes) := by
  have hlen : ((List.finRange 16).flatMap fun b => (hashes b).data).length = branchFactor * 32 := by
    simp [List.length_flatMap, branchFactor]
  have hread : (List.finRange 16).mapM
      ((fun chunk => unwrap (BaseUInt.fromSlice chunk)) ∘ fun b => (hashes b).data) =
      (.ok ((List.finRange 16).map hashes) : Except CodecFault _) := by
    have hpure : ((fun chunk => unwrap (BaseUInt.fromSlice chunk)) ∘ fun b => (hashes b).data) =
        fun b => (pure (hashes b) : Except CodecFault Uint256) := by
      funext b
      simp [unwrap]
      rfl
    rw [hpure, List.mapM_pure]
    rfl
  unfold makeFullInner
  rw [if_neg (not_not.mpr hlen), chunksExact_flatMap (by decide) (fun b => (hashes b).length_data),
    List.mapM_map, hread]
  have hget : ∀ b : Fin 16, ((List.finRange 16).map hashes).getD b .zero = hashes b := by
    intro b
    simp
  simp only [bind, Except.bind, hget]
  rfl

theorem storeChunk_wireChunk (n : InnerNode) (slots : Fin 16 → Uint256 × Bool) (b : Fin 16) :
    storeChunk slots (wireChunk n b) = .ok (Function.update slots b
      (n.getChildHash b, (slots b).2 || !(n.getChildHash b).isZero)) := by
  have hdrop : (wireChunk n b).drop 32 = [UInt8.ofNat b] := by simp [wireChunk]
  have htake : (wireChunk n b).take 32 = (n.getChildHash b).data := by simp [wireChunk]
  have hval : (UInt8.ofNat b).toNat = b := by
    simp
    omega
  have hlt : (UInt8.ofNat b).toNat < branchFactor := by
    rw [hval]
    exact b.isLt
  have hfin : (⟨(UInt8.ofNat b).toNat, hlt⟩ : Fin 16) = b := Fin.ext hval
  simp only [storeChunk, hdrop, htake, List.headD_cons, hlt, dif_pos, hfin,
    BaseUInt.fromSlice_data, unwrap]
  rfl

theorem foldlM_storeChunk (n : InnerNode) {l : List (Fin 16)} (hl : l.Nodup) :
    ∀ slots : Fin 16 → Uint256 × Bool, (l.map (wireChunk n)).foldlM storeChunk slots =
      .ok fun b => if b ∈ l then (n.getChildHash b, (slots b).2 || !(n.getChildHash b).isZero)
        else slots b := by
  induction l with
  | nil =>
    intro slots
    rfl
  | cons c l ih =>
    intro slots
    obtain ⟨hc, hl⟩ := List.nodup_cons.mp hl
    rw [List.map_cons, List.foldlM_cons, storeChunk_wireChunk]
    simp only [bind, Except.bind]
    rw [ih hl]
    congr 1
    funext b
    by_cases hb : b = c
    · subst hb
      simp [hc]
    · simp [hb]

variable {n : InnerNode}

theorem InnerNode.getChildHash_of_isEmptyBranch {b : Fin 16} (h : n.isEmptyBranch b = true) :
    n.getChildHash b = BaseUInt.zero := by
  simp_all [isEmptyBranch, getChildHash]

theorem makeCompressedInner_flatMap (n : InnerNode) (hcount : n.branchCount < 12) :
    makeCompressedInner sha
        (((List.finRange 16).filter fun b => !n.isEmptyBranch b).flatMap (wireChunk n)) =
      .ok (ofHashes sha n.getChildHash) := by
  have hchunk : ∀ b, (wireChunk n b).length = 33 := fun b => by simp [wireChunk]
  have hlen : (((List.finRange 16).filter fun b => !n.isEmptyBranch b).flatMap
      (wireChunk n)).length = 33 * n.branchCount := by
    simp [List.length_flatMap, hchunk, InnerNode.branchCount, Nat.mul_comm]
  have hsize : ¬ (33 * n.branchCount % 33 ≠ 0 ∨ 33 * branchFactor < 33 * n.branchCount) := by
    unfold branchFactor
    omega
  unfold makeCompressedInner
  rw [hlen, if_neg hsize, chunksExact_flatMap (by decide) hchunk,
    foldlM_storeChunk n ((List.nodup_finRange 16).filter _)]
  have hslot : ∀ b, (if b ∈ (List.finRange 16).filter fun b => !n.isEmptyBranch b then
      (n.getChildHash b, false || !(n.getChildHash b).isZero) else (BaseUInt.zero, false)) =
      (n.getChildHash b, !(n.getChildHash b).isZero) := by
    intro b
    by_cases hb : n.isEmptyBranch b = true
    · simp [hb, InnerNode.getChildHash_of_isEmptyBranch hb, BaseUInt.isZero_iff.mpr rfl]
    · simp [hb]
  simp only [bind, Except.bind, hslot]
  rfl

/-- An inner node comes back from the wire with the same hashes. -/
theorem makeFromWire_serializeInner {raw : Blob} (h : serializeInnerForWire n = .ok raw) :
    makeFromWire sha raw = .ok (some (ofHashes sha n.getChildHash)) := by
  unfold serializeInnerForWire at h
  split_ifs at h with hempty hcount
  · obtain rfl := Except.ok.inj h
    rw [makeFromWire_concat]
    simp only [makeFromWireType, wireTypeCompressedInner, wireTypeTransaction,
      wireTypeAccountState, wireTypeInner, makeCompressedInner_flatMap sha n hcount]
    rfl
  · obtain rfl := Except.ok.inj h
    rw [makeFromWire_concat]
    simp only [makeFromWireType, wireTypeTransaction, wireTypeAccountState, wireTypeInner,
      makeFullInner_flatMap]
    rfl

/-- The node as it stands after `update_hash`. -/
theorem exists_ofHashes (hashes : Fin 16 → Uint256) : ∃ n : InnerNode,
    ofHashes sha hashes = .inner n ∧ n.getChildHash = hashes ∧
      n.isEmptyBranch = fun b => (hashes b).isZero := by
  refine ⟨_, makeInner_eq .., ?_, ?_⟩
  · funext b
    by_cases hb : (hashes b).isZero = true
    · rw [BaseUInt.isZero_iff] at hb
      simp [InnerNode.getChildHash, hb, BaseUInt.isZero_iff.mpr rfl]
    · simp [InnerNode.getChildHash, hb]
  · funext b
    cases hb : (hashes b).isZero <;> simp [InnerNode.isEmptyBranch, hb]

variable {key : Uint256} {sha : Sha512Half} {data raw : Blob} {node : TreeNode} {item : SHAMapItem}

theorem SHAMapItem.eq_of_new (h : new key data = .ok item) :
    item.key = key ∧ item.data = data := by
  unfold new at h
  split_ifs at h
  obtain rfl := Except.ok.inj h
  exact ⟨rfl, rfl⟩

theorem makeTransactionNode_inv (h : makeTransactionNode sha data = .ok node) :
    ∃ item, node = makeLeaf sha .transactionNm item ∧ item.data = data ∧
      item.key = computeLeafHash sha .transactionNm item := by
  obtain ⟨-, -, h⟩ := Except.bind_eq_ok_iff.mp h
  obtain ⟨item, hitem, h⟩ := Except.bind_eq_ok_iff.mp h
  obtain ⟨hkey, hdata⟩ := SHAMapItem.eq_of_new hitem
  refine ⟨item, (Except.ok.inj h).symm, hdata, ?_⟩
  simp [hkey, computeLeafHash, LeafType.serializeWithPrefix, hdata]

/-- A leaf that ends with its key has been cut at the right place. -/
theorem eq_append_key (hkey : unwrap (BaseUInt.fromSlice (data.drop (data.length - 32))) = .ok key)
    (hitem : SHAMapItem.new key (data.take (data.length - 32)) = .ok item) :
    data = item.data ++ item.key.data := by
  obtain ⟨rfl, hdata⟩ := SHAMapItem.eq_of_new hitem
  rcases hslice : (BaseUInt.fromSlice (data.drop (data.length - 32)) : Option Uint256) with _ | x
  · simp [hslice, unwrap] at hkey
  · rw [hslice] at hkey
    obtain rfl := Except.ok.inj hkey
    rw [hdata, BaseUInt.data_of_fromSlice hslice, List.take_append_drop]

theorem makeTransactionWithMetaNode_inv
    (h : makeTransactionWithMetaNode sha data = .ok node) :
    ∃ item, node = makeLeaf sha .transactionMd item ∧ data = item.data ++ item.key.data := by
  unfold makeTransactionWithMetaNode at h
  split_ifs at h
  obtain ⟨-, -, h⟩ := Except.bind_eq_ok_iff.mp h
  obtain ⟨key, hkey, h⟩ := Except.bind_eq_ok_iff.mp h
  obtain ⟨item, hitem, h⟩ := Except.bind_eq_ok_iff.mp h
  exact ⟨item, (Except.ok.inj h).symm, eq_append_key hkey hitem⟩

theorem makeAccountStateNode_inv (h : makeAccountStateNode sha data = .ok node) :
    ∃ item, node = makeLeaf sha .accountState item ∧ data = item.data ++ item.key.data := by
  unfold makeAccountStateNode at h
  split_ifs at h
  obtain ⟨-, -, h⟩ := Except.bind_eq_ok_iff.mp h
  obtain ⟨key, hkey, h⟩ := Except.bind_eq_ok_iff.mp h
  split_ifs at h
  obtain ⟨item, hitem, h⟩ := Except.bind_eq_ok_iff.mp h
  exact ⟨item, (Except.ok.inj h).symm, eq_append_key hkey hitem⟩

theorem makeFullInner_inv (h : makeFullInner sha data = .ok node) :
    ∃ hashes isBranch, node = makeInner sha hashes isBranch := by
  unfold makeFullInner at h
  split_ifs at h
  obtain ⟨hashes, -, h⟩ := Except.bind_eq_ok_iff.mp h
  exact ⟨_, _, (Except.ok.inj h).symm⟩

theorem makeCompressedInner_inv (h : makeCompressedInner sha data = .ok node) :
    ∃ hashes isBranch, node = makeInner sha hashes isBranch := by
  unfold makeCompressedInner at h
  split_ifs at h
  obtain ⟨slots, -, h⟩ := Except.bind_eq_ok_iff.mp h
  exact ⟨_, _, (Except.ok.inj h).symm⟩

/-- A leaf as it comes from the wire: the bytes are its encoding, and a transaction
without metadata is keyed by its hash. -/
structure FromWire (sha : Sha512Half) (raw : Blob) (ty : LeafType)
    (item : SHAMapItem) : Prop where
  raw_eq : raw = serializeLeafForWire ty item
  key_eq : ty = .transactionNm → item.key = computeLeafHash sha ty item

/-- What a decoded node can be. -/
theorem makeFromWire_cases (h : makeFromWire sha raw = .ok (some node)) :
    (∃ ty item, node = makeLeaf sha ty item ∧ FromWire sha raw ty item) ∨
      ∃ hashes isBranch, node = makeInner sha hashes isBranch := by
  rcases raw.eq_nil_or_concat with rfl | ⟨data, ty, rfl⟩
  · simp [makeFromWire] at h
  · rw [List.concat_eq_append] at h ⊢
    rw [makeFromWire_concat] at h
    obtain ⟨node', hmade, hnode⟩ := Except.bind_eq_ok_iff.mp h
    obtain rfl := Option.some.inj (Except.ok.inj hnode)
    unfold makeFromWireType at hmade
    split_ifs at hmade with h0 h1 h2 h3 h4
    · obtain ⟨item, rfl, rfl, hkey⟩ := makeTransactionNode_inv hmade
      exact .inl ⟨_, item, rfl, by simp [serializeLeafForWire, h0, LeafType.wireType],
        fun _ => hkey⟩
    · obtain ⟨item, rfl, rfl⟩ := makeAccountStateNode_inv hmade
      exact .inl ⟨_, item, rfl, by simp [serializeLeafForWire, h1, LeafType.wireType], by simp⟩
    · exact .inr (makeFullInner_inv hmade)
    · exact .inr (makeCompressedInner_inv hmade)
    · obtain ⟨item, rfl, rfl⟩ := makeTransactionWithMetaNode_inv hmade
      exact .inl ⟨_, item, rfl, by simp [serializeLeafForWire, h4, LeafType.wireType], by simp⟩

theorem wireType_inj {x y : LeafType} (h : x.wireType = y.wireType) : x = y := by
  cases x <;> cases y <;> first | rfl | exact absurd h (by decide)

/-- The wire form of a leaf determines its type and payload. -/
theorem serializeLeafForWire_inj {x y : LeafType} {item' : SHAMapItem}
    (h : serializeLeafForWire x item = serializeLeafForWire y item') :
    x = y ∧ item.data = item'.data := by
  obtain ⟨hbody, hty⟩ := List.append_inj' h rfl
  obtain rfl := wireType_inj (List.singleton_inj.mp hty)
  refine ⟨rfl, ?_⟩
  by_cases hx : x = .transactionNm
  · simpa [hx] using hbody
  · simp only [ne_eq, hx, not_false_eq_true, if_true] at hbody
    exact (List.append_inj' hbody (by simp)).1

/-- The payload of a leaf is longer than that of any item. The key of an account state is looked
at first. -/
def OversizedLeaf (ty : UInt8) (data : Blob) : Prop :=
  ty = wireTypeTransaction ∧ maxItemBytes < data.length ∨
    ty = wireTypeTransactionWithMeta ∧ maxItemBytes + 32 < data.length ∨
    ty = wireTypeAccountState ∧ maxItemBytes + 32 < data.length ∧
      data.drop (data.length - 32) ≠ (BaseUInt.zero : Uint256).data

def Oversized (raw : Blob) : Prop := ∃ data ty, raw = data ++ [ty] ∧ OversizedLeaf ty data

theorem leafItem_panic_iff (ty : LeafType) (node : SHAMapItem → TreeNode) :
    (validateLeafPayload ty data >>= fun _ => SHAMapItem.new key data >>=
      fun item => .ok (node item)) = .error .panic ↔ maxItemBytes < data.length := by
  by_cases hmax : data.length ≤ maxItemBytes
  · by_cases hmin : data.length < minItemBytes
    · simp [validateLeafPayload, hmin, hmax]
    · simp [validateLeafPayload, SHAMapItem.new, hmin, hmax]
  · have hmin : ¬data.length < minItemBytes := by
      unfold maxItemBytes at hmax
      unfold minItemBytes
      omega
    simp [validateLeafPayload, SHAMapItem.new, hmin, hmax, Nat.not_le.mp hmax]

theorem makeTransactionWithMetaNode_panic_iff :
    makeTransactionWithMetaNode sha data = .error .panic ↔ maxItemBytes + 32 < data.length := by
  unfold makeTransactionWithMetaNode
  split_ifs with hlen
  · exact iff_of_false (by simp) (by omega)
  · rw [unwrap_fromSlice (by rw [List.length_drop]; omega)]
    simp only [Except.ok_bind]
    rw [leafItem_panic_iff, List.length_take]
    omega

theorem makeAccountStateNode_panic_iff :
    makeAccountStateNode sha data = .error .panic ↔ maxItemBytes + 32 < data.length ∧
      data.drop (data.length - 32) ≠ (BaseUInt.zero : Uint256).data := by
  unfold makeAccountStateNode
  split_ifs with hlen
  · exact iff_of_false (by simp) (by omega)
  · have hdrop : (data.drop (data.length - 32)).length = 32 := by
      rw [List.length_drop]
      omega
    rw [unwrap_fromSlice hdrop]
    simp only [Except.ok_bind]
    have hzero : (⟨data.drop (data.length - 32), hdrop⟩ : Uint256).isZero = true ↔
        data.drop (data.length - 32) = (BaseUInt.zero : Uint256).data :=
      BaseUInt.isZero_iff.trans ⟨congrArg BaseUInt.data, fun h => BaseUInt.ext h⟩
    by_cases hz : data.drop (data.length - 32) = (BaseUInt.zero : Uint256).data
    · rw [if_pos (hzero.mpr hz)]
      refine iff_of_false (bind_ne_error ?_ (by simp)) fun h => h.2 hz
      unfold validateLeafPayload
      split_ifs <;> simp
    · rw [if_neg (mt hzero.mp hz), leafItem_panic_iff, List.length_take]
      simp only [hz, ne_eq, not_false_eq_true, and_true]
      omega

variable {chunks : List Blob}

theorem mapM_unwrap_ne_panic (h : ∀ chunk ∈ chunks, chunk.length = 32) :
    (chunks.mapM fun chunk => unwrap (BaseUInt.fromSlice chunk : Option Uint256)) ≠
      .error .panic := by
  induction chunks with
  | nil => simp [pure, Except.pure]
  | cons chunk chunks ih =>
    rw [List.mapM_cons, unwrap_fromSlice (h chunk List.mem_cons_self), Except.ok_bind]
    exact bind_ne_error (ih fun c hc => h c (List.mem_cons_of_mem _ hc))
      (by simp [pure, Except.pure])

theorem foldlM_storeChunk_ne_panic (h : ∀ chunk ∈ chunks, chunk.length = 33) :
    ∀ slots, chunks.foldlM storeChunk slots ≠ .error .panic := by
  induction chunks with
  | nil =>
    intro slots
    simp [pure, Except.pure]
  | cons chunk chunks ih =>
    intro slots
    have hlen : (chunk.take 32).length = 32 := by simp [h chunk List.mem_cons_self]
    refine bind_ne_error ?_ (ih fun c hc => h c (List.mem_cons_of_mem _ hc))
    simp only [storeChunk, unwrap_fromSlice hlen]
    split_ifs <;> simp

theorem makeFullInner_ne_panic : makeFullInner sha data ≠ .error .panic := by
  unfold makeFullInner
  split_ifs
  · simp
  · exact bind_ne_error (mapM_unwrap_ne_panic fun _ => length_of_mem_chunksExact) (by simp)

theorem makeCompressedInner_ne_panic : makeCompressedInner sha data ≠ .error .panic := by
  unfold makeCompressedInner
  split_ifs
  · simp
  · exact bind_ne_error (foldlM_storeChunk_ne_panic (fun _ => length_of_mem_chunksExact) _)
      (by simp)

/-- Decoding panics at a leaf that is too large, which is not rejected. -/
theorem makeFromWire_panic_iff : makeFromWire sha raw = .error .panic ↔ Oversized raw := by
  rcases raw.eq_nil_or_concat with rfl | ⟨data, ty, rfl⟩
  · simp [makeFromWire, Oversized]
  have htype : Oversized (data ++ [ty]) ↔ OversizedLeaf ty data := by
    constructor
    · rintro ⟨data', ty', heq, h⟩
      obtain ⟨rfl, hty⟩ := List.append_inj' heq rfl
      obtain rfl := List.singleton_inj.mp hty
      exact h
    · exact fun h => ⟨data, ty, rfl, h⟩
  rw [List.concat_eq_append, makeFromWire_concat, Except.bind_eq_error_iff, htype]
  simp only [reduceCtorEq, and_false, exists_false, or_false]
  unfold makeFromWireType OversizedLeaf
  split_ifs with h0 h1 h2 h3 h4
  · subst h0
    rw [makeTransactionNode, leafItem_panic_iff]
    simp [wireTypeTransaction, wireTypeTransactionWithMeta, wireTypeAccountState]
  · subst h1
    rw [makeAccountStateNode_panic_iff]
    simp [wireTypeTransaction, wireTypeTransactionWithMeta, wireTypeAccountState]
  · subst h2
    refine iff_of_false makeFullInner_ne_panic ?_
    simp [wireTypeInner, wireTypeTransaction, wireTypeTransactionWithMeta, wireTypeAccountState]
  · subst h3
    refine iff_of_false makeCompressedInner_ne_panic ?_
    simp [wireTypeCompressedInner, wireTypeTransaction, wireTypeTransactionWithMeta,
      wireTypeAccountState]
  · subst h4
    rw [makeTransactionWithMetaNode_panic_iff]
    simp [wireTypeTransaction, wireTypeTransactionWithMeta, wireTypeAccountState]
  · simp [h0, h1, h4]

end Quaxar.SHAMap
