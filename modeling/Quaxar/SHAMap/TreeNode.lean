import Quaxar.SHAMap.NodeId
import Quaxar.Lib.CellStore

/-!
# Tree nodes

The nodes of a map live in a store and refer to each other by address, because
the source shares them by reference between trees and mutates them in place
while they are owned. A node's copy-on-write identifier `cowid` is zero when it
is shared. An inner node has a slot for every set branch bit; the slot keeps the
child's stored hash and, once the child is loaded, a reference to it. SHA-512Half
is a parameter.
-/

namespace Quaxar.SHAMap

abbrev Addr := ℕ

/-- The function `sha512_half`. -/
abbrev Sha512Half := List UInt8 → Uint256

/-- `SHAMapNodeType` without `Inner`, which every leaf function asserts away. -/
inductive LeafType where
  | transactionNm
  | transactionMd
  | accountState
deriving DecidableEq, Repr

/-- `megabytes(16)`. -/
def maxItemBytes : ℕ := 16 * 1024 * 1024

/-- `MIN_SHAMAP_ITEM_BYTES`. -/
def minItemBytes : ℕ := 12

/-- A keyed payload; `SHAMapItem::new` rejects longer ones. -/
structure SHAMapItem where
  key : Uint256
  data : List UInt8
  size_le : data.length ≤ maxItemBytes
deriving DecidableEq

namespace SHAMapItem

@[ext] theorem ext {x y : SHAMapItem} (hk : x.key = y.key) (hd : x.data = y.data) : x = y := by
  cases x
  cases y
  simp_all

def size (item : SHAMapItem) : ℕ := item.data.length

end SHAMapItem

/-- `u32::to_be_bytes`. -/
def toBeBytes (x : UInt32) : List UInt8 :=
  [(x >>> 24).toUInt8, (x >>> 16).toUInt8, (x >>> 8).toUInt8, x.toUInt8]

def hashPrefixInnerNode : UInt32 := 0x4D494E00

namespace LeafType

def hashPrefix : LeafType → UInt32
  | transactionNm => 0x54584E00
  | transactionMd => 0x534E4400
  | accountState => 0x4D4C4E00

/-- `serialize_leaf_with_prefix`; a transaction without metadata leaves its key out. -/
def serializeWithPrefix (ty : LeafType) (item : SHAMapItem) : List UInt8 :=
  toBeBytes ty.hashPrefix ++ item.data ++
    match ty with
    | transactionNm => []
    | transactionMd | accountState => item.key.data

end LeafType

/-- The sixteen stored hashes, zero where there is no branch, after the prefix. -/
def serializeInnerWithPrefix (hashes : Fin 16 → Uint256) : List UInt8 :=
  toBeBytes hashPrefixInnerNode ++ (List.finRange 16).flatMap fun b => (hashes b).data

variable (sha : Sha512Half)

def computeLeafHash (ty : LeafType) (item : SHAMapItem) : Uint256 :=
  sha (ty.serializeWithPrefix item)

/-- A node without branches hashes to zero. -/
def computeInnerHash (isEmpty : Bool) (hashes : Fin 16 → Uint256) : Uint256 :=
  if isEmpty then .zero else sha (serializeInnerWithPrefix hashes)

structure LeafNode where
  leafType : LeafType
  item : SHAMapItem
  cowid : ℕ
  hash : Uint256
deriving DecidableEq

/-- The slot of a set branch bit. -/
structure Branch where
  hash : Uint256
  child : Option Addr
deriving DecidableEq

structure InnerNode where
  cowid : ℕ
  hash : Uint256
  branches : Fin 16 → Option Branch
deriving DecidableEq

namespace InnerNode

variable (n : InnerNode) (b : Fin 16) (child : Option Addr)

def isEmptyBranch : Bool := (n.branches b).isNone

def isEmpty : Bool := (List.finRange 16).all n.isEmptyBranch

def branchCount : ℕ :=
  ((List.finRange 16).filter fun b => !n.isEmptyBranch b).length

def getChildHash : Uint256 :=
  match n.branches b with
  | some s => s.hash
  | none => .zero

def getChild : Option Addr := (n.branches b).bind Branch.child

/-- The assignment made by `set_child`: the bit follows the child, and both the
stored child hash and the node's own hash become stale. -/
def withChild : InnerNode :=
  { n with
    hash := .zero
    branches := Function.update n.branches b (child.map fun c => ⟨.zero, some c⟩) }

@[simp] theorem withChild_cowid : (n.withChild b child).cowid = n.cowid := rfl

end InnerNode

inductive TreeNode where
  | inner (n : InnerNode)
  | leaf (n : LeafNode)

namespace TreeNode

def cowid : TreeNode → ℕ
  | inner n => n.cowid
  | leaf n => n.cowid

def hash : TreeNode → Uint256
  | inner n => n.hash
  | leaf n => n.hash

def withCowid (c : ℕ) : TreeNode → TreeNode
  | inner n => inner { n with cowid := c }
  | leaf n => leaf { n with cowid := c }

end TreeNode

/-- The nodes in memory, by address. -/
abbrev Heap := List TreeNode

inductive TraversalError where
  | missingNode (hash : Uint256)
deriving DecidableEq

inductive MutationError where
  | traversal (e : TraversalError)
  | rootMustBeInner
  | missingExactLeaf (key : Uint256)
  | crossTypeChange (requested existing : LeafType)
deriving DecidableEq

/-- What stops an operation: an error it returns, or a failed assertion. -/
inductive Fault where
  | err (e : MutationError)
  | panic
deriving DecidableEq

variable (h : Heap) (a : Addr) (b : Fin 16)

/-- References never dangle in the source; a dangling address here is a panic. -/
def readNode : Except Fault TreeNode :=
  match h[a]? with
  | some n => .ok n
  | none => .error .panic

def newInner (cowid : ℕ) : Heap × Addr :=
  CellStore.alloc h (.inner ⟨cowid, .zero, fun _ => none⟩)

def newLeafWithHash (ty : LeafType) (item : SHAMapItem) (cowid : ℕ) (hash : Uint256) :
    Except Fault (Heap × Addr) :=
  if minItemBytes ≤ item.size then .ok (CellStore.alloc h (.leaf ⟨ty, item, cowid, hash⟩))
  else .error .panic

def newLeaf (ty : LeafType) (item : SHAMapItem) (cowid : ℕ) : Except Fault (Heap × Addr) :=
  newLeafWithHash h ty item cowid (computeLeafHash sha ty item)

def cloneWithCowid (cowid : ℕ) : Except Fault (Heap × Addr) := do
  match ← readNode h a with
  | .leaf n => newLeafWithHash h n.leafType n.item cowid n.hash
  | .inner n => .ok (CellStore.alloc h (.inner { n with cowid := cowid }))

/-- `set_child` asserts that the node is an owned inner node. -/
def setChild (child : Option Addr) : Except Fault Heap := do
  match ← readNode h a with
  | .inner n => if n.cowid ≠ 0 then .ok (h.set a (.inner (n.withChild b child))) else .error .panic
  | .leaf _ => .error .panic

/-- `share_child` replaces the reference in an existing slot and nothing else. -/
def shareChild (child : Addr) : Except Fault Heap := do
  match ← readNode h a with
  | .inner n =>
    match n.branches b with
    | some s =>
      if n.cowid ≠ 0 then
        .ok (h.set a (.inner
          { n with
            branches := Function.update n.branches b (some { s with child := some child }) }))
      else .error .panic
    | none => .error .panic
  | .leaf _ => .error .panic

/-- `set_item` on an owned leaf; reports whether the leaf's hash changed. -/
def setItem (item : SHAMapItem) : Except Fault (Heap × Bool) := do
  match ← readNode h a with
  | .leaf n =>
    if n.cowid ≠ 0 then
      let next := computeLeafHash sha n.leafType item
      .ok (h.set a (.leaf { n with item := item, hash := next }), n.hash != next)
    else .error .panic
  | .inner _ => .error .panic

/-- The slots after `update_hash_deep` has copied the hashes of loaded children. -/
def refreshedBranches (n : InnerNode) (b : Fin 16) : Option Branch :=
  match n.branches b with
  | some ⟨hash, some c⟩ => some ⟨(h[c]?).elim hash TreeNode.hash, some c⟩
  | s => s

/-- `update_hash` on a leaf, `update_hash_deep` on an inner node. -/
def updateHash : Except Fault Heap := do
  match ← readNode h a with
  | .leaf n => .ok (h.set a (.leaf { n with hash := computeLeafHash sha n.leafType n.item }))
  | .inner n =>
    let n' := { n with branches := refreshedBranches h n }
    .ok (h.set a (.inner
      { n' with hash := computeInnerHash sha n'.isEmpty n'.getChildHash }))

/-- `unshare`: the node stops being owned. -/
def unshareCell : Except Fault Heap := do
  let n ← readNode h a
  .ok (h.set a (n.withCowid 0))

/-- An item for samples, with the first byte of its key. -/
def itemOf (first byte : UInt8) : SHAMapItem :=
  ⟨⟨first :: List.replicate 31 0, rfl⟩, List.replicate 12 byte, by simp [maxItemBytes]⟩

/-- A hash for samples: two bytes of the string read in base 7. -/
def checksum (x : List UInt8) : Uint256 :=
  let sum := x.foldl (fun sum byte => (sum * 7 + byte.toNat) % 65521) 1
  ⟨1 :: UInt8.ofNat (sum / 256) :: UInt8.ofNat sum :: List.replicate 29 0, rfl⟩

end Quaxar.SHAMap
