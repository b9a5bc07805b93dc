import Quaxar.Lib.Stateful
import Quaxar.SHAMap.TreeNode

/-!
# Rebuilding a map from its leaves

A snapshot has the leaves of a map in ascending key order. `SortedLeafBuilder` computes the
inner nodes from them: it keeps the open inner nodes on the path to the last leaf and hands
a node to `emit` as soon as no later key can lie below it. `emit` may fail, and has a state
of its own. The checks of debug builds are left out.
-/

namespace Quaxar.Snapshot

open SHAMap (leafDepth serializeInnerWithPrefix)

/-- The `Display` text of a key: its bytes in upper-case hexadecimal digits. -/
def displayKey (key : Uint256) : String :=
  String.join (key.data.map fun byte =>
    String.ofList [(Nat.digitChar (byte.toNat / 16)).toUpper,
      (Nat.digitChar (byte.toNat % 16)).toUpper])

/-- A node's hash and its bytes as they are stored. -/
structure BuiltNode where
  hash : Uint256
  data : List UInt8
deriving DecidableEq

variable (sha : List UInt8 → Uint256)

def innerNode (children : Fin 16 → Uint256) : BuiltNode :=
  let bytes := serializeInnerWithPrefix children
  ⟨sha bytes, bytes⟩

def nibble (key : Uint256) (depth : ℕ) : Fin 16 :=
  let byte := key.data.getD (depth / 2) 0
  if depth % 2 = 0 then ⟨byte.toNat / 16, by have := byte.toNat_lt; omega⟩
  else ⟨byte.toNat % 16, by omega⟩

/-- The loop of `common_prefix` from byte `i` on. -/
def commonPrefixFrom : ℕ → List UInt8 → List UInt8 → ℕ
  | i, x :: xs, y :: ys =>
    if x ^^^ y ≠ 0 then i * 2 + if (x ^^^ y) &&& 0xF0 = 0 then 1 else 0
    else commonPrefixFrom (i + 1) xs ys
  | _, _, _ => leafDepth

/-- The number of leading nibbles that two keys share. -/
def commonPrefix (a b : Uint256) : ℕ := commonPrefixFrom 0 a.data b.data

/-- An open inner node. `pathKey` is a key beneath it. -/
structure Open where
  pathKey : Uint256
  children : Fin 16 → Uint256

/-- `path` is the stack of open nodes, the deepest first. `pending` is the last leaf, whose
depth the next key decides. -/
structure SortedLeafBuilder where
  path : List Open
  pending : Option (Uint256 × Uint256)
  pendingPrevLcp : ℕ
  leaves : ℕ
  inners : ℕ

namespace SortedLeafBuilder

def new : SortedLeafBuilder := ⟨[], none, 0, 0, 0⟩

/-- Open nodes along `key` until `depth` is open. -/
def openTo (key : Uint256) (depth : ℕ) (path : List Open) : List Open :=
  List.replicate (depth + 1 - path.length) ⟨key, fun _ => BaseUInt.zero⟩ ++ path

/-- Set a child of the open node at `depth`. -/
def setChild (path : List Open) (depth : ℕ) (branch : Fin 16) (hash : Uint256) : List Open :=
  path.modify (path.length - 1 - depth) fun node =>
    { node with children := Function.update node.children branch hash }

def placeLeaf (builder : SortedLeafBuilder) (key leafHash : Uint256) (depth : ℕ) :
    SortedLeafBuilder :=
  { builder with
    path := setChild (openTo key depth builder.path) depth (nibble key depth) leafHash }

variable {σ : Type} (sha : List UInt8 → Uint256) (emit : BuiltNode → EStateM String σ Unit)

/-- Emit the deepest open node and attach it to its parent. -/
def closeDeepest (builder : SortedLeafBuilder) : EStateM String σ SortedLeafBuilder :=
  match builder.path with
  | node :: parent :: path => do
    let built := innerNode sha node.children
    emit built
    let branch := nibble node.pathKey path.length
    pure { builder with
      path := { parent with children := Function.update parent.children branch built.hash } :: path
      inners := builder.inners + 1 }
  | _ => throw "closed node has a parent"

/-- So many of the open nodes, the deepest first. -/
def closeMany : ℕ → SortedLeafBuilder → EStateM String σ SortedLeafBuilder
  | 0, builder => pure builder
  | count + 1, builder => do
    let builder ← closeDeepest sha emit builder
    closeMany count builder

def closeDeeperThan (depth : ℕ) (builder : SortedLeafBuilder) :
    EStateM String σ SortedLeafBuilder :=
  closeMany sha emit (builder.path.length - (depth + 1)) builder

def push (builder : SortedLeafBuilder) (key leafHash : Uint256) :
    EStateM String σ SortedLeafBuilder := do
  match builder.pending with
  | none =>
    pure { builder with
      pending := some (key, leafHash), pendingPrevLcp := 0, leaves := builder.leaves + 1 }
  | some (prevKey, prevHash) =>
    if key ≤ prevKey then
      let name := displayKey key
      throw s!"leaf keys not strictly ascending at {name}"
    else
      let lcpWithPrev := commonPrefix prevKey key
      let depth := max builder.pendingPrevLcp lcpWithPrev
      let builder := { builder with leaves := builder.leaves + 1, pending := none }
      let builder ← closeDeeperThan sha emit lcpWithPrev
        (builder.placeLeaf prevKey prevHash depth)
      pure { builder with pending := some (key, leafHash), pendingPrevLcp := lcpWithPrev }

/-- The root hash, zero for an empty map. -/
def finish (builder : SortedLeafBuilder) : EStateM String σ Uint256 := do
  match builder.pending with
  | none => pure BaseUInt.zero
  | some (key, leafHash) =>
    let builder ← closeDeeperThan sha emit 0
      ({ builder with pending := none }.placeLeaf key leafHash builder.pendingPrevLcp)
    match builder.path with
    | root :: _ =>
      let node := innerNode sha root.children
      emit node
      pure node.hash
    | [] => throw "root is open"

/-- Push leaves one after another. -/
def pushAll (builder : SortedLeafBuilder) (leaves : List (Uint256 × Uint256)) :
    EStateM String σ SortedLeafBuilder :=
  leaves.foldlM (fun builder leaf => push sha emit builder leaf.1 leaf.2) builder

/-- Push all leaves and finish. -/
def rebuild (leaves : List (Uint256 × Uint256)) : EStateM String σ Uint256 := do
  let builder ← pushAll sha emit new leaves
  finish sha emit builder

end SortedLeafBuilder

end Quaxar.Snapshot
