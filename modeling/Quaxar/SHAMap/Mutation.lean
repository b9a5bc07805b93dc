import Quaxar.SHAMap.TreeNode

/-!
# The mutable tree

`MutableTree` operations over the store of nodes: the walk towards a key, the
insertion with leaf splitting, the update in place, the deletion with its upward
collapse, the copying snapshot and the flush. The store is passed explicitly; an
operation either returns the new store or a `Fault`. Every error is raised before
the first write to a node that existed before the call.

The loops over a path from its end are recursions over the path, root first: the
tail of the path is handled before its head.
-/

namespace Quaxar.SHAMap

structure PathEntry where
  node : Addr
  id : SHAMapNodeId

/-- `walk_towards_key_impl` on loaded nodes, with the visited path. The depth of
the identifier bounds the walk: a child below depth 64 is a panic in the source. -/
def walkTowardsKeyImpl (h : Heap) (key : Uint256) :
    ℕ → Addr → SHAMapNodeId → Except Fault (Option Addr × List PathEntry)
  | 0, _, _ => .error .panic
  | fuel + 1, a, id => do
    match ← readNode h a with
    | .leaf _ => .ok (some a, [⟨a, id⟩])
    | .inner n =>
      match n.branches (selectBranch id key) with
      | none => .ok (none, [⟨a, id⟩])
      | some ⟨hash, none⟩ => .error (.err (.traversal (.missingNode hash)))
      | some ⟨_, some child⟩ =>
        match id.getChildNodeId (selectBranch id key) with
        | .error _ => .error .panic
        | .ok childId => do
          let (terminal, path) ← walkTowardsKeyImpl h key fuel child childId
          .ok (terminal, ⟨a, id⟩ :: path)

def walkTowardsKeyWithPath (h : Heap) (root : Addr) (key : Uint256) :
    Except Fault (Option Addr × List PathEntry) :=
  walkTowardsKeyImpl h key (leafDepth + 1) root SHAMapNodeId.root

/-- `find_key`: the walk may end at a leaf with another key. -/
def findKey (h : Heap) (root : Addr) (key : Uint256) : Except Fault (Option LeafNode) := do
  let (terminal, _) ← walkTowardsKeyWithPath h root key
  match terminal with
  | none => .ok none
  | some a =>
    match ← readNode h a with
    | .leaf n => .ok (if n.item.key = key then some n else none)
    | .inner _ => .ok none

/-- A tree handle: the root and the identifier of the nodes it owns. -/
structure MutableTree where
  root : Addr
  cowid : ℕ
  cowid_ne : cowid ≠ 0

namespace MutableTree

variable (sha : Sha512Half) (n : InnerNode) (h : Heap) (t : MutableTree) (a : Addr) (ty : LeafType)
  (item : SHAMapItem)

/-- `MutableTree::new` in a given store. -/
def new (cowid : ℕ) (hc : cowid ≠ 0) : Heap × MutableTree :=
  let (h, root) := newInner h cowid
  (h, ⟨root, cowid, hc⟩)

/-- `unshare_node`: the node itself if this tree owns it, otherwise an owned copy. -/
def unshareNode (id : SHAMapNodeId) : Except Fault (Heap × MutableTree × Addr) := do
  let n ← readNode h a
  if n.cowid ≤ t.cowid then
    if n.cowid = t.cowid then .ok (h, t, a)
    else
      let (h, cloned) ← cloneWithCowid h a t.cowid
      .ok (h, if id.isRoot then { t with root := cloned } else t, cloned)
  else .error .panic

/-- `dirty_up`: hang `child` under the path, unsharing every node of it. -/
def dirtyUp (h : Heap) (t : MutableTree) (key : Uint256) :
    List PathEntry → Addr → Except Fault (Heap × MutableTree × Addr)
  | [], child => .ok (h, t, child)
  | e :: path, child => do
    let (h, t, child) ← dirtyUp h t key path child
    let (h, t, node) ← unshareNode h t e.node e.id
    let h ← setChild h node (selectBranch e.id key) (some child)
    .ok (h, t, node)

def addIntoEmptyBranch (path : List PathEntry) (key : Uint256)
    (ty : LeafType) (item : SHAMapItem) : Except Fault (Heap × MutableTree × Bool) := do
  match path.getLast? with
  | none => .error (.err .rootMustBeInner)
  | some e =>
    let (h, t, parent) ← unshareNode h t e.node e.id
    let (h, leaf) ← newLeaf sha h ty item t.cowid
    let h ← setChild h parent (selectBranch e.id key) (some leaf)
    let (h, t, root) ← dirtyUp h t key path.dropLast parent
    .ok (h, { t with root := root }, true)

/-- The loop of `add_with_leaf_split`: inner nodes are stacked on the graft until
the two keys part, and both leaves are hung under the last of them. -/
def splitLoop (cowid : ℕ) (ty : LeafType) (item existing : SHAMapItem) :
    ℕ → Heap → List PathEntry → SHAMapNodeId → Addr → Except Fault (Heap × List PathEntry × Addr)
  | 0, _, _, _, _ => .error .panic
  | fuel + 1, h, graft, id, split => do
    let newBranch := selectBranch id item.key
    let oldBranch := selectBranch id existing.key
    if newBranch ≠ oldBranch then
      let (h, newLeafNode) ← newLeaf sha h ty item cowid
      let h ← setChild h split newBranch (some newLeafNode)
      let (h, oldLeafNode) ← newLeaf sha h ty existing cowid
      let h ← setChild h split oldBranch (some oldLeafNode)
      .ok (h, graft, split)
    else
      match id.getChildNodeId newBranch with
      | .error _ => .error .panic
      | .ok childId =>
        let (h, next) := newInner h cowid
        splitLoop cowid ty item existing fuel h (graft ++ [⟨split, id⟩]) childId next

def addWithLeafSplit (path : List PathEntry) (leaf : Addr)
    (ty : LeafType) (item : SHAMapItem) : Except Fault (Heap × MutableTree × Bool) := do
  match path.getLast? with
  | none => .error (.err .rootMustBeInner)
  | some e =>
    match ← readNode h leaf with
    | .inner _ => .error (.err (.missingExactLeaf item.key))
    | .leaf n =>
      if n.item.key = item.key then .ok (h, t, false)
      else if n.leafType ≠ ty then .error (.err (.crossTypeChange ty n.leafType))
      else
        let (h, split) := newInner h t.cowid
        let (h, graft, split) ←
          splitLoop sha t.cowid ty item n.item (leafDepth + 1) h path.dropLast e.id split
        let (h, t, root) ← dirtyUp h t item.key graft split
        .ok (h, { t with root := root }, true)

def addItem : Except Fault (Heap × MutableTree × Bool) := do
  let (terminal, path) ← walkTowardsKeyWithPath h t.root item.key
  match terminal with
  | none => addIntoEmptyBranch sha h t path item.key ty item
  | some leaf => addWithLeafSplit sha h t path leaf ty item

def updateItem : Except Fault (Heap × MutableTree × Bool) := do
  let (terminal, path) ← walkTowardsKeyWithPath h t.root item.key
  match terminal, path.getLast? with
  | some leaf, some e =>
    match ← readNode h leaf with
    | .inner _ => .error (.err (.missingExactLeaf item.key))
    | .leaf n =>
      if n.item.key ≠ item.key then .error (.err (.missingExactLeaf item.key))
      else if n.leafType ≠ ty then .error (.err (.crossTypeChange ty n.leafType))
      else
        let (h, t, leaf) ← unshareNode h t leaf e.id
        let (h, changed) ← setItem sha h leaf item
        if changed then
          let (h, t, root) ← dirtyUp h t item.key path.dropLast leaf
          .ok (h, { t with root := root }, true)
        else .ok (h, t, true)
  | _, _ => .error (.err (.missingExactLeaf item.key))

/-- The loaded children of the non-empty branches, `none` for an unloaded one. -/
def loadedChildren : List (Option Addr) :=
  ((List.finRange 16).filterMap n.branches).map Branch.child

/-- `only_below_loaded_leaf`: the leaf at the end of a chain of only children. -/
def onlyBelowLoadedLeaf (h : Heap) : ℕ → Addr → Except Fault (Option Addr)
  | 0, _ => .error .panic
  | fuel + 1, a => do
    match ← readNode h a with
    | .leaf _ => .ok (some a)
    | .inner n =>
      match loadedChildren n with
      | [some child] => onlyBelowLoadedLeaf h fuel child
      | _ => .ok none

/-- `select_only_branch`: the first non-empty branch. -/
def selectOnlyBranch : Option (Fin 16) :=
  (List.finRange 16).find? fun b => !n.isEmptyBranch b

/-- A node with one branch left gives way to the only leaf below it, if there is one. -/
def collapse (node : Addr) (n : InnerNode) : Except Fault (Heap × Option Addr) := do
  match ← onlyBelowLoadedLeaf h (h.length + 1) node with
  | none => .ok (h, some node)
  | some sole =>
    match ← readNode h sole, selectOnlyBranch n with
    | .leaf leaf, some branch =>
      let h ← setChild h node branch none
      let (h, fresh) ← newLeaf sha h leaf.leafType leaf.item t.cowid
      .ok (h, some fresh)
    | _, _ => .error .panic

/-- What takes the place of an inner node below the root after one of its children
was removed: nothing, the only leaf left, or the node itself. -/
def settleNode (node : Addr) (n : InnerNode) : Except Fault (Heap × Option Addr) :=
  match n.branchCount with
  | 0 => .ok (h, none)
  | 1 => collapse sha h t node n
  | _ => .ok (h, some node)

/-- The upward loop of `delete_item`; the result is the node for the branch above. -/
def deleteUp (h : Heap) (t : MutableTree) (key : Uint256) :
    List PathEntry → Except Fault (Heap × MutableTree × Option Addr)
  | [] => .ok (h, t, none)
  | e :: path => do
    let (h, t, prev) ← deleteUp h t key path
    let (h, t, node) ← unshareNode h t e.node e.id
    let h ← setChild h node (selectBranch e.id key) prev
    if e.id.isRoot then .ok (h, { t with root := node }, none)
    else
      match ← readNode h node with
      | .leaf _ => .error .panic
      | .inner n =>
        let (h, prev) ← settleNode sha h t node n
        .ok (h, t, prev)

def deleteItem (key : Uint256) : Except Fault (Heap × MutableTree × Bool) := do
  let (terminal, path) ← walkTowardsKeyWithPath h t.root key
  match terminal with
  | none => .ok (h, t, false)
  | some leaf =>
    match ← readNode h leaf with
    | .inner _ => .ok (h, t, false)
    | .leaf n =>
      if n.item.key ≠ key then .ok (h, t, false)
      else
        let (h, t, _) ← deleteUp sha h t key path.dropLast
        .ok (h, t, true)

/-- The branch loop of `clone_loaded_subtree_as_shareable`: every loaded child of
`n` is copied by `clone` and hung under the copied node. -/
def cloneChildren (clone : Heap → Addr → Except Fault (Heap × Addr)) (n : InnerNode)
    (cloned : Addr) : List (Fin 16) → Heap → Except Fault Heap
  | [], h => .ok h
  | b :: bs, h =>
    match n.getChild b with
    | none => cloneChildren clone n cloned bs h
    | some child => do
      let (h, clonedChild) ← clone h child
      let h ← setChild h cloned b (some clonedChild)
      cloneChildren clone n cloned bs h

/-- `clone_loaded_subtree_as_shareable`: shared nodes are kept, owned ones are
copied, rehashed and shared. -/
def cloneLoadedSubtree (cowid : ℕ) : ℕ → Heap → Addr → Except Fault (Heap × Addr)
  | 0, _, _ => .error .panic
  | fuel + 1, h, a => do
    let node ← readNode h a
    if node.cowid = 0 then .ok (h, a)
    else
      let (h, cloned) ← cloneWithCowid h a cowid
      let h ← match node with
        | .inner n =>
          cloneChildren (cloneLoadedSubtree cowid fuel) n cloned (List.finRange 16) h
        | .leaf _ => .ok h
      let h ← updateHash sha h cloned
      let h ← unshareCell h cloned
      .ok (h, cloned)

def mutableSnapshot (nextCowid : ℕ) : Except Fault (Heap × MutableTree) :=
  if hlt : t.cowid < nextCowid then do
    let (h, root) ← cloneLoadedSubtree sha nextCowid (h.length + 1) h t.root
    .ok (h, ⟨root, nextCowid, by omega⟩)
  else .error .panic

/-- A flush may pass each node it shares through a writer, which hands back the
node to refer to from then on. -/
abbrev WriteNode := Heap → Addr → Heap × Addr

variable (writer : Option WriteNode)

def preFlushNode (owner : ℕ) : Except Fault (Heap × Addr) := do
  let n ← readNode h a
  if n.cowid = owner then .ok (h, a) else cloneWithCowid h a owner

def maybeWriteNode (h : Heap) (a : Addr) : Heap × Addr :=
  match writer with
  | none => (h, a)
  | some write => write h a

/-- Rehash a node, share it and pass it to the writer. -/
def finishFlush (h : Heap) (a : Addr) : Except Fault (Heap × Addr) := do
  let h ← updateHash sha h a
  let h ← unshareCell h a
  .ok (maybeWriteNode writer h a)

/-- The branch loop of `walk_subtree_impl` at the node `a`: loaded children that
are not shared yet are flushed and their slots redirected. -/
def flushBranches (flush : Heap → Addr → Except Fault (Heap × Addr × ℕ)) (a : Addr) :
    List (Fin 16) → Heap → Except Fault (Heap × ℕ)
  | [], h => .ok (h, 0)
  | b :: bs, h => do
    match ← readNode h a with
    | .leaf _ => .error .panic
    | .inner n =>
      match n.getChild b with
      | none => flushBranches flush a bs h
      | some child =>
        if (← readNode h child).cowid = 0 then flushBranches flush a bs h
        else
          let (h, child, flushed) ← flush h child
          let h ← shareChild h a b child
          let (h, rest) ← flushBranches flush a bs h
          .ok (h, flushed + rest)

/-- The postorder walk of `walk_subtree_impl` below a node that is not shared.
The source's explicit stack of parents is the call stack of this recursion. -/
def flushNode (owner : ℕ) (writer : Option WriteNode) :
    ℕ → Heap → Addr → Except Fault (Heap × Addr × ℕ)
  | 0, _, _ => .error .panic
  | fuel + 1, h, a => do
    let (h, a) ← preFlushNode h a owner
    match ← readNode h a with
    | .leaf _ =>
      let (h, a) ← finishFlush sha writer h a
      .ok (h, a, 1)
    | .inner _ =>
      let (h, flushed) ← flushBranches (flushNode owner writer fuel) a (List.finRange 16) h
      let (h, a) ← finishFlush sha writer h a
      .ok (h, a, flushed + 1)

/-- `walk_subtree_impl`; an empty root is replaced by a fresh shared one. -/
def walkSubtree : Except Fault (Heap × MutableTree × ℕ) := do
  let n ← readNode h t.root
  if n.cowid = 0 then .ok (h, t, 0)
  else
    match n with
    | .inner inner =>
      if inner.isEmpty then
        let (h, root) := newInner h 0
        .ok (h, { t with root := root }, 1)
      else
        let (h, root, flushed) ← flushNode sha t.cowid writer (h.length + 1) h t.root
        .ok (h, { t with root := root }, flushed)
    | .leaf _ =>
      let (h, root, flushed) ← flushNode sha t.cowid writer (h.length + 1) h t.root
      .ok (h, { t with root := root }, flushed)

def unshare : Except Fault (Heap × MutableTree × ℕ) :=
  walkSubtree sha h t none

end MutableTree

end Quaxar.SHAMap
