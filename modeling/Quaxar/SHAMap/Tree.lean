import Quaxar.SHAMap.Mutation

/-!
# Trees as values

`Tree` is what a root address stands for: the loaded nodes below it, unfolded
into a value that shares nothing. The functions below are the operations of a
mutable tree that is the sole user of its nodes, written by recursion on that
value. They state what the operations over the store have to do; the refinement
of the one by the other is proved elsewhere.
-/

namespace Quaxar.SHAMap

/-- A subtree: an empty branch, a branch whose node is not loaded, a leaf, or an
inner node with its sixteen stored hashes and children. -/
inductive Tree where
  | empty
  | stub
  | leaf (n : LeafNode)
  | inner (cowid : ℕ) (hash : Uint256) (hashes : Fin 16 → Uint256) (child : Fin 16 → Tree)

namespace Tree

def isEmpty : Tree → Bool
  | empty => true
  | _ => false

def isLoaded : Tree → Bool
  | leaf _ => true
  | inner .. => true
  | _ => false

def hash : Tree → Uint256
  | leaf n => n.hash
  | inner _ hash _ _ => hash
  | _ => .zero

def cowid : Tree → ℕ
  | leaf n => n.cowid
  | inner cowid _ _ _ => cowid
  | _ => 0

/-- The number of inner nodes and leaves on a longest branch. -/
def height : Tree → ℕ
  | leaf _ => 1
  | inner _ _ _ child => 1 + Finset.univ.sup fun b => (child b).height
  | _ => 0

/-- What a walk checks before it enters the child at `b`. -/
def enter (d : ℕ) (hash : Uint256) : Tree → Except Fault Unit
  | empty => .ok ()
  | stub => .error (.err (.traversal (.missingNode hash)))
  | _ => if d < leafDepth then .ok () else .error .panic

/-- An inner node owned by `c` after its child at `b` was set. -/
def dirty (c : ℕ) (hashes : Fin 16 → Uint256) (child : Fin 16 → Tree) (b : Fin 16) (t : Tree) :
    Tree :=
  inner c .zero (Function.update hashes b .zero) (Function.update child b t)

/-- A new inner node with one child. -/
def single (c : ℕ) (b : Fin 16) (t : Tree) : Tree :=
  dirty c (fun _ => .zero) (fun _ => empty) b t

/-- The walk towards a key and back: `atEnd` is applied where the walk ends, at an
empty branch or at a leaf, and `wrap` on the way back at every inner node. -/
def descend {β : Type} (key : Uint256) (atEnd : ℕ → Option LeafNode → Except Fault β)
    (wrap : ℕ → ℕ → Uint256 → (Fin 16 → Uint256) → (Fin 16 → Tree) → β → Except Fault β) :
    ℕ → Tree → Except Fault β
  | d, empty => atEnd d none
  | _, stub => .error .panic
  | d, leaf n => atEnd d (some n)
  | d, inner cowid hash hashes child => do
    enter d (hashes (keyNibble key d)) (child (keyNibble key d))
    let below ← descend key atEnd wrap (d + 1) (child (keyNibble key d))
    wrap d cowid hash hashes child below

/-- The leaf at which the walk towards a key ends, if it ends at a leaf. -/
def walk (key : Uint256) : ℕ → Tree → Except Fault (Option LeafNode) :=
  descend key (fun _ terminal => .ok terminal) fun _ _ _ _ _ terminal => .ok terminal

def find (key : Uint256) (t : Tree) : Except Fault (Option LeafNode) := do
  let terminal ← walk key 0 t
  .ok (terminal.filter fun n => n.item.key = key)

variable (sha : Sha512Half) (c : ℕ) (key : Uint256) (ty : LeafType) (item : SHAMapItem)

def freshLeaf : Except Fault Tree :=
  if minItemBytes ≤ item.size then .ok (leaf ⟨ty, item, c, computeLeafHash sha ty item⟩)
  else .error .panic

/-- The chain of inner nodes from depth `d` down to where the two keys part. -/
def split (c : ℕ) (ty : LeafType) (item existing : SHAMapItem) : ℕ → ℕ → Except Fault Tree
  | 0, _ => .error .panic
  | fuel + 1, d =>
    if keyNibble item.key d ≠ keyNibble existing.key d then do
      let newLeaf ← freshLeaf sha c ty item
      let oldLeaf ← freshLeaf sha c ty existing
      .ok (dirty c (fun _ => .zero)
        (Function.update (fun _ => empty) (keyNibble item.key d) newLeaf)
        (keyNibble existing.key d) oldLeaf)
    else if d < leafDepth then do
      let below ← split c ty item existing fuel (d + 1)
      .ok (single c (keyNibble item.key d) below)
    else .error .panic

/-- Insert below depth `d`; `none` when the key is already there. -/
def add : ℕ → Tree → Except Fault (Option Tree) :=
  descend item.key
    (fun d terminal =>
      match terminal with
      | none => some <$> freshLeaf sha c ty item
      | some n =>
        if n.item.key = item.key then .ok none
        else if n.leafType ≠ ty then .error (.err (.crossTypeChange ty n.leafType))
        else some <$> split sha c ty item n.item (leafDepth + 1) d)
    fun d _ _ hashes child below =>
      .ok (below.map (dirty c hashes child (keyNibble item.key d)))

/-- Replace an item below depth `d`. The flag says whether the leaf's hash
changed; if it did not, a shared leaf keeps its old item, and a leaf owned by `c`
is overwritten without touching the nodes above it. -/
def update : ℕ → Tree → Except Fault (Bool × Tree) :=
  descend item.key
    (fun d terminal =>
      match terminal with
      | none => .error (.err (.missingExactLeaf item.key))
      | some n =>
        if n.item.key ≠ item.key then .error (.err (.missingExactLeaf item.key))
        else if n.leafType ≠ ty then .error (.err (.crossTypeChange ty n.leafType))
        else if n.cowid = c ∨ minItemBytes ≤ n.item.size then
          let next := computeLeafHash sha ty item
          .ok (n.hash != next,
            if n.hash ≠ next ∨ n.cowid = c ∨ d = 0 then leaf ⟨ty, item, c, next⟩ else leaf n)
        else .error .panic)
    fun d cowid hash hashes child (changed, below) =>
      .ok (changed, if changed then dirty c hashes child (keyNibble item.key d) below
        else inner cowid hash hashes (Function.update child (keyNibble item.key d) below))

/-- The branches with a set bit. -/
def branches (child : Fin 16 → Tree) : List (Fin 16) :=
  (List.finRange 16).filter fun b => !(child b).isEmpty

/-- The leaf at the end of a chain of only children. -/
def onlyBelow : Tree → Option LeafNode
  | leaf n => some n
  | inner _ _ _ child =>
    match branches child with
    | [b] => onlyBelow (child b)
    | _ => none
  | _ => none

/-- What replaces an inner node below the root after a child was removed. -/
def settle (t : Tree) (child : Fin 16 → Tree) : Except Fault Tree :=
  match branches child with
  | [] => .ok empty
  | [_] =>
    match onlyBelow t with
    | none => .ok t
    | some n => freshLeaf sha c n.leafType n.item
  | _ => .ok t

/-- Remove a key below depth `d`; `none` when it is not there. -/
def erase : ℕ → Tree → Except Fault (Option Tree) :=
  descend key
    (fun _ terminal =>
      .ok (match terminal with
        | none => none
        | some n => if n.item.key = key then some empty else none))
    fun d _ _ hashes child below =>
      match below with
      | none => .ok none
      | some below =>
        let t := dirty c hashes child (keyNibble key d) below
        if d = 0 then .ok (some t)
        else some <$> settle sha c t (Function.update child (keyNibble key d) below)

/-- `add_item` on a whole tree. -/
def addItem (t : Tree) : Except Fault (Tree × Bool) := do
  match ← add sha c ty item 0 t with
  | none => .ok (t, false)
  | some t => .ok (t, true)

/-- `update_item` on a whole tree. -/
def updateItem (t : Tree) : Except Fault (Tree × Bool) := do
  let (_, t) ← update sha c ty item 0 t
  .ok (t, true)

/-- `delete_item` on a whole tree; a leaf that is the root has no parent to leave. -/
def deleteItem (t : Tree) : Except Fault (Tree × Bool) :=
  match t with
  | leaf n => .ok (leaf n, n.item.key = key)
  | t => do
    match ← erase sha c key 0 t with
    | none => .ok (t, false)
    | some t => .ok (t, true)

/-- A tree after a flush, or its snapshot: every owned node rehashed and shared. -/
def share : Tree → Tree
  | leaf n =>
    if n.cowid = 0 then leaf n
    else leaf { n with cowid := 0, hash := computeLeafHash sha n.leafType n.item }
  | inner cowid hash hashes child =>
    if cowid = 0 then inner cowid hash hashes child
    else
      let hashes' := fun b => if (child b).isLoaded then (child b).share.hash else hashes b
      inner 0 (computeInnerHash sha (branches child).isEmpty hashes') hashes'
        fun b => (child b).share
  | t => t

/-- The number of nodes a flush shares. -/
def flushCount : Tree → ℕ
  | leaf n => if n.cowid = 0 then 0 else 1
  | inner cowid _ _ child =>
    if cowid = 0 then 0 else ((List.finRange 16).map fun b => (child b).flushCount).sum + 1
  | _ => 0

/-- The owned leaves pass the size check of a copy. -/
def clonable : Tree → Bool
  | leaf n => n.cowid = 0 || minItemBytes ≤ n.item.size
  | inner cowid _ _ child => cowid = 0 || (List.finRange 16).all fun b => (child b).clonable
  | _ => true

end Tree

end Quaxar.SHAMap
