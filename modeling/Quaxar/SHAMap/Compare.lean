import Quaxar.SHAMap.Tree

/-!
# Comparing two trees

`compare` walks two trees side by side with an explicit stack of node pairs and
records up to a given number of differing keys. Subtrees with equal hashes are
skipped. The walks read nodes only, apart from the hashes that they fill in and the
children that they load, so they are written on tree values. A walk over nodes that a
`fetch` callback makes up need not end, which is why every loop has a fuel argument.
-/

namespace Quaxar.SHAMap

/-- Where nodes that are not loaded come from. -/
structure NodeSource where
  backed : Bool
  fetch : Uint256 → Option Tree

namespace NodeSource

/-- A tree of loaded nodes. -/
def unbacked : NodeSource := ⟨false, fun _ => none⟩

variable (src : NodeSource) (hashes : Fin 16 → Uint256) (child : Fin 16 → Tree)

/-- `descend` to the child at `b`; `canonicalize_child` asserts that a fetched node
has the stored hash. -/
def descend (b : Fin 16) : Except Fault (Option Tree) :=
  match child b with
  | .empty => .ok none
  | .stub =>
    if src.backed then
      match src.fetch (hashes b) with
      | none => .ok none
      | some node => if node.hash = hashes b then .ok (some node) else .error .panic
    else .ok none
  | node => .ok (some node)

def descendThrow (b : Fin 16) : Except Fault (Option Tree) := do
  let node ← src.descend hashes child b
  if node.isNone && !(child b).isEmpty then
    .error (.err (.traversal (.missingNode (hashes b))))
  else .ok node

/-- A child that the caller expects to be there. -/
def descendExpect (b : Fin 16) : Except Fault Tree := do
  match ← src.descendThrow hashes child b with
  | some node => .ok node
  | none => .error .panic

end NodeSource

abbrev DeltaItem := Option SHAMapItem × Option SHAMapItem

abbrev Delta := Finmap fun _ : Uint256 => DeltaItem

/-- The recorded differences and how many more may be recorded. -/
structure DiffState where
  differences : Delta
  maxCount : ℤ

/-- `record_difference`; the answer says whether the walk can go on. -/
def recordDifference (s : DiffState) (key : Uint256) (left right : Option SHAMapItem) :
    DiffState × Bool :=
  let differences :=
    if key ∈ s.differences then s.differences else s.differences.insert key (left, right)
  (⟨differences, s.maxCount - 1⟩, 0 < s.maxCount - 1)

/-- A difference seen from the map that is being walked. -/
def recordFrom (isFirstMap : Bool) (s : DiffState) (key : Uint256)
    (mine other : Option SHAMapItem) : DiffState × Bool :=
  if isFirstMap then recordDifference s key mine other else recordDifference s key other mine

variable (src : NodeSource)

/-- Push the children of an inner node; the last branch ends up on top. -/
def pushChildren (hashes : Fin 16 → Uint256) (child : Fin 16 → Tree) :
    List (Fin 16) → List Tree → Except Fault (List Tree)
  | [], stack => .ok stack
  | b :: bs, stack =>
    if (child b).isEmpty then pushChildren hashes child bs stack
    else do
      let node ← src.descendExpect hashes child b
      pushChildren hashes child bs (node :: stack)

/-- The loop of `walk_branch`. The flag `emptyBranch` is set once the item of the other
map has been met; the result is the state, the flag and whether the walk went on to its
end. -/
def walkLoop (other : Option SHAMapItem) (isFirstMap : Bool) :
    ℕ → List Tree → Bool → DiffState → Except Fault (DiffState × Bool × Bool)
  | 0, _, _, _ => .error .panic
  | _ + 1, [], emptyBranch, s => .ok (s, emptyBranch, true)
  | fuel + 1, .inner _ _ hashes child :: stack, emptyBranch, s => do
    let stack ← pushChildren src hashes child (List.finRange 16) stack
    walkLoop other isFirstMap fuel stack emptyBranch s
  | fuel + 1, .leaf n :: stack, emptyBranch, s =>
    if emptyBranch then
      match recordFrom isFirstMap s n.item.key (some n.item) none with
      | (s, true) => walkLoop other isFirstMap fuel stack emptyBranch s
      | (s, false) => .ok (s, emptyBranch, false)
    else
      match other with
      | none => .error .panic
      | some otherItem =>
        if n.item.key ≠ otherItem.key then
          match recordFrom isFirstMap s n.item.key (some n.item) none with
          | (s, true) => walkLoop other isFirstMap fuel stack emptyBranch s
          | (s, false) => .ok (s, emptyBranch, false)
        else if n.item.data ≠ otherItem.data then
          match recordFrom isFirstMap s n.item.key (some n.item) (some otherItem) with
          | (s, true) => walkLoop other isFirstMap fuel stack true s
          | (s, false) => .ok (s, emptyBranch, false)
        else walkLoop other isFirstMap fuel stack true s
  | _ + 1, _ :: _, _, _ => .error .panic

/-- The end of `walk_branch`: an item of the other map that was not met is recorded. -/
def finishWalk (other : Option SHAMapItem) (isFirstMap : Bool) :
    DiffState × Bool × Bool → Except Fault (DiffState × Bool)
  | (s, _, false) => .ok (s, false)
  | (s, true, true) => .ok (s, true)
  | (s, false, true) =>
    match other with
    | none => .error .panic
    | some otherItem => .ok (recordFrom isFirstMap s otherItem.key none (some otherItem))

/-- `walk_branch`: everything below `node` is on one side only, but for the key of
`other`. -/
def walkBranch (fuel : ℕ) (node : Tree) (other : Option SHAMapItem) (isFirstMap : Bool)
    (s : DiffState) : Except Fault (DiffState × Bool) := do
  let walked ← walkLoop src other isFirstMap fuel [node] other.isNone s
  finishWalk other isFirstMap walked

variable (left right : NodeSource) (walkFuel : ℕ)

/-- Two leaves at the same place. -/
def compareLeaves (leftItem rightItem : SHAMapItem) (s : DiffState) : DiffState × Bool :=
  if leftItem.key = rightItem.key then
    if leftItem.data ≠ rightItem.data then
      recordDifference s leftItem.key (some leftItem) (some rightItem)
    else (s, true)
  else
    match recordDifference s leftItem.key (some leftItem) none with
    | (s, true) => recordDifference s rightItem.key none (some rightItem)
    | (s, false) => (s, false)

/-- The branch loop of `compare` over two inner nodes. -/
def compareBranches (lHashes : Fin 16 → Uint256) (lChild : Fin 16 → Tree)
    (rHashes : Fin 16 → Uint256) (rChild : Fin 16 → Tree) :
    List (Fin 16) → List (Tree × Tree) → DiffState →
      Except Fault (List (Tree × Tree) × DiffState × Bool)
  | [], stack, s => .ok (stack, s, true)
  | b :: bs, stack, s =>
    if lHashes b = rHashes b then compareBranches lHashes lChild rHashes rChild bs stack s
    else if (rChild b).isEmpty then do
      let node ← left.descendExpect lHashes lChild b
      match ← walkBranch left walkFuel node none true s with
      | (s, true) => compareBranches lHashes lChild rHashes rChild bs stack s
      | (s, false) => .ok (stack, s, false)
    else if (lChild b).isEmpty then do
      let node ← right.descendExpect rHashes rChild b
      match ← walkBranch right walkFuel node none false s with
      | (s, true) => compareBranches lHashes lChild rHashes rChild bs stack s
      | (s, false) => .ok (stack, s, false)
    else do
      let leftNode ← left.descendExpect lHashes lChild b
      let rightNode ← right.descendExpect rHashes rChild b
      compareBranches lHashes lChild rHashes rChild bs ((leftNode, rightNode) :: stack) s

/-- The main loop of `compare`. -/
def compareLoop : ℕ → List (Tree × Tree) → DiffState → Except Fault (DiffState × Bool)
  | 0, _, _ => .error .panic
  | _ + 1, [], s => .ok (s, true)
  | fuel + 1, (.leaf l, .leaf r) :: stack, s =>
    match compareLeaves l.item r.item s with
    | (s, true) => compareLoop fuel stack s
    | (s, false) => .ok (s, false)
  | fuel + 1, (.inner c h hs child, .leaf r) :: stack, s => do
    match ← walkBranch left walkFuel (.inner c h hs child) (some r.item) true s with
    | (s, true) => compareLoop fuel stack s
    | (s, false) => .ok (s, false)
  | fuel + 1, (.leaf l, .inner c h hs child) :: stack, s => do
    match ← walkBranch right walkFuel (.inner c h hs child) (some l.item) false s with
    | (s, true) => compareLoop fuel stack s
    | (s, false) => .ok (s, false)
  | fuel + 1, (.inner _ _ lHashes lChild, .inner _ _ rHashes rChild) :: stack, s => do
    match ← compareBranches left right walkFuel lHashes lChild rHashes rChild (List.finRange 16)
        stack s with
    | (stack, s, true) => compareLoop fuel stack s
    | (_, s, false) => .ok (s, false)
  | _ + 1, _ :: _, _ => .error .panic

variable (sha : Sha512Half)

/-- `ensure_loaded_hashes`: fill in the hashes that are still zero. -/
def Tree.ensureLoadedHashes : Tree → Tree
  | .leaf n =>
    if n.hash ≠ BaseUInt.zero then .leaf n
    else .leaf { n with hash := computeLeafHash sha n.leafType n.item }
  | .inner cowid hash hashes child =>
    if hash ≠ BaseUInt.zero then .inner cowid hash hashes child
    else
      let hashes' := fun b =>
        if (child b).isLoaded then (child b).ensureLoadedHashes.hash else hashes b
      .inner cowid (computeInnerHash sha (Tree.branches child).isEmpty hashes') hashes'
        fun b => (child b).ensureLoadedHashes
  | t => t

def compare (fuel : ℕ) (leftRoot rightRoot : Tree) (left right : NodeSource)
    (differences : Delta) (maxCount : ℤ) : Except Fault (DiffState × Bool) :=
  let leftRoot := leftRoot.ensureLoadedHashes sha
  let rightRoot := rightRoot.ensureLoadedHashes sha
  if leftRoot.hash = rightRoot.hash then .ok (⟨differences, maxCount⟩, true)
  else compareLoop left right fuel fuel [(leftRoot, rightRoot)] ⟨differences, maxCount⟩

end Quaxar.SHAMap
