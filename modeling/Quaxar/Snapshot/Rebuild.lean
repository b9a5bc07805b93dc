import Quaxar.Lib.Except
import Quaxar.Lib.TrieZipper
import Quaxar.Snapshot.Builder
import Quaxar.SHAMap.ItemMap
import Quaxar.SHAMap.Merkle

/-!
# The rebuilt map

The builder's open nodes are the frames of a trie under construction, each with the Merkle
hashes of its finished children. For leaves in ascending key order it emits the inner nodes
of the canonical map, children before parents, and returns the root hash.
-/

namespace Quaxar.Snapshot

open RadixTrie SHAMap
open Function (update)
open List (append_assoc finRange foldlM_cons length_cons map_cons mem_append mem_finRange
  mem_flatMap)

theorem nibble_eq_keyNibble (key : Uint256) {d : ℕ} (hd : d < leafDepth) :
    nibble key d = keyNibble key d := by
  have hmin : min d (leafDepth - 1) = d := by
    omega
  simp only [nibble, keyNibble, hmin]
  rcases Nat.mod_two_eq_zero_or_one d with h | h
  · simp [h]
  · simp [h]

theorem land_high_eq_zero : ∀ n : Fin 256, n.val &&& 0xF0 = 0 ↔ n.val / 16 = 0 := by
  decide +kernel

theorem xor_high_eq_zero (x y : UInt8) :
    (x ^^^ y) &&& 0xF0 = 0 ↔ x.toNat / 16 = y.toNat / 16 := by
  have hland := land_high_eq_zero ⟨(x ^^^ y).toNat, (x ^^^ y).toNat_lt⟩
  have hdiv : ∀ n : ℕ, n / 16 = n >>> 4 := fun n => (Nat.shiftRight_eq_div_pow n 4).symm
  rw [← UInt8.toNat_inj, UInt8.toNat_and]
  change (x ^^^ y).toNat &&& 0xF0 = 0 ↔ _
  rw [hland]
  simp only [UInt8.toNat_xor]
  rw [hdiv, hdiv, hdiv, Nat.shiftRight_xor_distrib, Nat.xor_eq_zero_iff]

/-- The first byte in which two byte strings differ. -/
theorem commonPrefixFrom_eq (xs : List UInt8) : ∀ (ys : List UInt8) (i : ℕ),
    xs.length = ys.length → xs.map UInt8.toNat < ys.map UInt8.toNat →
    ∃ j < xs.length, (∀ m < j, xs.getD m 0 = ys.getD m 0) ∧
      (xs.getD j 0).toNat < (ys.getD j 0).toNat ∧
      commonPrefixFrom i xs ys =
        (i + j) * 2 + if (xs.getD j 0).toNat / 16 = (ys.getD j 0).toNat / 16 then 1 else 0 := by
  induction xs with
  | nil =>
    intro ys i hlen hlt
    obtain rfl := List.length_eq_zero_iff.mp hlen.symm
    exact absurd hlt (lt_irrefl _)
  | cons x xs ih =>
    intro ys i hlen hlt
    rcases ys with _ | ⟨y, ys⟩
    · simp at hlen
    rw [map_cons, map_cons, List.cons_lt_cons_iff] at hlt
    rcases hlt with hxy | ⟨hxy, hlt⟩
    · refine ⟨0, by simp, by simp, hxy, ?_⟩
      have hne : x ^^^ y ≠ 0 := by
        rw [Ne, UInt8.xor_eq_zero_iff]
        rintro rfl
        exact lt_irrefl _ hxy
      simp only [commonPrefixFrom, if_pos hne, xor_high_eq_zero, Nat.add_zero]
      rfl
    · obtain rfl := UInt8.toNat_inj.mp hxy
      obtain ⟨j, hj, hsame, hdiff, heq⟩ := ih ys (i + 1) (by simpa using hlen) hlt
      refine ⟨j + 1, by simpa using hj, ?_, hdiff, ?_⟩
      · intro m hm
        cases m with
        | zero => rfl
        | succ m => exact hsame m (by omega)
      · have hself : ¬x ^^^ x ≠ 0 := by simp
        simp only [commonPrefixFrom, if_neg hself]
        rw [heq]
        rw [Nat.add_assoc, Nat.add_comm 1 j]
        rfl

/-- Below the common prefix the smaller key has the smaller nibble. -/
theorem commonPrefix_spec {a b : Uint256} (h : a < b) :
    commonPrefix a b < leafDepth ∧
      (∀ i < commonPrefix a b, keyNibble b i = keyNibble a i) ∧
      keyNibble a (commonPrefix a b) < keyNibble b (commonPrefix a b) := by
  obtain ⟨j, hj, hsame, hdiff, heq⟩ := commonPrefixFrom_eq a.data b.data 0 (by simp) h
  rw [Nat.zero_add] at heq
  rw [a.length_data] at hj
  have hnib : ∀ (key : Uint256) (d : ℕ), d < leafDepth → (keyNibble key d).val =
      if d % 2 = 0 then (key.data.getD (d / 2) 0).toNat / 16
      else (key.data.getD (d / 2) 0).toNat % 16 := by
    intro key d hd
    rw [← nibble_eq_keyNibble key hd, nibble]
    split_ifs <;> rfl
  have hlcp : commonPrefix a b = j * 2 + _ := heq
  have hlt : commonPrefix a b < leafDepth := by
    rw [hlcp]
    unfold leafDepth
    split_ifs <;> omega
  refine ⟨hlt, ?_, ?_⟩
  · intro i hi
    apply Fin.ext
    rw [hnib b i (hi.trans hlt), hnib a i (hi.trans hlt)]
    rcases Nat.lt_or_ge (i / 2) j with hij | hij
    · rw [hsame _ hij]
    · split_ifs at hlcp with hhigh
      · have hi2 : i = 2 * j := by omega
        rw [hi2, Nat.mul_mod_right, Nat.mul_div_cancel_left j two_pos, if_pos rfl, if_pos rfl,
          hhigh]
      · omega
  · rw [Fin.lt_def, hnib a _ hlt, hnib b _ hlt]
    split_ifs at hlcp with hhigh
    · rw [hlcp, show (j * 2 + 1) / 2 = j by omega, show (j * 2 + 1) % 2 = 1 by omega]
      simp only [one_ne_zero, if_false]
      omega
    · rw [hlcp, show (j * 2 + 0) / 2 = j by omega, show (j * 2 + 0) % 2 = 0 by omega]
      simp only [if_true]
      omega

variable (sha : Sha512Half) (ty : LeafType)

/-- The leaves of a map are of one type. -/
def typed : Trie (Fin 16) SHAMapItem → MerkleTrie
  | .empty => .empty
  | .leaf item => .leaf ⟨ty, item⟩
  | .inner child => .inner fun b => typed (child b)

/-- The hash of the node that heads a trie of items. -/
def trieHash (t : Trie (Fin 16) SHAMapItem) : Uint256 := merkleHash sha (typed ty t)

/-- An inner node of the map. -/
def builtInner (child : Fin 16 → Trie (Fin 16) SHAMapItem) : BuiltNode :=
  innerNode sha fun b => trieHash sha ty (child b)

theorem typed_eq_empty_iff {ty : LeafType} {t : Trie (Fin 16) SHAMapItem} :
    typed ty t = .empty ↔ t = .empty := by
  cases t <;> simp [typed]

variable {sha ty} {child : Fin 16 → Trie (Fin 16) SHAMapItem}

theorem trieHash_inner (h : ∃ a, Mem a (.inner child)) :
    trieHash sha ty (.inner child) = (builtInner sha ty child).hash := by
  obtain ⟨a, b, ha⟩ := h
  have hb : typed ty (child b) ≠ .empty := by
    rw [Ne, typed_eq_empty_iff]
    intro hempty
    rw [hempty] at ha
    exact ha
  rw [trieHash, typed, merkleHash_inner_of_ne hb]
  rfl

variable (sha : Sha512Half) (ty : LeafType)

/-- The open nodes have the hashes of the frames' children, and keys on the path `k`. -/
def Matches (k : ℕ → Fin 16) : List Open → List (Fin 16 → Trie (Fin 16) SHAMapItem) → Prop
  | [], [] => True
  | node :: path, child :: frames =>
    (node.children = fun b => trieHash sha ty (child b)) ∧
      (∀ i < frames.length, keyNibble node.pathKey i = k i) ∧ Matches k path frames
  | _, _ => False

/-- The builder after the leaf `last` was pushed. -/
structure Represents (builder : SortedLeafBuilder) (last : SHAMapItem)
    (frames : List (Fin 16 → Trie (Fin 16) SHAMapItem)) : Prop where
  pending_eq : builder.pending = some (last.key, computeLeafHash sha ty last)
  lcp_eq : builder.pendingPrevLcp = frames.length - 1
  path : Matches sha ty (itemDigits last) builder.path frames
  unfinished : Frames itemDigits (itemDigits last) frames
  deepest : ∀ child rest, frames = child :: rest → ∃ a, Mem a (.inner child)
  bounded : frames.length ≤ leafDepth

variable {sha ty} {k k' : ℕ → Fin 16} {path : List Open}
  {frames : List (Fin 16 → Trie (Fin 16) SHAMapItem)}

theorem Matches.length_eq (h : Matches sha ty k path frames) :
    path.length = frames.length := by
  induction path generalizing frames with
  | nil =>
    cases frames with
    | nil => rfl
    | cons _ _ => exact h.elim
  | cons node path ih =>
    cases frames with
    | nil => exact h.elim
    | cons child frames => simp [ih h.2.2]

theorem Matches.congr (h : Matches sha ty k path frames)
    (hk : ∀ i, i + 1 < frames.length → k' i = k i) : Matches sha ty k' path frames := by
  induction path generalizing frames with
  | nil =>
    cases frames with
    | nil => trivial
    | cons _ _ => exact h.elim
  | cons node path ih =>
    cases frames with
    | nil => exact h.elim
    | cons child frames =>
      obtain ⟨hchildren, hkey, hrest⟩ := h
      simp only [length_cons] at hk
      refine ⟨hchildren, ?_, ih hrest fun i hi => hk i (by omega)⟩
      intro i hi
      rw [hkey i hi, hk i (by omega)]

/-- A node with a hash for a new child matches the frame with the new child. -/
theorem trieHash_update (child : Fin 16 → Trie (Fin 16) SHAMapItem) (b : Fin 16)
    (t : Trie (Fin 16) SHAMapItem) :
    (fun b' => trieHash sha ty (update child b t b')) =
      update (fun b' => trieHash sha ty (child b')) b
        (trieHash sha ty t) := by
  funext b'
  by_cases hb : b' = b
  · subst hb
    simp
  · simp [hb]

variable {items : List SHAMapItem} {σ : Type} {emit : BuiltNode → EStateM String σ Unit}

/-- The digits of a key in ascending order. -/
abbrev branchList : List (Fin 16) := finRange 16

theorem branchList_sorted : branchList.Pairwise (· < ·) := List.pairwise_lt_finRange 16

/-- Emit the nodes of the map one after another. -/
def emitAll (sha : Sha512Half) (ty : LeafType)
    (emit : BuiltNode → EStateM String σ Unit)
    (nodes : List (Fin 16 → Trie (Fin 16) SHAMapItem)) : EStateM String σ Unit :=
  (nodes.map (builtInner sha ty)).forM emit

theorem emitAll_append (xs ys : List (Fin 16 → Trie (Fin 16) SHAMapItem)) :
    emitAll sha ty emit (xs ++ ys) =
      (do emitAll sha ty emit xs; emitAll sha ty emit ys) := by
  simp [emitAll]

theorem emitAll_singleton (child : Fin 16 → Trie (Fin 16) SHAMapItem) :
    emitAll sha ty emit [child] = emit (builtInner sha ty child) := by
  simp [emitAll]

variable {builder : SortedLeafBuilder} {last item : SHAMapItem} {t : Trie (Fin 16) SHAMapItem}

/-- The builder while the subtrie `t` is in its deepest frame. -/
structure Closing (sha : Sha512Half) (ty : LeafType) (k : ℕ → Fin 16)
    (builder : SortedLeafBuilder) (t : Trie (Fin 16) SHAMapItem)
    (child : Fin 16 → Trie (Fin 16) SHAMapItem)
    (frames : List (Fin 16 → Trie (Fin 16) SHAMapItem)) : Prop where
  attaches : Attaches itemDigits k t (child :: frames)
  path : Matches sha ty k builder.path
    (update child (k frames.length) t :: frames)

/-- The deepest node is emitted and becomes a subtrie of its parent. -/
theorem Closing.closeDeepest (emit : BuiltNode → EStateM String σ Unit)
    {parent : Fin 16 → Trie (Fin 16) SHAMapItem}
    (h : Closing sha ty k builder t child (parent :: frames))
    (hbound : frames.length < leafDepth)
    (htwo : Branching itemDigits (.inner (update child (k (parent :: frames).length) t))) :
    ∃ builder', SortedLeafBuilder.closeDeepest sha emit builder =
        (do emitAll sha ty emit [update child (k (parent :: frames).length) t]
            pure builder') ∧
      Closing sha ty k builder'
        (.inner (update child (k (parent :: frames).length) t)) parent frames := by
  have hpath := h.path
  rcases hp : builder.path with _ | ⟨node, _ | ⟨above, path⟩⟩
  · rw [hp] at hpath
    exact hpath.elim
  · rw [hp] at hpath
    exact hpath.2.2.elim
  rw [hp] at hpath
  obtain ⟨hnode, hkey, habove, hkey', hrest⟩ := hpath
  have hlen := hrest.length_eq
  have hbranch : nibble node.pathKey path.length = k frames.length := by
    rw [hlen, nibble_eq_keyNibble _ hbound]
    exact hkey _ (by simp)
  have hbuilt : innerNode sha node.children =
      builtInner sha ty (update child (k (parent :: frames).length) t) := by
    rw [hnode]
    rfl
  have hmem : ∃ a, Mem a (.inner (update child (k (parent :: frames).length) t)) := by
    obtain ⟨a, -, ha, -⟩ := htwo
    exact ⟨a, ha⟩
  let built := builtInner sha ty (update child (k (parent :: frames).length) t)
  refine ⟨{ builder with
    path := { above with children := update above.children (k frames.length) built.hash } ::
      path
    inners := builder.inners + 1 }, ?_, h.attaches.close htwo, ?_, hkey', hrest⟩
  · rw [SortedLeafBuilder.closeDeepest, hp]
    simp only [hbuilt, hbranch, emitAll_singleton, built]
  · rw [trieHash_update, ← habove, trieHash_inner hmem]

theorem Closing.closeMany (emit : BuiltNode → EStateM String σ Unit) :
    ∀ (count : ℕ) {builder : SortedLeafBuilder}
    {t : Trie (Fin 16) SHAMapItem} {child : Fin 16 → Trie (Fin 16) SHAMapItem}
    {frames : List (Fin 16 → Trie (Fin 16) SHAMapItem)},
    Closing sha ty k builder t child frames → count ≤ frames.length →
    frames.length ≤ leafDepth →
    (count ≠ 0 → Branching itemDigits (.inner (update child (k frames.length) t))) →
    ∃ builder' t' child' frames' nodes,
      SortedLeafBuilder.closeMany sha emit count builder =
        (do emitAll sha ty emit nodes
            pure builder') ∧
      Closing sha ty k builder' t' child' frames' ∧
      frames'.length + count = frames.length ∧
      (∀ a, Mem a t' ∨ MemFrames a (child' :: frames') ↔ Mem a t ∨ MemFrames a (child :: frames)) ∧
      framesBelow branchList (child' :: frames') ++ postorder branchList t' =
        framesBelow branchList (child :: frames) ++ postorder branchList t ++ nodes := by
  intro count
  induction count with
  | zero =>
    intro builder t child frames h _ _ _
    refine ⟨builder, t, child, frames, [], ?_, h, rfl, fun _ => Iff.rfl, by simp⟩
    simp [SortedLeafBuilder.closeMany, emitAll]
  | succ count ih =>
    intro builder t child frames h hcount hbound htwo
    rcases frames with _ | ⟨parent, frames⟩
    · simp at hcount
    simp only [length_cons] at hcount hbound
    have htwo' := htwo (by omega)
    obtain ⟨builder₁, hclose, h₁⟩ := h.closeDeepest emit (by omega) htwo'
    obtain ⟨builder', t', child', frames', nodes, hmany, h', hlen, hmem, hpost⟩ :=
      ih h₁ (by omega) (by omega) fun _ => htwo'.update _
    refine ⟨builder', t', child', frames',
      update child (k (parent :: frames).length) t :: nodes, ?_, h', ?_, ?_, ?_⟩
    · rw [SortedLeafBuilder.closeMany, hclose]
      simp only [bind_assoc, pure_bind, hmany]
      rw [← bind_assoc, ← emitAll_append]
      rfl
    · simp only [length_cons]
      omega
    · intro a
      rw [hmem a, h.attaches.memFrames_close a]
    · rw [hpost, postorder_inner, postorderBelow_update branchList_sorted (mem_finRange _)
        h.attaches.isFrame.after]
      simp [framesBelow]

/-- Frames without children, for nodes that have just been opened. -/
def emptyFrames (count : ℕ) (frames : List (Fin 16 → Trie (Fin 16) SHAMapItem)) :
    List (Fin 16 → Trie (Fin 16) SHAMapItem) :=
  List.replicate count (fun _ => .empty) ++ frames

theorem postorderBelow_empty :
    postorderBelow branchList (fun _ => (.empty : Trie (Fin 16) SHAMapItem)) = [] := by
  simp [postorderBelow, postorder]

theorem emptyFrames_spec (hpath : Matches sha ty (itemDigits last) path frames)
    (hframes : Frames itemDigits (itemDigits last) frames) (count : ℕ) :
    Matches sha ty (itemDigits last)
        (List.replicate count ⟨last.key, fun _ => .zero⟩ ++ path)
        (emptyFrames count frames) ∧
      Frames itemDigits (itemDigits last) (emptyFrames count frames) ∧
      (∀ a, MemFrames a (emptyFrames count frames) ↔ MemFrames a frames) ∧
      framesBelow branchList (emptyFrames count frames) = framesBelow branchList frames := by
  induction count with
  | zero => exact ⟨hpath, hframes, fun _ => Iff.rfl, rfl⟩
  | succ count ih =>
    obtain ⟨hmatch, hall, hmem, hbelow⟩ := ih
    refine ⟨⟨rfl, fun _ _ => rfl, hmatch⟩, ⟨isFrame_empty, hall⟩, ?_, ?_⟩
    · intro a
      rw [← hmem a]
      simp only [emptyFrames, List.replicate_succ, List.cons_append, MemFrames, List.mem_cons,
        exists_eq_or_imp, or_iff_right_iff_imp]
      rintro ⟨_, h⟩
      exact h.elim
    · rw [← hbelow]
      simp [emptyFrames, List.replicate_succ, framesBelow, postorderBelow_empty]

theorem closing_placeLeaf (builder : SortedLeafBuilder)
    (hpath : Matches sha ty (itemDigits last) builder.path frames)
    (hframes : Frames itemDigits (itemDigits last) frames) {depth : ℕ}
    (hdepth : frames.length ≤ depth + 1) (hbound : depth < leafDepth) :
    ∃ child rest, child :: rest = emptyFrames (depth + 1 - frames.length) frames ∧
      rest.length = depth ∧
      Closing sha ty (itemDigits last)
        (builder.placeLeaf last.key (computeLeafHash sha ty last) depth)
        (.leaf last) child rest := by
  obtain ⟨hmatch, hall, -, -⟩ :=
    emptyFrames_spec hpath hframes (depth + 1 - frames.length)
  have hlen : (emptyFrames (depth + 1 - frames.length) frames).length = depth + 1 := by
    simp only [emptyFrames, List.length_append, List.length_replicate]
    omega
  rcases hcons : emptyFrames (depth + 1 - frames.length) frames with _ | ⟨child, rest⟩
  · rw [hcons] at hlen
    simp at hlen
  rw [hcons] at hmatch hall hlen
  have hrest : rest.length = depth := by simpa using hlen
  refine ⟨child, rest, rfl, hrest, ⟨hall, trivial, ?_, last, rfl⟩, ?_⟩
  · rintro a rfl i _
    rfl
  · have hopen : SortedLeafBuilder.openTo last.key depth builder.path =
        List.replicate (depth + 1 - frames.length) ⟨last.key, fun _ => .zero⟩ ++
          builder.path := by
      rw [SortedLeafBuilder.openTo, hpath.length_eq]
    rw [← hopen] at hmatch
    have hplen := hmatch.length_eq
    rcases hp : SortedLeafBuilder.openTo last.key depth builder.path with _ | ⟨node, path⟩
    · rw [hp] at hmatch
      exact hmatch.elim
    rw [hp] at hmatch hplen
    obtain ⟨hnode, hkey, htail⟩ := hmatch
    have hindex : (node :: path).length - 1 - depth = 0 := by
      omega
    simp only [SortedLeafBuilder.placeLeaf, SortedLeafBuilder.setChild, hp, hindex]
    refine ⟨?_, hkey, htail⟩
    rw [trieHash_update, ← hnode, nibble_eq_keyNibble _ hbound, hrest]
    rfl

/-- The last leaf is placed, and the nodes deeper than `l` are closed. -/
theorem Represents.settle (h : Represents sha ty builder last frames)
    (emit : BuiltNode → EStateM String σ Unit) {l : ℕ} (hl : l < leafDepth)
    (start : SortedLeafBuilder) (hstart : start.path = builder.path) :
    ∃ builder' t child frames' nodes,
      SortedLeafBuilder.closeDeeperThan sha emit l (start.placeLeaf last.key
          (computeLeafHash sha ty last) (max builder.pendingPrevLcp l)) =
        (do emitAll sha ty emit nodes
            pure builder') ∧
      Closing sha ty (itemDigits last) builder' t child frames' ∧ frames'.length = l ∧
      (∀ a, MemFrames a (update child (itemDigits last frames'.length) t :: frames') ↔
        a = last ∨ MemFrames a frames) ∧
      framesBelow branchList (update child (itemDigits last frames'.length) t :: frames') =
        framesBelow branchList frames ++ nodes := by
  have hbound := h.bounded
  have hdepth : frames.length ≤ max builder.pendingPrevLcp l + 1 := by
    rw [h.lcp_eq]
    omega
  have hmax : max builder.pendingPrevLcp l < leafDepth := by
    rw [h.lcp_eq]
    omega
  obtain ⟨child, rest, hcons, hrest, hclosing⟩ := closing_placeLeaf start
    (hstart ▸ h.path) h.unfinished hdepth hmax
  obtain ⟨-, -, hmem, hbelow⟩ := emptyFrames_spec h.path h.unfinished
    (max builder.pendingPrevLcp l + 1 - frames.length)
  rw [← hcons] at hmem hbelow
  have hplen := hclosing.path.length_eq
  rw [length_cons, hrest] at hplen
  -- a node is closed only if the path is left above the deepest one, which has another leaf
  have htwo : max builder.pendingPrevLcp l - l ≠ 0 → Branching itemDigits
      (.inner (update child (itemDigits last rest.length) (.leaf last))) := by
    intro hcount
    have hfull : max builder.pendingPrevLcp l + 1 - frames.length = 0 := by
      rw [h.lcp_eq] at hcount ⊢
      omega
    refine hclosing.attaches.branching (h.deepest child rest ?_)
    rw [hcons, hfull]
    rfl
  obtain ⟨builder', t, child', frames', nodes, hclose, hclosing', hlen, hitems, hpost⟩ :=
    hclosing.closeMany emit (max builder.pendingPrevLcp l - l) (by omega)
      (by rw [hrest]; exact hmax.le) htwo
  refine ⟨builder', t, child', frames', nodes, ?_, hclosing', by omega, ?_, ?_⟩
  · rw [SortedLeafBuilder.closeDeeperThan, hplen, Nat.add_sub_add_right]
    exact hclose
  · intro a
    have hall := hitems a
    rw [hmem a, ← hclosing'.attaches.memFrames_close a] at hall
    simpa [MemFrames] using hall
  · rw [framesBelow, postorderBelow_update branchList_sorted (mem_finRange _)
      hclosing'.attaches.isFrame.after, ← append_assoc, ← framesBelow, hpost, hbelow]
    simp [postorder]

theorem Represents.push (h : Represents sha ty builder last frames)
    (emit : BuiltNode → EStateM String σ Unit) (hlt : last.key < item.key) :
    ∃ builder' frames' nodes,
      SortedLeafBuilder.push sha emit builder item.key (computeLeafHash sha ty item) =
        (do emitAll sha ty emit nodes
            pure builder') ∧
      Represents sha ty builder' item frames' ∧
      (∀ a, MemFrames a frames' ↔ a = last ∨ MemFrames a frames) ∧
      framesBelow branchList frames' = framesBelow branchList frames ++ nodes := by
  obtain ⟨hlcp, hsame, hdigit⟩ := commonPrefix_spec hlt
  obtain ⟨builder', t, child, frames', nodes, hclose, hclosing, hlen, hitems, hbelow⟩ :=
    h.settle emit hlcp { builder with leaves := builder.leaves + 1, pending := none } rfl
  refine ⟨{ builder' with
    pending := some (item.key, computeLeafHash sha ty item)
    pendingPrevLcp := commonPrefix last.key item.key },
    update child (itemDigits last frames'.length) t :: frames', nodes, ?_,
    ⟨rfl, by simp [hlen], ?_, ?_, ?_, ?_⟩, hitems, hbelow⟩
  · rw [SortedLeafBuilder.push, h.pending_eq]
    simp only [if_neg (not_le.mpr hlt)]
    rw [hclose]
    simp only [bind_assoc, pure_bind]
  · refine hclosing.path.congr ?_
    intro i hi
    exact hsame i (by simp only [length_cons] at hi; omega)
  · refine hclosing.attaches.advance ?_ ?_
    · intro i hi
      exact hsame i (by omega)
    · rw [hlen]
      exact hdigit
  · rintro child rest ⟨⟩
    obtain ⟨a, ha⟩ := hclosing.attaches.exists_mem
    exact ⟨a, (hclosing.attaches.isFrame.mem_update a).mpr (.inl ha)⟩
  · simp only [length_cons, hlen]
    omega

theorem Represents.finish (h : Represents sha ty builder last frames)
    (emit : BuiltNode → EStateM String σ Unit) :
    ∃ root nodes, SortedLeafBuilder.finish sha emit builder =
        (do emitAll sha ty emit nodes
            pure (builtInner sha ty root).hash) ∧
      Sorted itemDigits 0 root ∧
      (∀ a, Mem a (.inner root) ↔ a = last ∨ MemFrames a frames) ∧
      postorder branchList (.inner root) = framesBelow branchList frames ++ nodes := by
  obtain ⟨builder', t, child, frames', nodes, hclose, hclosing, hlen, hitems, hbelow⟩ :=
    h.settle emit (l := 0) (by decide) { builder with pending := none } rfl
  obtain rfl := List.length_eq_zero_iff.mp hlen
  rw [Nat.max_zero] at hclose
  have hpath := hclosing.path
  rcases hp : builder'.path with _ | ⟨node, path⟩
  · rw [hp] at hpath
    exact hpath.elim
  rw [hp] at hpath
  have hbuilt : innerNode sha node.children =
      builtInner sha ty (update child (itemDigits last 0) t) := by
    rw [hpath.1]
    rfl
  refine ⟨update child (itemDigits last 0) t,
    nodes ++ [update child (itemDigits last 0) t], ?_, hclosing.attaches.sorted_update,
    ?_, ?_⟩
  · rw [SortedLeafBuilder.finish, h.pending_eq]
    simp only []
    rw [hclose]
    simp only [bind_assoc, pure_bind, hp, hbuilt, emitAll_append, emitAll_singleton]
  · intro a
    simpa [MemFrames] using hitems a
  · simp only [framesBelow, List.nil_append, List.length_nil] at hbelow
    rw [postorder_inner, hbelow, append_assoc]

/-- The leaf that is pushed for an item. -/
def pushedLeaf (sha : Sha512Half) (ty : LeafType) (item : SHAMapItem) :
    Uint256 × Uint256 :=
  (item.key, computeLeafHash sha ty item)

theorem Represents.pushAll (emit : BuiltNode → EStateM String σ Unit) (items : List SHAMapItem) :
    ∀ {builder : SortedLeafBuilder} {last : SHAMapItem}
      {frames : List (Fin 16 → Trie (Fin 16) SHAMapItem)},
      Represents sha ty builder last frames →
      (last :: items).Pairwise (fun x y => x.key < y.key) →
      ∃ builder' last' frames' nodes,
        SortedLeafBuilder.pushAll sha emit builder (items.map (pushedLeaf sha ty)) =
          (do emitAll sha ty emit nodes
              pure builder') ∧
        Represents sha ty builder' last' frames' ∧
        (∀ a, a = last' ∨ MemFrames a frames' ↔ (a = last ∨ MemFrames a frames) ∨ a ∈ items) ∧
        framesBelow branchList frames' = framesBelow branchList frames ++ nodes := by
  induction items with
  | nil =>
    intro builder last frames h _
    refine ⟨builder, last, frames, [], ?_, h, by simp, by simp⟩
    simp [SortedLeafBuilder.pushAll, emitAll]
  | cons item items ih =>
    intro builder last frames h hsort
    obtain ⟨hhead, htail⟩ := List.pairwise_cons.mp hsort
    obtain ⟨builder₁, frames₁, nodes₁, hpush, h₁, hitems₁, hbelow₁⟩ :=
      h.push emit (hhead item List.mem_cons_self)
    obtain ⟨builder', last', frames', nodes, hall, h', hitems, hbelow⟩ := ih h₁ htail
    refine ⟨builder', last', frames', nodes₁ ++ nodes, ?_, h', ?_, ?_⟩
    · simp only [SortedLeafBuilder.pushAll, map_cons, foldlM_cons] at hall ⊢
      simp only [pushedLeaf] at hall ⊢
      rw [hpush]
      simp only [bind_assoc, pure_bind, hall, emitAll_append]
    · intro a
      rw [hitems a, hitems₁ a, List.mem_cons]
      tauto
    · rw [hbelow, hbelow₁, append_assoc]

theorem rebuild_eq (ty : LeafType) (emit : BuiltNode → EStateM String σ Unit)
    (hsort : items.Pairwise fun x y => x.key < y.key) (hne : items ≠ []) :
    ∃ root, SortedLeafBuilder.rebuild sha emit (items.map (pushedLeaf sha ty)) =
        (do emitAll sha ty emit (postorder branchList (.inner root))
            pure (builtInner sha ty root).hash) ∧
      Sorted itemDigits 0 root ∧ ∀ a, Mem a (.inner root) ↔ a ∈ items := by
  obtain ⟨item, items, rfl⟩ := List.exists_cons_of_ne_nil hne
  let first : SortedLeafBuilder :=
    ⟨[], some (item.key, computeLeafHash sha ty item), 0, 1, 0⟩
  have hfirst : Represents sha ty first item [] :=
    ⟨rfl, rfl, trivial, trivial, by simp, by simp⟩
  obtain ⟨builder, last, frames, nodes, hall, h, hitems, hbelow⟩ :=
    hfirst.pushAll emit items hsort
  obtain ⟨root, nodes', hfinish, hroot, hmem, hpost⟩ := h.finish emit
  refine ⟨root, ?_, hroot, ?_⟩
  · have hpush : SortedLeafBuilder.pushAll sha emit .new
        ((item :: items).map (pushedLeaf sha ty)) =
        (do emitAll sha ty emit nodes
            pure builder) := by
      rw [← hall]
      rfl
    rw [SortedLeafBuilder.rebuild, hpush]
    simp only [bind_assoc, pure_bind, hfinish]
    rw [hpost, hbelow]
    simp only [framesBelow, List.nil_append, emitAll_append, bind_assoc]
  · intro a
    rw [hmem a, hitems a]
    simp [MemFrames]

/-- The inner nodes of a tree with their stored bytes, each after the nodes below it. -/
def innerNodes : Tree → List BuiltNode
  | .inner _ hash hashes child =>
    ((finRange 16).flatMap fun b => innerNodes (child b)) ++
      [⟨hash, serializeInnerWithPrefix hashes⟩]
  | _ => []

variable {c : ℕ} {t : Tree}

/-- The hashes that a flush leaves in the slots of an inner node. -/
theorem slot_hash {hashes : Fin 16 → Uint256} {child : Fin 16 → Tree}
    (hvacant : ∀ b, child b = .empty → hashes b = .zero)
    (hbelow : ∀ b, Tree.Fresh sha c ty (child b))
    (ih : ∀ b, ((child b).share sha).hash = trieHash sha ty (child b).shape) :
    (fun b => if (child b).isLoaded then ((child b).share sha).hash else hashes b) =
      fun b => trieHash sha ty (child b).shape := by
  funext b
  rw [(hbelow b).isLoaded_eq]
  cases hempty : (child b).isEmpty with
  | true =>
    have hb := (hbelow b).eq_empty hempty
    rw [hvacant b hb, hb]
    rfl
  | false => exact ih b

theorem share_hash (h : Tree.Fresh sha c ty t) (hc : c ≠ 0) :
    (t.share sha).hash = trieHash sha ty t.shape := by
  induction h with
  | empty => rfl
  | leaf item size =>
    simp only [Tree.share, if_neg hc]
    rfl
  | @inner hash hashes child vacant below ih =>
    have hall : ((Tree.branches child).isEmpty : Bool) =
        (finRange 16).all fun b => (typed ty (child b).shape).isEmpty := by
      rw [Bool.eq_iff_iff, List.isEmpty_iff, Tree.branches, List.filter_eq_nil_iff]
      simp only [List.all_eq_true, Trie.isEmpty_iff, typed_eq_empty_iff, Bool.not_eq_true',
        Bool.not_eq_false]
      refine forall₂_congr fun b _ => ?_
      exact (below b).isEmpty_iff
    simp only [Tree.share, if_neg hc, slot_hash vacant below ih, hall]
    rfl

/-- The nodes of a flushed tree are those of its trie, where no inner node is empty. -/
theorem innerNodes_share (h : Tree.Fresh sha c ty t) (hc : c ≠ 0)
    (hused : ∀ child ∈ postorder branchList t.shape, ∃ a, Mem a (.inner child)) :
    innerNodes (t.share sha) =
      (postorder branchList t.shape).map (builtInner sha ty) := by
  induction h with
  | empty => rfl
  | leaf item size =>
    simp only [Tree.share, if_neg hc]
    rfl
  | @inner hash hashes child vacant below ih =>
    have hself := share_hash (Tree.Fresh.inner hash vacant below) hc
    have hsub : ∀ b, innerNodes ((child b).share sha) =
        (postorder branchList (child b).shape).map (builtInner sha ty) := by
      intro b
      refine ih b fun node hnode => hused node ?_
      simp only [Tree.shape, postorder, mem_append, mem_flatMap]
      exact .inl ⟨b, mem_finRange b, hnode⟩
    have hlast := hused (fun b => (child b).shape) (by simp [Tree.shape, postorder])
    simp only [Tree.share, if_neg hc] at hself ⊢
    rw [slot_hash vacant below fun b => share_hash (below b) hc] at hself ⊢
    have hhash : computeInnerHash sha (Tree.branches child).isEmpty
        (fun b => trieHash sha ty (child b).shape) =
        (builtInner sha ty fun b => (child b).shape).hash :=
      hself.trans (trieHash_inner hlast)
    simp only [innerNodes, Tree.shape, postorder, List.map_append, List.map_flatMap, hsub,
      map_cons, List.map_nil, hhash]
    rfl

theorem exists_mem_of_postorder {t : Trie (Fin 16) SHAMapItem} : ∀ {d : ℕ}, Canon itemDigits d t →
    ∀ child ∈ postorder branchList t, ∃ a, Mem a (.inner child) := by
  induction t with
  | empty =>
    intro d _ child hchild
    simp [postorder] at hchild
  | leaf item =>
    intro d _ child hchild
    simp [postorder] at hchild
  | inner kids ih =>
    intro d hcanon child hchild
    obtain ⟨hsort, a, -, ha, -⟩ := canon_inner.mp hcanon
    rw [postorder_inner, mem_append, postorderBelow, mem_flatMap] at hchild
    rcases hchild with ⟨b, -, hb⟩ | hself
    · exact ih b (hsort.canon b) child hb
    · obtain rfl := List.mem_singleton.mp hself
      exact ⟨a, ha⟩

variable {m : ItemMap}

/-- The flushed tree with these items has the nodes of their trie. -/
theorem Models.innerNodes_share (M : Models sha c ty t m) (hc : c ≠ 0)
    (hitems : ∀ x : SHAMapItem, m x.key = some x ↔ x ∈ items)
    {root : Fin 16 → Trie (Fin 16) SHAMapItem} (hroot : Sorted itemDigits 0 root)
    (hmem : ∀ a, Mem a (.inner root) ↔ a ∈ items) (hne : items ≠ []) :
    innerNodes (t.share sha) =
        (postorder branchList (.inner root)).map (builtInner sha ty) ∧
      (t.share sha).hash = (builtInner sha ty root).hash := by
  obtain ⟨hash, hashes, child, rfl, r⟩ := M.root
  have hshape : (fun b => (child b).shape) = root :=
    r.sorted.ext hroot fun a => by rw [r.mem a, hitems a, hmem a]
  have hused : ∃ a, Mem a (.inner root) := by
    obtain ⟨item, hitem⟩ := List.exists_mem_of_ne_nil items hne
    exact ⟨item, (hmem item).mpr hitem⟩
  have hall : ∀ node ∈ postorder branchList (.inner root), ∃ a, Mem a (.inner node) := by
    intro node hnode
    rw [postorder_inner, mem_append, postorderBelow, mem_flatMap] at hnode
    rcases hnode with ⟨b, -, hb⟩ | hself
    · exact exists_mem_of_postorder (hroot.canon b) node hb
    · obtain rfl := List.mem_singleton.mp hself
      exact hused
  have hroot' : (Tree.inner c hash hashes child).shape = .inner root := by
    rw [← hshape]
    rfl
  constructor
  · rw [Snapshot.innerNodes_share r.fresh hc (by rwa [hroot']), hroot']
  · rw [share_hash r.fresh hc, hroot', trieHash_inner hused]

/-- Without items the root of the flushed tree is an inner node without children. -/
theorem Models.innerNodes_share_empty (M : Models sha c ty t m) (hc : c ≠ 0)
    (hitems : ∀ x : SHAMapItem, m x.key ≠ some x) :
    innerNodes (t.share sha) =
        [⟨.zero, serializeInnerWithPrefix fun _ => .zero⟩] ∧
      (t.share sha).hash = BaseUInt.zero := by
  obtain ⟨hash, hashes, child, rfl, r⟩ := M.root
  have hshape : (fun b => (child b).shape) = fun _ => .empty :=
    r.sorted.ext (isFrame_empty (k := fun _ => 0)).sorted fun a => by
      rw [r.mem a]
      refine iff_of_false (hitems a) ?_
      rintro ⟨_, h⟩
      exact h
  obtain ⟨-, vacant, below⟩ := r.fresh.inner_inv
  have hchild : ∀ b, child b = .empty := by
    intro b
    exact (below b).eq_empty ((below b).isEmpty_iff.mpr (congrFun hshape b))
  have hbranches : Tree.branches child = [] := by
    simp [Tree.branches, hchild, Tree.isEmpty]
  have hhashes : (fun b => if (child b).isLoaded then ((child b).share sha).hash
      else hashes b) = fun _ => BaseUInt.zero := by
    funext b
    simp [hchild b, Tree.isLoaded, vacant b (hchild b)]
  have hshare : (Tree.inner c hash hashes child).share sha =
      .inner 0 .zero (fun _ => .zero) fun _ => .empty := by
    simp only [Tree.share, if_neg hc, hhashes, hbranches]
    simp [hchild, Tree.share, computeInnerHash]
  rw [hshare]
  exact ⟨by simp [innerNodes], rfl⟩

variable {σ : Type} {emit : BuiltNode → EStateM String σ Unit} {key : Uint256}

/-- A key that does not exceed the last one is rejected, and nothing is emitted. -/
theorem push_rejects {prevKey prevHash : Uint256}
    (hpend : builder.pending = some (prevKey, prevHash)) (hle : key ≤ prevKey)
    (leafHash : Uint256) (s : σ) :
    SortedLeafBuilder.push sha emit builder key leafHash s =
      .error ("leaf keys not strictly ascending at " ++ displayKey key) s := by
  rw [SortedLeafBuilder.push, hpend]
  simp only [if_pos hle]
  rfl

theorem pending_of_push {builder' : SortedLeafBuilder} {leafHash : Uint256} {s s' : σ}
    (h : SortedLeafBuilder.push sha emit builder key leafHash s = .ok builder' s') :
    builder'.pending = some (key, leafHash) ∧
      ∀ prev, builder.pending = some prev → prev.1 < key := by
  rw [SortedLeafBuilder.push] at h
  rcases hp : builder.pending with _ | ⟨prevKey, prevHash⟩
  · rw [hp] at h
    cases h
    exact ⟨rfl, by simp⟩
  · rw [hp] at h
    by_cases hle : key ≤ prevKey
    · simp only [if_pos hle] at h
      cases h
    · simp only [if_neg hle] at h
      obtain ⟨_, _, -, hend⟩ := EStateM.bind_eq_ok_iff.mp h
      cases hend
      refine ⟨rfl, ?_⟩
      rintro _ ⟨⟩
      exact not_le.mp hle

theorem ascending_of_pushAll (leaves : List (Uint256 × Uint256)) :
    ∀ {builder builder' : SortedLeafBuilder} {s s' : σ},
      SortedLeafBuilder.pushAll sha emit builder leaves s = .ok builder' s' →
      (builder.pending.toList.map Prod.fst ++ leaves.map Prod.fst).IsChain (· < ·) := by
  induction leaves with
  | nil =>
    intro builder builder' s s' _
    rcases builder.pending with _ | prev <;> simp
  | cons leaf leaves ih =>
    intro builder builder' s s' h
    obtain ⟨builder₁, s₁, hpush, hrest⟩ := EStateM.bind_eq_ok_iff.mp h
    obtain ⟨hpend, hlt⟩ := pending_of_push hpush
    have hchain := ih hrest
    rw [hpend] at hchain
    rcases hp : builder.pending with _ | prev
    · simpa using hchain
    · simpa using ⟨hlt prev hp, hchain⟩

theorem run_adds (items : List SHAMapItem) : ∀ (m : ItemMap),
    items.Pairwise (fun x y => x.key < y.key) → (∀ x ∈ items, m x.key = none) →
    ∀ key, (MapOp.run m (items.map .add)).1 key =
      (m key).or (items.find? fun x => x.key = key) := by
  induction items with
  | nil =>
    intro m _ _ key
    simp [MapOp.run]
  | cons item items ih =>
    intro m hsort hnew key
    obtain ⟨hhead, htail⟩ := List.pairwise_cons.mp hsort
    have hitem := hnew item List.mem_cons_self
    have hrest : ∀ x ∈ items, update m item.key (some item) x.key = none := by
      intro x hx
      rw [Function.update_of_ne (hhead x hx).ne']
      exact hnew x (List.mem_cons_of_mem item hx)
    have hstep := ih _ htail hrest key
    simp only [map_cons, MapOp.run, MapOp.apply, hitem, Option.isSome_none,
      Bool.false_eq_true, if_false]
    rw [hstep, List.find?_cons]
    by_cases hkey : key = item.key
    · subst hkey
      simp [hitem]
    · simp [hkey, Ne.symm hkey]

theorem build_adds (hsort : items.Pairwise fun x y => x.key < y.key) (x : SHAMapItem) :
    MapOp.build (items.map .add) x.key = some x ↔ x ∈ items := by
  rw [MapOp.build, run_adds items _ hsort (fun _ _ => rfl), Option.none_or]
  constructor
  · intro h
    exact List.mem_of_find?_eq_some h
  · intro h
    obtain ⟨y, hy⟩ := Option.isSome_iff_exists.mp
      (List.find?_isSome.mpr ⟨x, h, by simp⟩ : (items.find? fun y => y.key = x.key).isSome = true)
    have hkey : y.key = x.key := by simpa using List.find?_some hy
    have hymem := List.mem_of_find?_eq_some hy
    have hnodup : (items.map SHAMapItem.key).Nodup := by
      rw [List.nodup_iff_pairwise_ne, List.pairwise_map]
      exact hsort.imp ne_of_lt
    rw [hy, List.inj_on_of_nodup_map hnodup hymem h hkey]

/-- For leaves in strictly ascending key order the builder returns the root hash of the map
with those items, whatever its history, and emits the inner nodes of a map that is not empty,
each once and after the nodes below it; for an empty map it emits nothing. Keys in any other
order are rejected. -/
theorem sortedLeafBuilder_rebuilds_map {σ : Type} (sha : Sha512Half) (ty : LeafType)
    (emit : BuiltNode → EStateM String σ Unit) :
    (∀ items : List SHAMapItem, items.Pairwise (fun x y => x.key < y.key) →
      (∀ item ∈ items, minItemBytes ≤ item.size) →
      (∃ ops : List MapOp, (∀ op ∈ ops, op.Sized) ∧
        ∀ x : SHAMapItem, MapOp.build ops x.key = some x ↔ x ∈ items) ∧
      ∀ (h₀ : Heap) (c : ℕ) (hc : c ≠ 0) (ops : List MapOp), (∀ op ∈ ops, op.Sized) →
        (∀ x : SHAMapItem, MapOp.build ops x.key = some x ↔ x ∈ items) →
        ∃ h T outs h' T' count t S,
          runOps (treeStep sha) (MutableTree.new h₀ c hc) (ops.map (MapOp.treeOp ty)) =
            .ok ((h, T), outs) ∧
          T.unshare sha h = .ok (h', T', count) ∧ Holds h' T'.cowid T'.root t S ∧
          SortedLeafBuilder.rebuild sha emit (items.map (pushedLeaf sha ty)) =
            (do (if items = [] then [] else innerNodes t).forM emit
                pure t.hash)) ∧
    (∀ (leaves : List (Uint256 × Uint256)) (s : σ), ¬(leaves.map Prod.fst).Pairwise (· < ·) →
      ∃ e s', SortedLeafBuilder.rebuild sha emit leaves s = .error e s') ∧
    ∀ (builder : SortedLeafBuilder) (prev : Uint256 × Uint256) (key leafHash : Uint256) (s : σ),
      builder.pending = some prev → key ≤ prev.1 →
      SortedLeafBuilder.push sha emit builder key leafHash s =
        .error ("leaf keys not strictly ascending at " ++ displayKey key) s := by
  refine ⟨?_, ?_, ?_⟩
  · intro items hsort hsized
    refine ⟨⟨items.map .add, ?_, build_adds hsort⟩, ?_⟩
    · intro op hop
      obtain ⟨item, hitem, rfl⟩ := List.mem_map.mp hop
      exact hsized item hitem
    · intro h₀ c hc ops sized hitems
      obtain ⟨h, T, t, S, h', T', S', count, hrun, hshare, -, M, H'⟩ :=
        run_unshare sha ty h₀ c hc ops sized
      refine ⟨h, T, _, h', T', count, t.share sha, S', hrun, hshare, H', ?_⟩
      by_cases hne : items = []
      · subst hne
        obtain ⟨-, hhash⟩ := Models.innerNodes_share_empty M T.cowid_ne fun x hx => by
          simpa using (hitems x).mp hx
        rw [hhash]
        simp [SortedLeafBuilder.rebuild, SortedLeafBuilder.pushAll, SortedLeafBuilder.finish,
          SortedLeafBuilder.new]
      · obtain ⟨root, hrebuild, hroot, hmem⟩ := rebuild_eq ty emit hsort hne
        obtain ⟨hnodes, hhash⟩ :=
          Models.innerNodes_share M T.cowid_ne hitems hroot hmem hne
        rw [hrebuild, if_neg hne, hnodes, hhash]
        rfl
  · intro leaves s hnot
    rcases hrun : SortedLeafBuilder.rebuild sha emit leaves s with ⟨root, s'⟩ | ⟨e, s'⟩
    · obtain ⟨builder, s₁, hpush, -⟩ := EStateM.bind_eq_ok_iff.mp hrun
      have hchain := ascending_of_pushAll leaves hpush
      exact absurd (List.isChain_iff_pairwise.mp hchain) hnot
    · exact ⟨e, s', rfl⟩
  · intro builder prev key leafHash s hpend hle
    exact push_rejects hpend hle leafHash s

def sampleItem (n : UInt8) : SHAMapItem :=
  ⟨⟨0 :: List.replicate 30 0 ++ [n], rfl⟩, List.replicate 12 n,
    (List.length_replicate (a := n)).trans_le (Nat.le_of_ble_eq_true rfl)⟩

/-- Two leaves whose keys part at the last nibble, with all nodes collected. -/
theorem sortedLeafBuilder_rebuilds_map_pair : ∃ t : Tree,
    SortedLeafBuilder.rebuild checksum
        (fun node => modify fun nodes => nodes ++ [node])
        ([sampleItem 1, sampleItem 2].map (pushedLeaf checksum .accountState)) =
      (do (innerNodes t).forM fun node => modify fun nodes => nodes ++ [node]
          pure t.hash : EStateM String (List BuiltNode) Uint256) := by
  have hsort : [sampleItem 1, sampleItem 2].Pairwise fun x y => x.key < y.key := by
    decide
  have hsized : ∀ item ∈ [sampleItem 1, sampleItem 2], minItemBytes ≤ item.size := by
    decide
  obtain ⟨⟨ops, sized, hops⟩, hall⟩ := (sortedLeafBuilder_rebuilds_map checksum
    .accountState (fun node => modify fun nodes : List BuiltNode => nodes ++ [node])).1 _ hsort
    hsized
  obtain ⟨_, _, _, _, _, _, t, _, -, -, -, hrebuild⟩ := hall [] 1 one_ne_zero ops sized hops
  exact ⟨t, hrebuild⟩

/-- The map without items has an inner node, its root, which the builder does not emit. -/
theorem sortedLeafBuilder_empty_map_emits_nothing : ∃ (h' : Heap) (T' : MutableTree) (count : ℕ)
    (t : Tree) (S : Set Addr), (MutableTree.new [] 1 one_ne_zero).2.unshare checksum
        (MutableTree.new [] 1 one_ne_zero).1 = .ok (h', T', count) ∧
      Holds h' T'.cowid T'.root t S ∧ (innerNodes t).length = 1 ∧
      ∀ emit : BuiltNode → EStateM String (List BuiltNode) Unit,
        SortedLeafBuilder.rebuild checksum emit [] = pure BaseUInt.zero := by
  obtain ⟨h, T, t, S, h', T', S', count, hrun, hshare, -, M, H'⟩ :=
    run_unshare checksum .accountState [] 1 one_ne_zero [] (by simp)
  cases hrun
  obtain ⟨hnodes, -⟩ := Models.innerNodes_share_empty M one_ne_zero fun x hx => by cases hx
  exact ⟨h', T', count, _, S', hshare, H', by rw [hnodes]; rfl, fun _ => rfl⟩

end Quaxar.Snapshot
