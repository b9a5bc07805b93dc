import Quaxar.SHAMap.Hashed

/-!
# What a comparison records

The walks of `compare` are reduced to lists: `sideDiffs` and `pairDiffs` list the
differences between two tries in the order in which the walks come upon them, and
`emit` records a list until the limit is reached. Each walk over trees that stand for
their tries, given enough fuel, does what `emit` does with its list.
-/

namespace Quaxar.SHAMap

open RadixTrie
open List (finRange flatMap_cons map_cons sum_cons)

structure Difference where
  key : Uint256
  left : Option SHAMapItem
  right : Option SHAMapItem

/-- Record differences until the limit is reached. -/
def emit : List Difference → DiffState → DiffState × Bool
  | [], s => (s, true)
  | δ :: L, s =>
    match recordDifference s δ.key δ.left δ.right with
    | (s, true) => emit L s
    | (s, false) => (s, false)

theorem emit_singleton (δ : Difference) (s : DiffState) :
    emit [δ] s = recordDifference s δ.key δ.left δ.right := by
  rw [emit]
  cases recordDifference s δ.key δ.left δ.right with
  | mk s' c => cases c <;> rfl

theorem emit_append (L L' : List Difference) (s : DiffState) :
    emit (L ++ L') s = match emit L s with
      | (s, true) => emit L' s
      | (s, false) => (s, false) := by
  induction L generalizing s with
  | nil => rfl
  | cons δ L ih =>
    simp only [List.cons_append, emit]
    cases h : recordDifference s δ.key δ.left δ.right with
    | mk s' cont =>
      cases cont with
      | true => exact ih s'
      | false => rfl

/-- The items below a node in the order in which a stack of nodes yields them. -/
def stackItems : MerkleTrie → List SHAMapItem
  | .empty => []
  | .leaf e => [e.item]
  | .inner kids => (finRange 16).reverse.flatMap fun b => stackItems (kids b)

/-- The number of nodes. -/
def nodeCount : MerkleTrie → ℕ
  | .empty => 0
  | .leaf _ => 1
  | .inner kids => 1 + ((finRange 16).map fun b => nodeCount (kids b)).sum

/-- A difference as it is seen from the map that is walked. -/
def side (isFirstMap : Bool) (key : Uint256) (mine other : Option SHAMapItem) : Difference :=
  if isFirstMap then ⟨key, mine, other⟩ else ⟨key, other, mine⟩

/-- The differences between the items on one side and at most one on the other. -/
def sideDiffs (isFirstMap : Bool) : Option SHAMapItem → List SHAMapItem → List Difference
  | none, items => items.map fun x => side isFirstMap x.key (some x) none
  | some o, [] => [side isFirstMap o.key none (some o)]
  | some o, x :: items =>
    if x.key ≠ o.key then side isFirstMap x.key (some x) none :: sideDiffs isFirstMap (some o) items
    else if x.data ≠ o.data then
      side isFirstMap x.key (some x) (some o) :: sideDiffs isFirstMap none items
    else sideDiffs isFirstMap none items

theorem recordFrom_eq (isFirstMap : Bool) (s : DiffState) (key : Uint256)
    (mine other : Option SHAMapItem) :
    recordFrom isFirstMap s key mine other =
      recordDifference s (side isFirstMap key mine other).key
        (side isFirstMap key mine other).left (side isFirstMap key mine other).right := by
  cases isFirstMap <;> rfl

variable (sha : Sha512Half)

/-- The differences at one branch when only one side has a node there. -/
def oneSided (T U : MerkleTrie) : List Difference :=
  if merkleHash sha T = merkleHash sha U then []
  else if U.isEmpty then sideDiffs true none (stackItems T)
  else if T.isEmpty then sideDiffs false none (stackItems U)
  else []

/-- The differences between two nodes at the same place, as the main loop finds them:
first the branches with a node on one side, then the others from the last to the
first. -/
def pairDiffs : MerkleTrie → MerkleTrie → List Difference
  | .leaf x, .leaf y =>
    if x.item.key = y.item.key then
      if x.item.data ≠ y.item.data then [⟨x.item.key, some x.item, some y.item⟩] else []
    else [⟨x.item.key, some x.item, none⟩, ⟨y.item.key, none, some y.item⟩]
  | .inner kids, .leaf y => sideDiffs true (some y.item) (stackItems (.inner kids))
  | .leaf x, .inner kids => sideDiffs false (some x.item) (stackItems (.inner kids))
  | .inner kids, .inner kids' =>
    ((finRange 16).flatMap fun b => oneSided sha (kids b) (kids' b)) ++
      (finRange 16).reverse.flatMap fun b =>
        if merkleHash sha (kids b) = merkleHash sha (kids' b) then []
        else pairDiffs (kids b) (kids' b)
  | _, _ => []

variable {fuel : ℕ} {s : DiffState} {L : List Difference} {T : MerkleTrie} {sha : Sha512Half}
  {src : NodeSource}

/-- Entries that contribute nothing can be left out. -/
theorem flatMap_filter {β γ : Type*} {p : β → Bool} {f : β → List γ} {l : List β}
    (h : ∀ x, p x = false → f x = []) : (l.filter p).flatMap f = l.flatMap f := by
  induction l with
  | nil => rfl
  | cons x l ih =>
    cases hp : p x with
    | true => simp [hp, ih]
    | false => simp [hp, ih, h x hp]

/-- The branches with a node, from the last to the first. -/
abbrev pushed (kids : Fin 16 → MerkleTrie) : List (Fin 16) :=
  ((finRange 16).filter fun b => !(kids b).isEmpty).reverse

variable {kids : Fin 16 → MerkleTrie}

theorem flatMap_pushed {γ : Type*} {f : MerkleTrie → List γ} (hf : f .empty = []) :
    ((pushed kids).map kids).flatMap f = (finRange 16).reverse.flatMap fun b => f (kids b) := by
  rw [pushed, ← List.filter_reverse, List.flatMap_map, flatMap_filter]
  intro b hb
  have hb : kids b = .empty := by simpa using hb
  rw [hb, hf]

theorem not_mem_pushed (kids : Fin 16 → MerkleTrie) : .empty ∉ (pushed kids).map kids := by
  intro h
  obtain ⟨b, hb, hk⟩ := List.mem_map.mp h
  simp [hk, Trie.isEmpty] at hb

theorem fuel_pushed {Ts : List MerkleTrie}
    (h : ((Trie.inner kids :: Ts).map nodeCount).sum < fuel + 1) :
    (((pushed kids).map kids ++ Ts).map nodeCount).sum < fuel := by
  have hle : (((pushed kids).map kids).map nodeCount).sum ≤
      ((finRange 16).map fun b => nodeCount (kids b)).sum := by
    rw [List.map_map, List.map_reverse, List.sum_reverse]
    exact List.Sublist.sum_le_sum (List.filter_sublist.map _) fun _ _ => Nat.zero_le _
  rw [List.map_append, List.sum_append]
  simp only [map_cons, sum_cons, nodeCount] at h
  omega

variable {node : Fin 16 → Tree}

theorem forall₂_pushed (h : ∀ b, Stands sha src (node b) (kids b)) :
    List.Forall₂ (Stands sha src) ((pushed kids).map node) ((pushed kids).map kids) := by
  rw [List.forall₂_map_left_iff, List.forall₂_map_right_iff, List.forall₂_same]
  exact fun b _ => h b

theorem pushChildren_eq {hashes : Fin 16 → Uint256} {child : Fin 16 → Tree}
    (v : StandsInner sha src hashes child node kids) :
    ∀ (bs : List (Fin 16)) (stack : List Tree), pushChildren src hashes child bs stack =
      .ok ((bs.filter fun b => !(kids b).isEmpty).reverse.map node ++ stack) := by
  intro bs
  induction bs with
  | nil =>
    intro stack
    rfl
  | cons b bs ih =>
    intro stack
    by_cases hb : kids b = .empty
    · have hc : (child b).isEmpty = true := (v.isEmpty_iff b).mpr hb
      rw [pushChildren, if_pos hc, ih]
      simp [hb, Trie.isEmpty]
    · have hc : ¬ (child b).isEmpty = true := fun h => hb ((v.isEmpty_iff b).mp h)
      have hk : (kids b).isEmpty = false := by rwa [Bool.eq_false_iff, Ne, Trie.isEmpty_iff]
      simp [pushChildren, hc, v.descendExpect_eq hb, ih, hk, bind, Except.bind]

theorem record_finish {other : Option SHAMapItem} {isFirstMap e : Bool} {key : Uint256}
    {m o : Option SHAMapItem} {next : DiffState → Except Fault (DiffState × Bool × Bool)}
    (hnext : ∀ s, next s >>= finishWalk other isFirstMap = .ok (emit L s)) :
    (match recordFrom isFirstMap s key m o with
      | (s, true) => next s
      | (s, false) => .ok (s, e, false)) >>= finishWalk other isFirstMap =
      .ok (emit (side isFirstMap key m o :: L) s) := by
  rw [emit, recordFrom_eq]
  cases recordDifference s _ _ _ with
  | mk s' c =>
    cases c with
    | true => exact hnext s'
    | false => rfl

/-- The walk over a stack of nodes records the differences of its items. -/
theorem walkLoop_finish (other : Option SHAMapItem) (isFirstMap : Bool) :
    ∀ (fuel : ℕ) {stack : List Tree} {Ts : List MerkleTrie},
      List.Forall₂ (Stands sha src) stack Ts → .empty ∉ Ts →
      (Ts.map nodeCount).sum < fuel →
      ∀ (e : Bool) (s : DiffState), (e = false → other.isSome = true) →
        walkLoop src other isFirstMap fuel stack e s >>= finishWalk other isFirstMap =
          .ok (emit (sideDiffs isFirstMap (if e then none else other) (Ts.flatMap stackItems))
            s) := by
  intro fuel
  induction fuel with
  | zero =>
    intro stack Ts _ _ hfuel
    exact absurd hfuel (Nat.not_lt_zero _)
  | succ fuel ih =>
    intro stack Ts hstack hne hfuel e s hother
    cases hstack with
    | nil =>
      cases e with
      | true => rfl
      | false =>
        obtain ⟨o, rfl⟩ := Option.isSome_iff_exists.mp (hother rfl)
        simp only [walkLoop, finishWalk, bind, Except.bind, recordFrom_eq, Bool.false_eq_true,
          if_false, List.flatMap_nil, sideDiffs, emit_singleton]
    | @cons node T stack Ts hnode hrest =>
      have hne' : .empty ∉ Ts := fun h => hne (List.mem_cons_of_mem _ h)
      cases T with
      | empty => exact absurd (List.mem_cons_self ..) hne
      | leaf x =>
        obtain ⟨n, rfl, -, hitem⟩ := hnode.leaf_inv
        have hfuel' : (Ts.map nodeCount).sum < fuel := by
          simp only [map_cons, sum_cons, nodeCount] at hfuel
          omega
        have hrec := ih hrest hne' hfuel'
        have hmap : ∀ s, walkLoop src other isFirstMap fuel stack true s >>=
            finishWalk other isFirstMap =
            .ok (emit ((Ts.flatMap stackItems).map fun x => side isFirstMap x.key (some x) none)
              s) := by
          intro s
          simpa [sideDiffs] using hrec true s
        rw [flatMap_cons, stackItems, List.singleton_append, ← hitem]
        cases e with
        | true =>
          exact record_finish hmap
        | false =>
          obtain ⟨o, rfl⟩ := Option.isSome_iff_exists.mp (hother rfl)
          simp only [walkLoop, Bool.false_eq_true, if_false, sideDiffs]
          by_cases hk : n.item.key = o.key
          · rw [if_neg (not_not.mpr hk), if_neg (not_not.mpr hk)]
            by_cases hd : n.item.data = o.data
            · rw [if_neg (not_not.mpr hd), if_neg (not_not.mpr hd)]
              exact hmap s
            · rw [if_pos hd, if_pos hd]
              exact record_finish hmap
          · rw [if_pos hk, if_pos hk]
            exact record_finish fun s => hrec false s hother
      | inner kids =>
        obtain ⟨cowid, hash, hashes, child, node, rfl, v⟩ := hnode.inner_inv
        have hpush := pushChildren_eq v (finRange 16) stack
        have hrec := ih (List.rel_append (forall₂_pushed v.below) hrest)
          (List.not_mem_append (not_mem_pushed kids) hne') (fuel_pushed hfuel) e s hother
        rw [List.flatMap_append, flatMap_pushed (by rfl)] at hrec
        simp only [walkLoop, hpush, bind, Except.bind, flatMap_cons, stackItems] at hrec ⊢
        exact hrec

/-- `walk_branch` records the differences between the items below a node and `other`. -/
theorem walkBranch_eq {node : Tree} (h : Stands sha src node T) (hne : T ≠ .empty)
    (hfuel : nodeCount T < fuel) (other : Option SHAMapItem) (isFirstMap : Bool) (s : DiffState) :
    walkBranch src fuel node other isFirstMap s =
      .ok (emit (sideDiffs isFirstMap other (stackItems T)) s) := by
  have hother : other.isNone = false → other.isSome = true := by
    cases other <;> simp
  have hwalk := walkLoop_finish other isFirstMap fuel (.cons h .nil) (by simpa using Ne.symm hne)
    (by simpa using hfuel) other.isNone s hother
  refine hwalk.trans ?_
  cases other <;> simp

variable {left right : NodeSource} {walkFuel : ℕ} {lHashes rHashes : Fin 16 → Uint256}
  {lChild lNode rChild rNode : Fin 16 → Tree} {kids' : Fin 16 → MerkleTrie}

/-- Both sides have a node at `b`, with different hashes. -/
def bothDiffer (sha : Sha512Half) (kids kids' : Fin 16 → MerkleTrie)
    (b : Fin 16) : Bool :=
  merkleHash sha (kids b) != merkleHash sha (kids' b) &&
    (!(kids b).isEmpty && !(kids' b).isEmpty)

theorem bothDiffer_iff {b : Fin 16} : bothDiffer sha kids kids' b = true ↔
    merkleHash sha (kids b) ≠ merkleHash sha (kids' b) ∧
      kids b ≠ .empty ∧ kids' b ≠ .empty := by
  simp [bothDiffer, Bool.eq_false_iff]

/-- The branch loop records the one-sided differences and pushes the other branches. -/
theorem compareBranches_eq (v : StandsInner sha left lHashes lChild lNode kids)
    (v' : StandsInner sha right rHashes rChild rNode kids')
    (hfuel : ∀ b, nodeCount (kids b) < walkFuel) (hfuel' : ∀ b, nodeCount (kids' b) < walkFuel) :
    ∀ (bs : List (Fin 16)) (stack : List (Tree × Tree)) (s : DiffState), ∃ stack',
      compareBranches left right walkFuel lHashes lChild rHashes rChild bs stack s =
        .ok (stack', emit (bs.flatMap fun b => oneSided sha (kids b) (kids' b)) s) ∧
      ((emit (bs.flatMap fun b => oneSided sha (kids b) (kids' b)) s).2 = true →
        stack' = ((bs.filter (bothDiffer sha kids kids')).reverse.map
          fun b => (lNode b, rNode b)) ++ stack) := by
  intro bs
  induction bs with
  | nil =>
    intro stack s
    exact ⟨stack, rfl, fun _ => rfl⟩
  | cons b bs ih =>
    intro stack s
    have hl : (lChild b).isEmpty = (kids b).isEmpty := by
      rw [Bool.eq_iff_iff, v.isEmpty_iff, Trie.isEmpty_iff]
    have hr : (rChild b).isEmpty = (kids' b).isEmpty := by
      rw [Bool.eq_iff_iff, v'.isEmpty_iff, Trie.isEmpty_iff]
    rw [compareBranches, v.hashes_eq b, v'.hashes_eq b, hl, hr, flatMap_cons, emit_append,
      oneSided]
    by_cases hhash : merkleHash sha (kids b) = merkleHash sha (kids' b)
    · rw [if_pos hhash, if_pos hhash]
      have hskip : bothDiffer sha kids kids' b = false := by simp [bothDiffer, hhash]
      simpa [emit, hskip] using ih stack s
    · rw [if_neg hhash, if_neg hhash]
      by_cases hr0 : kids' b = .empty
      · -- only the left side has a node
        have hl0 : kids b ≠ .empty := fun h => hhash (by rw [h, hr0])
        have hskip : bothDiffer sha kids kids' b = false := by
          simp [bothDiffer, hr0, Trie.isEmpty]
        simp only [hr0, Trie.isEmpty, if_true, v.descendExpect_eq hl0, bind, Except.bind,
          walkBranch_eq (v.below b) hl0 (hfuel b), List.filter_cons, hskip, Bool.false_eq_true,
          if_false]
        cases emit (sideDiffs true none (stackItems (kids b))) s with
        | mk s' c =>
          cases c with
          | true => exact ih stack s'
          | false => exact ⟨stack, rfl, fun h => absurd h (by simp)⟩
      · have hr1 : (kids' b).isEmpty = false := by rwa [Bool.eq_false_iff, Ne, Trie.isEmpty_iff]
        by_cases hl0 : kids b = .empty
        · -- only the right side has a node
          have hskip : bothDiffer sha kids kids' b = false := by
            simp [bothDiffer, hl0, Trie.isEmpty]
          simp only [hl0, Trie.isEmpty, if_true, v'.descendExpect_eq hr0, bind, Except.bind,
            walkBranch_eq (v'.below b) hr0 (hfuel' b), List.filter_cons, hskip, Bool.false_eq_true,
            if_false]
          cases emit (sideDiffs false none (stackItems (kids' b))) s with
          | mk s' c =>
            cases c with
            | true => exact ih stack s'
            | false => exact ⟨stack, rfl, fun h => absurd h (by simp)⟩
        · have hl1 : (kids b).isEmpty = false := by rwa [Bool.eq_false_iff, Ne, Trie.isEmpty_iff]
          have hboth : bothDiffer sha kids kids' b = true := by
            simp [bothDiffer, hl1, hr1, hhash]
          obtain ⟨stack', hrun, hstack⟩ := ih ((lNode b, rNode b) :: stack) s
          refine ⟨stack', ?_, ?_⟩
          · simp only [hr1, hl1, Bool.false_eq_true, if_false, v.descendExpect_eq hl0,
              v'.descendExpect_eq hr0, bind, Except.bind, hrun, emit]
          · intro h
            rw [hstack (by simpa [hl1, hr1, emit] using h)]
            simp [hboth]

/-- The stacks of a comparison: pairs of nodes, each standing for its trie. -/
def StandsPair (sha : Sha512Half) (left right : NodeSource)
    (walkFuel : ℕ) (p : Tree × Tree) (P : MerkleTrie × MerkleTrie) : Prop :=
  Stands sha left p.1 P.1 ∧ Stands sha right p.2 P.2 ∧
    P.1 ≠ .empty ∧ P.2 ≠ .empty ∧ nodeCount P.1 < walkFuel ∧ nodeCount P.2 < walkFuel

theorem nodeCount_child_lt (kids : Fin 16 → MerkleTrie) (b : Fin 16) :
    nodeCount (kids b) < nodeCount (.inner kids) := by
  have hle : nodeCount (kids b) ≤ ((finRange 16).map fun b => nodeCount (kids b)).sum :=
    List.single_le_sum (fun _ _ => Nat.zero_le _) _ (List.mem_map.mpr ⟨b, List.mem_finRange b, rfl⟩)
  simp only [nodeCount]
  omega

theorem compareLeaves_eq (sha : Sha512Half) (x y : LeafEntry) (s : DiffState) :
    compareLeaves x.item y.item s = emit (pairDiffs sha (.leaf x) (.leaf y)) s := by
  unfold compareLeaves pairDiffs
  split_ifs with hk hd
  · rw [emit_singleton]
  · rfl
  · rw [emit]
    cases recordDifference s x.item.key (some x.item) none with
    | mk s' c =>
      cases c with
      | true => exact (emit_singleton ⟨y.item.key, none, some y.item⟩ s').symm
      | false => rfl

theorem emit_next {L' : List Difference} {next : DiffState → Except Fault (DiffState × Bool)}
    (hnext : ∀ s, next s = .ok (emit L' s)) :
    (match emit L s with
      | (s, true) => next s
      | (s, false) => .ok (s, false)) = .ok (emit (L ++ L') s) := by
  rw [emit_append]
  cases emit L s with
  | mk s' c =>
    cases c with
    | true => exact hnext s'
    | false => rfl

/-- The pairs that the branch loop pushes. -/
abbrev pushedPairs (sha : Sha512Half) (kids kids' : Fin 16 → MerkleTrie) :
    List (MerkleTrie × MerkleTrie) :=
  ((finRange 16).filter (bothDiffer sha kids kids')).reverse.map
    fun b => (kids b, kids' b)

theorem forall₂_bothDiffer (v : StandsInner sha left lHashes lChild lNode kids)
    (v' : StandsInner sha right rHashes rChild rNode kids')
    (hfuel : ∀ b, nodeCount (kids b) < walkFuel) (hfuel' : ∀ b, nodeCount (kids' b) < walkFuel) :
    List.Forall₂ (StandsPair sha left right walkFuel)
      (((finRange 16).filter (bothDiffer sha kids kids')).reverse.map
        fun b => (lNode b, rNode b))
      (pushedPairs sha kids kids') := by
  rw [List.forall₂_map_left_iff, List.forall₂_map_right_iff, List.forall₂_same]
  intro b hb
  obtain ⟨-, hl, hr⟩ := bothDiffer_iff.mp (by simpa using hb)
  exact ⟨v.below b, v'.below b, hl, hr, hfuel b, hfuel' b⟩

theorem fuel_bothDiffer {Ps : List (MerkleTrie × MerkleTrie)}
    (h : (((Trie.inner kids, Trie.inner kids') :: Ps).map
      fun P : MerkleTrie × MerkleTrie => nodeCount P.1).sum < fuel + 1) :
    ((pushedPairs sha kids kids' ++ Ps).map fun P => nodeCount P.1).sum < fuel := by
  have hle : ((pushedPairs sha kids kids').map fun P => nodeCount P.1).sum ≤
      ((finRange 16).map fun b => nodeCount (kids b)).sum := by
    rw [List.map_map, List.map_reverse, List.sum_reverse]
    exact List.Sublist.sum_le_sum (List.filter_sublist.map _) fun _ _ => Nat.zero_le _
  rw [List.map_append, List.sum_append]
  simp only [map_cons, sum_cons, nodeCount] at h
  omega

theorem pairDiffs_empty {U : MerkleTrie} (h : T = .empty ∨ U = .empty) :
    pairDiffs sha T U = [] := by
  rcases h with rfl | rfl
  · cases U <;> rfl
  · cases T <;> rfl

theorem flatMap_bothDiffer :
    (pushedPairs sha kids kids').flatMap (fun P => pairDiffs sha P.1 P.2) =
      (finRange 16).reverse.flatMap fun b =>
        if merkleHash sha (kids b) = merkleHash sha (kids' b) then []
        else pairDiffs sha (kids b) (kids' b) := by
  rw [pushedPairs, ← List.filter_reverse, List.flatMap_map]
  rw [List.flatMap_congr (g := fun b =>
    if merkleHash sha (kids b) = merkleHash sha (kids' b) then []
    else pairDiffs sha (kids b) (kids' b)) ?_, flatMap_filter]
  · intro b hb
    split_ifs with hhash
    · rfl
    · refine pairDiffs_empty (or_iff_not_imp_left.mpr fun hl => ?_)
      by_contra hr
      rw [bothDiffer_iff.mpr ⟨hhash, hl, hr⟩] at hb
      cases hb
  · intro b hb
    rw [if_neg (bothDiffer_iff.mp (List.mem_filter.mp hb).2).1]

theorem compareLoop_eq : ∀ (fuel : ℕ) {stack : List (Tree × Tree)}
    {Ps : List (MerkleTrie × MerkleTrie)},
    List.Forall₂ (StandsPair sha left right walkFuel) stack Ps →
    (Ps.map fun P => nodeCount P.1).sum < fuel → ∀ s : DiffState,
      compareLoop left right walkFuel fuel stack s =
        .ok (emit (Ps.flatMap fun P => pairDiffs sha P.1 P.2) s) := by
  intro fuel
  induction fuel with
  | zero =>
    intro stack Ps _ hfuel
    exact absurd hfuel (Nat.not_lt_zero _)
  | succ fuel ih =>
    intro stack Ps hstack hfuel s
    cases hstack with
    | nil => rfl
    | @cons p P stack Ps hp hrest =>
      obtain ⟨T, U⟩ := P
      obtain ⟨l, r⟩ := p
      obtain ⟨hl, hr, hl0, hr0, hlf, hrf⟩ := hp
      rw [flatMap_cons]
      have hpos : (Ps.map fun P => nodeCount P.1).sum < fuel := by
        have hT : 0 < nodeCount T := by
          cases T with
          | empty => exact absurd rfl hl0
          | leaf x => exact Nat.one_pos
          | inner kids => exact Nat.lt_of_le_of_lt (Nat.zero_le _) (nodeCount_child_lt kids 0)
        simp only [map_cons, sum_cons] at hfuel
        omega
      have hnext := ih hrest hpos
      cases T with
      | empty => exact absurd rfl hl0
      | leaf x =>
        obtain ⟨n, rfl, -, hn⟩ := hl.leaf_inv
        cases U with
        | empty => exact absurd rfl hr0
        | leaf y =>
          obtain ⟨m, rfl, -, hm⟩ := hr.leaf_inv
          simp only [compareLoop, hn, hm, compareLeaves_eq sha x y]
          exact emit_next hnext
        | inner kids' =>
          have hwalk := walkBranch_eq hr hr0 hrf (some n.item) false s
          obtain ⟨cowid, hash, hashes, child, node, rfl, -⟩ := hr.inner_inv
          rw [hn] at hwalk
          simp only [compareLoop, hwalk, bind, Except.bind, hn]
          exact emit_next hnext
      | inner kids =>
        cases U with
        | empty => exact absurd rfl hr0
        | leaf y =>
          obtain ⟨m, rfl, -, hm⟩ := hr.leaf_inv
          have hwalk := walkBranch_eq hl hl0 hlf (some m.item) true s
          obtain ⟨cowid, hash, hashes, child, node, rfl, -⟩ := hl.inner_inv
          rw [hm] at hwalk
          simp only [compareLoop, hwalk, bind, Except.bind, hm]
          exact emit_next hnext
        | inner kids' =>
          obtain ⟨cowid, hash, lHashes, lChild, lNode, rfl, v⟩ := hl.inner_inv
          obtain ⟨cowid', hash', rHashes, rChild, rNode, rfl, v'⟩ := hr.inner_inv
          have hlt : ∀ b, nodeCount (kids b) < walkFuel :=
            fun b => (nodeCount_child_lt kids b).trans hlf
          have hlt' : ∀ b, nodeCount (kids' b) < walkFuel :=
            fun b => (nodeCount_child_lt kids' b).trans hrf
          obtain ⟨stack', hrun, hstack⟩ :=
            compareBranches_eq v v' hlt hlt' (finRange 16) stack s
          simp only [compareLoop, hrun, bind, Except.bind, pairDiffs, List.append_assoc]
          rw [emit_append]
          cases hemit : emit ((finRange 16).flatMap fun b =>
              oneSided sha (kids b) (kids' b)) s with
          | mk s' c =>
            cases c with
            | false => rfl
            | true =>
              obtain rfl := hstack (by rw [hemit])
              have hrec := ih (List.rel_append (forall₂_bothDiffer v v' hlt hlt') hrest)
                (fuel_bothDiffer hfuel) s'
              rw [List.flatMap_append, flatMap_bothDiffer] at hrec
              exact hrec

end Quaxar.SHAMap
