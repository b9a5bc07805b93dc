import Quaxar.Lib.RadixTrie
import Quaxar.SHAMap.Tree

/-!
# The mutations keep a tree canonical

A tree that was built by one owner is seen as a radix trie of its items, with the
nibbles of the keys as digits. Each mutation on such a tree succeeds exactly where
the mutation on the set of items does, and returns a canonical trie of the changed
set. Only the root may have fewer than two leaves below it.
-/

namespace Quaxar.SHAMap

open RadixTrie

/-- The nibbles of an item's key. -/
def itemDigits (item : SHAMapItem) (d : ℕ) : Fin 16 := keyNibble item.key d

variable {x : SHAMapItem}

theorem itemDigits_eq_iff {y : SHAMapItem} : itemDigits x = itemDigits y ↔ x.key = y.key := by
  constructor
  · intro h
    exact eq_of_keyNibble_eq fun d _ => congrFun h d
  · intro h
    funext d
    simp only [itemDigits, h]

theorem itemDigits_bounded (x y : SHAMapItem)
    (h : ∀ i < leafDepth, itemDigits x i = itemDigits y i) : itemDigits x = itemDigits y :=
  itemDigits_eq_iff.mpr (eq_of_keyNibble_eq h)

namespace Tree

/-- The trie of the items of a tree. -/
def shape : Tree → Trie (Fin 16) SHAMapItem
  | leaf n => .leaf n.item
  | inner _ _ _ child => .inner fun b => (child b).shape
  | _ => .empty

variable (sha : Sha512Half)

/-- A tree whose nodes were all made by the owner `c`, with leaves of one type. -/
inductive Fresh (c : ℕ) (ty : LeafType) : Tree → Prop
  | empty : Fresh c ty empty
  | leaf (item : SHAMapItem) (size : minItemBytes ≤ item.size) :
      Fresh c ty (leaf ⟨ty, item, c, computeLeafHash sha ty item⟩)
  | inner (hash : Uint256) {hashes : Fin 16 → Uint256} {child : Fin 16 → Tree}
      (vacant : ∀ b, child b = empty → hashes b = .zero)
      (below : ∀ b, Fresh c ty (child b)) : Fresh c ty (inner c hash hashes child)

variable {sha : Sha512Half} {c : ℕ} {ty : LeafType} {cowid : ℕ} {hash : Uint256}
  {hashes : Fin 16 → Uint256} {child : Fin 16 → Tree}

theorem Fresh.inner_inv (h : Fresh sha c ty (Tree.inner cowid hash hashes child)) :
    cowid = c ∧ (∀ b, child b = .empty → hashes b = .zero) ∧
      ∀ b, Fresh sha c ty (child b) := by
  cases h with
  | inner _ vacant below => exact ⟨rfl, vacant, below⟩

variable {t : Tree}

theorem Fresh.isEmpty_iff (h : Fresh sha c ty t) : t.isEmpty = true ↔ t.shape = .empty := by
  cases h <;> simp [isEmpty, shape]

theorem Fresh.eq_empty (h : Fresh sha c ty t) (ht : t.isEmpty = true) : t = .empty := by
  cases h with
  | empty => rfl
  | leaf item _ => cases ht
  | inner hash _ _ => cases ht

theorem Fresh.isLoaded_eq (h : Fresh sha c ty t) : t.isLoaded = !t.isEmpty := by
  cases h <;> rfl

/-- An owned tree that is canonical below depth `d` and stores the items in `P`. -/
structure Carries (sha : Sha512Half) (c : ℕ) (ty : LeafType) (d : ℕ) (t : Tree)
    (P : SHAMapItem → Prop) : Prop where
  fresh : Fresh sha c ty t
  canon : Canon itemDigits d t.shape
  mem : ∀ x, Mem x t.shape ↔ P x

/-- An owned inner node with canonical children; it may have any number of items. -/
structure CarriesInner (sha : Sha512Half) (c : ℕ) (ty : LeafType) (d : ℕ)
    (hash : Uint256) (hashes : Fin 16 → Uint256) (child : Fin 16 → Tree)
    (P : SHAMapItem → Prop) : Prop where
  fresh : Fresh sha c ty (inner c hash hashes child)
  sorted : Sorted itemDigits d fun b => (child b).shape
  mem : ∀ x, Mem x (.inner fun b => (child b).shape) ↔ P x

variable {b : Fin 16}

namespace CarriesInner

variable {d : ℕ} {P : SHAMapItem → Prop}

/-- The subtree on the way to a key carries the items that share its nibble. -/
theorem carries_child (r : CarriesInner sha c ty d hash hashes child P) (b : Fin 16) :
    Carries sha c ty (d + 1) (child b) fun x => P x ∧ itemDigits x d = b where
  fresh := r.fresh.inner_inv.2.2 b
  canon := r.sorted.canon b
  mem x := by rw [r.sorted.mem_child, r.mem x]

theorem shape_update (child : Fin 16 → Tree) (b : Fin 16) (t : Tree) :
    (fun b' => (Function.update child b t b').shape) =
      Function.update (fun b' => (child b').shape) b t.shape := by
  funext b'
  by_cases hb : b' = b
  · subst hb
    simp
  · simp [hb]

/-- Replacing the child at `b` by a tree of items that belong there. -/
theorem replace (r : CarriesInner sha c ty d hash hashes child P) {Q : SHAMapItem → Prop}
    (hash' : Uint256) (v : Uint256) (hv : t = .empty → v = .zero)
    (ht : Carries sha c ty (d + 1) t Q) (hQ : ∀ x, Q x → itemDigits x d = b) :
    CarriesInner sha c ty d hash' (Function.update hashes b v) (Function.update child b t)
      fun x => Q x ∨ P x ∧ itemDigits x d ≠ b := by
  obtain ⟨-, hvacant, hbelow⟩ := r.fresh.inner_inv
  refine ⟨.inner hash' ?_ ?_, ?_, ?_⟩
  · intro b' hempty
    by_cases hb : b' = b
    · subst hb
      simpa using hv (by simpa using hempty)
    · simp only [Function.update_of_ne hb] at hempty ⊢
      exact hvacant b' hempty
  · intro b'
    by_cases hb : b' = b
    · subst hb
      simpa using ht.fresh
    · simpa [hb] using hbelow b'
  · rw [shape_update]
    exact r.sorted.update ht.canon fun x hx => hQ x ((ht.mem x).mp hx)
  · intro x
    rw [shape_update, r.sorted.mem_update, ht.mem x, r.mem x]

/-- An inner node that keeps items with different keys is canonical. -/
theorem carries (r : CarriesInner sha c ty d hash hashes child P)
    (htwo : ∃ x y, P x ∧ P y ∧ x.key ≠ y.key) :
    Carries sha c ty d (inner c hash hashes child) P where
  fresh := r.fresh
  canon := by
    obtain ⟨x, y, hx, hy, hne⟩ := htwo
    refine canon_inner.mpr ⟨r.sorted, x, y, (r.mem x).mpr hx, (r.mem y).mpr hy, ?_⟩
    rwa [Ne, itemDigits_eq_iff]
  mem := r.mem

end CarriesInner

variable {d : ℕ} {P Q : SHAMapItem → Prop} {key : Uint256}

theorem Carries.congr (h : Carries sha c ty d t P) (hPQ : ∀ x, P x ↔ Q x) :
    Carries sha c ty d t Q :=
  ⟨h.fresh, h.canon, fun x => (h.mem x).trans (hPQ x)⟩

theorem CarriesInner.congr (h : CarriesInner sha c ty d hash hashes child P)
    (hPQ : ∀ x, P x ↔ Q x) : CarriesInner sha c ty d hash hashes child Q :=
  ⟨h.fresh, h.sorted, fun x => (h.mem x).trans (hPQ x)⟩

theorem carries_empty (hP : ∀ x, ¬ P x) : Carries sha c ty d .empty P :=
  ⟨.empty, trivial, fun x => ⟨fun h => h.elim, fun h => (hP x h).elim⟩⟩

theorem carries_leaf {item : SHAMapItem} (size : minItemBytes ≤ item.size)
    (hP : ∀ x, x = item ↔ P x) :
    Carries sha c ty d (.leaf ⟨ty, item, c, computeLeafHash sha ty item⟩) P :=
  ⟨.leaf item size, trivial, hP⟩

/-- The items in `P` start with the first `d` nibbles of the key. -/
def Along (key : Uint256) (d : ℕ) (P : SHAMapItem → Prop) : Prop :=
  ∀ x, P x → ∀ i < d, itemDigits x i = keyNibble key i

theorem along_zero (key : Uint256) (P : SHAMapItem → Prop) : Along key 0 P :=
  fun _ _ i hi => absurd hi (Nat.not_lt_zero i)

theorem Along.step (h : Along key d P) :
    Along key (d + 1) fun x => P x ∧ itemDigits x d = keyNibble key d := by
  rintro x ⟨hx, hd⟩ i hi
  rcases Nat.lt_succ_iff_lt_or_eq.mp hi with hlt | rfl
  · exact h x hx i hlt
  · exact hd

/-- A canonical inner node, seen through its children, above the depth of leaves. -/
theorem Carries.inner_inv (h : Carries sha c ty d (.inner cowid hash hashes child) P)
    (along : Along key d P) :
    cowid = c ∧ CarriesInner sha c ty d hash hashes child P ∧ d < leafDepth ∧
      ∃ x y, P x ∧ P y ∧ x.key ≠ y.key := by
  obtain ⟨rfl, -⟩ := h.fresh.inner_inv
  obtain ⟨s, htwo⟩ := canon_inner.mp h.canon
  refine ⟨rfl, ⟨h.fresh, s, h.mem⟩, ?_, ?_⟩
  · exact htwo.depth_lt itemDigits_bounded fun x hx => along x ((h.mem x).mp hx)
  · obtain ⟨x, y, hx, hy, hne⟩ := htwo
    exact ⟨x, y, (h.mem x).mp hx, (h.mem y).mp hy, mt itemDigits_eq_iff.mpr hne⟩

theorem Fresh.enter (h : Fresh sha c ty t) (hd : d < leafDepth) (v : Uint256) :
    enter d v t = .ok () := by
  cases h <;> simp [enter, hd]

theorem Fresh.descend_inner {β : Type} {atEnd : ℕ → Option LeafNode → Except Fault β}
    {wrap : ℕ → ℕ → Uint256 → (Fin 16 → Uint256) → (Fin 16 → Tree) → β → Except Fault β}
    (h : Fresh sha c ty (.inner cowid hash hashes child)) (hd : d < leafDepth) :
    descend key atEnd wrap d (.inner cowid hash hashes child) =
      (descend key atEnd wrap (d + 1) (child (keyNibble key d)) >>=
        wrap d cowid hash hashes child) := by
  rw [Tree.descend, (h.inner_inv.2.2 _).enter hd]
  rfl

/-- The item under a key is looked for where its nibble leads. -/
theorem exists_key_iff :
    (∃ x, (P x ∧ itemDigits x d = keyNibble key d) ∧ x.key = key) ↔ ∃ x, P x ∧ x.key = key := by
  constructor
  · rintro ⟨x, ⟨hx, -⟩, hk⟩
    exact ⟨x, hx, hk⟩
  · rintro ⟨x, hx, rfl⟩
    exact ⟨x, ⟨hx, rfl⟩, rfl⟩

variable {item : SHAMapItem}

/-- The walk ends at the item under the key, if there is one. -/
def Finds (key : Uint256) (P : SHAMapItem → Prop) (r : Except Fault (Option LeafNode)) : Prop :=
  ∃ terminal, r = .ok terminal ∧
    ∀ x, P x ∧ x.key = key ↔ ∃ n, terminal = some n ∧ n.item = x ∧ x.key = key

theorem CarriesInner.walk (r : CarriesInner sha c ty d hash hashes child P)
    (hd : d < leafDepth) (below : Finds key (fun x => P x ∧ itemDigits x d = keyNibble key d)
      (walk key (d + 1) (child (keyNibble key d)))) :
    Finds key P (walk key d (.inner c hash hashes child)) := by
  obtain ⟨terminal, hwalk, hfind⟩ := below
  refine ⟨terminal, ?_, ?_⟩
  · unfold Tree.walk at hwalk ⊢
    rw [r.fresh.descend_inner hd, hwalk]
    rfl
  · intro x
    rw [← hfind x]
    constructor
    · rintro ⟨hx, rfl⟩
      exact ⟨⟨hx, rfl⟩, rfl⟩
    · rintro ⟨⟨hx, -⟩, hk⟩
      exact ⟨hx, hk⟩

theorem Carries.walk : ∀ {d : ℕ} {P : SHAMapItem → Prop},
    Carries sha c ty d t P → Along key d P → Finds key P (walk key d t) := by
  induction t with
  | empty =>
    intro d P h _
    refine ⟨none, rfl, fun x => ⟨?_, ?_⟩⟩
    · rintro ⟨hx, -⟩
      exact ((h.mem x).mpr hx).elim
    · rintro ⟨n, hn, -⟩
      cases hn
  | stub =>
    intro d P h
    cases h.fresh
  | leaf n =>
    intro d P h _
    refine ⟨some n, rfl, fun x => ⟨?_, ?_⟩⟩
    · rintro ⟨hx, hk⟩
      exact ⟨n, rfl, ((h.mem x).mpr hx).symm, hk⟩
    · rintro ⟨m, hm, rfl, hk⟩
      cases hm
      exact ⟨(h.mem n.item).mp rfl, hk⟩
  | inner cowid hash hashes child ih =>
    intro d P h along
    obtain ⟨rfl, r, hd, -⟩ := h.inner_inv along
    exact r.walk hd (ih _ (r.carries_child _) along.step)

theorem freshLeaf_eq (size : minItemBytes ≤ item.size) :
    freshLeaf sha c ty item =
      .ok (.leaf ⟨ty, item, c, computeLeafHash sha ty item⟩) :=
  if_pos size

theorem carriesInner_new :
    CarriesInner sha c ty d .zero (fun _ => .zero) (fun _ => .empty)
      fun _ => False where
  fresh := .inner _ (fun _ _ => rfl) fun _ => .empty
  sorted := ⟨fun _ => trivial, fun _ _ h => h.elim⟩
  mem _ := ⟨fun ⟨_, h⟩ => h, False.elim⟩

variable {existing : SHAMapItem}

theorem carries_pair (hne : item.key ≠ existing.key)
    (hb : keyNibble item.key d ≠ keyNibble existing.key d) (size : minItemBytes ≤ item.size)
    (size' : minItemBytes ≤ existing.size) :
    Carries sha c ty d
      (dirty c (fun _ => .zero) (Function.update (fun _ => .empty)
        (keyNibble item.key d) (.leaf ⟨ty, item, c, computeLeafHash sha ty item⟩))
        (keyNibble existing.key d)
        (.leaf ⟨ty, existing, c, computeLeafHash sha ty existing⟩))
      fun x => x = item ∨ x = existing := by
  have hleaf : ∀ {x : SHAMapItem}, minItemBytes ≤ x.size → Carries sha c ty (d + 1)
      (.leaf ⟨ty, x, c, computeLeafHash sha ty x⟩) (· = x) :=
    fun h => carries_leaf h fun _ => Iff.rfl
  have r := carriesInner_new.replace .zero .zero (fun _ => rfl) (hleaf size)
    (b := keyNibble item.key d) (by rintro x rfl; rfl)
  rw [show Function.update (fun _ => .zero) (keyNibble item.key d) .zero =
    fun _ => (BaseUInt.zero : Uint256) from Function.update_eq_self _ _] at r
  have r' := r.replace .zero .zero (fun _ => rfl) (hleaf size')
    (b := keyNibble existing.key d) (by rintro x rfl; rfl)
  have hiff : ∀ x, x = existing ∨ (x = item ∨ False ∧ itemDigits x d ≠ keyNibble item.key d) ∧
      itemDigits x d ≠ keyNibble existing.key d ↔ x = item ∨ x = existing := by
    intro x
    constructor
    · rintro (rfl | ⟨rfl | ⟨h, -⟩, -⟩)
      exacts [.inr rfl, .inl rfl, h.elim]
    · rintro (rfl | rfl)
      exacts [.inr ⟨.inl rfl, hb⟩, .inl rfl]
  exact (r'.congr hiff).carries ⟨item, existing, .inl rfl, .inr rfl, hne⟩

/-- The chain built by a split carries the two items. The keys part above the depth
of leaves, so that the walk down cannot run out of nibbles. -/
theorem split_carries (sha : Sha512Half) (c : ℕ) (ty : LeafType)
    (hne : item.key ≠ existing.key) (size : minItemBytes ≤ item.size)
    (size' : minItemBytes ≤ existing.size) :
    ∀ (fuel d : ℕ), leafDepth + 1 ≤ fuel + d →
      (∀ i < d, keyNibble item.key i = keyNibble existing.key i) →
      ∃ t, split sha c ty item existing fuel d = .ok t ∧
        Carries sha c ty d t fun x => x = item ∨ x = existing := by
  have hparts : ∀ d, (∀ i < d, keyNibble item.key i = keyNibble existing.key i) →
      d < leafDepth := by
    intro d hd
    by_contra hge
    exact hne (eq_of_keyNibble_eq fun i hi => hd i (by omega))
  intro fuel
  induction fuel with
  | zero =>
    intro d hfuel hagree
    have := hparts d hagree
    omega
  | succ fuel ih =>
    intro d hfuel hagree
    by_cases hb : keyNibble item.key d = keyNibble existing.key d
    · have hagree' : ∀ i < d + 1, keyNibble item.key i = keyNibble existing.key i := by
        intro i hi
        rcases Nat.lt_succ_iff_lt_or_eq.mp hi with hlt | rfl
        · exact hagree i hlt
        · exact hb
      obtain ⟨t, hsplit, ht⟩ := ih (d + 1) (by omega) hagree'
      refine ⟨single c (keyNibble item.key d) t, ?_, ?_⟩
      · simp only [split, hb, ne_eq, not_true, if_false, hparts d hagree, if_true, hsplit, bind,
          Except.bind]
      · have r := carriesInner_new.replace .zero .zero (fun _ => rfl) ht
          (b := keyNibble item.key d) (by rintro x (rfl | rfl); exacts [rfl, hb.symm])
        exact (r.carries ⟨item, existing, .inl (.inl rfl), .inl (.inr rfl), hne⟩).congr
          fun x => by simp
    · refine ⟨dirty c (fun _ => .zero) (Function.update (fun _ => .empty)
        (keyNibble item.key d) (.leaf ⟨ty, item, c, computeLeafHash sha ty item⟩))
        (keyNibble existing.key d)
        (.leaf ⟨ty, existing, c, computeLeafHash sha ty existing⟩), ?_, ?_⟩
      · simp only [split, ne_eq, hb, not_false_eq_true, if_true, freshLeaf_eq size,
          freshLeaf_eq size', bind, Except.bind]
      · exact carries_pair hne hb size size'

/-- The item is added unless its key is taken; `Good` says what the result is. -/
def Adds (item : SHAMapItem) (P : SHAMapItem → Prop) (Good : Tree → (SHAMapItem → Prop) → Prop)
    (r : Except Fault (Option Tree)) : Prop :=
  (∃ x, P x ∧ x.key = item.key) ∧ r = .ok none ∨
    (¬ ∃ x, P x ∧ x.key = item.key) ∧ ∃ t, r = .ok (some t) ∧ Good t fun x => x = item ∨ P x

/-- An inner node at depth `d` that carries the items. -/
def IsInner (sha : Sha512Half) (c : ℕ) (ty : LeafType) (d : ℕ) (t : Tree)
    (P : SHAMapItem → Prop) : Prop :=
  ∃ hash hashes child, t = .inner c hash hashes child ∧
    CarriesInner sha c ty d hash hashes child P

theorem CarriesInner.add (r : CarriesInner sha c ty d hash hashes child P)
    (hd : d < leafDepth) (below : Adds item (fun x => P x ∧ itemDigits x d = keyNibble item.key d)
      (Carries sha c ty (d + 1))
      (add sha c ty item (d + 1) (child (keyNibble item.key d)))) :
    Adds item P (IsInner sha c ty d)
      (add sha c ty item d (.inner c hash hashes child)) := by
  unfold Adds at below ⊢
  rw [exists_key_iff] at below
  rcases below with ⟨hex, hnone⟩ | ⟨hnew, t, hsome, ht⟩
  · refine .inl ⟨hex, ?_⟩
    unfold Tree.add at hnone ⊢
    rw [r.fresh.descend_inner hd, hnone]
    rfl
  · refine .inr ⟨hnew, dirty c hashes child (keyNibble item.key d) t, ?_, _, _, _, rfl, ?_⟩
    · unfold Tree.add at hsome ⊢
      rw [r.fresh.descend_inner hd, hsome]
      rfl
    · refine (r.replace .zero .zero (fun _ => rfl) ht ?_).congr ?_
      · rintro x (rfl | ⟨-, hx⟩)
        exacts [rfl, hx]
      · intro x
        constructor
        · rintro ((h | ⟨h, -⟩) | ⟨h, -⟩)
          exacts [.inl h, .inr h, .inr h]
        · rintro (h | h)
          · exact .inl (.inl h)
          · by_cases hx : itemDigits x d = keyNibble item.key d
            exacts [.inl (.inr ⟨h, hx⟩), .inr ⟨h, hx⟩]

theorem Carries.add (size : minItemBytes ≤ item.size) :
    ∀ {d : ℕ} {P : SHAMapItem → Prop}, Carries sha c ty d t P → Along item.key d P →
      Adds item P (Carries sha c ty d) (add sha c ty item d t) := by
  induction t with
  | empty =>
    intro d P h _
    have hP : ∀ x, ¬ P x := fun x hx => (h.mem x).mpr hx
    refine .inr ⟨fun ⟨x, hx, _⟩ => hP x hx, _, ?_, carries_leaf size fun x => by simp [hP]⟩
    simp only [Tree.add, descend, freshLeaf_eq size]
    rfl
  | stub =>
    intro d P h
    cases h.fresh
  | leaf n =>
    intro d P h along
    obtain ⟨existing, size', rfl⟩ : ∃ existing, ∃ _ : minItemBytes ≤ existing.size,
        n = ⟨ty, existing, c, computeLeafHash sha ty existing⟩ := by
      cases h.fresh with
      | leaf existing size' => exact ⟨existing, size', rfl⟩
    have hP : ∀ x, x = existing ↔ P x := h.mem
    by_cases hk : existing.key = item.key
    · refine .inl ⟨⟨existing, (hP existing).mp rfl, hk⟩, ?_⟩
      simp [Tree.add, descend, hk]
    · obtain ⟨t, hsplit, ht⟩ := split_carries sha c ty (Ne.symm hk) size size'
        (leafDepth + 1) d (by omega)
        fun i hi => (along existing ((hP existing).mp rfl) i hi).symm
      refine .inr ⟨?_, t, ?_, ht.congr fun x => by rw [← hP x]⟩
      · rintro ⟨x, hx, hxk⟩
        rw [(hP x).mpr hx] at hxk
        exact hk hxk
      · simp only [Tree.add, descend, hk, if_false, ne_eq, not_true, hsplit]
        rfl
  | inner cowid hash hashes child ih =>
    intro d P h along
    obtain ⟨rfl, r, hd, x, y, hx, hy, hne⟩ := h.inner_inv along
    rcases r.add hd (ih _ (r.carries_child _) along.step) with
      hold | ⟨hnew, t, hsome, _, _, _, rfl, ht⟩
    · exact .inl hold
    · exact .inr ⟨hnew, _, hsome, ht.carries ⟨x, y, .inr hx, .inr hy, hne⟩⟩

/-- The item under its key is replaced, or the call fails. -/
def Updates (item : SHAMapItem) (P : SHAMapItem → Prop)
    (Good : Tree → (SHAMapItem → Prop) → Prop) (r : Except Fault (Bool × Tree)) : Prop :=
  (¬ ∃ x, P x ∧ x.key = item.key) ∧ r = .error (.err (.missingExactLeaf item.key)) ∨
    (∃ x, P x ∧ x.key = item.key) ∧ ∃ changed t, r = .ok (changed, t) ∧
      Good t fun x => x = item ∨ P x ∧ x.key ≠ item.key

theorem CarriesInner.update (r : CarriesInner sha c ty d hash hashes child P)
    (hd : d < leafDepth)
    (below : Updates item (fun x => P x ∧ itemDigits x d = keyNibble item.key d)
      (Carries sha c ty (d + 1))
      (update sha c ty item (d + 1) (child (keyNibble item.key d)))) :
    Updates item P (IsInner sha c ty d)
      (update sha c ty item d (.inner c hash hashes child)) := by
  unfold Updates at below ⊢
  rw [exists_key_iff] at below
  rcases below with ⟨hnone, hfail⟩ | ⟨hex, changed, t, hsome, ht⟩
  · refine .inl ⟨hnone, ?_⟩
    unfold Tree.update at hfail ⊢
    rw [r.fresh.descend_inner hd, hfail]
    rfl
  · -- an unchanged hash leaves the stored one, which is set only if there is a child
    have hstored : t = .empty → hashes (keyNibble item.key d) = BaseUInt.zero := by
      rintro rfl
      exact ((ht.mem item).mpr (.inl rfl)).elim
    have hplaced : ∀ x, x = item ∨ (P x ∧ itemDigits x d = keyNibble item.key d) ∧
        x.key ≠ item.key → itemDigits x d = keyNibble item.key d := by
      rintro x (rfl | ⟨⟨-, hx⟩, -⟩)
      exacts [rfl, hx]
    have hitems : ∀ x, (x = item ∨ (P x ∧ itemDigits x d = keyNibble item.key d) ∧
        x.key ≠ item.key) ∨ P x ∧ itemDigits x d ≠ keyNibble item.key d ↔
        x = item ∨ P x ∧ x.key ≠ item.key := by
      intro x
      constructor
      · rintro ((h | ⟨⟨h, -⟩, hk⟩) | ⟨h, hb⟩)
        exacts [.inl h, .inr ⟨h, hk⟩, .inr ⟨h, fun hk => hb (by rw [itemDigits, hk])⟩]
      · rintro (h | ⟨h, hk⟩)
        · exact .inl (.inl h)
        · by_cases hx : itemDigits x d = keyNibble item.key d
          exacts [.inl (.inr ⟨⟨h, hx⟩, hk⟩), .inr ⟨h, hx⟩]
    have hrun : Tree.update sha c ty item d (.inner c hash hashes child) = .ok (changed,
        if changed then dirty c hashes child (keyNibble item.key d) t
        else .inner c hash hashes (Function.update child (keyNibble item.key d) t)) := by
      unfold Tree.update at hsome ⊢
      rw [r.fresh.descend_inner hd, hsome]
      rfl
    refine .inr ⟨hex, changed, _, hrun, ?_⟩
    cases changed with
    | true =>
      exact ⟨_, _, _, rfl,
        (r.replace .zero .zero (fun _ => rfl) ht hplaced).congr hitems⟩
    | false =>
      have r' := (r.replace hash (hashes (keyNibble item.key d)) hstored ht hplaced).congr hitems
      rw [Function.update_eq_self] at r'
      exact ⟨_, _, _, rfl, r'⟩

theorem Carries.update (size : minItemBytes ≤ item.size) :
    ∀ {d : ℕ} {P : SHAMapItem → Prop}, Carries sha c ty d t P → Along item.key d P →
      Updates item P (Carries sha c ty d) (update sha c ty item d t) := by
  induction t with
  | empty =>
    intro d P h _
    exact .inl ⟨fun ⟨x, hx, _⟩ => (h.mem x).mpr hx, rfl⟩
  | stub =>
    intro d P h
    cases h.fresh
  | leaf n =>
    intro d P h _
    obtain ⟨existing, rfl⟩ : ∃ existing,
        n = ⟨ty, existing, c, computeLeafHash sha ty existing⟩ := by
      cases h.fresh with
      | leaf existing _ => exact ⟨existing, rfl⟩
    have hP : ∀ x, x = existing ↔ P x := h.mem
    by_cases hk : existing.key = item.key
    · refine .inr ⟨⟨existing, (hP existing).mp rfl, hk⟩,
        computeLeafHash sha ty existing != computeLeafHash sha ty item, _, ?_,
        carries_leaf size ?_⟩
      · simp only [Tree.update, descend, hk, ne_eq, not_true, if_false, true_or, or_true, if_true]
      · intro x
        rw [← hP x]
        constructor
        · exact .inl
        · rintro (h | ⟨rfl, hne⟩)
          exacts [h, absurd hk hne]
    · refine .inl ⟨?_, ?_⟩
      · rintro ⟨x, hx, hxk⟩
        rw [(hP x).mpr hx] at hxk
        exact hk hxk
      · simp [Tree.update, descend, hk]
  | inner cowid hash hashes child ih =>
    intro d P h along
    obtain ⟨rfl, r, hd, x, y, hx, hy, hne⟩ := h.inner_inv along
    rcases r.update hd (ih _ (r.carries_child _) along.step) with
      hold | ⟨hex, changed, t, hsome, _, _, _, rfl, ht⟩
    · exact .inl hold
    · refine .inr ⟨hex, changed, _, hsome, ht.carries ?_⟩
      -- one of the two keys is not the one that was updated
      by_cases hxk : x.key = item.key
      · exact ⟨item, y, .inl rfl, .inr ⟨hy, fun h => hne (hxk.trans h.symm)⟩, fun h =>
          hne (hxk.trans h)⟩
      · by_cases hyk : y.key = item.key
        · exact ⟨x, item, .inr ⟨hx, hxk⟩, .inl rfl, hxk⟩
        · exact ⟨x, y, .inr ⟨hx, hxk⟩, .inr ⟨hy, hyk⟩, hne⟩

theorem mem_branches : b ∈ branches child ↔ (child b).isEmpty = false := by
  simp [branches, List.mem_finRange]

theorem Fresh.mem_branches (h : Fresh sha c ty (child b)) (hx : Mem x (child b).shape) :
    b ∈ branches child := by
  rw [Tree.mem_branches, Bool.eq_false_iff, Ne, h.isEmpty_iff]
  intro hempty
  simp [hempty] at hx

theorem Fresh.onlyBelow : ∀ {n : LeafNode}, Fresh sha c ty t →
    onlyBelow t = some n →
    n.leafType = ty ∧ minItemBytes ≤ n.item.size ∧ ∀ x, Mem x t.shape ↔ x = n.item := by
  induction t with
  | empty =>
    intro n _ h
    cases h
  | stub =>
    intro n _ h
    cases h
  | leaf m =>
    intro n hf h
    cases h
    cases hf with
    | leaf item size => exact ⟨rfl, size, fun x => Iff.rfl⟩
  | inner cowid hash hashes child ih =>
    intro n hf h
    obtain ⟨-, -, hbelow⟩ := hf.inner_inv
    unfold Tree.onlyBelow at h
    split at h
    · rename_i b hb
      obtain ⟨hty, hsize, hmem⟩ := ih b (hbelow b) h
      refine ⟨hty, hsize, fun x => ?_⟩
      rw [← hmem x]
      constructor
      · rintro ⟨b', hx⟩
        have hin := (hbelow b').mem_branches hx
        rw [hb, List.mem_singleton] at hin
        rwa [← hin]
      · exact fun hx => ⟨b, hx⟩
    · cases h

/-- Taking out a node with fewer than two leaves below it restores the canonical form. -/
theorem CarriesInner.settle (r : CarriesInner sha c ty d hash hashes child P) :
    ∃ t, settle sha c (.inner c hash hashes child) child = .ok t ∧
      Carries sha c ty d t P := by
  obtain ⟨-, -, hbelow⟩ := r.fresh.inner_inv
  have hexists : ∀ b ∈ branches child, ∃ x, P x ∧ itemDigits x d = b := by
    intro b hb
    rw [mem_branches, Bool.eq_false_iff, Ne, (hbelow b).isEmpty_iff] at hb
    obtain ⟨x, hx⟩ := (r.sorted.canon b).exists_mem hb
    exact ⟨x, (r.mem x).mp ⟨b, hx⟩, r.sorted.placed b x hx⟩
  unfold Tree.settle
  match hb : branches child with
  | [] =>
    refine ⟨.empty, rfl, carries_empty fun x hx => ?_⟩
    obtain ⟨b, hxb⟩ := (r.mem x).mpr hx
    have hin := (hbelow b).mem_branches hxb
    simp [hb] at hin
  | [b] =>
    cases hsole : onlyBelow (.inner c hash hashes child) with
    | some n =>
      obtain ⟨hty, hsize, hmem⟩ := r.fresh.onlyBelow hsole
      refine ⟨_, by simp only [hty, freshLeaf_eq hsize], carries_leaf hsize fun x => ?_⟩
      rw [← hmem x]
      exact r.mem x
    | none =>
      refine ⟨_, rfl, r.carries ?_⟩
      -- the child that is left is not a leaf, so it is canonical with two items
      have hchild : onlyBelow (child b) = none := by simpa [Tree.onlyBelow, hb] using hsole
      have hcanon := r.sorted.canon b
      have hin : b ∈ branches child := by simp [hb]
      cases ht : child b with
      | empty => simp [mem_branches, ht, isEmpty] at hin
      | stub =>
        have hf := hbelow b
        rw [ht] at hf
        cases hf
      | leaf n => simp [ht, Tree.onlyBelow] at hchild
      | inner cowid' hash' hashes' child' =>
        rw [ht] at hcanon
        obtain ⟨-, x, y, hx, hy, hne⟩ := canon_inner.mp hcanon
        have hin : ∀ {x}, Mem x (.inner fun b => (child' b).shape) → P x := by
          intro x hx
          refine (r.mem x).mp ⟨b, ?_⟩
          simpa only [ht, shape] using hx
        exact ⟨x, y, hin hx, hin hy, mt itemDigits_eq_iff.mpr hne⟩
  | b₁ :: b₂ :: bs =>
    refine ⟨_, rfl, r.carries ?_⟩
    obtain ⟨x, hx, hxb⟩ := hexists b₁ (by simp [hb])
    obtain ⟨y, hy, hyb⟩ := hexists b₂ (by simp [hb])
    refine ⟨x, y, hx, hy, fun hk => ?_⟩
    have hnodup : (branches child).Nodup := (List.nodup_finRange 16).filter _
    rw [hb, List.nodup_cons] at hnodup
    rw [itemDigits_eq_iff.mpr hk, hyb] at hxb
    exact hnodup.1 (by simp [hxb])

/-- The item under the key is removed, if there is one. -/
def Erases (key : Uint256) (P : SHAMapItem → Prop) (Good : Tree → (SHAMapItem → Prop) → Prop)
    (r : Except Fault (Option Tree)) : Prop :=
  (¬ ∃ x, P x ∧ x.key = key) ∧ r = .ok none ∨
    (∃ x, P x ∧ x.key = key) ∧ ∃ t, r = .ok (some t) ∧ Good t fun x => P x ∧ x.key ≠ key

/-- Removal below an inner node, up to what becomes of the node itself. -/
theorem CarriesInner.erase (r : CarriesInner sha c ty d hash hashes child P)
    (hd : d < leafDepth) (below : Erases key (fun x => P x ∧ itemDigits x d = keyNibble key d)
      (Carries sha c ty (d + 1))
      (erase sha c key (d + 1) (child (keyNibble key d)))) :
    (¬ ∃ x, P x ∧ x.key = key) ∧
        erase sha c key d (.inner c hash hashes child) = .ok none ∨
      (∃ x, P x ∧ x.key = key) ∧ ∃ hashes' child',
        erase sha c key d (.inner c hash hashes child) =
          (if d = 0 then .ok (some (.inner c .zero hashes' child'))
          else some <$> Tree.settle sha c (.inner c .zero hashes' child') child') ∧
        CarriesInner sha c ty d .zero hashes' child' fun x => P x ∧ x.key ≠ key := by
  unfold Erases at below
  rw [exists_key_iff] at below
  rcases below with ⟨hnone, hfail⟩ | ⟨hex, t, hsome, ht⟩
  · refine .inl ⟨hnone, ?_⟩
    unfold Tree.erase at hfail ⊢
    rw [r.fresh.descend_inner hd, hfail]
    rfl
  · refine .inr ⟨hex, Function.update hashes (keyNibble key d) .zero,
      Function.update child (keyNibble key d) t, ?_, ?_⟩
    · unfold Tree.erase at hsome ⊢
      rw [r.fresh.descend_inner hd, hsome]
      rfl
    · refine (r.replace .zero .zero (fun _ => rfl) ht ?_).congr ?_
      · rintro x ⟨⟨-, hx⟩, -⟩
        exact hx
      · intro x
        constructor
        · rintro (⟨⟨h, -⟩, hk⟩ | ⟨h, hb⟩)
          exacts [⟨h, hk⟩, ⟨h, fun hk => hb (by rw [itemDigits, hk])⟩]
        · rintro ⟨h, hk⟩
          by_cases hx : itemDigits x d = keyNibble key d
          exacts [.inl ⟨⟨h, hx⟩, hk⟩, .inr ⟨h, hx⟩]

theorem Carries.erase : ∀ {d : ℕ} {P : SHAMapItem → Prop},
    Carries sha c ty d t P → Along key d P → 0 < d →
      Erases key P (Carries sha c ty d) (erase sha c key d t) := by
  induction t with
  | empty =>
    intro d P h _ _
    exact .inl ⟨fun ⟨x, hx, _⟩ => (h.mem x).mpr hx, rfl⟩
  | stub =>
    intro d P h
    cases h.fresh
  | leaf n =>
    intro d P h _ _
    have hP : ∀ x, x = n.item ↔ P x := h.mem
    by_cases hk : n.item.key = key
    · refine .inr ⟨⟨n.item, (hP _).mp rfl, hk⟩, .empty, by simp [Tree.erase, descend, hk],
        carries_empty ?_⟩
      rintro x ⟨hx, hne⟩
      rw [(hP x).mpr hx] at hne
      exact hne hk
    · refine .inl ⟨?_, by simp [Tree.erase, descend, hk]⟩
      rintro ⟨x, hx, hxk⟩
      rw [(hP x).mpr hx] at hxk
      exact hk hxk
  | inner cowid hash hashes child ih =>
    intro d P h along hpos
    obtain ⟨rfl, r, hd, -⟩ := h.inner_inv along
    rcases r.erase hd (ih _ (r.carries_child _) along.step (Nat.succ_pos d)) with
      hold | ⟨hex, hashes', child', hrun, r'⟩
    · exact .inl hold
    · obtain ⟨t, hsettle, ht⟩ := r'.settle
      refine .inr ⟨hex, t, ?_, ht⟩
      rw [hrun, if_neg (Nat.pos_iff_ne_zero.mp hpos), hsettle]
      rfl

/-- After every node was hashed and shared, the items are all that is left to see. -/
theorem Fresh.share_eq : ∀ {t' : Tree} {c' : ℕ}, Fresh sha c ty t →
    Fresh sha c' ty t' → c ≠ 0 → c' ≠ 0 → t.shape = t'.shape →
    t.share sha = t'.share sha := by
  induction t with
  | empty =>
    intro t' c' _ h' _ _ hshape
    cases h' with
    | empty => rfl
    | leaf item _ => cases hshape
    | inner hash _ _ => cases hshape
  | stub =>
    intro t' c' h
    cases h
  | leaf n =>
    intro t' c' h h' hc hc' hshape
    cases h with
    | leaf item size =>
      cases h' with
      | empty => cases hshape
      | leaf item' size' =>
        obtain rfl : item = item' := by simpa [shape] using hshape
        simp [Tree.share, hc, hc']
      | inner hash _ _ => cases hshape
  | inner cowid hash hashes child ih =>
    intro t' c' h h' hc hc' hshape
    obtain ⟨rfl, hvacant, hbelow⟩ := h.inner_inv
    cases h' with
    | empty => cases hshape
    | leaf item' _ => cases hshape
    | @inner hash' hashes' child' hvacant' hbelow' =>
      have hchild : ∀ b, (child b).shape = (child' b).shape := by
        intro b
        exact congrFun (Trie.inner.inj hshape) b
      have hshare : ∀ b, (child b).share sha = (child' b).share sha :=
        fun b => ih b (hbelow b) (hbelow' b) hc hc' (hchild b)
      have hempty : ∀ b, (child b).isEmpty = (child' b).isEmpty := by
        intro b
        rw [Bool.eq_iff_iff, (hbelow b).isEmpty_iff, (hbelow' b).isEmpty_iff, hchild b]
      have hbranches : branches child = branches child' := by
        unfold branches
        simp only [hempty]
      have hhashes : ∀ b,
          (if (child b).isLoaded then ((child' b).share sha).hash else hashes b) =
            if (child' b).isLoaded then ((child' b).share sha).hash else hashes' b := by
        intro b
        rw [(hbelow b).isLoaded_eq, (hbelow' b).isLoaded_eq, ← hempty b]
        cases he : (child b).isEmpty with
        | false => rfl
        | true =>
          rw [hvacant b ((hbelow b).eq_empty he),
            hvacant' b ((hbelow' b).eq_empty (by rw [← hempty b, he]))]
      simp only [Tree.share, hc, hc', if_false, hbranches, hshare, hhashes]

end Tree

end Quaxar.SHAMap
