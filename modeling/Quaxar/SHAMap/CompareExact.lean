import Quaxar.SHAMap.Differences

/-!
# The comparison is exact

The list of differences of two canonical tries names every key under which they differ
once, with the item of either side. Equal hashes hide nothing, because tries with equal
hashes are equal. A comparison with a limit records the first differences of that list
up to the limit.
-/

namespace Quaxar.SHAMap

open RadixTrie
open Function (update update_apply update_of_ne update_self)

/-- `L` names the keys at which the two maps differ, each once. -/
structure Exact (f g : Uint256 → Option SHAMapItem) (L : List Difference) : Prop where
  nodup : (L.map Difference.key).Nodup
  mem : ∀ δ, δ ∈ L ↔ δ.left = f δ.key ∧ δ.right = g δ.key ∧ δ.left ≠ δ.right

variable {k : Uint256}

namespace Exact

variable {f g : Uint256 → Option SHAMapItem} {L : List Difference}

theorem nil (f : Uint256 → Option SHAMapItem) : Exact f f [] := by
  refine ⟨List.nodup_nil, fun δ => ?_⟩
  constructor
  · intro h
    cases h
  · rintro ⟨hl, hr, hne⟩
    exact absurd (hl.trans hr.symm) hne

/-- A listed key has an item on one side. -/
theorem key_ne_none (h : Exact f g L) {δ : Difference} (hδ : δ ∈ L) :
    f δ.key ≠ none ∨ g δ.key ≠ none := by
  obtain ⟨hl, hr, hne⟩ := (h.mem δ).mp hδ
  by_contra hnone
  rw [not_or, not_not, not_not] at hnone
  exact hne (by rw [hl, hr, hnone.1, hnone.2])

theorem cons (h : Exact f g L) {l r : Option SHAMapItem} (hf : f k = none) (hg : g k = none)
    (hne : l ≠ r) : Exact (update f k l) (update g k r) (⟨k, l, r⟩ :: L) := by
  have hfresh : ∀ δ ∈ L, δ.key ≠ k := by
    intro δ hδ hk
    rcases h.key_ne_none hδ with h' | h'
    · exact h' (by rw [hk, hf])
    · exact h' (by rw [hk, hg])
  constructor
  · rw [List.map_cons, List.nodup_cons]
    refine ⟨?_, h.nodup⟩
    intro hk
    obtain ⟨δ, hδ, hkey⟩ := List.mem_map.mp hk
    exact hfresh δ hδ hkey
  · intro δ
    rw [List.mem_cons]
    by_cases hk : δ.key = k
    · rw [hk, update_self, update_self]
      constructor
      · rintro (rfl | hδ)
        · exact ⟨rfl, rfl, hne⟩
        · exact absurd hk (hfresh δ hδ)
      · rintro ⟨hl, hr, -⟩
        left
        cases δ
        simp_all
    · rw [update_of_ne hk, update_of_ne hk, ← h.mem δ]
      constructor
      · rintro (rfl | hδ)
        · exact absurd rfl hk
        · exact hδ
      · exact .inr

theorem cons_same (h : Exact f g L) (v : Option SHAMapItem) (hf : f k = none) (hg : g k = none) :
    Exact (update f k v) (update g k v) L := by
  refine ⟨h.nodup, fun δ => ?_⟩
  by_cases hk : δ.key = k
  · rw [hk, update_self, update_self]
    constructor
    · intro hδ
      rcases h.key_ne_none hδ with h' | h'
      · exact absurd (by rw [hk, hf]) h'
      · exact absurd (by rw [hk, hg]) h'
    · rintro ⟨hl, hr, hne⟩
      exact absurd (hl.trans hr.symm) hne
  · rw [update_of_ne hk, update_of_ne hk, h.mem δ]

theorem perm (h : Exact f g L) {L' : List Difference} (hp : L'.Perm L) : Exact f g L' :=
  ⟨(hp.map _).nodup_iff.mpr h.nodup, fun δ => hp.mem_iff.trans (h.mem δ)⟩

theorem swap (h : Exact f g L) : Exact g f (L.map fun δ => ⟨δ.key, δ.right, δ.left⟩) := by
  constructor
  · rw [List.map_map]
    exact h.nodup
  · intro δ
    rw [List.mem_map]
    constructor
    · rintro ⟨δ', hδ', rfl⟩
      obtain ⟨hl, hr, hne⟩ := (h.mem δ').mp hδ'
      exact ⟨hr, hl, hne.symm⟩
    · rintro ⟨hl, hr, hne⟩
      exact ⟨⟨δ.key, δ.right, δ.left⟩, (h.mem _).mpr ⟨hr, hl, hne.symm⟩, rfl⟩

/-- Differences that were found branch by branch, where the nibble of a key tells its
branch. -/
theorem join {F G : Fin 16 → Uint256 → Option SHAMapItem} {parts : Fin 16 → List Difference}
    {nibble : Uint256 → Fin 16} (h : ∀ b, Exact (F b) (G b) (parts b))
    (placed : ∀ b k, F b k ≠ none ∨ G b k ≠ none → nibble k = b) :
    Exact (fun k => F (nibble k) k) (fun k => G (nibble k) k)
      ((List.finRange 16).flatMap parts) := by
  have hbranch : ∀ b, ∀ δ ∈ parts b, nibble δ.key = b :=
    fun b δ hδ => placed b δ.key ((h b).key_ne_none hδ)
  constructor
  · rw [List.map_flatMap, List.nodup_flatMap]
    refine ⟨fun b _ => (h b).nodup, ?_⟩
    refine (List.nodup_finRange 16).imp fun {b b'} hne k hk hk' => ?_
    obtain ⟨δ, hδ, rfl⟩ := List.mem_map.mp hk
    obtain ⟨δ', hδ', hkey⟩ := List.mem_map.mp hk'
    exact hne (by rw [← hbranch b δ hδ, ← hbranch b' δ' hδ', hkey])
  · intro δ
    rw [List.mem_flatMap]
    constructor
    · rintro ⟨b, -, hδ⟩
      rw [hbranch b δ hδ]
      exact ((h b).mem δ).mp hδ
    · intro hδ
      exact ⟨nibble δ.key, List.mem_finRange _, ((h _).mem δ).mpr hδ⟩

end Exact

/-- The item of a list under a key. -/
def itemIn (items : List SHAMapItem) (key : Uint256) : Option SHAMapItem :=
  items.find? fun x => x.key = key

/-- The item of a trie under a key. -/
def itemAt (T : MerkleTrie) : Uint256 → Option SHAMapItem := itemIn (stackItems T)

theorem itemIn_nil : itemIn [] = fun _ => none := rfl

theorem itemIn_cons (x : SHAMapItem) (items : List SHAMapItem) :
    itemIn (x :: items) = update (itemIn items) x.key (some x) := by
  funext k
  by_cases hk : k = x.key
  · subst hk
    simp [itemIn]
  · simp [itemIn, hk, Ne.symm hk]

variable {items : List SHAMapItem}

theorem itemIn_eq_none : itemIn items k = none ↔ k ∉ items.map SHAMapItem.key := by
  simp [itemIn, List.find?_eq_none]

theorem itemIn_eq_some (hnodup : (items.map SHAMapItem.key).Nodup) {x : SHAMapItem} :
    itemIn items k = some x ↔ x ∈ items ∧ x.key = k := by
  constructor
  · intro h
    exact ⟨List.mem_of_find?_eq_some h, by simpa using List.find?_some h⟩
  · rintro ⟨hx, rfl⟩
    cases hfind : itemIn items x.key with
    | none => exact absurd (List.mem_map.mpr ⟨x, hx, rfl⟩) (itemIn_eq_none.mp hfind)
    | some y =>
      have hy := List.mem_of_find?_eq_some hfind
      have hk : y.key = x.key := by simpa using List.find?_some hfind
      rw [List.inj_on_of_nodup_map hnodup hy hx hk]

theorem sideDiffs_false (other : Option SHAMapItem) (items : List SHAMapItem) :
    sideDiffs false other items =
      (sideDiffs true other items).map fun δ => ⟨δ.key, δ.right, δ.left⟩ := by
  induction items generalizing other with
  | nil => cases other <;> rfl
  | cons x items ih =>
    cases other with
    | none => simp [sideDiffs, side]
    | some o =>
      simp only [sideDiffs]
      split_ifs with hk hd
      · simp [ih (some o), side]
      · simp [side]
      · simp [side]

theorem exact_sideDiffs_none (hnodup : (items.map SHAMapItem.key).Nodup) :
    Exact (itemIn items) (fun _ => none) (sideDiffs true none items) := by
  induction items with
  | nil => exact Exact.nil _
  | cons x items ih =>
    rw [List.map_cons, List.nodup_cons] at hnodup
    have hrest := ih hnodup.2
    have hcons := hrest.cons (itemIn_eq_none.mpr hnodup.1) rfl (l := some x) (r := none) (by simp)
    rw [itemIn_cons]
    simpa [sideDiffs, side, Function.update_eq_self_iff.mpr] using hcons

theorem exact_sideDiffs_some (o : SHAMapItem) (hnodup : (items.map SHAMapItem.key).Nodup) :
    Exact (itemIn items) (itemIn [o]) (sideDiffs true (some o) items) := by
  induction items with
  | nil =>
    have hcons := (Exact.nil fun _ => none).cons (k := o.key) (l := none) (r := some o) rfl rfl
      (by simp)
    rw [itemIn_cons, itemIn_nil]
    simpa [sideDiffs, side] using hcons
  | cons x items ih =>
    rw [List.map_cons, List.nodup_cons] at hnodup
    have hfresh := itemIn_eq_none.mpr hnodup.1
    rw [itemIn_cons, sideDiffs]
    by_cases hk : x.key = o.key
    · rw [if_neg (not_not.mpr hk)]
      have hrest := exact_sideDiffs_none hnodup.2
      have ho : itemIn [o] = update (fun _ => none) x.key (some o) := by
        rw [itemIn_cons, hk]
        rfl
      rw [ho]
      by_cases hd : x.data = o.data
      · rw [if_neg (not_not.mpr hd), SHAMapItem.ext hk hd]
        exact hrest.cons_same (some o) (hk ▸ hfresh) rfl
      · rw [if_pos hd]
        exact hrest.cons hfresh rfl fun h => hd (by rw [Option.some.inj h])
    · rw [if_pos hk]
      have hnone : itemIn [o] x.key = none := by simp [itemIn, Ne.symm hk]
      have hcons := (ih hnodup.2).cons hfresh hnone (l := some x) (r := none) (by simp)
      rwa [← hnone, Function.update_eq_self, hnone] at hcons

variable {T : MerkleTrie} {d : ℕ} {kids : Fin 16 → MerkleTrie}

theorem mem_stackItems {x : SHAMapItem} : x ∈ stackItems T ↔ ∃ e, Mem e T ∧ e.item = x := by
  induction T with
  | empty => simp [stackItems]
  | leaf e => simp [stackItems, eq_comm]
  | inner kids ih =>
    simp only [stackItems, List.mem_flatMap, List.mem_reverse, List.mem_finRange, true_and, ih]
    constructor
    · rintro ⟨b, e, he, hx⟩
      exact ⟨e, ⟨b, he⟩, hx⟩
    · rintro ⟨e, ⟨b, he⟩, hx⟩
      exact ⟨b, e, he, hx⟩

theorem nibble_of_mem (s : Sorted entryDigits d kids) {b : Fin 16}
    (hk : k ∈ (stackItems (kids b)).map SHAMapItem.key) : keyNibble k d = b := by
  obtain ⟨x, hx, rfl⟩ := List.mem_map.mp hk
  obtain ⟨e, he, rfl⟩ := mem_stackItems.mp hx
  exact s.placed b e he

theorem nodup_inner (s : Sorted entryDigits d kids)
    (h : ∀ b, ((stackItems (kids b)).map SHAMapItem.key).Nodup) :
    ((stackItems (.inner kids)).map SHAMapItem.key).Nodup := by
  rw [stackItems, List.map_flatMap, List.nodup_flatMap]
  refine ⟨fun b _ => h b, ?_⟩
  refine ((List.nodup_reverse.mpr (List.nodup_finRange 16))).imp fun {b b'} hne k hk hk' => ?_
  exact hne ((nibble_of_mem s hk).symm.trans (nibble_of_mem s hk'))

theorem nodup_stackItems : ∀ {d : ℕ}, Canon entryDigits d T →
    ((stackItems T).map SHAMapItem.key).Nodup := by
  induction T with
  | empty =>
    intro d _
    exact List.nodup_nil
  | leaf e =>
    intro d _
    exact List.nodup_singleton _
  | inner kids ih =>
    intro d h
    obtain ⟨s, -⟩ := canon_inner.mp h
    exact nodup_inner s fun b => ih b (s.canon b)

/-- The item under a key is found where its nibble leads. -/
theorem itemAt_inner (s : Sorted entryDigits d kids) (k : Uint256) :
    itemAt (.inner kids) k = itemAt (kids (keyNibble k d)) k := by
  have hkids := fun b => nodup_stackItems (s.canon b)
  apply Option.ext
  intro x
  rw [itemAt, itemAt, itemIn_eq_some (nodup_inner s hkids), itemIn_eq_some (hkids _)]
  refine and_congr_left ?_
  rintro rfl
  constructor
  · intro hx
    obtain ⟨b, -, hxb⟩ := List.mem_flatMap.mp hx
    rwa [nibble_of_mem s (List.mem_map.mpr ⟨x, hxb, rfl⟩)]
  · intro hx
    exact List.mem_flatMap.mpr ⟨_, by simp, hx⟩

variable {sha : Sha512Half} {E : Set (List UInt8)} {kids' : Fin 16 → MerkleTrie}
  (L : List Difference) (e : LeafEntry)

theorem exact_leaves (x y : LeafEntry) :
    Exact (itemAt (.leaf x)) (itemAt (.leaf y)) (pairDiffs sha (.leaf x) (.leaf y)) := by
  have hone := @exact_sideDiffs_some [x.item] y.item (by simp)
  have hlist : sideDiffs true (some y.item) [x.item] =
      pairDiffs sha (.leaf x) (.leaf y) := by
    simp only [sideDiffs, pairDiffs, side, ne_eq, ite_not, List.map_nil, if_true]
  rwa [hlist] at hone

theorem exact_branch (cf : CollisionFree sha E) {U : MerkleTrie}
    (hT : Canon entryDigits d T) (hU : Canon entryDigits d U)
    (hE : nodeEncodings sha T ⊆ E) (hE' : nodeEncodings sha U ⊆ E)
    (hk : Keyed sha T) (hk' : Keyed sha U)
    (hpair : T ≠ .empty → U ≠ .empty → Exact (itemAt T) (itemAt U) (pairDiffs sha T U)) :
    Exact (itemAt T) (itemAt U) (oneSided sha T U ++
      if merkleHash sha T = merkleHash sha U then []
      else pairDiffs sha T U) := by
  unfold oneSided
  by_cases hhash : merkleHash sha T = merkleHash sha U
  · rw [if_pos hhash, if_pos hhash, cf.trie_eq hT hU hE hE' hk hk' hhash]
    exact Exact.nil _
  · rw [if_neg hhash, if_neg hhash]
    by_cases hU0 : U = .empty
    · rw [pairDiffs_empty (.inr hU0), List.append_nil, if_pos (Trie.isEmpty_iff.mpr hU0), hU0]
      exact exact_sideDiffs_none (nodup_stackItems hT)
    · rw [if_neg (mt Trie.isEmpty_iff.mp hU0)]
      by_cases hT0 : T = .empty
      · rw [pairDiffs_empty (.inl hT0), List.append_nil, if_pos (Trie.isEmpty_iff.mpr hT0), hT0,
          sideDiffs_false]
        exact (exact_sideDiffs_none (nodup_stackItems hU)).swap
      · rw [if_neg (mt Trie.isEmpty_iff.mp hT0)]
        exact hpair hT0 hU0

theorem exact_inner (cf : CollisionFree sha E) (s : Sorted entryDigits d kids)
    (s' : Sorted entryDigits d kids') (hE : nodeEncodings sha (.inner kids) ⊆ E)
    (hE' : nodeEncodings sha (.inner kids') ⊆ E) (hk : Keyed sha (.inner kids))
    (hk' : Keyed sha (.inner kids')) (hpair : ∀ b, kids b ≠ .empty → kids' b ≠ .empty →
      Exact (itemAt (kids b)) (itemAt (kids' b)) (pairDiffs sha (kids b) (kids' b))) :
    Exact (itemAt (.inner kids)) (itemAt (.inner kids'))
      (pairDiffs sha (.inner kids) (.inner kids')) := by
  have hbranch := fun b => exact_branch cf (s.canon b) (s'.canon b)
    ((nodeEncodings_child b).trans hE) ((nodeEncodings_child b).trans hE') (hk.child b)
    (hk'.child b) (hpair b)
  have hplaced : ∀ b k, itemAt (kids b) k ≠ none ∨ itemAt (kids' b) k ≠ none →
      keyNibble k d = b := by
    rintro b k (h | h)
    · exact nibble_of_mem s (not_not.mp (mt itemIn_eq_none.mpr h))
    · exact nibble_of_mem s' (not_not.mp (mt itemIn_eq_none.mpr h))
  have hjoin := Exact.join hbranch hplaced
  rw [show itemAt (.inner kids) = fun k => itemAt (kids (keyNibble k d)) k from
      funext (itemAt_inner s),
    show itemAt (.inner kids') = fun k => itemAt (kids' (keyNibble k d)) k from
      funext (itemAt_inner s')]
  refine hjoin.perm ?_
  refine List.Perm.trans ?_ (List.flatMap_append_perm _ _ _)
  exact ((List.reverse_perm (List.finRange 16)).flatMap_right _).append_left _

theorem exact_pairDiffs (cf : CollisionFree sha E) :
    ∀ {d : ℕ} {U : MerkleTrie}, Canon entryDigits d T → Canon entryDigits d U →
      nodeEncodings sha T ⊆ E → nodeEncodings sha U ⊆ E →
      Keyed sha T → Keyed sha U → T ≠ .empty → U ≠ .empty →
      Exact (itemAt T) (itemAt U) (pairDiffs sha T U) := by
  induction T with
  | empty =>
    intro d U _ _ _ _ _ _ h
    exact absurd rfl h
  | leaf x =>
    intro d U hT hU _ _ _ _ _ hU0
    cases U with
    | empty => exact absurd rfl hU0
    | leaf y => exact exact_leaves x y
    | inner kids' =>
      rw [pairDiffs, sideDiffs_false]
      exact (exact_sideDiffs_some x.item (nodup_stackItems hU)).swap
  | inner kids ih =>
    intro d U hT hU hE hE' hk hk' _ hU0
    cases U with
    | empty => exact absurd rfl hU0
    | leaf y => exact exact_sideDiffs_some y.item (nodup_stackItems hT)
    | inner kids' =>
      obtain ⟨s, -⟩ := canon_inner.mp hT
      obtain ⟨s', -⟩ := canon_inner.mp hU
      refine exact_inner cf s s' hE hE' hk hk' fun b h h' => ?_
      exact ih b (s.canon b) (s'.canon b) ((nodeEncodings_child b).trans hE)
        ((nodeEncodings_child b).trans hE') (hk.child b) (hk'.child b) h h'

/-- Add the differences of a list to a delta. -/
def addAll (Δ : Delta) (L : List Difference) : Delta :=
  L.foldl (fun Δ δ => if δ.key ∈ Δ then Δ else Δ.insert δ.key (δ.left, δ.right)) Δ

theorem emit_eq : ∀ (Δ : Delta) {m : ℤ}, 1 ≤ m →
    emit L ⟨Δ, m⟩ = if (L.length : ℤ) < m then (⟨addAll Δ L, m - L.length⟩, true)
      else (⟨addAll Δ (L.take m.toNat), 0⟩, false) := by
  induction L with
  | nil =>
    intro Δ m hm
    have hpos : (0 : ℤ) < m := by omega
    simp [emit, addAll, hpos]
  | cons δ L ih =>
    intro Δ m hm
    have hlen : ((δ :: L).length : ℤ) = L.length + 1 := by simp
    obtain ⟨Δ', hΔ'⟩ : ∃ Δ', Δ' = if δ.key ∈ Δ then Δ else Δ.insert δ.key (δ.left, δ.right) :=
      ⟨_, rfl⟩
    have hadd : ∀ L', addAll Δ (δ :: L') = addAll Δ' L' := by
      intro L'
      rw [hΔ']
      rfl
    by_cases hlast : 0 < m - 1
    · have hstep : emit (δ :: L) ⟨Δ, m⟩ = emit L ⟨Δ', m - 1⟩ := by
        simp only [emit, recordDifference, hlast, decide_true, hΔ']
      rw [hstep, ih Δ' (by omega), hlen]
      by_cases hL : (L.length : ℤ) < m - 1
      · rw [if_pos hL, if_pos (by omega), hadd,
          show m - (L.length + 1 : ℤ) = m - 1 - L.length by omega]
      · rw [if_neg hL, if_neg (by omega), show m.toNat = (m - 1).toNat + 1 by omega,
          List.take_succ_cons, hadd]
    · obtain rfl : m = 1 := by omega
      simp [emit, recordDifference, addAll]

theorem addAll_spec : ∀ {Δ : Delta}, (L.map Difference.key).Nodup → (∀ δ ∈ L, δ.key ∉ Δ) →
    (addAll Δ L).keys.card = Δ.keys.card + L.length ∧
      ∀ k p, (addAll Δ L).lookup k = some p ↔
        Δ.lookup k = some p ∨ ∃ δ ∈ L, δ.key = k ∧ p = (δ.left, δ.right) := by
  induction L with
  | nil =>
    intro Δ _ _
    simp [addAll]
  | cons δ L ih =>
    intro Δ hnodup hfresh
    rw [List.map_cons, List.nodup_cons] at hnodup
    have hδ : δ.key ∉ Δ := hfresh δ (by simp)
    have hstep : addAll Δ (δ :: L) = addAll (Δ.insert δ.key (δ.left, δ.right)) L := by
      simp [addAll, hδ]
    have hfresh' : ∀ δ' ∈ L, δ'.key ∉ Δ.insert δ.key (δ.left, δ.right) := by
      intro δ' hδ' hmem
      rcases Finmap.mem_insert.mp hmem with hk | hk
      · exact hnodup.1 (List.mem_map.mpr ⟨δ', hδ', hk⟩)
      · exact hfresh δ' (by simp [hδ']) hk
    obtain ⟨hcard, hlookup⟩ := ih hnodup.2 hfresh'
    rw [hstep]
    constructor
    · have hkeys : (Δ.insert δ.key (δ.left, δ.right)).keys = insert δ.key Δ.keys := by
        ext k
        simp [Finmap.mem_keys]
      rw [hcard, hkeys, Finset.card_insert_of_notMem (by simpa [Finmap.mem_keys] using hδ)]
      simp only [List.length_cons]
      omega
    · intro k p
      rw [hlookup k p]
      by_cases hk : k = δ.key
      · subst hk
        have hnone := Finmap.lookup_eq_none.mpr hδ
        have hout : ¬ ∃ δ' ∈ L, δ'.key = δ.key ∧ p = (δ'.left, δ'.right) := by
          rintro ⟨δ', hδ', hkey, -⟩
          exact hnodup.1 (List.mem_map.mpr ⟨δ', hδ', hkey⟩)
        rw [Finmap.lookup_insert, hnone]
        simp only [List.mem_cons, exists_eq_or_imp, hout, or_false, true_and, reduceCtorEq,
          false_or, Option.some.injEq]
        exact eq_comm
      · rw [Finmap.lookup_insert_of_ne _ hk]
        simp [Ne.symm hk]

/-- The tree at `t`, with unloaded nodes from `src`, is the canonical tree of the typed
items in `T`; its hashes may still have to be filled in. -/
structure CanonicalTree (sha : Sha512Half) (src : NodeSource) (t : Tree)
    (T : MerkleTrie) : Prop where
  loads : Loads sha src t T
  sorted : ∃ kids, T = .inner kids ∧ Sorted entryDigits 0 kids

variable {left right : NodeSource} {a b : Tree} {A B : MerkleTrie}

/-- The differences that a comparison of two canonical trees comes upon. -/
theorem compare_emit (hA : CanonicalTree sha left a A)
    (hB : CanonicalTree sha right b B)
    (cf : CollisionFree sha (nodeEncodings sha A ∪ nodeEncodings sha B))
    (kA : Keyed sha A) (kB : Keyed sha B) :
    ∃ L N, Exact (itemAt A) (itemAt B) L ∧ ∀ fuel ≥ N, ∀ Δ m,
      compare sha fuel a b left right Δ m = .ok (emit L ⟨Δ, m⟩) := by
  have hSA := hA.loads.ensure
  have hSB := hB.loads.ensure
  obtain ⟨kids, rfl, s⟩ := hA.sorted
  obtain ⟨kids', rfl, s'⟩ := hB.sorted
  have hE : nodeEncodings sha (.inner kids) ⊆
      nodeEncodings sha (.inner kids) ∪ nodeEncodings sha (.inner kids') :=
    Set.subset_union_left
  have hE' : nodeEncodings sha (.inner kids') ⊆
      nodeEncodings sha (.inner kids) ∪ nodeEncodings sha (.inner kids') :=
    Set.subset_union_right
  by_cases hhash : merkleHash sha (.inner kids) = merkleHash sha (.inner kids')
  · have hkids : kids = kids' := by
      funext b
      exact cf.trie_eq (s.canon b) (s'.canon b) ((nodeEncodings_child b).trans hE)
        ((nodeEncodings_child b).trans hE') (kA.child b) (kB.child b)
        (cf.child_hash_eq hE hE' hhash b)
    refine ⟨[], 0, hkids ▸ Exact.nil _, fun fuel _ Δ m => ?_⟩
    unfold compare
    rw [if_pos (by rw [hSA.hash_eq_merkle, hSB.hash_eq_merkle, hhash])]
    rfl
  · refine ⟨pairDiffs sha (.inner kids) (.inner kids'),
      nodeCount (.inner kids) + nodeCount (.inner kids') + 1,
      exact_inner cf s s' hE hE' kA kB fun b h h' => ?_, fun fuel hfuel Δ m => ?_⟩
    · exact exact_pairDiffs cf (s.canon b) (s'.canon b) ((nodeEncodings_child b).trans hE)
        ((nodeEncodings_child b).trans hE') (kA.child b) (kB.child b) h h'
    · unfold compare
      rw [if_neg (by rwa [hSA.hash_eq_merkle, hSB.hash_eq_merkle])]
      have hlt : nodeCount (.inner kids) < fuel := by omega
      have hlt' : nodeCount (.inner kids') < fuel := by omega
      have hpair : StandsPair sha left right fuel (a.ensureLoadedHashes sha,
          b.ensureLoadedHashes sha) (.inner kids, .inner kids') :=
        ⟨hSA, hSB, by simp, by simp, hlt, hlt'⟩
      have hloop := compareLoop_eq fuel (.cons hpair .nil) (by simpa using hlt) ⟨Δ, m⟩
      simpa using hloop

/-- Comparing two canonical trees is exact: it succeeds if and only if fewer than the
allowed number of keys differ, and then the delta maps exactly these keys to their two
items; otherwise the delta holds the allowed number of differences. -/
theorem compare_exact (hA : CanonicalTree sha left a A)
    (hB : CanonicalTree sha right b B)
    (cf : CollisionFree sha (nodeEncodings sha A ∪ nodeEncodings sha B))
    (kA : Keyed sha A) (kB : Keyed sha B) {maxCount : ℤ} (hmax : 1 ≤ maxCount) :
    {k | itemAt A k ≠ itemAt B k}.Finite ∧
    ∃ N, ∀ fuel ≥ N, ∃ s ok, compare sha fuel a b left right ∅ maxCount = .ok (s, ok) ∧
      (ok = true ↔ ({k | itemAt A k ≠ itemAt B k}.ncard : ℤ) < maxCount) ∧
      (ok = true → ∀ k, s.differences.lookup k =
        if itemAt A k = itemAt B k then none else some (itemAt A k, itemAt B k)) ∧
      (ok = false → (s.differences.keys.card : ℤ) = maxCount ∧
        ∀ k p, s.differences.lookup k = some p →
          itemAt A k ≠ itemAt B k ∧ p = (itemAt A k, itemAt B k)) := by
  obtain ⟨L, N, hL, hrun⟩ := compare_emit hA hB cf kA kB
  have hkeys : {k | itemAt A k ≠ itemAt B k} = ((L.map Difference.key).toFinset : Set Uint256) := by
    ext k
    simp only [Set.mem_ofPred_eq, List.coe_toFinset, List.mem_map]
    constructor
    · intro hne
      exact ⟨⟨k, itemAt A k, itemAt B k⟩, (hL.mem _).mpr ⟨rfl, rfl, hne⟩, rfl⟩
    · rintro ⟨δ, hδ, rfl⟩
      obtain ⟨hl, hr, hne⟩ := (hL.mem δ).mp hδ
      rwa [← hl, ← hr]
  have hcard : {k | itemAt A k ≠ itemAt B k}.ncard = L.length := by
    rw [hkeys, Set.ncard_coe_finset, List.toFinset_card_of_nodup hL.nodup, List.length_map]
  refine ⟨hkeys ▸ Finset.finite_toSet _, N, fun fuel hfuel => ?_⟩
  rw [hrun fuel hfuel, emit_eq L ∅ hmax, hcard]
  by_cases hlt : (L.length : ℤ) < maxCount
  · rw [if_pos hlt]
    refine ⟨_, true, rfl, by simpa using hlt, fun _ k => ?_, by simp⟩
    obtain ⟨-, hlookup⟩ := addAll_spec L (Δ := ∅) hL.nodup fun δ _ => Finmap.notMem_empty
    apply Option.ext
    intro p
    rw [hlookup k p, Finmap.lookup_empty]
    split_ifs with heq
    · simp only [false_or, iff_false]
      rintro ⟨δ, hδ, rfl, -⟩
      obtain ⟨hl, hr, hne⟩ := (hL.mem δ).mp hδ
      exact hne (by rw [hl, hr, heq])
    · simp only [false_or, Option.some.injEq]
      constructor
      · rintro ⟨δ, hδ, rfl, rfl⟩
        obtain ⟨hl, hr, -⟩ := (hL.mem δ).mp hδ
        rw [hl, hr]
      · rintro rfl
        exact ⟨⟨k, itemAt A k, itemAt B k⟩, (hL.mem _).mpr ⟨rfl, rfl, heq⟩, rfl, rfl⟩
  · rw [if_neg hlt]
    have hsub : (L.take maxCount.toNat).Sublist L := List.take_sublist _ _
    obtain ⟨hcount, hlookup⟩ := addAll_spec (L.take maxCount.toNat) (Δ := ∅)
      (hL.nodup.sublist (hsub.map _)) fun δ _ => Finmap.notMem_empty
    refine ⟨_, false, rfl, by simpa using hlt, by simp, fun _ => ⟨?_, fun k p hp => ?_⟩⟩
    · rw [hcount, List.length_take]
      simp only [Finmap.keys_empty, Finset.card_empty]
      omega
    · rw [hlookup k p, Finmap.lookup_empty] at hp
      simp only [reduceCtorEq, false_or] at hp
      obtain ⟨δ, hδ, rfl, rfl⟩ := hp
      obtain ⟨hl, hr, hne⟩ := (hL.mem δ).mp (hsub.subset hδ)
      exact ⟨by rwa [← hl, ← hr], by rw [hl, hr]⟩

/-- A trie with the items of a map. -/
theorem itemAt_eq {kids : Fin 16 → MerkleTrie} {m : Uint256 → Option SHAMapItem}
    (s : Sorted entryDigits 0 kids) (keyed : ∀ key x, m key = some x → x.key = key)
    (h : ∀ x, (∃ e, Mem e (.inner kids) ∧ e.item = x) ↔ m x.key = some x) :
    itemAt (.inner kids) = m := by
  have hnodup := nodup_inner s fun b => nodup_stackItems (s.canon b)
  funext key
  refine Option.ext fun x => ?_
  rw [itemAt, itemIn_eq_some hnodup, mem_stackItems, h]
  constructor
  · rintro ⟨hx, rfl⟩
    exact hx
  · intro hx
    obtain rfl := keyed key x hx
    exact ⟨hx, rfl⟩

theorem key_of_itemIn {x : SHAMapItem} (h : itemIn items k = some x) : x.key = k := by
  simpa using List.find?_some h

section Flat

variable {e} {es : List LeafEntry}

/-- The leaf of a list in a branch of the root. -/
def flatLeaf (es : List LeafEntry) (b : Fin 16) : Option LeafEntry :=
  es.find? fun e => keyNibble e.item.key 0 = b

/-- A new tree after the insertion of leaves whose keys differ in the first nibble. -/
def flatTree (sha : Sha512Half) (es : List LeafEntry) : Tree :=
  .inner 1 .zero (fun _ => .zero) fun b => (flatLeaf es b).elim .empty fun e =>
    .leaf ⟨e.leafType, e.item, 1, computeLeafHash sha e.leafType e.item⟩

/-- The children of its root. -/
def flatKids (es : List LeafEntry) (b : Fin 16) : MerkleTrie := (flatLeaf es b).elim .empty .leaf

theorem mem_flatKids {b : Fin 16} : Mem e (flatKids es b) ↔ flatLeaf es b = some e := by
  rcases h : flatLeaf es b with _ | x
  · simp [flatKids, h]
  · simp [flatKids, h, eq_comm]

theorem nibble_of_flatLeaf {b : Fin 16} (h : flatLeaf es b = some e) :
    keyNibble e.item.key 0 = b := by
  simpa using List.find?_some h

theorem sorted_flat : Sorted entryDigits 0 (flatKids es) := by
  refine ⟨fun b => ?_, fun b x hx => nibble_of_flatLeaf (mem_flatKids.mp hx)⟩
  rcases h : flatLeaf es b with _ | x <;> simp [flatKids, h, Canon]

theorem canonical_flat (src : NodeSource) (es : List LeafEntry) :
    CanonicalTree sha src (flatTree sha es) (.inner (flatKids es)) := by
  refine ⟨.inner rfl (fun _ _ => rfl) (fun b hstub => ?_) (fun b _ => .clean ?_), _, rfl,
    sorted_flat⟩
  · rcases h : flatLeaf es b with _ | x <;> simp [h] at hstub
  · rcases h : flatLeaf es b with _ | x
    · simpa [flatKids, h] using .empty
    · simpa [flatKids, h] using .leaf rfl

theorem mem_of_flat (h : Mem e (.inner (flatKids es))) : e ∈ es := by
  obtain ⟨b, he⟩ := h
  exact List.mem_of_find?_eq_some (mem_flatKids.mp he)

theorem keyed_flat (h : ∀ e ∈ es, e.leafType ≠ .transactionNm) :
    Keyed sha (.inner (flatKids es)) :=
  fun e he hty => absurd hty (h e (mem_of_flat he))

variable (hes : ∀ e ∈ es, flatLeaf es (keyNibble e.item.key 0) = some e)

include hes

theorem mem_flat : Mem e (.inner (flatKids es)) ↔ e ∈ es :=
  ⟨mem_of_flat, fun he => ⟨_, mem_flatKids.mpr (hes e he)⟩⟩

theorem itemIn_flat {x : SHAMapItem} :
    itemIn (es.map LeafEntry.item) x.key = some x ↔ ∃ e ∈ es, e.item = x := by
  refine ⟨fun hx => List.mem_map.mp (List.mem_of_find?_eq_some hx), ?_⟩
  rintro ⟨e, he, rfl⟩
  rcases hx : itemIn (es.map LeafEntry.item) e.item.key with _ | x
  · exact absurd (List.mem_map_of_mem (List.mem_map_of_mem he)) (itemIn_eq_none.mp hx)
  · -- the leaf that is found has the same key, so it is in the same branch
    obtain ⟨e', he', rfl⟩ := List.mem_map.mp (List.mem_of_find?_eq_some hx)
    have hsame := hes e' he'
    rw [key_of_itemIn hx, hes e he] at hsame
    rw [Option.some.inj hsame]

theorem itemAt_flat : itemAt (.inner (flatKids es)) = itemIn (es.map LeafEntry.item) := by
  refine itemAt_eq sorted_flat (fun _ _ => key_of_itemIn) fun x => ?_
  simp only [mem_flat hes, itemIn_flat hes]

omit hes

/-- The byte strings that are hashed for the tree. -/
def flatEncodings (sha : Sha512Half) (es : List LeafEntry) : List (List UInt8) :=
  serializeInnerWithPrefix (fun b => merkleHash sha (flatKids es b)) ::
    es.map fun e => e.leafType.serializeWithPrefix e.item

theorem nodeEncodings_flat :
    nodeEncodings sha (.inner (flatKids es)) ⊆ {x | x ∈ flatEncodings sha es} := by
  rintro x (⟨-, rfl⟩ | hx)
  · exact List.mem_cons_self
  · obtain ⟨b, hb⟩ := Set.mem_iUnion.mp hx
    rcases h : flatLeaf es b with _ | y
    · simp [flatKids, h, nodeEncodings] at hb
    · have hy : y ∈ es := List.mem_of_find?_eq_some h
      simp only [flatKids, h, Option.elim_some, nodeEncodings, Set.mem_singleton_iff] at hb
      exact List.mem_cons_of_mem _ (List.mem_map.mpr ⟨y, hy, hb.symm⟩)

theorem collisionFree_of_list {l : List (List UInt8)} (hE : E ⊆ {x | x ∈ l})
    (h : ∀ x ∈ l, sha x ≠ .zero ∧ ∀ y ∈ l, sha x = sha y → x = y) :
    CollisionFree sha E :=
  ⟨fun x hx y hy => (h x (hE hx)).2 y (hE hy), fun x hx => (h x (hE hx)).1⟩

theorem collisionFree_flat {es' : List LeafEntry}
    (h : ∀ x ∈ flatEncodings sha es ++ flatEncodings sha es',
      sha x ≠ .zero ∧
        ∀ y ∈ flatEncodings sha es ++ flatEncodings sha es', sha x = sha y → x = y) :
    CollisionFree sha
      (nodeEncodings sha (.inner (flatKids es)) ∪ nodeEncodings sha (.inner (flatKids es'))) := by
  refine collisionFree_of_list (Set.union_subset ?_ ?_) h
  · exact fun x hx => List.mem_append_left _ (nodeEncodings_flat hx)
  · exact fun x hx => List.mem_append_right _ (nodeEncodings_flat hx)

end Flat

/-- A leaf with twelve equal bytes under a key that starts with `first`. -/
def sampleEntry (ty : LeafType) (first byte : UInt8) : LeafEntry :=
  ⟨ty, itemOf first byte⟩

def leftEntries : List LeafEntry := [sampleEntry .accountState 16 0, sampleEntry .accountState 32 0]

def rightEntries : List LeafEntry :=
  [sampleEntry .accountState 32 0, sampleEntry .accountState 16 1, sampleEntry .accountState 48 0]

/-- The right tree has another item under one key and one key more. -/
theorem compare_exact_two_leaves :
    CollisionFree checksum (nodeEncodings checksum (.inner (flatKids leftEntries)) ∪
      nodeEncodings checksum (.inner (flatKids rightEntries))) ∧
    ∃ N, ∀ fuel ≥ N, ∃ s, compare checksum fuel (flatTree checksum leftEntries)
        (flatTree checksum rightEntries) .unbacked .unbacked ∅ 3 = .ok (s, true) ∧
      ∀ k, s.differences.lookup k =
        if k = (sampleEntry .accountState 16 0).item.key then
          some (some (sampleEntry .accountState 16 0).item,
            some (sampleEntry .accountState 16 1).item)
        else if k = (sampleEntry .accountState 48 0).item.key then
          some (none, some (sampleEntry .accountState 48 0).item)
        else none := by
  have cf : CollisionFree checksum (nodeEncodings checksum (.inner (flatKids leftEntries)) ∪
      nodeEncodings checksum (.inner (flatKids rightEntries))) :=
    collisionFree_flat (by decide +kernel)
  obtain ⟨-, N, hrun⟩ := compare_exact (canonical_flat .unbacked leftEntries)
    (canonical_flat .unbacked rightEntries) cf (keyed_flat (by decide)) (keyed_flat (by decide))
    (show (1 : ℤ) ≤ 3 by decide)
  rw [itemAt_flat (by decide), itemAt_flat (by decide)] at hrun
  have hsame : ∀ k, k ≠ (sampleEntry .accountState 16 0).item.key →
      k ≠ (sampleEntry .accountState 48 0).item.key →
      itemIn (leftEntries.map LeafEntry.item) k = itemIn (rightEntries.map LeafEntry.item) k := by
    intro k h16 h48
    have h16' : k ≠ (sampleEntry .accountState 16 1).item.key := h16
    simp [leftEntries, rightEntries, itemIn_cons, itemIn_nil, update_apply, h16, h16', h48]
  refine ⟨cf, N, fun fuel hfuel => ?_⟩
  obtain ⟨s, ok, hcompare, hok, hlookup, -⟩ := hrun fuel hfuel
  have hdiff : {k | itemIn (leftEntries.map LeafEntry.item) k ≠
      itemIn (rightEntries.map LeafEntry.item) k} =
      {(sampleEntry .accountState 16 0).item.key, (sampleEntry .accountState 48 0).item.key} := by
    ext k
    constructor
    · intro hne
      by_contra hk
      simp only [Set.mem_insert_iff, Set.mem_singleton_iff, not_or] at hk
      exact hne (hsame k hk.1 hk.2)
    · rintro (rfl | rfl) <;> rw [Set.mem_ofPred_eq] <;> decide
  rw [hdiff, Set.ncard_pair (by decide)] at hok
  obtain rfl := hok.mpr (by decide)
  refine ⟨s, hcompare, fun k => ?_⟩
  rw [hlookup rfl k]
  by_cases h16 : k = (sampleEntry .accountState 16 0).item.key
  · subst h16
    decide
  by_cases h48 : k = (sampleEntry .accountState 48 0).item.key
  · subst h48
    decide
  rw [if_pos (hsame k h16 h48), if_neg h16, if_neg h48]

/-- The hash of a transaction leaf does not cover its key: two trees that hold the same
transaction under different keys are canonical, and without any collision their
comparison finds no difference. -/
theorem compare_misses_transaction_key :
    CanonicalTree checksum .unbacked (flatTree checksum [sampleEntry .transactionNm 1 0])
      (.inner (flatKids [sampleEntry .transactionNm 1 0])) ∧
    CanonicalTree checksum .unbacked (flatTree checksum [sampleEntry .transactionNm 2 0])
      (.inner (flatKids [sampleEntry .transactionNm 2 0])) ∧
    CollisionFree checksum
      (nodeEncodings checksum (.inner (flatKids [sampleEntry .transactionNm 1 0])) ∪
        nodeEncodings checksum (.inner (flatKids [sampleEntry .transactionNm 2 0]))) ∧
    (∀ fuel, compare checksum fuel (flatTree checksum [sampleEntry .transactionNm 1 0])
      (flatTree checksum [sampleEntry .transactionNm 2 0]) .unbacked .unbacked ∅ 1 =
        .ok (⟨∅, 1⟩, true)) ∧
    itemAt (.inner (flatKids [sampleEntry .transactionNm 1 0]))
        (sampleEntry .transactionNm 1 0).item.key ≠
      itemAt (.inner (flatKids [sampleEntry .transactionNm 2 0]))
        (sampleEntry .transactionNm 1 0).item.key := by
  refine ⟨canonical_flat _ _, canonical_flat _ _, collisionFree_flat (by decide +kernel), ?_, ?_⟩
  · intro fuel
    unfold compare
    exact if_pos (by decide +kernel)
  · rw [itemAt_flat (by decide), itemAt_flat (by decide)]
    decide

end Quaxar.SHAMap
