import Mathlib

/-!
# Ordered maps and successors

`Std.ExtTreeMap` over a linear order, with the least key above a given one. `IsNext`
describes such a key for any set, so that successors of several sources can be merged
and some keys skipped.
-/

namespace OrderedMap

open Std (ExtTreeMap)

variable {κ : Type*} [LinearOrder κ] {ν : Type*}

instance instTransCmp : Std.TransCmp (compare : κ → κ → Ordering) :=
  inferInstance

/-- The order along an injection, with the equality test that the type already has. -/
abbrev orderAlong {α : Type*} [DecidableEq α] (f : α → κ) (hf : Function.Injective f) :
    LinearOrder α :=
  let order := LinearOrder.lift' f hf
  { order with
    toDecidableEq := inferInstance
    compare_eq_compareOfLessAndEq := by
      intro a b
      rw [order.compare_eq_compareOfLessAndEq]
      unfold compareOfLessAndEq
      congr }

variable (m : ExtTreeMap κ ν) (k a : κ) (v : ν)

theorem getElem?_insert : (m.insert k v)[a]? = if k = a then some v else m[a]? := by
  simp [ExtTreeMap.getElem?_insert]

theorem getElem?_erase : (m.erase k)[a]? = if k = a then none else m[a]? := by
  simp [ExtTreeMap.getElem?_erase]

theorem mem_iff_exists {m : ExtTreeMap κ ν} {k : κ} : k ∈ m ↔ ∃ v, m[k]? = some v := by
  rw [ExtTreeMap.mem_iff_isSome_getElem?, Option.isSome_iff_exists]

theorem toList_pairwise_lt : m.toList.Pairwise (fun x y => x.1 < y.1) := by
  exact m.ordered_keys_toList.imp fun h => compare_lt_iff_lt.mp h

theorem nodup_keys_toList : (m.toList.map Prod.fst).Nodup := by
  rw [List.nodup_iff_pairwise_ne, List.pairwise_map]
  exact (toList_pairwise_lt m).imp fun h => ne_of_lt h

/-- A relation along the entries holds between the entries of a smaller and a larger key. -/
theorem rel_of_pairwise_toList {m : ExtTreeMap κ ν} {R : κ × ν → κ × ν → Prop}
    (h : m.toList.Pairwise R) {k k' : κ} {v v' : ν} (hk : m[k]? = some v) (hk' : m[k']? = some v')
    (hlt : k < k') : R (k, v) (k', v') := by
  obtain ⟨i, hi, hentry⟩ := List.getElem_of_mem (ExtTreeMap.mem_toList_iff_getElem?_eq_some.mpr hk)
  obtain ⟨j, hj, hentry'⟩ :=
    List.getElem_of_mem (ExtTreeMap.mem_toList_iff_getElem?_eq_some.mpr hk')
  have hsort := List.pairwise_iff_getElem.mp (toList_pairwise_lt m)
  have hij : i < j := by
    rcases lt_trichotomy i j with hij | hij | hij
    · exact hij
    · subst hij
      rw [hentry] at hentry'
      cases hentry'
      exact absurd hlt (lt_irrefl _)
    · have hless := hsort j i hj hi hij
      rw [hentry, hentry'] at hless
      exact absurd hlt (lt_asymm hless)
  have hrel := List.pairwise_iff_getElem.mp h i j hi hj hij
  rw [hentry, hentry'] at hrel
  exact hrel

theorem keys_pairwise_lt : m.keys.Pairwise (· < ·) := by
  have hkeys : m.keys = m.toList.map Prod.fst := by simp
  rw [hkeys, List.pairwise_map]
  exact toList_pairwise_lt m

theorem head?_keys_eq_some {m : ExtTreeMap κ ν} {k : κ} :
    m.keys.head? = some k ↔ k ∈ m ∧ ∀ a ∈ m, k ≤ a := by
  have hmem : ∀ a, a ∈ m ↔ a ∈ m.keys := fun a => ExtTreeMap.mem_keys.symm
  simp only [hmem]
  have hsort := keys_pairwise_lt m
  generalize m.keys = keys at hsort
  rcases keys with _ | ⟨b, l⟩
  · simp
  · rw [List.pairwise_cons] at hsort
    rw [List.head?_cons, Option.some_inj]
    constructor
    · rintro rfl
      refine ⟨List.mem_cons_self, fun a ha => ?_⟩
      rcases List.mem_cons.mp ha with rfl | ha
      · exact le_rfl
      · exact (hsort.1 a ha).le
    · rintro ⟨hk, hleast⟩
      rcases List.mem_cons.mp hk with rfl | hk
      · rfl
      · exact absurd (hleast b List.mem_cons_self) (not_le.mpr (hsort.1 k hk))

theorem getLast?_keys_eq_some {m : ExtTreeMap κ ν} {k : κ} (h : m.keys.getLast? = some k) :
    k ∈ m ∧ ∀ a ∈ m, a ≤ k := by
  have hmem : ∀ a, a ∈ m ↔ a ∈ m.keys := fun a => ExtTreeMap.mem_keys.symm
  simp only [hmem]
  have hsort := keys_pairwise_lt m
  obtain ⟨l, hl⟩ := List.getLast?_eq_some_iff.mp h
  rw [hl, List.pairwise_append] at hsort
  rw [hl]
  refine ⟨by simp, fun a ha => ?_⟩
  rcases List.mem_append.mp ha with ha | ha
  · exact (hsort.2.2 a ha k (by simp)).le
  · exact (List.mem_singleton.mp ha).le

theorem exists_of_mem_keys {m : ExtTreeMap κ ν} {k : κ} (h : k ∈ m) :
    (∃ first, m.keys.head? = some first) ∧ ∃ last, m.keys.getLast? = some last := by
  have hk : k ∈ m.keys := ExtTreeMap.mem_keys.mpr h
  rcases hkeys : m.keys with _ | ⟨b, l⟩
  · rw [hkeys] at hk
    cases hk
  · exact ⟨⟨b, rfl⟩, ⟨_, List.getLast?_cons⟩⟩

/-- The entries of a map, in the order of `keys`. -/
def entriesIn (keys : List κ) : List (κ × ν) :=
  keys.filterMap fun key => (m[key]?).map (Prod.mk key)

theorem entriesIn_keys : entriesIn m m.keys = m.toList := by
  have hkeys : m.keys = m.toList.map Prod.fst := by simp
  rw [entriesIn, hkeys, List.filterMap_map]
  have hfound : ∀ item ∈ m.toList,
      ((fun key => (m[key]?).map (Prod.mk key)) ∘ Prod.fst) item = some item := by
    intro item hitem
    have hlookup : m[item.1]? = some item.2 :=
      ExtTreeMap.mem_toList_iff_getElem?_eq_some.mp hitem
    simp [hlookup]
  rw [List.filterMap_congr hfound, List.filterMap_some]

theorem entriesIn_perm {keys : List κ} (h : keys.Perm m.keys) :
    (entriesIn m keys).Perm m.toList := by
  rw [← entriesIn_keys]
  exact h.filterMap _

/-- If each step of a fold settles the key it is given and leaves the others, then the
fold settles the keys of the map it runs over. -/
theorem find_foldl_toList {σ α : Type*} (find : σ → κ → Option ν) (f : σ → κ × α → σ)
    (g : κ → α → Option ν) (hf : ∀ s x a, find (f s x) a = if x.1 = a then g x.1 x.2 else find s a)
    (d : ExtTreeMap κ α) (s : σ) (a : κ) :
    find (d.toList.foldl f s) a = (d[a]?).elim (find s a) (g a) := by
  have hlist : ∀ (l : List (κ × α)) (s : σ), (l.map Prod.fst).Nodup →
      (∀ v, (a, v) ∈ l → find (l.foldl f s) a = g a v) ∧
      (a ∉ l.map Prod.fst → find (l.foldl f s) a = find s a) := by
    intro l
    induction l with
    | nil => simp
    | cons x l ih =>
      intro s hnodup
      rw [List.map_cons, List.nodup_cons] at hnodup
      obtain ⟨hmem, hskip⟩ := ih (f s x) hnodup.2
      simp only [List.foldl_cons]
      constructor
      · intro v hv
        rcases List.mem_cons.mp hv with rfl | hv
        · rw [hskip hnodup.1, hf, if_pos rfl]
        · exact hmem v hv
      · intro ha
        rw [List.map_cons, List.mem_cons, not_or] at ha
        rw [hskip ha.2, hf, if_neg (Ne.symm ha.1)]
  obtain ⟨hmem, hskip⟩ := hlist d.toList s (nodup_keys_toList d)
  rcases hd : d[a]? with _ | v
  · apply hskip
    rw [List.mem_map]
    rintro ⟨⟨b, v⟩, hv, rfl⟩
    rw [ExtTreeMap.mem_toList_iff_getElem?_eq_some, hd] at hv
    cases hv
  · exact hmem v (ExtTreeMap.mem_toList_iff_getElem?_eq_some.mpr hd)

/-- The least element of `S` above `key`, if there is one. -/
def IsNext (S : Set κ) (key : κ) : Option κ → Prop
  | some n => IsLeast {a | a ∈ S ∧ key < a} n
  | none => ∀ a ∈ S, ¬ key < a

variable {S T : Set κ} {key : κ}

theorem IsNext.unique {r r' : Option κ} (h : IsNext S key r) (h' : IsNext S key r') : r = r' := by
  cases r with
  | none =>
    cases r' with
    | none => rfl
    | some n => exact absurd h'.1.2 (h n h'.1.1)
  | some n =>
    cases r' with
    | none => exact absurd h.1.2 (h' n h.1.1)
    | some n' => exact congrArg some (IsLeast.unique h h')

theorem IsNext.congr {key' : κ} {r : Option κ} (h : IsNext S key r)
    (hST : ∀ a, a ∈ S ∧ key < a ↔ a ∈ T ∧ key' < a) : IsNext T key' r := by
  cases r with
  | none =>
    intro a ha hlt
    have hS := (hST a).mpr ⟨ha, hlt⟩
    exact h a hS.1 hS.2
  | some n =>
    refine ⟨(hST n).mp h.1, ?_⟩
    intro a ha
    exact h.2 ((hST a).mpr ha)

/-- In a list of pairs with increasing keys the first match has the least key. -/
theorem find?_isNext (key : κ) (l : List (κ × ν)) (hl : l.Pairwise fun x y => x.1 < y.1)
    (p : ν → Bool) :
    IsNext {a | ∃ v, (a, v) ∈ l ∧ p v = true} key
      ((l.find? fun x => decide (key < x.1) && p x.2).map Prod.fst) := by
  induction l with
  | nil => simp [IsNext]
  | cons x l ih =>
    rw [List.pairwise_cons] at hl
    obtain ⟨b, v⟩ := x
    by_cases hx : key < b ∧ p v = true
    · rw [List.find?_cons_of_pos (by simp [hx])]
      refine ⟨⟨⟨v, by simp, hx.2⟩, hx.1⟩, ?_⟩
      rintro a ⟨⟨w, hw, -⟩, -⟩
      rcases List.mem_cons.mp hw with h | h
      · exact (Prod.mk.inj h).1.ge
      · exact (hl.1 _ h).le
    · rw [List.find?_cons_of_neg (by simpa using hx)]
      apply (ih hl.2).congr
      intro a
      simp only [Set.mem_ofPred, List.mem_cons, Prod.mk.injEq]
      constructor
      · rintro ⟨⟨w, hw, hp⟩, hlt⟩
        exact ⟨⟨w, .inr hw, hp⟩, hlt⟩
      · rintro ⟨⟨w, ⟨rfl, rfl⟩ | hw, hp⟩, hlt⟩
        · exact absurd ⟨hlt, hp⟩ hx
        · exact ⟨⟨w, hw, hp⟩, hlt⟩

theorem IsNext.union {a b : Option κ} (ha : IsNext S key a) (hb : IsNext T key b) :
    IsNext (S ∪ T) key (Option.merge min a b) := by
  cases a with
  | none =>
    cases b with
    | none =>
      rintro c (hc | hc)
      · exact ha c hc
      · exact hb c hc
    | some n =>
      apply hb.congr
      intro c
      constructor
      · rintro ⟨hc, hlt⟩
        exact ⟨.inr hc, hlt⟩
      · rintro ⟨hc | hc, hlt⟩
        · exact absurd hlt (ha c hc)
        · exact ⟨hc, hlt⟩
  | some n =>
    cases b with
    | none =>
      apply ha.congr
      intro c
      constructor
      · rintro ⟨hc, hlt⟩
        exact ⟨.inl hc, hlt⟩
      · rintro ⟨hc | hc, hlt⟩
        · exact ⟨hc, hlt⟩
        · exact absurd hlt (hb c hc)
    | some n' =>
      constructor
      · rcases min_choice n n' with h | h
        · simpa [h] using .inl ha.1
        · simpa [h] using .inr hb.1
      · rintro c ⟨hc | hc, hlt⟩
        · exact (min_le_left n n').trans (ha.2 ⟨hc, hlt⟩)
        · exact (min_le_right n n').trans (hb.2 ⟨hc, hlt⟩)

/-- Whether a key is below an optional bound. -/
def below (last : Option κ) (a : κ) : Bool := last.all fun l => decide (a < l)

theorem below_of_le {last : Option κ} {a b : κ} (hab : a ≤ b) (h : below last b = true) :
    below last a = true := by
  cases last with
  | none => rfl
  | some l => simpa [below] using lt_of_le_of_lt hab (by simpa [below] using h)

/-- Nothing above a successor that is not below the bound is below it. -/
theorem IsNext.below {r : Option κ} (h : IsNext S key r) (last : Option κ) :
    IsNext {a | a ∈ S ∧ below last a = true} key (r.filter (below last)) := by
  cases r with
  | none =>
    intro a ha
    exact h a ha.1
  | some n =>
    cases hn : OrderedMap.below last n with
    | true =>
      rw [Option.filter_some_pos hn]
      refine ⟨⟨⟨h.1.1, hn⟩, h.1.2⟩, ?_⟩
      rintro a ⟨⟨ha, -⟩, hlt⟩
      exact h.2 ⟨ha, hlt⟩
    | false =>
      rw [Option.filter_some_neg (by simp [hn])]
      rintro a ⟨ha, hbelow⟩ hlt
      have hle := h.2 ⟨ha, hlt⟩
      rw [below_of_le hle hbelow] at hn
      cases hn

/-- The successor of `key` among the keys of a map that are below `last`. -/
def succ (m : ExtTreeMap κ ν) (key : κ) (last : Option κ) : Option κ :=
  ((m.toList.find? fun x => decide (key < x.1)).map Prod.fst).filter (below last)

theorem succ_isNext (m : ExtTreeMap κ ν) (key : κ) (last : Option κ) :
    IsNext {a | a ∈ m ∧ below last a = true} key (succ m key last) := by
  have hset : {a : κ | a ∈ m} = {a | ∃ v, (a, v) ∈ m.toList ∧ (fun _ => true) v = true} := by
    ext a
    simp [mem_iff_exists, ExtTreeMap.mem_toList_iff_getElem?_eq_some]
  have hfind := find?_isNext key m.toList (toList_pairwise_lt m) fun _ => true
  rw [← hset] at hfind
  have hbelow := hfind.below last
  simpa [succ] using hbelow

variable {ε : Type*}

/-- Step from successor to successor until one need not be skipped. -/
def skipNext (next : κ → Except ε (Option κ)) (skip : κ → Bool) (exhausted : ε) :
    ℕ → κ → Except ε (Option κ)
  | 0, _ => .error exhausted
  | fuel + 1, key =>
    match next key with
    | .error e => .error e
    | .ok none => .ok none
    | .ok (some n) => if skip n then skipNext next skip exhausted fuel n else .ok (some n)

/-- Each round that skips a key leaves fewer keys to skip above it. -/
theorem skipNext_isNext (next : κ → Except ε (Option κ)) (skip : κ → Bool) (exhausted : ε)
    (hnext : ∀ key, ∃ r, next key = .ok r ∧ IsNext S key r) (E : Finset κ)
    (hE : ∀ a, skip a = true → a ∈ E) (fuel : ℕ) (key : κ)
    (hfuel : (E.filter (key < ·)).card < fuel) :
    ∃ r, skipNext next skip exhausted fuel key = .ok r ∧
      IsNext {a | a ∈ S ∧ skip a = false} key r := by
  induction fuel generalizing key with
  | zero => omega
  | succ fuel ih =>
    obtain ⟨r, hr, hisnext⟩ := hnext key
    cases r with
    | none =>
      refine ⟨none, by simp [skipNext, hr], ?_⟩
      intro a ha
      exact hisnext a ha.1
    | some n =>
      cases hskip : skip n with
      | false =>
        refine ⟨some n, by simp [skipNext, hr, hskip], ⟨⟨hisnext.1.1, hskip⟩, hisnext.1.2⟩, ?_⟩
        rintro a ⟨⟨ha, -⟩, hlt⟩
        exact hisnext.2 ⟨ha, hlt⟩
      | true =>
        have hsub : E.filter (n < ·) ⊂ E.filter (key < ·) := by
          rw [Finset.ssubset_iff_of_subset]
          · refine ⟨n, ?_, ?_⟩
            · exact Finset.mem_filter.mpr ⟨hE n hskip, hisnext.1.2⟩
            · simp
          · intro a ha
            rw [Finset.mem_filter] at ha ⊢
            exact ⟨ha.1, hisnext.1.2.trans ha.2⟩
        have hcard := Finset.card_lt_card hsub
        obtain ⟨r, hr', hnext'⟩ := ih n (by omega)
        refine ⟨r, by simp [skipNext, hr, hskip, hr'], ?_⟩
        -- nothing between `key` and `n` is in `S`, and `n` itself is skipped
        apply hnext'.congr
        intro a
        constructor
        · rintro ⟨ha, hlt⟩
          exact ⟨ha, hisnext.1.2.trans hlt⟩
        · rintro ⟨ha, hlt⟩
          refine ⟨ha, lt_of_le_of_ne (hisnext.2 ⟨ha.1, hlt⟩) ?_⟩
          rintro rfl
          exact absurd ha.2 (by simp [hskip])

end OrderedMap
