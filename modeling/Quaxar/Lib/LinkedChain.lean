import Quaxar.Lib.LinkedOrder

/-!
# Linking nodes along a list of keys

A `Chain` of nodes names its neighbours along a list of keys, from a first node without a
predecessor to a last one without a successor. Where the list is increasing, the store is `Linked`
exactly if the chain has all its nodes. `Joined` is a chain whose last node may still point
anywhere, as it is while the links are written from the front.
-/

namespace LinkedOrder

open OrderedMap
open List (getLast?_cons mem_cons_of_mem mem_cons_self)

variable {κ α : Type*} {D D' : κ → Option (Node κ α)} {p : Option κ} {k w z : κ} {ks pre : List κ}
  {x : Node κ α}

/-- The nodes at the keys are linked in this order, the first one back to `p`. -/
def Chain (D : κ → Option (Node κ α)) : Option κ → List κ → Prop
  | _, [] => True
  | p, k :: ks => (∃ x, D k = some x ∧ x.prev = p ∧ x.next = ks.head?) ∧ Chain D (some k) ks

/-- As `Chain`, but for where the last node points to. -/
def Joined (D : κ → Option (Node κ α)) : Option κ → List κ → Prop
  | _, [] => True
  | p, k :: ks => (∃ x, D k = some x ∧ x.prev = p ∧ ∀ n ∈ ks.head?, x.next = some n) ∧
    Joined D (some k) ks

theorem Chain.joined (h : Chain D p ks) : Joined D p ks := by
  induction ks generalizing p with
  | nil => trivial
  | cons k ks ih =>
    obtain ⟨⟨x, hx, hprev, hnext⟩, htail⟩ := h
    exact ⟨⟨x, hx, hprev, fun n hn => hnext.trans hn⟩, ih htail⟩

theorem Chain.mem_support (h : Chain D p ks) : ∀ k ∈ ks, k ∈ support D := by
  induction ks generalizing p with
  | nil => simp
  | cons k ks ih =>
    obtain ⟨⟨x, hx, -⟩, htail⟩ := h
    exact List.forall_mem_cons.mpr ⟨mem_support hx, ih htail⟩

theorem Joined.prev_eq (h : Joined D p (pre ++ [w])) (hx : D w = some x) :
    x.prev = pre.getLast?.or p := by
  induction pre generalizing p with
  | nil =>
    obtain ⟨⟨y, hy, hprev, -⟩, -⟩ := h
    obtain rfl := Option.some.inj (hx.symm.trans hy)
    simpa using hprev
  | cons k pre ih =>
    rw [ih h.2, getLast?_cons]
    cases pre.getLast? <;> rfl

theorem Joined.next_eq (h : Joined D p (pre ++ [w])) (hx : D w = some x) (hprev : x.prev = some k)
    (hk : k ∈ pre) {y : Node κ α} (hy : D k = some y) : y.next = some w := by
  induction pre generalizing p with
  | nil => cases hk
  | cons j pre ih =>
    obtain ⟨⟨z, hz, -, hnext⟩, htail⟩ := h
    have hlast := htail.prev_eq hx
    rw [hprev] at hlast
    cases pre with
    | nil =>
      obtain rfl : k = j := Option.some.inj hlast
      obtain rfl := Option.some.inj (hy.symm.trans hz)
      exact hnext w rfl
    | cons n pre =>
      rw [getLast?_cons, Option.some_or] at hlast
      refine ih htail ?_
      rw [Option.some.inj hlast]
      exact List.mem_of_getLast? (getLast?_cons ..)

theorem Chain.next_last (h : Chain D p (pre ++ [w])) (hx : D w = some x) : x.next = none := by
  induction pre generalizing p with
  | nil =>
    obtain ⟨⟨y, hy, -, hnext⟩, -⟩ := h
    obtain rfl := Option.some.inj (hx.symm.trans hy)
    exact hnext
  | cons k pre ih => exact ih h.2

/-- The last node is moved from `w` to `z`, and ends the list there. -/
theorem Joined.chain (h : Joined D p (pre ++ [w])) (hnodup : pre.Nodup) (hx : D w = some x)
    (hpre : ∀ k ∈ pre, ∀ y, D k = some y → ∃ next, D' k = some { y with next } ∧
      (x.prev = some k → next = some z) ∧ (x.prev ≠ some k → next = y.next))
    (hz : D' z = some { x with next := none }) : Chain D' p (pre ++ [z]) := by
  induction pre generalizing p with
  | nil =>
    have hprev := h.prev_eq hx
    exact ⟨⟨_, hz, by simpa using hprev, rfl⟩, trivial⟩
  | cons k pre ih =>
    obtain ⟨hk, hnodup'⟩ := List.nodup_cons.mp hnodup
    obtain ⟨⟨y, hy, hprev, hnext⟩, htail⟩ := h
    obtain ⟨next, hy', hlast, hother⟩ := hpre k mem_cons_self y hy
    refine ⟨⟨_, hy', hprev, ?_⟩, ih htail hnodup' fun j hj => hpre j (mem_cons_of_mem k hj)⟩
    have hxprev := htail.prev_eq hx
    cases pre with
    | nil => exact hlast hxprev
    | cons n pre =>
      refine (hother fun heq => hk ?_).trans (hnext n rfl)
      rw [heq, getLast?_cons, Option.some_or] at hxprev
      rw [Option.some.inj hxprev]
      exact List.mem_of_getLast? (getLast?_cons ..)

/-- Only links of nodes at the keys are changed. -/
structure Relinks (D D' : κ → Option (Node κ α)) (ks : List κ) : Prop where
  value_eq : ∀ j, (D' j).map Node.value = (D j).map Node.value
  frame : ∀ j ∉ ks, D' j = D j

theorem Relinks.refl (D : κ → Option (Node κ α)) (ks : List κ) : Relinks D D ks :=
  ⟨fun _ => rfl, fun _ _ => rfl⟩

theorem Relinks.trans {D'' : κ → Option (Node κ α)} (h : Relinks D D' ks)
    (h' : Relinks D' D'' ks) : Relinks D D'' ks :=
  ⟨fun j => (h'.value_eq j).trans (h.value_eq j), fun j hj => (h'.frame j hj).trans (h.frame j hj)⟩

theorem Relinks.mono {ks' : List κ} (h : Relinks D D' ks) (hsub : ks ⊆ ks') : Relinks D D' ks' :=
  ⟨h.value_eq, fun j hj => h.frame j fun hmem => hj (hsub hmem)⟩

theorem Relinks.support_eq (h : Relinks D D' ks) : support D' = support D := by
  ext j
  have hj := congrArg Option.isSome (h.value_eq j)
  rw [Option.isSome_map, Option.isSome_map] at hj
  exact iff_of_eq (congrArg (· = true) hj)

theorem Relinks.update [DecidableEq κ] {x' : Node κ α} (hx : D k = some x) (hk : k ∈ ks)
    (hvalue : x'.value = x.value) : Relinks D (Function.update D k (some x')) ks := by
  constructor
  · intro j
    by_cases hj : j = k
    · subst hj
      rw [Function.update_self, hx, Option.map_some, Option.map_some, hvalue]
    · rw [Function.update_of_ne hj]
  · intro j hj
    refine Function.update_of_ne ?_ _ _
    rintro rfl
    exact hj hk

variable [LinearOrder κ]

theorem Chain.isNext (h : Chain D p ks) (hsort : ks.Pairwise (· < ·)) :
    ∀ k ∈ ks, ∀ x, D k = some x → IsNext {a | a ∈ ks} k x.next := by
  induction ks generalizing p with
  | nil => simp
  | cons n ks ih =>
    obtain ⟨⟨y, hy, -, hnext⟩, htail⟩ := h
    obtain ⟨hn, hsort'⟩ := List.pairwise_cons.mp hsort
    intro k hk x hx
    rcases List.mem_cons.mp hk with rfl | hmem
    · obtain rfl := Option.some.inj (hx.symm.trans hy)
      rw [hnext]
      cases ks with
      | nil =>
        intro a ha
        rw [List.mem_singleton.mp ha]
        exact lt_irrefl _
      | cons m ks =>
        refine ⟨⟨mem_cons_of_mem _ mem_cons_self, hn m mem_cons_self⟩, ?_⟩
        rintro a ⟨ha, hlt⟩
        rcases List.mem_cons.mp ha with rfl | ha
        · exact absurd hlt (lt_irrefl _)
        · rcases List.mem_cons.mp ha with rfl | ha
          · exact le_rfl
          · exact ((List.pairwise_cons.mp hsort').1 a ha).le
    · refine (ih htail hsort' k hmem x hx).congr fun a => ?_
      refine and_congr_left fun hlt => ⟨mem_cons_of_mem n, fun ha => ?_⟩
      refine (List.mem_cons.mp ha).resolve_left ?_
      rintro rfl
      exact lt_asymm hlt (hn k hmem)

theorem Chain.isPrev (h : Chain D p ks) (hsort : ks.Pairwise (· < ·))
    (hp : ∀ j ∈ p, ∀ k ∈ ks, j < k) :
    ∀ k ∈ ks, ∀ x, D k = some x → IsPrev {a | a ∈ p ∨ a ∈ ks} k x.prev := by
  induction ks generalizing p with
  | nil => simp
  | cons n ks ih =>
    obtain ⟨⟨y, hy, hprev, -⟩, htail⟩ := h
    obtain ⟨hn, hsort'⟩ := List.pairwise_cons.mp hsort
    intro k hk x hx
    rcases List.mem_cons.mp hk with rfl | hk
    · obtain rfl := Option.some.inj (hx.symm.trans hy)
      rw [hprev]
      have hbelow : ∀ a, a ∈ k :: ks → ¬ a < k := by
        intro a ha hlt
        rcases List.mem_cons.mp ha with rfl | ha
        · exact lt_irrefl _ hlt
        · exact lt_asymm hlt (hn a ha)
      cases p with
      | none =>
        rintro a (ha | ha) hlt
        · cases ha
        · exact hbelow a ha hlt
      | some j =>
        refine ⟨⟨.inl rfl, hp j rfl k mem_cons_self⟩, ?_⟩
        rintro a ⟨ha | ha, hlt⟩
        · cases ha
          exact le_rfl
        · exact absurd hlt (hbelow a ha)
    · have hhead : ∀ j ∈ some n, ∀ k ∈ ks, j < k := by
        rintro j ⟨⟩
        exact hn
      have hinner := ih htail hsort' hhead k hk x hx
      rcases hxprev : x.prev with _ | q
      · rw [hxprev] at hinner
        exact absurd (hn k hk) (hinner n (.inl rfl))
      · rw [hxprev] at hinner
        have hnq : n ≤ q := hinner.2 ⟨.inl rfl, hn k hk⟩
        refine ⟨⟨.inr ?_, hinner.1.2⟩, ?_⟩
        · rcases hinner.1.1 with hq | hq
          · cases hq
            exact mem_cons_self
          · exact mem_cons_of_mem n hq
        · rintro a ⟨ha | ha, hlt⟩
          · exact (lt_of_lt_of_le (hp a ha n mem_cons_self) hnq).le
          · rcases List.mem_cons.mp ha with rfl | ha
            · exact hnq
            · exact hinner.2 ⟨.inr ha, hlt⟩

/-- From a key of the chain on, a linked store has no other nodes. -/
theorem Linked.mem_of_chain (h : Linked D) (hchain : Chain D p (k :: ks)) {j : κ}
    (hj : j ∈ support D) (hle : k ≤ j) : j ∈ k :: ks := by
  induction ks generalizing p k with
  | nil =>
    obtain ⟨⟨x, hx, -, hnext⟩, -⟩ := hchain
    rcases hle.eq_or_lt with rfl | hlt
    · exact mem_cons_self
    · have hn := h.next_isNext k x hx
      rw [hnext] at hn
      exact absurd hlt (hn j hj)
  | cons n ks ih =>
    obtain ⟨⟨x, hx, -, hnext⟩, htail⟩ := hchain
    rcases hle.eq_or_lt with rfl | hlt
    · exact mem_cons_self
    · have hn := h.next_isNext k x hx
      rw [hnext] at hn
      exact mem_cons_of_mem k (ih htail (hn.2 ⟨hj, hlt⟩))

theorem Chain.linked_iff (h : Chain D none ks) (hsort : ks.Pairwise (· < ·)) (hne : ks ≠ []) :
    Linked D ↔ ∀ k ∈ support D, k ∈ ks := by
  constructor
  · intro hlinked j hj
    obtain ⟨k, ks, rfl⟩ := List.exists_cons_of_ne_nil hne
    refine hlinked.mem_of_chain h hj (not_lt.mp ?_)
    obtain ⟨⟨x, hx, hprev, -⟩, -⟩ := h
    have hp := hlinked.prev_isPrev k x hx
    rw [hprev] at hp
    exact hp j hj
  · intro hall
    have hsupport : support D = {a | a ∈ ks} := by
      ext a
      exact ⟨hall a, h.mem_support a⟩
    constructor
    · intro k x hx
      rw [hsupport]
      exact h.isNext hsort k (hall k (LinkedOrder.mem_support hx)) x hx
    · intro k x hx
      have hprev := h.isPrev hsort (by simp) k (hall k (LinkedOrder.mem_support hx)) x hx
      rw [hsupport]
      simpa using hprev

theorem Linked.chain (h : Linked D) (hsort : ks.Pairwise (· < ·))
    (hmem : ∀ k ∈ ks, k ∈ support D) (hp : IsPrev (support D) k p)
    (hfirst : ∀ n ∈ ks.head?, k = n) (hall : ∀ j ∈ support D, k ≤ j → j ∈ ks) :
    Chain D p ks := by
  induction ks generalizing p k with
  | nil => trivial
  | cons n ks ih =>
    obtain rfl := hfirst n rfl
    obtain ⟨hn, hsort'⟩ := List.pairwise_cons.mp hsort
    obtain ⟨x, hx⟩ := exists_of_mem_support (hmem k mem_cons_self)
    have hnext : IsNext (support D) k ks.head? := by
      cases ks with
      | nil =>
        intro j hj hlt
        rw [List.mem_singleton.mp (hall j hj hlt.le)] at hlt
        exact lt_irrefl _ hlt
      | cons m ks =>
        refine ⟨⟨hmem m (by simp), hn m mem_cons_self⟩, ?_⟩
        rintro j ⟨hj, hlt⟩
        rcases List.mem_cons.mp (hall j hj hlt.le) with rfl | hj
        · exact absurd hlt (lt_irrefl _)
        · rcases List.mem_cons.mp hj with rfl | hj
          · exact le_rfl
          · exact ((List.pairwise_cons.mp hsort').1 j hj).le
    refine ⟨⟨x, hx, (h.prev_isPrev k x hx).unique hp, (h.next_isNext k x hx).unique hnext⟩, ?_⟩
    cases ks with
    | nil => trivial
    | cons m ks =>
      refine ih (k := m) hsort' (fun j hj => hmem j (mem_cons_of_mem k hj)) ?_ (by simp) ?_
      · refine ⟨⟨hmem k mem_cons_self, hn m mem_cons_self⟩, ?_⟩
        rintro j ⟨hj, hlt⟩
        by_contra hle
        exact absurd (hnext.2 ⟨hj, not_le.mp hle⟩) (not_le.mpr hlt)
      · intro j hj hle
        have hlt := lt_of_lt_of_le (hn m mem_cons_self) hle
        refine (List.mem_cons.mp (hall j hj hlt.le)).resolve_left ?_
        rintro rfl
        exact lt_irrefl _ hlt

theorem Linked.chain_of_forall_mem (h : Linked D) (hsort : ks.Pairwise (· < ·))
    (hmem : ∀ k ∈ ks, k ∈ support D) (hall : ∀ k ∈ support D, k ∈ ks) : Chain D none ks := by
  cases ks with
  | nil => trivial
  | cons k ks =>
    refine h.chain (k := k) hsort hmem ?_ (by simp) fun j hj _ => hall j hj
    intro j hj hlt
    rcases List.mem_cons.mp (hall j hj) with rfl | hj
    · exact lt_irrefl _ hlt
    · exact lt_asymm hlt ((List.pairwise_cons.mp hsort).1 j hj)

end LinkedOrder
