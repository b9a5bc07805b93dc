import Quaxar.Lib.OrderedMap

/-!
# Doubly linked lists in key order

Nodes are stored under keys of a linear order. In a `Linked` store every node names its
neighbours in that order, and the first and the last one name none there. A node can be
unlinked, and a new one linked in front of another.
-/

namespace OrderedMap

variable {κ : Type*} [LinearOrder κ] {S : Set κ} {j k : κ} {r s : Option κ}

/-- The greatest element of `S` below `key`, if there is one. -/
abbrev IsPrev (S : Set κ) (key : κ) (r : Option κ) : Prop := IsNext (κ := κᵒᵈ) S key r

/-- Without `k`, what came after it comes after its predecessor. -/
theorem IsNext.diff (h : IsNext S j r) (hk : IsNext S k s) :
    IsNext (S \ {k}) j (if r = some k then s else r) := by
  split_ifs with hr
  · subst hr
    cases s with
    | none =>
      rintro a ⟨ha, hne⟩ hlt
      exact hk a ha (lt_of_le_of_ne (h.2 ⟨ha, hlt⟩) (Ne.symm hne))
    | some n =>
      refine ⟨⟨⟨hk.1.1, ne_of_gt hk.1.2⟩, lt_trans h.1.2 hk.1.2⟩, ?_⟩
      rintro a ⟨⟨ha, hne⟩, hlt⟩
      exact hk.2 ⟨ha, lt_of_le_of_ne (h.2 ⟨ha, hlt⟩) (Ne.symm hne)⟩
  · cases r with
    | none =>
      rintro a ⟨ha, -⟩
      exact h a ha
    | some n =>
      refine ⟨⟨⟨h.1.1, fun heq => hr (congrArg some heq)⟩, h.1.2⟩, ?_⟩
      rintro a ⟨⟨ha, -⟩, hlt⟩
      exact h.2 ⟨ha, hlt⟩

/-- A new element comes next where it lies in the gap. -/
theorem IsNext.insert (h : IsNext S j r) (hj : j < k) (hr : ∀ n, r = some n → k < n) :
    IsNext (Insert.insert k S) j (some k) := by
  refine ⟨⟨Set.mem_insert k S, hj⟩, ?_⟩
  rintro a ⟨rfl | ha, hlt⟩
  · exact le_rfl
  · cases r with
    | none => exact absurd hlt (h a ha)
    | some n => exact ((hr n rfl).trans_le (h.2 ⟨ha, hlt⟩)).le

theorem IsNext.insert_of_not (h : IsNext S j r) (hk : j < k → ∃ n, r = some n ∧ n ≤ k) :
    IsNext (Insert.insert k S) j r := by
  cases r with
  | none =>
    rintro a (rfl | ha) hlt
    · obtain ⟨n, hn, -⟩ := hk hlt
      cases hn
    · exact h a ha hlt
  | some n =>
    refine ⟨⟨Set.mem_insert_of_mem k h.1.1, h.1.2⟩, ?_⟩
    rintro a ⟨rfl | ha, hlt⟩
    · obtain ⟨m, hm, hle⟩ := hk hlt
      cases hm
      exact hle
    · exact h.2 ⟨ha, hlt⟩

end OrderedMap

namespace LinkedOrder

open OrderedMap
open Function (update_of_ne update_self)

structure Node (κ α : Type*) where
  value : α
  next : Option κ
  prev : Option κ

variable {κ α : Type*} {D D' : κ → Option (Node κ α)} {j k : κ} {x y : Node κ α} {value : α}

/-- The keys in use. -/
def support (D : κ → Option (Node κ α)) : Set κ := {k | (D k).isSome = true}

theorem mem_support (hx : D k = some x) : k ∈ support D := by
  change (D k).isSome = true
  rw [hx]
  rfl

theorem exists_of_mem_support (h : k ∈ support D) : ∃ x, D k = some x :=
  Option.isSome_iff_exists.mp h

variable [LinearOrder κ]

structure Linked (D : κ → Option (Node κ α)) : Prop where
  next_isNext : ∀ k x, D k = some x → IsNext (support D) k x.next
  prev_isPrev : ∀ k x, D k = some x → IsPrev (support D) k x.prev

namespace Linked

variable (h : Linked D)

include h

theorem exists_prev (hx : D k = some x) (hprev : x.prev = some j) : ∃ y, D j = some y ∧ j < k := by
  have hp := h.prev_isPrev k x hx
  rw [hprev] at hp
  obtain ⟨y, hy⟩ := exists_of_mem_support hp.1.1
  exact ⟨y, hy, hp.1.2⟩

theorem exists_next (hx : D k = some x) (hnext : x.next = some j) : ∃ y, D j = some y ∧ k < j := by
  have hn := h.next_isNext k x hx
  rw [hnext] at hn
  obtain ⟨y, hy⟩ := exists_of_mem_support hn.1.1
  exact ⟨y, hy, hn.1.2⟩

theorem next_eq_iff (hy : D j = some y) (hx : D k = some x) :
    y.next = some k ↔ x.prev = some j := by
  have hn := h.next_isNext j y hy
  have hp := h.prev_isPrev k x hx
  constructor
  · intro hnext
    rw [hnext] at hn
    refine hp.unique ⟨⟨mem_support hy, hn.1.2⟩, ?_⟩
    rintro a ⟨ha, hlt⟩
    by_contra hle
    exact absurd (hn.2 ⟨ha, not_le.mp hle⟩) (not_le.mpr hlt)
  · intro hprev
    rw [hprev] at hp
    refine hn.unique ⟨⟨mem_support hx, hp.1.2⟩, ?_⟩
    rintro a ⟨ha, hlt⟩
    by_contra hle
    exact absurd (hp.2 ⟨ha, not_le.mp hle⟩) (not_le.mpr hlt)

theorem le_prev (hx : D k = some x) (hy : D j = some y) (hlt : j < k) :
    ∃ i, x.prev = some i ∧ j ≤ i := by
  have hp := h.prev_isPrev k x hx
  rcases hprev : x.prev with _ | i
  · rw [hprev] at hp
    exact absurd hlt (hp j (mem_support hy))
  · rw [hprev] at hp
    exact ⟨i, rfl, hp.2 ⟨mem_support hy, hlt⟩⟩

/-- Only the keys in use and the links count. -/
theorem congr (hD : ∀ k,
    (D' k).map (fun x => (x.next, x.prev)) = (D k).map fun x => (x.next, x.prev)) :
    Linked D' := by
  have hsupport : support D' = support D := by
    ext k
    have hk := congrArg Option.isSome (hD k)
    simpa [support] using hk
  have hold : ∀ k x', D' k = some x' → ∃ x, D k = some x ∧ x.next = x'.next ∧ x.prev = x'.prev := by
    intro k x' hx'
    have hk := hD k
    rw [hx'] at hk
    obtain ⟨x, hx, hlinks⟩ := Option.map_eq_some_iff.mp hk.symm
    exact ⟨x, hx, congrArg Prod.fst hlinks, congrArg Prod.snd hlinks⟩
  constructor
  · intro k x' hx'
    obtain ⟨x, hx, hnext, -⟩ := hold k x' hx'
    rw [hsupport, ← hnext]
    exact h.next_isNext k x hx
  · intro k x' hx'
    obtain ⟨x, hx, -, hprev⟩ := hold k x' hx'
    rw [hsupport, ← hprev]
    exact h.prev_isPrev k x hx

theorem update_value (hx : D k = some x) :
    Linked (Function.update D k (some { x with value })) := by
  refine h.congr fun j => ?_
  by_cases hj : j = k
  · subst hj
    rw [update_self, hx]
    rfl
  · rw [update_of_ne hj]

end Linked

theorem linked_single (k : κ) (value : α) :
    Linked (Function.update (fun _ => none) k (some (⟨value, none, none⟩ : Node κ α))) := by
  have honly : ∀ j x, Function.update (fun _ => none) k
      (some (⟨value, none, none⟩ : Node κ α)) j = some x → j = k ∧ x = ⟨value, none, none⟩ := by
    intro j x hx
    by_cases hj : j = k
    · subst hj
      rw [update_self] at hx
      exact ⟨rfl, (Option.some.inj hx).symm⟩
    · rw [update_of_ne hj] at hx
      cases hx
  constructor
  all_goals
    intro j x hx
    obtain ⟨rfl, rfl⟩ := honly j x hx
    intro a ha hlt
    obtain ⟨y, hy⟩ := exists_of_mem_support ha
    rw [(honly a y hy).1] at hlt
    exact lt_irrefl _ hlt

/-- Take node `k` out of the list. -/
def unlink (D : κ → Option (Node κ α)) (k : κ) (x : Node κ α) : κ → Option (Node κ α) := fun j =>
  if j = k then none
  else (D j).map fun y => { y with
    next := if y.next = some k then x.next else y.next
    prev := if y.prev = some k then x.prev else y.prev }

theorem support_unlink (D : κ → Option (Node κ α)) (k : κ) (x : Node κ α) :
    support (unlink D k x) = support D \ {k} := by
  ext j
  by_cases hj : j = k <;> simp [support, unlink, hj]

theorem unlink_of_ne (x : Node κ α) (hjk : j ≠ k) (hy : D j = some y) :
    unlink D k x j = some { y with
      next := if y.next = some k then x.next else y.next
      prev := if y.prev = some k then x.prev else y.prev } := by
  rw [unlink, if_neg hjk, hy]
  rfl

theorem unlink_eq_some (hy : unlink D k x j = some y) : j ≠ k ∧ ∃ z, D j = some z ∧
    y = { z with
      next := if z.next = some k then x.next else z.next
      prev := if z.prev = some k then x.prev else z.prev } := by
  unfold unlink at hy
  by_cases hj : j = k
  · rw [if_pos hj] at hy
    cases hy
  · rw [if_neg hj] at hy
    obtain ⟨z, hz, rfl⟩ := Option.map_eq_some_iff.mp hy
    exact ⟨hj, z, hz, rfl⟩

theorem Linked.unlink (h : Linked D) (hx : D k = some x) : Linked (unlink D k x) := by
  constructor
  · intro j y hy
    obtain ⟨-, z, hz, rfl⟩ := unlink_eq_some hy
    rw [support_unlink]
    exact (h.next_isNext j z hz).diff (h.next_isNext k x hx)
  · intro j y hy
    obtain ⟨-, z, hz, rfl⟩ := unlink_eq_some hy
    rw [support_unlink]
    exact (h.prev_isPrev j z hz).diff (h.prev_isPrev k x hx)

/-- Link a node `n` in front of node `k`. -/
def linkBefore (D : κ → Option (Node κ α)) (n k : κ) (x : Node κ α) (value : α) :
    κ → Option (Node κ α) := fun j =>
  if j = n then some ⟨value, some k, x.prev⟩
  else (D j).map fun y => { y with
    next := if y.next = some k then some n else y.next
    prev := if j = k then some n else y.prev }

variable {n : κ}

theorem support_linkBefore (D : κ → Option (Node κ α)) (n k : κ) (x : Node κ α) (value : α) :
    support (linkBefore D n k x value) = Insert.insert n (support D) := by
  ext j
  by_cases hj : j = n <;> simp [support, linkBefore, hj]

theorem linkBefore_of_ne (x : Node κ α) (value : α) (hjn : j ≠ n) (hy : D j = some y) :
    linkBefore D n k x value j = some { y with
      next := if y.next = some k then some n else y.next
      prev := if j = k then some n else y.prev } := by
  rw [linkBefore, if_neg hjn, hy]
  rfl

theorem linkBefore_eq_some (hy : linkBefore D n k x value j = some y) :
    j = n ∧ y = ⟨value, some k, x.prev⟩ ∨ j ≠ n ∧ ∃ z, D j = some z ∧
      y = { z with
        next := if z.next = some k then some n else z.next
        prev := if j = k then some n else z.prev } := by
  unfold linkBefore at hy
  by_cases hj : j = n
  · rw [if_pos hj] at hy
    exact .inl ⟨hj, (Option.some.inj hy).symm⟩
  · rw [if_neg hj] at hy
    obtain ⟨z, hz, rfl⟩ := Option.map_eq_some_iff.mp hy
    exact .inr ⟨hj, z, hz, rfl⟩

theorem Linked.linkBefore (h : Linked D) (hx : D k = some x) (hnk : n < k)
    (hprev : ∀ i, x.prev = some i → i < n) : Linked (linkBefore D n k x value) := by
  have hgap : ∀ a y, D a = some y → a < k → a < n := by
    intro a y hy hlt
    obtain ⟨i, hi, hle⟩ := h.le_prev hx hy hlt
    exact lt_of_le_of_lt hle (hprev i hi)
  constructor
  · intro j y hy
    rw [support_linkBefore]
    rcases linkBefore_eq_some hy with ⟨rfl, rfl⟩ | ⟨-, z, hz, rfl⟩
    · refine ⟨⟨Set.mem_insert_of_mem _ (mem_support hx), hnk⟩, ?_⟩
      rintro a ⟨rfl | ha, hlt⟩
      · exact absurd hlt (lt_irrefl _)
      · obtain ⟨y, hy⟩ := exists_of_mem_support ha
        by_contra hle
        exact lt_asymm hlt (hgap a y hy (not_le.mp hle))
    · have hnext := h.next_isNext j z hz
      by_cases heq : z.next = some k
      · rw [heq] at hnext
        simp only [heq, if_true]
        refine hnext.insert (hgap j z hz hnext.1.2) ?_
        rintro _ ⟨⟩
        exact hnk
      · simp only [heq, if_false]
        refine hnext.insert_of_not fun hlt => ?_
        -- the next node is not `k`, so it lies in front of the gap
        rcases hz' : z.next with _ | m
        · rw [hz'] at hnext
          exact absurd (lt_trans hlt hnk) (hnext k (mem_support hx))
        · rw [hz'] at hnext
          obtain ⟨w, hw⟩ := exists_of_mem_support hnext.1.1
          have hle : m ≤ k := hnext.2 ⟨mem_support hx, lt_trans hlt hnk⟩
          have hne : m ≠ k := by
            rintro rfl
            exact heq hz'
          exact ⟨m, rfl, (hgap m w hw (lt_of_le_of_ne hle hne)).le⟩
  · intro j y hy
    rw [support_linkBefore]
    rcases linkBefore_eq_some hy with ⟨rfl, rfl⟩ | ⟨-, z, hz, rfl⟩
    · refine IsNext.insert_of_not ?_ fun hlt => absurd hlt (lt_irrefl _)
      refine (h.prev_isPrev k x hx).congr fun a => ?_
      constructor
      · rintro ⟨ha, hlt⟩
        obtain ⟨y, hy⟩ := exists_of_mem_support ha
        exact ⟨ha, hgap a y hy hlt⟩
      · rintro ⟨ha, hlt⟩
        exact ⟨ha, lt_trans hnk hlt⟩
    · have hp := h.prev_isPrev j z hz
      by_cases heq : j = k
      · subst heq
        rw [hx] at hz
        cases hz
        simp only [if_true]
        exact hp.insert hnk hprev
      · simp only [heq, if_false]
        refine hp.insert_of_not fun hlt => ?_
        have hkj : k < j := by
          rcases lt_trichotomy k j with hkj | rfl | hjk
          · exact hkj
          · exact absurd rfl heq
          · exact absurd (hgap j z hz hjk) (lt_asymm hlt)
        obtain ⟨i, hi, hle⟩ := h.le_prev hz hx hkj
        exact ⟨i, hi, (lt_of_lt_of_le hnk hle).le⟩

/-- Point a node, if there is one, to `n`. -/
def setNext (D : κ → Option (Node κ α)) (prev : Option κ) (n : κ) : κ → Option (Node κ α) :=
  fun j => if prev = some j then (D j).map fun y => { y with next := some n } else D j

theorem setNext_none (D : κ → Option (Node κ α)) (n : κ) : setNext D none n = D := by
  funext j
  simp [setNext]

theorem setNext_some (hy : D j = some y) (n : κ) :
    setNext D (some j) n = Function.update D j (some { y with next := some n }) := by
  funext i
  by_cases hij : i = j
  · subst hij
    simp [setNext, hy]
  · simp [setNext, update_of_ne hij, Ne.symm hij]

theorem setNext_of_ne {prev : Option κ} (hne : prev ≠ some j) : setNext D prev n j = D j :=
  if_neg hne

namespace Linked

variable (h : Linked D) (hx : D k = some x)

include h hx

theorem unlink_apply (hjk : j ≠ k) (hy : D j = some y) : LinkedOrder.unlink D k x j = some { y with
      next := if x.prev = some j then x.next else y.next
      prev := if x.next = some j then x.prev else y.prev } := by
  have hnext := h.next_eq_iff hy hx
  have hprev := h.next_eq_iff hx hy
  simp only [unlink_of_ne x hjk hy, hnext, hprev]

/-- Setting the link of the predecessor of `k` changes nothing from `k` on. -/
theorem setNext_of_le (hle : k ≤ j) (n : κ) : setNext D x.prev n j = D j := by
  refine setNext_of_ne fun hj => ?_
  obtain ⟨-, -, hlt⟩ := h.exists_prev hx hj
  exact not_le.mpr hlt hle

/-- Node `k` goes and its successor `s` becomes `new`, one write after the other. -/
theorem unlink_eq_writes {s : κ} (hnext : x.next = some s) (new : Option (Node κ α)) :
    Function.update (Function.update (setNext D x.prev s) s new) k none =
      Function.update (LinkedOrder.unlink D k x) s new := by
  obtain ⟨y, -, hlt⟩ := h.exists_next hx hnext
  funext j
  by_cases hjk : j = k
  · subst hjk
    rw [update_self, update_of_ne (ne_of_lt hlt), LinkedOrder.unlink, if_pos rfl]
  · rw [update_of_ne hjk]
    by_cases hjs : j = s
    · subst hjs
      rw [update_self, update_self]
    · rw [update_of_ne hjs, update_of_ne hjs]
      rcases hy : D j with _ | z
      · simp [setNext, LinkedOrder.unlink, hy]
      · rw [h.unlink_apply hx hjk hy, hnext]
        have hne : some s ≠ some j := fun heq => hjs (Option.some.inj heq).symm
        by_cases hprev : x.prev = some j
        · simp [setNext, hy, hprev, hne]
        · simp [setNext, hy, hprev, hne]

theorem unlink_first_eq (hprev : x.prev = none) :
    (x.next = none → Function.update D k none = LinkedOrder.unlink D k x) ∧
    ∀ s y, x.next = some s → D s = some y →
      Function.update (Function.update D s (some { y with prev := none })) k none =
        LinkedOrder.unlink D k x := by
  constructor
  · intro hnext
    funext j
    by_cases hjk : j = k
    · subst hjk
      rw [update_self, LinkedOrder.unlink, if_pos rfl]
    · rw [update_of_ne hjk]
      rcases hy : D j with _ | z
      · simp [LinkedOrder.unlink, hy]
      · rw [h.unlink_apply hx hjk hy, hnext, hprev]
        simp
  · intro s y hnext hs
    have hsk : s ≠ k := by
      obtain ⟨-, -, hlt⟩ := h.exists_next hx hnext
      exact ne_of_gt hlt
    have hwrites := h.unlink_eq_writes hx hnext (some { y with prev := none })
    rw [hprev, setNext_none] at hwrites
    rw [hwrites]
    refine Function.update_eq_iff.mpr ⟨?_, fun _ _ => rfl⟩
    rw [h.unlink_apply hx hsk hs, hnext, hprev]
    simp

theorem linkBefore_eq_writes (n : κ) (value : α) (new : Option (Node κ α)) :
    Function.update (Function.update (setNext D x.prev n) n (some ⟨value, some k, x.prev⟩)) k new =
      Function.update (LinkedOrder.linkBefore D n k x value) k new := by
  funext j
  by_cases hjk : j = k
  · subst hjk
    rw [update_self, update_self]
  · rw [update_of_ne hjk, update_of_ne hjk]
    by_cases hjn : j = n
    · subst hjn
      rw [update_self, LinkedOrder.linkBefore, if_pos rfl]
    · rw [update_of_ne hjn, LinkedOrder.linkBefore, if_neg hjn]
      rcases hy : D j with _ | z
      · simp [setNext, hy]
      · have hiff := h.next_eq_iff hy hx
        by_cases hprev : x.prev = some j
        · simp [setNext, hy, hprev, hiff.mpr hprev, hjk]
        · simp [setNext, hy, hprev, mt hiff.mp hprev, hjk]

end Linked

end LinkedOrder
