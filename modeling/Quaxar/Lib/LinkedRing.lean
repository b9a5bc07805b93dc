import Mathlib

/-!
# Circular doubly linked lists of numbered nodes

Nodes are stored under numbers and refer to each other by them. Node `0` is the root. In a
`Linked` store every node points to the next higher one, the highest one back to the root,
and the backward links undo the forward ones. New nodes are appended above all others, and
any node but the root can be unlinked.
-/

namespace LinkedRing

open Function (update)

structure Node (α : Type*) where
  value : α
  next : ℕ
  prev : ℕ

variable {α : Type*} {D D' : ℕ → Option (Node α)} {n : ℕ} {x r : Node α}

structure Linked (D : ℕ → Option (Node α)) : Prop where
  root : (D 0).isSome = true
  bounded : ∃ b, ∀ n, (D n).isSome = true → n ≤ b
  next_spec : ∀ n x, D n = some x →
    x.next = 0 ∧ (∀ m, (D m).isSome = true → m ≤ n) ∨
      n < x.next ∧ ∀ m, (D m).isSome = true → n < m → x.next ≤ m
  prev_spec : ∀ n x, D n = some x → ∃ y, D x.next = some y ∧ y.prev = n

theorem Linked.last (h : Linked D) (hroot : D 0 = some r) :
    ∃ x, D r.prev = some x ∧ x.next = 0 ∧ ∀ m, (D m).isSome = true → m ≤ r.prev := by
  obtain ⟨b, hb⟩ := h.bounded
  have hmax : ∀ m, (D m).isSome = true → m ≤ Nat.findGreatest (fun m => (D m).isSome = true) b :=
    fun m hm => Nat.le_findGreatest (hb m hm) hm
  have hsome : (D (Nat.findGreatest (fun m => (D m).isSome = true) b)).isSome = true :=
    Nat.findGreatest_spec (P := fun m => (D m).isSome = true) (Nat.zero_le b) h.root
  obtain ⟨x, hx⟩ := Option.isSome_iff_exists.mp hsome
  obtain ⟨y, hy, hprev⟩ := h.prev_spec _ x hx
  have hnext : x.next = 0 := by
    rcases h.next_spec _ x hx with ⟨hnext, -⟩ | ⟨hlt, -⟩
    · exact hnext
    · exact absurd (hmax x.next (by rw [hy]; rfl)) (not_le.mpr hlt)
  rw [hnext, hroot] at hy
  cases hy
  rw [hprev]
  exact ⟨x, hx, hnext, hmax⟩

theorem Linked.pred (h : Linked D) (hx : D n = some x) (hn : n ≠ 0) :
    ∃ y, D x.prev = some y ∧ y.next = n ∧ x.prev < n := by
  have hsome : (D (Nat.findGreatest (fun m => (D m).isSome = true) (n - 1))).isSome = true :=
    Nat.findGreatest_spec (P := fun m => (D m).isSome = true) (Nat.zero_le _) h.root
  have hle := Nat.findGreatest_le (P := fun m => (D m).isSome = true) (n - 1)
  have hmax : ∀ m, (D m).isSome = true → m < n →
      m ≤ Nat.findGreatest (fun m => (D m).isSome = true) (n - 1) :=
    fun m hm hlt => Nat.le_findGreatest (by omega) hm
  generalize Nat.findGreatest (fun m => (D m).isSome = true) (n - 1) = a at hsome hle hmax
  obtain ⟨y, hy⟩ := Option.isSome_iff_exists.mp hsome
  obtain ⟨z, hz, hprev⟩ := h.prev_spec a y hy
  have hnsome : (D n).isSome = true := by rw [hx]; rfl
  have hnext : y.next = n := by
    rcases h.next_spec a y hy with ⟨-, hall⟩ | ⟨hlt, hleast⟩
    · have := hall n hnsome
      omega
    · have hup := hleast n hnsome (by omega)
      by_contra hne
      have := hmax y.next (by rw [hz]; rfl) (by omega)
      omega
  rw [hnext, hx] at hz
  cases hz
  exact ⟨y, hprev ▸ hy, hnext, by omega⟩

/-- A node between the root and the root is the only other one. -/
theorem Linked.pair (h : Linked D) (hx : D n = some x) (hn : n ≠ 0) (hnext : x.next = 0)
    (hprev : x.prev = 0) (m : ℕ) (hm : (D m).isSome = true) : m = 0 ∨ m = n := by
  obtain ⟨r, hr, hrn, -⟩ := h.pred hx hn
  rw [hprev] at hr
  rcases Nat.eq_zero_or_pos m with h0 | hpos
  · exact .inl h0
  · right
    have hup : n ≤ m := by
      rcases h.next_spec 0 r hr with ⟨h0, -⟩ | ⟨-, hleast⟩
      · exact absurd (hrn.symm.trans h0) hn
      · exact hrn ▸ hleast m hm hpos
    have hdown : m ≤ n := by
      rcases h.next_spec n x hx with ⟨-, hle⟩ | ⟨hlt, -⟩
      · exact hle m hm
      · omega
    omega

/-- Two nodes that point to each other. -/
def Follows (D : ℕ → Option (Node α)) (n m : ℕ) : Prop :=
  ∃ x y, D n = some x ∧ D m = some y ∧ x.next = m ∧ y.prev = n

theorem Linked.follows (h : Linked D) (hx : D n = some x) : Follows D n x.next := by
  obtain ⟨y, hy, hprev⟩ := h.prev_spec n x hx
  exact ⟨x, y, hx, hy, rfl, hprev⟩

theorem Linked.isChain_from (h : Linked D) (l : List ℕ) (n : ℕ)
    (hsort : (n :: l).Pairwise (· < ·)) (hmem : ∀ m, (D m).isSome = true ∧ n ≤ m ↔ m ∈ n :: l) :
    (n :: l ++ [0]).IsChain (Follows D) := by
  induction l generalizing n with
  | nil =>
    obtain ⟨x, hx⟩ := Option.isSome_iff_exists.mp ((hmem n).mpr List.mem_cons_self).1
    have hfollows := h.follows hx
    have hnext : x.next = 0 := by
      rcases h.next_spec n x hx with ⟨hnext, -⟩ | ⟨hlt, -⟩
      · exact hnext
      · obtain ⟨_, y, -, hy, -⟩ := hfollows
        have := (hmem x.next).mp ⟨by rw [hy]; rfl, hlt.le⟩
        simp only [List.mem_singleton] at this
        omega
    rw [hnext] at hfollows
    simpa using hfollows
  | cons m l ih =>
    rw [List.pairwise_cons] at hsort
    obtain ⟨hhead, htail⟩ := hsort
    obtain ⟨x, hx⟩ := Option.isSome_iff_exists.mp ((hmem n).mpr List.mem_cons_self).1
    have hm := (hmem m).mpr (by simp)
    have hnm := hhead m List.mem_cons_self
    have hfollows := h.follows hx
    have hnext : x.next = m := by
      rcases h.next_spec n x hx with ⟨-, hall⟩ | ⟨hlt, hleast⟩
      · have := hall m hm.1
        omega
      · obtain ⟨_, y, -, hy, -⟩ := hfollows
        have hin := (hmem x.next).mp ⟨by rw [hy]; rfl, hlt.le⟩
        have hup := hleast m hm.1 hnm
        rcases List.mem_cons.mp hin with heq | hin
        · omega
        · rcases List.mem_cons.mp hin with heq | hin
          · exact heq
          · have := (List.pairwise_cons.mp htail).1 x.next hin
            omega
    rw [hnext] at hfollows
    refine List.isChain_cons_cons.mpr ⟨hfollows, ih m htail ?_⟩
    intro k
    constructor
    · rintro ⟨hk, hle⟩
      have hin := (hmem k).mp ⟨hk, by omega⟩
      rcases List.mem_cons.mp hin with heq | hin
      · omega
      · exact hin
    · intro hin
      refine ⟨((hmem k).mpr (List.mem_cons_of_mem n hin)).1, ?_⟩
      rcases List.mem_cons.mp hin with rfl | hin
      · exact le_rfl
      · exact ((List.pairwise_cons.mp htail).1 k hin).le

/-- The nodes in ascending order, each linked with the one after it and the last one with
the root. -/
theorem Linked.exists_list (h : Linked D) : ∃ nodes : List ℕ,
    nodes.head? = some 0 ∧ nodes.Pairwise (· < ·) ∧ (∀ n, (D n).isSome = true ↔ n ∈ nodes) ∧
      (nodes ++ [0]).IsChain (Follows D) := by
  obtain ⟨b, hb⟩ := h.bounded
  let l := (List.range' 1 b).filter fun n => (D n).isSome
  have hmem : ∀ n, (D n).isSome = true ↔ n ∈ 0 :: l := by
    intro n
    simp only [l, List.mem_cons, List.mem_filter, List.mem_range'_1]
    constructor
    · intro hn
      rcases Nat.eq_zero_or_pos n with h0 | hpos
      · exact .inl h0
      · have := hb n hn
        exact .inr ⟨by omega, hn⟩
    · rintro (rfl | ⟨-, hn⟩)
      · exact h.root
      · exact hn
  have hsort : (0 :: l).Pairwise (· < ·) := by
    refine List.pairwise_cons.mpr ⟨?_, List.Pairwise.filter _ List.pairwise_lt_range'⟩
    intro n hn
    have := List.mem_range'_1.mp (List.mem_of_mem_filter hn)
    omega
  refine ⟨0 :: l, rfl, hsort, hmem, h.isChain_from l 0 hsort ?_⟩
  intro m
  rw [← hmem m]
  simp

/-- Values do not matter to the links. -/
theorem Linked.congr (h : Linked D) (hlinks : ∀ n, (D' n).map (fun x => (x.next, x.prev)) =
    (D n).map fun x => (x.next, x.prev)) : Linked D' := by
  have hsome : ∀ n, (D' n).isSome = (D n).isSome := by
    intro n
    have := congrArg Option.isSome (hlinks n)
    simpa using this
  have hback : ∀ n x, D' n = some x → ∃ y, D n = some y ∧ y.next = x.next ∧ y.prev = x.prev := by
    intro n x hx
    have hlink := hlinks n
    rw [hx, Option.map_some, eq_comm, Option.map_eq_some_iff] at hlink
    obtain ⟨y, hy, heq⟩ := hlink
    rw [Prod.mk.injEq] at heq
    exact ⟨y, hy, heq⟩
  refine ⟨by rw [hsome]; exact h.root, ?_, ?_, ?_⟩
  · obtain ⟨b, hb⟩ := h.bounded
    exact ⟨b, fun n hn => hb n (by rwa [← hsome])⟩
  · intro n x hx
    obtain ⟨y, hy, hnext, -⟩ := hback n x hx
    simp only [hsome, ← hnext]
    exact h.next_spec n y hy
  · intro n x hx
    obtain ⟨y, hy, hnext, -⟩ := hback n x hx
    obtain ⟨z, hz, hprev⟩ := h.prev_spec n y hy
    have hsz : (D' x.next).isSome = true := by
      rw [hsome, ← hnext, hz]
      rfl
    obtain ⟨z', hz'⟩ := Option.isSome_iff_exists.mp hsz
    obtain ⟨w, hw, -, hprev'⟩ := hback _ z' hz'
    rw [← hnext, hz] at hw
    cases hw
    exact ⟨z', hz', hprev'.symm.trans hprev⟩

/-- A root on its own. -/
def single (value : α) : ℕ → Option (Node α) := fun k =>
  if k = 0 then some ⟨value, 0, 0⟩ else none

theorem linked_single (value : α) : Linked (single value) := by
  have hsome : ∀ n, (single value n).isSome = true → n = 0 := by
    intro n hn
    by_contra h0
    simp [single, h0] at hn
  refine ⟨rfl, ⟨0, fun n hn => (hsome n hn).le⟩, ?_, ?_⟩
  · intro n x hx
    obtain rfl := hsome n (by rw [hx]; rfl)
    cases hx
    exact .inl ⟨rfl, fun m hm => (hsome m hm).le⟩
  · intro n x hx
    obtain rfl := hsome n (by rw [hx]; rfl)
    cases hx
    exact ⟨_, rfl, rfl⟩

/-- Append node `n` behind node `last`. -/
def append (D : ℕ → Option (Node α)) (n last : ℕ) (value : α) : ℕ → Option (Node α) := fun k =>
  if k = n then some ⟨value, 0, last⟩
  else (D k).map fun x =>
    ⟨x.value, if k = last then n else x.next, if k = 0 then n else x.prev⟩

variable {last k : ℕ} {value : α}

theorem isSome_append : (append D n last value k).isSome = true ↔ k = n ∨ (D k).isSome = true := by
  by_cases hk : k = n
  · simp [append, hk]
  · simp [append, hk]

variable {y : Node α}

theorem append_eq_some (h : append D n last value k = some y) :
    k = n ∧ y = ⟨value, 0, last⟩ ∨ k ≠ n ∧ ∃ x, D k = some x ∧
      y = ⟨x.value, if k = last then n else x.next, if k = 0 then n else x.prev⟩ := by
  by_cases hk : k = n
  · rw [append, if_pos hk] at h
    exact .inl ⟨hk, (Option.some.inj h).symm⟩
  · rw [append, if_neg hk, Option.map_eq_some_iff] at h
    obtain ⟨x, hx, rfl⟩ := h
    exact .inr ⟨hk, x, hx, rfl⟩

theorem Linked.append (h : Linked D) (hroot : D 0 = some r) (value : α)
    (hnew : ∀ m, (D m).isSome = true → m < n) : Linked (append D n r.prev value) := by
  obtain ⟨z, hz, hzero, hlast⟩ := h.last hroot
  have hn := hnew 0 h.root
  have hold : ∀ k, k ≠ n → LinkedRing.append D n r.prev value k = (D k).map fun x =>
      ⟨x.value, if k = r.prev then n else x.next, if k = 0 then n else x.prev⟩ :=
    fun k hk => if_neg hk
  have hself : LinkedRing.append D n r.prev value n = some ⟨value, 0, r.prev⟩ := if_pos rfl
  refine ⟨isSome_append.mpr (.inr h.root), ⟨n, ?_⟩, ?_, ?_⟩
  · intro m hm
    rcases isSome_append.mp hm with rfl | hm
    · exact le_rfl
    · exact (hnew m hm).le
  · intro k x hx
    by_cases hk : k = n
    · subst hk
      rw [hself] at hx
      cases hx
      refine .inl ⟨rfl, ?_⟩
      intro m hm
      rcases isSome_append.mp hm with rfl | hm
      · exact le_rfl
      · exact (hnew m hm).le
    · rw [hold k hk, Option.map_eq_some_iff] at hx
      obtain ⟨y, hy, rfl⟩ := hx
      have hkn := hnew k (by rw [hy]; rfl)
      refine .inr ?_
      by_cases hkl : k = r.prev
      · simp only [if_pos hkl]
        refine ⟨hkn, ?_⟩
        intro m hm hkm
        rcases isSome_append.mp hm with rfl | hm
        · exact le_rfl
        · have := hlast m hm
          omega
      · simp only [if_neg hkl]
        have hkr := hlast k (by rw [hy]; rfl)
        rcases h.next_spec k y hy with ⟨-, hall⟩ | ⟨hlt, hleast⟩
        · have := hall r.prev (by rw [hz]; rfl)
          omega
        · refine ⟨hlt, ?_⟩
          intro m hm hkm
          rcases isSome_append.mp hm with rfl | hm
          · have := hleast r.prev (by rw [hz]; rfl) (by omega)
            have := hnew r.prev (by rw [hz]; rfl)
            omega
          · exact hleast m hm hkm
  · intro k x hx
    by_cases hk : k = n
    · subst hk
      rw [hself] at hx
      cases hx
      exact ⟨_, by rw [hold 0 (by omega), hroot]; rfl, by simp⟩
    · rw [hold k hk, Option.map_eq_some_iff] at hx
      obtain ⟨y, hy, rfl⟩ := hx
      by_cases hkl : k = r.prev
      · simp only [if_pos hkl]
        exact ⟨_, hself, hkl.symm⟩
      · simp only [if_neg hkl]
        obtain ⟨w, hw, hprev⟩ := h.prev_spec k y hy
        have hne0 : y.next ≠ 0 := by
          intro h0
          rw [h0, hroot] at hw
          cases hw
          exact hkl hprev.symm
        have hnen : y.next ≠ n := by
          have := hnew y.next (by rw [hw]; rfl)
          omega
        exact ⟨_, by rw [hold y.next hnen, hw]; rfl, by simp [hne0, hprev]⟩

theorem append_root (hroot : D 0 = some r) :
    update (update D 0 (some ⟨r.value, n, n⟩)) n (some ⟨value, 0, 0⟩) =
      append D n 0 value := by
  funext k
  by_cases hkn : k = n
  · simp [append, hkn]
  · by_cases hk0 : k = 0
    · subst hk0
      simp [append, hkn, hroot]
    · simp [append, hkn, hk0]

theorem append_last (hroot : D 0 = some r) (hx : D last = some x) (hlast : last ≠ 0) :
    update (update (update D last (some { x with next := n })) 0
      (some { r with prev := n })) n (some ⟨value, 0, last⟩) = append D n last value := by
  funext k
  by_cases hkn : k = n
  · simp [append, hkn]
  · by_cases hk0 : k = 0
    · subst hk0
      simp [append, hkn, hroot, Ne.symm hlast]
    · by_cases hkl : k = last
      · subst hkl
        simp [append, hkn, hk0, hx]
      · simp [append, hkn, hk0, hkl]

/-- Take node `n` out, whose neighbours are `x.prev` and `x.next`. -/
def unlink (D : ℕ → Option (Node α)) (n : ℕ) (x : Node α) : ℕ → Option (Node α) := fun k =>
  if k = n then none
  else (D k).map fun y =>
    ⟨y.value, if k = x.prev then x.next else y.next, if k = x.next then x.prev else y.prev⟩

theorem isSome_unlink : (unlink D n x k).isSome = true ↔ k ≠ n ∧ (D k).isSome = true := by
  by_cases hk : k = n
  · simp [unlink, hk]
  · simp [unlink, hk]

theorem unlink_eq_some (h : unlink D n x k = some y) :
    k ≠ n ∧ ∃ z, D k = some z ∧ y = ⟨z.value, if k = x.prev then x.next else z.next,
      if k = x.next then x.prev else z.prev⟩ := by
  by_cases hk : k = n
  · rw [unlink, if_pos hk] at h
    cases h
  · rw [unlink, if_neg hk, Option.map_eq_some_iff] at h
    obtain ⟨z, hz, rfl⟩ := h
    exact ⟨hk, z, hz, rfl⟩

theorem Linked.unlink (h : Linked D) (hx : D n = some x) (hn : n ≠ 0) : Linked (unlink D n x) := by
  obtain ⟨p, hp, hpnext, hpn⟩ := h.pred hx hn
  obtain ⟨q, hq, hqprev⟩ := h.prev_spec n x hx
  have hxn : x.next ≠ n := by
    rcases h.next_spec n x hx with ⟨h0, -⟩ | ⟨hlt, -⟩
    · omega
    · omega
  have hbelow : ∀ m, (D m).isSome = true → x.prev < m → n ≤ m := by
    rcases h.next_spec _ p hp with ⟨h0, -⟩ | ⟨-, hleast⟩
    · exact absurd (hpnext.symm.trans h0) hn
    · rwa [hpnext] at hleast
  have hold : ∀ k, k ≠ n → LinkedRing.unlink D n x k = (D k).map fun y =>
      ⟨y.value, if k = x.prev then x.next else y.next, if k = x.next then x.prev else y.prev⟩ :=
    fun k hk => if_neg hk
  refine ⟨isSome_unlink.mpr ⟨Ne.symm hn, h.root⟩, ?_, ?_, ?_⟩
  · obtain ⟨b, hb⟩ := h.bounded
    exact ⟨b, fun m hm => hb m (isSome_unlink.mp hm).2⟩
  · intro k y' hy'
    obtain ⟨hk, y, hy, rfl⟩ := unlink_eq_some hy'
    by_cases hkp : k = x.prev
    · simp only [if_pos hkp]
      rcases h.next_spec n x hx with ⟨h0, hall⟩ | ⟨hlt, hleast⟩
      · refine .inl ⟨h0, ?_⟩
        intro m hm
        obtain ⟨hmn, hm⟩ := isSome_unlink.mp hm
        by_contra hlt
        have := hbelow m hm (by omega)
        have := hall m hm
        omega
      · refine .inr ⟨by omega, ?_⟩
        intro m hm hkm
        obtain ⟨hmn, hm⟩ := isSome_unlink.mp hm
        have := hbelow m hm (by omega)
        exact hleast m hm (by omega)
    · simp only [if_neg hkp]
      rcases h.next_spec k y hy with ⟨h0, hall⟩ | ⟨hlt, hleast⟩
      · exact .inl ⟨h0, fun m hm => hall m (isSome_unlink.mp hm).2⟩
      · exact .inr ⟨hlt, fun m hm hkm => hleast m (isSome_unlink.mp hm).2 hkm⟩
  · intro k y' hy'
    obtain ⟨hk, y, hy, rfl⟩ := unlink_eq_some hy'
    by_cases hkp : k = x.prev
    · simp only [if_pos hkp]
      exact ⟨_, by rw [hold x.next hxn, hq]; rfl, by simp [hkp]⟩
    · simp only [if_neg hkp]
      obtain ⟨w, hw, hprev⟩ := h.prev_spec k y hy
      have hyn : y.next ≠ n := by
        intro heq
        rw [heq, hx] at hw
        cases hw
        exact hkp hprev.symm
      have hyx : y.next ≠ x.next := by
        intro heq
        rw [heq, hq] at hw
        cases hw
        exact hk (hprev.symm.trans hqprev)
      exact ⟨_, by rw [hold y.next hyn, hw]; rfl, by simp [hyx, hprev]⟩

/-- Unlinking by single writes: the neighbours may be one node, and node `n` itself may have
been written before. -/
theorem unlink_eq_update {P Q : Node α} (hP : D x.prev = some P)
    (hQ : update D x.prev (some { P with next := x.next }) x.next = some Q) :
    update (update (update D x.prev (some { P with next := x.next }))
      x.next (some { Q with prev := x.prev })) n none = unlink D n x := by
  funext k
  by_cases hkn : k = n
  · simp [unlink, hkn]
  · by_cases hkq : k = x.next
    · subst hkq
      by_cases hpq : x.next = x.prev
      · rw [hpq, Function.update_self] at hQ
        cases hQ
        simp [unlink, hpq ▸ hkn, hpq, hP]
      · rw [Function.update_of_ne hpq] at hQ
        simp [unlink, hkn, hpq, hQ]
    · by_cases hkp : k = x.prev
      · subst hkp
        simp [unlink, hkn, hkq, hP]
      · simp [unlink, hkn, hkq, hkp]

theorem unlink_update {y : Option (Node α)} : unlink (update D n y) n x = unlink D n x := by
  funext k
  by_cases hkn : k = n
  · simp [unlink, hkn]
  · simp [unlink, hkn]

end LinkedRing
