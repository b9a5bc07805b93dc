import Quaxar.Lib.OrderedMap

/-!
# Lists with distinct keys, sorted by a rank

Inserting an element in front of the first one of larger rank keeps a list sorted. In a list
with distinct keys, erasing a position is filtering out its key.
-/

namespace SortedList

variable {α κ ρ : Type*} [LinearOrder ρ] {rank : α → ρ} {l : List α} {a : α}

/-- In front of the first element of larger rank. -/
def insertBy (rank : α → ρ) (a : α) (l : List α) : List α :=
  l.insertIdx (l.findIdx fun b => decide (rank a < rank b)) a

theorem insertBy_perm (rank : α → ρ) (a : α) (l : List α) : (insertBy rank a l).Perm (a :: l) :=
  List.perm_insertIdx a l List.findIdx_le_length

theorem insertBy_cons_of_lt {b : α} (h : rank a < rank b) :
    insertBy rank a (b :: l) = a :: b :: l := by
  simp [insertBy, h, List.findIdx_cons]

theorem insertBy_cons_of_le {b : α} (h : rank b ≤ rank a) :
    insertBy rank a (b :: l) = b :: insertBy rank a l := by
  simp [insertBy, not_lt.mpr h, List.findIdx_cons, List.insertIdx_succ_cons]

theorem pairwise_insertBy (h : l.Pairwise fun x y => rank x ≤ rank y) :
    (insertBy rank a l).Pairwise fun x y => rank x ≤ rank y := by
  induction l with
  | nil => simp [insertBy]
  | cons b l ih =>
    rw [List.pairwise_cons] at h
    rcases lt_or_ge (rank a) (rank b) with hlt | hle
    · rw [insertBy_cons_of_lt hlt, List.pairwise_cons]
      refine ⟨fun x hx => ?_, List.pairwise_cons.mpr h⟩
      rcases List.mem_cons.mp hx with rfl | hx
      · exact hlt.le
      · exact hlt.le.trans (h.1 x hx)
    · rw [insertBy_cons_of_le hle, List.pairwise_cons]
      refine ⟨fun x hx => ?_, ih h.2⟩
      rcases List.mem_cons.mp ((insertBy_perm rank a l).mem_iff.mp hx) with rfl | hx
      · exact hle
      · exact h.1 x hx

theorem foldl_insertBy (rank : α → ρ) (items : List α) (h : l.Pairwise fun x y => rank x ≤ rank y) :
    (items.foldl (fun l a => insertBy rank a l) l).Perm (items ++ l) ∧
      (items.foldl (fun l a => insertBy rank a l) l).Pairwise fun x y => rank x ≤ rank y := by
  induction items generalizing l with
  | nil => exact ⟨List.Perm.refl _, h⟩
  | cons a items ih =>
    obtain ⟨hperm, hsort⟩ := ih (pairwise_insertBy (a := a) h)
    refine ⟨hperm.trans ?_, hsort⟩
    exact ((insertBy_perm rank a l).append_left items).trans List.perm_middle

/-- A list sorted by rank, with equal ranks in their order. -/
def sortBy (rank : α → ρ) (items : List α) : List α :=
  items.foldl (fun l a => insertBy rank a l) []

theorem sortBy_perm (rank : α → ρ) (items : List α) : (sortBy rank items).Perm items := by
  have h := (foldl_insertBy rank items List.Pairwise.nil).1
  rwa [List.append_nil] at h

theorem pairwise_sortBy (rank : α → ρ) (items : List α) :
    (sortBy rank items).Pairwise fun x y => rank x ≤ rank y :=
  (foldl_insertBy rank items List.Pairwise.nil).2

theorem pairwise_lt_of_neighbours (hsort : l.Pairwise fun x y => rank x ≤ rank y)
    (hne : ∀ pair ∈ l.zip l.tail, rank pair.1 ≠ rank pair.2) :
    l.Pairwise fun x y => rank x < rank y := by
  induction l with
  | nil => exact List.Pairwise.nil
  | cons x rest ih =>
    obtain ⟨hx, hsort⟩ := List.pairwise_cons.mp hsort
    have htail : rest.Pairwise fun x y => rank x < rank y := by
      refine ih hsort fun pair hpair => hne pair ?_
      cases rest with
      | nil => cases hpair
      | cons y rest => exact List.mem_cons_of_mem _ hpair
    refine List.pairwise_cons.mpr ⟨fun z hz => ?_, htail⟩
    -- the smallest of the rest is its first element
    cases rest with
    | nil => cases hz
    | cons y rest =>
      have hlt : rank x < rank y :=
        lt_of_le_of_ne (hx y List.mem_cons_self) (hne (x, y) List.mem_cons_self)
      rcases List.mem_cons.mp hz with rfl | hz
      · exact hlt
      · exact hlt.trans (List.rel_of_pairwise_cons htail hz)

/-- Dropping what ranks below an element of a strictly sorted list leaves it in front, with
everything above it behind. -/
theorem exists_dropWhile_eq_cons (hsort : l.Pairwise fun x y => rank x < rank y) (ha : a ∈ l) :
    ∃ rest, (l.dropWhile fun b => decide (rank b < rank a)) = a :: rest ∧
      ∀ b ∈ l, rank a < rank b → b ∈ rest := by
  induction l with
  | nil => cases ha
  | cons x l ih =>
    obtain ⟨hx, hsort⟩ := List.pairwise_cons.mp hsort
    rcases List.mem_cons.mp ha with rfl | htail
    · refine ⟨l, by simp, fun b hb hlt => ?_⟩
      rcases List.mem_cons.mp hb with rfl | hb
      · exact absurd hlt (lt_irrefl _)
      · exact hb
    · obtain ⟨rest, hrest, habove⟩ := ih hsort htail
      refine ⟨rest, by simpa [hx a htail] using hrest, fun b hb hlt => ?_⟩
      rcases List.mem_cons.mp hb with rfl | hb
      · exact absurd (hlt.trans (hx a htail)) (lt_irrefl _)
      · exact habove b hb hlt

section Adjacent

variable [DecidableEq α]

/-- Without elements that repeat the one behind them. -/
def dedupAdjacent : List α → List α
  | [] => []
  | [a] => [a]
  | a :: b :: l => if a = b then dedupAdjacent (b :: l) else a :: dedupAdjacent (b :: l)

@[simp] theorem mem_dedupAdjacent : a ∈ dedupAdjacent l ↔ a ∈ l := by
  fun_induction dedupAdjacent l with
  | case1 => rfl
  | case2 => rfl
  | case3 b l ih =>
    rw [ih]
    simp
  | case4 b c l hne ih => rw [List.mem_cons, ih, List.mem_cons (b := b)]

end Adjacent

variable [DecidableEq κ] {key : α → κ} {i : ℕ}

theorem eraseIdx_eq_filter (hnodup : (l.map key).Nodup) (hi : l[i]? = some a) :
    l.eraseIdx i = l.filter fun b => decide (key b ≠ key a) := by
  induction l generalizing i with
  | nil => cases hi
  | cons b l ih =>
    rw [List.map_cons, List.nodup_cons] at hnodup
    cases i with
    | zero =>
      cases hi
      rw [List.eraseIdx_zero, List.tail_cons, List.filter_cons_of_neg (by simp)]
      refine (List.filter_eq_self.mpr fun c hc => ?_).symm
      refine decide_eq_true fun heq => hnodup.1 ?_
      exact heq ▸ List.mem_map_of_mem hc
    | succ i =>
      have hi' : l[i]? = some a := by simpa using hi
      have hne : key b ≠ key a := by
        intro heq
        exact hnodup.1 (heq ▸ List.mem_map_of_mem (List.mem_of_getElem? hi'))
      rw [List.eraseIdx_cons_succ, List.filter_cons_of_pos (by simpa using hne), ih hnodup.2 hi']

theorem findIdx?_key (hnodup : (l.map key).Nodup) (hi : l[i]? = some a) :
    (l.findIdx? fun b => decide (key b = key a)) = some i := by
  induction l generalizing i with
  | nil => cases hi
  | cons b l ih =>
    rw [List.map_cons, List.nodup_cons] at hnodup
    cases i with
    | zero =>
      cases hi
      simp [List.findIdx?_cons]
    | succ i =>
      have hi' : l[i]? = some a := by simpa using hi
      have hne : key b ≠ key a := by
        intro heq
        exact hnodup.1 (heq ▸ List.mem_map_of_mem (List.mem_of_getElem? hi'))
      simp [List.findIdx?_cons, hne, ih hnodup.2 hi']

theorem find?_key (hnodup : (l.map key).Nodup) (ha : a ∈ l) :
    (l.find? fun b => decide (key b = key a)) = some a := by
  induction l with
  | nil => cases ha
  | cons b l ih =>
    rw [List.map_cons, List.nodup_cons] at hnodup
    rcases List.mem_cons.mp ha with rfl | hmem
    · simp
    · have hne : key b ≠ key a := by
        intro heq
        exact hnodup.1 (heq ▸ List.mem_map_of_mem hmem)
      rw [List.find?_cons_of_neg (by simpa using hne), ih hnodup.2 hmem]

end SortedList
