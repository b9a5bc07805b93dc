import Mathlib

/-!
# Sums of a measure over a list

How the sum changes when an element is replaced, and what it is over the elements with a property.
-/

namespace ListSum

variable {α : Type*} {l : List α} {index : ℕ} {a : α}

section

variable (f : α → ℕ) (h : l[index]? = some a)

include f h

theorem sum_map_replace (others : List α) :
    ((l.take index ++ others ++ l.drop (index + 1)).map f).sum + f a =
      (l.map f).sum + (others.map f).sum := by
  obtain ⟨hlt, ha⟩ := List.getElem?_eq_some_iff.mp h
  have hl : l.take index ++ a :: l.drop (index + 1) = l := by
    rw [← ha, ← List.drop_eq_getElem_cons hlt, List.take_append_drop]
  have hsplit : (l.map f).sum =
      ((l.take index).map f).sum + (f a + ((l.drop (index + 1)).map f).sum) := by
    conv_lhs => rw [← hl, List.map_append, List.sum_append, List.map_cons, List.sum_cons]
  rw [hsplit, List.map_append, List.map_append, List.sum_append, List.sum_append]
  omega

theorem sum_map_set (b : α) : ((l.set index b).map f).sum + f a = (l.map f).sum + f b := by
  have hlt := (List.getElem?_eq_some_iff.mp h).1
  have hset : l.set index b = l.take index ++ [b] ++ l.drop (index + 1) := by
    rw [List.set_eq_take_append_cons_drop, if_pos hlt]
    simp
  rw [hset, sum_map_replace f h [b]]
  simp

theorem le_sum_map : f a ≤ (l.map f).sum :=
  List.le_sum_of_mem (List.mem_map_of_mem (List.mem_of_getElem? h))

end

/-- A sum over the elements with a property, against one over all. -/
theorem sum_map_filter_le (p : α → Bool) (f g : α → ℕ) (l : List α)
    (h : ∀ a ∈ l, p a = true → f a ≤ g a) : ((l.filter p).map f).sum ≤ (l.map g).sum := by
  induction l with
  | nil => simp
  | cons a l ih =>
    have htail := ih fun b hb => h b (List.mem_cons_of_mem a hb)
    by_cases ha : p a = true
    · have hhead := h a List.mem_cons_self ha
      simp only [List.filter_cons_of_pos ha, List.map_cons, List.sum_cons]
      omega
    · simp only [List.filter_cons_of_neg ha, List.map_cons, List.sum_cons]
      omega

theorem sum_map_filter_eq (p : α → Bool) (f g : α → ℕ) (l : List α)
    (h : ∀ a ∈ l, g a = if p a then f a else 0) : (l.map g).sum = ((l.filter p).map f).sum := by
  induction l with
  | nil => simp
  | cons a l ih =>
    have htail := ih fun b hb => h b (List.mem_cons_of_mem a hb)
    have hhead := h a List.mem_cons_self
    by_cases ha : p a = true
    · simp [List.filter_cons_of_pos ha, htail, hhead, ha]
    · simp [List.filter_cons_of_neg ha, htail, hhead, ha]

end ListSum
