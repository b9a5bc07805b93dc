import Mathlib.Tactic

/-!
# Computations that can fail

A sequence of two computations succeeds if both do, and fails with the first error.
These equivalences take a run apart one step at a time.
-/

namespace Except

universe u

variable {ε : Type*} {α β : Type u} {x : Except ε α} {f : α → Except ε β}

theorem bind_eq_ok_iff {r : β} : x >>= f = .ok r ↔ ∃ a, x = .ok a ∧ f a = .ok r := by
  cases x with
  | error e => simp [bind, Except.bind]
  | ok a => simp [bind, Except.bind]

variable {e : ε}

theorem bind_eq_error_iff :
    x >>= f = .error e ↔ x = .error e ∨ ∃ a, x = .ok a ∧ f a = .error e := by
  cases x with
  | error e => simp [bind, Except.bind]
  | ok a => simp [bind, Except.bind]

theorem bind_ne_error (hx : x ≠ .error e) (hf : ∀ a, f a ≠ .error e) : x >>= f ≠ .error e := by
  intro h
  rcases bind_eq_error_iff.mp h with he | ⟨a, -, he⟩
  · exact hx he
  · exact hf a he

@[simp] theorem ok_bind (a : α) (f : α → Except ε β) : (.ok a >>= f) = f a := rfl

@[simp] theorem error_bind (e : ε) (f : α → Except ε β) : ((.error e : Except ε α) >>= f) =
    .error e :=
  rfl

theorem map_eq_ok_iff {f : α → β} {b : β} : x.map f = .ok b ↔ ∃ a, x = .ok a ∧ f a = b := by
  cases x with
  | error e => simp [Except.map]
  | ok a => simp [Except.map]

theorem ite_error_eq_ok_iff {p : Prop} [Decidable p] {r : α} :
    (if p then .error e else x) = .ok r ↔ ¬p ∧ x = .ok r := by
  by_cases hp : p <;> simp [hp]

variable {g : α → β} {l : List α}

theorem eq_map_of_mapM_eq_ok (hg : ∀ a b, f a = .ok b → b = g a) {r : List β}
    (h : l.mapM f = .ok r) : r = l.map g := by
  induction l generalizing r with
  | nil =>
    cases h
    rfl
  | cons a l ih =>
    rw [List.mapM_cons] at h
    obtain ⟨b, hb, h⟩ := bind_eq_ok_iff.mp h
    obtain ⟨rest, hrest, h⟩ := bind_eq_ok_iff.mp h
    cases h
    rw [List.map_cons, ← ih hrest, hg a b hb]

theorem forM_eq_ok_iff {α : Type*} {l : List α} {f : α → Except ε PUnit} :
    l.forM f = .ok ⟨⟩ ↔ ∀ a ∈ l, f a = .ok ⟨⟩ := by
  induction l with
  | nil => exact ⟨fun _ a ha => absurd ha List.not_mem_nil, fun _ => rfl⟩
  | cons a l ih =>
    rw [List.forall_mem_cons, ← ih]
    refine Iff.trans (bind_eq_ok_iff (x := f a)) ?_
    exact ⟨fun ⟨_, ha, hl⟩ => ⟨ha, hl⟩, fun ⟨ha, hl⟩ => ⟨_, ha, hl⟩⟩

theorem mapM_eq_ok (h : ∀ a ∈ l, f a = .ok (g a)) : l.mapM f = .ok (l.map g) := by
  induction l with
  | nil => rfl
  | cons a l ih =>
    rw [List.mapM_cons, h a List.mem_cons_self, ok_bind,
      ih fun b hb => h b (List.mem_cons_of_mem a hb)]
    rfl

end Except
