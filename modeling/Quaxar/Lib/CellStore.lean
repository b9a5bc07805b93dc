import Mathlib

/-!
# Stores of mutable cells and owned footprints

A store is the list of its allocated cells; an address is a position in it.
`Evolves h S h' S'` says that a computation which may write the addresses in
`S`, and any address it allocates itself, led from `h` to `h'` and is left with
the footprint `S'`. The rules below compose such computations; everything that
lies outside the footprint is framed.
-/

namespace CellStore

variable {α : Type*}

/-- Append a cell; its address is the old length. -/
def alloc (h : List α) (x : α) : List α × ℕ := (h ++ [x], h.length)

/-- A footprint `S` of `h` became the footprint `S'` of `h'`: cells outside `S`
are unchanged, and `S'` contains only old members of `S` and new cells. -/
structure Evolves (h : List α) (S : Set ℕ) (h' : List α) (S' : Set ℕ) : Prop where
  grows : h.length ≤ h'.length
  frame : ∀ a < h.length, a ∉ S → h'[a]? = h[a]?
  owned : ∀ a ∈ S', a ∈ S ∨ h.length ≤ a

namespace Evolves

variable {h h₁ h₂ : List α} {S T S₁ S₂ : Set ℕ}

theorem refl (h : List α) (S : Set ℕ) : Evolves h S h S :=
  ⟨le_refl _, fun _ _ _ => rfl, fun _ ha => .inl ha⟩

theorem trans (e₁ : Evolves h S h₁ S₁) (e₂ : Evolves h₁ S₁ h₂ S₂) : Evolves h S h₂ S₂ := by
  refine ⟨e₁.grows.trans e₂.grows, ?_, ?_⟩
  · intro a ha hS
    rw [e₂.frame a (ha.trans_le e₁.grows), e₁.frame a ha hS]
    intro hS₁
    rcases e₁.owned a hS₁ with h₀ | h₀
    · exact hS h₀
    · omega
  · intro a ha
    rcases e₂.owned a ha with h₀ | h₀
    · exact e₁.owned a h₀
    · exact .inr (e₁.grows.trans h₀)

theorem mono (e : Evolves h S h₁ S₁) (hT : S ⊆ T) : Evolves h T h₁ S₁ :=
  ⟨e.grows, fun a ha hn => e.frame a ha fun hs => hn (hT hs),
    fun a ha => (e.owned a ha).imp_left fun hs => hT hs⟩

theorem shrink (e : Evolves h S h₁ S₁) (hT : T ⊆ S₁) : Evolves h S h₁ T :=
  ⟨e.grows, e.frame, fun a ha => e.owned a (hT ha)⟩

theorem alloc (h : List α) (S : Set ℕ) (x : α) :
    Evolves h S (alloc h x).1 (insert h.length S) := by
  refine ⟨by simp [CellStore.alloc], ?_, ?_⟩
  · intro a ha _
    simp [CellStore.alloc, List.getElem?_append_left ha]
  · rintro a (rfl | ha)
    · exact .inr le_rfl
    · exact .inl ha

theorem write (x : α) {a : ℕ} (ha : a ∈ S) : Evolves h S (h.set a x) S := by
  refine ⟨by simp, ?_, fun _ hb => .inl hb⟩
  intro b _ hb
  have hne : a ≠ b := fun hab => hb (hab ▸ ha)
  simp [hne]

theorem get (e : Evolves h S h₁ S₁) {a : ℕ} {x : α} (hx : h[a]? = some x) (ha : a ∉ S) :
    h₁[a]? = some x := by
  have hlt : a < h.length := (List.getElem?_eq_some_iff.mp hx).1
  rw [e.frame a hlt ha, hx]

end Evolves

theorem get_alloc_self (h : List α) (x : α) : (alloc h x).1[(alloc h x).2]? = some x := by
  simp [alloc]

theorem get_write_self {h : List α} {a : ℕ} {x y : α} (hx : h[a]? = some x) :
    (h.set a y)[a]? = some y := by
  have hlt : a < h.length := (List.getElem?_eq_some_iff.mp hx).1
  simp [hlt]

end CellStore
