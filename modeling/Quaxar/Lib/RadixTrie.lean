import Mathlib.Logic.Function.Basic
import Mathlib.Data.Nat.Basic
import Mathlib.Tactic

/-!
# Radix tries

Tries over arbitrary digits and items, where `digits a i` is the digit of the item
`a` at depth `i`. In a canonical trie every item lies below its own digits and every
inner node has items with different digits below it. Such a trie is determined by
its set of items.
-/

namespace RadixTrie

inductive Trie (δ α : Type*) where
  | empty
  | leaf (a : α)
  | inner (child : δ → Trie δ α)

variable {δ α : Type*} {digits : α → ℕ → δ}

def Trie.isEmpty : Trie δ α → Bool
  | .empty => true
  | _ => false

@[simp] theorem Trie.isEmpty_iff {t : Trie δ α} : t.isEmpty = true ↔ t = .empty := by
  cases t <;> simp [Trie.isEmpty]

/-- The items stored in a trie. -/
def Mem (a : α) : Trie δ α → Prop
  | .empty => False
  | .leaf x => a = x
  | .inner child => ∃ b, Mem a (child b)

@[simp] theorem not_mem_empty (a : α) : ¬ Mem a (.empty : Trie δ α) := id

@[simp] theorem mem_leaf {a x : α} : Mem a (.leaf x : Trie δ α) ↔ a = x := Iff.rfl

/-- A trie rooted at depth `d` in which no inner node can be left out. -/
def Canon (digits : α → ℕ → δ) : ℕ → Trie δ α → Prop
  | _, .empty => True
  | _, .leaf _ => True
  | d, .inner child =>
    ((∀ b, Canon digits (d + 1) (child b)) ∧ ∀ b a, Mem a (child b) → digits a d = b) ∧
      ∃ a₁ a₂, Mem a₁ (.inner child) ∧ Mem a₂ (.inner child) ∧ digits a₁ ≠ digits a₂

/-- Children of a node at depth `d`, each canonical and in its place. -/
structure Sorted (digits : α → ℕ → δ) (d : ℕ) (child : δ → Trie δ α) : Prop where
  canon : ∀ b, Canon digits (d + 1) (child b)
  placed : ∀ b a, Mem a (child b) → digits a d = b

/-- Items with different digits lie below the node. -/
def Branching (digits : α → ℕ → δ) (t : Trie δ α) : Prop :=
  ∃ a₁ a₂, Mem a₁ t ∧ Mem a₂ t ∧ digits a₁ ≠ digits a₂

theorem canon_inner {d : ℕ} {child : δ → Trie δ α} :
    Canon digits d (.inner child) ↔ Sorted digits d child ∧ Branching digits (.inner child) := by
  constructor
  · rintro ⟨⟨hcanon, hplaced⟩, htwo⟩
    exact ⟨⟨hcanon, hplaced⟩, htwo⟩
  · rintro ⟨s, htwo⟩
    exact ⟨⟨s.canon, s.placed⟩, htwo⟩

theorem Branching.exists_child {child : δ → Trie δ α} (h : Branching digits (.inner child)) :
    ∃ b, child b ≠ .empty := by
  obtain ⟨a, -, ⟨b, ha⟩, -⟩ := h
  refine ⟨b, fun hempty => ?_⟩
  rw [hempty] at ha
  exact ha

theorem Canon.exists_mem {d : ℕ} {t : Trie δ α} (h : Canon digits d t) (hne : t ≠ .empty) :
    ∃ a, Mem a t := by
  cases t with
  | empty => exact absurd rfl hne
  | leaf a => exact ⟨a, rfl⟩
  | inner child =>
    obtain ⟨-, a₁, -, h₁, -⟩ := canon_inner.mp h
    exact ⟨a₁, h₁⟩

namespace Sorted

variable {d : ℕ} {child : δ → Trie δ α}

theorem mem_child (s : Sorted digits d child) {a : α} {b : δ} :
    Mem a (child b) ↔ Mem a (.inner child) ∧ digits a d = b := by
  constructor
  · intro ha
    exact ⟨⟨b, ha⟩, s.placed b a ha⟩
  · rintro ⟨⟨b', ha⟩, rfl⟩
    rwa [s.placed b' a ha]

variable [DecidableEq δ] {b : δ} {t : Trie δ α}

theorem update (s : Sorted digits d child) (ht : Canon digits (d + 1) t)
    (hplaced : ∀ a, Mem a t → digits a d = b) :
    Sorted digits d (Function.update child b t) := by
  constructor
  · intro b'
    by_cases hb : b' = b
    · subst hb
      simpa using ht
    · simpa [hb] using s.canon b'
  · intro b' a ha
    by_cases hb : b' = b
    · subst hb
      exact hplaced a (by simpa using ha)
    · exact s.placed b' a (by simpa [hb] using ha)

theorem mem_update (s : Sorted digits d child) {a : α} :
    Mem a (.inner (Function.update child b t)) ↔
      Mem a t ∨ Mem a (.inner child) ∧ digits a d ≠ b := by
  constructor
  · rintro ⟨b', ha⟩
    by_cases hb : b' = b
    · subst hb
      exact .inl (by simpa using ha)
    · simp only [Function.update_of_ne hb] at ha
      exact .inr ⟨⟨b', ha⟩, by rwa [s.placed b' a ha]⟩
  · rintro (ha | ⟨ha, hne⟩)
    · exact ⟨b, by simpa using ha⟩
    · refine ⟨digits a d, ?_⟩
      rw [Function.update_of_ne hne]
      exact s.mem_child.mpr ⟨ha, rfl⟩

end Sorted

theorem Canon.ext {t : Trie δ α} : ∀ {d : ℕ} {t' : Trie δ α}, Canon digits d t →
    Canon digits d t' → (∀ a, Mem a t ↔ Mem a t') → t = t' := by
  induction t with
  | empty =>
    intro d t' _ ht' hmem
    by_contra hne
    obtain ⟨a, ha⟩ := ht'.exists_mem (Ne.symm hne)
    exact (hmem a).mpr ha
  | leaf x =>
    intro d t' _ ht' hmem
    cases t' with
    | empty => exact ((hmem x).mp rfl).elim
    | leaf y => rw [show x = y from (hmem x).mp rfl]
    | inner child =>
      obtain ⟨-, a₁, a₂, h₁, h₂, hne⟩ := canon_inner.mp ht'
      rw [show a₁ = x from (hmem a₁).mpr h₁, show a₂ = x from (hmem a₂).mpr h₂] at hne
      exact absurd rfl hne
  | inner child ih =>
    intro d t' ht ht' hmem
    obtain ⟨s, a₁, a₂, h₁, h₂, hne⟩ := canon_inner.mp ht
    cases t' with
    | empty => exact ((hmem a₁).mp h₁).elim
    | leaf y =>
      rw [show a₁ = y from (hmem a₁).mp h₁, show a₂ = y from (hmem a₂).mp h₂] at hne
      exact absurd rfl hne
    | inner child' =>
      obtain ⟨s', -⟩ := canon_inner.mp ht'
      congr 1
      funext b
      refine ih b (s.canon b) (s'.canon b) fun a => ?_
      rw [s.mem_child, s'.mem_child, hmem a]

theorem Sorted.ext {d : ℕ} {child child' : δ → Trie δ α} (s : Sorted digits d child)
    (s' : Sorted digits d child') (hmem : ∀ a, Mem a (.inner child) ↔ Mem a (.inner child')) :
    child = child' := by
  funext b
  refine (s.canon b).ext (s'.canon b) fun a => ?_
  rw [s.mem_child, s'.mem_child, hmem a]

/-- Every item of `t` starts with the first `d` digits of `k`. -/
def Prefixed (digits : α → ℕ → δ) (k : ℕ → δ) (d : ℕ) (t : Trie δ α) : Prop :=
  ∀ a, Mem a t → ∀ i < d, digits a i = k i

theorem Prefixed.child {k : ℕ → δ} {d : ℕ} {child : δ → Trie δ α} (s : Sorted digits d child)
    (h : Prefixed digits k d (.inner child)) : Prefixed digits k (d + 1) (child (k d)) := by
  intro a ha i hi
  rcases Nat.lt_succ_iff_lt_or_eq.mp hi with hlt | rfl
  · exact h a ⟨k d, ha⟩ i hlt
  · exact s.placed _ a ha

/-- If the first `D` digits determine all of them, inner nodes lie above depth `D`. -/
theorem Branching.depth_lt {D : ℕ} (hD : ∀ a b, (∀ i < D, digits a i = digits b i) →
    digits a = digits b) {k : ℕ → δ} {d : ℕ} {t : Trie δ α} (h : Branching digits t)
    (hp : Prefixed digits k d t) : d < D := by
  by_contra hd
  obtain ⟨a₁, a₂, h₁, h₂, hne⟩ := h
  refine hne (hD a₁ a₂ fun i hi => ?_)
  rw [hp a₁ h₁ i (by omega), hp a₂ h₂ i (by omega)]

end RadixTrie
