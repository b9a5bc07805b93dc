import Quaxar.Lib.RadixTrie

/-!
# Building a trie from sorted items

While a canonical trie is built from items in ascending order, the nodes that can still get
children lie on the path to the last item. Such a path is a list of frames, the deepest
first, whose children all lie before the path. A finished subtrie is attached to the deepest
frame, which can then be finished in turn.
-/

namespace RadixTrie

open Function (update update_of_ne update_self)

variable {δ α : Type*}

/-- The inner nodes of a trie, each after the nodes below it. `ds` lists the digits. -/
def postorder (ds : List δ) : Trie δ α → List (δ → Trie δ α)
  | .empty => []
  | .leaf _ => []
  | .inner child => (ds.flatMap fun b => postorder ds (child b)) ++ [child]

/-- The inner nodes below a node. -/
def postorderBelow (ds : List δ) (child : δ → Trie δ α) : List (δ → Trie δ α) :=
  ds.flatMap fun b => postorder ds (child b)

theorem postorder_inner (ds : List δ) (child : δ → Trie δ α) :
    postorder ds (.inner child) = postorderBelow ds child ++ [child] := by
  simp only [postorder, postorderBelow]

/-- Nothing lies after the branch that gets a subtrie. -/
theorem postorderBelow_update [LinearOrder δ] {ds : List δ} (hds : ds.Pairwise (· < ·)) {b : δ}
    (hb : b ∈ ds) {child : δ → Trie δ α} (hafter : ∀ b', b ≤ b' → child b' = .empty)
    (t : Trie δ α) :
    postorderBelow ds (update child b t) =
      postorderBelow ds child ++ postorder ds t := by
  obtain ⟨before, after, rfl⟩ := List.append_of_mem hb
  obtain ⟨-, hcons, hcross⟩ := List.pairwise_append.mp hds
  obtain ⟨hhead, -⟩ := List.pairwise_cons.mp hcons
  have hbefore : before.flatMap (fun b' => postorder (before ++ b :: after)
        (update child b t b')) =
      before.flatMap fun b' => postorder (before ++ b :: after) (child b') := by
    refine List.flatMap_congr fun b' hb' => ?_
    have hlt := hcross b' hb' b List.mem_cons_self
    rw [update_of_ne hlt.ne]
  have hnone : ∀ f : δ → Trie δ α, (∀ b' ∈ after, f b' = .empty) →
      after.flatMap (fun b' => postorder (before ++ b :: after) (f b')) = [] := by
    intro f hf
    rw [List.flatMap_eq_nil_iff]
    intro b' hb'
    rw [hf b' hb']
    rfl
  have hold := hnone child fun b' hb' => hafter b' (hhead b' hb').le
  have hnew := hnone (update child b t) fun b' hb' => by
    rw [update_of_ne (hhead b' hb').ne', hafter b' (hhead b' hb').le]
  simp only [postorderBelow, List.flatMap_append, List.flatMap_cons, hbefore, hold, hnew,
    update_self, hafter b le_rfl, List.append_nil]
  simp [postorder]

variable [LinearOrder δ] {digits : α → ℕ → δ} {k k' : ℕ → δ} {d : ℕ}

/-- An unfinished node at depth `d` on the path `k`: its children lie before the path. -/
structure IsFrame (digits : α → ℕ → δ) (k : ℕ → δ) (d : ℕ) (child : δ → Trie δ α) : Prop where
  sorted : Sorted digits d child
  along : ∀ a, Mem a (.inner child) → ∀ i < d, digits a i = k i
  after : ∀ b, k d ≤ b → child b = .empty

/-- Unfinished nodes at the depths below `frames.length` on the path `k`. -/
def Frames (digits : α → ℕ → δ) (k : ℕ → δ) : List (δ → Trie δ α) → Prop
  | [] => True
  | child :: frames => IsFrame digits k frames.length child ∧ Frames digits k frames

/-- A finished subtrie for the deepest frame. -/
structure Attaches (digits : α → ℕ → δ) (k : ℕ → δ) (t : Trie δ α) (frames : List (δ → Trie δ α)) :
    Prop where
  path : Frames digits k frames
  canon : Canon digits frames.length t
  along : ∀ a, Mem a t → ∀ i < frames.length, digits a i = k i
  exists_mem : ∃ a, Mem a t

/-- The items below the frames. -/
def MemFrames (a : α) (frames : List (δ → Trie δ α)) : Prop :=
  ∃ child ∈ frames, Mem a (.inner child)

/-- The inner nodes below the frames, in the order in which they are finished. -/
def framesBelow (ds : List δ) : List (δ → Trie δ α) → List (δ → Trie δ α)
  | [] => []
  | child :: frames => framesBelow ds frames ++ postorderBelow ds child

variable {t : Trie δ α} {child : δ → Trie δ α} {frames : List (δ → Trie δ α)}

theorem isFrame_empty : IsFrame digits k d (fun _ => .empty) where
  sorted := ⟨fun _ => trivial, fun _ _ h => h.elim⟩
  along := by
    rintro a ⟨_, h⟩
    exact h.elim
  after _ _ := rfl

/-- The path may change below a frame, and at the frame move ahead. -/
theorem IsFrame.advance (h : IsFrame digits k d child) (hk : ∀ i < d, k' i = k i)
    (hd : k d ≤ k' d) : IsFrame digits k' d child where
  sorted := h.sorted
  along := by
    intro a ha i hi
    rw [h.along a ha i hi, hk i hi]
  after b hb := h.after b (hd.trans hb)

theorem Frames.congr (h : Frames digits k frames) (hk : ∀ i < frames.length, k' i = k i) :
    Frames digits k' frames := by
  induction frames with
  | nil => trivial
  | cons child frames ih =>
    obtain ⟨hchild, hframes⟩ := h
    simp only [List.length_cons] at hk
    refine ⟨hchild.advance (fun i hi => hk i (by omega)) (hk _ (by omega)).ge, ih hframes ?_⟩
    intro i hi
    exact hk i (by omega)

theorem IsFrame.mem_update (h : IsFrame digits k d child) (a : α) :
    Mem a (.inner (update child (k d) t)) ↔ Mem a t ∨ Mem a (.inner child) := by
  rw [h.sorted.mem_update]
  constructor
  · rintro (ha | ⟨ha, -⟩)
    · exact .inl ha
    · exact .inr ha
  · rintro (ha | ⟨b, ha⟩)
    · exact .inl ha
    · refine .inr ⟨⟨b, ha⟩, ?_⟩
      rw [h.sorted.placed b a ha]
      rintro rfl
      rw [h.after _ le_rfl] at ha
      exact ha

namespace Attaches

section

variable (h : Attaches digits k t (child :: frames))

include h

theorem isFrame : IsFrame digits k frames.length child := h.path.1

theorem sorted_update : Sorted digits frames.length (update child (k frames.length) t) :=
  h.isFrame.sorted.update h.canon fun a ha => h.along a ha _ (by simp)

theorem along_update (a : α) (ha : Mem a (.inner (update child (k frames.length) t)))
    (i : ℕ) (hi : i < frames.length) : digits a i = k i := by
  rcases (h.isFrame.mem_update a).mp ha with ha | ha
  · exact h.along a ha i (by simp only [List.length_cons]; omega)
  · exact h.isFrame.along a ha i hi

theorem close (htwo : Branching digits (.inner (update child (k frames.length) t))) :
    Attaches digits k (.inner (update child (k frames.length) t)) frames where
  path := h.path.2
  canon := canon_inner.mpr ⟨h.sorted_update, htwo⟩
  along := h.along_update
  exists_mem := by
    obtain ⟨a, -, ha, -⟩ := htwo
    exact ⟨a, ha⟩

theorem advance (hk : ∀ i < frames.length, k' i = k i) (hlt : k frames.length < k' frames.length) :
    Frames digits k' (update child (k frames.length) t :: frames) := by
  refine ⟨⟨h.sorted_update, ?_, ?_⟩, h.path.2.congr hk⟩
  · intro a ha i hi
    rw [h.along_update a ha i hi, hk i hi]
  · intro b hb
    have hb' := hlt.trans_le hb
    rw [update_of_ne hb'.ne', h.isFrame.after b hb'.le]

/-- A frame with an item of its own and a subtrie has two items. -/
theorem branching (hchild : ∃ a, Mem a (.inner child)) :
    Branching digits (.inner (update child (k frames.length) t)) := by
  obtain ⟨a, ha⟩ := h.exists_mem
  obtain ⟨a', ha'⟩ := hchild
  refine ⟨a, a', (h.isFrame.mem_update a).mpr (.inl ha),
    (h.isFrame.mem_update a').mpr (.inr ha'), ?_⟩
  intro heq
  have hdigit := congrFun heq frames.length
  rw [h.along a ha _ (by simp)] at hdigit
  obtain ⟨b, hb⟩ := ha'
  rw [h.isFrame.sorted.placed b a' hb] at hdigit
  rw [← hdigit, h.isFrame.after _ le_rfl] at hb
  exact hb

theorem memFrames_close (a : α) :
    Mem a (.inner (update child (k frames.length) t)) ∨ MemFrames a frames ↔
      Mem a t ∨ MemFrames a (child :: frames) := by
  rw [h.isFrame.mem_update a]
  simp only [MemFrames, List.mem_cons, exists_eq_or_imp]
  tauto

end

end Attaches

/-- A subtrie with two items keeps the nodes above it from being left out. -/
theorem Branching.update (htwo : Branching digits t) (b : δ) :
    Branching digits (.inner (update child b t)) := by
  obtain ⟨a₁, a₂, h₁, h₂, hne⟩ := htwo
  exact ⟨a₁, a₂, ⟨b, by simpa using h₁⟩, ⟨b, by simpa using h₂⟩, hne⟩

end RadixTrie
