import Quaxar.SHAMap.TreeNode

/-!
# The slots of an inner node

`TaggedPointer` keeps the hashes of an inner node. With sixteen slots every branch has its own;
with fewer, only the set branches have one, in their order, and the slot of a branch is the number
of set branches below it. A decoder fills sixteen slots and then resizes the node.
-/

namespace Quaxar.SHAMap

/-- The first of `TAGGED_POINTER_BOUNDARIES` that suffices; no node has more than sixteen
children. -/
def capacityForChildren (numChildren : ℕ) : ℕ :=
  ([2, 4, 6].find? (numChildren ≤ ·)).getD branchFactor

/-- The number of set branches among the first `k`. -/
def onesBelow (isBranch : Fin 16 → Bool) (k : ℕ) : ℕ := ((List.finRange 16).take k).countP isBranch

/-- The children are left out: a decoded node has none. -/
abbrev TaggedPointer := List Uint256

namespace TaggedPointer

def new (numChildren : ℕ) : TaggedPointer :=
  List.replicate (capacityForChildren numChildren) .zero

variable (p next : TaggedPointer) (isBranch : Fin 16 → Bool) (b : Fin 16)

def isDense : Bool := p.length = branchFactor

def slotIndex : ℕ := if p.isDense then b else onesBelow isBranch b

def childIndex : Option ℕ :=
  if p.isDense || isBranch b then some (p.slotIndex isBranch b) else none

def getHash : Uint256 :=
  (p.childIndex isBranch b).elim .zero (p.getD · .zero)

/-- Move the hash of one branch to the new allocation `next`. -/
def moveBranch : TaggedPointer :=
  if isBranch b then next.set (next.slotIndex isBranch b) (p.getHash isBranch b) else next

/-- `rebuild` with the same branches before and after. -/
def resize (toAllocate : ℕ) : TaggedPointer :=
  if capacityForChildren toAllocate = p.length then p
  else (List.finRange 16).foldl (p.moveBranch · isBranch ·) (new toAllocate)

end TaggedPointer

variable {isBranch : Fin 16 → Bool} {b c : Fin 16} {p next : TaggedPointer}

theorem onesBelow_lt (hc : isBranch c = true) {k : ℕ} (h : c < k) :
    onesBelow isBranch c < onesBelow isBranch k := by
  have hsucc : onesBelow isBranch (c + 1) = onesBelow isBranch c + 1 := by
    rw [onesBelow, onesBelow, List.take_add_one]
    simp [List.countP_append, hc]
  have hle : onesBelow isBranch (c + 1) ≤ onesBelow isBranch k :=
    (List.take_sublist_take_left h).countP_le
  omega

theorem onesBelow_inj (hb : isBranch b = true) (hc : isBranch c = true)
    (h : onesBelow isBranch b = onesBelow isBranch c) : b = c := by
  rcases lt_trichotomy b c with hlt | heq | hlt
  · exact absurd h (onesBelow_lt hb hlt).ne
  · exact heq
  · exact absurd h (onesBelow_lt hc hlt).ne'

theorem onesBelow_le_capacity (isBranch : Fin 16 → Bool) :
    onesBelow isBranch 16 ≤ capacityForChildren (onesBelow isBranch 16) := by
  have hle : onesBelow isBranch 16 ≤ 16 := List.countP_le_length.trans (by simp)
  generalize onesBelow isBranch 16 = n at hle
  interval_cases n <;> decide

namespace TaggedPointer

theorem getHash_of_set (hb : isBranch b = true) :
    p.getHash isBranch b = p.getD (p.slotIndex isBranch b) BaseUInt.zero := by
  simp [getHash, childIndex, hb]

theorem slotIndex_lt (hb : isBranch b = true) (hroom : onesBelow isBranch 16 ≤ p.length) :
    p.slotIndex isBranch b < p.length := by
  unfold slotIndex isDense
  split_ifs with hdense
  · exact (of_decide_eq_true hdense).symm ▸ b.isLt
  · exact (onesBelow_lt hb b.isLt).trans_le hroom

theorem slotIndex_inj (hb : isBranch b = true) (hc : isBranch c = true)
    (h : p.slotIndex isBranch b = p.slotIndex isBranch c) : b = c := by
  unfold slotIndex at h
  split_ifs at h
  · exact Fin.ext h
  · exact onesBelow_inj hb hc h

/-- Hashes are moved to different slots, where they stay. -/
theorem getHash_foldl_moveBranch (hb : isBranch b = true)
    (hroom : onesBelow isBranch 16 ≤ next.length) (l : List (Fin 16)) :
    (l.foldl (p.moveBranch · isBranch ·) next).length = next.length ∧
      (b ∈ l → (l.foldl (p.moveBranch · isBranch ·) next).getHash isBranch b =
        p.getHash isBranch b) := by
  induction l using List.reverseRecOn with
  | nil => simp
  | append_singleton l c ih =>
    rw [List.foldl_append, List.foldl_cons, List.foldl_nil]
    generalize l.foldl (p.moveBranch · isBranch ·) next = moved at ih ⊢
    obtain ⟨hlen, hmoved⟩ := ih
    unfold moveBranch
    split_ifs with hc
    · refine ⟨by simp [hlen], fun hmem => ?_⟩
      have hslot : ∀ hash, slotIndex (moved.set (moved.slotIndex isBranch c) hash) isBranch b =
          moved.slotIndex isBranch b := by
        simp [slotIndex, isDense]
      rw [getHash_of_set hb, hslot]
      by_cases hbc : b = c
      · subst hbc
        simp [slotIndex_lt hb (hlen ▸ hroom)]
      · have hne : moved.slotIndex isBranch c ≠ moved.slotIndex isBranch b := fun h =>
          hbc (slotIndex_inj hb hc h.symm)
        rw [← hmoved (by simpa [hbc] using hmem), getHash_of_set hb]
        simp [List.getElem?_set_ne hne]
    · refine ⟨hlen, fun hmem => hmoved ?_⟩
      have hbc : b ≠ c := fun h => hc (h ▸ hb)
      simpa [hbc] using hmem

/-- Making a node compact keeps the hashes of its branches. -/
theorem getHash_resize (hb : isBranch b = true) :
    (p.resize isBranch (onesBelow isBranch 16)).getHash isBranch b = p.getHash isBranch b := by
  unfold resize
  split_ifs
  · rfl
  · exact (getHash_foldl_moveBranch hb (by simpa [new] using onesBelow_le_capacity isBranch)
      _).2 (List.mem_finRange b)

end TaggedPointer

end Quaxar.SHAMap
