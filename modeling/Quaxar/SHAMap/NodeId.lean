import Quaxar.Basics.BaseUInt

/-!
# Node identifiers and branch selection

A node of the map is identified by the nibbles of the key that lead to it. The
identifier keeps those nibbles left-aligned in a 256-bit value, together with
their number; the fields of `SHAMapNodeId` say that no later nibble is set, so
the source's mask checks succeed on every identifier that can be built.
-/

namespace Quaxar.SHAMap

def branchFactor : ℕ := 16

def leafDepth : ℕ := 64

inductive SHAMapNodeIdError where
  | invalidDepth
  | hashDoesNotMatchDepth
  | invalidBranch
  | leafHasNoChildren
deriving DecidableEq, Repr

/-- `DEPTH_MASKS[depth]`, built nibble by nibble. -/
def depthMaskBytes : ℕ → List UInt8
  | 0 => List.replicate 32 0
  | nibble + 1 =>
    (depthMaskBytes nibble).modify (nibble / 2)
      (· ||| if nibble % 2 = 0 then 0xF0 else 0x0F)

@[simp] theorem length_depthMaskBytes (depth : ℕ) : (depthMaskBytes depth).length = 32 := by
  induction depth with
  | zero => simp [depthMaskBytes]
  | succ nibble ih => simp [depthMaskBytes, ih]

/-- `depth_mask`: keeps the first `depth` nibbles of a key. -/
def depthMask (depth : ℕ) : Uint256 := ⟨depthMaskBytes depth, length_depthMaskBytes depth⟩

theorem getD_modify (l : List UInt8) (f : UInt8 → UInt8) (i j : ℕ) (hj : j < l.length) :
    (l.modify i f).getD j 0 = if i = j then f (l.getD j 0) else l.getD j 0 := by
  simp only [List.getD_eq_getElem?_getD, List.getElem?_modify, List.getElem?_eq_getElem hj]
  split_ifs <;> simp

/-- The byte at `i` of the mask: full below the boundary, a high nibble at an
odd boundary, and empty above it. -/
theorem depthMaskBytes_getD (depth i : ℕ) (hi : i < 32) :
    (depthMaskBytes depth).getD i 0 =
      if 2 * i + 2 ≤ depth then 0xFF else if depth = 2 * i + 1 then 0xF0 else 0 := by
  induction depth with
  | zero =>
    rw [depthMaskBytes, List.getD_eq_getElem _ _ (by simpa using hi), List.getElem_replicate]
    simp
  | succ nibble ih =>
    rw [depthMaskBytes, getD_modify _ _ _ _ (by simpa using hi), ih]
    by_cases hpos : nibble / 2 = i
    · rcases Nat.mod_two_eq_zero_or_one nibble with hpar | hpar
      · have hn : nibble = 2 * i := by omega
        subst hn
        simp
      · have hn : nibble = 2 * i + 1 := by omega
        subst hn
        simp [hpos, hpar]
        decide
    · by_cases hle : 2 * i + 2 ≤ nibble
      · simp [hpos, hle, show 2 * i + 2 ≤ nibble + 1 by omega]
      · have h1 : nibble ≠ 2 * i + 1 := by omega
        have h2 : ¬ 2 * i + 2 ≤ nibble + 1 := by omega
        have h3 : nibble ≠ 2 * i := by omega
        simp [hpos, hle, h1, h2, h3]

theorem and_eq_self_iff (x m : Uint256) :
    x.and m = x ↔ ∀ i < 32, x.data.getD i 0 &&& m.data.getD i 0 = x.data.getD i 0 := by
  have hx := x.length_data
  have hm := m.length_data
  constructor
  · intro h i hi
    have hbyte := congrArg (fun y => y.data.getD i 0) h
    simp only [BaseUInt.and] at hbyte
    rw [List.getD_eq_getElem _ _ (by simp; omega), List.getElem_zipWith] at hbyte
    rw [List.getD_eq_getElem _ _ (by omega), List.getD_eq_getElem _ _ (by omega)]
    rwa [List.getD_eq_getElem _ _ (by omega)] at hbyte
  · intro h
    apply BaseUInt.ext
    apply List.ext_getElem (by simp)
    intro i h1 h2
    have hbyte := h i (by omega)
    rw [List.getD_eq_getElem _ _ h2, List.getD_eq_getElem _ _ (by omega)] at hbyte
    simpa [BaseUInt.and] using hbyte

/-- A node identifier: `depth` nibbles of a key, left-aligned in `id`. -/
structure SHAMapNodeId where
  id : Uint256
  depth : ℕ
  depth_le : depth ≤ leafDepth
  masked : id.and (depthMask depth) = id

namespace SHAMapNodeId

/-- The identifier of the root, `SHAMapNodeId::default()`. -/
def root : SHAMapNodeId :=
  ⟨BaseUInt.zero, 0, Nat.zero_le _, by decide⟩

def new (depth : ℕ) (hash : Uint256) : Except SHAMapNodeIdError SHAMapNodeId :=
  if hd : depth ≤ leafDepth then
    if hm : hash.and (depthMask depth) = hash then .ok ⟨hash, depth, hd, hm⟩
    else .error .hashDoesNotMatchDepth
  else .error .invalidDepth

variable (n : SHAMapNodeId)

def isRoot : Bool := n.depth == 0

def createId (depth : ℕ) (key : Uint256) : Except SHAMapNodeIdError SHAMapNodeId :=
  if depth ≤ leafDepth then new depth (key.and (depthMask depth)) else .error .invalidDepth

theorem createId_of_le {depth : ℕ} (hd : depth ≤ leafDepth) (key : Uint256) :
    ∃ id, createId depth key = .ok id ∧ id.depth = depth := by
  have hmask : (key.and (depthMask depth)).and (depthMask depth) = key.and (depthMask depth) := by
    apply BaseUInt.ext
    apply List.ext_getElem (by simp)
    intro i h1 h2
    simp [BaseUInt.and, UInt8.and_assoc]
  refine ⟨⟨key.and (depthMask depth), depth, hd, hmask⟩, ?_, rfl⟩
  simp [createId, new, hd, hmask]

/-- The identifier's bytes with the nibble at `depth` set to `branch`. -/
def setNibble (id : Uint256) (depth branch : ℕ) : Uint256 :=
  ⟨id.data.modify (depth / 2)
    (· ||| if depth % 2 = 1 then UInt8.ofNat branch else UInt8.ofNat branch <<< (4 : UInt8)),
    by simp⟩

theorem byte_and_full (x : UInt8) : x &&& 0xFF = x := by
  apply UInt8.toBitVec_inj.mp
  exact BitVec.and_allOnes

theorem high_nibble_masked : ∀ branch : Fin 16,
    (UInt8.ofNat branch.val <<< (4 : UInt8)) &&& (0xF0 : UInt8) =
      UInt8.ofNat branch.val <<< (4 : UInt8) := by
  decide

/-- A valid identifier with one more nibble set is valid one level deeper. -/
theorem setNibble_masked (branch : ℕ) (hb : branch < branchFactor) :
    (setNibble n.id n.depth branch).and (depthMask (n.depth + 1)) =
      setNibble n.id n.depth branch := by
  have hself := (and_eq_self_iff n.id (depthMask n.depth)).mp n.masked
  rw [and_eq_self_iff]
  intro i hi
  have hbyte := hself i hi
  have hlen : i < n.id.data.length := by simpa using hi
  simp only [setNibble, depthMask, getD_modify _ _ _ _ hlen] at hbyte ⊢
  rw [depthMaskBytes_getD _ _ hi] at hbyte ⊢
  by_cases hpos : n.depth / 2 = i
  · rcases Nat.mod_two_eq_zero_or_one n.depth with hpar | hpar
    · have hn : n.depth = 2 * i := by omega
      -- every nibble from `depth` on is still clear, so the byte is the new nibble alone
      simp only [hn, show ¬ 2 * i + 2 ≤ 2 * i by omega, if_false,
        show 2 * i ≠ 2 * i + 1 by omega] at hbyte
      have hzero : n.id.data.getD i 0 = 0 := by simpa using hbyte.symm
      simp only [hn, hzero]
      simpa using high_nibble_masked ⟨branch, hb⟩
    · have hn : n.depth = 2 * i + 1 := by omega
      simp only [hn, show 2 * i + 2 ≤ 2 * i + 1 + 1 by omega, if_true]
      exact byte_and_full _
  · rw [if_neg hpos]
    have hsame : (if 2 * i + 2 ≤ n.depth + 1 then (0xFF : UInt8)
        else if n.depth + 1 = 2 * i + 1 then 0xF0 else 0) =
        if 2 * i + 2 ≤ n.depth then 0xFF else if n.depth = 2 * i + 1 then 0xF0 else 0 := by
      split_ifs <;> first | rfl | omega
    rw [hsame]
    exact hbyte

def getChildNodeId (branch : ℕ) : Except SHAMapNodeIdError SHAMapNodeId :=
  if hb : branch < branchFactor then
    if hd : n.depth < leafDepth then
      if n.id = n.id.and (depthMask n.depth) then
        .ok ⟨setNibble n.id n.depth branch, n.depth + 1, hd, setNibble_masked n branch hb⟩
      else .error .hashDoesNotMatchDepth
    else .error .leafHasNoChildren
  else .error .invalidBranch

theorem getChildNodeId_of_lt (branch : Fin 16) (hd : n.depth < leafDepth) :
    ∃ child, n.getChildNodeId branch = .ok child ∧ child.depth = n.depth + 1 := by
  refine ⟨⟨setNibble n.id n.depth branch, n.depth + 1, hd,
    setNibble_masked n branch branch.isLt⟩, ?_, rfl⟩
  simp [getChildNodeId, hd, n.masked, branchFactor]

theorem getChildNodeId_of_ge (branch : Fin 16) (hd : leafDepth ≤ n.depth) :
    n.getChildNodeId branch = .error .leafHasNoChildren := by
  simp [getChildNodeId, Nat.not_lt.mpr hd, branchFactor]

end SHAMapNodeId

/-- The nibble of a key at `depth`, clamped to the last one. -/
def keyNibble (key : Uint256) (depth : ℕ) : Fin 16 :=
  let d := min depth (leafDepth - 1)
  let byte := key.data.getD (d / 2) 0
  if d % 2 = 1 then ⟨byte.toNat % 16, by omega⟩
  else ⟨byte.toNat / 16, by have := byte.toNat_lt; omega⟩

/-- `select_branch`: the branch of a key below the node `id`. -/
def selectBranch (id : SHAMapNodeId) (hash : Uint256) : Fin 16 := keyNibble hash id.depth

theorem eq_of_keyNibble_eq {x y : Uint256}
    (h : ∀ d < leafDepth, keyNibble x d = keyNibble y d) : x = y := by
  apply BaseUInt.ext
  apply List.ext_getElem (by simp)
  intro i hx hy
  have hi : i < 32 := by simpa using hx
  have high := congrArg Fin.val (h (2 * i) (by unfold leafDepth; omega))
  have low := congrArg Fin.val (h (2 * i + 1) (by unfold leafDepth; omega))
  have hmin0 : min (2 * i) (leafDepth - 1) = 2 * i := by unfold leafDepth; omega
  have hmin1 : min (2 * i + 1) (leafDepth - 1) = 2 * i + 1 := by unfold leafDepth; omega
  simp only [keyNibble, hmin0, hmin1, show (2 * i + 1) / 2 = i by omega,
    show (2 * i + 1) % 2 = 1 by omega, show 2 * i / 2 = i by omega,
    show ¬ 2 * i % 2 = 1 by omega, if_true, if_false,
    List.getD_eq_getElem _ _ hx, List.getD_eq_getElem _ _ hy] at high low
  have hbx := x.data[i].toNat_lt
  have hby := y.data[i].toNat_lt
  apply UInt8.toNat_inj.mp
  omega

end Quaxar.SHAMap
