import Quaxar.Lib.OrderedMap

/-!
# Fixed-width byte integers

`BaseUInt n` is the source's `BaseUInt<BYTES>`: an array of exactly `n` bytes,
most significant byte first. The width is carried by the type, so every value
that is hashed, compared or serialized has its full length.
-/

namespace Quaxar

/-- An integer of exactly `n` big-endian bytes. -/
structure BaseUInt (n : ℕ) where
  data : List UInt8
  length_data : data.length = n
deriving DecidableEq

abbrev Uint256 := BaseUInt 32

namespace BaseUInt

variable {n : ℕ}

attribute [simp] length_data

@[ext] theorem ext {x y : BaseUInt n} (h : x.data = y.data) : x = y := by
  cases x
  cases y
  simpa using h

def zero : BaseUInt n := ⟨List.replicate n 0, by simp⟩

instance : Inhabited (BaseUInt n) := ⟨zero⟩

/-- Bytes compare from the most significant one on. -/
instance : LinearOrder (BaseUInt n) :=
  OrderedMap.orderAlong (fun x => x.data.map UInt8.toNat) (by
    intro x y h
    apply ext
    exact List.map_injective_iff.mpr (fun a b hab => UInt8.toNat_inj.mp hab) h)

def isZero (x : BaseUInt n) : Bool := x.data.all (· == 0)

/-- `from_slice` accepts a slice only at the exact width. -/
def fromSlice (bytes : List UInt8) : Option (BaseUInt n) :=
  if h : bytes.length = n then some ⟨bytes, h⟩ else none

def and (x y : BaseUInt n) : BaseUInt n :=
  ⟨List.zipWith (· &&& ·) x.data y.data, by simp⟩

def xor (x y : BaseUInt n) : BaseUInt n :=
  ⟨List.zipWith (· ^^^ ·) x.data y.data, by simp⟩

@[simp] theorem fromSlice_data (x : BaseUInt n) : fromSlice x.data = some x := by
  simp [fromSlice]

theorem data_of_fromSlice {bytes : List UInt8} {x : BaseUInt n}
    (h : fromSlice bytes = some x) : x.data = bytes := by
  unfold fromSlice at h
  split_ifs at h
  cases h
  rfl

@[simp] theorem isZero_iff {x : BaseUInt n} : x.isZero = true ↔ x = zero := by
  constructor
  · intro h
    apply ext
    refine List.eq_replicate_iff.mpr ⟨x.length_data, ?_⟩
    simpa [isZero] using h
  · rintro rfl
    simp [isZero, zero]

end BaseUInt

/-- Maps of ledger entries are ordered by their keys. -/
instance Uint256.instTransCmp : Std.TransCmp (compare : Uint256 → Uint256 → Ordering) :=
  inferInstance

end Quaxar
