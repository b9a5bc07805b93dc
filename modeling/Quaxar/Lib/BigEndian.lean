import Mathlib.Tactic
import Mathlib.Data.Nat.Bitwise

/-!
# Big-endian bytes

Natural numbers as fixed-width byte strings, most significant byte first.
-/

namespace BigEndian

/-- The last `w` bytes of `n`. -/
def toBytes : ℕ → ℕ → List UInt8
  | 0, _ => []
  | w + 1, n => toBytes w (n / 256) ++ [UInt8.ofNat n]

def ofBytes (bytes : List UInt8) : ℕ := bytes.foldl (fun acc b => acc * 256 + b.toNat) 0

@[simp] theorem length_toBytes (w n : ℕ) : (toBytes w n).length = w := by
  induction w generalizing n with
  | zero => rfl
  | succ w ih => simp [toBytes, ih]

@[simp] theorem ofBytes_nil : ofBytes [] = 0 := rfl

theorem ofBytes_append_singleton (bytes : List UInt8) (b : UInt8) :
    ofBytes (bytes ++ [b]) = ofBytes bytes * 256 + b.toNat := by
  simp [ofBytes]

theorem ofBytes_append (xs ys : List UInt8) :
    ofBytes (xs ++ ys) = ofBytes xs * 256 ^ ys.length + ofBytes ys := by
  induction ys using List.reverseRecOn with
  | nil => simp
  | append_singleton ys b ih =>
    rw [← List.append_assoc, ofBytes_append_singleton, ih, ofBytes_append_singleton,
      List.length_append, List.length_singleton, pow_succ]
    ring

theorem ofBytes_lt (bytes : List UInt8) : ofBytes bytes < 256 ^ bytes.length := by
  induction bytes using List.reverseRecOn with
  | nil => simp
  | append_singleton bytes b ih =>
    have hb := b.toNat_lt
    rw [ofBytes_append_singleton, List.length_append, List.length_singleton, pow_succ]
    omega

theorem ofBytes_toBytes {w n : ℕ} (h : n < 256 ^ w) : ofBytes (toBytes w n) = n := by
  induction w generalizing n with
  | zero =>
    rw [pow_zero] at h
    simp [toBytes]
    omega
  | succ w ih =>
    have hdiv : n / 256 < 256 ^ w := by
      rw [pow_succ] at h
      omega
    rw [toBytes, ofBytes_append_singleton, ih hdiv, UInt8.toNat_ofNat']
    omega

theorem toBytes_ofBytes {w : ℕ} {bytes : List UInt8} (h : bytes.length = w) :
    toBytes w (ofBytes bytes) = bytes := by
  induction bytes using List.reverseRecOn generalizing w with
  | nil =>
    obtain rfl : w = 0 := h.symm
    rfl
  | append_singleton bytes b ih =>
    obtain ⟨w, rfl⟩ : ∃ k, w = k + 1 := ⟨bytes.length, by simpa using h.symm⟩
    have hb := b.toNat_lt
    have hdiv : (ofBytes bytes * 256 + b.toNat) / 256 = ofBytes bytes := by omega
    have hlast : UInt8.ofNat (ofBytes bytes * 256 + b.toNat) = b := by
      apply UInt8.toNat_inj.mp
      rw [UInt8.toNat_ofNat']
      omega
    rw [ofBytes_append_singleton, toBytes, hdiv, hlast, ih (by simpa using h)]

end BigEndian
