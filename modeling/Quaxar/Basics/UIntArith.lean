import Quaxar.Basics.BaseUInt
import Quaxar.Lib.BigEndian

/-!
# Arithmetic of fixed-width integers

The value of a `BaseUInt`, the operators of the source on it, and that the byte order of
two integers is the order of their values.
-/

namespace BigEndian

theorem ofBytes_cons (b : UInt8) (bytes : List UInt8) :
    ofBytes (b :: bytes) = b.toNat * 256 ^ bytes.length + ofBytes bytes := by
  rw [← List.singleton_append, ofBytes_append]
  simp [ofBytes]

theorem ofBytes_toBytes_mod (w n : ℕ) : ofBytes (toBytes w n) = n % 256 ^ w := by
  induction w generalizing n with
  | zero => simp [toBytes, Nat.mod_one]
  | succ w ih =>
    rw [toBytes, ofBytes_append_singleton, ih, UInt8.toNat_ofNat', pow_succ' 256 w, Nat.mod_mul]
    omega

@[simp] theorem ofBytes_replicate_zero (n : ℕ) : ofBytes (List.replicate n 0) = 0 := by
  induction n with
  | zero => rfl
  | succ n ih =>
    rw [List.replicate_succ, ofBytes_cons, ih, UInt8.toNat_zero, zero_mul]

/-- Strings of one length compare as their numbers do. -/
theorem ofBytes_lt_of_lt {xs ys : List UInt8} (hlen : xs.length = ys.length)
    (h : xs.map UInt8.toNat < ys.map UInt8.toNat) : ofBytes xs < ofBytes ys := by
  induction xs generalizing ys with
  | nil =>
    obtain rfl : ys = [] := List.length_eq_zero_iff.mp hlen.symm
    exact absurd h (lt_irrefl _)
  | cons x xs ih =>
    cases ys with
    | nil => cases hlen
    | cons y ys =>
      have hlen' : xs.length = ys.length := by simpa using hlen
      rw [ofBytes_cons, ofBytes_cons, hlen']
      rw [List.map_cons, List.map_cons, List.cons_lt_cons_iff] at h
      rcases h with hlt | ⟨heq, hlt⟩
      · have hxs := ofBytes_lt xs
        rw [hlen'] at hxs
        calc x.toNat * 256 ^ ys.length + ofBytes xs
            < x.toNat * 256 ^ ys.length + 256 ^ ys.length := Nat.add_lt_add_left hxs _
          _ = (x.toNat + 1) * 256 ^ ys.length := by ring
          _ ≤ y.toNat * 256 ^ ys.length := Nat.mul_le_mul_right _ hlt
          _ ≤ y.toNat * 256 ^ ys.length + ofBytes ys := Nat.le_add_right _ _
      · rw [heq]
        exact Nat.add_lt_add_left (ih hlen' hlt) _

end BigEndian

namespace Quaxar.BaseUInt

open BigEndian

variable {n : ℕ} (x y : BaseUInt n)

def toNat : ℕ := ofBytes x.data

/-- The last `n` bytes of a number. -/
def ofNat (value : ℕ) : BaseUInt n := ⟨toBytes n value, length_toBytes n value⟩

def not : BaseUInt n := ⟨x.data.map (~~~ ·), (List.length_map _).trans x.length_data⟩

/-- `+`, which drops the last carry. -/
def add : BaseUInt n := ofNat (x.toNat + y.toNat)

/-- `next`, which wraps around after the greatest value. -/
def next : BaseUInt n := ofNat (x.toNat + 1)

theorem toNat_lt : x.toNat < 256 ^ n := by
  have h := ofBytes_lt x.data
  rwa [x.length_data] at h

theorem toNat_ofNat (value : ℕ) : (ofNat value : BaseUInt n).toNat = value % 256 ^ n :=
  ofBytes_toBytes_mod n value

theorem toNat_strictMono : StrictMono (toNat : BaseUInt n → ℕ) := by
  intro x y h
  exact ofBytes_lt_of_lt (x.length_data.trans y.length_data.symm) h

variable {x y}

theorem lt_iff_toNat_lt : x < y ↔ x.toNat < y.toNat := toNat_strictMono.lt_iff_lt.symm

theorem le_iff_toNat_le : x ≤ y ↔ x.toNat ≤ y.toNat := toNat_strictMono.le_iff_le.symm

theorem toNat_inj : x.toNat = y.toNat ↔ x = y := toNat_strictMono.injective.eq_iff

theorem toNat_next (h : x.toNat + 1 < 256 ^ n) : x.next.toNat = x.toNat + 1 := by
  rw [next, toNat_ofNat, Nat.mod_eq_of_lt h]

theorem zipWith_and_zero (bytes : List UInt8) :
    List.zipWith (· &&& ·) bytes (List.replicate bytes.length 0) =
      List.replicate bytes.length 0 := by
  induction bytes with
  | nil => rfl
  | cons b bytes ih => simp [List.replicate_succ, ih]

theorem zipWith_and_ones (bytes : List UInt8) :
    List.zipWith (· &&& ·) bytes (List.replicate bytes.length 255) = bytes := by
  induction bytes with
  | nil => rfl
  | cons b bytes ih =>
    rw [List.length_cons, List.replicate_succ, List.zipWith_cons_cons, ih]
    congr 1
    exact UInt8.and_neg_one

variable {mask : BaseUInt n} {a b : ℕ}

theorem and_append (x : BaseUInt n) {us vs : List UInt8} (hmask : mask.data = us ++ vs) :
    ∃ hi lo, x.data = hi ++ lo ∧ us.length = hi.length ∧ vs.length = lo.length ∧
      (x.and mask).data = hi.zipWith (· &&& ·) us ++ lo.zipWith (· &&& ·) vs := by
  have hlen : us.length + vs.length = n := by simpa [hmask] using mask.length_data
  have hhi : us.length = (x.data.take us.length).length := by
    rw [List.length_take, x.length_data]
    omega
  refine ⟨_, _, (List.take_append_drop us.length x.data).symm, hhi, ?_, ?_⟩
  · rw [List.length_drop, x.length_data]
    omega
  · rw [← List.zipWith_append hhi.symm, List.take_append_drop, ← hmask]
    rfl

theorem toNat_and_trailing (x : BaseUInt n)
    (hmask : mask.data = List.replicate a 0 ++ List.replicate b 255) :
    (x.and mask).toNat = x.toNat % 256 ^ b := by
  obtain ⟨hi, lo, hx, ha, hb, hand⟩ := and_append x hmask
  rw [List.length_replicate] at ha hb
  subst ha hb
  rw [zipWith_and_zero, zipWith_and_ones] at hand
  rw [toNat, hand, ofBytes_append, ofBytes_replicate_zero, zero_mul, zero_add, toNat, hx,
    ofBytes_append, Nat.mul_add_mod_of_lt (ofBytes_lt lo)]

theorem toNat_and_leading (x : BaseUInt n)
    (hmask : mask.data = List.replicate a 255 ++ List.replicate b 0) :
    (x.and mask).toNat = x.toNat / 256 ^ b * 256 ^ b := by
  obtain ⟨hi, lo, hx, ha, hb, hand⟩ := and_append x hmask
  rw [List.length_replicate] at ha hb
  subst ha hb
  rw [zipWith_and_zero, zipWith_and_ones] at hand
  have hdiv : (ofBytes hi * 256 ^ lo.length + ofBytes lo) / 256 ^ lo.length = ofBytes hi := by
    rw [mul_comm, Nat.mul_add_div (by positivity), Nat.div_eq_of_lt (ofBytes_lt lo), add_zero]
  rw [toNat, hand, ofBytes_append, ofBytes_replicate_zero, add_zero, List.length_replicate, toNat,
    hx, ofBytes_append, hdiv]

end Quaxar.BaseUInt
