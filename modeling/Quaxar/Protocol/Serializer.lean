import Quaxar.Basics.BaseUInt
import Quaxar.Lib.BigEndian

/-!
# Reading serialized bytes

`SerialIter` reads a byte string from front to back. Where too few bytes are left, the
fixed-width readers return zero and stay where they are. A `Serializer` only appends, so
what a type adds to it is written as the list of added bytes.
-/

namespace Quaxar.Protocol

abbrev Blob := List UInt8

/-- The bytes that have not been read. -/
abbrev SerialIter := Blob

abbrev Uint160 := BaseUInt 20

abbrev Uint192 := BaseUInt 24

namespace SerialIter

def get8 : SerialIter → UInt8 × SerialIter
  | [] => (0, [])
  | b :: rest => (b, rest)

/-- `read_integer` at a width of `bytes`. -/
def readInteger (bytes : ℕ) (sit : SerialIter) : ℕ × SerialIter :=
  if sit.length < bytes then (0, sit)
  else (BigEndian.ofBytes (sit.take bytes), sit.drop bytes)

def get64 (sit : SerialIter) : ℕ × SerialIter := sit.readInteger 8

def getBitString (n : ℕ) (sit : SerialIter) : BaseUInt n × SerialIter :=
  if h : sit.length < n then (BaseUInt.zero, sit)
  else (⟨sit.take n, by simp; omega⟩, sit.drop n)

end SerialIter

variable {w n : ℕ} (rest : Blob)

theorem readInteger_append {bytes : Blob} (h : bytes.length = w) :
    SerialIter.readInteger w (bytes ++ rest) = (BigEndian.ofBytes bytes, rest) := by
  simp [SerialIter.readInteger, ← h]

theorem readInteger_toBytes {m : ℕ} (h : m < 256 ^ w) :
    SerialIter.readInteger w (BigEndian.toBytes w m ++ rest) = (m, rest) := by
  rw [readInteger_append rest (BigEndian.length_toBytes w m), BigEndian.ofBytes_toBytes h]

theorem getBitString_append (x : BaseUInt n) :
    SerialIter.getBitString n (x.data ++ rest) = (x, rest) := by
  have hlen : ¬ (x.data ++ rest).length < n := by simp
  rw [SerialIter.getBitString, dif_neg hlen]
  congr 1
  · apply BaseUInt.ext
    simp
  · simp

end Quaxar.Protocol
