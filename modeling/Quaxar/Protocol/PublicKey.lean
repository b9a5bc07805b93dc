import Quaxar.Basics.BaseUInt

/-!
# Public keys

A public key is 33 bytes, the first of which names the kind of key.
-/

namespace Quaxar.Protocol

inductive KeyType
  | secp256k1
  | ed25519
deriving DecidableEq, Repr

abbrev PublicKey := BaseUInt 33

namespace PublicKey

instance instTransCmp : Std.TransCmp (compare : PublicKey → PublicKey → Ordering) :=
  inferInstance

def keyType (key : PublicKey) : Option KeyType :=
  match key.data.head? with
  | some 0x02 => some .secp256k1
  | some 0x03 => some .secp256k1
  | some 0xED => some .ed25519
  | _ => none

def fromSlice (slice : List UInt8) : Option PublicKey :=
  (BaseUInt.fromSlice slice).filter fun key => (keyType key).isSome

end PublicKey

end Quaxar.Protocol
