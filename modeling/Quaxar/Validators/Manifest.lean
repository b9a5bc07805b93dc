import Quaxar.Protocol.PublicKey

/-!
# Validator manifests

A manifest binds a master key to the key it signs with, under a sequence number; the largest
sequence number revokes the master key. The cache keeps the newest manifest of each master key
and the way back from signing keys. Parsing a serialized manifest and checking its signatures
are left to a `ManifestCodec`, about which nothing is assumed.
-/

namespace Quaxar.Validators

open Protocol (PublicKey)
open Std (ExtTreeMap)

/-- An Ed25519 key that ends in the given byte. -/
def keyOf (last : UInt8) : PublicKey := ⟨0xED :: List.replicate 31 0 ++ [last], rfl⟩

structure Manifest where
  serialized : List UInt8
  masterKey : PublicKey
  signingKey : Option PublicKey
  sequence : UInt32
  domain : String

def Manifest.revokedSequence (sequence : UInt32) : Bool := sequence == 0xFFFFFFFF

def Manifest.revoked (manifest : Manifest) : Bool := revokedSequence manifest.sequence

/-- A serialized object with the fields of the manifest template. -/
structure ManifestObject where
  publicKey : List UInt8
  masterSignature : List UInt8
  sequence : UInt32
  version : UInt16
  domain : Option (List UInt8)
  signingPubKey : Option (List UInt8)
  signature : Option (List UInt8)

inductive SignatureField
  | sfSignature
  | sfMasterSignature

structure ManifestCodec where
  parseManifestStobject : List UInt8 → Option ManifestObject
  verifyStObject : ManifestObject → PublicKey → SignatureField → Bool

def Manifest.verify (codec : ManifestCodec) (manifest : Manifest) : Bool :=
  match codec.parseManifestStobject manifest.serialized with
  | none => false
  | some st =>
    if !manifest.revoked && manifest.signingKey.isNone then false
    else if !manifest.revoked &&
        manifest.signingKey.any fun key => !codec.verifyStObject st key .sfSignature then false
    else codec.verifyStObject st manifest.masterKey .sfMasterSignature

inductive ManifestRateLimitCapPolicy
  | capped
  | uncapped
deriving DecidableEq

inductive ManifestDisposition
  | accepted
  | stale
  | badMasterKey
  | badEphemeralKey
  | untrustedCapacity
  | invalid
deriving DecidableEq

structure ManifestCache where
  manifests : ExtTreeMap PublicKey Manifest
  signingToMasterKeys : ExtTreeMap PublicKey PublicKey
  untrustedMasterKeys : Finset PublicKey
  sequence : UInt32
  maxUntrustedCount : ℕ

/-- A label of a domain name in front of the last one. -/
def isDomainLabel (label : List Char) : Bool :=
  !(label.isEmpty || decide ((String.ofList label).utf8ByteSize > 63)) &&
    !(label.head? == some '-' || label.getLast? == some '-') &&
    label.all fun ch => ch.isAlphanum || ch == '-'

def isTopLevelDomain (label : List Char) : Bool :=
  !(label.isEmpty || decide ((String.ofList label).utf8ByteSize > 63)) &&
    !(decide ((String.ofList label).utf8ByteSize < 2) || !label.all Char.isAlpha)

def isProperlyFormedTomlDomain (domain : String) : Bool :=
  let labels := domain.toList.splitOn '.'
  decide (4 ≤ domain.utf8ByteSize ∧ domain.utf8ByteSize ≤ 128) &&
    labels.dropLast.all isDomainLabel && labels.getLast?.any isTopLevelDomain &&
    decide (labels.length ≥ 2)

def deserializeDomain : Option (List UInt8) → Option String
  | none => some ""
  | some bytes => (String.fromUTF8? ⟨bytes.toArray⟩).filter isProperlyFormedTomlDomain

/-- A revocation has no signing key, and any other manifest has one, not the master key. -/
def deserializeSigningKey (st : ManifestObject) (masterKey : PublicKey) :
    Option (Option PublicKey) :=
  if Manifest.revokedSequence st.sequence then
    if st.signingPubKey.isSome || st.signature.isSome then none else some none
  else
    if st.signingPubKey.isNone || st.signature.isNone then none
    else do
      let signingKey ← st.signingPubKey.bind PublicKey.fromSlice
      if signingKey = masterKey then none else some (some signingKey)

def deserializeManifest (codec : ManifestCodec) (serialized : List UInt8) : Option Manifest := do
  if serialized.isEmpty then none
  else
    let st ← codec.parseManifestStobject serialized
    if st.version ≠ 0 then none
    else
      let masterKey ← PublicKey.fromSlice st.publicKey
      let domain ← deserializeDomain st.domain
      let signingKey ← deserializeSigningKey st masterKey
      some ⟨serialized, masterKey, signingKey, st.sequence, domain⟩

namespace ManifestCache

/-- An empty cache. -/
def new (maxUntrustedCount : ℕ) : ManifestCache := ⟨∅, ∅, ∅, 0, maxUntrustedCount⟩

variable (cache : ManifestCache) (manifest : Manifest) (masterKey : PublicKey)

def getSigningKey : PublicKey :=
  ((cache.manifests[masterKey]?.filter fun manifest => !manifest.revoked).bind
    Manifest.signingKey).getD masterKey

def getMasterKey (signingKey : PublicKey) : PublicKey :=
  cache.signingToMasterKeys[signingKey]?.getD signingKey

def revoked : Bool :=
  cache.manifests[masterKey]?.any Manifest.revoked

/-- What is wrong with the signing key of a manifest, if anything. -/
def checkSigningKey : Option ManifestDisposition :=
  if manifest.revoked then none
  else
    match manifest.signingKey with
    | none => some .invalid
    | some signingKey =>
      if cache.signingToMasterKeys[signingKey]?.isSome then some .badEphemeralKey
      else if cache.manifests[signingKey]?.isSome then some .badEphemeralKey
      else none

/-- The signing keys without the one that a stored manifest of the master key names. -/
def withoutOldKey : ExtTreeMap PublicKey PublicKey :=
  match cache.manifests[masterKey]?.bind Manifest.signingKey with
  | none => cache.signingToMasterKeys
  | some oldSigningKey => cache.signingToMasterKeys.erase oldSigningKey

/-- Put an accepted manifest in place of an older one. -/
def store (policy : ManifestRateLimitCapPolicy) : ManifestCache where
  manifests := cache.manifests.insert manifest.masterKey manifest
  signingToMasterKeys :=
    match manifest.signingKey with
    | none => cache.withoutOldKey manifest.masterKey
    | some signingKey => (cache.withoutOldKey manifest.masterKey).insert signingKey
        manifest.masterKey
  untrustedMasterKeys :=
    if cache.manifests[manifest.masterKey]?.isNone ∧ policy = .capped then
      insert manifest.masterKey cache.untrustedMasterKeys
    else if policy = .uncapped then cache.untrustedMasterKeys.erase manifest.masterKey
    else cache.untrustedMasterKeys
  sequence := cache.sequence + 1
  maxUntrustedCount := cache.maxUntrustedCount

def applyManifestWithPolicy (codec : ManifestCodec) (cache : ManifestCache) (manifest : Manifest)
    (policy : ManifestRateLimitCapPolicy) : ManifestDisposition × ManifestCache :=
  if cache.manifests[manifest.masterKey]?.isNone ∧ policy = .capped ∧
      cache.untrustedMasterKeys.card ≥ cache.maxUntrustedCount then (.untrustedCapacity, cache)
  else if cache.manifests[manifest.masterKey]?.any fun existing =>
      decide (manifest.sequence ≤ existing.sequence) then (.stale, cache)
  else if !manifest.verify codec then (.invalid, cache)
  else if cache.signingToMasterKeys[manifest.masterKey]?.isSome then (.badMasterKey, cache)
  else
    match cache.checkSigningKey manifest with
    | some disposition => (disposition, cache)
    | none => (.accepted, cache.store manifest policy)

def applyManifest (codec : ManifestCodec) (cache : ManifestCache) (manifest : Manifest) :
    ManifestDisposition × ManifestCache :=
  cache.applyManifestWithPolicy codec manifest .uncapped

def promoteToTrusted : ManifestCache :=
  { cache with untrustedMasterKeys := cache.untrustedMasterKeys.erase masterKey }

end ManifestCache

end Quaxar.Validators
