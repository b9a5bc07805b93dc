import Quaxar.Validators.Manifest

/-!
# Validator lists

Configured publishers sign lists of validator keys. The newest effective list of each publisher
is its current one, and later ones wait until they take effect. `keyListings` counts on how many
lists a key stands; a key that reaches the threshold is trusted. Decoding and signature checks
are left to a `Codec`, about which nothing is assumed.
-/

namespace Quaxar.Validators

open Protocol (PublicKey)
open Std (ExtTreeMap)

inductive ListDisposition
  | accepted
  | expired
  | pending
  | sameSequence
  | knownSequence
  | stale
  | untrusted
  | unsupportedVersion
  | invalid
deriving DecidableEq

inductive PublisherStatus
  | available
  | expired
  | unavailable
  | revoked
deriving DecidableEq

structure ValidatorBlobInfo where
  blob : String
  signature : String
  manifest : Option String

/-- An element of `validators`, where the members that are read have the right types. -/
structure ValidatorJson where
  validationPublicKey : Option String
  manifest : Option String
deriving DecidableEq

/-- What is read of the JSON of a list. -/
structure ListJson where
  sequence : Option ℕ
  expiration : Option ℕ
  effective : Option ℕ
  validators : Option (List ValidatorJson)

structure Codec extends ManifestCodec where
  base64Decode : String → List UInt8
  strUnhex : String → Option (List UInt8)
  verify : PublicKey → List UInt8 → List UInt8 → Bool
  jsonFromSlice : List UInt8 → Option ListJson
  parseConfigKey : String → Option PublicKey

structure PublisherList where
  list : List PublicKey
  manifests : List String
  sequence : ℕ
  validFrom : ℕ
  validUntil : ℕ
deriving Inhabited

structure PublisherListCollection where
  status : PublisherStatus
  current : PublisherList
  remaining : ExtTreeMap ℕ PublisherList
  maxSequence : Option ℕ

abbrev KeyListings := ExtTreeMap PublicKey ℕ

structure ValidatorList where
  validatorManifests : ManifestCache
  publisherManifests : ManifestCache
  publisherLists : ExtTreeMap PublicKey PublisherListCollection
  keyListings : KeyListings
  trustedMasterKeys : Finset PublicKey
  listThreshold : ℕ
  localPubKey : Option PublicKey
  localPublisherList : List PublicKey

def ValidatorList.new (validatorManifests publisherManifests : ManifestCache) : ValidatorList :=
  ⟨validatorManifests, publisherManifests, ∅, ∅, ∅, 0, none, []⟩

/-- A publisher without lists. -/
def PublisherListCollection.empty (status : PublisherStatus) : PublisherListCollection :=
  ⟨status, ⟨[], [], 0, 0, 0⟩, ∅, none⟩

variable (codec : Codec) (manifests : ManifestCache) (coll : PublisherListCollection)
  (keyListings : KeyListings)

def increment (key : PublicKey) : KeyListings :=
  keyListings.insert key (keyListings[key]?.getD 0 + 1)

def decrementListing (key : PublicKey) : KeyListings :=
  match keyListings[key]? with
  | none => keyListings
  | some count =>
    if count ≤ 1 then keyListings.erase key else keyListings.insert key (count - 1)

/-- The merge of a new list with an old one: keys only on the new list are counted and become
trusted manifest identities, keys only on the old one lose a count. -/
def mergeListings (manifests : ManifestCache) (keyListings : KeyListings) :
    List PublicKey → List PublicKey → ManifestCache × KeyListings
  | [], [] => (manifests, keyListings)
  | new :: news, [] =>
    mergeListings (manifests.promoteToTrusted new) (increment keyListings new) news []
  | [], old :: olds => mergeListings manifests (decrementListing keyListings old) [] olds
  | new :: news, old :: olds =>
    if new = old then mergeListings manifests keyListings news olds
    else if new < old then
      mergeListings (manifests.promoteToTrusted new) (increment keyListings new) news (old :: olds)
    else mergeListings manifests (decrementListing keyListings old) (new :: news) olds
termination_by news olds => news.length + olds.length

def maxManifestBytes : ℕ := 358

def maxManifestBase64Bytes : ℕ := 4 * ((maxManifestBytes + 2) / 3)

def deserializeManifestBase64Bounded (encoded : String) : Option Manifest :=
  if encoded.isEmpty || decide (encoded.utf8ByteSize > maxManifestBase64Bytes) then none
  else
    let serialized := codec.base64Decode encoded
    if serialized.isEmpty || decide (serialized.length > maxManifestBytes) then none
    else deserializeManifest codec.toManifestCodec serialized

/-- A manifest that comes with a list, for a key that is listed. -/
def applyListedManifest (manifests : ManifestCache) (encoded : String) : ManifestCache :=
  match deserializeManifestBase64Bounded codec encoded with
  | none => manifests
  | some manifest =>
    if keyListings[manifest.masterKey]?.isNone then manifests
    else (manifests.applyManifest codec.toManifestCodec manifest).2

def updatePublisherList
    (current : PublisherList) (oldList : List PublicKey) : ManifestCache × KeyListings :=
  let merged := mergeListings manifests keyListings current.list oldList
  (current.manifests.foldl (applyListedManifest codec merged.2) merged.1, merged.2)

def removeCurrentList (status : PublisherStatus) : PublisherListCollection × KeyListings :=
  ({ coll with current := { coll.current with list := [] }, status },
    coll.current.list.foldl decrementListing keyListings)

/-- The last pending list that a later one precedes in time or equals. -/
def overtaken : List (ℕ × PublisherList) → Option ℕ
  | previous :: current :: rest =>
    (overtaken (current :: rest)).or
      (if current.2.validFrom ≤ previous.2.validFrom then some previous.1 else none)
  | _ => none

/-- The loop that removes such lists, for at most `fuel` rounds. -/
def removeOvertaken : ℕ → ExtTreeMap ℕ PublisherList → ExtTreeMap ℕ PublisherList
  | 0, remaining => remaining
  | fuel + 1, remaining =>
    match overtaken remaining.toList with
    | none => remaining
    | some sequence => removeOvertaken fuel (remaining.erase sequence)

def cleanPublisherCollection : PublisherListCollection :=
  let remaining := coll.remaining.filter fun sequence _ =>
    decide (sequence > coll.current.sequence)
  { coll with remaining := removeOvertaken remaining.size remaining }

/-- The pending lists that are effective by the close time, in front of one that is not. -/
def readyLists (closeTime : ℕ) : List (ℕ × PublisherList) :=
  coll.remaining.toList.takeWhile fun entry => decide (entry.2.validFrom ≤ closeTime)

def rotatePendingCollection (closeTime : ℕ) (keyListings : KeyListings) :
    PublisherListCollection × ManifestCache × KeyListings :=
  let ready := readyLists coll closeTime
  match ready.getLast? with
  | none => (coll, manifests, keyListings)
  | some (_, pending) =>
    let current := if pending.validUntil ≤ closeTime then { pending with list := [] } else pending
    ({ coll with
        current
        status := .available
        remaining := ready.foldl (fun remaining entry => remaining.erase entry.1)
          coll.remaining },
      updatePublisherList codec manifests keyListings current coll.current.list)

/-- A list that has everything it must have, and expires after it takes effect. -/
structure VerifiedList where
  sequence : ℕ
  effective : ℕ
  expiration : ℕ
  validators : List ValidatorJson
  effective_lt_expiration : effective < expiration
deriving DecidableEq

def ListJson.verified (json : ListJson) : Option VerifiedList := do
  let sequence ← json.sequence
  let validUntil ← json.expiration
  let validFrom := json.effective.getD 0
  if h : validUntil ≤ validFrom then none
  else
    let validators ← json.validators
    some ⟨sequence, validFrom, validUntil, validators, not_le.mp h⟩

/-- The list in a blob with a good signature. -/
def readList (signingKey : PublicKey) (blob signature : String) : Option VerifiedList := do
  let sig ← codec.strUnhex signature
  let data := codec.base64Decode blob
  if codec.verify signingKey data sig then (codec.jsonFromSlice data).bind ListJson.verified
  else none

/-- What to do with a list, by its sequence number and its times. -/
def PublisherListCollection.disposition (now : ℕ) (list : VerifiedList) : ListDisposition :=
  if list.sequence < coll.current.sequence then .stale
  else if list.sequence = coll.current.sequence then .sameSequence
  else if list.expiration ≤ now then .expired
  else if list.effective > now then
    match coll.maxSequence with
    | none => .pending
    | some maxSequence =>
      if list.sequence > maxSequence then .pending
      else if coll.remaining[list.sequence]?.isNone &&
          coll.remaining[maxSequence]?.any fun future =>
            decide (list.effective < future.validFrom) then .pending
      else .knownSequence
  else .accepted

namespace ValidatorList

/-- A revoked publisher loses its lists. -/
def revokePublisher (s : ValidatorList) (key : PublicKey) (coll : PublisherListCollection) :
    ValidatorList :=
  let removed := removeCurrentList coll s.keyListings .revoked
  { s with
    publisherLists := s.publisherLists.insert key { removed.1 with remaining := ∅ }
    keyListings := removed.2 }

def verifyLocked (codec : Codec) (now : ℕ) (s : ValidatorList) (manifest : Manifest)
    (blob signature : String) :
    (ListDisposition × Option PublicKey × Option VerifiedList) × ValidatorList :=
  let key := manifest.masterKey
  match s.publisherLists[key]? with
  | none => ((.untrusted, none, none), s)
  | some coll =>
    let applied := s.publisherManifests.applyManifest codec.toManifestCodec manifest
    let s := { s with publisherManifests := applied.2 }
    let s := if manifest.revoked && decide (applied.1 = .accepted) then
      s.revokePublisher key coll else s
    if manifest.revoked || decide (applied.1 = .invalid) then ((.untrusted, some key, none), s)
    else
      match readList codec (s.publisherManifests.getSigningKey key) blob signature with
      | none => ((.invalid, some key, none), s)
      | some list => ((coll.disposition now list, some key, some list), s)

end ValidatorList

/-- The keys of a list that can be read, each with its manifest. -/
def readValidators (validators : List ValidatorJson) : List (PublicKey × Option String) :=
  validators.filterMap fun validator => do
    let hex ← validator.validationPublicKey
    let bytes ← codec.strUnhex hex
    let key ← PublicKey.fromSlice bytes
    some (key, validator.manifest)

/-- Times are kept in 32 bits. -/
def publisherList (list : VerifiedList) : PublisherList where
  list := ((readValidators codec list.validators).map Prod.fst).insertionSort (· ≤ ·)
  manifests := (readValidators codec list.validators).filterMap Prod.snd
  sequence := list.sequence
  validFrom := list.effective % 2 ^ 32
  validUntil := list.expiration % 2 ^ 32

namespace PublisherListCollection

def raiseMaxSequence (coll : PublisherListCollection) (sequence : ℕ) :
    PublisherListCollection :=
  { coll with
    maxSequence := some ((coll.maxSequence.map (max · sequence)).getD sequence) }

/-- A list that comes into force; if it is pending, the pending one does. -/
def putInForce (codec : Codec) (coll : PublisherListCollection) (status : PublisherStatus)
    (list : VerifiedList) : PublisherListCollection :=
  { coll.raiseMaxSequence list.sequence with
    status
    current := coll.remaining[list.sequence]?.getD (publisherList codec list)
    remaining := coll.remaining.erase list.sequence }

def putOff (codec : Codec) (coll : PublisherListCollection) (list : VerifiedList) :
    PublisherListCollection :=
  { coll.raiseMaxSequence list.sequence with
    remaining := coll.remaining.insert list.sequence (publisherList codec list) }

end PublisherListCollection

namespace ValidatorList

variable (codec : Codec) (s : ValidatorList) (key : PublicKey)

/-- A list comes into force. -/
def putInForce
    (coll : PublisherListCollection) (status : PublisherStatus) (list : VerifiedList) :
    ValidatorList :=
  let next := coll.putInForce codec status list
  let updated := updatePublisherList codec s.validatorManifests s.keyListings next.current
    coll.current.list
  { s with
    publisherLists := s.publisherLists.insert key next
    validatorManifests := updated.1
    keyListings := updated.2 }

def putOff (coll : PublisherListCollection) (list : VerifiedList) : ValidatorList :=
  { s with publisherLists := s.publisherLists.insert key (coll.putOff codec list) }

/-- What a verified list does, and whose it is. -/
def storeList
    (verified : ListDisposition × Option PublicKey × Option VerifiedList) : ValidatorList :=
  match verified with
  | (disposition, some key, some list) =>
    match s.publisherLists[key]? with
    | none => s
    | some coll =>
      match disposition with
      | .accepted => s.putInForce codec key coll .available list
      | .expired => s.putInForce codec key coll .expired list
      | .pending => s.putOff codec key coll list
      | _ => s
  | _ => s

/-- The publisher that a blob names, and the lists after it. -/
def applyListLocked (globalManifest : String) (s : ValidatorList)
    (item : ℕ × ValidatorBlobInfo) : Option PublicKey × ValidatorList :=
  match deserializeManifestBase64Bounded codec (item.2.manifest.getD globalManifest) with
  | none => (none, s)
  | some manifest =>
    let verified := s.verifyLocked codec item.1 manifest item.2.blob item.2.signature
    (verified.1.2.1, verified.2.storeList codec verified.1)

def cleanPublisher : ValidatorList :=
  match s.publisherLists[key]? with
  | none => s
  | some coll =>
    { s with publisherLists := s.publisherLists.insert key (cleanPublisherCollection coll) }

/-- The blobs one after the other; the publishers they name, and the lists after them. -/
def applyBlobs (globalManifest : String) (s : ValidatorList)
    (blobs : List (ℕ × ValidatorBlobInfo)) : Finset PublicKey × ValidatorList :=
  blobs.foldl (fun acc item =>
    let applied := acc.2.applyListLocked codec globalManifest item
    (acc.1 ∪ applied.1.toFinset, applied.2)) (∅, s)

/-- Each blob comes with the time at which it is looked at. -/
def applyLists (manifest : String) (version : ℕ)
    (blobs : List (ℕ × ValidatorBlobInfo)) : ValidatorList :=
  if version = 1 ∨ version = 2 then
    let applied := s.applyBlobs codec manifest blobs
    (applied.1.sort (· ≤ ·)).foldl cleanPublisher applied.2
  else s

end ValidatorList

def clampStaleLclCloseTime (closeTime now : ℕ) : ℕ :=
  if now > min (closeTime + 30) (2 ^ 32 - 1) then now else closeTime

namespace ValidatorList

/-- Rotate and expire the lists of one publisher. -/
def refreshPublisher (codec : Codec) (closeTime : ℕ) (s : ValidatorList) (key : PublicKey) :
    ValidatorList :=
  match s.publisherLists[key]? with
  | none => s
  | some coll =>
    let rotated := rotatePendingCollection codec s.validatorManifests coll closeTime
      s.keyListings
    let expired := if rotated.1.status = .available ∧ rotated.1.current.validUntil ≤ closeTime then
      removeCurrentList rotated.1 rotated.2.2 .expired else (rotated.1, rotated.2.2)
    { s with
      publisherLists := s.publisherLists.insert key expired.1
      validatorManifests := rotated.2.1
      keyListings := expired.2 }

/-- A key that is listed often enough and not revoked. -/
def listedEnough (s : ValidatorList) (key : PublicKey) (count : ℕ) : Bool :=
  decide (count ≥ s.listThreshold) && !s.validatorManifests.revoked key

/-- Drop the keys that are no longer listed enough and add those that are. -/
def refreshTrusted (s : ValidatorList) : ValidatorList :=
  let kept := s.trustedMasterKeys.filter fun key => s.keyListings[key]?.any (s.listedEnough key)
  { s with
    trustedMasterKeys := s.keyListings.toList.foldl (fun trusted entry =>
      if s.listedEnough entry.1 entry.2 then insert entry.1 trusted else trusted) kept }

/-- `publishers` is the order in which the publishers are visited. -/
def updateTrusted (codec : Codec) (s : ValidatorList) (closeTime now : ℕ)
    (publishers : List PublicKey) : ValidatorList :=
  (publishers.foldl (refreshPublisher codec (clampStaleLclCloseTime closeTime now))
    s).refreshTrusted

end ValidatorList

namespace ValidatorList

/-- The loop over the publisher keys; it stops at the first that is not a key. -/
def loadPublishers (codec : Codec) (s : ValidatorList) : List String → Bool × ValidatorList
  | [] => (true, s)
  | hex :: rest =>
    match (codec.strUnhex hex).bind PublicKey.fromSlice with
    | none => (false, s)
    | some key =>
      if s.publisherLists[key]?.isSome then loadPublishers codec s rest
      else
        let status := if s.publisherManifests.revoked key then PublisherStatus.revoked
          else .unavailable
        loadPublishers codec
          { s with publisherLists := s.publisherLists.insert key (.empty status) } rest

def chooseThreshold (publishers : ℕ) : Option ℕ → Option ℕ
  | some threshold => if threshold > 0 ∧ threshold ≤ publishers then some threshold else none
  | none => some (if publishers < 3 then 1 else publishers / 2 + 1)

/-- The local key counts as listed often enough. -/
def loadLocalKey (s : ValidatorList) (localSigningKey : Option PublicKey) : ValidatorList :=
  let localPubKey := (localSigningKey.map s.validatorManifests.getMasterKey).or s.localPubKey
  { s with
    localPubKey
    keyListings := match localPubKey with
      | none => s.keyListings
      | some key => s.keyListings.insert key s.listThreshold }

/-- The loop over the configured keys. -/
def loadConfigKeys (codec : Codec) (localSigningKey : Option PublicKey) (s : ValidatorList) :
    List String → Bool × ValidatorList
  | [] => (true, s)
  | entry :: rest =>
    match codec.parseConfigKey entry with
    | none => (false, s)
    | some key =>
      if some key = s.localPubKey ∨ some key = localSigningKey ∨ s.keyListings[key]?.isSome then
        loadConfigKeys codec localSigningKey s rest
      else
        loadConfigKeys codec localSigningKey
          { s with
            keyListings := s.keyListings.insert key s.listThreshold
            localPublisherList := s.localPublisherList ++ [key] } rest

def load (codec : Codec) (s : ValidatorList) (localSigningKey : Option PublicKey)
    (configKeys publisherKeys : List String) (listThreshold : Option ℕ) : Bool × ValidatorList :=
  match s.loadPublishers codec publisherKeys with
  | (false, s) => (false, s)
  | (true, s) =>
    match chooseThreshold s.publisherLists.size listThreshold with
    | none => (false, s)
    | some threshold =>
      (loadLocalKey { s with listThreshold := threshold } localSigningKey).loadConfigKeys codec
        localSigningKey configKeys

end ValidatorList

end Quaxar.Validators
