import Quaxar.Validators.ValidatorList
import Quaxar.Validators.ManifestCache

/-!
# What a call does to the validator lists

Every call is a sequence of changes to the collection of one publisher at a time. `Moves` says
what such a change does to the listings: a key loses its occurrences on the old list and gains
those on the new one. `BlobStep` says what a blob can do.
-/

namespace Quaxar.Validators

open Protocol (PublicKey)
open Std (ExtTreeMap)
open OrderedMap (getElem?_erase getElem?_insert)
open List (count_cons)

/-- How often a key is listed. -/
def listed (keyListings : KeyListings) (key : PublicKey) : ℕ := keyListings[key]?.getD 0

/-- The listings after one list has taken the place of another. -/
structure Moves (before after : KeyListings) (old new : List PublicKey) : Prop where
  listed_add : ∀ key : PublicKey, old.count key ≤ listed before key →
    listed after key + old.count key = listed before key + new.count key
  ne_zero : ∀ key : PublicKey, before[key]? ≠ some 0 → after[key]? ≠ some 0

theorem Moves.refl (keyListings : KeyListings) (list : List PublicKey) :
    Moves keyListings keyListings list list :=
  ⟨fun _ _ => rfl, fun _ h => h⟩

theorem listed_increment (keyListings : KeyListings) (key k : PublicKey) :
    listed (increment keyListings key) k = listed keyListings k + if key = k then 1 else 0 := by
  unfold listed increment
  rw [getElem?_insert]
  split_ifs with h
  · subst h
    rfl
  · rfl

theorem listed_decrementListing (keyListings : KeyListings) (key k : PublicKey) :
    listed (decrementListing keyListings key) k =
      listed keyListings k - if key = k then 1 else 0 := by
  unfold listed decrementListing
  rcases hcount : keyListings[key]? with _ | count
  · split_ifs with h
    · subst h
      simp [hcount]
    · rfl
  · dsimp only
    split_ifs with hle heq heq
    · subst heq
      simp [hcount, hle]
    · simp [getElem?_erase, heq]
    · subst heq
      simp [hcount]
    · simp [getElem?_insert, heq]

variable {keyListings : KeyListings} {k : PublicKey}

theorem increment_ne_zero (key : PublicKey) (h : keyListings[k]? ≠ some 0) :
    (increment keyListings key)[k]? ≠ some 0 := by
  unfold increment
  rw [getElem?_insert]
  split_ifs
  · simp
  · exact h

theorem decrementListing_ne_zero (key : PublicKey) (h : keyListings[k]? ≠ some 0) :
    (decrementListing keyListings key)[k]? ≠ some 0 := by
  unfold decrementListing
  rcases hcount : keyListings[key]? with _ | count
  · exact h
  · dsimp only
    split_ifs with hle
    · rw [getElem?_erase]
      split_ifs
      · simp
      · exact h
    · rw [getElem?_insert]
      split_ifs
      · intro hzero
        have := Option.some.inj hzero
        omega
      · exact h

theorem mergeListings_moves (manifests : ManifestCache) (keyListings : KeyListings)
    (news olds : List PublicKey) :
    Moves keyListings (mergeListings manifests keyListings news olds).2 olds news := by
  fun_induction mergeListings manifests keyListings news olds with
  | case1 manifests keyListings => exact Moves.refl _ _
  | case2 manifests keyListings new news ih =>
    refine ⟨fun k hk => ?_, fun k hk => ih.ne_zero k (increment_ne_zero new hk)⟩
    have h := ih.listed_add k (by simp)
    rw [listed_increment] at h
    rw [count_cons]
    simp only [List.count_nil, beq_iff_eq] at h ⊢
    omega
  | case3 manifests keyListings old olds ih =>
    refine ⟨fun k hk => ?_, fun k hk => ih.ne_zero k (decrementListing_ne_zero old hk)⟩
    rw [count_cons] at hk ⊢
    simp only [beq_iff_eq] at hk ⊢
    have h := ih.listed_add k (by rw [listed_decrementListing]; omega)
    rw [listed_decrementListing] at h
    omega
  | case4 manifests keyListings news new olds ih =>
    refine ⟨fun k hk => ?_, ih.ne_zero⟩
    rw [count_cons] at hk
    have h := ih.listed_add k (by omega)
    rw [count_cons, count_cons]
    omega
  | case5 manifests keyListings new news old olds hne hlt ih =>
    refine ⟨fun k hk => ?_, fun k hk => ih.ne_zero k (increment_ne_zero new hk)⟩
    have h := ih.listed_add k (by rw [listed_increment]; omega)
    rw [listed_increment] at h
    rw [count_cons (l := news)]
    simp only [beq_iff_eq]
    omega
  | case6 manifests keyListings new news old olds hne hlt ih =>
    refine ⟨fun k hk => ?_, fun k hk => ih.ne_zero k (decrementListing_ne_zero old hk)⟩
    rw [count_cons] at hk
    rw [count_cons (l := olds)]
    simp only [beq_iff_eq] at hk ⊢
    have h := ih.listed_add k (by rw [listed_decrementListing]; omega)
    rw [listed_decrementListing] at h
    omega

theorem foldl_decrementListing_moves (keyListings : KeyListings) (list : List PublicKey) :
    Moves keyListings (list.foldl decrementListing keyListings) list [] := by
  induction list generalizing keyListings with
  | nil => exact Moves.refl _ _
  | cons old olds ih =>
    refine ⟨fun k hk => ?_, fun k hk => (ih _).ne_zero k (decrementListing_ne_zero old hk)⟩
    rw [count_cons] at hk ⊢
    simp only [beq_iff_eq] at hk ⊢
    have h := (ih (decrementListing keyListings old)).listed_add k
      (by rw [listed_decrementListing]; omega)
    rw [listed_decrementListing] at h
    rw [List.foldl_cons]
    omega

theorem Moves.trans {first second third : KeyListings} {old mid new : List PublicKey}
    (h : Moves first second old mid) (h' : Moves second third mid new) :
    Moves first third old new := by
  refine ⟨fun k hk => ?_, fun k hk => h'.ne_zero k (h.ne_zero k hk)⟩
  have h₁ := h.listed_add k hk
  have h₂ := h'.listed_add k (by omega)
  omega

variable {coll : PublisherListCollection} {s : ValidatorList}

/-- The collections of one publisher before and after a change; everyone else keeps theirs. -/
structure Updates (s s' : ValidatorList) (key : PublicKey)
    (before after : PublisherListCollection) : Prop where
  found : s.publisherLists[key]? = some before
  publisherLists_eq : s'.publisherLists = s.publisherLists.insert key after
  moves : Moves s.keyListings s'.keyListings before.current.list after.current.list
  publisherManifests_eq : s'.publisherManifests = s.publisherManifests
  listThreshold_eq : s'.listThreshold = s.listThreshold
  localPubKey_eq : s'.localPubKey = s.localPubKey

variable {key : PublicKey}

theorem insert_self {m : ExtTreeMap PublicKey PublisherListCollection}
    (h : m[key]? = some coll) : m.insert key coll = m := by
  apply ExtTreeMap.ext_getElem?
  intro k
  rw [getElem?_insert]
  split_ifs with heq
  · rw [← heq, h]
  · rfl

theorem Updates.refl (h : s.publisherLists[key]? = some coll) :
    Updates s s key coll coll :=
  ⟨h, (insert_self h).symm, Moves.refl _ _, rfl, rfl, rfl⟩

theorem Updates.getElem? {s' : ValidatorList} {before after : PublisherListCollection}
    (h : Updates s s' key before after) (k : PublicKey) :
    s'.publisherLists[k]? = if key = k then some after else s.publisherLists[k]? := by
  rw [h.publisherLists_eq, getElem?_insert]

/-- What a list makes of the collection of its publisher. -/
def PublisherListCollection.receive (codec : Codec) (now : ℕ)
    (coll : PublisherListCollection) (list : VerifiedList) : PublisherListCollection :=
  match coll.disposition now list with
  | .accepted => coll.putInForce codec .available list
  | .expired => coll.putInForce codec .expired list
  | .pending => coll.putOff codec list
  | _ => coll

theorem updatePublisherList_moves (codec : Codec) (manifests : ManifestCache)
    (keyListings : KeyListings) (current : PublisherList) (oldList : List PublicKey) :
    Moves keyListings (updatePublisherList codec manifests keyListings current oldList).2 oldList
      current.list :=
  mergeListings_moves manifests keyListings current.list oldList

theorem removeCurrentList_moves (coll : PublisherListCollection) (keyListings : KeyListings)
    (status : PublisherStatus) :
    Moves keyListings (removeCurrentList coll keyListings status).2 coll.current.list [] :=
  foldl_decrementListing_moves keyListings coll.current.list

namespace ValidatorList

variable {codec : Codec}

theorem putInForce_updates (h : s.publisherLists[key]? = some coll)
    (status : PublisherStatus) (list : VerifiedList) :
    Updates s (s.putInForce codec key coll status list) key coll
      (coll.putInForce codec status list) :=
  ⟨h, rfl, updatePublisherList_moves codec _ _ _ _, rfl, rfl, rfl⟩

theorem storeList_updates (codec : Codec) (h : s.publisherLists[key]? = some coll)
    (now : ℕ) (list : VerifiedList) :
    Updates s (s.storeList codec (coll.disposition now list, some key, some list)) key
      coll (coll.receive codec now list) := by
  simp only [storeList, h, PublisherListCollection.receive]
  cases coll.disposition now list with
  | accepted => exact putInForce_updates h .available list
  | expired => exact putInForce_updates h .expired list
  | pending => exact ⟨h, rfl, Moves.refl _ _, rfl, rfl, rfl⟩
  | sameSequence => exact Updates.refl h
  | knownSequence => exact Updates.refl h
  | stale => exact Updates.refl h
  | untrusted => exact Updates.refl h
  | unsupportedVersion => exact Updates.refl h
  | invalid => exact Updates.refl h

theorem revokePublisher_updates (h : s.publisherLists[key]? = some coll) :
    Updates s (s.revokePublisher key coll) key coll
      { coll with
        current := { coll.current with list := [] }
        status := .revoked
        remaining := ∅ } :=
  ⟨h, rfl, removeCurrentList_moves coll s.keyListings .revoked, rfl, rfl, rfl⟩

theorem cleanPublisher_updates (h : s.publisherLists[key]? = some coll) :
    Updates s (s.cleanPublisher key) key coll (cleanPublisherCollection coll) := by
  simp only [cleanPublisher, h]
  exact ⟨h, rfl, Moves.refl _ _, rfl, rfl, rfl⟩

end ValidatorList

/-- The collection that comes out of `rotatePendingCollection`. -/
def PublisherListCollection.rotate (coll : PublisherListCollection) (closeTime : ℕ) :
    PublisherListCollection :=
  match (readyLists coll closeTime).getLast? with
  | none => coll
  | some (_, pending) =>
    { coll with
      current := if pending.validUntil ≤ closeTime then { pending with list := [] } else pending
      status := .available
      remaining := (readyLists coll closeTime).foldl
        (fun remaining entry => remaining.erase entry.1) coll.remaining }

theorem rotatePendingCollection_fst (codec : Codec) (manifests : ManifestCache)
    (coll : PublisherListCollection) (closeTime : ℕ) (keyListings : KeyListings) :
    (rotatePendingCollection codec manifests coll closeTime keyListings).1 =
      coll.rotate closeTime := by
  unfold rotatePendingCollection PublisherListCollection.rotate
  dsimp only
  rcases (readyLists coll closeTime).getLast? with _ | entry
  · rfl
  · rfl

theorem rotatePendingCollection_moves (codec : Codec) (manifests : ManifestCache)
    (coll : PublisherListCollection) (closeTime : ℕ) (keyListings : KeyListings) :
    Moves keyListings
      (rotatePendingCollection codec manifests coll closeTime keyListings).2.2
      coll.current.list (coll.rotate closeTime).current.list := by
  unfold rotatePendingCollection PublisherListCollection.rotate
  dsimp only
  rcases (readyLists coll closeTime).getLast? with _ | entry
  · exact Moves.refl _ _
  · exact updatePublisherList_moves codec manifests keyListings _ _

/-- The collection of a publisher after `updateTrusted` has visited it. -/
def PublisherListCollection.refresh (coll : PublisherListCollection) (closeTime : ℕ) :
    PublisherListCollection :=
  let rotated := coll.rotate closeTime
  if rotated.status = .available ∧ rotated.current.validUntil ≤ closeTime then
    { rotated with current := { rotated.current with list := [] }, status := .expired }
  else rotated

theorem ValidatorList.refreshPublisher_updates {codec : Codec}
    (h : s.publisherLists[key]? = some coll) (closeTime : ℕ) :
    Updates s (s.refreshPublisher codec closeTime key) key coll
      (coll.refresh closeTime) := by
  have hmoves := rotatePendingCollection_moves codec s.validatorManifests coll closeTime
    s.keyListings
  simp only [refreshPublisher, h, PublisherListCollection.refresh, rotatePendingCollection_fst]
  split_ifs
  · exact ⟨h, rfl, hmoves.trans (removeCurrentList_moves _ _ .expired), rfl, rfl, rfl⟩
  · exact ⟨h, rfl, hmoves, rfl, rfl, rfl⟩

theorem removeOvertaken_subset (fuel : ℕ) (remaining : ExtTreeMap ℕ PublisherList) (sequence : ℕ)
    (pending : PublisherList) (h : (removeOvertaken fuel remaining)[sequence]? = some pending) :
    remaining[sequence]? = some pending := by
  fun_induction removeOvertaken fuel remaining with
  | case1 remaining => exact h
  | case2 fuel remaining hnone => exact h
  | case3 fuel remaining removed hsome ih =>
    have herased := ih h
    rw [getElem?_erase] at herased
    split_ifs at herased
    exact herased

theorem getElem?_filter_sequence (remaining : ExtTreeMap ℕ PublisherList) (bound sequence : ℕ) :
    (remaining.filter fun sequence _ => decide (sequence > bound))[sequence]? =
      if bound < sequence then remaining[sequence]? else none := by
  rw [ExtTreeMap.getElem?_filter']
  rcases remaining[sequence]? with _ | pending
  · simp
  · by_cases h : bound < sequence
    · simp [h]
    · simp [h]

theorem mem_remaining_of_mem_ready {closeTime : ℕ} {entry : ℕ × PublisherList}
    (h : entry ∈ readyLists coll closeTime) :
    coll.remaining[entry.1]? = some entry.2 ∧ entry.2.validFrom ≤ closeTime := by
  have hmem := (List.takeWhile_sublist _).subset h
  exact ⟨ExtTreeMap.mem_toList_iff_getElem?_eq_some.mp hmem, by
    simpa using List.mem_takeWhile_imp h⟩

theorem getElem?_foldl_erase (ready : List (ℕ × PublisherList))
    (remaining : ExtTreeMap ℕ PublisherList) (sequence : ℕ) :
    (ready.foldl (fun remaining entry => remaining.erase entry.1) remaining)[sequence]? =
      if sequence ∈ ready.map Prod.fst then none else remaining[sequence]? := by
  induction ready generalizing remaining with
  | nil => simp
  | cons entry rest ih =>
    rw [List.foldl_cons, ih, getElem?_erase, List.map_cons]
    by_cases hrest : sequence ∈ rest.map Prod.fst
    · rw [if_pos hrest, if_pos (List.mem_cons_of_mem _ hrest)]
    · rw [if_neg hrest]
      by_cases heq : entry.1 = sequence
      · rw [if_pos heq, if_pos (heq ▸ List.mem_cons_self)]
      · rw [if_neg heq, if_neg (by simp [hrest, Ne.symm heq])]

namespace ValidatorList

/-- The list in a blob with a good manifest and a good signature, and its publisher. -/
def received (codec : Codec) (globalManifest : String) (s : ValidatorList)
    (item : ℕ × ValidatorBlobInfo) : Option (PublicKey × VerifiedList) := do
  let manifest ← deserializeManifestBase64Bounded codec (item.2.manifest.getD globalManifest)
  let verified := (s.verifyLocked codec item.1 manifest item.2.blob item.2.signature).1
  let key ← verified.2.1
  let list ← verified.2.2
  some (key, list)

/-- What a blob can do: the publisher it names, the list it holds and the lists after it. -/
inductive BlobStep (codec : Codec) (now : ℕ) (s : ValidatorList) :
    Option PublicKey → Option (PublicKey × VerifiedList) → ValidatorList → Prop
  | ignored (named : Option PublicKey) (manifests : ManifestCache)
      (hrevoked : ∀ p, manifests.revoked p = s.publisherManifests.revoked p) :
      BlobStep codec now s named none { s with publisherManifests := manifests }
  | revoked (key : PublicKey) (coll : PublisherListCollection) (manifests : ManifestCache)
      (hfound : s.publisherLists[key]? = some coll)
      (hrevoked : ∀ p, manifests.revoked p =
        if key = p then true else s.publisherManifests.revoked p) :
      BlobStep codec now s (some key) none
        (revokePublisher { s with publisherManifests := manifests } key coll)
  | stored (key : PublicKey) (coll : PublisherListCollection) (manifests : ManifestCache)
      (list : VerifiedList) (hfound : s.publisherLists[key]? = some coll)
      (hrevoked : ∀ p, manifests.revoked p = s.publisherManifests.revoked p) :
      BlobStep codec now s (some key) (some (key, list))
        (storeList codec { s with publisherManifests := manifests }
          (coll.disposition now list, some key, some list))

variable {codec : ManifestCodec} {cache : ManifestCache} {manifest : Manifest}

theorem revoked_applyManifest
    (h : ¬ (manifest.revoked = true ∧ (cache.applyManifest codec manifest).1 = .accepted))
    (key : PublicKey) : (cache.applyManifest codec manifest).2.revoked key = cache.revoked key := by
  unfold ManifestCache.applyManifest at h ⊢
  rcases cache.applyManifestWithPolicy_cases codec manifest .uncapped with
    ⟨hstore, haccepts⟩ | ⟨disposition, -, hsame⟩
  · rw [hstore] at h ⊢
    rw [ManifestCache.revoked_store]
    split_ifs with heq
    · subst heq
      rw [haccepts.revoked_eq_false]
      simpa using h
    · rfl
  · rw [hsame]

theorem revoked_applyManifest_revocation (hrevoked : manifest.revoked = true)
    (h : (cache.applyManifest codec manifest).1 = .accepted) (key : PublicKey) :
    (cache.applyManifest codec manifest).2.revoked key =
      if manifest.masterKey = key then true else cache.revoked key := by
  unfold ManifestCache.applyManifest at h ⊢
  rcases cache.applyManifestWithPolicy_cases codec manifest .uncapped with
    ⟨hstore, -⟩ | ⟨disposition, hne, hsame⟩
  · rw [hstore, ManifestCache.revoked_store, hrevoked]
  · rw [hsame] at h
    exact absurd h hne

theorem applyListLocked_blobStep (codec : Codec) (globalManifest : String) (s : ValidatorList)
    (item : ℕ × ValidatorBlobInfo) :
    BlobStep codec item.1 s (s.applyListLocked codec globalManifest item).1
      (s.received codec globalManifest item) (s.applyListLocked codec globalManifest item).2 := by
  unfold applyListLocked received
  rcases deserializeManifestBase64Bounded codec (item.2.manifest.getD globalManifest) with
    _ | manifest
  · exact BlobStep.ignored none s.publisherManifests fun _ => rfl
  · simp only [Option.bind_eq_bind, Option.bind_some]
    rcases hfound : s.publisherLists[manifest.masterKey]? with _ | coll
    · simp only [verifyLocked, hfound, storeList, Option.bind_none]
      exact BlobStep.ignored none s.publisherManifests fun _ => rfl
    · by_cases hrevocation : manifest.revoked = true ∧
        (s.publisherManifests.applyManifest codec.toManifestCodec manifest).1 = .accepted
      · obtain ⟨hrevoked, haccepted⟩ := hrevocation
        simp only [verifyLocked, hfound, hrevoked, haccepted, storeList]
        exact BlobStep.revoked manifest.masterKey coll _ hfound
          (revoked_applyManifest_revocation hrevoked haccepted)
      · have hsame := revoked_applyManifest hrevocation
        have hno : (manifest.revoked && decide ((s.publisherManifests.applyManifest
            codec.toManifestCodec manifest).1 = .accepted)) = false := by
          simpa using hrevocation
        simp only [verifyLocked, hfound, hno, Bool.false_eq_true, if_false]
        split_ifs
        · exact BlobStep.ignored (some manifest.masterKey) _ hsame
        · rcases readList codec _ item.2.blob item.2.signature with _ | list
          · exact BlobStep.ignored (some manifest.masterKey) _ hsame
          · exact BlobStep.stored manifest.masterKey coll _ list hfound hsame

end ValidatorList

namespace ValidatorList

variable {codec : Codec}

/-- A call, with what the clock says during it. -/
inductive Op
  | load (localSigningKey : Option PublicKey) (configKeys publisherKeys : List String)
      (listThreshold : Option ℕ)
  | applyLists (manifest : String) (version : ℕ) (blobs : List (ℕ × ValidatorBlobInfo))
  | updateTrusted (closeTime now : ℕ) (publishers : List PublicKey)

/-- Publishers are visited in any order. -/
def Op.Permitted (s : ValidatorList) : Op → Prop
  | .updateTrusted _ _ publishers => publishers.Perm s.publisherLists.keys
  | _ => True

def Op.run (codec : Codec) (s : ValidatorList) : Op → ValidatorList
  | .load localSigningKey configKeys publisherKeys listThreshold =>
    (s.load codec localSigningKey configKeys publisherKeys listThreshold).2
  | .applyLists manifest version blobs => s.applyLists codec manifest version blobs
  | .updateTrusted closeTime now publishers => s.updateTrusted codec closeTime now publishers

theorem applyBlobs_snd (codec : Codec) (globalManifest : String) (s : ValidatorList)
    (blobs : List (ℕ × ValidatorBlobInfo)) :
    (s.applyBlobs codec globalManifest blobs).2 =
      blobs.foldl (fun s item => (s.applyListLocked codec globalManifest item).2) s := by
  have hfold : ∀ (named : Finset PublicKey) (s : ValidatorList),
      (blobs.foldl (fun acc item =>
        let applied := acc.2.applyListLocked codec globalManifest item
        (acc.1 ∪ applied.1.toFinset, applied.2)) (named, s)).2 =
      blobs.foldl (fun s item => (s.applyListLocked codec globalManifest item).2) s := by
    induction blobs with
    | nil => exact fun _ _ => rfl
    | cons item rest ih => exact fun _ _ => ih _ _
  exact hfold ∅ s

/-- After the visit of all publishers, everyone's collection is refreshed. -/
theorem getElem?_foldl_refreshPublisher (closeTime : ℕ) {publishers : List PublicKey}
    (hnodup : publishers.Nodup) (s : ValidatorList) (p : PublicKey) :
    (publishers.foldl (refreshPublisher codec closeTime) s).publisherLists[p]? =
      if p ∈ publishers then
        s.publisherLists[p]?.map fun coll => coll.refresh closeTime
      else s.publisherLists[p]? := by
  induction publishers generalizing s with
  | nil => simp
  | cons key rest ih =>
    obtain ⟨hkey, hrest⟩ := List.nodup_cons.mp hnodup
    rw [List.foldl_cons, ih hrest]
    have hvisit : (s.refreshPublisher codec closeTime key).publisherLists[p]? =
        if key = p then s.publisherLists[p]?.map fun coll => coll.refresh closeTime
        else s.publisherLists[p]? := by
      rcases hfound : s.publisherLists[key]? with _ | coll
      · simp only [refreshPublisher, hfound]
        split_ifs with heq
        · rw [← heq, hfound]
          rfl
        · rfl
      · rw [(refreshPublisher_updates hfound closeTime).getElem? p]
        split_ifs with heq
        · rw [← heq, hfound]
          rfl
        · rfl
    rw [hvisit]
    by_cases heq : key = p
    · subst heq
      simp [hkey]
    · simp [heq, Ne.symm heq]

theorem loadConfigKeys_publishers (codec : Codec) (localSigningKey : Option PublicKey)
    (s : ValidatorList) (configKeys : List String) :
    (s.loadConfigKeys codec localSigningKey configKeys).2.publisherLists = s.publisherLists ∧
      (s.loadConfigKeys codec localSigningKey configKeys).2.publisherManifests =
        s.publisherManifests := by
  fun_induction loadConfigKeys codec localSigningKey s configKeys with
  | case1 s => exact ⟨rfl, rfl⟩
  | case2 s entry rest hnone => exact ⟨rfl, rfl⟩
  | case3 s entry rest key hkey hskip ih => exact ih
  | case4 s entry rest key hkey hskip ih => exact ih

/-- What holds is kept when publishers get empty collections. -/
theorem loadPublishers_rec {P : ValidatorList → Prop} (codec : Codec) (publisherKeys : List String)
    (h : P s) (hnew : ∀ s key status, P s → s.publisherLists[key]? = none →
      P { s with publisherLists := s.publisherLists.insert key (.empty status) }) :
    P (s.loadPublishers codec publisherKeys).2 := by
  fun_induction loadPublishers codec s publisherKeys with
  | case1 s => exact h
  | case2 s hex rest hnone => exact h
  | case3 s hex rest key hkey hfound ih => exact ih h
  | case4 s hex rest key hkey hfound status ih =>
    exact ih (hnew s key status h (Option.not_isSome_iff_eq_none.mp hfound))

theorem loadPublishers_found (codec : Codec) {publisher : PublicKey}
    (h : s.publisherLists[publisher]? = some coll) (publisherKeys : List String) :
    (s.loadPublishers codec publisherKeys).2.publisherLists[publisher]? = some coll := by
  refine loadPublishers_rec (P := fun s => s.publisherLists[publisher]? = some coll) codec
    publisherKeys h fun s key status hs hnone => ?_
  have hne : key ≠ publisher := by
    rintro rfl
    cases hs.symm.trans hnone
  rw [getElem?_insert, if_neg hne, hs]

theorem loadPublishers_manifests (codec : Codec) (s : ValidatorList) (publisherKeys : List String) :
    (s.loadPublishers codec publisherKeys).2.publisherManifests = s.publisherManifests ∧
      (s.loadPublishers codec publisherKeys).2.validatorManifests = s.validatorManifests :=
  loadPublishers_rec (P := fun s' => s'.publisherManifests = s.publisherManifests ∧
    s'.validatorManifests = s.validatorManifests) codec publisherKeys ⟨rfl, rfl⟩
    fun _ _ _ hs _ => hs

theorem load_publishers (codec : Codec) (s : ValidatorList) (localSigningKey : Option PublicKey)
    (configKeys publisherKeys : List String) (listThreshold : Option ℕ) :
    (s.load codec localSigningKey configKeys publisherKeys listThreshold).2.publisherLists =
        (s.loadPublishers codec publisherKeys).2.publisherLists ∧
      (s.load codec localSigningKey configKeys publisherKeys listThreshold).2.publisherManifests =
        s.publisherManifests := by
  obtain ⟨hmanifests, -⟩ := loadPublishers_manifests codec s publisherKeys
  unfold load
  rcases hload : s.loadPublishers codec publisherKeys with ⟨ok, s'⟩
  rw [hload] at hmanifests
  cases ok with
  | false => exact ⟨rfl, hmanifests⟩
  | true =>
    dsimp only
    rcases chooseThreshold s'.publisherLists.size listThreshold with _ | threshold
    · exact ⟨rfl, hmanifests⟩
    · obtain ⟨hlists, hsame⟩ := loadConfigKeys_publishers codec localSigningKey
        (loadLocalKey { s' with listThreshold := threshold } localSigningKey) configKeys
      exact ⟨hlists, hsame.trans hmanifests⟩

theorem refreshPublishers_publisherManifests (codec : Codec) (closeTime : ℕ)
    (publishers : List PublicKey) (s : ValidatorList) :
    (publishers.foldl (refreshPublisher codec closeTime) s).publisherManifests =
      s.publisherManifests := by
  induction publishers generalizing s with
  | nil => rfl
  | cons key rest ih =>
    rw [List.foldl_cons, ih]
    rcases hfound : s.publisherLists[key]? with _ | coll
    · simp only [refreshPublisher, hfound]
    · exact (refreshPublisher_updates hfound closeTime).publisherManifests_eq

/-- Publishers `a` and `b` have manifests and have signed one list. -/
def oneListCodec (json : ListJson) : Codec where
  parseManifestStobject serialized :=
    if serialized = [1] then some ⟨(keyOf 1).data, [], 1, 0, none, some (keyOf 3).data, some []⟩
    else if serialized = [3] then
      some ⟨(keyOf 2).data, [], 1, 0, none, some (keyOf 5).data, some []⟩
    else none
  verifyStObject _ _ _ := true
  base64Decode text :=
    if text = "manifest" then [1] else if text = "blob" then [2]
    else if text = "other" then [3] else []
  strUnhex text :=
    if text = "a" then some (keyOf 1).data
    else if text = "b" then some (keyOf 2).data
    else if text = "k" then some (keyOf 4).data
    else if text = "signature" then some [5]
    else none
  verify key data signature :=
    decide ((key = keyOf 3 ∨ key = keyOf 5) ∧ data = [2] ∧ signature = [5])
  jsonFromSlice data := if data = [2] then some json else none
  parseConfigKey _ := none

def loadTwoPublishers (listThreshold : ℕ) : Op := .load none [] ["a", "b"] (some listThreshold)

def applyListOf (manifest : String) : Op :=
  .applyLists manifest 1 [(10, ⟨"blob", "signature", none⟩)]

def applyOneList : Op := applyListOf "manifest"

/-- The lists of two publishers after one list has come in. -/
def oneList (json : ListJson) (listThreshold : ℕ) : ValidatorList :=
  applyOneList.run (oneListCodec json)
    ((loadTwoPublishers listThreshold).run (oneListCodec json) (.new (.new 0) (.new 0)))

end ValidatorList

end Quaxar.Validators
