import Quaxar.Validators.ListSteps

/-!
# Trusted validators

After every run `keyListings` holds, for a key that was never configured, the number of its
occurrences on the current lists of all publishers, and `updateTrusted` trusts the keys with
enough occurrences. That number is the number of publishers that list the key as long as no list
names a key twice, no list had expired when it came in, and no revoked publisher gets a list in.
-/

namespace Quaxar.Validators

open Protocol (PublicKey)
open Std (ExtTreeMap)

namespace ValidatorList

variable {s : ValidatorList} {publisher : PublicKey} {coll : PublisherListCollection}
  {configured : Set PublicKey}

def publishers (s : ValidatorList) : Finset PublicKey := s.publisherLists.keys.toFinset

def currentList (s : ValidatorList) (publisher : PublicKey) : List PublicKey :=
  (s.publisherLists[publisher]?.map fun coll => coll.current.list).getD []

/-- On how many places of the current lists a key stands. -/
def occurrences (s : ValidatorList) (key : PublicKey) : ℕ :=
  ∑ publisher ∈ s.publishers, (s.currentList publisher).count key

theorem mem_publishers :
    publisher ∈ s.publishers ↔ ∃ coll, s.publisherLists[publisher]? = some coll := by
  rw [publishers, List.mem_toFinset, ExtTreeMap.mem_keys, OrderedMap.mem_iff_exists]

theorem currentList_of_found (h : s.publisherLists[publisher]? = some coll) :
    s.currentList publisher = coll.current.list := by
  rw [currentList, h]
  rfl

variable {s' : ValidatorList} {before after : PublisherListCollection}

section

variable (h : Updates s s' publisher before after)

include h

theorem publishers_of_updates : s'.publishers = s.publishers := by
  ext p
  rw [mem_publishers, mem_publishers, h.getElem? p]
  split_ifs with heq
  · subst heq
    simp [h.found]
  · rfl

theorem currentList_of_updates (p : PublicKey) :
    s'.currentList p = if p = publisher then after.current.list else s.currentList p := by
  unfold currentList
  rw [h.getElem? p]
  by_cases heq : publisher = p
  · rw [if_pos heq, if_pos heq.symm]
    rfl
  · rw [if_neg heq, if_neg (Ne.symm heq)]

theorem occurrences_of_updates (key : PublicKey) :
    s'.occurrences key + before.current.list.count key =
      s.occurrences key + after.current.list.count key := by
  have hmem : publisher ∈ s.publishers := mem_publishers.mpr ⟨before, h.found⟩
  have hrest : ∑ p ∈ s.publishers.erase publisher, (s'.currentList p).count key =
      ∑ p ∈ s.publishers.erase publisher, (s.currentList p).count key := by
    refine Finset.sum_congr rfl fun p hp => ?_
    rw [currentList_of_updates h, if_neg (Finset.ne_of_mem_erase hp)]
  unfold occurrences
  rw [publishers_of_updates h, ← Finset.add_sum_erase _ _ hmem, ← Finset.add_sum_erase _ _ hmem,
    hrest, currentList_of_updates h, if_pos rfl, currentList_of_found h.found]
  omega

end

theorem count_le_occurrences (h : s.publisherLists[publisher]? = some before) (key : PublicKey) :
    before.current.list.count key ≤ s.occurrences key := by
  rw [← currentList_of_found h]
  exact Finset.single_le_sum (f := fun p => (s.currentList p).count key) (fun _ _ => Nat.zero_le _)
    (mem_publishers.mpr ⟨before, h⟩)

/-- For the keys that were never configured, the listings count the occurrences. -/
structure Counted (configured : Set PublicKey) (s : ValidatorList) : Prop where
  listed_eq : ∀ key ∉ configured, listed s.keyListings key = s.occurrences key
  ne_zero : ∀ key ∉ configured, s.keyListings[key]? ≠ some 0
  localPubKey_mem : ∀ key, s.localPubKey = some key → key ∈ configured

theorem Counted.of_updates (hcounted : Counted configured s)
    (h : Updates s s' publisher before after) : Counted configured s' where
  listed_eq key hkey := by
    have hlisted := hcounted.listed_eq key hkey
    have hmoves := h.moves.listed_add key (hlisted ▸ count_le_occurrences h.found key)
    have hoccurrences := occurrences_of_updates h key
    omega
  ne_zero key hkey := h.moves.ne_zero key (hcounted.ne_zero key hkey)
  localPubKey_mem key hkey := hcounted.localPubKey_mem key (h.localPubKey_eq ▸ hkey)

/-- The local key and the keys of the configuration. -/
def Op.configures (codec : Codec) (s : ValidatorList) : Op → Set PublicKey
  | .load localSigningKey configKeys _ _ =>
    {key | localSigningKey.map s.validatorManifests.getMasterKey = some key ∨
      ∃ entry ∈ configKeys, codec.parseConfigKey entry = some key}
  | _ => ∅

/-- The states of a run, each with the keys configured so far. -/
inductive Reachable (codec : Codec) (Allowed : ValidatorList → Op → Prop) (start : ValidatorList) :
    Set PublicKey → ValidatorList → Prop
  | start : Reachable codec Allowed start ∅ start
  | step {configured : Set PublicKey} {s : ValidatorList} (op : Op)
      (before : Reachable codec Allowed start configured s) (permitted : op.Permitted s)
      (allowed : Allowed s op) :
      Reachable codec Allowed start (configured ∪ op.configures codec s) (op.run codec s)

variable {now : ℕ} {named : Option PublicKey} {received : Option (PublicKey × VerifiedList)}
  {key : PublicKey} {validatorManifests publisherManifests : ManifestCache} {codec : Codec}

namespace Counted

variable (h : Counted configured s)

include h

theorem withManifests (manifests : ManifestCache) :
    Counted configured { s with publisherManifests := manifests } :=
  ⟨h.listed_eq, h.ne_zero, h.localPubKey_mem⟩

theorem blobStep (hstep : BlobStep codec now s named received s') : Counted configured s' := by
  cases hstep with
  | ignored manifests => exact h.withManifests _
  | revoked key coll manifests hfound =>
    exact (h.withManifests manifests).of_updates (revokePublisher_updates hfound)
  | stored key coll manifests list hfound =>
    exact (h.withManifests manifests).of_updates
      (storeList_updates codec (s := { s with publisherManifests := manifests }) hfound now list)

theorem cleanPublisher (key : PublicKey) : Counted configured (s.cleanPublisher key) := by
  rcases hfound : s.publisherLists[key]? with _ | coll
  · simp only [ValidatorList.cleanPublisher, hfound]
    exact h
  · exact h.of_updates (cleanPublisher_updates hfound)

theorem refreshPublisher (closeTime : ℕ) (key : PublicKey) :
    Counted configured (s.refreshPublisher codec closeTime key) := by
  rcases hfound : s.publisherLists[key]? with _ | coll
  · simp only [ValidatorList.refreshPublisher, hfound]
    exact h
  · exact h.of_updates (refreshPublisher_updates hfound closeTime)

theorem applyLists (manifest : String) (version : ℕ) (blobs : List (ℕ × ValidatorBlobInfo)) :
    Counted configured (s.applyLists codec manifest version blobs) := by
  unfold ValidatorList.applyLists
  split_ifs
  · have happlied : Counted configured (s.applyBlobs codec manifest blobs).2 := by
      rw [applyBlobs_snd]
      exact List.foldlRecOn blobs _ h fun s hs item _ =>
        hs.blobStep (applyListLocked_blobStep codec manifest s item)
    exact List.foldlRecOn _ _ happlied fun s hs key _ => hs.cleanPublisher key
  · exact h

theorem refreshPublishers (closeTime : ℕ) (publishers : List PublicKey) :
    Counted configured (publishers.foldl (ValidatorList.refreshPublisher codec closeTime) s) :=
  List.foldlRecOn _ _ h fun _ hs key _ => hs.refreshPublisher closeTime key

theorem refreshTrusted : Counted configured s.refreshTrusted :=
  ⟨h.listed_eq, h.ne_zero, h.localPubKey_mem⟩

end Counted

theorem occurrences_insert_empty (h : s.publisherLists[publisher]? = none)
    (status : PublisherStatus) (key : PublicKey) :
    occurrences { s with publisherLists := s.publisherLists.insert publisher (.empty status) } key =
      s.occurrences key := by
  have hlist : ∀ p, currentList
      { s with publisherLists := s.publisherLists.insert publisher (.empty status) } p =
        s.currentList p := by
    intro p
    unfold currentList
    rw [OrderedMap.getElem?_insert]
    split_ifs with heq
    · subst heq
      rw [h]
      rfl
    · rfl
  have hpublishers : publishers
      { s with publisherLists := s.publisherLists.insert publisher (.empty status) } =
        insert publisher s.publishers := by
    ext p
    rw [Finset.mem_insert, mem_publishers, mem_publishers, OrderedMap.getElem?_insert]
    by_cases heq : publisher = p
    · simp [heq]
    · simp [heq, Ne.symm heq]
  have hnotMem : publisher ∉ s.publishers := by
    simp [mem_publishers, h]
  unfold occurrences
  simp only [hpublishers, hlist]
  rw [Finset.sum_insert hnotMem, currentList, h]
  simp

namespace Counted

variable (h : Counted configured s)

include h

theorem loadPublishers (codec : Codec) (publisherKeys : List String) :
    Counted configured (s.loadPublishers codec publisherKeys).2 := by
  refine loadPublishers_rec codec publisherKeys h fun s key status hs hnone =>
    ⟨fun k hk => ?_, hs.ne_zero, hs.localPubKey_mem⟩
  rw [occurrences_insert_empty hnone]
  exact hs.listed_eq k hk

theorem insert_configured (hkey : key ∈ configured) (count : ℕ) :
    Counted configured { s with keyListings := s.keyListings.insert key count } := by
  have hlookup : ∀ k ∉ configured, (s.keyListings.insert key count)[k]? = s.keyListings[k]? := by
    intro k hk
    have hne : key ≠ k := fun heq => hk (heq ▸ hkey)
    rw [OrderedMap.getElem?_insert, if_neg hne]
  refine ⟨fun k hk => ?_, fun k hk => ?_, h.localPubKey_mem⟩
  · unfold listed
    rw [hlookup k hk]
    exact h.listed_eq k hk
  · rw [hlookup k hk]
    exact h.ne_zero k hk

theorem loadLocalKey {localSigningKey : Option PublicKey}
    (hlocal : ∀ key, localSigningKey.map s.validatorManifests.getMasterKey = some key →
      key ∈ configured) :
    Counted configured (s.loadLocalKey localSigningKey) := by
  have hmem : ∀ key, (localSigningKey.map s.validatorManifests.getMasterKey).or s.localPubKey =
      some key → key ∈ configured := by
    intro key hkey
    rcases Option.or_eq_some_iff.mp hkey with hkey | ⟨-, hkey⟩
    · exact hlocal key hkey
    · exact h.localPubKey_mem key hkey
  unfold ValidatorList.loadLocalKey
  rcases hkey : (localSigningKey.map s.validatorManifests.getMasterKey).or s.localPubKey with
    _ | key
  · exact ⟨h.listed_eq, h.ne_zero, nofun⟩
  · have hinsert := h.insert_configured (hmem key hkey) s.listThreshold
    exact ⟨hinsert.listed_eq, hinsert.ne_zero, fun k hk => hmem k (hkey.trans hk)⟩

theorem loadConfigKeys (localSigningKey : Option PublicKey) {configKeys : List String}
    (hconfig : ∀ entry ∈ configKeys, ∀ key, codec.parseConfigKey entry = some key →
      key ∈ configured) :
    Counted configured (s.loadConfigKeys codec localSigningKey configKeys).2 := by
  fun_induction ValidatorList.loadConfigKeys codec localSigningKey s configKeys with
  | case1 s => exact h
  | case2 s entry rest hnone => exact h
  | case3 s entry rest key hkey hskip ih =>
    exact ih h fun entry' hmem => hconfig entry' (List.mem_cons_of_mem _ hmem)
  | case4 s entry rest key hkey hskip ih =>
    have hinsert := h.insert_configured (hconfig entry List.mem_cons_self key hkey) s.listThreshold
    exact ih ⟨hinsert.listed_eq, hinsert.ne_zero, hinsert.localPubKey_mem⟩ fun entry' hmem =>
      hconfig entry' (List.mem_cons_of_mem _ hmem)

end Counted

theorem Counted.mono {configured' : Set PublicKey} (h : Counted configured s)
    (hsub : configured ⊆ configured') : Counted configured' s :=
  ⟨fun key hkey => h.listed_eq key fun hmem => hkey (hsub hmem),
    fun key hkey => h.ne_zero key fun hmem => hkey (hsub hmem),
    fun key hkey => hsub (h.localPubKey_mem key hkey)⟩

theorem Counted.load (h : Counted configured s) (localSigningKey : Option PublicKey)
    (configKeys publisherKeys : List String) (listThreshold : Option ℕ)
    (hlocal : ∀ key, localSigningKey.map s.validatorManifests.getMasterKey = some key →
      key ∈ configured)
    (hconfig : ∀ entry ∈ configKeys, ∀ key, codec.parseConfigKey entry = some key →
      key ∈ configured) :
    Counted configured
      (s.load codec localSigningKey configKeys publisherKeys listThreshold).2 := by
  have hpublishers := h.loadPublishers codec publisherKeys
  obtain ⟨-, hmanifests⟩ := loadPublishers_manifests codec s publisherKeys
  unfold ValidatorList.load
  rcases hload : s.loadPublishers codec publisherKeys with ⟨ok, s'⟩
  rw [hload] at hpublishers hmanifests
  cases ok with
  | false => exact hpublishers
  | true =>
    dsimp only
    rcases chooseThreshold s'.publisherLists.size listThreshold with _ | threshold
    · exact hpublishers
    · have hthreshold : Counted configured { s' with listThreshold := threshold } :=
        ⟨hpublishers.listed_eq, hpublishers.ne_zero, hpublishers.localPubKey_mem⟩
      refine (hthreshold.loadLocalKey ?_).loadConfigKeys localSigningKey hconfig
      intro key hkey
      rw [← hmanifests] at hlocal
      exact hlocal key hkey

theorem Counted.run (h : Counted configured s) (op : Op) :
    Counted (configured ∪ op.configures codec s) (op.run codec s) := by
  have hmono := h.mono (Set.subset_union_left (t := op.configures codec s))
  cases op with
  | load localSigningKey configKeys publisherKeys listThreshold =>
    exact hmono.load localSigningKey configKeys publisherKeys listThreshold
      (fun key hkey => .inr (.inl hkey))
      fun entry hmem key hkey => .inr (.inr ⟨entry, hmem, hkey⟩)
  | applyLists manifest version blobs => exact hmono.applyLists manifest version blobs
  | updateTrusted closeTime now publishers =>
    exact (hmono.refreshPublishers _ publishers).refreshTrusted

theorem counted_new (validatorManifests publisherManifests : ManifestCache) :
    Counted ∅ (new validatorManifests publisherManifests) where
  listed_eq key _ := by
    have hpublishers : (new validatorManifests publisherManifests).publishers = ∅ := by
      ext p
      simp [mem_publishers, new]
    rw [occurrences, hpublishers]
    simp [listed, new]
  ne_zero key _ := by
    simp [new]
  localPubKey_mem := nofun

theorem Reachable.counted {Allowed : ValidatorList → Op → Prop}
    (h : Reachable codec Allowed (.new validatorManifests publisherManifests) configured s) :
    Counted configured s := by
  induction h with
  | start => exact counted_new validatorManifests publisherManifests
  | step op before permitted allowed ih => exact ih.run op

theorem mem_foldl_insert {listings : List (PublicKey × ℕ)} {enough : PublicKey → ℕ → Bool}
    {trusted : Finset PublicKey} :
    key ∈ listings.foldl (fun trusted entry =>
        if enough entry.1 entry.2 then insert entry.1 trusted else trusted) trusted ↔
      key ∈ trusted ∨ ∃ entry ∈ listings, enough entry.1 entry.2 = true ∧ entry.1 = key := by
  induction listings generalizing trusted with
  | nil => simp
  | cons entry rest ih =>
    rw [List.foldl_cons, ih]
    by_cases henough : enough entry.1 entry.2 = true
    · simp only [henough, if_true, Finset.mem_insert, List.exists_mem_cons_iff, true_and]
      tauto
    · rw [if_neg henough]
      simp [henough]

theorem mem_refreshTrusted (s : ValidatorList) (key : PublicKey) :
    key ∈ s.refreshTrusted.trustedMasterKeys ↔
      ∃ count, s.keyListings[key]? = some count ∧ s.listedEnough key count = true := by
  unfold refreshTrusted
  rw [mem_foldl_insert, Finset.mem_filter]
  constructor
  · rintro (⟨-, hany⟩ | ⟨⟨k, count⟩, hmem, henough, rfl⟩)
    · exact Option.any_eq_true _ _ |>.mp hany
    · exact ⟨count, ExtTreeMap.mem_toList_iff_getElem?_eq_some.mp hmem, henough⟩
  · rintro ⟨count, hcount, henough⟩
    exact .inr ⟨(key, count), ExtTreeMap.mem_toList_iff_getElem?_eq_some.mpr hcount, henough, rfl⟩

/-- Trust goes by occurrences on the current lists. -/
theorem Counted.mem_trustedMasterKeys (h : Counted configured s)
    (hthreshold : 0 < s.listThreshold) (hkey : key ∉ configured) :
    key ∈ s.refreshTrusted.trustedMasterKeys ↔
      s.validatorManifests.revoked key = false ∧ s.listThreshold ≤ s.occurrences key := by
  rw [mem_refreshTrusted, ← h.listed_eq key hkey, listed]
  rcases s.keyListings[key]? with _ | count
  · simp only [reduceCtorEq, false_and, exists_false, Option.getD_none, false_iff, not_and]
    omega
  · simp [listedEnough, and_comm]

/-- No list names a key twice, a list in force came in before it expired, and a revoked
publisher has no lists. -/
structure Orderly (revoked : Bool) (coll : PublisherListCollection) : Prop where
  current_nodup : coll.current.list.Nodup
  available : coll.current.list ≠ [] → coll.status = .available ∧ revoked = false
  remaining : ∀ (sequence : ℕ) (pending : PublisherList),
    coll.remaining[sequence]? = some pending → pending.list.Nodup ∧ revoked = false

variable {revoked : Bool}

theorem orderly_empty (status : PublisherStatus) : Orderly revoked (.empty status) :=
  ⟨List.nodup_nil, fun h => absurd rfl h, fun sequence pending h => by
    simp [PublisherListCollection.empty] at h⟩

namespace Orderly

variable (h : Orderly revoked coll)

include h

theorem remaining_mono {remaining : ExtTreeMap ℕ PublisherList}
    (hsub : ∀ (sequence : ℕ) (pending : PublisherList), remaining[sequence]? = some pending →
      coll.remaining[sequence]? = some pending) :
    Orderly revoked { coll with remaining } :=
  ⟨h.current_nodup, h.available, fun sequence pending hpend =>
    h.remaining sequence pending (hsub sequence pending hpend)⟩

theorem clean : Orderly revoked (cleanPublisherCollection coll) := by
  refine h.remaining_mono fun sequence pending hpend => ?_
  have hkept := removeOvertaken_subset _ _ _ _ hpend
  rw [getElem?_filter_sequence] at hkept
  split_ifs at hkept
  exact hkept

theorem rotate (closeTime : ℕ) : Orderly revoked (coll.rotate closeTime) := by
  unfold PublisherListCollection.rotate
  rcases hready : (readyLists coll closeTime).getLast? with _ | ⟨sequence, pending⟩
  · exact h
  · obtain ⟨hpend, -⟩ := mem_remaining_of_mem_ready (List.mem_of_getLast? hready)
    obtain ⟨hnodup, hrevoked⟩ := h.remaining sequence pending hpend
    refine ⟨?_, fun _ => ⟨rfl, hrevoked⟩, fun sequence' pending' h' => ?_⟩
    · dsimp only
      split_ifs
      · exact List.nodup_nil
      · exact hnodup
    · dsimp only at h'
      rw [getElem?_foldl_erase] at h'
      split_ifs at h'
      exact h.remaining sequence' pending' h'

theorem refresh (closeTime : ℕ) : Orderly revoked (coll.refresh closeTime) := by
  have hrotated := h.rotate closeTime
  unfold PublisherListCollection.refresh
  dsimp only
  split_ifs
  · exact ⟨List.nodup_nil, fun hne => absurd rfl hne, hrotated.remaining⟩
  · exact hrotated

end Orderly

/-- A list that is not expired when it comes in, from a publisher that is not revoked. -/
structure Regular (codec : Codec) (revoked : Bool) (now : ℕ) (list : VerifiedList) : Prop where
  distinct : ((readValidators codec list.validators).map Prod.fst).Nodup
  unexpired : now < list.expiration
  unrevoked : revoked = false

/-- A list that is put in force or kept for later. -/
def ListDisposition.Stored (disposition : ListDisposition) : Prop :=
  disposition = .accepted ∨ disposition = .expired ∨ disposition = .pending

variable {list : VerifiedList}

theorem nodup_publisherList (h : Regular codec revoked now list) :
    (publisherList codec list).list.Nodup :=
  (List.perm_insertionSort _ _).nodup_iff.mpr h.distinct

theorem Orderly.receive (h : Orderly revoked coll)
    (hregular : ListDisposition.Stored (coll.disposition now list) →
      Regular codec revoked now list) : Orderly revoked (coll.receive codec now list) := by
  unfold PublisherListCollection.receive
  split
  · rename_i haccepted
    have hlist := hregular (.inl haccepted)
    refine ⟨?_, fun _ => ⟨rfl, hlist.unrevoked⟩, fun sequence pending hpend => ?_⟩
    · unfold PublisherListCollection.putInForce
      rcases hstored : coll.remaining[list.sequence]? with _ | pending
      · exact nodup_publisherList hlist
      · exact (h.remaining list.sequence pending hstored).1
    · unfold PublisherListCollection.putInForce at hpend
      rw [OrderedMap.getElem?_erase] at hpend
      split_ifs at hpend
      exact h.remaining sequence pending hpend
  · rename_i hexpired
    have hlist := hregular (.inr (.inl hexpired))
    unfold PublisherListCollection.disposition at hexpired
    split_ifs at hexpired with _ _ hle
    · exact absurd hle (not_le.mpr hlist.unexpired)
    · split at hexpired
      · cases hexpired
      · split_ifs at hexpired
  · rename_i hpend
    have hlist := hregular (.inr (.inr hpend))
    refine ⟨h.current_nodup, h.available, fun sequence pending hmem => ?_⟩
    unfold PublisherListCollection.putOff at hmem
    rw [OrderedMap.getElem?_insert] at hmem
    split_ifs at hmem
    · cases hmem
      exact ⟨nodup_publisherList hlist, hlist.unrevoked⟩
    · exact h.remaining sequence pending hmem
  · exact h

/-- The lists in blobs that are stored are regular. -/
def RegularBlobs (codec : Codec) (globalManifest : String) :
    ValidatorList → List (ℕ × ValidatorBlobInfo) → Prop
  | _, [] => True
  | s, item :: rest =>
    (∀ key list coll, s.received codec globalManifest item = some (key, list) →
      s.publisherLists[key]? = some coll →
      ListDisposition.Stored (coll.disposition item.1 list) →
      Regular codec (s.publisherManifests.revoked key) item.1 list) ∧
    RegularBlobs codec globalManifest (s.applyListLocked codec globalManifest item).2 rest

/-- A call in which every list that is stored is regular. -/
def Op.Regular (codec : Codec) (s : ValidatorList) : Op → Prop
  | .applyLists manifest version blobs =>
    version = 1 ∨ version = 2 → RegularBlobs codec manifest s blobs
  | _ => True

/-- Every publisher's collection is orderly. -/
def AllOrderly (s : ValidatorList) : Prop :=
  ∀ (publisher : PublicKey) (coll : PublisherListCollection),
    s.publisherLists[publisher]? = some coll →
      Orderly (s.publisherManifests.revoked publisher) coll

theorem AllOrderly.of_updates (h : AllOrderly s) (hupdates : Updates s s' publisher before after)
    (hafter : Orderly (s.publisherManifests.revoked publisher) after) : AllOrderly s' := by
  intro p coll hfound
  rw [hupdates.publisherManifests_eq]
  rw [hupdates.getElem? p] at hfound
  split_ifs at hfound with heq
  · cases hfound
    exact heq ▸ hafter
  · exact h p coll hfound

theorem AllOrderly.blobStep (h : AllOrderly s) (hstep : BlobStep codec now s named received s')
    (hregular : ∀ key list coll, received = some (key, list) →
      s.publisherLists[key]? = some coll →
      ListDisposition.Stored (coll.disposition now list) →
      Regular codec (s.publisherManifests.revoked key) now list) : AllOrderly s' := by
  cases hstep with
  | ignored named manifests hrevoked =>
    intro p coll hfound
    rw [hrevoked]
    exact h p coll hfound
  | revoked key coll manifests hfound hrevoked =>
    intro p coll' hfound'
    have hupdates := revokePublisher_updates (s := { s with publisherManifests := manifests })
      hfound
    rw [hupdates.getElem? p] at hfound'
    split_ifs at hfound' with heq
    · cases hfound'
      exact ⟨List.nodup_nil, fun hne => absurd rfl hne, fun sequence pending hpend => by
        simp at hpend⟩
    · rw [hupdates.publisherManifests_eq, hrevoked p, if_neg heq]
      exact h p coll' hfound'
  | stored key coll manifests list hfound hrevoked =>
    have hstart : AllOrderly { s with publisherManifests := manifests } := by
      intro p coll' hfound'
      rw [hrevoked p]
      exact h p coll' hfound'
    refine hstart.of_updates
      (storeList_updates codec (s := { s with publisherManifests := manifests }) hfound now list) ?_
    refine (hstart key coll hfound).receive fun hstored => ?_
    rw [hrevoked key]
    exact hregular key list coll rfl hfound hstored

theorem AllOrderly.applyBlobs (globalManifest : String) {blobs : List (ℕ × ValidatorBlobInfo)}
    (h : AllOrderly s) (hregular : RegularBlobs codec globalManifest s blobs) :
    AllOrderly (blobs.foldl (fun s item => (s.applyListLocked codec globalManifest item).2) s) := by
  induction blobs generalizing s with
  | nil => exact h
  | cons item rest ih =>
    obtain ⟨hitem, hrest⟩ := hregular
    exact ih (h.blobStep (applyListLocked_blobStep codec globalManifest s item) hitem) hrest

namespace AllOrderly

variable (h : AllOrderly s)

include h

theorem cleanPublisher (key : PublicKey) : AllOrderly (s.cleanPublisher key) := by
  rcases hfound : s.publisherLists[key]? with _ | coll
  · simp only [ValidatorList.cleanPublisher, hfound]
    exact h
  · exact h.of_updates (cleanPublisher_updates hfound) (h key coll hfound).clean

theorem refreshPublisher (closeTime : ℕ) (key : PublicKey) :
    AllOrderly (s.refreshPublisher codec closeTime key) := by
  rcases hfound : s.publisherLists[key]? with _ | coll
  · simp only [ValidatorList.refreshPublisher, hfound]
    exact h
  · exact h.of_updates (refreshPublisher_updates hfound closeTime)
      ((h key coll hfound).refresh closeTime)

theorem loadPublishers (codec : Codec) (publisherKeys : List String) :
    AllOrderly (s.loadPublishers codec publisherKeys).2 := by
  refine loadPublishers_rec codec publisherKeys h fun s key status hs _ p coll hp => ?_
  dsimp only at hp ⊢
  rw [OrderedMap.getElem?_insert] at hp
  split_ifs at hp
  · cases hp
    exact orderly_empty _
  · exact hs p coll hp

theorem load (localSigningKey : Option PublicKey)
    (configKeys publisherKeys : List String) (listThreshold : Option ℕ) :
    AllOrderly (s.load codec localSigningKey configKeys publisherKeys listThreshold).2 := by
  obtain ⟨hlists, hmanifests⟩ :=
    load_publishers codec s localSigningKey configKeys publisherKeys listThreshold
  have hpublishers := h.loadPublishers codec publisherKeys
  intro p coll hfound
  rw [hlists] at hfound
  rw [hmanifests, ← (loadPublishers_manifests codec s publisherKeys).1]
  exact hpublishers p coll hfound

theorem refreshPublishers (codec : Codec) (closeTime : ℕ) (publishers : List PublicKey) :
    AllOrderly (publishers.foldl (ValidatorList.refreshPublisher codec closeTime) s) :=
  List.foldlRecOn _ _ h fun _ hs key _ => hs.refreshPublisher closeTime key

theorem run {op : Op} (hregular : op.Regular codec s) : AllOrderly (op.run codec s) := by
  cases op with
  | load localSigningKey configKeys publisherKeys listThreshold =>
    exact h.load localSigningKey configKeys publisherKeys listThreshold
  | applyLists manifest version blobs =>
    unfold Op.run ValidatorList.applyLists
    dsimp only
    split_ifs with hversion
    · refine List.foldlRecOn _ _ ?_ fun s hs key _ => hs.cleanPublisher key
      rw [applyBlobs_snd]
      exact h.applyBlobs manifest (hregular hversion)
    · exact h
  | updateTrusted closeTime now publishers =>
    exact h.refreshPublishers codec (clampStaleLclCloseTime closeTime now) publishers

end AllOrderly

theorem Reachable.allOrderly
    (h : Reachable codec (Op.Regular codec) (.new validatorManifests publisherManifests)
      configured s) : AllOrderly s := by
  induction h with
  | start =>
    intro p coll hfound
    simp [new] at hfound
  | step op before permitted allowed ih => exact ih.run allowed

variable {closeTime : ℕ}

theorem refresh_unexpired (h : (coll.refresh closeTime).status = .available) :
    closeTime < (coll.refresh closeTime).current.validUntil := by
  unfold PublisherListCollection.refresh at h ⊢
  dsimp only at h ⊢
  split_ifs at h ⊢ with hexpired
  exact lt_of_not_ge fun hle => hexpired ⟨h, hle⟩

/-- The publishers, neither revoked nor with an expired list, on whose current list a key is. -/
def authorities (s : ValidatorList) (closeTime : ℕ) (key : PublicKey) : Finset PublicKey :=
  s.publishers.filter fun publisher =>
    !s.publisherManifests.revoked publisher &&
      s.publisherLists[publisher]?.any fun coll =>
        decide (key ∈ coll.current.list ∧ closeTime < coll.current.validUntil)

theorem AllOrderly.occurrences_eq_card (h : AllOrderly s)
    (hunexpired : ∀ (publisher : PublicKey) (coll : PublisherListCollection),
      s.publisherLists[publisher]? = some coll → coll.status = .available →
        closeTime < coll.current.validUntil) (key : PublicKey) :
    s.occurrences key = (s.authorities closeTime key).card := by
  unfold occurrences authorities
  rw [Finset.card_filter]
  refine Finset.sum_congr rfl fun publisher hmem => ?_
  obtain ⟨coll, hfound⟩ := mem_publishers.mp hmem
  have horderly := h publisher coll hfound
  rw [currentList_of_found hfound, hfound]
  by_cases hkey : key ∈ coll.current.list
  · obtain ⟨havailable, hrevoked⟩ := horderly.available (List.ne_nil_of_mem hkey)
    have hlt := hunexpired publisher coll hfound havailable
    rw [List.count_eq_one_of_mem horderly.current_nodup hkey]
    simp [hrevoked, hkey, hlt]
  · rw [List.count_eq_zero_of_not_mem hkey]
    simp [hkey]

theorem mem_trustedMasterKeys_iff (codec : Codec)
    (validatorManifests publisherManifests : ManifestCache) {configured : Set PublicKey}
    {s : ValidatorList}
    (hreachable : Reachable codec (Op.Regular codec) (.new validatorManifests publisherManifests)
      configured s)
    (closeTime now : ℕ) {publishers : List PublicKey}
    (hpublishers : publishers.Perm s.publisherLists.keys)
    (hthreshold : 0 < (s.updateTrusted codec closeTime now publishers).listThreshold)
    {key : PublicKey} (hkey : key ∉ configured) :
    key ∈ (s.updateTrusted codec closeTime now publishers).trustedMasterKeys ↔
      (s.updateTrusted codec closeTime now publishers).validatorManifests.revoked key = false ∧
      (s.updateTrusted codec closeTime now publishers).listThreshold ≤
        ((s.updateTrusted codec closeTime now publishers).authorities
          (clampStaleLclCloseTime closeTime now) key).card := by
  have hnodup : publishers.Nodup := hpublishers.nodup_iff.mpr
    ((OrderedMap.keys_pairwise_lt s.publisherLists).imp fun h => ne_of_lt h)
  -- only the trusted keys change after the publishers have been visited
  set closed := clampStaleLclCloseTime closeTime now
  set visited := publishers.foldl (refreshPublisher codec closed) s
  have hcounted : Counted configured visited :=
    hreachable.counted.refreshPublishers closed publishers
  have horderly : AllOrderly visited :=
    hreachable.allOrderly.refreshPublishers codec closed publishers
  have hunexpired : ∀ (publisher : PublicKey) (coll : PublisherListCollection),
      visited.publisherLists[publisher]? = some coll → coll.status = .available →
        closed < coll.current.validUntil := by
    intro publisher coll hfound havailable
    rw [getElem?_foldl_refreshPublisher closed hnodup] at hfound
    split_ifs at hfound with hmem
    · obtain ⟨before, -, rfl⟩ := Option.map_eq_some_iff.mp hfound
      exact refresh_unexpired havailable
    · refine absurd (hpublishers.mem_iff.mpr ?_) hmem
      exact ExtTreeMap.mem_keys.mpr (OrderedMap.mem_iff_exists.mpr ⟨coll, hfound⟩)
  have htrusted := hcounted.mem_trustedMasterKeys hthreshold hkey
  rw [horderly.occurrences_eq_card hunexpired] at htrusted
  exact htrusted

theorem Reachable.step_unconfigured {Allowed : ValidatorList → Op → Prop} {start : ValidatorList}
    (h : Reachable codec Allowed start ∅ s) (op : Op) (permitted : op.Permitted s)
    (allowed : Allowed s op) (hnone : op.configures codec s = ∅) :
    Reachable codec Allowed start ∅ (op.run codec s) := by
  simpa [hnone] using h.step op permitted allowed

theorem reachable_oneList (json : ListJson) (listThreshold : ℕ)
    (Allowed : ValidatorList → Op → Prop)
    (hload : Allowed (.new (.new 0) (.new 0)) (loadTwoPublishers listThreshold))
    (happly : Allowed ((loadTwoPublishers listThreshold).run (oneListCodec json)
      (.new (.new 0) (.new 0))) applyOneList) :
    Reachable (oneListCodec json) Allowed (.new (.new 0) (.new 0)) ∅
      (oneList json listThreshold) := by
  refine (Reachable.start.step_unconfigured (loadTwoPublishers listThreshold) trivial hload
    ?_).step_unconfigured applyOneList trivial happly rfl
  simp [Op.configures, loadTwoPublishers]

/-- A list with one key on it. -/
def singleJson : ListJson := ⟨some 1, some 100, none, some [⟨some "k", none⟩]⟩

/-- A list with one key on it twice. -/
def doubleJson : ListJson :=
  ⟨some 1, some 100, none, some [⟨some "k", none⟩, ⟨some "k", none⟩]⟩

/-- The list of a run with `singleJson` is regular. -/
theorem regular_applyListOf {manifest : String} (publisher : PublicKey)
    (hlist : s.received (oneListCodec singleJson) manifest (10, ⟨"blob", "signature", none⟩) =
      some (publisher, ⟨1, 0, 100, [⟨some "k", none⟩], by decide⟩))
    (hunrevoked : s.publisherManifests.revoked publisher = false) :
    (applyListOf manifest).Regular (oneListCodec singleJson) s := by
  refine fun _ => ⟨fun key list coll hrecv _ _ => ?_, trivial⟩
  rw [hlist] at hrecv
  cases hrecv
  exact ⟨by decide +kernel, by decide, hunrevoked⟩

/-- The lists after both publishers have sent theirs. -/
def twoLists : ValidatorList :=
  (applyListOf "other").run (oneListCodec singleJson) (oneList singleJson 2)

theorem mem_trustedMasterKeys_iff_twoLists :
    ((twoLists.updateTrusted (oneListCodec singleJson) 10 10 [keyOf 2, keyOf 1]).authorities
      (clampStaleLclCloseTime 10 10) (keyOf 4)) = {keyOf 1, keyOf 2} ∧
    keyOf 4 ∈
      (twoLists.updateTrusted (oneListCodec singleJson) 10 10
        [keyOf 2, keyOf 1]).trustedMasterKeys ∧
    keyOf 5 ∉
      (twoLists.updateTrusted (oneListCodec singleJson) 10 10
        [keyOf 2, keyOf 1]).trustedMasterKeys := by
  have hone := reachable_oneList singleJson 2 (Op.Regular (oneListCodec singleJson)) trivial
    (regular_applyListOf (keyOf 1) (by decide +kernel) (by decide +kernel))
  have hother : (applyListOf "other").Regular (oneListCodec singleJson) (oneList singleJson 2) :=
    regular_applyListOf (keyOf 2) (by decide +kernel) (by decide +kernel)
  have htwo : Reachable (oneListCodec singleJson) (Op.Regular (oneListCodec singleJson))
      (.new (.new 0) (.new 0)) ∅ twoLists :=
    hone.step_unconfigured (applyListOf "other") trivial hother rfl
  have hiff : ∀ key : PublicKey, key ∈ (twoLists.updateTrusted (oneListCodec singleJson) 10 10
      [keyOf 2, keyOf 1]).trustedMasterKeys ↔ _ := fun key =>
    mem_trustedMasterKeys_iff (oneListCodec singleJson) (.new 0) (.new 0) htwo
      10 10 (by decide +kernel) (by decide +kernel) (Set.notMem_empty _)
  have hauthorities : (twoLists.updateTrusted (oneListCodec singleJson) 10 10
      [keyOf 2, keyOf 1]).authorities (clampStaleLclCloseTime 10 10) (keyOf 4) =
        {keyOf 1, keyOf 2} := by decide +kernel
  rw [hiff, hiff, hauthorities]
  exact ⟨rfl, by decide +kernel, by decide +kernel⟩

/-- One publisher out of two is enough for a threshold of two if it names the key twice. -/
theorem trusted_by_one_publisher :
    Reachable (oneListCodec doubleJson) (fun _ _ => True) (.new (.new 0) (.new 0)) ∅
      (oneList doubleJson 2) ∧
    [keyOf 1, keyOf 2].Perm (oneList doubleJson 2).publisherLists.keys ∧
    keyOf 4 ∈ ((oneList doubleJson 2).updateTrusted (oneListCodec doubleJson) 10 10
      [keyOf 1, keyOf 2]).trustedMasterKeys ∧
    ((oneList doubleJson 2).updateTrusted (oneListCodec doubleJson) 10 10
      [keyOf 1, keyOf 2]).listThreshold = 2 ∧
    ((oneList doubleJson 2).updateTrusted (oneListCodec doubleJson) 10 10
      [keyOf 1, keyOf 2]).authorities (clampStaleLclCloseTime 10 10) (keyOf 4) = {keyOf 1} := by
  refine ⟨reachable_oneList doubleJson 2 _ trivial trivial, ?_, ?_, ?_, ?_⟩
  · decide +kernel
  · decide +kernel
  · decide +kernel
  · decide +kernel

end ValidatorList

end Quaxar.Validators
