import Quaxar.Validators.Manifest

/-!
# The manifest cache over its runs

`Consistent` says that the map from signing keys is the inverse of what the stored manifests
name, and that no key has both roles. Every manifest that comes out of `deserializeManifest` is
`WellFormed`, and storing one keeps the cache consistent.
-/

namespace Quaxar.Validators

open Protocol (PublicKey)
open Std (ExtTreeMap)

variable {masterKey : PublicKey}

/-- Only a revocation has no signing key, and no manifest signs with its master key. -/
structure Manifest.WellFormed (manifest : Manifest) : Prop where
  revoked_iff : manifest.revoked = true ↔ manifest.signingKey = none
  signingKey_ne : manifest.signingKey ≠ some manifest.masterKey

theorem deserializeSigningKey_spec {st : ManifestObject} {signingKey : Option PublicKey}
    (h : deserializeSigningKey st masterKey = some signingKey) :
    (Manifest.revokedSequence st.sequence = true ↔ signingKey = none) ∧
      signingKey ≠ some masterKey := by
  unfold deserializeSigningKey at h
  split_ifs at h with hrevoked hkey hkey
  · cases h
    simp [hrevoked]
  · obtain ⟨key, -, hsome⟩ := Option.bind_eq_some_iff.mp h
    split_ifs at hsome with hmaster
    cases hsome
    simp [hrevoked, hmaster]

theorem deserializeManifest_wellFormed {codec : ManifestCodec} {serialized : List UInt8}
    {manifest : Manifest} (h : deserializeManifest codec serialized = some manifest) :
    manifest.WellFormed := by
  unfold deserializeManifest at h
  split_ifs at h
  obtain ⟨st, -, h⟩ := Option.bind_eq_some_iff.mp h
  split_ifs at h
  obtain ⟨masterKey, -, h⟩ := Option.bind_eq_some_iff.mp h
  obtain ⟨domain, -, h⟩ := Option.bind_eq_some_iff.mp h
  obtain ⟨signingKey, hsigning, h⟩ := Option.bind_eq_some_iff.mp h
  cases h
  obtain ⟨hrevoked, hne⟩ := deserializeSigningKey_spec hsigning
  exact ⟨hrevoked, hne⟩

namespace ManifestCache

variable {codec : ManifestCodec} {cache : ManifestCache} {manifest : Manifest}
  {policy : ManifestRateLimitCapPolicy}

/-- A manifest that the cache accepts. -/
structure Accepts (cache : ManifestCache) (manifest : Manifest)
    (policy : ManifestRateLimitCapPolicy) : Prop where
  capacity : cache.manifests[manifest.masterKey]? = none → policy = .capped →
    cache.untrustedMasterKeys.card < cache.maxUntrustedCount
  newer : ∀ existing, cache.manifests[manifest.masterKey]? = some existing →
    existing.sequence < manifest.sequence
  masterKey_unused : cache.signingToMasterKeys[manifest.masterKey]? = none
  signingKey_unused : manifest.revoked = false → ∀ signingKey,
    manifest.signingKey = some signingKey →
      cache.signingToMasterKeys[signingKey]? = none ∧ cache.manifests[signingKey]? = none

theorem checkSigningKey_eq_none (h : cache.checkSigningKey manifest = none)
    (hrevoked : manifest.revoked = false) {signingKey : PublicKey}
    (hkey : manifest.signingKey = some signingKey) :
    cache.signingToMasterKeys[signingKey]? = none ∧ cache.manifests[signingKey]? = none := by
  unfold checkSigningKey at h
  rw [hrevoked, if_neg Bool.false_ne_true, hkey] at h
  dsimp only at h
  split_ifs at h with hsigning hmaster
  exact ⟨Option.not_isSome_iff_eq_none.mp hsigning, Option.not_isSome_iff_eq_none.mp hmaster⟩

theorem checkSigningKey_ne_accepted {disposition : ManifestDisposition}
    (h : cache.checkSigningKey manifest = some disposition) : disposition ≠ .accepted := by
  rintro rfl
  unfold checkSigningKey at h
  split at h
  · cases h
  · split at h
    · cases h
    · split_ifs at h
      · cases h
      · cases h

theorem applyManifestWithPolicy_cases (codec : ManifestCodec) (cache : ManifestCache)
    (manifest : Manifest) (policy : ManifestRateLimitCapPolicy) :
    (cache.applyManifestWithPolicy codec manifest policy =
      (.accepted, cache.store manifest policy) ∧ cache.Accepts manifest policy) ∨
    ∃ disposition, disposition ≠ .accepted ∧
      cache.applyManifestWithPolicy codec manifest policy = (disposition, cache) := by
  unfold applyManifestWithPolicy
  split_ifs with hcapacity hstale hverify hmaster
  · exact .inr ⟨.untrustedCapacity, nofun, rfl⟩
  · exact .inr ⟨.stale, nofun, rfl⟩
  · exact .inr ⟨.invalid, nofun, rfl⟩
  · exact .inr ⟨.badMasterKey, nofun, rfl⟩
  · rcases hsigning : cache.checkSigningKey manifest with _ | disposition
    · refine .inl ⟨rfl, ?_, ?_, by simpa using hmaster, fun hrevoked signingKey hkey =>
        checkSigningKey_eq_none hsigning hrevoked hkey⟩
      · intro hnone hcapped
        by_contra hfull
        exact hcapacity ⟨by rw [hnone]; rfl, hcapped, not_lt.mp hfull⟩
      · intro existing hexisting
        rw [hexisting] at hstale
        simpa using hstale
    · exact .inr ⟨disposition, checkSigningKey_ne_accepted hsigning, rfl⟩

/-- Nothing is newer than a revocation. -/
theorem Accepts.revoked_eq_false (h : cache.Accepts manifest policy) :
    cache.revoked manifest.masterKey = false := by
  rcases hstored : cache.manifests[manifest.masterKey]? with _ | existing
  · simp [revoked, hstored]
  · have hnewer := UInt32.lt_iff_toNat_lt.mp (h.newer existing hstored)
    have hmax : existing.sequence ≠ 0xFFFFFFFF := by
      intro heq
      rw [heq] at hnewer
      have hlt := manifest.sequence.toNat_lt
      change 4294967295 < _ at hnewer
      omega
    simpa [revoked, hstored, Manifest.revoked, Manifest.revokedSequence] using hmax

theorem revoked_store (cache : ManifestCache) (manifest : Manifest)
    (policy : ManifestRateLimitCapPolicy) (masterKey : PublicKey) :
    (cache.store manifest policy).revoked masterKey =
      if manifest.masterKey = masterKey then manifest.revoked else cache.revoked masterKey := by
  unfold revoked store
  rw [OrderedMap.getElem?_insert]
  split_ifs
  · rfl
  · rfl

structure Consistent (cache : ManifestCache) : Prop where
  wellFormed : ∀ (masterKey : PublicKey) (manifest : Manifest),
    cache.manifests[masterKey]? = some manifest →
    manifest.WellFormed ∧ manifest.masterKey = masterKey
  signing_iff : ∀ signingKey masterKey : PublicKey,
    cache.signingToMasterKeys[signingKey]? = some masterKey ↔
      ∃ manifest, cache.manifests[masterKey]? = some manifest ∧
        manifest.signingKey = some signingKey
  disjoint : ∀ key : PublicKey, cache.manifests[key]?.isSome = true →
    cache.signingToMasterKeys[key]? = none

theorem consistent_new (maxUntrustedCount : ℕ) : (new maxUntrustedCount).Consistent where
  wellFormed masterKey manifest h := by simp [new] at h
  signing_iff signingKey masterKey := by simp [new]
  disjoint key h := by simp [new] at h

theorem getElem?_withoutOldKey (h : cache.Consistent) (masterKey signingKey : PublicKey) :
    (cache.withoutOldKey masterKey)[signingKey]? =
      cache.signingToMasterKeys[signingKey]?.filter fun key => decide (key ≠ masterKey) := by
  unfold withoutOldKey
  rcases hold : cache.manifests[masterKey]?.bind Manifest.signingKey with _ | oldKey
  · -- no signing key leads to this master key
    rcases hkey : cache.signingToMasterKeys[signingKey]? with _ | key
    · rfl
    · obtain ⟨manifest, hmanifest, hsigning⟩ := (h.signing_iff signingKey key).mp hkey
      have hne : key ≠ masterKey := by
        rintro rfl
        rw [hmanifest, Option.bind_some, hsigning] at hold
        cases hold
      simp [Option.filter_some, hne]
  · obtain ⟨manifest, hmanifest, hsigning⟩ := Option.bind_eq_some_iff.mp hold
    have hback := (h.signing_iff oldKey masterKey).mpr ⟨manifest, hmanifest, hsigning⟩
    rw [OrderedMap.getElem?_erase]
    split_ifs with heq
    · subst heq
      simp [Option.filter_some, hback]
    · rcases hkey : cache.signingToMasterKeys[signingKey]? with _ | key
      · rfl
      · have hne : key ≠ masterKey := by
          rintro rfl
          obtain ⟨manifest', hmanifest', hsigning'⟩ := (h.signing_iff signingKey key).mp hkey
          rw [hmanifest] at hmanifest'
          cases hmanifest'
          rw [hsigning] at hsigning'
          exact heq (Option.some.inj hsigning')
        simp [Option.filter_some, hne]

theorem getElem?_store (h : cache.Consistent) (manifest : Manifest)
    (policy : ManifestRateLimitCapPolicy) (signingKey : PublicKey) :
    (cache.store manifest policy).signingToMasterKeys[signingKey]? =
      if manifest.signingKey = some signingKey then some manifest.masterKey
      else cache.signingToMasterKeys[signingKey]?.filter fun key =>
        decide (key ≠ manifest.masterKey) := by
  unfold store
  rcases hkey : manifest.signingKey with _ | newKey
  · simp [getElem?_withoutOldKey h]
  · dsimp only
    rw [OrderedMap.getElem?_insert, getElem?_withoutOldKey h]
    simp only [Option.some.injEq]

theorem store_consistent (h : cache.Consistent) (hmanifest : manifest.WellFormed)
    (haccepts : cache.Accepts manifest policy) : (cache.store manifest policy).Consistent := by
  have hlookup : ∀ key : PublicKey, (cache.store manifest policy).manifests[key]? =
      if manifest.masterKey = key then some manifest else cache.manifests[key]? :=
    fun key => OrderedMap.getElem?_insert _ _ _ _
  have hunused : ∀ signingKey, manifest.signingKey = some signingKey →
      cache.signingToMasterKeys[signingKey]? = none ∧ cache.manifests[signingKey]? = none := by
    intro signingKey hkey
    refine haccepts.signingKey_unused ?_ signingKey hkey
    rw [← Bool.not_eq_true, hmanifest.revoked_iff, hkey]
    simp
  refine ⟨fun masterKey stored hstored => ?_, fun signingKey masterKey => ?_, fun key hkey => ?_⟩
  · rw [hlookup] at hstored
    split_ifs at hstored with heq
    · cases hstored
      exact ⟨hmanifest, heq⟩
    · exact h.wellFormed masterKey stored hstored
  · rw [getElem?_store h, hlookup]
    by_cases hmaster : manifest.masterKey = masterKey
    · -- the master key of the new manifest
      subst hmaster
      by_cases hsigning : manifest.signingKey = some signingKey
      · simp [hsigning]
      · simp [hsigning, Option.filter_eq_some_iff]
    · rw [if_neg hmaster]
      by_cases hsigning : manifest.signingKey = some signingKey
      · rw [if_pos hsigning]
        refine iff_of_false (by simpa using hmaster) ?_
        rw [← h.signing_iff, (hunused signingKey hsigning).1]
        simp
      · rw [if_neg hsigning, ← h.signing_iff, Option.filter_eq_some_iff]
        simp [Ne.symm hmaster]
  · rw [getElem?_store h]
    rw [hlookup] at hkey
    by_cases hsigning : manifest.signingKey = some key
    · -- a new signing key is not a master key
      have hne : manifest.masterKey ≠ key := by
        rintro rfl
        exact hmanifest.signingKey_ne hsigning
      rw [if_neg hne, (hunused key hsigning).2] at hkey
      cases hkey
    · rw [if_neg hsigning]
      have hnone : cache.signingToMasterKeys[key]? = none := by
        split_ifs at hkey with hmaster
        · rw [← hmaster]
          exact haccepts.masterKey_unused
        · exact h.disjoint key hkey
      rw [hnone]
      rfl

/-- A serialized manifest that arrives, or a key that becomes trusted. -/
inductive Op
  | apply (serialized : List UInt8) (policy : ManifestRateLimitCapPolicy)
  | promote (masterKey : PublicKey)

def step (codec : ManifestCodec) (cache : ManifestCache) : Op → ManifestCache
  | .apply serialized policy =>
    match deserializeManifest codec serialized with
    | none => cache
    | some manifest => (cache.applyManifestWithPolicy codec manifest policy).2
  | .promote masterKey => cache.promoteToTrusted masterKey

def run (codec : ManifestCodec) (cache : ManifestCache) (ops : List Op) : ManifestCache :=
  ops.foldl (step codec) cache

/-- What a step can do to the cache. -/
theorem step_cases (codec : ManifestCodec) (cache : ManifestCache) (op : Op) :
    (∃ manifest policy, step codec cache op = cache.store manifest policy ∧ manifest.WellFormed ∧
      cache.Accepts manifest policy) ∨
    (∃ masterKey, step codec cache op = cache.promoteToTrusted masterKey) ∨
    step codec cache op = cache := by
  cases op with
  | promote masterKey => exact .inr (.inl ⟨masterKey, rfl⟩)
  | apply serialized policy =>
    rcases hmanifest : deserializeManifest codec serialized with _ | manifest
    · refine .inr (.inr ?_)
      simp only [step, hmanifest]
    · simp only [step, hmanifest]
      rcases applyManifestWithPolicy_cases codec cache manifest policy with
        ⟨hstore, haccepts⟩ | ⟨disposition, -, hsame⟩
      · rw [hstore]
        exact .inl ⟨manifest, policy, rfl, deserializeManifest_wellFormed hmanifest, haccepts⟩
      · rw [hsame]
        exact .inr (.inr rfl)

variable (codec)

theorem step_consistent (h : cache.Consistent) (op : Op) : (step codec cache op).Consistent := by
  rcases step_cases codec cache op with ⟨manifest, policy, hstep, hmanifest, haccepts⟩ |
    ⟨masterKey, hstep⟩ | hstep
  · rw [hstep]
    exact store_consistent h hmanifest haccepts
  · rw [hstep]
    exact ⟨h.wellFormed, h.signing_iff, h.disjoint⟩
  · rw [hstep]
    exact h

theorem run_consistent (h : cache.Consistent) (ops : List Op) :
    (run codec cache ops).Consistent := by
  induction ops generalizing cache with
  | nil => exact h
  | cons op ops ih => exact ih (step_consistent codec h op)

variable {stored : Manifest}

/-- A stored manifest is only replaced by a newer one. -/
theorem step_sequence_le (op : Op) (h : cache.manifests[masterKey]? = some stored) :
    ∃ stored', (step codec cache op).manifests[masterKey]? = some stored' ∧
      stored.sequence ≤ stored'.sequence := by
  rcases step_cases codec cache op with ⟨manifest, policy, hstep, -, haccepts⟩ |
    ⟨masterKey, hstep⟩ | hstep
  · have hlookup : (step codec cache op).manifests[masterKey]? =
        if manifest.masterKey = masterKey then some manifest else cache.manifests[masterKey]? := by
      rw [hstep]
      exact OrderedMap.getElem?_insert _ _ _ _
    rw [hlookup]
    split_ifs with heq
    · subst heq
      exact ⟨manifest, rfl, UInt32.le_of_lt (haccepts.newer stored h)⟩
    · exact ⟨stored, h, UInt32.le_refl _⟩
  · rw [hstep]
    exact ⟨stored, h, UInt32.le_refl _⟩
  · rw [hstep]
    exact ⟨stored, h, UInt32.le_refl _⟩

theorem run_sequence_le (ops : List Op) (h : cache.manifests[masterKey]? = some stored) :
    ∃ stored', (run codec cache ops).manifests[masterKey]? = some stored' ∧
      stored.sequence ≤ stored'.sequence := by
  induction ops generalizing cache stored with
  | nil => exact ⟨stored, h, UInt32.le_refl _⟩
  | cons op ops ih =>
    obtain ⟨stored₁, h₁, hle₁⟩ := step_sequence_le codec op h
    obtain ⟨stored₂, h₂, hle₂⟩ := ih h₁
    exact ⟨stored₂, h₂, UInt32.le_trans hle₁ hle₂⟩

/-- No sequence number is above the one of a revocation. -/
theorem run_revoked (ops : List Op) (h : cache.revoked masterKey = true) :
    (run codec cache ops).revoked masterKey = true := by
  obtain ⟨stored, hstored, hrevoked⟩ : ∃ stored, cache.manifests[masterKey]? = some stored ∧
      stored.revoked = true := by
    simpa [revoked, Option.any_eq_true] using h
  obtain ⟨stored', hstored', hle⟩ := run_sequence_le codec ops hstored
  have hmax : stored.sequence = 0xFFFFFFFF := by
    simpa [Manifest.revoked, Manifest.revokedSequence] using hrevoked
  have hmax' : stored'.sequence = 0xFFFFFFFF := by
    rw [hmax, UInt32.le_iff_toNat_le] at hle
    have hlt := stored'.sequence.toNat_lt
    apply UInt32.toNat_inj.mp
    change _ = 4294967295
    change 4294967295 ≤ _ at hle
    omega
  rw [revoked, hstored']
  simp [Manifest.revoked, Manifest.revokedSequence, hmax']

theorem step_card_le (op : Op) (h : cache.untrustedMasterKeys.card ≤ cache.maxUntrustedCount) :
    (step codec cache op).untrustedMasterKeys.card ≤
        (step codec cache op).maxUntrustedCount ∧
      (step codec cache op).maxUntrustedCount = cache.maxUntrustedCount := by
  rcases step_cases codec cache op with ⟨manifest, policy, hstep, -, haccepts⟩ |
    ⟨masterKey, hstep⟩ | hstep
  · rw [hstep]
    refine ⟨?_, rfl⟩
    unfold store
    split_ifs with hnew huncapped
    · have hlt := haccepts.capacity (by simpa using hnew.1) hnew.2
      exact (Finset.card_insert_le _ _).trans hlt
    · exact (Finset.card_le_card (Finset.erase_subset _ _)).trans h
    · exact h
  · rw [hstep]
    exact ⟨(Finset.card_le_card (Finset.erase_subset _ _)).trans h, rfl⟩
  · rw [hstep]
    exact ⟨h, rfl⟩

theorem run_card_le (ops : List Op) (h : cache.untrustedMasterKeys.card ≤ cache.maxUntrustedCount) :
    (run codec cache ops).untrustedMasterKeys.card ≤ cache.maxUntrustedCount := by
  induction ops generalizing cache with
  | nil => exact h
  | cons op ops ih =>
    obtain ⟨hcard, hcap⟩ := step_card_le codec op h
    exact (ih hcard).trans hcap.le

/-- Whatever arrives in whatever order, signing keys and unrevoked master keys correspond one to
one and the roles stay apart, sequence numbers never decrease, a revocation is final and the
untrusted keys stay within their cap. -/
theorem manifestCache_bijection (codec : ManifestCodec) (maxUntrustedCount : ℕ)
    (ops ops' : List Op) :
    let cache := run codec (new maxUntrustedCount) ops
    let cache' := run codec cache ops'
    (∀ signingKey masterKey : PublicKey,
      cache.signingToMasterKeys[signingKey]? = some masterKey ↔
        ∃ manifest, cache.manifests[masterKey]? = some manifest ∧ manifest.revoked = false ∧
          manifest.signingKey = some signingKey) ∧
    (∀ key : PublicKey, ¬ (cache.manifests[key]?.isSome = true ∧
      cache.signingToMasterKeys[key]?.isSome = true)) ∧
    (∀ (masterKey : PublicKey) (manifest : Manifest), cache.manifests[masterKey]? = some manifest →
      ∃ manifest', cache'.manifests[masterKey]? = some manifest' ∧
        manifest.sequence ≤ manifest'.sequence) ∧
    (∀ masterKey : PublicKey, cache.revoked masterKey = true → cache'.revoked masterKey = true) ∧
    cache.untrustedMasterKeys.card ≤ maxUntrustedCount := by
  intro cache cache'
  have hcons : cache.Consistent := run_consistent codec (consistent_new maxUntrustedCount) ops
  refine ⟨fun signingKey masterKey => ?_, fun key hkey => ?_, fun masterKey manifest hmanifest =>
    run_sequence_le codec ops' hmanifest, fun masterKey hrevoked => run_revoked codec ops' hrevoked,
    run_card_le codec ops (Nat.zero_le _)⟩
  · rw [hcons.signing_iff]
    constructor
    · rintro ⟨manifest, hmanifest, hsigning⟩
      refine ⟨manifest, hmanifest, ?_, hsigning⟩
      rw [← Bool.not_eq_true, (hcons.wellFormed masterKey manifest hmanifest).1.revoked_iff,
        hsigning]
      simp
    · rintro ⟨manifest, hmanifest, -, hsigning⟩
      exact ⟨manifest, hmanifest, hsigning⟩
  · rw [hcons.disjoint key hkey.1] at hkey
    exact Bool.false_ne_true hkey.2

/-- No replay and no rollback: a manifest that is accepted after another of its master key, whatever
else has arrived, has a higher sequence number. -/
theorem accepted_is_newer (cache : ManifestCache) (ops : List Op) {first second : Manifest}
    (policy policy' : ManifestRateLimitCapPolicy)
    (hfirst : (cache.applyManifestWithPolicy codec first policy).1 = .accepted)
    (hsecond : ((run codec (cache.applyManifestWithPolicy codec first policy).2
      ops).applyManifestWithPolicy codec second policy').1 = .accepted)
    (hkey : second.masterKey = first.masterKey) : first.sequence < second.sequence := by
  rcases applyManifestWithPolicy_cases codec cache first policy with ⟨heq, -⟩ | ⟨_, hne, heq⟩
  · rw [heq] at hsecond
    have hstored : (cache.store first policy).manifests[first.masterKey]? = some first := by
      simp [store]
    obtain ⟨stored, hfound, hstored⟩ := run_sequence_le codec ops hstored
    rcases applyManifestWithPolicy_cases codec (run codec (cache.store first policy) ops) second
      policy' with ⟨-, haccepts⟩ | ⟨_, hne, heq⟩
    · exact UInt32.lt_of_le_of_lt hstored (haccepts.newer stored (hkey ▸ hfound))
    · exact absurd (by rw [← hsecond, heq]) hne
  · exact absurd (by rw [← hfirst, heq]) hne

/-- The bytes of a manifest are its sequence number, for which there is a signing key. -/
def sampleCodec : ManifestCodec where
  parseManifestStobject
    | [n] => some ⟨(keyOf 0).data, [], n.toUInt32, 0, none, some (keyOf n).data, some []⟩
    | _ => none
  verifyStObject _ _ _ := true

def sampleManifest (n : UInt8) : Manifest := ⟨[n], keyOf 0, some (keyOf n), n.toUInt32, ""⟩

/-- An undecodable manifest, a replayed one and a promotion. -/
def sampleOps : List Op := [.apply [] .capped, .apply [1] .uncapped, .promote (keyOf 0)]

theorem accepted_is_newer_sample :
    (((ManifestCache.new 5).applyManifestWithPolicy sampleCodec (sampleManifest 1) .capped).1 =
      .accepted) ∧
    ((run sampleCodec ((ManifestCache.new 5).applyManifestWithPolicy sampleCodec
      (sampleManifest 1) .capped).2 sampleOps).applyManifestWithPolicy sampleCodec
        (sampleManifest 2) .capped).1 = .accepted ∧
    (sampleManifest 1).sequence < (sampleManifest 2).sequence := by
  refine ⟨by decide +kernel, by decide +kernel, ?_⟩
  exact accepted_is_newer sampleCodec (.new 5) sampleOps .capped .capped (by decide +kernel)
    (by decide +kernel) rfl

end ManifestCache

end Quaxar.Validators
