import Mathlib.Data.List.AList
import Mathlib.Logic.Relation
import Mathlib.Tactic

/-!
# A cache of shared objects

Entries of a `TaggedCache` hold their objects by strong or weak pointers. A sweep makes old
entries weak while somebody else holds their objects, and drops them otherwise. A `System` is
a cache with the strong pointers outside of it; every lock section is one step.
-/

namespace Quaxar.TaggedCache

inductive CachePointer (O : Type) where
  | strong (object : O)
  | weak (object : O)
deriving DecidableEq

namespace CachePointer

variable {O : Type}

@[simp]
def isStrong : CachePointer O → Bool
  | strong _ => true
  | weak _ => false

@[simp]
def object : CachePointer O → O
  | strong object => object
  | weak object => object

end CachePointer

structure ValueEntry (O : Type) where
  ptr : CachePointer O
  lastAccess : ℤ

structure TaggedCacheState (K O : Type) where
  cacheCount : ℕ
  cache : AList fun _ : K => ValueEntry O
  hits : ℕ
  misses : ℕ

/-- The pointers are the strong ones outside of the cache. One that a call returned has its key. -/
structure System (K O : Type) extends TaggedCacheState K O where
  pointers : List (Option K × O)

variable {K O : Type} [DecidableEq K]

def strongCount (cache : AList fun _ : K => ValueEntry O) : ℕ :=
  cache.entries.countP fun e => e.2.ptr.isStrong

def strongAt (cache : AList fun _ : K => ValueEntry O) (key : K) : ℕ :=
  ((cache.lookup key).any fun e => e.ptr.isStrong).toNat

theorem strongCount_eq_erase (cache : AList fun _ : K => ValueEntry O) (key : K) :
    strongCount cache = strongCount (cache.erase key) + strongAt cache key := by
  obtain ⟨l, hl⟩ := cache
  change l.countP _ = (l.kerase key).countP _ + ((l.dlookup key).any _).toNat
  clear hl
  induction l with
  | nil => rfl
  | cons e l ih =>
    obtain ⟨k, e⟩ := e
    by_cases hk : key = k
    · subst hk
      rw [show List.kerase key (⟨key, e⟩ :: l) = l from List.kerase_cons_eq rfl,
        List.dlookup_cons_eq, List.countP_cons, Option.any_some]
      cases e.ptr.isStrong <;> rfl
    · rw [List.kerase_cons_ne hk, List.dlookup_cons_ne _ _ hk, List.countP_cons, List.countP_cons,
        ih]
      omega

theorem strongCount_insert (cache : AList fun _ : K => ValueEntry O) (key : K) (e : ValueEntry O) :
    strongCount (cache.insert key e) = strongCount (cache.erase key) + e.ptr.isStrong.toNat := by
  rw [strongCount, AList.entries_insert, List.countP_cons]
  cases e.ptr.isStrong <;> rfl

variable [DecidableEq O]

namespace System

def new : System K O := ⟨⟨0, ∅, 0, 0⟩, []⟩

def heldOutside (s : System K O) (o : O) : ℕ := s.pointers.countP fun p => p.2 = o

def useCount (s : System K O) (o : O) : ℕ :=
  s.cache.entries.countP (fun e => e.2.ptr = .strong o) + s.heldOutside o

/-- The entry of `key` holds `o`, and so does the caller. -/
def share (now : ℤ) (key : K) (o : O) (s : System K O) : System K O :=
  { s with
    cache := s.cache.insert key ⟨.strong o, now⟩
    pointers := (some key, o) :: s.pointers }

def initialFetch (now : ℤ) (key : K) (s : System K O) : Option O × System K O :=
  match s.cache.lookup key with
  | none => (none, s)
  | some ⟨.strong o, _⟩ => (some o, { s.share now key o with hits := s.hits + 1 })
  | some ⟨.weak o, _⟩ =>
    if 0 < s.useCount o then
      (some o, { s.share now key o with cacheCount := s.cacheCount + 1 })
    else (none, { s with cache := s.cache.erase key })

def fetch (now : ℤ) (key : K) (s : System K O) : Option O × System K O :=
  match s.initialFetch now key with
  | (none, s) => (none, { s with misses := s.misses + 1 })
  | (some o, s) => (some o, s)

/-- The second lock section of `fetch_with`. The pointer to `created` is returned or dropped. -/
def storeCreated (now : ℤ) (key : K) (created : O) (s : System K O) : Option O × System K O :=
  let s := { s with misses := s.misses + 1, pointers := s.pointers.erase (none, created) }
  match s.cache.lookup key with
  | some ⟨.strong o, _⟩ => (some o, s.share now key o)
  | some ⟨.weak o, _⟩ => (none, { s with cache := s.cache.insert key ⟨.weak o, now⟩ })
  | none => (some created, { s.share now key created with cacheCount := s.cacheCount + 1 })

/-- `between` is what other threads do while the handler runs. -/
def fetchWith (now now' : ℤ) (key : K) (handler : Option O) (between : System K O → System K O)
    (s : System K O) : Option O × System K O :=
  match s.initialFetch now key, handler with
  | (some o, s), _ => (some o, s)
  | (none, s), none => (none, between s)
  | (none, s), some created => (between s).storeCreated now' key created

/-- The pointer `data` of the client is replaced by the one that is returned. -/
def canonicalizeReplaceClient (now : ℤ) (key : K) (data : O) (s : System K O) :
    Bool × System K O :=
  let dropped := { s with pointers := s.pointers.erase (none, data) }
  match s.cache.lookup key with
  | some ⟨.strong o, _⟩ => (true, dropped.share now key o)
  | some ⟨.weak o, _⟩ =>
    (0 < s.useCount o, { dropped.share now key (if 0 < s.useCount o then o else data) with
      cacheCount := s.cacheCount + 1 })
  | none => (false, { dropped.share now key data with cacheCount := s.cacheCount + 1 })

def touchIfExists (now : ℤ) (key : K) (s : System K O) : Bool × System K O :=
  match s.cache.lookup key with
  | some e =>
    (true, { s with hits := s.hits + 1, cache := s.cache.insert key { e with lastAccess := now } })
  | none => (false, { s with misses := s.misses + 1 })

/-- Drop the entry of an object without strong pointers. -/
def removeExpired (key : K) (o : O) (s : System K O) : System K O :=
  if s.useCount o = 0 then { s with cache := s.cache.erase key } else s

/-- One entry of `sweep_value_partition`, and whether it counts for `cache_removals`. A strong
pointer that is removed lives on until the sweep is over. -/
def sweepEntry (whenExpire : ℤ) (key : K) (s : System K O) : ℕ × System K O :=
  match s.cache.lookup key with
  | none => (0, s)
  | some ⟨.weak o, _⟩ => (0, s.removeExpired key o)
  | some ⟨.strong o, lastAccess⟩ =>
    if lastAccess ≤ whenExpire then
      (1, if s.useCount o = 1 then
          { s with cache := s.cache.erase key, pointers := (none, o) :: s.pointers }
        else { s with cache := s.cache.insert key ⟨.weak o, lastAccess⟩ })
    else (0, s)

def sweepEntries (whenExpire : ℤ) : List K → System K O → ℕ × System K O
  | [], s => (0, s)
  | key :: keys, s =>
    let (removed, s) := s.sweepEntry whenExpire key
    let (rest, s) := sweepEntries whenExpire keys s
    (removed + rest, s)

/-- The entries come in any order. -/
def sweep (whenExpire : ℤ) (order : List K) (s : System K O) : System K O :=
  let (removed, s) := s.sweepEntries whenExpire order
  { s with cacheCount := s.cacheCount - removed }

/-- `del` with `valid`. -/
def del (key : K) (s : System K O) : Bool × System K O :=
  match s.cache.lookup key with
  | none => (false, s)
  | some ⟨.strong o, lastAccess⟩ =>
    let s := { s with
      cacheCount := s.cacheCount - 1, cache := s.cache.insert key ⟨.weak o, lastAccess⟩ }
    (true, s.removeExpired key o)
  | some ⟨.weak o, _⟩ => (false, s.removeExpired key o)

/-- The lock sections, and what is done with the pointers outside. -/
inductive Step (s : System K O) : System K O → Prop
  | acquire (o : O) : Step s { s with pointers := (none, o) :: s.pointers }
  | clone {p : Option K × O} : p ∈ s.pointers → Step s { s with pointers := p :: s.pointers }
  | drop (p : Option K × O) : Step s { s with pointers := s.pointers.erase p }
  | fetch (now : ℤ) (key : K) : Step s (s.fetch now key).2
  | fetchWith (now : ℤ) (key : K) : Step s (s.initialFetch now key).2
  | storeCreated (now : ℤ) (key : K) {created : O} : (none, created) ∈ s.pointers →
      Step s (s.storeCreated now key created).2
  | canonicalizeReplaceClient (now : ℤ) (key : K) {data : O} : (none, data) ∈ s.pointers →
      Step s (s.canonicalizeReplaceClient now key data).2
  | touchIfExists (now : ℤ) (key : K) : Step s (s.touchIfExists now key).2
  | sweep (whenExpire : ℤ) {order : List K} : order.Perm s.cache.keys →
      Step s (s.sweep whenExpire order)
  | del (key : K) : Step s (s.del key).2

variable {s s' s'' : System K O} {key : K} {o : O} {e e' : ValueEntry O} {n n' : ℕ}

/-- From `s` to `s'` no entry loses an object that is held outside, and `n` entries cease to be
strong. -/
structure Swept (s s' : System K O) (n : ℕ) : Prop where
  pointers : s.pointers.Sublist s'.pointers
  returned : ∀ key o, (some key, o) ∈ s'.pointers → (some key, o) ∈ s.pointers
  kept : ∀ key e, s.cache.lookup key = some e → 0 < s.heldOutside e.ptr.object →
    ∃ e', s'.cache.lookup key = some e' ∧ e'.ptr.object = e.ptr.object
  count : strongCount s'.cache + n = strongCount s.cache

theorem Swept.refl (s : System K O) : Swept s s 0 :=
  ⟨.refl _, fun _ _ h => h, fun _ e he _ => ⟨e, he, rfl⟩, rfl⟩

theorem Swept.trans (h : Swept s s' n) (h' : Swept s' s'' n') : Swept s s'' (n + n') where
  pointers := h.pointers.trans h'.pointers
  returned key o ho := h.returned key o (h'.returned key o ho)
  kept key e he hheld := by
    obtain ⟨e', he', hobj⟩ := h.kept key e he hheld
    rw [← hobj] at hheld ⊢
    exact h'.kept key e' he' (hheld.trans_le h.pointers.countP_le)
  count := by
    have := h.count
    have := h'.count
    omega

theorem swept_erase (he : s.cache.lookup key = some e) (hfree : s.heldOutside e.ptr.object = 0)
    (hcache : s'.cache = s.cache.erase key) (hpointers : s.pointers.Sublist s'.pointers)
    (hreturned : ∀ key o, (some key, o) ∈ s'.pointers → (some key, o) ∈ s.pointers) :
    Swept s s' e.ptr.isStrong.toNat where
  pointers := hpointers
  returned := hreturned
  kept k e' he' hheld := by
    have hk : k ≠ key := by
      rintro rfl
      cases he.symm.trans he'
      exact hheld.ne' hfree
    exact ⟨e', by rw [hcache, AList.lookup_erase_ne hk, he'], rfl⟩
  count := by
    rw [hcache, strongCount_eq_erase s.cache key, strongAt, he]
    rfl

theorem swept_insert (he : s.cache.lookup key = some e) (hcache : s'.cache = s.cache.insert key e')
    (hobj : e'.ptr.object = e.ptr.object) (hpointers : s'.pointers = s.pointers)
    (hn : e'.ptr.isStrong.toNat + n = e.ptr.isStrong.toNat) : Swept s s' n where
  pointers := hpointers ▸ .refl _
  returned _ _ ho := hpointers ▸ ho
  kept k e₁ he₁ hheld := by
    rw [hcache]
    by_cases hk : k = key
    · subst hk
      cases he.symm.trans he₁
      exact ⟨e', AList.lookup_insert _, hobj⟩
    · exact ⟨e₁, by rw [AList.lookup_insert_ne hk, he₁], rfl⟩
  count := by
    rw [hcache, strongCount_insert, strongCount_eq_erase s.cache key, strongAt, he, add_assoc, hn]
    rfl

theorem swept_removeExpired (he : s.cache.lookup key = some e) (hweak : e.ptr = .weak o) :
    Swept s (s.removeExpired key o) 0 := by
  unfold removeExpired
  split
  next hfree =>
    have hs : Swept s { s with cache := s.cache.erase key } _ := swept_erase he
      (by rw [hweak]; exact (Nat.add_eq_zero_iff.mp hfree).2) rfl (.refl _) fun _ _ ho => ho
    rwa [hweak] at hs
  next => exact .refl s

theorem swept_sweepEntry (whenExpire : ℤ) (key : K) (s : System K O) :
    Swept s (s.sweepEntry whenExpire key).2 (s.sweepEntry whenExpire key).1 := by
  unfold sweepEntry
  split
  next => exact .refl s
  next o t he => exact swept_removeExpired he rfl
  next o t he =>
    split
    next =>
      split
      next hone =>
        -- the one strong pointer is that of the entry
        have hentry : 0 < s.cache.entries.countP fun e => e.2.ptr = .strong o :=
          List.countP_pos_iff.mpr ⟨_, AList.mem_lookup_iff.mp he, by simp⟩
        have hfree : s.heldOutside o = 0 := by
          rw [useCount] at hone
          omega
        exact swept_erase he hfree rfl (List.sublist_cons_self _ _) (by simp)
      next => exact swept_insert he rfl rfl rfl rfl
    next => exact .refl s

theorem swept_sweepEntries (whenExpire : ℤ) (keys : List K) (s : System K O) :
    Swept s (s.sweepEntries whenExpire keys).2 (s.sweepEntries whenExpire keys).1 := by
  induction keys generalizing s with
  | nil => exact .refl s
  | cons key keys ih => exact (swept_sweepEntry whenExpire key s).trans (ih _)

theorem cacheCount_removeExpired (key : K) (o : O) (s : System K O) :
    (s.removeExpired key o).cacheCount = s.cacheCount := by
  unfold removeExpired
  split <;> rfl

theorem cacheCount_sweepEntries (whenExpire : ℤ) (keys : List K) (s : System K O) :
    (s.sweepEntries whenExpire keys).2.cacheCount = s.cacheCount := by
  induction keys generalizing s with
  | nil => rfl
  | cons key keys ih =>
    have hentry : (s.sweepEntry whenExpire key).2.cacheCount = s.cacheCount := by
      unfold sweepEntry
      split
      next => rfl
      next => exact cacheCount_removeExpired ..
      next => split_ifs <;> rfl
    exact (ih _).trans hentry

/-- What calls returned for a key is the object of its entry, and the counter is right. -/
structure Consistent (s : System K O) : Prop where
  same : ∀ key o, (some key, o) ∈ s.pointers →
    ∃ e, s.cache.lookup key = some e ∧ e.ptr.object = o
  counted : s.cacheCount = strongCount s.cache

omit [DecidableEq K] in
theorem heldOutside_pos {k : Option K} (h : (k, o) ∈ s.pointers) : 0 < s.heldOutside o :=
  List.countP_pos_iff.mpr ⟨_, h, by simp⟩

namespace Consistent

variable (h : s.Consistent)

include h

theorem swept (hs : Swept s s' n) (hcount : s'.cacheCount = s.cacheCount - n) :
    s'.Consistent where
  same key o ho := by
    replace ho := hs.returned key o ho
    obtain ⟨e, he, rfl⟩ := h.same key o ho
    exact hs.kept key e he (heldOutside_pos ho)
  counted := by
    rw [hcount, h.counted, ← hs.count, Nat.add_sub_cancel]

theorem share {now : ℤ} (hcache : s'.cache = s.cache.insert key ⟨.strong o, now⟩)
    (hpointers : s'.pointers ⊆ (some key, o) :: s.pointers)
    (hsame : ∀ e ∈ s.cache.lookup key, 0 < s.heldOutside e.ptr.object → e.ptr.object = o)
    (hcount : s'.cacheCount + strongAt s.cache key = s.cacheCount + 1) : s'.Consistent where
  same k o' ho' := by
    rw [hcache]
    have hp := List.mem_cons.mp (hpointers ho')
    by_cases hk : k = key
    · subst hk
      refine ⟨_, AList.lookup_insert _, ?_⟩
      rcases hp with hp | hp
      · exact (congrArg Prod.snd hp).symm
      · obtain ⟨e, he, rfl⟩ := h.same k o' hp
        exact (hsame e he (heldOutside_pos hp)).symm
    · rw [AList.lookup_insert_ne hk]
      exact h.same k o' (hp.resolve_left fun heq => hk (Option.some.inj (congrArg Prod.fst heq)))
  counted := by
    have hbefore := strongCount_eq_erase s.cache key
    rw [← h.counted] at hbefore
    rw [hcache, strongCount_insert, CachePointer.isStrong, Bool.toNat_true]
    omega

theorem initialFetch (now : ℤ) (key : K) : (s.initialFetch now key).2.Consistent := by
  unfold System.initialFetch
  split
  next => exact h
  next o t he => exact h.share rfl (.refl _) (by simp [he]) (by simp [he, strongAt, System.share])
  next o t he =>
    split
    next => exact h.share rfl (.refl _) (by simp [he]) (by simp [he, strongAt])
    next hfree =>
      have hs := swept_removeExpired he rfl
      rw [removeExpired, if_pos (Nat.eq_zero_of_not_pos hfree)] at hs
      exact h.swept hs rfl

theorem storeCreated (now : ℤ) (key : K) (created : O) :
    (s.storeCreated now key created).2.Consistent := by
  simp only [System.storeCreated]
  split
  next o t he =>
    exact h.share rfl (List.cons_subset_cons _ List.erase_subset) (by simp [he])
      (by simp [he, strongAt, System.share])
  next o t he =>
    have hdrop : Consistent
        { s with misses := s.misses + 1, pointers := s.pointers.erase (none, created) } :=
      ⟨fun key o ho => h.same key o (List.mem_of_mem_erase ho), h.counted⟩
    exact hdrop.swept (n := 0) (swept_insert he rfl rfl rfl rfl) rfl
  next he =>
    exact h.share rfl (List.cons_subset_cons _ List.erase_subset) (by simp [he])
      (by simp [he, strongAt])

theorem canonicalizeReplaceClient (now : ℤ) (key : K) (data : O) :
    (s.canonicalizeReplaceClient now key data).2.Consistent := by
  unfold System.canonicalizeReplaceClient
  split
  next o t he =>
    exact h.share rfl (List.cons_subset_cons _ List.erase_subset) (by simp [he])
      (by simp [he, strongAt, System.share])
  next o t he =>
    -- an object that was returned is in use, so the entry still reaches it
    have hused : 0 < s.heldOutside o → 0 < s.useCount o := Nat.add_pos_right _
    refine h.share rfl (List.cons_subset_cons _ List.erase_subset) ?_ (by simp [he, strongAt])
    simpa [he] using fun hheld hfree => absurd hfree (hused hheld).ne'
  next he =>
    exact h.share rfl (List.cons_subset_cons _ List.erase_subset) (by simp [he])
      (by simp [he, strongAt])

theorem del (key : K) : (s.del key).2.Consistent := by
  simp only [System.del]
  split
  next => exact h
  next o t he =>
    have hweak : Consistent { s with
        cacheCount := s.cacheCount - 1, cache := s.cache.insert key ⟨.weak o, t⟩ } :=
      h.swept (n := 1) (swept_insert he rfl rfl rfl rfl) rfl
    exact hweak.swept (swept_removeExpired (AList.lookup_insert _) rfl)
      (cacheCount_removeExpired ..)
  next o t he => exact h.swept (swept_removeExpired he rfl) (cacheCount_removeExpired ..)

theorem step (hstep : Step s s') : s'.Consistent := by
  cases hstep with
  | acquire => exact ⟨fun key o ho => h.same key o (by simpa using ho), h.counted⟩
  | clone hp => exact ⟨fun key o ho => h.same key o (by grind), h.counted⟩
  | drop p => exact ⟨fun key o ho => h.same key o (List.mem_of_mem_erase ho), h.counted⟩
  | fetch now key =>
    have hfetch := h.initialFetch now key
    unfold fetch
    split
    next s' heq => exact ⟨(heq ▸ hfetch).same, (heq ▸ hfetch).counted⟩
    next o s' heq => exact heq ▸ hfetch
  | fetchWith now key => exact h.initialFetch now key
  | storeCreated now key => exact h.storeCreated now key _
  | canonicalizeReplaceClient now key => exact h.canonicalizeReplaceClient now key _
  | touchIfExists now key =>
    unfold touchIfExists
    split
    next e he => exact h.swept (n := 0) (swept_insert he rfl rfl rfl rfl) rfl
    next => exact ⟨h.same, h.counted⟩
  | @sweep whenExpire order =>
    obtain ⟨hpointers, hreturned, hkept, hn⟩ := swept_sweepEntries whenExpire order s
    exact h.swept ⟨hpointers, hreturned, hkept, hn⟩
      (congrArg (· - _) (cacheCount_sweepEntries whenExpire order s))
  | del key => exact h.del key

end Consistent

/-- One object per key: what calls returned for a key is one object, a sweep keeps what is held
outside, and `cache_count` counts the strong entries. -/
theorem run_oneObjectPerKey (h : Relation.ReflTransGen Step new s) :
    (∀ key o o', (some key, o) ∈ s.pointers → (some key, o') ∈ s.pointers → o = o') ∧
      (∀ whenExpire order key e, order.Perm s.cache.keys → s.cache.lookup key = some e →
        0 < s.heldOutside e.ptr.object → ∃ e',
          (s.sweep whenExpire order).cache.lookup key = some e' ∧
            e'.ptr.object = e.ptr.object) ∧
      s.cacheCount = strongCount s.cache := by
  have hs : s.Consistent := by
    induction h with
    | refl => exact ⟨by simp [new], rfl⟩
    | tail _ hstep ih => exact ih.step hstep
  refine ⟨fun key o o' ho ho' => ?_, fun whenExpire order key e _ => ?_, hs.counted⟩
  · obtain ⟨e, he, rfl⟩ := hs.same key o ho
    obtain ⟨e', he', rfl⟩ := hs.same key o' ho'
    cases he.symm.trans he'
    rfl
  · exact (swept_sweepEntries whenExpire order s).kept key e

/-- A thread acquires an object and canonicalizes it. -/
def stored (key data : ℕ) (s : System ℕ ℕ) : System ℕ ℕ :=
  (canonicalizeReplaceClient 0 key data { s with pointers := (none, data) :: s.pointers }).2

theorem reaches_stored {s s' : System ℕ ℕ} (h : Relation.ReflTransGen Step s s')
    (key data : ℕ) : Relation.ReflTransGen Step s (s'.stored key data) :=
  (h.tail (.acquire data)).tail (.canonicalizeReplaceClient 0 key List.mem_cons_self)

/-- Two threads store objects for one key, and a third one for another key, which is then deleted
and swept. -/
theorem run_oneObjectPerKey_canonicalized :
    ∃ s : System ℕ ℕ, Relation.ReflTransGen Step new s ∧
      s.pointers = [(some 6, 3), (some 5, 1), (some 5, 1)] ∧ s.cache.keys.length = 2 ∧
      s.cacheCount = strongCount s.cache :=
  have h := ((reaches_stored (reaches_stored (reaches_stored .refl 5 1) 5 2) 6 3).tail
    (.del 6)).tail (.sweep (-1) (.refl _))
  ⟨_, h, by decide, by decide, (run_oneObjectPerKey h).2.2⟩

/-- A value that was built is handed out unless the key has a weak entry by then. -/
theorem fetchWith_some_iff (now now' : ℤ) (created : O) (between : System K O → System K O)
    (hmiss : (s.initialFetch now key).1 = none) :
    (∃ o, (s.fetchWith now now' key (some created) between).1 = some o ∧
        0 < (s.fetchWith now now' key (some created) between).2.useCount o) ↔
      ∀ e, (between (s.initialFetch now key).2).cache.lookup key = some e →
        e.ptr.isStrong = true := by
  have hfetch : s.fetchWith now now' key (some created) between =
      (between (s.initialFetch now key).2).storeCreated now' key created := by
    unfold fetchWith
    split <;> simp_all
  rw [hfetch]
  generalize between (s.initialFetch now key).2 = s
  have hshare (s : System K O) (o : O) : 0 < (s.share now' key o).useCount o :=
    Nat.add_pos_right _ (heldOutside_pos List.mem_cons_self)
  simp only [storeCreated]
  split
  next o t he => exact iff_of_true ⟨o, rfl, hshare _ o⟩ (by simp [he])
  next o t he => exact iff_of_false (by simp) (by simp [he])
  next he => exact iff_of_true ⟨created, rfl, hshare _ created⟩ (by simp [he])

/-- The handler has built object 2. -/
def built (s : System ℕ ℕ) : System ℕ ℕ := { s with pointers := (none, 2) :: s.pointers }

/-- Another thread stores an object that stays strong, which is handed out. -/
theorem fetchWith_some_stored :
    ((new : System ℕ ℕ).initialFetch 0 5).1 = none ∧
      Relation.ReflTransGen Step ((new : System ℕ ℕ).initialFetch 0 5).2
        (built ((new.initialFetch 0 5).2.stored 5 1)) ∧
      ∃ o, (new.fetchWith 0 0 5 (some 2) fun s => built (s.stored 5 1)).1 = some o ∧
        0 < (new.fetchWith 0 0 5 (some 2) fun s => built (s.stored 5 1)).2.useCount o := by
  have hmiss : ((new : System ℕ ℕ).initialFetch 0 5).1 = none := rfl
  refine ⟨hmiss, (reaches_stored .refl 5 1).tail (.acquire 2),
    (fetchWith_some_iff 0 0 2 (fun s => built (s.stored 5 1)) hmiss).mpr fun e he => ?_⟩
  have hstrong : (built ((new.initialFetch 0 5).2.stored 5 1)).cache.lookup 5 =
      some ⟨.strong 1, 0⟩ := rfl
  cases he.symm.trans hstrong
  rfl

/-- Another thread stores an object and deletes it while somebody holds it. -/
theorem fetchWith_loses_created :
    ∃ between : System ℕ ℕ → System ℕ ℕ,
      Relation.ReflTransGen Step ((new : System ℕ ℕ).initialFetch 0 5).2
          (between (new.initialFetch 0 5).2) ∧
        ((new : System ℕ ℕ).initialFetch 0 5).1 = none ∧
        (none, 2) ∈ (between (new.initialFetch 0 5).2).pointers ∧
        (new.fetchWith 0 0 5 (some 2) between).1 = none := by
  refine ⟨fun s => built ((s.stored 5 1).del 5).2, ?_, rfl, by decide, by decide⟩
  exact ((reaches_stored .refl 5 1).tail (.del 5)).tail (.acquire 2)

end System

end Quaxar.TaggedCache
