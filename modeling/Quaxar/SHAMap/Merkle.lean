import Quaxar.Lib.RadixTrie
import Quaxar.SHAMap.Tree

/-!
# Merkle hashes of tries

The hash that `update_hash` computes for a node depends on what is below it alone, so
it is a function of the trie of typed leaves. If SHA-512Half has no collision among the
encodings that occur in two canonical tries, then equal hashes mean equal tries. A leaf
of type `TransactionNm` is hashed without its key, so this needs that its key is the
one that its wire form determines, which is the hash itself.
-/

namespace Quaxar.SHAMap

open RadixTrie

/-- A leaf as it is hashed. -/
@[ext] structure LeafEntry where
  leafType : LeafType
  item : SHAMapItem
deriving DecidableEq

/-- The nibbles of an entry's key. -/
def entryDigits (e : LeafEntry) (d : ℕ) : Fin 16 := keyNibble e.item.key d

variable {x y : LeafEntry}

theorem entryDigits_eq_iff : entryDigits x = entryDigits y ↔ x.item.key = y.item.key := by
  constructor
  · intro h
    exact eq_of_keyNibble_eq fun d _ => congrFun h d
  · intro h
    funext d
    simp only [entryDigits, h]

abbrev MerkleTrie := Trie (Fin 16) LeafEntry

/-- Blocks of equal lengths can be read off their concatenation. -/
theorem flatMap_inj {β : Type*} {f g : β → List UInt8} (hlen : ∀ b, (f b).length = (g b).length) :
    ∀ {l : List β}, l.flatMap f = l.flatMap g → ∀ b ∈ l, f b = g b := by
  intro l
  induction l with
  | nil =>
    intro _ b hb
    cases hb
  | cons x l ih =>
    intro h b hb
    rw [List.flatMap_cons, List.flatMap_cons] at h
    obtain ⟨hx, hl⟩ := List.append_inj h (hlen x)
    rcases List.mem_cons.mp hb with rfl | hb
    · exact hx
    · exact ih hl b hb

theorem serializeInnerWithPrefix_inj {f g : Fin 16 → Uint256}
    (h : serializeInnerWithPrefix f = serializeInnerWithPrefix g) : f = g := by
  funext b
  apply BaseUInt.ext
  have hflat := List.append_cancel_left h
  exact flatMap_inj (by simp) hflat b (List.mem_finRange b)

theorem hashPrefix_inj {x y : LeafType} (h : toBeBytes x.hashPrefix = toBeBytes y.hashPrefix) :
    x = y := by
  cases x <;> cases y <;> first | rfl | exact absurd h (by decide)

theorem hashPrefix_ne_inner (ty : LeafType) :
    toBeBytes ty.hashPrefix ≠ toBeBytes hashPrefixInnerNode := by
  cases ty <;> decide

theorem serializeWithPrefix_ne_inner (ty : LeafType) (item : SHAMapItem) (f : Fin 16 → Uint256) :
    ty.serializeWithPrefix item ≠ serializeInnerWithPrefix f := by
  intro h
  simp only [LeafType.serializeWithPrefix, serializeInnerWithPrefix, List.append_assoc] at h
  exact hashPrefix_ne_inner ty (List.append_inj_left h rfl)

/-- The encoding of a leaf determines its type and payload, and its key if it is part
of the encoding. -/
theorem serializeWithPrefix_inj
    (h : x.leafType.serializeWithPrefix x.item = y.leafType.serializeWithPrefix y.item) :
    x.leafType = y.leafType ∧ x.item.data = y.item.data ∧
      (x.leafType ≠ .transactionNm → x.item.key = y.item.key) := by
  obtain ⟨ty, item⟩ := x
  obtain ⟨ty', item'⟩ := y
  simp only [LeafType.serializeWithPrefix, List.append_assoc] at h
  obtain ⟨hty, hrest⟩ := List.append_inj h rfl
  obtain rfl := hashPrefix_inj hty
  refine ⟨rfl, ?_⟩
  cases ty with
  | transactionNm => exact ⟨by simpa using hrest, fun hne => absurd rfl hne⟩
  | transactionMd =>
    obtain ⟨hdata, hkey⟩ := List.append_inj' hrest (by simp)
    exact ⟨hdata, fun _ => BaseUInt.ext hkey⟩
  | accountState =>
    obtain ⟨hdata, hkey⟩ := List.append_inj' hrest (by simp)
    exact ⟨hdata, fun _ => BaseUInt.ext hkey⟩

variable (sha : Sha512Half)

/-- What `update_hash` stores in the node that heads the trie. -/
def merkleHash : MerkleTrie → Uint256
  | .empty => .zero
  | .leaf e => computeLeafHash sha e.leafType e.item
  | .inner kids =>
    computeInnerHash sha ((List.finRange 16).all fun b => (kids b).isEmpty)
      fun b => merkleHash (kids b)

/-- The byte strings that are hashed for the nodes of a trie. -/
def nodeEncodings : MerkleTrie → Set (List UInt8)
  | .empty => ∅
  | .leaf e => {e.leafType.serializeWithPrefix e.item}
  | .inner kids =>
    {x | (∃ b, (kids b).isEmpty = false) ∧
      x = serializeInnerWithPrefix fun b => merkleHash sha (kids b)} ∪
    ⋃ b, nodeEncodings (kids b)

/-- SHA-512Half separates the byte strings in `E` and maps none of them to zero, which
marks an empty branch. -/
structure CollisionFree (E : Set (List UInt8)) : Prop where
  injOn : Set.InjOn sha E
  ne_zero : ∀ x ∈ E, sha x ≠ .zero

/-- A transaction without metadata is stored under its hash. -/
def Keyed (T : MerkleTrie) : Prop :=
  ∀ e, Mem e T → e.leafType = .transactionNm →
    e.item.key = computeLeafHash sha e.leafType e.item

variable {sha : Sha512Half} {E : Set (List UInt8)} {d : ℕ}
  {kids kids' : Fin 16 → MerkleTrie}

theorem merkleHash_inner_of_empty (h : ∀ b, kids b = .empty) :
    merkleHash sha (.inner kids) = BaseUInt.zero := by
  have hall : ((List.finRange 16).all fun b => (kids b).isEmpty) = true := by simp [h]
  simp only [merkleHash, hall, computeInnerHash, if_true]

variable {b : Fin 16}

theorem merkleHash_inner_of_ne (h : kids b ≠ .empty) :
    merkleHash sha (.inner kids) =
      sha (serializeInnerWithPrefix fun b => merkleHash sha (kids b)) := by
  have hall : ((List.finRange 16).all fun b => (kids b).isEmpty) = false := by
    simp only [List.all_eq_false, List.mem_finRange, true_and, Trie.isEmpty_iff]
    exact ⟨b, h⟩
  simp only [merkleHash, hall, computeInnerHash, Bool.false_eq_true, if_false]

theorem mem_nodeEncodings_inner (h : kids b ≠ .empty) :
    serializeInnerWithPrefix (fun b => merkleHash sha (kids b)) ∈
      nodeEncodings sha (.inner kids) := by
  refine .inl ⟨⟨b, ?_⟩, rfl⟩
  rwa [Bool.eq_false_iff, Ne, Trie.isEmpty_iff]

theorem nodeEncodings_child (b : Fin 16) :
    nodeEncodings sha (kids b) ⊆ nodeEncodings sha (.inner kids) :=
  fun _ hx => .inr (Set.mem_iUnion.mpr ⟨b, hx⟩)

variable {T : MerkleTrie}

theorem merkleHash_ne_zero (hzero : ∀ x ∈ nodeEncodings sha T, sha x ≠ .zero)
    (hT : Canon entryDigits d T) (hne : T ≠ .empty) : merkleHash sha T ≠ BaseUInt.zero := by
  cases T with
  | empty => exact absurd rfl hne
  | leaf e => exact hzero _ rfl
  | inner kids =>
    obtain ⟨b, hb⟩ := (canon_inner.mp hT).2.exists_child
    rw [merkleHash_inner_of_ne hb]
    exact hzero _ (mem_nodeEncodings_inner hb)

namespace CollisionFree

variable (cf : CollisionFree sha E)

include cf

theorem hash_ne_zero (hT : Canon entryDigits d T)
    (hE : nodeEncodings sha T ⊆ E) (hne : T ≠ .empty) :
    merkleHash sha T ≠ BaseUInt.zero :=
  merkleHash_ne_zero (fun x hx => cf.ne_zero x (hE hx)) hT hne

/-- Equal hashes of two inner nodes come from equal hashes of their children. -/
theorem child_hash_eq (hE : nodeEncodings sha (.inner kids) ⊆ E)
    (hE' : nodeEncodings sha (.inner kids') ⊆ E)
    (h : merkleHash sha (.inner kids) = merkleHash sha (.inner kids')) (b : Fin 16) :
    merkleHash sha (kids b) = merkleHash sha (kids' b) := by
  by_cases hall : ∀ b, kids b = .empty
  · by_cases hall' : ∀ b, kids' b = .empty
    · rw [hall b, hall' b]
    · obtain ⟨b', hb'⟩ := not_forall.mp hall'
      rw [merkleHash_inner_of_empty hall, merkleHash_inner_of_ne hb'] at h
      exact absurd h.symm (cf.ne_zero _ (hE' (mem_nodeEncodings_inner hb')))
  · obtain ⟨b₁, hb₁⟩ := not_forall.mp hall
    by_cases hall' : ∀ b, kids' b = .empty
    · rw [merkleHash_inner_of_empty hall', merkleHash_inner_of_ne hb₁] at h
      exact absurd h (cf.ne_zero _ (hE (mem_nodeEncodings_inner hb₁)))
    · obtain ⟨b₂, hb₂⟩ := not_forall.mp hall'
      rw [merkleHash_inner_of_ne hb₁, merkleHash_inner_of_ne hb₂] at h
      have henc := cf.injOn (hE (mem_nodeEncodings_inner hb₁)) (hE' (mem_nodeEncodings_inner hb₂)) h
      exact congrFun (serializeInnerWithPrefix_inj henc) b

theorem leaf_eq
    (hE : nodeEncodings sha (.leaf x) ⊆ E) (hE' : nodeEncodings sha (.leaf y) ⊆ E)
    (hx : Keyed sha (.leaf x)) (hy : Keyed sha (.leaf y))
    (h : merkleHash sha (.leaf x) = merkleHash sha (.leaf y)) : x = y := by
  obtain ⟨hty, hdata, hkey⟩ := serializeWithPrefix_inj (cf.injOn (hE rfl) (hE' rfl) h)
  have hkeys : x.item.key = y.item.key := by
    by_cases hnm : x.leafType = .transactionNm
    · rw [hx x rfl hnm, hy y rfl (hty.symm.trans hnm)]
      exact h
    · exact hkey hnm
  exact LeafEntry.ext hty (SHAMapItem.ext hkeys hdata)

end CollisionFree

theorem Keyed.child (h : Keyed sha (.inner kids)) (b : Fin 16) :
    Keyed sha (kids b) :=
  fun e he => h e ⟨b, he⟩

theorem CollisionFree.trie_eq (cf : CollisionFree sha E) :
    ∀ {d : ℕ} {U : MerkleTrie}, Canon entryDigits d T → Canon entryDigits d U →
      nodeEncodings sha T ⊆ E → nodeEncodings sha U ⊆ E →
      Keyed sha T → Keyed sha U →
      merkleHash sha T = merkleHash sha U → T = U := by
  induction T with
  | empty =>
    intro d U _ hU _ hE' _ _ h
    by_contra hne
    exact cf.hash_ne_zero hU hE' (Ne.symm hne) h.symm
  | leaf x =>
    intro d U hT hU hE hE' hk hk' h
    cases U with
    | empty => exact absurd h (cf.hash_ne_zero hT hE (by simp))
    | leaf y => rw [cf.leaf_eq hE hE' hk hk' h]
    | inner kids =>
      obtain ⟨b, hb⟩ := (canon_inner.mp hU).2.exists_child
      rw [merkleHash_inner_of_ne hb] at h
      exact absurd (cf.injOn (hE rfl) (hE' (mem_nodeEncodings_inner hb)) h)
        (serializeWithPrefix_ne_inner _ _ _)
  | inner kids ih =>
    intro d U hT hU hE hE' hk hk' h
    obtain ⟨s, htwo⟩ := canon_inner.mp hT
    cases U with
    | empty => exact absurd h (cf.hash_ne_zero hT hE (by simp))
    | leaf y =>
      obtain ⟨b, hb⟩ := htwo.exists_child
      rw [merkleHash_inner_of_ne hb] at h
      exact absurd (cf.injOn (hE' rfl) (hE (mem_nodeEncodings_inner hb)) h.symm)
        (serializeWithPrefix_ne_inner _ _ _)
    | inner kids' =>
      obtain ⟨s', -⟩ := canon_inner.mp hU
      congr 1
      funext b
      exact ih b (s.canon b) (s'.canon b) ((nodeEncodings_child b).trans hE)
        ((nodeEncodings_child b).trans hE') (hk.child b) (hk'.child b) (cf.child_hash_eq hE hE' h b)

end Quaxar.SHAMap
