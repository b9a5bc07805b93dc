import Quaxar.SHAMap.Refinement

/-!
# Flushing and snapshots over the store

A flush turns the nodes a handle owns into shared ones, in place; a snapshot
copies them into new shared nodes and leaves the source alone. Both end with a
root that holds `Tree.share` of the tree and owns nothing. A flush may hand every
node it shares to a writer, and goes on with the node that the writer hands back;
`FaithfulWriter` states what such a node has to be.
-/

namespace Quaxar.SHAMap

open CellStore
open Function (update update_eq_self update_of_ne update_self)
open List (mem_cons_of_mem mem_cons_self)

namespace Holds

variable {h : Heap} {c c' : ℕ} {a : Addr} {t : Tree} {S : Set Addr}

/-- A tree without owned nodes is the same tree for every handle. -/
theorem shared_any (H : Holds h c a t S) (hS : S = ∅) : Holds h c' a t ∅ := by
  induction H with
  | @leaf a n cell own =>
    have hz : n.cowid = 0 := by
      by_contra hne
      have hmem : a ∈ {x | x = a ∧ n.cowid ≠ 0} := ⟨rfl, hne⟩
      simp [hS] at hmem
    rw [← hS]
    exact .leaf cell (.inl hz)
  | @inner a n child owned cell own vacant unloaded loaded apart self closed ih =>
    have hz : n.cowid = 0 := by
      by_contra hne
      have hmem : a ∈ {x | x = a ∧ n.cowid ≠ 0} ∪ ⋃ b, owned b := .inl ⟨rfl, hne⟩
      simp [hS] at hmem
    rw [← hS]
    refine .inner cell (.inl hz) vacant unloaded ?_ apart self closed
    intro b hash x hb
    rw [closed hz b]
    exact ih b hash x hb (closed hz b)

theorem owned_eq_empty (H : Holds h c a t S) (ht : t.cowid = 0) : S = ∅ := by
  rcases H.cell_cases with ⟨n, -, rfl⟩ | ⟨n, child, -, rfl⟩
  · rw [H.leaf_inv.2]
    simp [show n.cowid = 0 from ht]
  · obtain ⟨m, owned, v, hm, -, -, rfl⟩ := H.inner_inv
    have hz : m.cowid = 0 := hm.trans ht
    simp [hz, v.closed hz]

end Holds

/-- The writer hands back the node it is given or another one that holds the same subtree, and
does not write to the nodes of any tree. -/
def FaithfulWriter (write : MutableTree.WriteNode) : Prop :=
  ∀ (h : Heap) (c : ℕ) (a : Addr) (t : Tree), Holds h c a t ∅ →
    Holds (write h a).1 c (write h a).2 t ∅ ∧ Evolves h ∅ (write h a).1 ∅

theorem faithfulWriter_id : FaithfulWriter fun h a => (h, a) :=
  fun h _ _ _ H => ⟨H, .refl h ∅⟩

variable {h : Heap} {a : Addr} {t : Tree} {writer : Option MutableTree.WriteNode}

theorem maybeWriteNode_eq (hw : ∀ write ∈ writer, FaithfulWriter write) {c : ℕ}
    (H : Holds h c a t ∅) :
    ∃ h' a', MutableTree.maybeWriteNode writer h a = (h', a') ∧ Holds h' c a' t ∅ ∧
      Evolves h ∅ h' ∅ := by
  cases writer with
  | none => exact ⟨h, a, rfl, H, .refl h ∅⟩
  | some write => exact ⟨_, _, rfl, hw write rfl h c a t H⟩

namespace Tree

variable {sha : Sha512Half}

theorem share_of_shared (ht : t.cowid = 0) : t.share sha = t := by
  cases t <;> simp_all [share, cowid]

theorem flushCount_of_shared (ht : t.cowid = 0) : t.flushCount = 0 := by
  cases t <;> simp_all [flushCount, cowid]

theorem clonable_of_shared (ht : t.cowid = 0) : t.clonable = true := by
  cases t <;> simp_all [clonable, cowid]

@[simp] theorem isLoaded_share (t : Tree) : (t.share sha).isLoaded = t.isLoaded := by
  cases t <;> simp only [share, isLoaded] <;> split_ifs <;> rfl

@[simp] theorem isEmpty_share (t : Tree) : (t.share sha).isEmpty = t.isEmpty := by
  cases t <;> simp only [share, isEmpty] <;> split_ifs <;> rfl

end Tree

variable {child : Fin 16 → Tree} {owned : Fin 16 → Set Addr} {hashes : Fin 16 → Uint256}
  (sha : Sha512Half) {c : ℕ}

/-- Rehash a node and share it: the end of a flush and of a copy. -/
def rehashAndShare (h : Heap) (a : Addr) : Except Fault Heap := do
  let h ← updateHash sha h a
  unshareCell h a

theorem rehashAndShare_bind {x : Addr} {r : Heap} (hrun : rehashAndShare sha h x = .ok r) :
    ∃ hm, updateHash sha h x = .ok hm ∧ unshareCell hm x = .ok r := by
  simp only [rehashAndShare, bind, Except.bind] at hrun
  cases hu : updateHash sha h x with
  | error f => simp [hu] at hrun
  | ok hm => exact ⟨hm, rfl, by simpa [hu] using hrun⟩

theorem rehashAndShare_leaf {n : LeafNode} (cell : h[a]? = some (.leaf n)) :
    ∃ h', rehashAndShare sha h a = .ok h' ∧
      Holds h' c a (.leaf { n with
        cowid := 0, hash := computeLeafHash sha n.leafType n.item }) ∅ ∧
      Evolves h {a} h' ∅ := by
  let n₁ : LeafNode := { n with hash := computeLeafHash sha n.leafType n.item }
  have cell₁ : (h.set a (.leaf n₁))[a]? = some (.leaf n₁) := get_write_self cell
  refine ⟨(h.set a (.leaf n₁)).set a (.leaf { n₁ with cowid := 0 }), ?_, ?_, ?_⟩
  · simp only [rehashAndShare, updateHash, readNode_of_cell cell, bind, Except.bind]
    rw [unshareCell, readNode_of_cell cell₁]
    rfl
  · have H := Holds.leaf (h := (h.set a (.leaf n₁)).set a (.leaf { n₁ with cowid := 0 })) (c := c)
      (get_write_self cell₁) (.inl rfl)
    simpa using H
  · have hmem : a ∈ ({a} : Set Addr) := rfl
    exact ((Evolves.write _ hmem).trans (Evolves.write _ hmem)).shrink (Set.empty_subset _)

variable {n : InnerNode}

namespace HoldsInner

variable (v : HoldsInner h c a n child owned)

include v

theorem isEmpty_eq : n.isEmpty = (Tree.branches child).isEmpty := by
  rw [Bool.eq_iff_iff]
  simp [InnerNode.isEmpty, Tree.branches, List.filter_eq_nil_iff, v.isEmptyBranch_eq]

/-- The slots after a rehash hold the same children, with their current hashes. -/
theorem refreshed (m : InnerNode) (hm : m.branches = refreshedBranches h n) :
    m.getChildHash = (fun b => if (child b).isLoaded then (child b).hash else n.getChildHash b) ∧
      (∀ b, (m.branches b).map Branch.child = (n.branches b).map Branch.child) := by
  constructor
  · funext b
    have hslot := v.slot b
    match hs : n.branches b with
    | none =>
      rw [hs] at hslot
      simp [InnerNode.getChildHash, hm, refreshedBranches, hs, hslot.1, Tree.isLoaded]
    | some ⟨_, none⟩ =>
      rw [hs] at hslot
      simp [InnerNode.getChildHash, hm, refreshedBranches, hs, hslot.1, Tree.isLoaded]
    | some ⟨_, some x⟩ =>
      rw [hs] at hslot
      obtain ⟨k, cell, -, hhash⟩ := Holds.cell_eq hslot
      simp [InnerNode.getChildHash, hm, refreshedBranches, hs, Holds.isLoaded hslot, cell, hhash]
  · intro b
    rw [hm]
    rcases hs : n.branches b with _ | ⟨_, _ | x⟩ <;> simp [refreshedBranches, hs]

/-- Rehashing and sharing an inner node all of whose children are shared. -/
theorem rehashAndShare (hc : n.cowid ≠ 0) (hshared : ∀ b, owned b = ∅)
    (hhashes : hashes = fun b => if (child b).isLoaded then (child b).hash else n.getChildHash b) :
    ∃ h', rehashAndShare sha h a = .ok h' ∧
      Holds h' c a (.inner 0 (computeInnerHash sha (Tree.branches child).isEmpty hashes)
        hashes child) ∅ ∧
      Evolves h {a} h' ∅ := by
  let n₁ : InnerNode := { n with branches := refreshedBranches h n }
  let n₂ : InnerNode := { n₁ with hash := computeInnerHash sha n₁.isEmpty n₁.getChildHash }
  let n₃ : InnerNode := { n₂ with cowid := 0 }
  obtain ⟨hget, hchild⟩ := v.refreshed n₃ rfl
  have cell₂ : (h.set a (.inner n₂))[a]? = some (.inner n₂) := get_write_self v.cell
  let h' := (h.set a (.inner n₂)).set a (.inner n₃)
  have cell₃ : h'[a]? = some (.inner n₃) := get_write_self cell₂
  have hne₂ : (TreeNode.inner n₂).cowid ≠ 0 := hc
  have v₃ : HoldsInner h' c a n₃ child (fun _ => ∅) := by
    refine ⟨cell₃, .inl rfl, ?_, fun _ _ _ => by simp, fun _ => by simp, fun _ _ => rfl⟩
    intro b
    have hslot := v.slot b
    rw [hshared b] at hslot
    refine (hslot.congr_child (hchild b)).map fun x H => ?_
    exact (H.write_other _ v.cell hc (by simp)).write_other _ cell₂ hne₂ (by simp)
  have hempty : n₁.isEmpty = (Tree.branches child).isEmpty := v₃.isEmpty_eq
  have hmem : a ∈ ({a} : Set Addr) := rfl
  refine ⟨h', ?_, ?_, ((Evolves.write _ hmem).trans (Evolves.write _ hmem)).shrink
    (Set.empty_subset _)⟩
  · simp only [SHAMap.rehashAndShare, updateHash, readNode_of_cell v.cell, bind, Except.bind]
    rw [unshareCell, readNode_of_cell cell₂]
    rfl
  · have H := v₃.holds
    have hS : {x | x = a ∧ n₃.cowid ≠ 0} ∪ ⋃ _ : Fin 16, (∅ : Set Addr) = ∅ := by simp [n₃]
    rw [hS, hget, ← hhashes] at H
    have hhash : n₃.hash = computeInnerHash sha (Tree.branches child).isEmpty hashes := by
      rw [hhashes, ← hget, ← hempty]
      rfl
    rw [hhash] at H
    exact H

end HoldsInner

variable {S : Set Addr} {slot : Option Branch}

/-- A slot holds a loaded subtree, or none, which is shared and is held wherever the slot is. -/
theorem HoldsSlot.cases (H : HoldsSlot h c slot t S) :
    (∃ hash x, slot = some ⟨hash, some x⟩ ∧ Holds h c x t S) ∨
      slot.bind Branch.child = none ∧ S = ∅ ∧ t.isLoaded = false ∧ t.cowid = 0 ∧
        ∀ h' c', HoldsSlot h' c' slot t ∅ := by
  match slot with
  | none =>
    obtain ⟨rfl, rfl⟩ := H
    exact .inr ⟨rfl, rfl, rfl, rfl, fun _ _ => ⟨rfl, rfl⟩⟩
  | some ⟨_, none⟩ =>
    obtain ⟨rfl, rfl⟩ := H
    exact .inr ⟨rfl, rfl, rfl, rfl, fun _ _ => ⟨rfl, rfl⟩⟩
  | some ⟨hash, some x⟩ => exact .inl ⟨hash, x, rfl, H⟩

/-- What a flush of the subtree `t` does, wherever that subtree is held. -/
def FlushesTo (c : ℕ) (t : Tree) (flush : Heap → Addr → Except Fault (Heap × Addr × ℕ)) : Prop :=
  ∀ (h : Heap) (x : Addr) (S : Set Addr), Holds h c x t S → t.cowid ≠ 0 →
    ∃ h' x', flush h x = .ok (h', x', t.flushCount) ∧ Holds h' c x' (t.share sha) ∅ ∧
      Evolves h S h' ∅

/-- The children after those in `done` were shared. -/
def shareOn (child : Fin 16 → Tree) (done : Finset (Fin 16)) (b : Fin 16) : Tree :=
  if b ∈ done then (child b).share sha else child b

theorem shareOn_insert (done : Finset (Fin 16)) (b : Fin 16) :
    shareOn sha child (insert b done) =
      update (shareOn sha child done) b ((child b).share sha) := by
  funext b'
  by_cases hb : b' = b
  · subst hb
    simp [shareOn]
  · simp [shareOn, hb]

/-- The node at `a` when the branches `done` have been flushed. The store was `h₀` before, and
the node `n₀`. -/
structure Flushed (c : ℕ) (a : Addr) (h₀ : Heap) (n₀ : InnerNode) (child : Fin 16 → Tree)
    (owned₀ : Fin 16 → Set Addr) (done : Finset (Fin 16)) (h : Heap) (n : InnerNode)
    (owned : Fin 16 → Set Addr) : Prop where
  holds : HoldsInner h c a n (shareOn sha child done) owned
  cowid_eq : n.cowid = c
  hashes_eq : n.getChildHash = n₀.getChildHash
  owned_eq : ∀ b ∈ done, owned b = ∅
  evolves : Evolves h₀ (HoldsInner.footprint a n₀ owned₀) h (HoldsInner.footprint a n owned)

namespace Flushed

variable {flush : Heap → Addr → Except Fault (Heap × Addr × ℕ)} {h₀ : Heap} {n₀ : InnerNode}
  {owned₀ : Fin 16 → Set Addr} {done : Finset (Fin 16)} {b : Fin 16}

/-- A shared child is passed over. -/
theorem skip (f : Flushed sha c a h₀ n₀ child owned₀ done h n owned) (hb : b ∉ done)
    (hz : (child b).cowid = 0) (hS : owned b = ∅) :
    Flushed sha c a h₀ n₀ child owned₀ (insert b done) h n owned := by
  refine { f with holds := ?_, owned_eq := ?_ }
  · have hsame : (child b).share sha = shareOn sha child done b := by
      rw [Tree.share_of_shared hz, shareOn, if_neg hb]
    rw [shareOn_insert, hsame, update_eq_self]
    exact f.holds
  · intro b' hb'
    rcases Finset.mem_insert.mp hb' with rfl | hb'
    · exact hS
    · exact f.owned_eq b' hb'

/-- One round of the branch loop. -/
theorem step (hc : c ≠ 0) (f : Flushed sha c a h₀ n₀ child owned₀ done h n owned)
    (hb : b ∉ done) (hflush : FlushesTo sha c (child b) flush) :
    ∃ h' n' owned', (∀ bs, MutableTree.flushBranches flush a (b :: bs) h =
        (MutableTree.flushBranches flush a bs h').map
          fun r => (r.1, (child b).flushCount + r.2)) ∧
      Flushed sha c a h₀ n₀ child owned₀ (insert b done) h' n' owned' := by
  have hslot := f.holds.slot b
  rw [shareOn, if_neg hb] at hslot
  have hread := readNode_of_cell f.holds.cell
  have hmap : ∀ x : Except Fault (Heap × ℕ), x.map (fun r => (r.1, 0 + r.2)) = x := by
    intro x
    cases x <;> simp [Except.map]
  rcases hslot.cases with ⟨hash, x, hs, H⟩ | ⟨hnone, hS, -, hz, -⟩
  · obtain ⟨k, cell, hk, -⟩ := H.cell_eq
    by_cases hz : (child b).cowid = 0
    · refine ⟨h, n, owned, fun bs => ?_, f.skip sha hb hz (H.owned_eq_empty hz)⟩
      rw [Tree.flushCount_of_shared hz, hmap]
      simp only [MutableTree.flushBranches, hread, InnerNode.getChild, hs, bind, Except.bind,
        Option.bind, readNode_of_cell cell, hk, hz, if_true]
    · obtain ⟨h₁, x₁, hrun₁, H₁, e₁⟩ := hflush h x (owned b) H hz
      obtain ⟨h₂, n₂, hrun₂, hn₂, hhash₂, v₂, e₂⟩ :=
        f.holds.shareChild_owned e₁ hs f.cowid_eq hc H₁
      refine ⟨h₂, n₂, _, fun bs => ?_, ?_, hn₂, hhash₂.trans f.hashes_eq, ?_, f.evolves.trans e₂⟩
      · simp only [MutableTree.flushBranches, hread, InnerNode.getChild, hs, bind, Except.bind,
          Option.bind, readNode_of_cell cell, hk, hz, if_false, hrun₁, hrun₂]
        cases MutableTree.flushBranches flush a bs h₂ <;> rfl
      · rw [shareOn_insert]
        exact v₂
      · intro b' hb'
        by_cases hbb : b' = b
        · rw [hbb, update_self]
        · rw [update_of_ne hbb]
          exact f.owned_eq b' (Finset.mem_of_mem_insert_of_ne hb' hbb)
  · refine ⟨h, n, owned, fun bs => ?_, f.skip sha hb hz hS⟩
    rw [Tree.flushCount_of_shared hz, hmap]
    simp only [MutableTree.flushBranches, hread, InnerNode.getChild, hnone, bind, Except.bind]

/-- The branch loop of a flush, for the branches `bs` that are still to come. -/
theorem flushBranches_eq (hc : c ≠ 0) (hflush : ∀ b, FlushesTo sha c (child b) flush) :
    ∀ (bs : List (Fin 16)) {done : Finset (Fin 16)} {h : Heap} {n : InnerNode}
      {owned : Fin 16 → Set Addr}, bs.Nodup → (∀ b, b ∈ bs ↔ b ∉ done) →
      Flushed sha c a h₀ n₀ child owned₀ done h n owned →
      ∃ h' n', MutableTree.flushBranches flush a bs h =
          .ok (h', (bs.map fun b => (child b).flushCount).sum) ∧
        HoldsInner h' c a n' (fun b => (child b).share sha) (fun _ => ∅) ∧
        n'.cowid = c ∧ n'.getChildHash = n₀.getChildHash ∧
        Evolves h₀ (HoldsInner.footprint a n₀ owned₀) h'
          (HoldsInner.footprint a n' fun _ => ∅) := by
  intro bs
  induction bs with
  | nil =>
    intro done h n owned _ hrest f
    have hdone : ∀ b, b ∈ done := fun b => not_not.mp fun hb => by simpa using (hrest b).mpr hb
    have hchild : shareOn sha child done = fun b => (child b).share sha :=
      funext fun b => if_pos (hdone b)
    obtain rfl : owned = fun _ => ∅ := funext fun b => f.owned_eq b (hdone b)
    exact ⟨h, n, rfl, hchild ▸ f.holds, f.cowid_eq, f.hashes_eq, f.evolves⟩
  | cons b bs ih =>
    intro done h n owned hnodup hrest f
    obtain ⟨hb, hnodup⟩ := List.nodup_cons.mp hnodup
    obtain ⟨h₁, n₁, owned₁, hrun₁, f₁⟩ :=
      f.step sha hc ((hrest b).mp mem_cons_self) (hflush b)
    have hrest₁ : ∀ b', b' ∈ bs ↔ b' ∉ insert b done := by
      intro b'
      have hiff := hrest b'
      by_cases hbb : b' = b
      · simp [hbb, hb]
      · simpa [hbb] using hiff
    obtain ⟨h', n', hrun, hend⟩ := ih hnodup hrest₁ f₁
    refine ⟨h', n', ?_, hend⟩
    rw [hrun₁, hrun, List.map_cons, List.sum_cons]
    rfl

end Flushed

theorem finishFlush_eq (hw : ∀ write ∈ writer, FaithfulWriter write) {h₁ : Heap}
    (hrun : rehashAndShare sha h a = .ok h₁) (H : Holds h₁ c a t ∅) (e : Evolves h S h₁ ∅) :
    ∃ h' a', MutableTree.finishFlush sha writer h a = .ok (h', a') ∧ Holds h' c a' t ∅ ∧
      Evolves h S h' ∅ := by
  obtain ⟨h', a', hwrite, H', e'⟩ := maybeWriteNode_eq hw H
  refine ⟨h', a', ?_, H', e.trans e'⟩
  obtain ⟨hm, hup, hsh⟩ := rehashAndShare_bind sha hrun
  simp only [MutableTree.finishFlush, hup, hsh, hwrite, bind, Except.bind]

@[simp] theorem Tree.branches_share (child : Fin 16 → Tree) :
    branches (fun b => (child b).share sha) = branches child := by
  simp [branches]

theorem Tree.share_inner {cowid : ℕ} {hash : Uint256} (hz : cowid ≠ 0) :
    (inner cowid hash hashes child).share sha =
      let hashes' := fun b =>
        if ((child b).share sha).isLoaded then ((child b).share sha).hash
        else hashes b
      .inner 0 (computeInnerHash sha
        (branches fun b => (child b).share sha).isEmpty hashes') hashes'
        fun b => (child b).share sha := by
  simp [share, hz]

/-- A flush of a held subtree shares all of it. -/
theorem flushNode_eq (hw : ∀ write ∈ writer, FaithfulWriter write) (hc : c ≠ 0) :
    ∀ (fuel : ℕ) (t : Tree), t.height ≤ fuel →
      FlushesTo sha c t (MutableTree.flushNode sha c writer fuel) := by
  intro fuel
  induction fuel with
  | zero =>
    intro t hfuel h x S H _
    rcases H.cell_cases with ⟨n, -, rfl⟩ | ⟨n, child, -, rfl⟩ <;> simp [Tree.height] at hfuel
  | succ fuel ih =>
    intro t hfuel h x S H hz
    have hown := H.cowid_cases.resolve_left hz
    obtain ⟨k, cell, hk, -⟩ := H.cell_eq
    have hpre : MutableTree.preFlushNode h x c = .ok (h, x) := by
      simp [MutableTree.preFlushNode, readNode_of_cell cell, hk, hown, bind, Except.bind]
    rcases H.cell_cases with ⟨n, hcell, rfl⟩ | ⟨n, child, hcell, rfl⟩
    · have hn : n.cowid ≠ 0 := hz
      obtain ⟨-, hS⟩ := H.leaf_inv
      obtain ⟨h₁, hrun, H₁, e₁⟩ := rehashAndShare_leaf sha (c := c) hcell
      have hsub : ({x} : Set Addr) ⊆ S := by
        rw [hS]
        simpa using hn
      obtain ⟨h', x', hfin, H', e'⟩ := finishFlush_eq sha hw hrun H₁ (e₁.mono hsub)
      refine ⟨h', x', ?_, ?_, e'⟩
      · simp [MutableTree.flushNode, hpre, readNode_of_cell hcell, hfin, Tree.flushCount, hn, bind,
          Except.bind]
      · simpa [Tree.share, hn] using H'
    · obtain ⟨m, owned, v, hm, -, hhashes, rfl⟩ := H.inner_inv
      have hn : n.cowid ≠ 0 := hz
      have hmc : m.cowid = c := hm.trans hown
      have f : Flushed sha c x h m child owned ∅ h m owned :=
        ⟨v, hmc, rfl, by simp, .refl h _⟩
      have hbelow : ∀ b, (child b).height ≤ fuel := by
        intro b
        have := Tree.height_child_lt n.cowid n.hash n.getChildHash child b
        omega
      obtain ⟨h₁, n₁, hrun₁, v₁, hn₁, hhash₁, e₁⟩ :=
        Flushed.flushBranches_eq sha hc (fun b => ih (child b) (hbelow b)) (List.finRange 16)
          (List.nodup_finRange 16) (by simp) f
      obtain ⟨h₂, hrun₂, H₂, e₂⟩ := v₁.rehashAndShare sha (hn₁ ▸ hc) (fun _ => rfl) rfl
      have hsub : ({x} : Set Addr) ⊆ HoldsInner.footprint x n₁ fun _ => ∅ :=
        Set.singleton_subset_iff.mpr (.inl ⟨rfl, hn₁ ▸ hc⟩)
      obtain ⟨h', x', hfin, H', e'⟩ := finishFlush_eq sha hw hrun₂ H₂ (e₂.mono hsub)
      refine ⟨h', x', ?_, ?_, e₁.trans e'⟩
      · simp [MutableTree.flushNode, hpre, readNode_of_cell hcell, hrun₁, hfin, Tree.flushCount, hn,
          bind, Except.bind]
      · rw [Tree.share_inner sha hn, ← hhashes, ← hhash₁]
        exact H'

theorem walkSubtree_follows (writer : Option MutableTree.WriteNode)
    (hw : ∀ write ∈ writer, FaithfulWriter write) {T : MutableTree}
    (H : Holds h T.cowid T.root t S) :
    Follows h S T.cowid (T.walkSubtree sha h writer)
      (.ok (t.share sha, t.flushCount)) := by
  obtain ⟨k, cell, hk, -⟩ := H.cell_eq
  have hread := readNode_of_cell cell
  by_cases hz : t.cowid = 0
  · refine ⟨h, T, S, ?_, rfl, by rwa [Tree.share_of_shared hz], .refl h S⟩
    simp [MutableTree.walkSubtree, hread, hk, hz, Tree.flushCount_of_shared hz, bind, Except.bind]
  have hne : k.cowid ≠ 0 := hk ▸ hz
  obtain ⟨h₁, x₁, hrun, H₁, e₁⟩ := flushNode_eq sha hw T.cowid_ne (h.length + 1) t
    (H.height_le.trans (Nat.le_succ _)) h T.root S H hz
  have hflush : Follows h S T.cowid
      (.ok (h₁, { T with root := x₁ }, t.flushCount)) (.ok (t.share sha, t.flushCount)) :=
    ⟨h₁, { T with root := x₁ }, ∅, rfl, rfl, H₁, e₁⟩
  rcases H.cell_cases with ⟨n, hcell, rfl⟩ | ⟨n, child, hcell, rfl⟩
  · cases hcell.symm.trans cell
    simpa only [MutableTree.walkSubtree, hread, hne, if_false, hrun, bind, Except.bind] using hflush
  · cases hcell.symm.trans cell
    by_cases hempty : n.isEmpty = true
    · -- the empty root is replaced by a new one
      obtain ⟨m, owned, v, -, -, -, -⟩ := H.inner_inv
      cases hcell.symm.trans v.cell
      have hbranch : ∀ b, n.branches b = none := by
        intro b
        have hall := List.all_eq_true.mp hempty b (List.mem_finRange b)
        simpa [InnerNode.isEmptyBranch] using hall
      have hchild : child = fun _ => .empty := by
        funext b
        have hslot := v.slot b
        rw [hbranch b] at hslot
        exact hslot.1
      have hhashes : n.getChildHash = fun _ => BaseUInt.zero := by
        funext b
        simp [InnerNode.getChildHash, hbranch b]
      let fresh : InnerNode := ⟨0, .zero, fun _ => none⟩
      have v' : HoldsInner (alloc h (.inner fresh)).1 T.cowid h.length fresh (fun _ => .empty)
          (fun _ => ∅) :=
        ⟨get_alloc_self h (.inner fresh), .inl rfl, fun _ => ⟨rfl, rfl⟩, fun _ _ _ => by simp,
          fun _ => by simp, fun _ _ => rfl⟩
      have hshare : (Tree.inner n.cowid n.hash n.getChildHash child).share sha =
          .inner 0 .zero (fun _ => .zero) (fun _ => .empty) := by
        simp [Tree.share, show n.cowid ≠ 0 from hne, hchild, hhashes, Tree.isLoaded, Tree.branches,
          Tree.isEmpty, computeInnerHash]
      have hcount : (Tree.inner n.cowid n.hash n.getChildHash child).flushCount = 1 := by
        simp [Tree.flushCount, show n.cowid ≠ 0 from hne, hchild]
      refine ⟨_, { T with root := h.length }, _, ?_, rfl, ?_,
        (Evolves.alloc h S (.inner fresh)).shrink (T := ∅) (Set.empty_subset _)⟩
      · simp only [MutableTree.walkSubtree, hread, hne, if_false, hempty, if_true, newInner, hcount,
          bind, Except.bind]
        rfl
      · rw [hshare]
        simpa [fresh, vacantHash] using v'.holds
    · simpa only [MutableTree.walkSubtree, hread, hne, if_false, hempty, hrun, bind, Except.bind,
        Bool.false_eq_true] using hflush

variable {next : ℕ}

/-- What copying the subtree `t` of a handle that owns `c` does: the copy is shared,
and no existing cell is written. It panics on an owned leaf that is too short. -/
def ClonesTo (c next : ℕ) (t : Tree) (clone : Heap → Addr → Except Fault (Heap × Addr)) : Prop :=
  ∀ (h : Heap) (x : Addr) (S : Set Addr), Holds h c x t S →
    (t.clonable = true → ∃ h' x', clone h x = .ok (h', x') ∧
      Holds h' next x' (t.share sha) ∅ ∧ Evolves h ∅ h' ∅) ∧
    (t.clonable = false → clone h x = .error .panic)

/-- A source tree survives writes to a cell it does not contain. -/
theorem HoldsInner.evolves {h' : Heap} {T T' : Set Addr} (v : HoldsInner h c a n child owned)
    (e : Evolves h T h' T') (hd : Disjoint (footprint a n owned) T)
    (hT : ∀ x ∈ T, ∃ n, h[x]? = some n ∧ n.cowid ≠ 0) (ha : a ∉ T) :
    HoldsInner h' c a n child owned := by
  refine ⟨e.get v.cell ha, v.own, fun b => ?_, v.apart, v.self, v.closed⟩
  refine (v.slot b).map fun x H => H.evolves e ?_ hT
  exact hd.mono_left (owned_subset a n owned b)

/-- The copy `m` at `cloned` of the node `n`, when the branches `done` have been copied. The
store was `h₀` before. -/
structure Copied (c next : ℕ) (a cloned : Addr) (h₀ : Heap) (n : InnerNode)
    (child : Fin 16 → Tree) (owned : Fin 16 → Set Addr) (done : Finset (Fin 16)) (h : Heap)
    (m : InnerNode) : Prop where
  source : HoldsInner h c a n child owned
  cell : h[cloned]? = some (.inner m)
  cowid_eq : m.cowid = next
  copied : ∀ b ∈ done, HoldsSlot h next (m.branches b) ((child b).share sha) ∅
  unloaded : ∀ b, (child b).isLoaded = false → m.branches b = n.branches b
  evolves : Evolves h₀ {cloned} h {cloned}

namespace Copied

variable {clone : Heap → Addr → Except Fault (Heap × Addr)} {cloned : Addr} {h₀ : Heap}
  {done : Finset (Fin 16)} {m : InnerNode}

/-- A copied child is hung under the copy. -/
theorem hang (k : Copied sha c next a cloned h₀ n child owned done h m) (hnext : next ≠ 0)
    (ha : a ≠ cloned) (hcloned : cloned ∉ HoldsInner.footprint a n owned) {b : Fin 16}
    (hload : (child b).isLoaded = true) {h₁ : Heap} {x : Addr} (e₁ : Evolves h ∅ h₁ ∅)
    (H₁ : Holds h₁ next x ((child b).share sha) ∅) :
    ∃ h', setChild h₁ cloned b (some x) = .ok h' ∧
      Copied sha c next a cloned h₀ n child owned (insert b done) h'
        (m.withChild b (some x)) := by
  have hm : m.cowid ≠ 0 := k.cowid_eq ▸ hnext
  have cell₁ : h₁[cloned]? = some (.inner m) := e₁.get k.cell (by simp)
  have e₂ : Evolves h {cloned} (h₁.set cloned (.inner (m.withChild b (some x)))) {cloned} := by
    refine ⟨by simpa using e₁.grows, ?_, fun y hy => .inl hy⟩
    intro y hy hne
    rw [List.getElem?_set_ne (fun heq => hne heq.symm)]
    exact e₁.frame y hy (by simp)
  have howned : ∀ y ∈ ({cloned} : Set Addr), ∃ k, h[y]? = some k ∧ k.cowid ≠ 0 := by
    rintro y rfl
    exact ⟨_, k.cell, hm⟩
  refine ⟨h₁.set cloned (.inner (m.withChild b (some x))), ?_, ?_, get_write_self cell₁,
    k.cowid_eq, ?_, ?_, k.evolves.trans e₂⟩
  · simp [setChild, readNode_of_cell cell₁, k.cowid_eq, hnext, bind, Except.bind]
  · exact k.source.evolves e₂ (Set.disjoint_singleton_right.mpr hcloned) howned ha
  · intro b' hb'
    by_cases hbb : b' = b
    · subst hbb
      have H := H₁.write_other (.inner (m.withChild b' (some x))) cell₁ hm (by simp)
      simpa [InnerNode.withChild, HoldsSlot] using H
    · have hslot := k.copied b' (Finset.mem_of_mem_insert_of_ne hb' hbb)
      simp only [InnerNode.withChild, update_of_ne hbb]
      exact hslot.map fun y H => H.evolves e₂ (Set.empty_disjoint _) howned
  · intro b' hnl
    have hbb : b' ≠ b := by
      rintro rfl
      simp [hload] at hnl
    simpa [InnerNode.withChild, hbb] using k.unloaded b' hnl

/-- One round of the branch loop. -/
theorem step (k : Copied sha c next a cloned h₀ n child owned done h m) (hnext : next ≠ 0)
    (ha : a ≠ cloned) (hcloned : cloned ∉ HoldsInner.footprint a n owned) (b : Fin 16)
    (hclone : ClonesTo sha c next (child b) clone) :
    ((child b).clonable = true → ∃ h' m',
      (∀ bs, MutableTree.cloneChildren clone n cloned (b :: bs) h =
        MutableTree.cloneChildren clone n cloned bs h') ∧
      Copied sha c next a cloned h₀ n child owned (insert b done) h' m') ∧
    ((child b).clonable = false →
      ∀ bs, MutableTree.cloneChildren clone n cloned (b :: bs) h = .error .panic) := by
  rcases (k.source.slot b).cases with ⟨hash, x, hs, H⟩ | ⟨hnone, -, hnl, hz, hkept⟩
  · obtain ⟨hgood, hbad⟩ := hclone h x (owned b) H
    constructor
    · intro hcl
      obtain ⟨h₁, x₁, hrun, H₁, e₁⟩ := hgood hcl
      obtain ⟨h', hset, k'⟩ := k.hang sha hnext ha hcloned H.isLoaded e₁ H₁
      refine ⟨h', _, fun bs => ?_, k'⟩
      simp [MutableTree.cloneChildren, InnerNode.getChild, hs, hrun, hset, bind, Except.bind]
    · intro hcl bs
      simp [MutableTree.cloneChildren, InnerNode.getChild, hs, hbad hcl, bind, Except.bind]
  · refine ⟨fun _ => ⟨h, m, fun bs => ?_, { k with copied := ?_ }⟩, ?_⟩
    · simp [MutableTree.cloneChildren, InnerNode.getChild, hnone]
    · intro b' hb'
      rcases Finset.mem_insert.mp hb' with rfl | hb'
      · rw [k.unloaded b' hnl, Tree.share_of_shared hz]
        exact hkept h next
      · exact k.copied b' hb'
    · intro hcl
      simp [Tree.clonable_of_shared hz] at hcl

/-- The branch loop of a copy, for the branches `bs` that are still to come. -/
theorem cloneChildren_eq (hnext : next ≠ 0) (ha : a ≠ cloned)
    (hcloned : cloned ∉ HoldsInner.footprint a n owned)
    (hclone : ∀ b, ClonesTo sha c next (child b) clone) :
    ∀ (bs : List (Fin 16)) {done : Finset (Fin 16)} {h : Heap} {m : InnerNode},
      (∀ b, b ∈ done ∨ b ∈ bs) → Copied sha c next a cloned h₀ n child owned done h m →
      ((∀ b ∈ bs, (child b).clonable = true) → ∃ h' m',
        MutableTree.cloneChildren clone n cloned bs h = .ok h' ∧
        Copied sha c next a cloned h₀ n child owned Finset.univ h' m') ∧
      ((∃ b ∈ bs, (child b).clonable = false) →
        MutableTree.cloneChildren clone n cloned bs h = .error .panic) := by
  intro bs
  induction bs with
  | nil =>
    intro done h m hrest k
    obtain rfl : done = Finset.univ := Finset.eq_univ_iff_forall.mpr (by simpa using hrest)
    exact ⟨fun _ => ⟨h, m, rfl, k⟩, by simp⟩
  | cons b bs ih =>
    intro done h m hrest k
    obtain ⟨hgood, hbad⟩ := k.step sha hnext ha hcloned b (hclone b)
    cases hcl : (child b).clonable with
    | false => exact ⟨fun hall => by simp [hall b mem_cons_self] at hcl, fun _ => hbad hcl bs⟩
    | true =>
      obtain ⟨h₁, m₁, hrun, k₁⟩ := hgood hcl
      have hrest₁ : ∀ b', b' ∈ insert b done ∨ b' ∈ bs := by
        intro b'
        have hor := hrest b'
        simp only [List.mem_cons, Finset.mem_insert] at hor ⊢
        tauto
      obtain ⟨hok, herr⟩ := ih hrest₁ k₁
      rw [hrun]
      refine ⟨fun hall => hok fun b' hb' => hall b' (mem_cons_of_mem b hb'), ?_⟩
      rintro ⟨b', hb', hfalse⟩
      rcases List.mem_cons.mp hb' with rfl | hb'
      · simp [hcl] at hfalse
      · exact herr ⟨b', hb', hfalse⟩

end Copied

/-- Copying an owned leaf. -/
theorem clonesTo_leaf {n : LeafNode} (hz : n.cowid ≠ 0) (fuel : ℕ) :
    ClonesTo sha c next (.leaf n)
      (MutableTree.cloneLoadedSubtree sha next (fuel + 1)) := by
  intro h x S H
  obtain ⟨cell, -⟩ := H.leaf_inv
  have hread := readNode_of_cell cell
  have hne : (TreeNode.leaf n).cowid ≠ 0 := hz
  let copy : LeafNode := { n with cowid := next }
  constructor
  · intro hcl
    have hsize : minItemBytes ≤ n.item.size := by simpa [Tree.clonable, hz] using hcl
    have cell₁ : (alloc h (.leaf copy)).1[h.length]? = some (.leaf copy) :=
      get_alloc_self h (.leaf copy)
    obtain ⟨h₁, hrun, H₁, e₁⟩ := rehashAndShare_leaf sha (c := next) cell₁
    obtain ⟨hm, hup, hsh⟩ := rehashAndShare_bind sha hrun
    refine ⟨h₁, h.length, ?_, ?_, ?_⟩
    · have hcopy : cloneWithCowid h x next = .ok ((alloc h (.leaf copy)).1, h.length) := by
        simp only [cloneWithCowid, hread, newLeafWithHash, hsize, if_true, bind, Except.bind]
        rfl
      simp only [MutableTree.cloneLoadedSubtree, hread, hne, if_false, hcopy, hup, hsh, bind,
        Except.bind]
    · simpa [Tree.share, hz] using H₁
    · exact ((Evolves.alloc h ∅ (.leaf copy)).shrink (by simp)).trans e₁
  · intro hcl
    have hsize : ¬ minItemBytes ≤ n.item.size := by simpa [Tree.clonable, hz] using hcl
    have hcopy : cloneWithCowid h x next = .error .panic := by
      simp only [cloneWithCowid, hread, newLeafWithHash, hsize, if_false, bind, Except.bind]
    simp only [MutableTree.cloneLoadedSubtree, hread, hne, if_false, hcopy, bind, Except.bind]

/-- Copying an owned inner node, given that its children are copied. -/
theorem clonesTo_inner (hnext : next ≠ 0) {cowid : ℕ} {hash : Uint256} (hz : cowid ≠ 0)
    {fuel : ℕ} (hclone : ∀ b, ClonesTo sha c next (child b)
      (MutableTree.cloneLoadedSubtree sha next fuel)) :
    ClonesTo sha c next (.inner cowid hash hashes child)
      (MutableTree.cloneLoadedSubtree sha next (fuel + 1)) := by
  intro h x S H
  obtain ⟨n, owned, v, rfl, -, rfl, rfl⟩ := H.inner_inv
  have hread := readNode_of_cell v.cell
  have hne : (TreeNode.inner n).cowid ≠ 0 := hz
  let copy : InnerNode := { n with cowid := next }
  have e₀ : Evolves h ∅ (alloc h (.inner copy)).1 {h.length} :=
    (Evolves.alloc h ∅ (.inner copy)).shrink (by simp)
  have k : Copied sha c next x h.length (alloc h (.inner copy)).1 n child owned ∅
      (alloc h (.inner copy)).1 copy :=
    ⟨v.evolves e₀ (Set.disjoint_empty _) (by simp) (by simp), get_alloc_self h (.inner copy), rfl,
      by simp, fun _ _ => rfl, .refl _ _⟩
  obtain ⟨hok, herr⟩ := Copied.cloneChildren_eq sha hnext (Nat.ne_of_lt H.lt_length)
    (fun hmem => lt_irrefl _ (H.owned_lt _ hmem)) hclone (List.finRange 16) (by simp) k
  have hcopy : cloneWithCowid h x next = .ok ((alloc h (.inner copy)).1, h.length) := by
    simp only [cloneWithCowid, hread, bind, Except.bind]
    rfl
  constructor
  · intro hcl
    obtain ⟨h₁, m, hrun₁, k₁⟩ := hok (by simpa [Tree.clonable, hz] using hcl)
    have v₁ : HoldsInner h₁ next h.length m (fun b => (child b).share sha) (fun _ => ∅) :=
      ⟨k₁.cell, .inr k₁.cowid_eq, fun b => k₁.copied b (Finset.mem_univ b), fun _ _ _ => by simp,
        fun _ => by simp, fun _ _ => rfl⟩
    obtain ⟨h₂, hrun₂, H₂, e₂⟩ := v₁.rehashAndShare sha (k₁.cowid_eq ▸ hnext)
      (fun _ => rfl) rfl
    obtain ⟨hmid, hup, hsh⟩ := rehashAndShare_bind sha hrun₂
    refine ⟨h₂, h.length, ?_, ?_, (e₀.trans k₁.evolves).trans e₂⟩
    · simp only [MutableTree.cloneLoadedSubtree, hread, hne, if_false, hcopy, hrun₁, hup, hsh,
        bind, Except.bind]
    · -- an unloaded child keeps the hash of its slot
      have hhash : ∀ b, ((child b).share sha).isLoaded = false →
          m.getChildHash b = n.getChildHash b := by
        intro b hl
        rw [Tree.isLoaded_share] at hl
        simp only [InnerNode.getChildHash, k₁.unloaded b hl]
      rw [Tree.share_inner sha hz]
      convert H₂ using 4 <;> simp_all
  · intro hcl
    have hbad : ∃ b ∈ List.finRange 16, (child b).clonable = false := by
      simpa [Tree.clonable, hz] using hcl
    simp only [MutableTree.cloneLoadedSubtree, hread, hne, if_false, hcopy, herr hbad, bind,
      Except.bind]

/-- Copying a held subtree gives a shared copy of it. -/
theorem cloneLoadedSubtree_eq (hnext : next ≠ 0) :
    ∀ (fuel : ℕ) (t : Tree), t.height ≤ fuel →
      ClonesTo sha c next t (MutableTree.cloneLoadedSubtree sha next fuel) := by
  intro fuel
  induction fuel with
  | zero =>
    intro t hfuel h x S H
    rcases H.cell_cases with ⟨n, -, rfl⟩ | ⟨n, child, -, rfl⟩ <;> simp [Tree.height] at hfuel
  | succ fuel ih =>
    intro t hfuel h x S H
    by_cases hz : t.cowid = 0
    · obtain ⟨k, cell, hk, -⟩ := H.cell_eq
      rw [Tree.share_of_shared hz, Tree.clonable_of_shared hz]
      refine ⟨fun _ => ⟨h, x, ?_, H.shared_any (H.owned_eq_empty hz), .refl h ∅⟩, by simp⟩
      simp [MutableTree.cloneLoadedSubtree, readNode_of_cell cell, hk, hz, bind, Except.bind]
    · rcases H.cell_cases with ⟨n, -, rfl⟩ | ⟨n, child, -, rfl⟩
      · exact clonesTo_leaf sha hz fuel h x S H
      · refine clonesTo_inner sha hnext hz (fun b => ih (child b) ?_) h x S H
        have := Tree.height_child_lt n.cowid n.hash n.getChildHash child b
        omega

/-- `mutable_snapshot` over the store: the new root holds the shared tree, and the
cells of every other tree are left as they were. -/
theorem mutableSnapshot_eq {T : MutableTree} (H : Holds h T.cowid T.root t S)
    (hnext : T.cowid < next) :
    (t.clonable = true → ∃ h' T', T.mutableSnapshot sha h next = .ok (h', T') ∧
      T'.cowid = next ∧ Holds h' next T'.root (t.share sha) ∅ ∧ Evolves h ∅ h' ∅) ∧
    (t.clonable = false → T.mutableSnapshot sha h next = .error .panic) := by
  obtain ⟨hok, herr⟩ := cloneLoadedSubtree_eq sha (c := T.cowid) (Nat.ne_zero_of_lt hnext)
    (h.length + 1) t (H.height_le.trans (Nat.le_succ _)) h T.root S H
  constructor
  · intro hcl
    obtain ⟨h', x', hrun, H', e'⟩ := hok hcl
    refine ⟨h', ⟨x', next, Nat.ne_zero_of_lt hnext⟩, ?_, rfl, H', e'⟩
    simp only [MutableTree.mutableSnapshot, hnext, dif_pos, hrun, bind, Except.bind]
  · intro hcl
    simp only [MutableTree.mutableSnapshot, hnext, dif_pos, herr hcl, bind, Except.bind]

end Quaxar.SHAMap
