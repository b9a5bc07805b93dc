import Quaxar.SHAMap.Sharing

/-!
# Families of trees that share nodes

A family is a list of handles over one store, all descending from one handle by
`mutable_snapshot`. Its reference is a list of handles each with a store of its
own: an operation runs in the private store of its handle, and a snapshot is taken
in a copy of the private store of its source, so that nothing can be shared. The
two run in lockstep: they answer alike, panic alike, and every handle observes the
same item map and the same root hash in both.
-/

namespace Quaxar.SHAMap

open CellStore
open Function (update update_of_ne update_self)

/-- An operation on one tree. A flush without a writer is `unshare`. -/
inductive TreeOp where
  | add (ty : LeafType) (item : SHAMapItem)
  | update (ty : LeafType) (item : SHAMapItem)
  | delete (key : Uint256)
  | flush (writer : Option MutableTree.WriteNode)

def TreeOp.Faithful : TreeOp → Prop
  | .flush writer => ∀ write ∈ writer, FaithfulWriter write
  | _ => True

/-- What an operation reports to its caller. -/
inductive Outcome where
  | answer (b : Bool)
  | flushed (count : ℕ)
  | failed (e : MutationError)
  | taken
deriving DecidableEq

/-- An operation of a family: on the tree at `i`, or a snapshot of it. -/
inductive FamilyOp where
  | on (i : ℕ) (op : TreeOp)
  | snapshot (i : ℕ) (nextCowid : ℕ)

def FamilyOp.Faithful : FamilyOp → Prop
  | .on _ op => op.Faithful
  | .snapshot _ _ => True

/-- A returned error leaves the state of the call; a panic ends the run. -/
def report {σ β : Type} (s : σ) (out : β → Outcome) :
    Except Fault (σ × β) → Except Fault (σ × Outcome)
  | .ok (s', b) => .ok (s', out b)
  | .error (.err e) => .ok (s, .failed e)
  | .error .panic => .error .panic

variable (sha : Sha512Half)

/-- Run one operation of the handle `T` over the store `h`. -/
def MutableTree.apply (h : Heap) (T : MutableTree) :
    TreeOp → Except Fault ((Heap × MutableTree) × Outcome)
  | .add ty item => report (h, T) .answer
      ((T.addItem sha h ty item).map fun r => ((r.1, r.2.1), r.2.2))
  | .update ty item => report (h, T) .answer
      ((T.updateItem sha h ty item).map fun r => ((r.1, r.2.1), r.2.2))
  | .delete key => report (h, T) .answer
      ((T.deleteItem sha h key).map fun r => ((r.1, r.2.1), r.2.2))
  | .flush writer => report (h, T) .flushed
      ((T.walkSubtree sha h writer).map fun r => ((r.1, r.2.1), r.2.2))

/-- The same operation on a tree value. -/
def Tree.apply (c : ℕ) (t : Tree) : TreeOp → Except Fault (Tree × Outcome)
  | .add ty item => report t .answer (t.addItem sha c ty item)
  | .update ty item => report t .answer (t.updateItem sha c ty item)
  | .delete key => report t .answer (t.deleteItem sha c key)
  | .flush _ => .ok (t.share sha, .flushed t.flushCount)

/-- Handles over one store. -/
structure Family where
  heap : Heap
  trees : List MutableTree

/-- One step of a family that shares its store. There is no tree at an index out of
range to operate on. -/
def Family.step (F : Family) : FamilyOp → Except Fault (Family × Outcome)
  | .on i op =>
    match F.trees[i]? with
    | none => .error .panic
    | some T => do
      let ((h, T), out) ← T.apply sha F.heap op
      .ok (⟨h, F.trees.set i T⟩, out)
  | .snapshot i nextCowid =>
    match F.trees[i]? with
    | none => .error .panic
    | some T => do
      let (h, T) ← T.mutableSnapshot sha F.heap nextCowid
      .ok (⟨h, F.trees ++ [T]⟩, .taken)

/-- One step of a family in which every handle has its own store. -/
def isolatedStep (L : List (Heap × MutableTree)) :
    FamilyOp → Except Fault (List (Heap × MutableTree) × Outcome)
  | .on i op =>
    match L[i]? with
    | none => .error .panic
    | some (h, T) => do
      let (own, out) ← T.apply sha h op
      .ok (L.set i own, out)
  | .snapshot i nextCowid =>
    match L[i]? with
    | none => .error .panic
    | some (h, T) => do
      let copy ← T.mutableSnapshot sha h nextCowid
      .ok (L ++ [copy], .taken)

/-- Run a list of operations, collecting what each one reports. -/
def runOps {σ ω : Type} (step : σ → ω → Except Fault (σ × Outcome)) (s : σ) :
    List ω → Except Fault (σ × List Outcome)
  | [] => .ok (s, [])
  | op :: ops => do
    let (s, out) ← step s op
    let (s, outs) ← runOps step s ops
    .ok (s, out :: outs)

/-- What a handle shows: the item under every key, and the hash of the root. -/
def observe (h : Heap) (T : MutableTree) :
    (Uint256 → Except Fault (Option SHAMapItem)) × Except Fault Uint256 :=
  (fun key => (findKey h T.root key).map (Option.map LeafNode.item),
    (readNode h T.root).map TreeNode.hash)

/-- The same for a tree value. -/
def Tree.observe (t : Tree) :
    (Uint256 → Except Fault (Option SHAMapItem)) × Except Fault Uint256 :=
  (fun key => (t.find key).map (Option.map LeafNode.item), .ok t.hash)

variable {h : Heap} {T : MutableTree} {t : Tree} {S : Set Addr}

theorem findKey_eq (H : Holds h T.cowid T.root t S) (key : Uint256) :
    findKey h T.root key = t.find key := by
  have hwalk := walkTowardsKeyWithPath_eq H key
  unfold findKey Tree.find
  cases hw : Tree.walk key 0 t with
  | error f =>
    rw [hw] at hwalk
    simp only [hwalk, bind, Except.bind]
  | ok terminal =>
    rw [hw] at hwalk
    obtain ⟨path, a', id', t', S', plug, hpath, sp, hend⟩ := hwalk
    simp only [hpath, bind, Except.bind]
    cases terminal with
    | none => rfl
    | some n =>
      subst hend
      simp only [Option.map_some, readNode_of_cell sp.bottom.leaf_inv.1, Option.filter]
      simp

theorem observe_eq (H : Holds h T.cowid T.root t S) : observe h T = t.observe := by
  obtain ⟨n, cell, -, hhash⟩ := H.cell_eq
  simp only [observe, Tree.observe, findKey_eq H, readNode_of_cell cell, Except.map, hhash]

theorem apply_follows (sha : Sha512Half) (H : Holds h T.cowid T.root t S)
    (op : TreeOp) (hop : op.Faithful) :
    match t.apply sha T.cowid op with
    | .error f => T.apply sha h op = .error f
    | .ok (t', out) => ∃ h' T' S', T.apply sha h op = .ok ((h', T'), out) ∧
        T'.cowid = T.cowid ∧ Holds h' T.cowid T'.root t' S' ∧ Evolves h S h' S' := by
  have hreport : ∀ {β : Type} (out : β → Outcome) (r : Except Fault (Heap × MutableTree × β))
      (spec : Except Fault (Tree × β)), Follows h S T.cowid r spec →
      match report t out spec with
      | .error f => report (h, T) out (r.map fun r => ((r.1, r.2.1), r.2.2)) = .error f
      | .ok (t', o) => ∃ h' T' S',
          report (h, T) out (r.map fun r => ((r.1, r.2.1), r.2.2)) = .ok ((h', T'), o) ∧
          T'.cowid = T.cowid ∧ Holds h' T.cowid T'.root t' S' ∧ Evolves h S h' S' := by
    intro β out r spec hf
    cases spec with
    | error f =>
      have hr : r = .error f := hf
      subst hr
      cases f with
      | err e => exact ⟨h, T, S, rfl, rfl, H, .refl h S⟩
      | panic => rfl
    | ok p =>
      obtain ⟨t', b⟩ := p
      obtain ⟨h', T', S', hr, hT', H', e'⟩ := hf
      subst hr
      exact ⟨h', T', S', rfl, hT', H', e'⟩
  cases op with
  | add ty item => exact hreport .answer _ _ (addItem_follows H)
  | update ty item => exact hreport .answer _ _ (updateItem_follows sha ty H)
  | delete key => exact hreport .answer _ _ (deleteItem_follows sha H)
  | flush writer => exact hreport .flushed _ _ (walkSubtree_follows sha writer hop H)

/-- A handle whose nodes keep the copy-on-write discipline. -/
def MutableTree.Valid (h : Heap) (T : MutableTree) : Prop :=
  ∃ t S, Holds h T.cowid T.root t S

theorem MutableTree.new_valid (h : Heap) (cowid : ℕ) (hc : cowid ≠ 0) :
    (new h cowid hc).2.Valid (new h cowid hc).1 :=
  ⟨_, _, (HoldsInner.vacant (get_alloc_self h _)).holds⟩

theorem Tree.walk_inner (key : Uint256) (d cowid : ℕ) (hash : Uint256) (hashes : Fin 16 → Uint256)
    (child : Fin 16 → Tree) :
    walk key d (.inner cowid hash hashes child) =
      enter d (hashes (keyNibble key d)) (child (keyNibble key d)) >>= fun _ =>
        walk key (d + 1) (child (keyNibble key d)) := by
  simp only [walk, descend, bind, Except.bind]
  cases enter d (hashes (keyNibble key d)) (child (keyNibble key d)) with
  | error f => rfl
  | ok u =>
    cases descend key _ _ (d + 1) (child (keyNibble key d)) <;> rfl

/-- Sharing a tree keeps the item at the end of every walk. -/
theorem Tree.walk_share (sha : Sha512Half) (key : Uint256) (t : Tree) :
    ∀ d, (walk key d (t.share sha)).map (Option.map LeafNode.item) =
      (walk key d t).map (Option.map LeafNode.item) := by
  induction t with
  | empty => intro d; rfl
  | stub => intro d; rfl
  | leaf n =>
    intro d
    unfold share
    split_ifs <;> rfl
  | inner cowid hash hashes child ih =>
    intro d
    by_cases hz : cowid = 0
    · rw [Tree.share_of_shared (show Tree.cowid (.inner cowid hash hashes child) = 0 from hz)]
    · rw [share_inner sha hz, walk_inner, walk_inner]
      have henter : ∀ (t : Tree) (hash hash' : Uint256), (t.isLoaded = false → hash = hash') →
          enter d hash (t.share sha) = enter d hash' t := by
        intro t hash hash' hh
        cases t with
        | empty => rfl
        | stub => rw [hh rfl]; rfl
        | leaf n => unfold share; split_ifs <;> rfl
        | inner => unfold share; split_ifs <;> rfl
      rw [henter (child (keyNibble key d)) _ (hashes (keyNibble key d)) (fun hl => by simp [hl])]
      cases enter d (hashes (keyNibble key d)) (child (keyNibble key d)) with
      | error f => rfl
      | ok u => exact ih (keyNibble key d) (d + 1)

theorem Tree.find_share (sha : Sha512Half) (key : Uint256) (t : Tree) :
    ((t.share sha).find key).map (Option.map LeafNode.item) =
      (t.find key).map (Option.map LeafNode.item) := by
  have hfind : ∀ u : Tree, (u.find key).map (Option.map LeafNode.item) =
      ((walk key 0 u).map (Option.map LeafNode.item)).map
        (Option.filter fun item => item.key = key) := by
    intro u
    simp only [find, bind, Except.bind]
    cases walk key 0 u with
    | error f => rfl
    | ok terminal =>
      cases terminal with
      | none => rfl
      | some n => by_cases hk : n.item.key = key <;> simp [Except.map, Option.filter, hk]
  rw [hfind, hfind, walk_share]

/-- A family and its reference: each handle holds the same tree in both, and no
owned node of the shared store belongs to two handles. -/
structure Lockstep (F : Family) (L : List (Heap × MutableTree)) (t : ℕ → Tree)
    (S : ℕ → Set Addr) : Prop where
  length_eq : L.length = F.trees.length
  shared : ∀ i T, F.trees[i]? = some T → Holds F.heap T.cowid T.root (t i) (S i)
  isolated : ∀ i T own, F.trees[i]? = some T → L[i]? = some own →
    own.2.cowid = T.cowid ∧ ∃ R, Holds own.1 own.2.cowid own.2.root (t i) R
  apart : ∀ i j, i < F.trees.length → j < F.trees.length → i ≠ j → Disjoint (S i) (S j)

namespace Lockstep

variable {F : Family} {L : List (Heap × MutableTree)} {t : ℕ → Tree} {S : ℕ → Set Addr}

theorem get (l : Lockstep F L t S) (i : ℕ) :
    (F.trees[i]? = none ∧ L[i]? = none) ∨ ∃ T h' T', F.trees[i]? = some T ∧
      L[i]? = some (h', T') := by
  rcases lt_or_ge i F.trees.length with hlt | hge
  · have hlt' : i < L.length := l.length_eq ▸ hlt
    exact .inr ⟨F.trees[i], L[i].1, L[i].2, List.getElem?_eq_getElem hlt,
      List.getElem?_eq_getElem hlt'⟩
  · exact .inl ⟨List.getElem?_eq_none hge, List.getElem?_eq_none (l.length_eq ▸ hge)⟩

variable {T₁ : MutableTree} {h₁ : Heap} {u : Tree} {R : Set Addr}

/-- A step of the tree at `i` within its own footprint keeps the family in step. -/
theorem set (l : Lockstep F L t S) {i : ℕ} (own₁ : Heap × MutableTree) {S₁ : Set Addr}
    (hi : F.trees[i]? = some T) (e : Evolves F.heap (S i) h₁ S₁)
    (H : Holds h₁ T₁.cowid T₁.root u S₁) (hown : own₁.2.cowid = T₁.cowid)
    (H' : Holds own₁.1 own₁.2.cowid own₁.2.root u R) :
    Lockstep ⟨h₁, F.trees.set i T₁⟩ (L.set i own₁) (update t i u)
      (update S i S₁) := by
  have hlt : i < F.trees.length := (List.getElem?_eq_some_iff.mp hi).1
  have hcells : ∀ x ∈ S i, ∃ n, F.heap[x]? = some n ∧ n.cowid ≠ 0 := by
    intro x hx
    obtain ⟨n, cell, -, hne⟩ := (l.shared i T hi).owned_cell x hx
    exact ⟨n, cell, hne⟩
  -- the new footprint holds old cells of tree `i` and cells that were not there before
  have hnew : ∀ j, j < F.trees.length → j ≠ i → Disjoint (S j) S₁ := by
    intro j hj hne
    rw [Set.disjoint_left]
    intro x hx hx₁
    rcases e.owned x hx₁ with hold | hfresh
    · exact Set.disjoint_left.mp (l.apart j i hj hlt hne) hx hold
    · have hlt' := (l.shared j _ (List.getElem?_eq_getElem hj)).owned_lt x hx
      exact absurd hlt' (Nat.not_lt.mpr hfresh)
  refine ⟨by simp [l.length_eq], ?_, ?_, ?_⟩
  · intro j T' hj
    by_cases hji : j = i
    · subst hji
      rw [List.getElem?_set_self hlt] at hj
      cases hj
      simpa using H
    · rw [List.getElem?_set_ne (Ne.symm hji)] at hj
      have hlt' : j < F.trees.length := (List.getElem?_eq_some_iff.mp hj).1
      rw [update_of_ne hji, update_of_ne hji]
      exact (l.shared j T' hj).evolves e (l.apart j i hlt' hlt hji) hcells
  · intro j T' own hj hj'
    by_cases hji : j = i
    · subst hji
      rw [List.getElem?_set_self hlt] at hj
      rw [List.getElem?_set_self (l.length_eq ▸ hlt)] at hj'
      cases hj
      cases hj'
      simpa using ⟨hown, R, H'⟩
    · rw [List.getElem?_set_ne (Ne.symm hji)] at hj hj'
      rw [update_of_ne hji]
      exact l.isolated j T' own hj hj'
  · intro j k hj hk hne
    simp only [List.length_set] at hj hk
    by_cases hji : j = i
    · subst hji
      rw [update_self, update_of_ne hne.symm]
      exact (hnew k hk hne.symm).symm
    · by_cases hki : k = i
      · subst hki
        rw [update_self, update_of_ne hji]
        exact hnew j hj hji
      · rw [update_of_ne hji, update_of_ne hki]
        exact l.apart j k hj hk hne

theorem append (l : Lockstep F L t S) (own₁ : Heap × MutableTree) (e : Evolves F.heap ∅ h₁ ∅)
    (H : Holds h₁ T₁.cowid T₁.root u ∅) (hown : own₁.2.cowid = T₁.cowid)
    (H' : Holds own₁.1 own₁.2.cowid own₁.2.root u R) :
    Lockstep ⟨h₁, F.trees ++ [T₁]⟩ (L ++ [own₁]) (update t F.trees.length u)
      (update S F.trees.length ∅) := by
  have hlt : ∀ {j T}, j ≠ F.trees.length → (F.trees ++ [T₁])[j]? = some T → j < F.trees.length := by
    intro j T hji hj
    have := (List.getElem?_eq_some_iff.mp hj).1
    simp only [List.length_append, List.length_singleton] at this
    omega
  refine ⟨by simp [l.length_eq], ?_, ?_, ?_⟩
  · intro j T' hj
    by_cases hji : j = F.trees.length
    · subst hji
      simp only [List.getElem?_concat_length, Option.some.injEq] at hj
      subst hj
      simpa using H
    · have hlt := hlt hji hj
      rw [List.getElem?_append_left hlt] at hj
      rw [update_of_ne hji, update_of_ne hji]
      exact (l.shared j T' hj).evolves e (Set.disjoint_empty _) (by simp)
  · intro j T' own hj hj'
    by_cases hji : j = F.trees.length
    · subst hji
      simp only [List.getElem?_concat_length, Option.some.injEq] at hj
      rw [← l.length_eq, List.getElem?_concat_length] at hj'
      subst hj
      cases hj'
      simpa using ⟨hown, R, H'⟩
    · have hlt := hlt hji hj
      rw [List.getElem?_append_left hlt] at hj
      rw [List.getElem?_append_left (l.length_eq ▸ hlt)] at hj'
      rw [update_of_ne hji]
      exact l.isolated j T' own hj hj'
  · intro j k hj hk hne
    simp only [List.length_append, List.length_singleton] at hj hk
    by_cases hji : j = F.trees.length
    · subst hji
      rw [update_self]
      exact Set.empty_disjoint _
    · by_cases hki : k = F.trees.length
      · subst hki
        rw [update_self]
        exact Set.disjoint_empty _
      · rw [update_of_ne hji, update_of_ne hki]
        exact l.apart j k (by omega) (by omega) hne

/-- What one step leaves of the trees it is not applied to, and what a snapshot adds. -/
structure Framed (sha : Sha512Half) (F F' : Family) (t t' : ℕ → Tree)
    (op : FamilyOp) : Prop where
  other : ∀ j T, F.trees[j]? = some T → (∀ i o, op = .on i o → j ≠ i) →
    F'.trees[j]? = some T ∧ t' j = t j
  flushed : ∀ i w T', op = .on i (.flush w) → F'.trees[i]? = some T' →
    t' i = (t i).share sha
  taken : ∀ i next, op = .snapshot i next → t' F.trees.length = (t i).share sha

theorem step (sha : Sha512Half) (l : Lockstep F L t S) {op : FamilyOp}
    (hop : op.Faithful) :
    match F.step sha op, isolatedStep sha L op with
    | .ok (F', out), .ok (L', out') => out = out' ∧ ∃ t' S', Lockstep F' L' t' S' ∧
        Framed sha F F' t t' op
    | .error f, .error g => f = g
    | _, _ => False := by
  cases op with
  | on i op =>
    rcases l.get i with ⟨hF, hL⟩ | ⟨T, h', T', hF, hL⟩
    · simp [Family.step, isolatedStep, hF, hL]
    · obtain ⟨hcow, R, H'⟩ := l.isolated i T (h', T') hF hL
      have H := l.shared i T hF
      have hstep := apply_follows sha H op hop
      have hstep' := apply_follows sha H' op hop
      rw [show (h', T').2.cowid = T.cowid from hcow] at hstep'
      cases hspec : (t i).apply sha T.cowid op with
      | error f =>
        rw [hspec] at hstep hstep'
        simp [Family.step, isolatedStep, hF, hL, hstep, hstep', bind, Except.bind]
      | ok r =>
        obtain ⟨u, out⟩ := r
        rw [hspec] at hstep hstep'
        obtain ⟨h₁, T₁, S₁, hrun, hT₁, H₁, e₁⟩ := hstep
        obtain ⟨h₂, T₂, S₂, hrun', hT₂, H₂, -⟩ := hstep'
        simp only [Family.step, isolatedStep, hF, hL, hrun, hrun', bind, Except.bind, true_and]
        refine ⟨_, _, l.set (h₂, T₂) hF e₁ (hT₁ ▸ H₁) (hT₂.trans hT₁.symm)
          (hT₂ ▸ H₂), ?_, ?_, ?_⟩
        · intro j T' hj hne
          have hji : j ≠ i := hne i op rfl
          exact ⟨by rw [List.getElem?_set_ne (Ne.symm hji), hj], update_of_ne hji _ _⟩
        · rintro k w T' ⟨⟩ -
          have hu : u = (t i).share sha := by
            simp only [Tree.apply, Except.ok.injEq, Prod.mk.injEq] at hspec
            exact hspec.1.symm
          rw [update_self, hu]
        · rintro k next ⟨⟩
  | snapshot i next =>
    rcases l.get i with ⟨hF, hL⟩ | ⟨T, h', T', hF, hL⟩
    · simp [Family.step, isolatedStep, hF, hL]
    · obtain ⟨hcow, R, H'⟩ := l.isolated i T (h', T') hF hL
      have H := l.shared i T hF
      have hcow' : T'.cowid = T.cowid := hcow
      by_cases hnext : T.cowid < next
      · obtain ⟨hok, herr⟩ := mutableSnapshot_eq sha H hnext
        obtain ⟨hok', herr'⟩ := mutableSnapshot_eq sha H' (hcow' ▸ hnext)
        cases hcl : (t i).clonable with
        | false =>
          simp [Family.step, isolatedStep, hF, hL, herr hcl, herr' hcl, bind, Except.bind]
        | true =>
          obtain ⟨h₁, T₁, hrun, hT₁, H₁, e₁⟩ := hok hcl
          obtain ⟨h₂, T₂, hrun', hT₂, H₂, -⟩ := hok' hcl
          simp only [Family.step, isolatedStep, hF, hL, hrun, hrun', bind, Except.bind, true_and]
          refine ⟨_, _, l.append (h₂, T₂) e₁ (hT₁ ▸ H₁) (hT₂.trans hT₁.symm)
            (hT₂ ▸ H₂), ?_, ?_, ?_⟩
          · intro j T'' hj _
            have hlt : j < F.trees.length := (List.getElem?_eq_some_iff.mp hj).1
            exact ⟨by rw [List.getElem?_append_left hlt, hj],
              update_of_ne (Nat.ne_of_lt hlt) _ _⟩
          · rintro k w T'' ⟨⟩
          · rintro k m ⟨⟩
            rw [update_self]
      · have hrun : T.mutableSnapshot sha F.heap next = .error .panic := by
          simp [MutableTree.mutableSnapshot, hnext]
        have hrun' : T'.mutableSnapshot sha h' next = .error .panic := by
          simp [MutableTree.mutableSnapshot, hcow', hnext]
        simp [Family.step, isolatedStep, hF, hL, hrun, hrun', bind, Except.bind]

theorem run (sha : Sha512Half) : ∀ (ops : List FamilyOp) {F : Family}
    {L : List (Heap × MutableTree)} {t : ℕ → Tree} {S : ℕ → Set Addr}, Lockstep F L t S →
    (∀ op ∈ ops, op.Faithful) →
    match runOps (Family.step sha) F ops, runOps (isolatedStep sha) L ops with
    | .ok (F', outs), .ok (L', outs') => outs = outs' ∧ ∃ t' S', Lockstep F' L' t' S'
    | .error f, .error g => f = g
    | _, _ => False := by
  intro ops
  induction ops with
  | nil =>
    intro F L t S l _
    exact ⟨rfl, t, S, l⟩
  | cons op ops ih =>
    intro F L t S l hops
    have hstep := l.step sha (hops op List.mem_cons_self)
    simp only [runOps, bind, Except.bind]
    cases hF : F.step sha op with
    | error f =>
      cases hL : isolatedStep sha L op with
      | error g => simpa [hF, hL] using hstep
      | ok r => simp [hF, hL] at hstep
    | ok r =>
      cases hL : isolatedStep sha L op with
      | error g => simp [hF, hL] at hstep
      | ok r' =>
        rw [hF, hL] at hstep
        obtain ⟨hout, t', S', l', -⟩ := hstep
        have hrest := ih l' fun o ho => hops o (List.mem_cons_of_mem op ho)
        cases hF' : runOps (Family.step sha) r.1 ops with
        | error f =>
          cases hL' : runOps (isolatedStep sha) r'.1 ops with
          | error g => simpa [hF', hL'] using hrest
          | ok q => simp [hF', hL'] at hrest
        | ok q =>
          cases hL' : runOps (isolatedStep sha) r'.1 ops with
          | error g => simp [hF', hL'] at hrest
          | ok q' =>
            rw [hF', hL'] at hrest
            obtain ⟨houts, t'', S'', l''⟩ := hrest
            simp only [hF', hL', hout, houts]
            exact ⟨trivial, t'', S'', l''⟩

theorem singleton (H : Holds h T.cowid T.root u R) :
    Lockstep ⟨h, [T]⟩ [(h, T)] (fun _ => u) (fun _ => R) := by
  refine ⟨rfl, ?_, ?_, ?_⟩
  · intro i T' hi
    obtain ⟨rfl, rfl⟩ : i = 0 ∧ T = T' := by simpa [List.getElem?_singleton] using hi
    exact H
  · intro i T' own hi hi'
    obtain ⟨rfl, rfl⟩ : i = 0 ∧ T = T' := by simpa [List.getElem?_singleton] using hi
    obtain rfl : (h, T) = own := by simpa using hi'
    exact ⟨rfl, R, H⟩
  · intro i j hi hj hne
    simp only [List.length_singleton] at hi hj
    omega

end Lockstep

/-- Copy-on-write isolation. Every run of a family that descends from one valid
handle, with faithful writers, reports what the run of the isolated family reports, and every handle
observes the same items and root hash in both. A step leaves what every other handle
observes as it was; a new snapshot starts with the items of its source and with the
root hash that the source gets when it is unshared. -/
theorem family_isolated (sha : Sha512Half) {h : Heap} {T : MutableTree}
    (valid : T.Valid h) (ops : List FamilyOp) (hops : ∀ op ∈ ops, op.Faithful) :
    match runOps (Family.step sha) ⟨h, [T]⟩ ops,
      runOps (isolatedStep sha) [(h, T)] ops with
    | .ok (F, outs), .ok (L, outs') =>
      outs = outs' ∧ L.length = F.trees.length ∧
      (∀ (i : ℕ) Ti hi Li, F.trees[i]? = some Ti → L[i]? = some (hi, Li) →
        observe F.heap Ti = observe hi Li) ∧
      (∀ op F' out, op.Faithful → F.step sha op = .ok (F', out) →
        ∀ (j : ℕ) Tj, F.trees[j]? = some Tj → (∀ i o, op = .on i o → j ≠ i) →
          F'.trees[j]? = some Tj ∧ observe F'.heap Tj = observe F.heap Tj) ∧
      (∀ i next F' F'' Ti Tn Tu o o', F.step sha (.snapshot i next) = .ok (F', o) →
        F.step sha (.on i (.flush none)) = .ok (F'', o') → F.trees[i]? = some Ti →
        F'.trees[F.trees.length]? = some Tn → F''.trees[i]? = some Tu →
          (observe F'.heap Tn).1 = (observe F.heap Ti).1 ∧
          (observe F'.heap Tn).2 = (observe F''.heap Tu).2)
    | .error f, .error g => f = g
    | _, _ => False := by
  obtain ⟨u, R, H⟩ := valid
  have hrun := Lockstep.run sha ops (Lockstep.singleton H) hops
  cases hF : runOps (Family.step sha) ⟨h, [T]⟩ ops with
  | error f =>
    cases hL : runOps (isolatedStep sha) [(h, T)] ops with
    | error g => simpa [hF, hL] using hrun
    | ok q => simp [hF, hL] at hrun
  | ok q =>
    cases hL : runOps (isolatedStep sha) [(h, T)] ops with
    | error g => simp [hF, hL] at hrun
    | ok q' =>
      rw [hF, hL] at hrun
      obtain ⟨F, outs⟩ := q
      obtain ⟨L, outs'⟩ := q'
      obtain ⟨houts, t, S, l⟩ := hrun
      have hview : ∀ {F : Family} {L t S} (l : Lockstep F L t S) (i : ℕ) (T : MutableTree),
          F.trees[i]? = some T → observe F.heap T = (t i).observe :=
        fun l i T hi => observe_eq (l.shared i T hi)
      -- a step of the shared family is matched by one of the isolated family
      have hstep : ∀ op F' out, op.Faithful → F.step sha op = .ok (F', out) →
          ∃ L' t' S', Lockstep F' L' t' S' ∧ Lockstep.Framed sha F F' t t' op := by
        intro op F' out hwrite hop
        have hpair := l.step sha hwrite
        rw [hop] at hpair
        cases hL' : isolatedStep sha L op with
        | error g => simp [hL'] at hpair
        | ok r =>
          rw [hL'] at hpair
          obtain ⟨-, t', S', l', hframe⟩ := hpair
          exact ⟨r.1, t', S', l', hframe⟩
      refine ⟨houts, l.length_eq, ?_, ?_, ?_⟩
      · intro i Ti hi Li hF' hL'
        obtain ⟨-, R', H'⟩ := l.isolated i Ti (hi, Li) hF' hL'
        rw [hview l i Ti hF', observe_eq H']
      · intro op F' out hwrite hop j Tj hj hne
        obtain ⟨L', t', S', l', hframe⟩ := hstep op F' out hwrite hop
        obtain ⟨hj', ht⟩ := hframe.other j Tj hj hne
        exact ⟨hj', by rw [hview l' j Tj hj', hview l j Tj hj, ht]⟩
      · intro i next F' F'' Ti Tn Tu o o' hsnap hflush hi hn hu
        obtain ⟨L', t', S', l', hframe⟩ := hstep (.snapshot i next) F' o trivial hsnap
        obtain ⟨L'', t'', S'', l'', hframe'⟩ := hstep _ F'' o'
          (by simp [FamilyOp.Faithful, TreeOp.Faithful]) hflush
        rw [hview l' _ Tn hn, hview l i Ti hi, hview l'' i Tu hu, hframe.taken i next rfl,
          hframe'.flushed i none Tu rfl hu]
        refine ⟨?_, rfl⟩
        funext key
        exact Tree.find_share sha key (t i)

/-- What every tree of a family has under a key. -/
def Family.items (F : Family) (key : Uint256) : List (Except Fault (Option SHAMapItem)) :=
  F.trees.map fun T => (observe F.heap T).1 key

def isolatedItems (L : List (Heap × MutableTree)) (key : Uint256) :
    List (Except Fault (Option SHAMapItem)) :=
  L.map fun own => (observe own.1 own.2).1 key

section Samples

/-- An item whose key starts with `first`. -/
def firstItem (first : UInt8) : SHAMapItem := itemOf first first

def addFirst (first : UInt8) : TreeOp := .add .accountState (firstItem first)

/-- A snapshot is taken of a tree with one item. The copy gets a second one and is flushed; the
tree itself loses its item. -/
def twoTreesOps : List FamilyOp :=
  [.on 0 (addFirst 16), .snapshot 0 2, .on 1 (addFirst 32),
    .on 1 (.flush (some fun h a => (h, a))), .on 0 (.delete (firstItem 16).key)]

theorem family_isolated_two_trees :
    (MutableTree.new [] 1 one_ne_zero).2.Valid (MutableTree.new [] 1 one_ne_zero).1 ∧
    ∃ F L outs,
      runOps (Family.step checksum)
        ⟨(MutableTree.new [] 1 one_ne_zero).1, [(MutableTree.new [] 1 one_ne_zero).2]⟩
        twoTreesOps = .ok (F, outs) ∧
      runOps (isolatedStep checksum) [MutableTree.new [] 1 one_ne_zero] twoTreesOps =
        .ok (L, outs) ∧
      (∀ (i : ℕ) Ti hi Li, F.trees[i]? = some Ti → L[i]? = some (hi, Li) →
        observe F.heap Ti = observe hi Li) ∧
      F.items (firstItem 16).key = [.ok none, .ok (some (firstItem 16))] ∧
      F.items (firstItem 32).key = [.ok none, .ok (some (firstItem 32))] := by
  have hvalid := MutableTree.new_valid [] 1 one_ne_zero
  have hfaithful : ∀ op ∈ twoTreesOps, op.Faithful := by
    simp [twoTreesOps, addFirst, FamilyOp.Faithful, TreeOp.Faithful, faithfulWriter_id]
  have hrun := family_isolated checksum hvalid twoTreesOps hfaithful
  have hitems : (runOps (Family.step checksum)
      ⟨(MutableTree.new [] 1 one_ne_zero).1, [(MutableTree.new [] 1 one_ne_zero).2]⟩
      twoTreesOps).map (fun r => (r.1.items (firstItem 16).key, r.1.items (firstItem 32).key)) =
      .ok ([.ok none, .ok (some (firstItem 16))], [.ok none, .ok (some (firstItem 32))]) := by
    decide +kernel
  refine ⟨hvalid, ?_⟩
  split at hrun
  · rename_i F outs L outs' hF hL
    rw [show runOps _ _ _ = _ from hF] at hitems ⊢
    obtain ⟨hfirst, hsecond⟩ := Prod.mk.inj (Except.ok.inj hitems)
    exact ⟨F, L, outs, rfl, hrun.1 ▸ hL, hrun.2.2.1, hfirst, hsecond⟩
  · rename_i f g hF hL
    rw [show runOps _ _ _ = _ from hF] at hitems
    cases hitems
  · exact hrun.elim

/-- The writer of a store with a cache, where every shared node of the heap is in the cache: it
hands back the cached node with the hash. -/
def cacheWriter : MutableTree.WriteNode := fun h a =>
  (h, (h.findIdx? fun n => n.cowid = 0 && (h[a]?).any fun m => m.hash = n.hash).getD a)

def leafHash : Uint256 := computeLeafHash checksum .accountState (firstItem 16)

/-- The root of a tree with one item, fetched without the leaf. -/
def fetchedRoot : TreeNode :=
  .inner ⟨0, computeInnerHash checksum false fun b => if b = 1 then leafHash else BaseUInt.zero,
    fun b => if b = 1 then some ⟨leafHash, none⟩ else none⟩

/-- The flushed tree goes on with the fetched root, and its snapshot, which has the leaf, gets
the same content. -/
def cachedOps : List FamilyOp :=
  [.on 0 (addFirst 16), .snapshot 0 2, .on 0 (.flush (some cacheWriter)), .on 0 (addFirst 32),
    .on 0 (.flush (some cacheWriter)), .on 1 (addFirst 32), .on 1 (.flush (some cacheWriter))]

/-- A flush through a cache gives the snapshot a node of the other tree, whose leaf is not
loaded. On its own it keeps the leaf. -/
theorem family_shares_cached_node :
    (runOps (Family.step checksum) ⟨(MutableTree.new [fetchedRoot] 1 one_ne_zero).1,
        [(MutableTree.new [fetchedRoot] 1 one_ne_zero).2]⟩ cachedOps).map
      (fun r => (r.1.items (firstItem 16).key)[1]?) =
      .ok (some (.error (.err (.traversal (.missingNode leafHash))))) ∧
    (runOps (isolatedStep checksum) [MutableTree.new [fetchedRoot] 1 one_ne_zero] cachedOps).map
      (fun r => (isolatedItems r.1 (firstItem 16).key)[1]?) =
      .ok (some (.ok (some (firstItem 16)))) := by
  decide +kernel

end Samples

end Quaxar.SHAMap
