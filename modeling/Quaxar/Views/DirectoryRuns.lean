import Quaxar.Views.DirectoryChain
import Quaxar.Views.Sandbox

/-!
# Histories of a directory

What `dirAdd` and `dirRemove` do to the pages of a well-formed directory, and that a
directory stays well formed through every history of additions and removals.
-/

namespace Quaxar.Views.Directory

open LinkedRing (Linked Follows single append unlink)
open ReadModel ApplyModel
open Function (update update_of_ne update_self)
open EStateM (bind_of_ok)

/-- The directory is one of pages, the formats know pages, and no two page keys collide. -/
structure Proper (ctx : Context) (dir : Keylet) : Prop where
  format : ctx.HasDirectoryFormat
  isDirectory : dir.entryType = .directoryNode
  distinct : PageKeysDistinct ctx dir

variable {indexes : List Uint256}

/-- A page has room, and is not empty unless it is the root. Its keys are those that were
given its number. -/
structure PageFits (live : Uint256 → Option ℕ) (n : ℕ) (page : Page) : Prop where
  length_le : page.value.length ≤ dirNodeMaxEntries
  nonempty : n ≠ 0 → page.value ≠ []
  nodup : page.value.Nodup
  mem_iff : ∀ key, key ∈ page.value ↔ live key = some n

/-- The pages of a directory with the keys `live`, each of which was given a page number. -/
structure Chain (D : ℕ → Option Page) (live : Uint256 → Option ℕ) : Prop where
  linked : Linked D
  fits : ∀ n page, D n = some page → PageFits live n page
  covered : ∀ key n, live key = some n → (D n).isSome = true
  used : ∀ root, D 0 = some root → root.next = 0 → root.value ≠ []

variable {D : ℕ → Option Page} {live : Uint256 → Option ℕ} {n m : ℕ} {page root : Page}
  {key : Uint256}

/-- A page is not concerned by a key that goes to or leaves another page. -/
theorem PageFits.update (h : PageFits live m page) (found : Option ℕ) (hfound : found ≠ some m)
    (hkey : live key ≠ some m) : PageFits (Function.update live key found) m page := by
  refine ⟨h.length_le, h.nonempty, h.nodup, ?_⟩
  intro other
  by_cases heq : other = key
  · subst heq
    rw [update_self, h.mem_iff]
    exact iff_of_false hkey hfound
  · rw [update_of_ne heq, h.mem_iff]

theorem PageFits.relink (h : PageFits live n page) {page' : Page}
    (hvalue : page'.value = page.value) : PageFits live n page' :=
  ⟨hvalue ▸ h.length_le, hvalue ▸ h.nonempty, hvalue ▸ h.nodup, hvalue ▸ h.mem_iff⟩

theorem PageFits.one {next prev : ℕ} (hkey : ∀ other, live other ≠ some n) :
    PageFits (Function.update live key (some n)) n ⟨[key], next, prev⟩ := by
  refine ⟨by simp [dirNodeMaxEntries], by simp, by simp, ?_⟩
  intro other
  by_cases heq : other = key
  · simp [heq]
  · simp [heq, hkey other]

theorem PageFits.add (h : PageFits live n page) (hperm : indexes.Perm (key :: page.value))
    (hlt : page.value.length < dirNodeMaxEntries) (hkey : live key = none) :
    PageFits (Function.update live key (some n)) n { page with value := indexes } := by
  have hnew : key ∉ page.value := by simp [h.mem_iff, hkey]
  refine ⟨?_, ?_, ?_, ?_⟩
  · rw [hperm.length_eq]
    exact hlt
  · rintro _ rfl
    simp at hperm
  · exact hperm.nodup_iff.mpr (List.nodup_cons.mpr ⟨hnew, h.nodup⟩)
  · intro other
    rw [hperm.mem_iff, List.mem_cons, h.mem_iff]
    by_cases heq : other = key
    · simp [heq]
    · simp [heq]

theorem PageFits.erase (h : PageFits live n page) (hkeep : n ≠ 0 → page.value.erase key ≠ []) :
    PageFits (Function.update live key none) n { page with value := page.value.erase key } := by
  refine ⟨(List.length_erase_le).trans h.length_le, hkeep, h.nodup.erase key, ?_⟩
  intro other
  rw [h.nodup.mem_erase_iff, h.mem_iff]
  by_cases heq : other = key
  · simp [heq]
  · simp [heq]

/-- The values of one page change and its links do not. -/
theorem linked_update (h : Linked D) (hpage : D n = some page) (value : List Uint256) :
    Linked (update D n (some { page with value })) := by
  refine h.congr ?_
  intro m
  by_cases hm : m = n
  · simp [hm, hpage]
  · simp [hm]

theorem chain_single (key : Uint256) :
    Chain (single [key]) (update (fun _ => none) key (some 0)) := by
  have hone : ∀ m page, single [key] m = some page → m = 0 ∧ page = ⟨[key], 0, 0⟩ := by
    intro m page hm
    unfold single at hm
    split_ifs at hm with h0
    cases hm
    exact ⟨h0, rfl⟩
  refine ⟨LinkedRing.linked_single [key], ?_, ?_, ?_⟩
  · intro m page hm
    obtain ⟨rfl, rfl⟩ := hone m page hm
    exact PageFits.one fun _ => by simp
  · intro other m hlive
    by_cases heq : other = key
    · subst heq
      rw [update_self] at hlive
      cases hlive
      rfl
    · rw [update_of_ne heq] at hlive
      cases hlive
  · intro root hroot _
    obtain ⟨-, rfl⟩ := hone 0 root hroot
    simp

theorem Chain.addKey (h : Chain D live) (hpage : D n = some page)
    (hperm : indexes.Perm (key :: page.value)) (hlt : page.value.length < dirNodeMaxEntries)
    (hkey : live key = none) : Chain (update D n (some { page with value := indexes }))
      (update live key (some n)) := by
  refine ⟨linked_update h.linked hpage indexes, ?_, ?_, ?_⟩
  · intro m other hm
    by_cases hmn : m = n
    · subst hmn
      rw [update_self] at hm
      cases hm
      exact (h.fits m page hpage).add hperm hlt hkey
    · rw [update_of_ne hmn] at hm
      exact (h.fits m other hm).update _ (by simpa using Ne.symm hmn) (by simp [hkey])
  · intro other m hlive
    by_cases hmn : m = n
    · simp [hmn]
    · rw [update_of_ne hmn]
      by_cases heq : other = key
      · subst heq
        rw [update_self] at hlive
        exact absurd (Option.some.inj hlive).symm hmn
      · rw [update_of_ne heq] at hlive
        exact h.covered other m hlive
  · intro root hroot hnext
    by_cases h0 : 0 = n
    · subst h0
      cases hroot
      intro hnil
      rw [show indexes = [] from hnil] at hperm
      simp at hperm
    · rw [update_of_ne h0] at hroot
      exact h.used root hroot hnext

/-- A key goes to a page of its own. -/
theorem Chain.appendPage (h : Chain D live) (hroot : D 0 = some root)
    (hnew : ∀ m, (D m).isSome = true → m < n) (hkey : live key = none) :
    Chain (append D n root.prev [key]) (update live key (some n)) := by
  have hlive : ∀ other, live other ≠ some n := by
    intro other hother
    exact absurd (hnew n (h.covered other n hother)) (lt_irrefl n)
  refine ⟨h.linked.append hroot [key] hnew, ?_, ?_, ?_⟩
  · intro m other hm
    rcases LinkedRing.append_eq_some hm with ⟨rfl, rfl⟩ | ⟨hmn, old, hold, rfl⟩
    · exact PageFits.one hlive
    · exact ((h.fits m old hold).update _ (by simpa using Ne.symm hmn) (by simp [hkey])).relink rfl
  · intro other m hother
    rw [LinkedRing.isSome_append]
    by_cases heq : other = key
    · subst heq
      rw [update_self] at hother
      exact .inl (Option.some.inj hother).symm
    · rw [update_of_ne heq] at hother
      exact .inr (h.covered other m hother)
  · intro other hother hnext
    have hn0 := hnew 0 h.linked.root
    obtain ⟨last, hlast, hzero, hall⟩ := h.linked.last hroot
    rcases LinkedRing.append_eq_some hother with ⟨h0, -⟩ | ⟨-, old, hold, rfl⟩
    · exact absurd h0 hn0.ne
    rw [hroot] at hold
    cases hold
    by_cases h0 : 0 = root.prev
    · simp only [if_pos h0] at hnext
      omega
    · simp only [if_neg h0] at hnext
      rcases h.linked.next_spec 0 root hroot with ⟨-, hle⟩ | ⟨hlt, -⟩
      · have := hle root.prev (by rw [hlast]; rfl)
        omega
      · omega

theorem Chain.eraseKey (h : Chain D live) (hpage : D n = some page) (hlive : live key = some n)
    (hkeep : page.value.erase key = [] → n = 0 ∧ page.next ≠ 0) :
    Chain (update D n (some { page with value := page.value.erase key }))
      (update live key none) := by
  refine ⟨linked_update h.linked hpage _, ?_, ?_, ?_⟩
  · intro m other hm
    by_cases hmn : m = n
    · subst hmn
      rw [update_self] at hm
      cases hm
      exact (h.fits m page hpage).erase fun h0 hnil => h0 (hkeep hnil).1
    · rw [update_of_ne hmn] at hm
      exact (h.fits m other hm).update _ (by simp) (by simpa [hlive] using Ne.symm hmn)
  · intro other m hother
    by_cases hmn : m = n
    · simp [hmn]
    · rw [update_of_ne hmn]
      by_cases heq : other = key
      · subst heq
        rw [update_self] at hother
        cases hother
      · rw [update_of_ne heq] at hother
        exact h.covered other m hother
  · intro other hother hnext
    by_cases h0 : 0 = n
    · subst h0
      cases hother
      intro hnil
      exact (hkeep hnil).2 hnext
    · rw [update_of_ne h0] at hother
      exact h.used other hother hnext

theorem Chain.gone (h : Chain D live)
    (hone : ∀ m page, D m = some page → ∀ other ∈ page.value, other = key) (other : Uint256) :
    update live key none other = none := by
  by_cases heq : other = key
  · rw [heq, update_self]
  · rw [update_of_ne heq]
    rcases hlive : live other with _ | m
    · rfl
    · obtain ⟨page, hpage⟩ := Option.isSome_iff_exists.mp (h.covered other m hlive)
      exact absurd (hone m page hpage other (((h.fits m page hpage).mem_iff other).mpr hlive)) heq

theorem eq_of_mem_of_erase_eq_nil {l : List Uint256} (h : l.erase key = []) {other : Uint256}
    (hmem : other ∈ l) : other = key := by
  by_contra hne
  have := (List.mem_erase_of_ne hne).mpr hmem
  simp [h] at this

/-- The last key of a page other than the root goes, and the page with it. -/
theorem Chain.unlinkPage (h : Chain D live) (hpage : D n = some page) (hn : n ≠ 0)
    (hlive : live key = some n) (hnil : page.value.erase key = [])
    (hkeep : ∀ root, D 0 = some root → page.next = 0 → page.prev = 0 → root.value ≠ []) :
    Chain (unlink D n page) (update live key none) := by
  have hfits := h.fits n page hpage
  have hone : ∀ other, live other = some n → other = key := fun other hother =>
    eq_of_mem_of_erase_eq_nil hnil ((hfits.mem_iff other).mpr hother)
  refine ⟨h.linked.unlink hpage hn, ?_, ?_, ?_⟩
  · intro m other hm
    obtain ⟨hmn, old, hold, rfl⟩ := LinkedRing.unlink_eq_some hm
    exact ((h.fits m old hold).update _ (by simp) (by simpa [hlive] using Ne.symm hmn)).relink rfl
  · intro other m hother
    by_cases heq : other = key
    · subst heq
      rw [update_self] at hother
      cases hother
    · rw [update_of_ne heq] at hother
      refine LinkedRing.isSome_unlink.mpr ⟨?_, h.covered other m hother⟩
      rintro rfl
      exact heq (hone other hother)
  · intro other hother hnext
    obtain ⟨-, root, hroot, rfl⟩ := LinkedRing.unlink_eq_some hother
    by_cases h0 : 0 = page.prev
    · simp only [if_pos h0] at hnext
      exact hkeep root hroot hnext h0.symm
    · simp only [if_neg h0] at hnext
      exact h.used root hroot hnext

/-- A root that points to itself is the only page. -/
theorem eq_root_of_next_eq_zero (hlinked : Linked D) (hroot : D 0 = some root)
    (hnext : root.next = 0) (hm : (D m).isSome = true) : m = 0 := by
  rcases hlinked.next_spec 0 root hroot with ⟨-, hle⟩ | ⟨hlt, -⟩
  · exact Nat.le_zero.mp (hle m hm)
  · omega

theorem update_root_eq_none (hlinked : Linked D) (hroot : D 0 = some root) (hnext : root.next = 0)
    (m : ℕ) : update D 0 none m = none := by
  by_cases hm : m = 0
  · rw [hm, update_self]
  · rw [update_of_ne hm]
    exact Option.not_isSome_iff_eq_none.mp (mt (eq_root_of_next_eq_zero hlinked hroot hnext) hm)

theorem unlink_root_eq_none (hlinked : Linked D) (hpage : D n = some page) (hn : n ≠ 0)
    (hnext : page.next = 0) (hprev : page.prev = 0) (m : ℕ) :
    update (unlink D n page) 0 none m = none := by
  by_cases hm : m = 0
  · rw [hm, update_self]
  · rw [update_of_ne hm, ← Option.not_isSome_iff_eq_none, LinkedRing.isSome_unlink]
    rintro ⟨hmn, hsome⟩
    exact (hlinked.pair hpage hn hnext hprev m hsome).elim hm hmn

variable {V : Type} [ApplyView V] [ApplyModel V] [LawfulApplyView V] {ctx : Context}
  {dir : Keylet} {base : LedgerState} {v : V} {out : Set ℕ} {page' : Page}
  {sle : STLedgerEntry} {mutate : STObject → STObject} {describe : STObject → STObject}
  {start node : STLedgerEntry}

theorem perm_of_addIndex {preserveOrder : Bool} {indexes' : List Uint256}
    (h : addIndex preserveOrder indexes key = some indexes') : indexes'.Perm (key :: indexes) := by
  unfold addIndex at h
  split_ifs at h with hmem horder
  · cases h
    exact List.perm_append_singleton key indexes
  · cases h
    exact (List.perm_orderedInsert _ key _).trans ((List.perm_insertionSort _ indexes).cons key)

/-- Room for one more page behind page `n`. -/
def HasRoom (ctx : Context) (n : ℕ) : Prop :=
  n + 1 < 2 ^ 64 ∧ directoryPageLimitExceeded ctx (n + 1) = false

omit [ApplyModel V] [LawfulApplyView V] in
theorem insertPage_full (hroom : ¬HasRoom ctx n) (hn : n < 2 ^ 64) :
    insertPage ctx n node start key dir describe v = .ok none v := by
  rw [insertPage]
  by_cases hlt : n + 1 < 2 ^ 64
  · have hlimit : directoryPageLimitExceeded ctx (n + 1) = true := by
      by_contra hlimit
      exact hroom ⟨hlt, by simpa using hlimit⟩
    simp only [Nat.mod_eq_of_lt hlt, hlimit]
    rw [if_neg (by omega)]
    rfl
  · have hwrap : (n + 1) % 2 ^ 64 = 0 := by
      rw [show n + 1 = 2 ^ 64 by omega, Nat.mod_self]
    simp only [hwrap]
    rfl

/-- How an addition to the pages `D` ends, with the root and the last page that it looks at. -/
inductive Adds (ctx : Context) (dir : Keylet) (base : LedgerState) (D : ℕ → Option Page)
    (root last : Page) (key : Uint256) : EStateM.Result ViewError V (Option ℕ) → Prop
  | doubled {e : ViewError} {v' : V} (hkey : key ∈ last.value)
      (hst : Stores ctx dir base v' D ∅) :
      Adds ctx dir base D root last key (.error e v')
  | extended {indexes : List Uint256} {v' : V} (hlt : last.value.length < dirNodeMaxEntries)
      (hkey : key ∉ last.value) (hperm : indexes.Perm (key :: last.value))
      (hst : Stores ctx dir base v'
        (update D root.prev (some { last with value := indexes })) ∅) :
      Adds ctx dir base D root last key (.ok (some root.prev) v')
  | appended {v' : V}
      (hst : Stores ctx dir base v' (append D (root.prev + 1) root.prev [key]) ∅) :
      Adds ctx dir base D root last key (.ok (some (root.prev + 1)) v')
  | full {v' : V} (hroom : ¬HasRoom ctx root.prev) (hst : Stores ctx dir base v' D ∅) :
      Adds ctx dir base D root last key (.ok none v')

/-- The state after a page other than the root has lost its last key: it is unlinked, and an
empty root that is left alone is erased. -/
def afterUnlink (D : ℕ → Option Page) (n : ℕ) (page root : Page) : ℕ → Option Page :=
  if page.next = 0 ∧ page.prev = 0 ∧ root.value = [] then
    update (unlink D n page) 0 none
  else unlink D n page

/-- How a removal from the pages `D` ends. -/
inductive Removes (ctx : Context) (dir : Keylet) (base : LedgerState) (D : ℕ → Option Page)
    (n : ℕ) (key : Uint256) (keepRoot : Bool) : EStateM.Result ViewError V Bool → Prop
  | missing {v' : V} (hkey : ∀ page, D n = some page → key ∉ page.value)
      (hst : Stores ctx dir base v' D ∅) :
      Removes ctx dir base D n key keepRoot (.ok false v')
  | shortened {v' : V} {page : Page} (hpage : D n = some page) (hne : page.value.erase key ≠ [])
      (hst : Stores ctx dir base v'
        (update D n (some { page with value := page.value.erase key })) ∅) :
      Removes ctx dir base D n key keepRoot (.ok true v')
  | emptied {v' : V} {page : Page} (hn : n = 0) (hpage : D 0 = some page)
      (hnil : page.value.erase key = []) (hkeep : ¬(keepRoot = false ∧ page.next = 0))
      (hst : Stores ctx dir base v'
        (update D 0 (some { page with value := [] })) ∅) :
      Removes ctx dir base D n key keepRoot (.ok true v')
  | erased {v' : V} {page : Page} (hn : n = 0) (hpage : D 0 = some page)
      (hnil : page.value.erase key = []) (hnext : page.next = 0)
      (hst : Stores ctx dir base v' (update D 0 none) ∅) :
      Removes ctx dir base D n key keepRoot (.ok true v')
  | unlinked {v' : V} {page root : Page} (hn : n ≠ 0) (hpage : D n = some page)
      (hroot : D 0 = some root) (hnil : page.value.erase key = [])
      (hkeep : keepRoot = true ∨ ¬(page.next = 0 ∧ page.prev = 0 ∧ root.value = []))
      (hst : Stores ctx dir base v' (unlink D n page) ∅) :
      Removes ctx dir base D n key keepRoot (.ok true v')
  | collapsed {v' : V} {page root : Page} (hn : n ≠ 0) (hpage : D n = some page)
      (hroot : D 0 = some root) (hnil : page.value.erase key = []) (hnext : page.next = 0)
      (hprev : page.prev = 0) (hempty : root.value = [])
      (hst : Stores ctx dir base v' (update (unlink D n page) 0 none) ∅) :
      Removes ctx dir base D n key keepRoot (.ok true v')

section

variable (hprop : Proper ctx dir)

include hprop

theorem createRoot_eq
    (h : Stores ctx dir base v (fun _ => none) out) (key : Uint256)
    (hdescribe : Describes describe) :
    ∃ v', createRoot ctx dir key describe v = .ok 0 v' ∧
      Stores ctx dir base v' (single [key]) (insert 0 out) := by
  obtain ⟨root, hnew, hroot⟩ := new_eq hprop.format dir.key
  have hnew' : STLedgerEntry.new ctx.formats dir = .ok root := by
    rw [← hnew, ← hprop.isDirectory]
  have hindex : PageObject (root.object.setField sfRootIndex (.uint256 dir.key)) ⟨[], 0, 0⟩ :=
    hroot.object.setField (by decide)
  have hentry : IsPage { root with object := (describe (root.object.setField sfRootIndex
      (.uint256 dir.key))).setStbase sfIndexes (.vector256 [key]) }
      (pageKey ctx dir 0) ⟨[key], 0, 0⟩ :=
    ⟨hroot.key_eq, hroot.type_eq, (hdescribe _ _ hindex).setIndexes [key]⟩
  obtain ⟨v', hinsert, hst⟩ := Region.Stores.insert (i := 0) h hprop.distinct
    (by norm_num [region]) rfl hentry
  refine ⟨v', ?_, ?_⟩
  · rw [createRoot, hnew']
    exact bind_of_ok hinsert
  · have hsingle : update (fun _ => none) 0 (some ⟨[key], 0, 0⟩) = single [key] := by
      funext k
      simp [single, Function.update_apply]
    rwa [← hsingle]

theorem dirAdd_absent
    (h : Stores ctx dir base v (fun _ => none) ∅) (preserveOrder : Bool) (key : Uint256)
    (hdescribe : Describes describe) :
    ∃ v', dirAdd ctx preserveOrder dir key describe v = .ok (some 0) v' ∧
      Stores ctx dir base v' (single [key]) ∅ := by
  obtain ⟨found, v₁, hpeek, -, rfl, hst, -⟩ := peek_eq (n := 0) hprop.distinct h (by norm_num)
  have hpeek' : ApplyView.peek dir v = .ok none v₁ := by
    rw [← hpeek, ← hprop.isDirectory]
    rfl
  obtain ⟨v₂, hcreate, hst⟩ := createRoot_eq hprop hst key hdescribe
  refine ⟨v₂, ?_, hst.forget⟩
  rw [dirAdd, bind_of_ok hpeek']
  exact bind_of_ok hcreate

section

variable (h : Stores ctx dir base v D out)

include h

theorem peekPage_eq (hpage : D n = some page) (message : String) :
    ∃ sle v', peekPage ctx dir n message v = .ok sle v' ∧
      IsPage sle (pageKey ctx dir n) page ∧
      Stores ctx dir base v' D (insert n out) := by
  obtain ⟨found, v', hpeek, -, hholds, hst, -⟩ :=
    peek_eq hprop.distinct h (h.within n (by rw [hpage]; rfl))
  rw [hpage] at hholds
  obtain ⟨sle, rfl, hsle⟩ := hholds
  refine ⟨sle, v', ?_, hsle, hst⟩
  rw [peekPage, pageKeylet_eq hprop.isDirectory]
  exact bind_of_ok hpeek

theorem replace_eq (hn : (D n).isSome = true) (hsle : IsPage sle (pageKey ctx dir n) page)
    (hmutate : ∀ object, PageObject object page → PageObject (mutate object) page') :
    ∃ sle' v', sleUpdate ctx sle mutate = .ok sle' ∧ ApplyView.rawReplace sle' v = .ok () v' ∧
      Stores ctx dir base v' (update D n (some page')) (insert n out) := by
  obtain ⟨sle', hok, hsle'⟩ := sleUpdate_eq hprop.format hsle.key_eq
    (hmutate sle.object hsle.object)
  obtain ⟨v', hreplace, hst⟩ := h.rawReplace hprop.distinct hn hsle'
  exact ⟨sle', v', hok, hreplace, hst⟩

theorem update_eq (hn : (D n).isSome = true) (hout : n ∈ out)
    (hsle : IsPage sle (pageKey ctx dir n) page)
    (hmutate : ∀ object, PageObject object page → PageObject (mutate object) page') :
    ∃ sle' v', sleUpdate ctx sle mutate = .ok sle' ∧ ApplyView.update sle' v = .ok () v' ∧
      IsPage sle' (pageKey ctx dir n) page' ∧
      Stores ctx dir base v' (update D n (some page')) (insert n out) := by
  obtain ⟨sle', hok, hsle'⟩ := sleUpdate_eq hprop.format hsle.key_eq
    (hmutate sle.object hsle.object)
  obtain ⟨v', hupdate, hst⟩ := h.update hprop.distinct hn hout hsle'
  exact ⟨sle', v', hok, hupdate, hsle', hst⟩

theorem relinkPage_eq (hpage : D n = some page) (message : String)
    (hmutate : ∀ object, PageObject object page → PageObject (mutate object) page') :
    ∃ sle v', relinkPage ctx dir n message mutate v = .ok sle v' ∧
      IsPage sle (pageKey ctx dir n) page' ∧
      Stores ctx dir base v' (update D n (some page')) (insert n out) := by
  obtain ⟨old, v₁, hpeek, hold, hst⟩ := peekPage_eq hprop h hpage message
  obtain ⟨sle, v₂, hsle, hupdate, hpage', hst⟩ := update_eq hprop hst
    (by rw [hpage]; rfl) (Set.mem_insert n out) hold hmutate
  rw [Set.insert_idem] at hst
  refine ⟨sle, v₂, ?_, hpage', hst⟩
  rw [relinkPage, bind_of_ok hpeek, hsle]
  exact bind_of_ok hupdate

/-- The root has lost its last key. -/
theorem removeRoot_eq
    (hout : 0 ∈ out) (hlinked : Linked D) (hroot : D 0 = some root)
    (hnode : IsPage node (pageKey ctx dir 0) root)
    (hfull : ∀ m page, D m = some page → m ≠ 0 → page.value ≠ []) (keepRoot : Bool) :
    ∃ v' D', removeRoot ctx dir node keepRoot v = .ok true v' ∧
      Stores ctx dir base v' D' ∅ ∧
      D' = if keepRoot = false ∧ root.next = 0 then update D 0 none else D := by
  have hprev := hnode.object.prev_link.getFieldU64
  have hnext := hnode.object.next_link.getFieldU64
  obtain ⟨last, hlast, -, hmax⟩ := hlinked.last hroot
  obtain ⟨first, hfirst, hback⟩ := hlinked.prev_spec 0 root hroot
  have hzero : root.next = 0 ↔ root.prev = 0 := by
    rcases hlinked.next_spec 0 root hroot with ⟨h0, hle⟩ | ⟨hlt, -⟩
    · have := hle root.prev (by rw [hlast]; rfl)
      omega
    · have := hmax root.next (by rw [hfirst]; rfl)
      omega
  rw [removeRoot, hprev, hnext]
  by_cases h0 : root.next = 0
  · have hp0 := hzero.mp h0
    cases keepRoot with
    | true =>
      refine ⟨v, D, ?_, h.forget, by simp⟩
      simp only [h0, hp0]
      rfl
    | false =>
      obtain ⟨v', herase, -, hst⟩ :=
        h.erase hprop.distinct (by rw [hroot]; rfl) hout hnode.key_eq
      refine ⟨v', _, ?_, hst.forget, (if_pos ⟨rfl, h0⟩).symm⟩
      simp only [h0, hp0]
      exact bind_of_ok herase
  · have hp0 := mt hzero.mpr h0
    simp only [h0, hp0, false_and, and_false, if_false]
    by_cases heq : root.next = root.prev
    · obtain ⟨sle, v', hpeek, hsle, hst⟩ :=
        peekPage_eq hprop h hfirst "Directory chain: fwd link broken."
      refine ⟨v', D, ?_, hst.forget, by simp⟩
      have hne : (sle.object.getFieldV256 sfIndexes).isEmpty = false := by
        rw [hsle.object.getFieldV256, List.isEmpty_eq_false_iff]
        exact hfull _ first hfirst h0
      rw [if_pos ⟨heq, h0⟩, bind_of_ok hpeek, hne]
      cases keepRoot <;> rfl
    · refine ⟨v, D, ?_, h.forget, by simp⟩
      rw [if_neg (fun hand => heq hand.1)]
      cases keepRoot <;> rfl

theorem removePage_eq
    (hout : n ∈ out) (hlinked : Linked D) (hn : n ≠ 0) (hpage : D n = some page)
    (hroot : D 0 = some root) (hnode : IsPage node (pageKey ctx dir n) page)
    (hfull : ∀ m page, D m = some page → m ≠ 0 → m ≠ n → page.value ≠ []) (keepRoot : Bool) :
    ∃ v', removePage ctx dir n node keepRoot v = .ok true v' ∧
      Stores ctx dir base v'
        (if keepRoot then unlink D n page else afterUnlink D n page root) ∅ := by
  have hprev := hnode.object.prev_link.getFieldU64
  have hnext := hnode.object.next_link.getFieldU64
  obtain ⟨P, hP, hPnext, hPn⟩ := hlinked.pred hpage hn
  obtain ⟨Q, hQ, hQprev⟩ := hlinked.prev_spec n page hpage
  have hnextn : page.next ≠ n := by
    rcases hlinked.next_spec n page hpage with ⟨h0, -⟩ | ⟨hlt, -⟩
    · omega
    · omega
  obtain ⟨prevSle, v₁, hrelink, -, hstores₁⟩ := relinkPage_eq hprop h hP
    "Directory chain: fwd link broken" fun _ hobj => hobj.setNext page.next
  obtain ⟨Q', hQ', hvalue, hnext'⟩ : ∃ Q', update D page.prev
      (some { P with next := page.next }) page.next = some Q' ∧ Q'.value = Q.value ∧
        (page.next ≠ 0 → Q'.next = Q.next) := by
    by_cases heq : page.next = page.prev
    · rw [heq, hP] at hQ
      cases hQ
      refine ⟨{ P with next := page.next }, by rw [heq, update_self], rfl, ?_⟩
      intro h0
      rcases hlinked.next_spec n page hpage with ⟨h0', -⟩ | ⟨hlt, -⟩
      · exact absurd h0' h0
      · omega
    · exact ⟨Q, by rw [update_of_ne heq, hQ], rfl, fun _ => rfl⟩
  obtain ⟨nextSle, v₂, hrelink', hnextSle, hstores₂⟩ := relinkPage_eq hprop hstores₁ hQ'
    "Directory chain: rev link broken" fun _ hobj => hobj.setPrev page.prev
  have hsome : (update (update D page.prev (some { P with next := page.next }))
      page.next (some { Q' with prev := page.prev }) n).isSome = true := by
    rw [update_of_ne (Ne.symm hnextn), update_of_ne hPn.ne', hpage]
    rfl
  obtain ⟨v₃, herase, -, hstores₃⟩ := hstores₂.erase hprop.distinct hsome
    (Set.mem_insert_of_mem _ (Set.mem_insert_of_mem _ hout)) hnode.key_eq
  rw [LinkedRing.unlink_eq_update hP hQ'] at hstores₃
  -- the next page is not an empty one of an older version
  have hlegacy : (decide (page.next ≠ 0) &&
      decide (nextSle.object.getFieldU64 sfIndexNext = 0) &&
      (nextSle.object.getFieldV256 sfIndexes).isEmpty) = false := by
    by_cases h0 : page.next = 0
    · simp [h0]
    · have hne := hfull page.next Q hQ h0 hnextn
      rw [hnextSle.object.getFieldV256]
      simp [hvalue, hne]
  rw [removePage, hprev, hnext]
  simp only []
  rw [if_neg (by omega), bind_of_ok hrelink, bind_of_ok hrelink',
    bind_of_ok herase]
  simp only [hlegacy]
  rcases Bool.eq_false_or_eq_true keepRoot with rfl | rfl
  · exact ⟨v₃, rfl, hstores₃.forget⟩
  simp only [Bool.false_eq_true, if_false]
  by_cases hlone : page.next = 0 ∧ page.prev = 0
  · obtain ⟨h0, hp0⟩ := hlone
    have hunlinked : unlink D n page 0 = some ⟨root.value, 0, 0⟩ := by
      simp [unlink, Ne.symm hn, hroot, h0, hp0]
    obtain ⟨rootSle, v₄, hpeek, hrootSle, hstores₄⟩ := peekPage_eq hprop hstores₃ hunlinked
      "Directory chain: fwd link broken."
    by_cases hnil : root.value = []
    · obtain ⟨v₅, herase', -, hstores₅⟩ :=
        hstores₄.erase hprop.distinct (by rw [hunlinked]; rfl)
        (Set.mem_insert 0 _) hrootSle.key_eq
      refine ⟨v₅, ?_, ?_⟩
      · rw [if_pos ⟨trivial, .inr h0, hp0⟩, hp0, bind_of_ok hpeek,
          hrootSle.object.getFieldV256]
        simp only [hnil]
        exact bind_of_ok herase'
      · rw [afterUnlink, if_pos ⟨h0, hp0, hnil⟩]
        exact hstores₅.forget
    · refine ⟨v₄, ?_, ?_⟩
      · rw [if_pos ⟨trivial, .inr h0, hp0⟩, hp0, bind_of_ok hpeek,
          hrootSle.object.getFieldV256, if_neg (by simpa using hnil)]
        rfl
      · rw [afterUnlink, if_neg fun hand => hnil hand.2.2]
        exact hstores₄.forget
  · refine ⟨v₃, ?_, ?_⟩
    · rw [if_neg]
      · rfl
      · rintro ⟨-, hfalse | h0, hp0⟩
        · cases hfalse
        · exact hlone ⟨h0, hp0⟩
    · rw [afterUnlink, if_neg fun hand => hlone ⟨hand.1, hand.2.1⟩]
      exact hstores₃.forget

end

variable (h : Stores ctx dir base v D ∅)

include h

theorem insertKey_eq
    (hpage : D n = some page) (hnode : IsPage node (pageKey ctx dir n) page)
    (preserveOrder : Bool) (hkey : key ∉ page.value) :
    ∃ indexes v', insertKey ctx node n preserveOrder page.value key v = .ok n v' ∧
      indexes.Perm (key :: page.value) ∧
      Stores ctx dir base v' (update D n (some { page with value := indexes })) ∅ := by
  obtain ⟨indexes, hindexes⟩ : ∃ indexes, addIndex preserveOrder page.value key = some indexes := by
    unfold addIndex
    split_ifs
    · exact ⟨_, rfl⟩
    · exact ⟨_, rfl⟩
  obtain ⟨sle, v', hsle, hreplace, hst⟩ := replace_eq hprop h (by rw [hpage]; rfl)
    hnode fun _ hobj => hobj.setIndexes indexes
  refine ⟨indexes, v', ?_, perm_of_addIndex hindexes, hst.forget⟩
  rw [insertKey, hindexes]
  simp only [hsle]
  exact bind_of_ok hreplace

section

variable (hlast : D root.prev = some page) (hroot : D 0 = some root)
  (hnode : IsPage node (pageKey ctx dir root.prev) page)
  (hstart : IsPage start (pageKey ctx dir 0) root)

include hlast hroot hnode hstart

omit hnode in
theorem findPreviousPage_eq :
    ∃ node v', findPreviousPage ctx dir start v = .ok (root.prev, node) v' ∧
      IsPage node (pageKey ctx dir root.prev) page ∧ Stores ctx dir base v' D ∅ := by
  have hprev := hstart.object.prev_link.getFieldU64
  by_cases h0 : root.prev = 0
  · rw [h0, hroot] at hlast
    cases hlast
    refine ⟨start, v, ?_, h0 ▸ hstart, h⟩
    rw [findPreviousPage, hprev]
    simp only [if_neg (not_not.mpr h0)]
    rfl
  · obtain ⟨node, v', hpeek, hnode, hst⟩ :=
      peekPage_eq hprop h hlast "Directory chain: root back-pointer broken."
    refine ⟨node, v', ?_, hnode, hst.forget⟩
    rw [findPreviousPage, hprev]
    simp only [if_pos h0]
    rw [bind_of_ok hpeek]
    rfl

/-- The new page is announced to its neighbours. -/
theorem linkPage_eq (hn : ∀ m, (D m).isSome → m < n) (value : List Uint256) :
    ∃ v' D', linkPage ctx n node start v = .ok () v' ∧ Stores ctx dir base v' D' ∅ ∧
      D' n = none ∧
      update D' n (some ⟨value, 0, root.prev⟩) = append D n root.prev value := by
  have habsent : D n = none := by
    rcases hD : D n with _ | x
    · rfl
    · exact absurd (hn n (by rw [hD]; rfl)) (lt_irrefl n)
  have hn0 := hn 0 (by rw [hroot]; rfl)
  have hnl := hn root.prev (by rw [hlast]; rfl)
  have hkeys : node.key = start.key ↔ root.prev = 0 := by
    rw [hnode.key_eq, hstart.key_eq]
    constructor
    · exact hprop.distinct _ (h.within _ (by rw [hlast]; rfl)) 0 (by norm_num)
    · intro h0
      rw [h0]
  by_cases h0 : root.prev = 0
  · rw [h0, hroot] at hlast
    cases hlast
    obtain ⟨sle, v', hsle, hreplace, hst⟩ := replace_eq hprop h (by rw [hroot]; rfl)
      (h0 ▸ hnode) fun _ hobj => (hobj.setNext n).setPrev n
    refine ⟨v', _, ?_, hst.forget, ?_, ?_⟩
    · rw [linkPage, if_pos (hkeys.mpr h0), hsle]
      exact hreplace
    · rw [update_of_ne hn0.ne', habsent]
    · rw [h0]
      exact LinkedRing.append_root (r := page) hroot
  · obtain ⟨sle, v₁, hsle, hreplace, hst⟩ := replace_eq hprop h (by rw [hlast]; rfl)
      hnode fun _ hobj => hobj.setNext n
    have hroot' : update D root.prev (some { page with next := n }) 0 = some root := by
      rw [update_of_ne (Ne.symm h0), hroot]
    obtain ⟨sle', v₂, hsle', hreplace', hst⟩ := replace_eq hprop hst
      (by rw [hroot']; rfl) hstart fun _ hobj => hobj.setPrev n
    refine ⟨v₂, _, ?_, hst.forget, ?_, ?_⟩
    · rw [linkPage, if_neg (mt hkeys.mp h0), hsle]
      rw [EStateM.ofExcept, pure_bind, bind_of_ok hreplace, hsle']
      exact hreplace'
    · rw [update_of_ne hn0.ne', update_of_ne hnl.ne', habsent]
    · exact LinkedRing.append_last hroot hlast h0

theorem insertPage_eq (hn : ∀ m, (D m).isSome → m ≤ root.prev) (hroom : HasRoom ctx root.prev)
    (key : Uint256) (hdescribe : Describes describe) :
    ∃ v', insertPage ctx root.prev node start key dir describe v =
        .ok (some (root.prev + 1)) v' ∧
      Stores ctx dir base v' (append D (root.prev + 1) root.prev [key]) ∅ := by
  obtain ⟨hlt, hlimit⟩ := hroom
  obtain ⟨v₁, D', hlink, hst, habsent, happend⟩ := linkPage_eq hprop h hlast hroot hnode
    hstart (fun m hm => Nat.lt_succ_of_le (hn m hm)) [key]
  obtain ⟨new, hnew, hpage⟩ := new_eq hprop.format (pageKey ctx dir (root.prev + 1))
  have hindex : PageObject (new.object.setField sfRootIndex (.uint256 dir.key)) ⟨[], 0, 0⟩ :=
    hpage.object.setField (by decide)
  have hobj : PageObject (newPageObject dir (root.prev + 1) key describe new.object)
      ⟨[key], 0, root.prev⟩ := by
    refine hdescribe _ _ ?_
    by_cases h0 : root.prev = 0
    · rw [if_neg (by omega), h0]
      exact hindex.setIndexes [key]
    · rw [if_pos (by omega)]
      exact (hindex.setIndexes [key]).setPrev root.prev
  have hentry : IsPage { new with
      object := newPageObject dir (root.prev + 1) key describe new.object }
      (pageKey ctx dir (root.prev + 1)) ⟨[key], 0, root.prev⟩ :=
    ⟨hpage.key_eq, hpage.type_eq, hobj⟩
  obtain ⟨v₂, hinsert, hst⟩ := hst.insert hprop.distinct hlt habsent hentry
  rw [happend] at hst
  refine ⟨v₂, ?_, hst.forget⟩
  have hmod : (root.prev + 1) % 2 ^ 64 = root.prev + 1 := Nat.mod_eq_of_lt hlt
  rw [insertPage]
  simp only [hmod, hlimit]
  rw [if_neg (by omega), if_neg (by simp), bind_of_ok hlink,
    pageKeylet_eq hprop.isDirectory]
  rw [EStateM.ofExcept, pure_bind, hnew]
  exact bind_of_ok hinsert

end

theorem dirAdd_adds
    (hlast : D root.prev = some page) (hroot : D 0 = some root)
    (hmax : ∀ m, (D m).isSome = true → m ≤ root.prev) (preserveOrder : Bool) (key : Uint256)
    (hdescribe : Describes describe) :
    Adds ctx dir base D root page key (dirAdd ctx preserveOrder dir key describe v) := by
  obtain ⟨found, v₁, hpeek, -, hholds, hst, -⟩ := peek_eq (n := 0) hprop.distinct h (by norm_num)
  rw [hroot] at hholds
  obtain ⟨start, rfl, hstart⟩ := hholds
  obtain ⟨node, v₂, hfind, hnode, hst⟩ :=
    findPreviousPage_eq hprop hst.forget hlast hroot hstart
  have hpeek' : ApplyView.peek dir v = .ok (some start) v₁ := by
    rw [← hpeek, ← hprop.isDirectory]
    rfl
  rw [dirAdd, bind_of_ok hpeek']
  simp only []
  rw [bind_of_ok hfind]
  simp only [hnode.object.getFieldV256]
  by_cases hlt : page.value.length < dirNodeMaxEntries
  · rw [if_pos hlt]
    by_cases hkey : key ∈ page.value
    · have hnone : addIndex preserveOrder page.value key = none := by
        rw [addIndex, if_pos hkey]
      rw [insertKey, hnone]
      exact Adds.doubled hkey hst
    · obtain ⟨indexes, v₃, hinsert, hperm, hst⟩ :=
        insertKey_eq hprop hst hlast hnode preserveOrder hkey
      rw [bind_of_ok hinsert]
      exact Adds.extended hlt hkey hperm hst
  · rw [if_neg hlt]
    by_cases hroom : HasRoom ctx root.prev
    · obtain ⟨v₃, hinsert, hst⟩ := insertPage_eq hprop hst hlast hroot hnode hstart hmax
        hroom key hdescribe
      rw [hinsert]
      exact Adds.appended hst
    · rw [insertPage_full hroom (hst.within root.prev (by rw [hlast]; rfl))]
      exact Adds.full hroom hst

theorem dirAdd_eq
    (hchain : Chain D live) (preserveOrder : Bool) (hkey : live key = none)
    (hdescribe : Describes describe) :
    (∃ page v' D', dirAdd ctx preserveOrder dir key describe v = .ok (some page) v' ∧
      Stores ctx dir base v' D' ∅ ∧ Chain D' (update live key (some page))) ∨
    ∃ v' last, dirAdd ctx preserveOrder dir key describe v = .ok none v' ∧
      Stores ctx dir base v' D ∅ ∧ (D last).isSome = true ∧ ¬HasRoom ctx last := by
  obtain ⟨root, hroot⟩ := Option.isSome_iff_exists.mp hchain.linked.root
  obtain ⟨page, hlast, -, hmax⟩ := hchain.linked.last hroot
  have hadds := dirAdd_adds hprop h hlast hroot hmax preserveOrder key hdescribe
  generalize dirAdd ctx preserveOrder dir key describe v = result at hadds
  cases hadds with
  | doubled hmem hst =>
    rw [(hchain.fits root.prev page hlast).mem_iff, hkey] at hmem
    cases hmem
  | extended hlt hnew hperm hst =>
    exact .inl ⟨_, _, _, rfl, hst, hchain.addKey hlast hperm hlt hkey⟩
  | appended hst =>
    exact .inl ⟨_, _, _, rfl, hst,
      hchain.appendPage hroot (fun m hm => Nat.lt_succ_of_le (hmax m hm)) hkey⟩
  | full hroom hst =>
    exact .inr ⟨_, root.prev, rfl, hst, by rw [hlast]; rfl, hroom⟩

theorem dirRemove_absent
    (hpage : D n = none) (hn : n < 2 ^ 64) (key : Uint256) (keepRoot : Bool) :
    ∃ v', dirRemove ctx dir n key keepRoot v = .ok false v' ∧
      Stores ctx dir base v' D ∅ := by
  obtain ⟨found, v', hpeek, -, hholds, hst, -⟩ := peek_eq hprop.distinct h hn
  rw [hpage] at hholds
  cases hholds
  refine ⟨v', ?_, hst.forget⟩
  rw [dirRemove, pageKeylet_eq hprop.isDirectory, EStateM.ofExcept, pure_bind,
    bind_of_ok hpeek]
  rfl

theorem dirRemove_removes
    (hlinked : Linked D) (hfull : ∀ m page, D m = some page → m ≠ 0 → page.value ≠ [])
    (hn : n < 2 ^ 64) (key : Uint256) (keepRoot : Bool) :
    Removes ctx dir base D n key keepRoot (dirRemove ctx dir n key keepRoot v) := by
  rcases hpage : D n with _ | page
  · obtain ⟨v', hremove, hst⟩ := dirRemove_absent hprop h hpage hn key keepRoot
    rw [hremove]
    exact Removes.missing (by simp [hpage]) hst
  obtain ⟨found, v₁, hpeek, -, hholds, hstores₁, -⟩ := peek_eq hprop.distinct h hn
  rw [hpage] at hholds
  obtain ⟨node, rfl, hnode⟩ := hholds
  rw [dirRemove, pageKeylet_eq hprop.isDirectory, EStateM.ofExcept, pure_bind,
    bind_of_ok hpeek]
  simp only [hnode.object.getFieldV256]
  by_cases hmem : key ∈ page.value
  case neg =>
    rw [if_neg hmem]
    refine Removes.missing ?_ hstores₁.forget
    intro other hother
    rw [hpage] at hother
    cases hother
    exact hmem
  obtain ⟨node', v₂, hsle, hupdate, hnode', hstores₂⟩ := update_eq hprop hstores₁
    (by rw [hpage]; rfl) (Set.mem_insert n ∅) hnode
    fun _ hobj => hobj.setIndexes (page.value.erase key)
  rw [if_pos hmem, hsle, EStateM.ofExcept, pure_bind, bind_of_ok hupdate]
  by_cases hnil : page.value.erase key = []
  case neg =>
    rw [if_pos (by simpa using hnil)]
    exact Removes.shortened hpage hnil hstores₂.forget
  have hpage' : update D n (some { page with value := page.value.erase key }) n =
      some { page with value := page.value.erase key } := update_self ..
  have hothers : ∀ m other, update D n
      (some { page with value := page.value.erase key }) m = some other → m ≠ 0 → m ≠ n →
        other.value ≠ [] := by
    intro m other hother h0 hmn
    rw [update_of_ne hmn] at hother
    exact hfull m other hother h0
  have hlinked' := linked_update hlinked hpage (page.value.erase key)
  simp only [hnil] at hstores₂ hnode' hpage' hothers hlinked' ⊢
  rw [if_neg (by simp)]
  by_cases h0 : n = 0
  · subst h0
    obtain ⟨v₃, D', hremove, hstores₃, rfl⟩ := removeRoot_eq hprop hstores₂
      (Set.mem_insert 0 _) hlinked' hpage' hnode'
      (fun m other hother hm => hothers m other hother hm hm) keepRoot
    rw [if_pos rfl, hremove]
    by_cases hkeep : keepRoot = false ∧ page.next = 0
    · rw [if_pos hkeep, Function.update_idem] at hstores₃
      exact Removes.erased rfl hpage hnil hkeep.2 hstores₃
    · rw [if_neg hkeep] at hstores₃
      exact Removes.emptied rfl hpage hnil hkeep hstores₃
  · obtain ⟨root, hroot⟩ := Option.isSome_iff_exists.mp hlinked.root
    obtain ⟨v₃, hremove, hstores₃⟩ := removePage_eq hprop hstores₂ (Set.mem_insert n _)
      hlinked' h0 hpage' (by rw [update_of_ne (Ne.symm h0), hroot]) hnode' hothers keepRoot
    rw [if_neg h0, hremove]
    unfold afterUnlink at hstores₃
    rw [LinkedRing.unlink_update] at hstores₃
    cases keepRoot with
    | true => exact Removes.unlinked h0 hpage hroot hnil (.inl rfl) hstores₃
    | false =>
      by_cases hlone : page.next = 0 ∧ page.prev = 0 ∧ root.value = []
      · simp only [Bool.false_eq_true, if_false] at hstores₃
        rw [if_pos hlone] at hstores₃
        exact Removes.collapsed h0 hpage hroot hnil hlone.1 hlone.2.1 hlone.2.2 hstores₃
      · simp only [Bool.false_eq_true, if_false] at hstores₃
        rw [if_neg hlone] at hstores₃
        exact Removes.unlinked h0 hpage hroot hnil (.inr hlone) hstores₃

/-- Removing a key that is on the page it was given. -/
theorem dirRemove_eq
    (hchain : Chain D live) (hlive : live key = some n) :
    ∃ v' D', dirRemove ctx dir n key false v = .ok true v' ∧
      Stores ctx dir base v' D' ∅ ∧
      (Chain D' (update live key none) ∨
        (∀ m, D' m = none) ∧ ∀ other, update live key none other = none) := by
  have hsome := hchain.covered key n hlive
  have hremoves := dirRemove_removes hprop h hchain.linked
    (fun m page hpage => (hchain.fits m page hpage).nonempty) (h.within n hsome) key false
  generalize dirRemove ctx dir n key false v = result at hremoves
  cases hremoves with
  | missing hkey hst =>
    obtain ⟨page, hpage⟩ := Option.isSome_iff_exists.mp hsome
    exact absurd (((hchain.fits n page hpage).mem_iff key).mpr hlive) (hkey page hpage)
  | shortened hpage hne hst =>
    exact ⟨_, _, rfl, hst, .inl (hchain.eraseKey hpage hlive fun h => absurd h hne)⟩
  | emptied hn hpage hnil hkeep hst =>
    subst hn
    have herased := hchain.eraseKey hpage hlive
      fun _ => ⟨rfl, fun hnext => hkeep ⟨rfl, hnext⟩⟩
    rw [hnil] at herased
    exact ⟨_, _, rfl, hst, .inl herased⟩
  | erased hn hpage hnil hnext hst =>
    refine ⟨_, _, rfl, hst, .inr ⟨update_root_eq_none hchain.linked hpage hnext,
      hchain.gone ?_⟩⟩
    intro m other hother key' hkey'
    obtain rfl := eq_root_of_next_eq_zero hchain.linked hpage hnext (by rw [hother]; rfl)
    rw [hpage] at hother
    cases hother
    exact eq_of_mem_of_erase_eq_nil hnil hkey'
  | unlinked hn hpage hroot hnil hkeep hst =>
    refine ⟨_, _, rfl, hst, .inl (hchain.unlinkPage hpage hn hlive hnil ?_)⟩
    intro other hother hnext hprev hempty
    rw [hroot] at hother
    cases hother
    exact (hkeep.resolve_left Bool.false_ne_true) ⟨hnext, hprev, hempty⟩
  | collapsed hn hpage hroot hnil hnext hprev hempty hst =>
    refine ⟨_, _, rfl, hst, .inr ⟨unlink_root_eq_none hchain.linked hpage hn hnext hprev,
      hchain.gone ?_⟩⟩
    intro m other hother key' hkey'
    rcases hchain.linked.pair hpage hn hnext hprev m (by rw [hother]; rfl) with rfl | rfl
    · rw [hroot] at hother
      cases hother
      simp [hempty] at hkey'
    · rw [hpage] at hother
      cases hother
      exact eq_of_mem_of_erase_eq_nil hnil hkey'

end

variable {V : Type} [ApplyView V] [ApplyModel V]

/-- The histories of a directory that is absent in `base`: the views they lead to, with the
page number that was returned for each key that is in the directory. -/
inductive Runs (ctx : Context) (dir : Keylet) (base : LedgerState) :
    V → (Uint256 → Option ℕ) → Prop
  | absent {v : V} (hvalid : Valid v) (hbase : state v = base)
      (habsent : ∀ n < 2 ^ 64, base.find (pageKey ctx dir n) = none) :
      Runs ctx dir base v fun _ => none
  | add {v v' : V} {live : Uint256 → Option ℕ} {preserveOrder : Bool} {key : Uint256}
      {describe : STObject → STObject} {page : ℕ} (h : Runs ctx dir base v live)
      (hkey : live key = none) (hdescribe : Describes describe)
      (hadd : dirAdd ctx preserveOrder dir key describe v = .ok (some page) v') :
      Runs ctx dir base v' (update live key (some page))
  | full {v v' : V} {live : Uint256 → Option ℕ} {preserveOrder : Bool} {key : Uint256}
      {describe : STObject → STObject} (h : Runs ctx dir base v live)
      (hkey : live key = none) (hdescribe : Describes describe)
      (hadd : dirAdd ctx preserveOrder dir key describe v = .ok none v') :
      Runs ctx dir base v' live
  | remove {v v' : V} {live : Uint256 → Option ℕ} {key : Uint256} {page : ℕ}
      (h : Runs ctx dir base v live) (hkey : live key = some page)
      (hremove : dirRemove ctx dir page key false v = .ok true v') :
      Runs ctx dir base v' (update live key none)

/-- Page `n` as the ledger has it. -/
def pageAt (ctx : Context) (dir : Keylet) (s : LedgerState) (n : ℕ) : Option Page :=
  if n < 2 ^ 64 then
    (s.find (pageKey ctx dir n)).map fun sle =>
      ⟨sle.object.getFieldV256 sfIndexes, sle.object.getFieldU64 sfIndexNext,
        sle.object.getFieldU64 sfIndexPrevious⟩
  else none

/-- No page exists. -/
def IsAbsent (pages : ℕ → Option Page) (live : Uint256 → Option ℕ) : Prop :=
  (∀ n, pages n = none) ∧ ∀ key, live key = none

/-- From the root the pages are linked in ascending order and back to the root, forwards and
backwards, and there are no others. Each has at most 32 keys, each but the root at least one,
and page `n` has exactly the keys for which `n` was returned. -/
structure IsChain (pages : ℕ → Option Page) (live : Uint256 → Option ℕ) (numbers : List ℕ) :
    Prop where
  head_eq : numbers.head? = some 0
  ascending : numbers.Pairwise (· < ·)
  exists_iff : ∀ n, (pages n).isSome = true ↔ n ∈ numbers
  links : (numbers ++ [0]).IsChain (Follows pages)
  length_le : ∀ n page, pages n = some page → page.value.length ≤ dirNodeMaxEntries
  nonempty : ∀ n page, pages n = some page → n ≠ 0 → page.value ≠ []
  nodup : ∀ n page, pages n = some page → page.value.Nodup
  mem_iff : ∀ n page, pages n = some page → ∀ key, key ∈ page.value ↔ live key = some n
  covered : ∀ key n, live key = some n → n ∈ numbers

variable [LawfulApplyView V] {ctx : Context} {dir : Keylet} {base : LedgerState} {v v' : V}
  {D : ℕ → Option Page} {out : Set ℕ} {live : Uint256 → Option ℕ}

omit [LawfulApplyView V] [ApplyView V] in
theorem Stores.pageAt_eq (h : Stores ctx dir base v D out) :
    pageAt ctx dir (state v) = D := by
  funext n
  unfold pageAt
  by_cases hn : n < 2 ^ 64
  · rw [if_pos hn]
    have hholds := h.holds n hn
    rcases hpage : D n with _ | page
    · rw [hpage] at hholds
      rw [show (state v).find (pageKey ctx dir n) = none from hholds]
      rfl
    · obtain ⟨sle, hfind, hsle⟩ := find_page h hpage
      rw [hfind, Option.map_some, hsle.object.getFieldV256,
        hsle.object.next_link.getFieldU64, hsle.object.prev_link.getFieldU64]
  · rw [if_neg hn]
    exact (Option.not_isSome_iff_eq_none.mp (mt (h.within n) hn)).symm

omit [LawfulApplyView V] [ApplyView V] in
theorem Stores.absent (hvalid : Valid v) (hbase : state v = base)
    (habsent : ∀ n < 2 ^ 64, base.find (pageKey ctx dir n) = none) :
    Stores ctx dir base v (fun _ => none) ∅ where
  valid := hvalid
  within := by simp
  holds n hn := hbase ▸ habsent n hn
  checkedOut := by simp
  frame _ _ := by rw [hbase]

/-- A directory that is not there, or a chain. -/
def WellFormed (D : ℕ → Option Page) (live : Uint256 → Option ℕ) : Prop :=
  IsAbsent D live ∨ Chain D live

theorem Runs.stores (hprop : Proper ctx dir) (h : Runs ctx dir base v live) :
    ∃ D, Stores ctx dir base v D ∅ ∧ WellFormed D live := by
  induction h with
  | absent hvalid hbase habsent =>
    exact ⟨fun _ => none, Stores.absent hvalid hbase habsent,
      .inl ⟨fun _ => rfl, fun _ => rfl⟩⟩
  | add h hkey hdescribe hadd ih =>
    obtain ⟨D, hst, ⟨hnone, hlive⟩ | hchain⟩ := ih
    · obtain rfl : D = fun _ => none := funext hnone
      obtain ⟨v'', hadd', hst⟩ := dirAdd_absent hprop hst _ _ hdescribe
      rw [hadd] at hadd'
      cases hadd'
      exact ⟨_, hst, .inr (funext hlive ▸ chain_single _)⟩
    · rcases dirAdd_eq hprop hst hchain _ hkey hdescribe with
        ⟨page', v'', D', hadd', hst, hchain⟩ | ⟨v'', last, hadd', -⟩
      · rw [hadd] at hadd'
        cases hadd'
        exact ⟨D', hst, .inr hchain⟩
      · rw [hadd] at hadd'
        cases hadd'
  | full h hkey hdescribe hadd ih =>
    obtain ⟨D, hst, ⟨hnone, hlive⟩ | hchain⟩ := ih
    · obtain rfl : D = fun _ => none := funext hnone
      obtain ⟨v'', hadd', hst⟩ := dirAdd_absent hprop hst _ _ hdescribe
      rw [hadd] at hadd'
      cases hadd'
    · rcases dirAdd_eq hprop hst hchain _ hkey hdescribe with
        ⟨page', v'', D', hadd', -⟩ | ⟨v'', last, hadd', hst, -⟩
      · rw [hadd] at hadd'
        cases hadd'
      · rw [hadd] at hadd'
        cases hadd'
        exact ⟨D, hst, .inr hchain⟩
  | remove h hkey hremove ih =>
    obtain ⟨D, hst, ⟨hnone, hlive⟩ | hchain⟩ := ih
    · rw [hlive] at hkey
      cases hkey
    · obtain ⟨v'', D', hremove', hst, hchain⟩ := dirRemove_eq hprop hst hchain hkey
      rw [hremove] at hremove'
      cases hremove'
      exact ⟨D', hst, hchain.symm⟩

theorem Chain.isChain (h : Chain D live) : ∃ numbers, IsChain D live numbers := by
  obtain ⟨numbers, hhead, hsort, hmem, hlinks⟩ := h.linked.exists_list
  exact ⟨numbers, hhead, hsort, hmem, hlinks, fun n page hpage => (h.fits n page hpage).length_le,
    fun n page hpage => (h.fits n page hpage).nonempty,
    fun n page hpage => (h.fits n page hpage).nodup,
    fun n page hpage => (h.fits n page hpage).mem_iff,
    fun key n hlive => (hmem n).mp (h.covered key n hlive)⟩

/-- The next addition succeeds unless there is no room for the page it needs. -/
theorem Runs.dirAdd_cases (hprop : Proper ctx dir) (h : Runs ctx dir base v live)
    (preserveOrder : Bool) (key : Uint256) (describe : STObject → STObject)
    (hkey : live key = none) (hdescribe : Describes describe) :
    (∃ page v', dirAdd ctx preserveOrder dir key describe v = .ok (some page) v') ∨
    (∃ v', dirAdd ctx preserveOrder dir key describe v = .ok none v') ∧
      ∃ last, (pageAt ctx dir (state v) last).isSome = true ∧ ¬HasRoom ctx last := by
  obtain ⟨D, hst, hwell⟩ := h.stores hprop
  rw [hst.pageAt_eq]
  rcases hwell with ⟨hnone, -⟩ | hchain
  · obtain rfl : D = fun _ => none := funext hnone
    obtain ⟨v', hadd, -⟩ := dirAdd_absent hprop hst preserveOrder key hdescribe
    exact .inl ⟨0, v', hadd⟩
  · rcases dirAdd_eq hprop hst hchain preserveOrder hkey hdescribe with
      ⟨page, v', D', hadd, -⟩ | ⟨v', last, hadd, -, hlast, hroom⟩
    · exact .inl ⟨page, v', hadd⟩
    · exact .inr ⟨⟨v', hadd⟩, last, hlast, hroom⟩

/-- After every history the directory is absent or a chain, the next addition succeeds unless
there is no room for the page it needs, and every removal succeeds. Other entries are left
alone. -/
theorem runs_wellFormed (hprop : Proper ctx dir) (h : Runs ctx dir base v live) :
    (IsAbsent (pageAt ctx dir (state v)) live ∨
      ∃ numbers, IsChain (pageAt ctx dir (state v)) live numbers) ∧
    (∀ key, (∀ n < 2 ^ 64, pageKey ctx dir n ≠ key) →
      (state v).find key = base.find key) ∧
    (∀ preserveOrder key describe, live key = none → Describes describe →
      (∃ page v', dirAdd ctx preserveOrder dir key describe v = .ok (some page) v') ∨
      (∃ v', dirAdd ctx preserveOrder dir key describe v = .ok none v') ∧
        ∃ last, (pageAt ctx dir (state v) last).isSome = true ∧ ¬HasRoom ctx last) ∧
    ∀ key page, live key = some page →
      ∃ v', dirRemove ctx dir page key false v = .ok true v' := by
  obtain ⟨D, hst, hwell⟩ := h.stores hprop
  refine ⟨?_, hst.frame, h.dirAdd_cases hprop, ?_⟩
  · rw [hst.pageAt_eq]
    exact hwell.imp id Chain.isChain
  · intro key page hkey
    rcases hwell with ⟨-, hlive⟩ | hchain
    · rw [hlive] at hkey
      cases hkey
    · obtain ⟨v', D', hremove, -⟩ := dirRemove_eq hprop hst hchain hkey
      exact ⟨v', hremove⟩

def numberKey (n : ℕ) : Uint256 := ⟨BigEndian.toBytes 32 n, BigEndian.length_toBytes 32 n⟩

theorem numberKey_inj (hn : n < 2 ^ 65) (hm : m < 2 ^ 65) (h : numberKey n = numberKey m) :
    n = m := by
  have hbytes := congrArg (fun key => BigEndian.ofBytes key.data) h
  change BigEndian.ofBytes (BigEndian.toBytes 32 n) = BigEndian.ofBytes (BigEndian.toBytes 32 m)
    at hbytes
  rwa [BigEndian.ofBytes_toBytes (by omega), BigEndian.ofBytes_toBytes (by omega)] at hbytes

def sampleContext : Context where
  formats := {
    findByType := fun entryType =>
      if entryType = .directoryNode then some directoryNodeTemplate else none
    defaultBytes := fun _ => []
    sameBytes := fun _ a b => a = b
    previousTxn_mem := by
      intro entryType template hfind _
      split_ifs at hfind
      cases hfind
      decide }
  rules := ⟨true, true⟩
  pageHash _ page := numberKey page

def sampleDirectory : Keylet := ⟨.directoryNode, numberKey (2 ^ 64)⟩

theorem sample_proper : Proper sampleContext sampleDirectory := by
  have hkey : ∀ n, pageKey sampleContext sampleDirectory n =
      numberKey (if n = 0 then 2 ^ 64 else n) := by
    intro n
    unfold pageKey
    split_ifs
    · rfl
    · rfl
  refine ⟨rfl, rfl, ?_⟩
  intro n hn m hm heq
  rw [hkey, hkey] at heq
  have := numberKey_inj (by split_ifs <;> omega) (by split_ifs <;> omega) heq
  split_ifs at this <;> omega

def sampleBase : Sandbox BaseView := .new (BaseView.ledger LedgerState.empty) false

def sampleAdd (v : Sandbox BaseView) (number : ℕ) : Sandbox BaseView :=
  (dirAdd sampleContext true sampleDirectory (numberKey number)
    (describeOwnerDir BaseUInt.zero)).after v

theorem exists_runs_foldl (numbers : List ℕ) :
    ∀ {v : Sandbox BaseView} {live : Uint256 → Option ℕ},
      Runs sampleContext sampleDirectory .empty v live →
      (∀ n ∈ numbers, live (numberKey n) = none) → (numbers.map numberKey).Nodup →
      ∃ live', Runs sampleContext sampleDirectory .empty (numbers.foldl sampleAdd v) live' := by
  induction numbers with
  | nil => exact fun h _ _ => ⟨_, h⟩
  | cons n rest ih =>
    intro v live h hnew hnodup
    rw [List.map_cons, List.nodup_cons] at hnodup
    have hdescribe := describes_ownerDir BaseUInt.zero
    have hnone := hnew n List.mem_cons_self
    rcases h.dirAdd_cases sample_proper true _ _ hnone hdescribe with
      ⟨page, v', hadd⟩ | ⟨⟨v', hadd⟩, -⟩
    · rw [List.foldl_cons, sampleAdd, EStateM.after_of_ok hadd]
      refine ih (h.add hnone hdescribe hadd) (fun m hm => ?_) hnodup.2
      have hne : numberKey m ≠ numberKey n := fun heq => hnodup.1 (heq ▸ List.mem_map_of_mem hm)
      rw [update_of_ne hne]
      exact hnew m (List.mem_cons_of_mem _ hm)
    · rw [List.foldl_cons, sampleAdd, EStateM.after_of_ok hadd]
      exact ih (h.full hnone hdescribe hadd) (fun m hm => hnew m (List.mem_cons_of_mem _ hm))
        hnodup.2

/-- 33 keys, of which the last is on a page of its own. -/
def sampleFilled : Sandbox BaseView := (List.range 33).foldl sampleAdd sampleBase

theorem runs_sampleFilled :
    ∃ live, Runs sampleContext sampleDirectory .empty sampleFilled live := by
  refine exists_runs_foldl _ (.absent (Sandbox.valid_new trivial false) (Sandbox.state_new _ false)
    fun _ _ => LedgerState.find_empty _) (fun _ _ => rfl) ?_
  decide +kernel

set_option maxRecDepth 100000 in
theorem runs_wellFormed_filled : ∃ live numbers v',
    IsChain (pageAt sampleContext sampleDirectory (state sampleFilled)) live numbers ∧
    live (numberKey 32) = some 1 ∧
    dirRemove sampleContext sampleDirectory 1 (numberKey 32) false sampleFilled = .ok true v' := by
  obtain ⟨live, h⟩ := runs_sampleFilled
  obtain ⟨hwell, -, -, hremove⟩ := runs_wellFormed sample_proper h
  have hpage : (pageAt sampleContext sampleDirectory (state sampleFilled) 1).map
      LinkedRing.Node.value = some [numberKey 32] := by decide +kernel
  obtain ⟨page, hat, hvalue⟩ := Option.map_eq_some_iff.mp hpage
  rcases hwell with ⟨hnone, -⟩ | ⟨numbers, hchain⟩
  · cases (hnone 1).symm.trans hat
  · have hlive := (hchain.mem_iff 1 page hat (numberKey 32)).mp (by simp [hvalue])
    obtain ⟨v', hrun⟩ := hremove _ _ hlive
    exact ⟨live, numbers, v', hchain, hlive, hrun⟩

end Quaxar.Views.Directory
