import Quaxar.Views.View

/-!
# Regions of a ledger

A `Region` is a family of keys whose entries stand for values of some type. `Stores` says which
values a view has there, and that it agrees with a base state elsewhere. Every operation of
a view is an operation on those values.
-/

namespace Quaxar.Views

/-- How entries stand for values. -/
structure Entries (P : Type) where
  entryType : P → LedgerEntryType
  /-- The objects that stand for a value. -/
  Rep : STObject → P → Prop

namespace Entries

variable {P : Type} (E : Entries P)

structure IsEntry (sle : STLedgerEntry) (key : Uint256) (p : P) : Prop where
  key_eq : sle.key = key
  type_eq : sle.entryType = E.entryType p
  object : E.Rep sle.object p

/-- An entry for a value, and none for no value. -/
def Holds (found : Option STLedgerEntry) (key : Uint256) : Option P → Prop
  | some p => ∃ sle, found = some sle ∧ E.IsEntry sle key p
  | none => found = none

variable {E}

theorem Holds.isSome {key : Uint256} {found : Option STLedgerEntry} {value : Option P}
    (h : E.Holds found key value) : found.isSome = value.isSome := by
  cases value with
  | none =>
    rw [show found = none from h]
    rfl
  | some p =>
    obtain ⟨sle, rfl, -⟩ := h
    rfl

end Entries

/-- The values are numbered by the `keys` of a type `I`. -/
structure Region (I P : Type) extends Entries P where
  keys : Set I
  keyOf : I → Uint256

namespace Region

variable {I P : Type} [DecidableEq I] (R : Region I P) {V : Type} [ApplyView V] [ApplyModel V]

open ReadModel ApplyModel ApplyView

/-- The view has the values `D` in the region and agrees with `base` elsewhere. The keys
`out` are checked out. -/
structure Stores (base : LedgerState) (v : V) (D : I → Option P) (out : Set I) : Prop where
  valid : Valid v
  within : ∀ i, (D i).isSome = true → i ∈ R.keys
  holds : ∀ i ∈ R.keys, R.Holds ((state v).find (R.keyOf i)) (R.keyOf i) (D i)
  checkedOut : ∀ i ∈ out, (D i).isSome = true → CheckedOut v (R.keyOf i)
  frame : ∀ key, (∀ i ∈ R.keys, R.keyOf i ≠ key) → (state v).find key = base.find key

variable {R} {base : LedgerState} {v v' : V} {D : I → Option P} {out : Set I} {i : I} {p : P}
  {sle : STLedgerEntry}

omit [DecidableEq I] [ApplyView V] in
theorem Stores.find (h : R.Stores base v D out) (hp : D i = some p) :
    ∃ sle, (state v).find (R.keyOf i) = some sle ∧ R.IsEntry sle (R.keyOf i) p := by
  have hholds := h.holds i (h.within i (by rw [hp]; rfl))
  rwa [hp] at hholds

omit [DecidableEq I] [ApplyView V] in
theorem Stores.isSome_find (h : R.Stores base v D out) (hi : i ∈ R.keys) :
    ((state v).find (R.keyOf i)).isSome = (D i).isSome :=
  (h.holds i hi).isSome

omit [DecidableEq I] [ApplyView V] in
theorem Stores.weaken (h : R.Stores base v D out) {out' : Set I} (hsub : out' ⊆ out) :
    R.Stores base v D out' :=
  { h with checkedOut := fun a ha => h.checkedOut a (hsub ha) }

omit [DecidableEq I] [ApplyView V] in
theorem Stores.forget (h : R.Stores base v D out) : R.Stores base v D ∅ :=
  h.weaken (Set.empty_subset out)

section

variable (h : R.Stores base v D out) (hinj : Set.InjOn R.keyOf R.keys)

include h hinj

omit [ApplyView V] in
/-- An operation that settles a key of the region. -/
theorem Stores.settles (hi : i ∈ R.keys) {found : Option STLedgerEntry}
    (hs : Settles v v' (R.keyOf i) found) {value : Option P}
    (hholds : R.Holds found (R.keyOf i) value) :
    R.Stores base v' (Function.update D i value) (insert i out) where
  valid := hs.valid
  within a ha := by
    by_cases hne : a = i
    · exact hne ▸ hi
    · rw [Function.update_of_ne hne] at ha
      exact h.within a ha
  holds a ha := by
    rw [hs.find_eq]
    by_cases hne : a = i
    · subst hne
      rw [if_pos rfl, Function.update_self]
      exact hholds
    · rw [if_neg fun heq => hne (hinj ha hi heq.symm), Function.update_of_ne hne]
      exact h.holds a ha
  checkedOut a ha hsome := by
    by_cases hne : a = i
    · subst hne
      rw [Function.update_self] at hsome
      refine hs.checkedOut _ ?_ (.inl rfl)
      rw [hs.find_eq, if_pos rfl, hholds.isSome, hsome]
    · rw [Function.update_of_ne hne] at hsome
      refine hs.checkedOut _ ?_ (.inr (h.checkedOut a (ha.resolve_left hne) hsome))
      have hmem := h.within a hsome
      rw [hs.find_eq, if_neg fun heq => hne (hinj hmem hi heq.symm), h.isSome_find hmem, hsome]
  frame key hkey := by
    rw [hs.find_eq, if_neg (hkey i hi)]
    exact h.frame key hkey

variable [LawfulApplyView V]

theorem Stores.peek (hi : i ∈ R.keys) (entryType : LedgerEntryType) (hchild : entryType ≠ .child)
    (htype : ∀ p, D i = some p → R.entryType p = entryType) :
    ∃ found v', ApplyView.peek ⟨entryType, R.keyOf i⟩ v = .ok found v' ∧
      found = (state v).find (R.keyOf i) ∧ R.Holds found (R.keyOf i) (D i) ∧
      R.Stores base v' D (insert i out) ∧ state v' = state v := by
  obtain ⟨v', hpeek, hs, hstate⟩ := peek_settles h.valid ⟨entryType, R.keyOf i⟩ fun sle hfind => by
    have hsome := h.isSome_find hi
    rw [hfind] at hsome
    obtain ⟨p, hp⟩ := Option.isSome_iff_exists.mp hsome.symm
    obtain ⟨sle', hfind', hsle⟩ := h.find hp
    obtain rfl : sle' = sle := Option.some.inj (hfind'.symm.trans hfind)
    rw [← htype p hp, ← hsle.type_eq]
    exact Keylet.checkLedgerEntry_self hsle.key_eq (hsle.type_eq.trans (htype p hp) ▸ hchild)
  have hst := h.settles hinj hi hs (h.holds i hi)
  rw [Function.update_eq_self] at hst
  exact ⟨_, v', hpeek, rfl, h.holds i hi, hst, hstate⟩

theorem Stores.update (hi : (D i).isSome = true) (hout : i ∈ out)
    (hsle : R.IsEntry sle (R.keyOf i) p) :
    ∃ v', ApplyView.update sle v = .ok () v' ∧
      R.Stores base v' (Function.update D i (some p)) (insert i out) := by
  have hmem := h.within i hi
  obtain ⟨v', hok, hs⟩ := update_settles h.valid hsle.key_eq ((h.isSome_find hmem).trans hi)
    (h.checkedOut i hout hi)
  exact ⟨v', hok, h.settles hinj hmem hs ⟨sle, rfl, hsle⟩⟩

theorem Stores.rawReplace (hi : (D i).isSome = true) (hsle : R.IsEntry sle (R.keyOf i) p) :
    ∃ v', ApplyView.rawReplace sle v = .ok () v' ∧
      R.Stores base v' (Function.update D i (some p)) (insert i out) := by
  have hmem := h.within i hi
  obtain ⟨v', hok, hs⟩ := rawReplace_settles h.valid hsle.key_eq ((h.isSome_find hmem).trans hi)
  exact ⟨v', hok, h.settles hinj hmem hs ⟨sle, rfl, hsle⟩⟩

theorem Stores.insert (hi : i ∈ R.keys) (habsent : D i = none)
    (hsle : R.IsEntry sle (R.keyOf i) p) :
    ∃ v', ApplyView.insert sle v = .ok () v' ∧
      R.Stores base v' (Function.update D i (some p)) (insert i out) := by
  have hfind := h.holds i hi
  rw [habsent] at hfind
  obtain ⟨v', hok, hs⟩ := insert_settles h.valid hsle.key_eq hfind
  exact ⟨v', hok, h.settles hinj hi hs ⟨sle, rfl, hsle⟩⟩

theorem Stores.erase (hi : (D i).isSome = true) (hout : i ∈ out) (hsle : sle.key = R.keyOf i) :
    ∃ v', ApplyView.erase sle v = .ok () v' ∧
      (∀ key, key ≠ R.keyOf i → (state v').find key = (state v).find key) ∧
      R.Stores base v' (Function.update D i none) out := by
  have hmem := h.within i hi
  obtain ⟨v', hok, hs⟩ := erase_settles h.valid hsle ((h.isSome_find hmem).trans hi)
    (h.checkedOut i hout hi)
  have hst : R.Stores base v' (Function.update D i none) (Insert.insert i out) :=
    h.settles hinj hmem hs rfl
  refine ⟨v', hok, fun key hkey => ?_, hst.weaken (Set.subset_insert i out)⟩
  rw [hs.find_eq, if_neg (Ne.symm hkey)]

end

/-- Where values are under their own keys, and all keys that may follow are in the region, the
successor is one of its values. -/
theorem Stores.succ [LawfulApplyView V] {R : Region Uint256 P} {D : Uint256 → Option P}
    {out : Set Uint256} (h : R.Stores base v D out) (hid : ∀ a, R.keyOf a = a)
    (key last : Uint256) (hkeys : ∀ a, key < a → a < last → a ∈ R.keys) :
    ∃ r, ReadView.succ v key (some last) = .ok r ∧
      OrderedMap.IsNext {a | (D a).isSome = true ∧ a < last} key r := by
  refine ⟨_, LawfulReadView.succ_eq h.valid key (some last), ?_⟩
  refine ((state v).succ_isNext key (some last)).congr fun a => ?_
  have hbelow : OrderedMap.below (some last) a = true ↔ a < last := by simp [OrderedMap.below]
  have hfind : a ∈ R.keys → ((state v).find a).isSome = (D a).isSome := by
    intro ha
    have hsome := h.isSome_find ha
    rwa [hid] at hsome
  simp only [Set.mem_ofPred_eq, hbelow]
  constructor
  · rintro ⟨⟨hsome, hlast⟩, hlt⟩
    rw [hfind (hkeys a hlt hlast)] at hsome
    exact ⟨⟨hsome, hlast⟩, hlt⟩
  · rintro ⟨⟨hsome, hlast⟩, hlt⟩
    rw [← hfind (hkeys a hlt hlast)] at hsome
    exact ⟨⟨hsome, hlast⟩, hlt⟩

end Region

end Quaxar.Views
