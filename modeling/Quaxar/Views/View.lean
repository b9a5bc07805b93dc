import Quaxar.Lib.Stateful
import Quaxar.Views.Entry

/-!
# Views of a ledger

The traits `ReadView` and `ApplyView`, and what an implementation of them stands for: a
`LedgerState`, the finite map from keys to entries that a reader of the view sees.
`LawfulApplyView` ties every operation of a view to that map.
-/

namespace Quaxar.Views

open Std (ExtTreeMap)

/-- Failures of a view. `unwound` is a panic or a thrown overflow. -/
inductive ViewError where
  | duplicateExactLeaf (key : Uint256)
  | missingExactLeaf (key : Uint256)
  | invalidFee (fee : ℤ)
  | conversion (message : String)
  | unwound (message : String)
deriving DecidableEq

/-- An amount of drops, an `i64`. -/
abbrev XRPAmount := ℤ

/-- A sum that does not fit unwinds with `message`. -/
def XRPAmount.checkedAdd (x y : XRPAmount) (message : String) : Except ViewError XRPAmount :=
  if -2 ^ 63 ≤ x + y ∧ x + y < 2 ^ 63 then .ok (x + y) else .error (.unwound message)

theorem XRPAmount.checkedAdd_eq_ok {x y z : XRPAmount} {message : String}
    (h : x.checkedAdd y message = .ok z) : z = x + y := by
  unfold checkedAdd at h
  split_ifs at h
  cases h
  rfl

/-- The entries of a ledger, each under its own key. -/
structure LedgerState where
  entries : ExtTreeMap Uint256 STLedgerEntry
  key_eq : ∀ (key : Uint256) (sle : STLedgerEntry), entries[key]? = some sle → sle.key = key

namespace LedgerState

variable (s : LedgerState) (sle : STLedgerEntry) (key : Uint256)

def empty : LedgerState := ⟨∅, by simp⟩

def find : Option STLedgerEntry := s.entries[key]?

def put : LedgerState where
  entries := s.entries.insert sle.key sle
  key_eq key old h := by
    rw [OrderedMap.getElem?_insert] at h
    split_ifs at h with hkey
    · cases h
      exact hkey
    · exact s.key_eq key old h

def remove : LedgerState where
  entries := s.entries.erase key
  key_eq a old h := by
    rw [OrderedMap.getElem?_erase] at h
    split_ifs at h
    exact s.key_eq a old h

/-- Settle a key: to an entry of that key, or to nothing. -/
def change : Option STLedgerEntry → LedgerState
  | some sle => if sle.key = key then s.put sle else s.remove key
  | none => s.remove key

/-- Settle the keys of `delta`. -/
def overlay (delta : ExtTreeMap Uint256 (Option STLedgerEntry)) : LedgerState :=
  delta.toList.foldl (fun s item => s.change item.1 item.2) s

/-- The least present key above `key`, if it is below `last`. -/
def succ (last : Option Uint256) : Option Uint256 := OrderedMap.succ s.entries key last

@[ext] theorem ext {s t : LedgerState} (h : ∀ key, s.find key = t.find key) : s = t := by
  obtain ⟨es, hs⟩ := s
  obtain ⟨et, ht⟩ := t
  have hentries : es = et := ExtTreeMap.ext_getElem? h
  subst hentries
  rfl

@[simp] theorem find_empty : empty.find key = none := by simp [empty, find]

theorem find_put : (s.put sle).find key = if sle.key = key then some sle else s.find key :=
  OrderedMap.getElem?_insert s.entries sle.key key sle

@[simp] theorem find_put_self : (s.put sle).find sle.key = some sle := by
  simp [find_put]

theorem find_remove (a : Uint256) :
    (s.remove key).find a = if key = a then none else s.find a :=
  OrderedMap.getElem?_erase s.entries key a

theorem find_change (found : Option STLedgerEntry) (hkey : ∀ sle, found = some sle → sle.key = key)
    (a : Uint256) : (s.change key found).find a = if key = a then found else s.find a := by
  cases found with
  | none => exact s.find_remove key a
  | some sle =>
    have hsle := hkey sle rfl
    rw [change, if_pos hsle, find_put, hsle]

/-- Where the entries of `delta` are under their own keys. -/
theorem find_overlay (delta : ExtTreeMap Uint256 (Option STLedgerEntry))
    (hkey : ∀ (a : Uint256) (sle : STLedgerEntry), delta[a]? = some (some sle) → sle.key = a)
    (a : Uint256) : (s.overlay delta).find a = (delta[a]?).getD (s.find a) := by
  have hfold := OrderedMap.find_foldl_toList LedgerState.find
    (fun s item => s.change item.1 item.2)
    (fun b found => found.filter fun sle => sle.key = b)
    (by
      rintro s ⟨b, _ | sle⟩ a
      · exact s.find_remove b a
      · by_cases hsle : sle.key = b
        · rw [Option.filter_some_pos (by simpa using hsle)]
          exact s.find_change b (some sle) (by rintro _ ⟨⟩; exact hsle) a
        · rw [Option.filter_some_neg (by simpa using hsle)]
          simp only [change, if_neg hsle]
          exact s.find_remove b a) delta s a
  rw [overlay, hfold]
  rcases hd : delta[a]? with _ | _ | sle
  · rfl
  · rfl
  · change Option.filter (fun old => decide (old.key = a)) (some sle) = some sle
    exact Option.filter_some_pos (by simpa using hkey a sle hd)

variable {s sle key}

theorem key_of_find (h : s.find key = some sle) : sle.key = key := s.key_eq key sle h

theorem succ_isNext (s : LedgerState) (key : Uint256) (last : Option Uint256) :
    OrderedMap.IsNext {a | (s.find a).isSome = true ∧ OrderedMap.below last a = true} key
      (s.succ key last) := by
  have hset : {a : Uint256 | (s.find a).isSome = true ∧ OrderedMap.below last a = true} =
      {a | a ∈ s.entries ∧ OrderedMap.below last a = true} := by
    ext a
    simp [find]
  rw [hset]
  exact OrderedMap.succ_isNext s.entries key last

end LedgerState

class ReadView (V : Type) where
  «exists» : V → Keylet → Except ViewError Bool
  succ : V → Uint256 → Option Uint256 → Except ViewError (Option Uint256)
  read : V → Keylet → Except ViewError (Option STLedgerEntry)

/-- The mutations of a view. `dryRun` is the `DRY_RUN` flag of its `flags`. -/
class ApplyView (V : Type) extends ReadView V where
  dryRun : V → Bool
  peek : Keylet → EStateM ViewError V (Option STLedgerEntry)
  insert : STLedgerEntry → EStateM ViewError V Unit
  update : STLedgerEntry → EStateM ViewError V Unit
  erase : STLedgerEntry → EStateM ViewError V Unit
  rawReplace : STLedgerEntry → EStateM ViewError V Unit
  destroyXrp : XRPAmount → EStateM ViewError V Unit

/-- The keylet names the kind of what is present, if anything is. -/
def Keylet.Fits (k : Keylet) (present : Option STLedgerEntry) : Prop :=
  ∀ sle, present = some sle → k.checkLedgerEntry sle = true

theorem Keylet.fits_any (key : Uint256) (present : Option STLedgerEntry) :
    (Keylet.mk .any key).Fits present :=
  fun _ _ => rfl

theorem Keylet.fits_none (k : Keylet) : k.Fits none := nofun

/-- What a keylet may find where the state holds `present`: that, or nothing if the entry
is not of the kind the keylet names. -/
def Keylet.Finds (k : Keylet) (present found : Option STLedgerEntry) : Prop :=
  found = present ∨
    found = none ∧ ∃ sle, present = some sle ∧ k.checkLedgerEntry sle = false

/-- The state that a view shows. -/
class ReadModel (V : Type) where
  state : V → LedgerState
  Valid : V → Prop

/-- A keylet of another kind than the entry's may find it or not: bases differ in this. -/
class LawfulReadView (V : Type) [ReadView V] [ReadModel V] : Prop where
  exists_eq {v : V} (hv : ReadModel.Valid v) (k : Keylet)
    (hfits : k.Fits ((ReadModel.state v).find k.key)) :
    ReadView.exists v k = .ok ((ReadModel.state v).find k.key).isSome
  succ_eq {v : V} (hv : ReadModel.Valid v) (key : Uint256) (last : Option Uint256) :
    ReadView.succ v key last = .ok ((ReadModel.state v).succ key last)
  read_finds {v : V} (hv : ReadModel.Valid v) (k : Keylet) :
    ∃ found, ReadView.read v k = .ok found ∧
      k.Finds ((ReadModel.state v).find k.key) found

theorem LawfulReadView.read_eq {V : Type} [ReadView V] [ReadModel V] [LawfulReadView V] {v : V}
    (hv : ReadModel.Valid v) {k : Keylet}
    (hfits : k.Fits ((ReadModel.state v).find k.key)) :
    ReadView.read v k = .ok ((ReadModel.state v).find k.key) := by
  obtain ⟨found, hread, hfinds⟩ := read_finds hv k
  rcases hfinds with h | ⟨-, sle, hsle, hcheck⟩
  · rw [hread, h]
  · rw [hfits sle hsle] at hcheck
    cases hcheck

/-- Two views answer a keylet alike. -/
structure SameReads {V W : Type} [ReadView V] [ReadView W] (v : V) (w : W) (k : Keylet) :
    Prop where
  read_eq : ReadView.read w k = ReadView.read v k
  exists_eq : ReadView.exists w k = ReadView.exists v k

namespace SameReads

variable {U V W : Type} [ReadView U] [ReadView V] [ReadView W] {u : U} {v : V} {w : W}
  {k : Keylet}

theorem refl (v : V) (k : Keylet) : SameReads v v k := ⟨rfl, rfl⟩

theorem trans (h : SameReads u v k) (h' : SameReads v w k) : SameReads u w k :=
  ⟨h'.read_eq.trans h.read_eq, h'.exists_eq.trans h.exists_eq⟩

end SameReads

/-- A mutable view also has destroyed some drops, and has checked out some keys: their
entries may be updated and erased, and are read without regard to their type. -/
class ApplyModel (V : Type) extends ReadModel V where
  destroyed : V → XRPAmount
  CheckedOut : V → Uint256 → Prop

section Moves

variable {V : Type} [ApplyView V] [ApplyModel V]

open ReadModel ApplyModel ApplyView

/-- From `v` to `v'` the state becomes `next` and the destroyed drops become `drops`, by an
operation that reads or writes the entry at `key`. -/
structure Moves (v v' : V) (next : LedgerState) (drops : XRPAmount) (key : Option Uint256) :
    Prop where
  valid : Valid v'
  state_eq : state v' = next
  destroyed_eq : destroyed v' = drops
  dryRun_eq : dryRun v' = dryRun v
  checkedOut : ∀ a, (next.find a).isSome → CheckedOut v a → CheckedOut v' a
  frame : ∀ k, key ≠ some k.key → SameReads v v' k

end Moves

open ReadModel ApplyModel ApplyView in
class LawfulApplyView (V : Type) [ApplyView V] [ApplyModel V] : Prop extends
    LawfulReadView V where
  read_checkedOut {v : V} (hv : Valid v) (k : Keylet) (hout : CheckedOut v k.key) :
    ReadView.read v k = .ok ((state v).find k.key)
  exists_checkedOut {v : V} (hv : Valid v) (k : Keylet) (hout : CheckedOut v k.key) :
    ReadView.exists v k = .ok ((state v).find k.key).isSome
  peek_eq {v : V} (hv : Valid v) (k : Keylet) :
    ∃ found v', ReadView.read v k = .ok found ∧ peek k v = .ok found v' ∧
      Moves v v' (state v) (destroyed v) (some k.key) ∧
      (found.isSome → CheckedOut v' k.key) ∧ (found = none → v' = v)
  insert_eq {v : V} (hv : Valid v) (sle : STLedgerEntry) (habsent : (state v).find sle.key = none) :
    ∃ v', insert sle v = .ok () v' ∧
      Moves v v' ((state v).put sle) (destroyed v) (some sle.key) ∧ CheckedOut v' sle.key
  update_eq {v : V} (hv : Valid v) (sle : STLedgerEntry)
    (hpres : ((state v).find sle.key).isSome) (hout : CheckedOut v sle.key) :
    ∃ v', update sle v = .ok () v' ∧
      Moves v v' ((state v).put sle) (destroyed v) (some sle.key)
  erase_eq {v : V} (hv : Valid v) (sle : STLedgerEntry) (hpres : ((state v).find sle.key).isSome)
    (hout : CheckedOut v sle.key) :
    ∃ v', erase sle v = .ok () v' ∧
      Moves v v' ((state v).remove sle.key) (destroyed v) (some sle.key)
  rawReplace_eq {v : V} (hv : Valid v) (sle : STLedgerEntry)
    (hpres : ((state v).find sle.key).isSome) :
    ∃ v', rawReplace sle v = .ok () v' ∧
      Moves v v' ((state v).put sle) (destroyed v) (some sle.key) ∧ CheckedOut v' sle.key
  destroyXrp_eq {v : V} (hv : Valid v) (fee : XRPAmount) :
    (∃ v', destroyXrp fee v = .ok () v' ∧ Moves v v' (state v) (destroyed v + fee) none) ∨
      ∃ e, destroyXrp fee v = .error e v

section Settles

open ReadModel ApplyModel ApplyView

variable {V : Type} [ApplyView V] [ApplyModel V] {v v' : V} {key : Uint256}
  {found : Option STLedgerEntry} {sle : STLedgerEntry}

/-- From `v` to `v'` the entry at `key` becomes `found`, and is checked out if there is one. -/
structure Settles (v v' : V) (key : Uint256) (found : Option STLedgerEntry) : Prop where
  valid : Valid v'
  find_eq : ∀ a, (state v').find a = if key = a then found else (state v).find a
  checkedOut : ∀ a, ((state v').find a).isSome = true → key = a ∨ CheckedOut v a → CheckedOut v' a

theorem Moves.settles {next : LedgerState} {drops : XRPAmount} {at? : Option Uint256}
    (h : Moves v v' next drops at?)
    (hnext : ∀ a, next.find a = if key = a then found else (state v).find a)
    (hout : found.isSome = true → CheckedOut v' key) : Settles v v' key found where
  valid := h.valid
  find_eq := h.state_eq ▸ hnext
  checkedOut a ha hcase := by
    rw [h.state_eq] at ha
    by_cases hkey : key = a
    · subst hkey
      rw [hnext, if_pos rfl] at ha
      exact hout ha
    · exact h.checkedOut a ha (hcase.resolve_left hkey)

variable [LawfulApplyView V] (hv : Valid v)

include hv

theorem insert_settles (hkey : sle.key = key) (habsent : (state v).find key = none) :
    ∃ v', insert sle v = .ok () v' ∧ Settles v v' key (some sle) := by
  subst hkey
  obtain ⟨v', hok, hmoves, hout⟩ := LawfulApplyView.insert_eq hv sle habsent
  exact ⟨v', hok, hmoves.settles (fun a => LedgerState.find_put ..) fun _ => hout⟩

theorem rawReplace_settles (hkey : sle.key = key) (hpres : ((state v).find key).isSome = true) :
    ∃ v', rawReplace sle v = .ok () v' ∧ Settles v v' key (some sle) := by
  subst hkey
  obtain ⟨v', hok, hmoves, hout⟩ := LawfulApplyView.rawReplace_eq hv sle hpres
  exact ⟨v', hok, hmoves.settles (fun a => LedgerState.find_put ..) fun _ => hout⟩

theorem update_settles (hkey : sle.key = key) (hpres : ((state v).find key).isSome = true)
    (hout : CheckedOut v key) :
    ∃ v', update sle v = .ok () v' ∧ Settles v v' key (some sle) := by
  subst hkey
  obtain ⟨v', hok, hmoves⟩ := LawfulApplyView.update_eq hv sle hpres hout
  refine ⟨v', hok, hmoves.settles (fun a => LedgerState.find_put ..) fun _ => ?_⟩
  exact hmoves.checkedOut _ (by simp) hout

theorem erase_settles (hkey : sle.key = key) (hpres : ((state v).find key).isSome = true)
    (hout : CheckedOut v key) : ∃ v', erase sle v = .ok () v' ∧ Settles v v' key none := by
  subst hkey
  obtain ⟨v', hok, hmoves⟩ := LawfulApplyView.erase_eq hv sle hpres hout
  exact ⟨v', hok, hmoves.settles (fun a => LedgerState.find_remove ..) nofun⟩

/-- An entry of the kind that the keylet names is found, and nothing that is shown changes. -/
theorem peek_settles (k : Keylet) (hfits : k.Fits ((state v).find k.key)) :
    ∃ v', peek k v = .ok ((state v).find k.key) v' ∧
      Settles v v' k.key ((state v).find k.key) ∧ state v' = state v := by
  obtain ⟨found, v', hread, hpeek, hmoves, hout, -⟩ := LawfulApplyView.peek_eq hv k
  obtain rfl := Except.ok.inj (hread.symm.trans (LawfulReadView.read_eq hv hfits))
  refine ⟨v', hpeek, hmoves.settles (fun a => ?_) hout, hmoves.state_eq⟩
  split_ifs with ha
  · rw [ha]
  · rfl

end Settles

/-- A finite map as a view. `check` is what its `read` asks of an entry: a ledger asks that
the entry is of the kind the keylet names, a plain map asks nothing. -/
structure BaseView where
  state : LedgerState
  check : Keylet → STLedgerEntry → Bool
  check_of_matches : ∀ k sle, k.checkLedgerEntry sle = true → check k sle = true

namespace BaseView

def ofMap (state : LedgerState) : BaseView := ⟨state, fun _ _ => true, by simp⟩

/-- `Ledger::read` at the keys other than zero, where a ledger has no entry, and `exists_keylet`,
which does not ask for the kind. -/
def ledger (state : LedgerState) : BaseView :=
  ⟨state, Keylet.checkLedgerEntry, fun _ _ h => h⟩

instance : ReadView BaseView where
  «exists» v k := .ok (v.state.find k.key).isSome
  succ v key last := .ok (v.state.succ key last)
  read v k := .ok ((v.state.find k.key).filter (v.check k))

instance : ReadModel BaseView := ⟨BaseView.state, fun _ => True⟩

theorem read_ofMap (state : LedgerState) (k : Keylet) :
    ReadView.read (ofMap state) k = .ok (state.find k.key) := by
  rcases hfind : state.find k.key with _ | sle <;> simp [ReadView.read, ofMap, hfind]

instance : LawfulReadView BaseView where
  exists_eq _ _ _ := rfl
  succ_eq _ _ _ := rfl
  read_finds := by
    intro v _ k
    refine ⟨_, rfl, ?_⟩
    change k.Finds (v.state.find k.key) _
    rcases v.state.find k.key with _ | sle
    · exact .inl rfl
    · cases hcheck : v.check k sle with
      | true => exact .inl (Option.filter_some_pos hcheck)
      | false =>
        refine .inr ⟨Option.filter_some_neg (by simp [hcheck]), sle, rfl, ?_⟩
        by_contra hmatch
        rw [v.check_of_matches k sle (by simpa using hmatch)] at hcheck
        cases hcheck

end BaseView

end Quaxar.Views
