import Quaxar.Validators.ListSteps

/-!
# The list in force

What has happened to one publisher is a list of events, newest first: lists that came in and
close times up to which pending lists were put in force. A list is due once it was effective when
it came in or at such a close time since. `Tracks` says that a collection is up to date with
these events: every list that is not due is pending, or a later list takes effect before it.
-/

namespace Quaxar.Validators

open Protocol (PublicKey)
open Std (ExtTreeMap)
open List (mem_cons_self mem_cons_of_mem)

variable {list : VerifiedList} {now closeTime : ℕ}

section Events

inductive Event
  | received (now : ℕ) (list : VerifiedList)
  | trusted (closeTime : ℕ)
deriving DecidableEq

def Received (events : List Event) (list : VerifiedList) : Prop :=
  ∃ now, Event.received now list ∈ events

/-- A list that has come into force by now, newest event first. -/
def Due : List Event → VerifiedList → Prop
  | [], _ => False
  | .received now received :: older, list =>
    (received = list ∧ list.effective ≤ now) ∨ Due older list
  | .trusted closeTime :: older, list =>
    (Received older list ∧ list.effective ≤ closeTime) ∨ Due older list

variable {events : List Event}

theorem Received.cons (h : Received events list) (event : Event) :
    Received (event :: events) list := by
  obtain ⟨now, hmem⟩ := h
  exact ⟨now, mem_cons_of_mem _ hmem⟩

theorem received_cons {received : VerifiedList}
    (h : Received (.received now received :: events) list) :
    list = received ∨ Received events list := by
  obtain ⟨now', hmem⟩ := h
  rcases List.mem_cons.mp hmem with heq | hmem
  · cases heq
    exact .inl rfl
  · exact .inr ⟨now', hmem⟩

theorem received_trusted (h : Received (.trusted closeTime :: events) list) :
    Received events list := by
  obtain ⟨now, hmem⟩ := h
  rcases List.mem_cons.mp hmem with heq | hmem
  · cases heq
  · exact ⟨now, hmem⟩

theorem Due.cons (h : Due events list) (event : Event) : Due (event :: events) list := by
  cases event with
  | received now received => exact .inr h
  | trusted closeTime => exact .inr h

variable {pending : PublisherList}

structure Tracks (events : List Event) (c : PublisherListCollection) : Prop where
  pending_received : ∀ (sequence : ℕ) (pending : PublisherList),
    c.remaining[sequence]? = some pending → pending.sequence = sequence ∧
      ∃ list, Received events list ∧ list.sequence = sequence ∧ list.effective = pending.validFrom
  pending_le_max : ∀ (sequence : ℕ) (pending : PublisherList),
    c.remaining[sequence]? = some pending → ∃ m, c.maxSequence = some m ∧ sequence ≤ m
  max_in_force : ∀ m, c.maxSequence = some m →
    m ≤ c.current.sequence ∨ ∃ pending, c.remaining[m]? = some pending
  current_due : c.current.sequence = 0 ∨
    ∃ list, Due events list ∧ list.sequence = c.current.sequence
  due_le : ∀ list, Due events list → list.sequence ≤ c.current.sequence
  covered : ∀ list, Received events list → list.sequence ≤ c.current.sequence ∨
    ∃ (sequence : ℕ) (pending : PublisherList), c.remaining[sequence]? = some pending ∧
      list.sequence ≤ sequence ∧ pending.validFrom ≤ list.effective

/-- Pending lists are newer than the current one, and take effect in their order. -/
structure Settled (c : PublisherListCollection) : Prop where
  above : ∀ (sequence : ℕ) (pending : PublisherList), c.remaining[sequence]? = some pending →
    c.current.sequence < sequence
  increasing : ∀ (sequence sequence' : ℕ) (pending pending' : PublisherList),
    c.remaining[sequence]? = some pending → c.remaining[sequence']? = some pending' →
      sequence < sequence' → pending.validFrom < pending'.validFrom

variable {c : PublisherListCollection}

theorem tracks_empty (status : PublisherStatus) : Tracks [] (.empty status) where
  pending_received sequence pending h := by simp [PublisherListCollection.empty] at h
  pending_le_max sequence pending h := by simp [PublisherListCollection.empty] at h
  max_in_force := nofun
  current_due := .inl rfl
  due_le := nofun
  covered list h := by
    obtain ⟨now, hmem⟩ := h
    cases hmem

theorem settled_empty (status : PublisherStatus) : Settled (.empty status) where
  above sequence pending h := by simp [PublisherListCollection.empty] at h
  increasing sequence sequence' pending pending' h := by
    simp [PublisherListCollection.empty] at h

theorem Tracks.ignore (h : Tracks events c)
    (hcovered : list.sequence ≤ c.current.sequence ∨ now < list.effective ∧
      ∃ (sequence : ℕ) (pending : PublisherList), c.remaining[sequence]? = some pending ∧
        list.sequence ≤ sequence ∧ pending.validFrom ≤ list.effective) :
    Tracks (.received now list :: events) c where
  pending_received sequence pending hpend := by
    obtain ⟨hsequence, list', hrecv, hrest⟩ := h.pending_received sequence pending hpend
    exact ⟨hsequence, list', hrecv.cons _, hrest⟩
  pending_le_max := h.pending_le_max
  max_in_force := h.max_in_force
  current_due := by
    rcases h.current_due with hzero | ⟨list', hdue, hsequence⟩
    · exact .inl hzero
    · exact .inr ⟨list', hdue.cons _, hsequence⟩
  due_le list' hdue := by
    rcases hdue with ⟨rfl, heffective⟩ | hdue
    · rcases hcovered with hle | ⟨hlt, -⟩
      · exact hle
      · omega
    · exact h.due_le list' hdue
  covered list' hrecv := by
    rcases received_cons hrecv with rfl | hrecv
    · exact hcovered.imp_right And.right
    · exact h.covered list' hrecv

theorem raiseMaxSequence_spec (c : PublisherListCollection) (sequence : ℕ) :
    ∃ m, (c.raiseMaxSequence sequence).maxSequence = some m ∧ sequence ≤ m ∧
      (∀ m', c.maxSequence = some m' → m' ≤ m) ∧ (m = sequence ∨ c.maxSequence = some m) := by
  unfold PublisherListCollection.raiseMaxSequence
  rcases c.maxSequence with _ | m
  · exact ⟨sequence, rfl, le_rfl, nofun, .inl rfl⟩
  · refine ⟨max m sequence, rfl, le_max_right _ _, ?_, ?_⟩
    · rintro m' ⟨⟩
      exact le_max_left _ _
    · rcases le_total m sequence with hle | hle
      · exact .inl (max_eq_right hle)
      · exact .inr (by rw [max_eq_left hle])

namespace Tracks

variable (h : Tracks events c)

include h

/-- The pending list of a sequence number takes effect when the received one does. -/
theorem validFrom_eq (hone : ∀ list', Received events list' → list'.sequence = list.sequence →
      list'.effective = list.effective) (hpend : c.remaining[list.sequence]? = some pending) :
    pending.validFrom = list.effective := by
  obtain ⟨-, list', hrecv, hsequence, heffective⟩ :=
    h.pending_received list.sequence pending hpend
  rw [← heffective]
  exact hone list' hrecv hsequence

theorem putInForce (codec : Codec) (status : PublisherStatus)
    (hnewer : c.current.sequence < list.sequence) (heffective : list.effective ≤ now) :
    Tracks (.received now list :: events) (c.putInForce codec status list) := by
  obtain ⟨m, hm, hle, hold, hcases⟩ := raiseMaxSequence_spec c list.sequence
  have hcurrent : (c.putInForce codec status list).current.sequence = list.sequence := by
    unfold PublisherListCollection.putInForce
    rcases hpend : c.remaining[list.sequence]? with _ | pending
    · rfl
    · exact (h.pending_received list.sequence pending hpend).1
  have hremaining : ∀ sequence, (c.putInForce codec status list).remaining[sequence]? =
      if list.sequence = sequence then none else c.remaining[sequence]? := by
    intro sequence
    exact OrderedMap.getElem?_erase _ _ _
  have hmax : (c.putInForce codec status list).maxSequence = some m := hm
  constructor
  · intro sequence pending hpend
    rw [hremaining] at hpend
    split_ifs at hpend
    obtain ⟨hsequence, list', hrecv, hrest⟩ := h.pending_received sequence pending hpend
    exact ⟨hsequence, list', hrecv.cons _, hrest⟩
  · intro sequence pending hpend
    rw [hremaining] at hpend
    split_ifs at hpend
    obtain ⟨m', hm', hle'⟩ := h.pending_le_max sequence pending hpend
    exact ⟨m, hmax, hle'.trans (hold m' hm')⟩
  · intro m' hm'
    rw [hmax] at hm'
    cases hm'
    rw [hcurrent, hremaining]
    rcases hcases with rfl | hm'
    · exact .inl le_rfl
    · rcases h.max_in_force m hm' with hforce | ⟨pending, hpend⟩
      · exact .inl (by omega)
      · split_ifs with heq
        · exact .inl heq.ge
        · exact .inr ⟨pending, hpend⟩
  · exact .inr ⟨list, .inl ⟨rfl, heffective⟩, hcurrent.symm⟩
  · intro list' hdue
    rw [hcurrent]
    rcases hdue with ⟨rfl, -⟩ | hdue
    · exact le_rfl
    · exact (h.due_le list' hdue).trans hnewer.le
  · intro list' hrecv
    rw [hcurrent]
    rcases received_cons hrecv with rfl | hrecv
    · exact .inl le_rfl
    · rcases h.covered list' hrecv with hle' | ⟨sequence, pending, hpend, hle', hfrom⟩
      · exact .inl (hle'.trans hnewer.le)
      · by_cases heq : list.sequence = sequence
        · exact .inl (heq ▸ hle')
        · exact .inr ⟨sequence, pending, by rw [hremaining, if_neg heq, hpend], hle', hfrom⟩

theorem putOff (codec : Codec) (hlater : now < list.effective) (hfits : list.effective < 2 ^ 32)
    (hone : ∀ list', Received events list' → list'.sequence = list.sequence →
      list'.effective = list.effective) :
    Tracks (.received now list :: events) (c.putOff codec list) := by
  obtain ⟨m, hm, hle, hold, hcases⟩ := raiseMaxSequence_spec c list.sequence
  have hfrom : (publisherList codec list).validFrom = list.effective := Nat.mod_eq_of_lt hfits
  have hremaining : ∀ sequence, (c.putOff codec list).remaining[sequence]? =
      if list.sequence = sequence then some (publisherList codec list)
      else c.remaining[sequence]? := by
    intro sequence
    exact OrderedMap.getElem?_insert _ _ _ _
  have hmax : (c.putOff codec list).maxSequence = some m := hm
  have hcurrent : (c.putOff codec list).current = c.current := rfl
  constructor
  · intro sequence pending hpend
    rw [hremaining] at hpend
    split_ifs at hpend with heq
    · cases hpend
      exact ⟨heq, list, ⟨now, mem_cons_self⟩, heq, hfrom.symm⟩
    · obtain ⟨hsequence, list', hrecv, hrest⟩ := h.pending_received sequence pending hpend
      exact ⟨hsequence, list', hrecv.cons _, hrest⟩
  · intro sequence pending hpend
    rw [hremaining] at hpend
    split_ifs at hpend with heq
    · exact ⟨m, hmax, heq ▸ hle⟩
    · obtain ⟨m', hm', hle'⟩ := h.pending_le_max sequence pending hpend
      exact ⟨m, hmax, hle'.trans (hold m' hm')⟩
  · intro m' hm'
    rw [hmax] at hm'
    cases hm'
    rw [hcurrent, hremaining]
    split_ifs with heq
    · exact .inr ⟨_, rfl⟩
    · rcases hcases with rfl | hm'
      · exact absurd rfl heq
      · exact h.max_in_force m hm'
  · rw [hcurrent]
    rcases h.current_due with hzero | ⟨list', hdue, hsequence⟩
    · exact .inl hzero
    · exact .inr ⟨list', hdue.cons _, hsequence⟩
  · intro list' hdue
    rcases hdue with ⟨rfl, heffective⟩ | hdue
    · omega
    · exact h.due_le list' hdue
  · intro list' hrecv
    rcases received_cons hrecv with rfl | hrecv
    · exact .inr ⟨list'.sequence, _, by rw [hremaining, if_pos rfl], le_rfl, hfrom.le⟩
    · rcases h.covered list' hrecv with hle' | ⟨sequence, pending, hpend, hle', hfrom'⟩
      · exact .inl hle'
      · by_cases heq : list.sequence = sequence
        · -- the list that is put off replaces one of the same time
          subst heq
          refine .inr ⟨list.sequence, _, by rw [hremaining, if_pos rfl], hle', ?_⟩
          rw [hfrom, ← h.validFrom_eq hone hpend]
          exact hfrom'
        · exact .inr ⟨sequence, pending, by rw [hremaining, if_neg heq, hpend], hle', hfrom'⟩

theorem receive (codec : Codec) (hfits : list.effective < 2 ^ 32)
    (hone : ∀ list', Received events list' → list'.sequence = list.sequence →
      list'.effective = list.effective) :
    Tracks (.received now list :: events) (c.receive codec now list) := by
  have hexpires := list.effective_lt_expiration
  unfold PublisherListCollection.receive PublisherListCollection.disposition
  by_cases hstale : list.sequence < c.current.sequence
  · rw [if_pos hstale]
    exact h.ignore (.inl hstale.le)
  rw [if_neg hstale]
  by_cases hsame : list.sequence = c.current.sequence
  · rw [if_pos hsame]
    exact h.ignore (.inl hsame.le)
  rw [if_neg hsame]
  by_cases hexpired : list.expiration ≤ now
  · rw [if_pos hexpired]
    exact h.putInForce codec .expired (by omega) (by omega)
  rw [if_neg hexpired]
  by_cases hlater : list.effective > now
  · rw [if_pos hlater]
    rcases hmax : c.maxSequence with _ | m
    · exact h.putOff codec hlater hfits hone
    · dsimp only
      by_cases hnewer : list.sequence > m
      · rw [if_pos hnewer]
        exact h.putOff codec hlater hfits hone
      split_ifs with hearlier
      · exact h.putOff codec hlater hfits hone
      · -- the list is pending already, or the newest pending one takes effect before it
        refine h.ignore ?_
        rcases hpend : c.remaining[list.sequence]? with _ | pending
        · rcases h.max_in_force m hmax with hforce | ⟨future, hfuture⟩
          · exact .inl (by omega)
          · refine .inr ⟨hlater, m, future, hfuture, not_lt.mp hnewer, ?_⟩
            simpa [hpend, hfuture] using hearlier
        · exact .inr ⟨hlater, list.sequence, pending, hpend, le_rfl,
            (h.validFrom_eq hone hpend).le⟩
  · rw [if_neg hlater]
    exact h.putInForce codec .available (by omega) (by omega)

end Tracks

variable {sequence : ℕ} {lists : List (ℕ × PublisherList)}

theorem exists_of_overtaken (hsort : lists.Pairwise fun a b => a.1 < b.1)
    (h : overtaken lists = some sequence) :
    ∃ (previous : PublisherList) (sequence' : ℕ) (later : PublisherList),
      (sequence, previous) ∈ lists ∧ (sequence', later) ∈ lists ∧ sequence < sequence' ∧
        later.validFrom ≤ previous.validFrom := by
  fun_induction overtaken lists with
  | case1 previous current rest ih =>
    obtain ⟨hlt, hrest⟩ := List.pairwise_cons.mp hsort
    rcases Option.or_eq_some_iff.mp h with htail | ⟨-, hhead⟩
    · obtain ⟨earlier, sequence', later, hearlier, hlater, hless, hle⟩ := ih hrest htail
      exact ⟨earlier, sequence', later, mem_cons_of_mem _ hearlier,
        mem_cons_of_mem _ hlater, hless, hle⟩
    · split_ifs at hhead with hle
      cases hhead
      exact ⟨previous.2, current.1, current.2, mem_cons_self,
        mem_cons_of_mem _ mem_cons_self, hlt current mem_cons_self, hle⟩
  | case2 => cases h

theorem pairwise_of_overtaken_eq_none (h : overtaken lists = none) :
    lists.Pairwise fun a b => a.2.validFrom < b.2.validFrom := by
  have hchain : lists.IsChain fun a b => a.2.validFrom < b.2.validFrom := by
    fun_induction overtaken lists with
    | case1 previous current rest ih =>
      obtain ⟨htail, hhead⟩ := Option.or_eq_none_iff.mp h
      refine List.isChain_cons_cons.mpr ⟨?_, ih htail⟩
      split_ifs at hhead with hle
      exact not_le.mp hle
    | case2 lists hshort =>
      match lists with
      | [] => exact List.isChain_nil
      | [entry] => exact List.isChain_singleton entry
      | previous :: current :: rest => exact absurd rfl (hshort previous current rest)
  exact List.isChain_iff_pairwise.mp hchain

/-- Whatever is removed leaves a later list that takes effect no later. -/
theorem exists_of_removeOvertaken (fuel : ℕ) (remaining : ExtTreeMap ℕ PublisherList)
    (h : remaining[sequence]? = some pending) :
    ∃ (sequence' : ℕ) (later : PublisherList),
      (removeOvertaken fuel remaining)[sequence']? = some later ∧ sequence ≤ sequence' ∧
        later.validFrom ≤ pending.validFrom := by
  fun_induction removeOvertaken fuel remaining generalizing sequence pending with
  | case1 remaining => exact ⟨sequence, pending, h, le_rfl, le_rfl⟩
  | case2 fuel remaining hnone => exact ⟨sequence, pending, h, le_rfl, le_rfl⟩
  | case3 fuel remaining removed hsome ih =>
    by_cases heq : removed = sequence
    · subst heq
      obtain ⟨previous, sequence', later, hprevious, hlater, hlt, hle⟩ :=
        exists_of_overtaken (OrderedMap.toList_pairwise_lt remaining) hsome
      rw [ExtTreeMap.mem_toList_iff_getElem?_eq_some] at hprevious hlater
      rw [h] at hprevious
      cases hprevious
      have hkept : (remaining.erase removed)[sequence']? = some later := by
        rw [OrderedMap.getElem?_erase, if_neg hlt.ne, hlater]
      obtain ⟨sequence'', last, hlast, hle', hfrom⟩ := ih hkept
      exact ⟨sequence'', last, hlast, hlt.le.trans hle', hfrom.trans hle⟩
    · refine ih ?_
      rw [OrderedMap.getElem?_erase, if_neg heq, h]

theorem overtaken_removeOvertaken {fuel : ℕ} {remaining : ExtTreeMap ℕ PublisherList}
    (h : remaining.size ≤ fuel) : overtaken (removeOvertaken fuel remaining).toList = none := by
  fun_induction removeOvertaken fuel remaining with
  | case1 remaining =>
    have hempty : remaining.toList = [] := by
      rw [← List.length_eq_zero_iff, ExtTreeMap.length_toList]
      omega
    rw [hempty]
    rfl
  | case2 fuel remaining hnone => exact hnone
  | case3 fuel remaining removed hsome ih =>
    refine ih ?_
    obtain ⟨previous, -, -, hprevious, -⟩ :=
      exists_of_overtaken (OrderedMap.toList_pairwise_lt remaining) hsome
    have hmem : removed ∈ remaining := OrderedMap.mem_iff_exists.mpr
      ⟨previous, ExtTreeMap.mem_toList_iff_getElem?_eq_some.mp hprevious⟩
    rw [ExtTreeMap.size_erase, if_pos (ExtTreeMap.contains_iff_mem.mpr hmem)]
    omega

theorem getElem?_clean (h : (cleanPublisherCollection c).remaining[sequence]? = some pending) :
    c.remaining[sequence]? = some pending ∧ c.current.sequence < sequence := by
  have hkept := removeOvertaken_subset _ _ _ _ h
  rw [getElem?_filter_sequence] at hkept
  split_ifs at hkept with hlt
  exact ⟨hkept, hlt⟩

theorem exists_of_clean (h : c.remaining[sequence]? = some pending)
    (hlt : c.current.sequence < sequence) :
    ∃ (sequence' : ℕ) (later : PublisherList),
      (cleanPublisherCollection c).remaining[sequence']? = some later ∧ sequence ≤ sequence' ∧
        later.validFrom ≤ pending.validFrom := by
  refine exists_of_removeOvertaken _ _ ?_
  rw [getElem?_filter_sequence, if_pos hlt, h]

theorem settled_clean (c : PublisherListCollection) : Settled (cleanPublisherCollection c) where
  above sequence pending h := (getElem?_clean h).2
  increasing sequence sequence' pending pending' h h' hlt := by
    have hpairwise := pairwise_of_overtaken_eq_none
      (overtaken_removeOvertaken (le_refl (c.remaining.filter fun sequence _ =>
        decide (sequence > c.current.sequence)).size))
    exact OrderedMap.rel_of_pairwise_toList hpairwise h h' hlt

theorem Tracks.clean (h : Tracks events c) : Tracks events (cleanPublisherCollection c) where
  pending_received sequence pending hpend :=
    h.pending_received sequence pending (getElem?_clean hpend).1
  pending_le_max sequence pending hpend :=
    h.pending_le_max sequence pending (getElem?_clean hpend).1
  max_in_force m hm := by
    change c.maxSequence = some m at hm
    rcases le_or_gt m c.current.sequence with hle | hlt
    · exact .inl hle
    · rcases h.max_in_force m hm with hle | ⟨pending, hpend⟩
      · exact .inl hle
      · -- nothing pending is above the maximum, so it is not overtaken
        obtain ⟨sequence, later, hlater, hle, -⟩ := exists_of_clean hpend hlt
        obtain ⟨m', hm', hle'⟩ := h.pending_le_max sequence later (getElem?_clean hlater).1
        rw [hm] at hm'
        cases hm'
        exact .inr ⟨later, le_antisymm hle' hle ▸ hlater⟩
  current_due := h.current_due
  due_le := h.due_le
  covered list hrecv := by
    rcases h.covered list hrecv with hle | ⟨sequence, pending, hpend, hle, hfrom⟩
    · exact .inl hle
    · rcases le_or_gt sequence c.current.sequence with hle' | hlt
      · exact .inl (hle.trans hle')
      · obtain ⟨sequence', later, hlater, hle', hfrom'⟩ := exists_of_clean hpend hlt
        exact .inr ⟨sequence', later, hlater, hle.trans hle', hfrom'.trans hfrom⟩

theorem mem_takeWhile_of_pairwise {α : Type*} (time : α → ℕ) {limit : ℕ} {lists : List α}
    (hsort : lists.Pairwise fun a b => time a < time b) {a : α} (ha : a ∈ lists)
    (hle : time a ≤ limit) : a ∈ lists.takeWhile fun b => decide (time b ≤ limit) := by
  induction lists with
  | nil => cases ha
  | cons first rest ih =>
    obtain ⟨hfirst, hrest⟩ := List.pairwise_cons.mp hsort
    have hfirst_le : time first ≤ limit := by
      rcases List.mem_cons.mp ha with rfl | ha
      · exact hle
      · exact (hfirst a ha).le.trans hle
    rw [List.takeWhile_cons_of_pos (by simpa using hfirst_le)]
    rcases List.mem_cons.mp ha with rfl | ha
    · exact mem_cons_self
    · exact mem_cons_of_mem _ (ih hrest ha)

theorem Settled.pairwise_validFrom (h : Settled c) :
    c.remaining.toList.Pairwise fun a b => a.2.validFrom < b.2.validFrom := by
  refine (OrderedMap.toList_pairwise_lt c.remaining).imp_of_mem fun {a b} ha hb hlt => ?_
  rw [ExtTreeMap.mem_toList_iff_getElem?_eq_some] at ha hb
  exact h.increasing a.1 b.1 a.2 b.2 ha hb hlt

/-- What is ready are the pending lists that are effective by the close time. -/
theorem Settled.mem_ready_iff (h : Settled c) :
    (sequence, pending) ∈ readyLists c closeTime ↔
      c.remaining[sequence]? = some pending ∧ pending.validFrom ≤ closeTime := by
  constructor
  · exact mem_remaining_of_mem_ready
  · rintro ⟨hpend, hle⟩
    exact mem_takeWhile_of_pairwise (fun entry : ℕ × PublisherList => entry.2.validFrom)
      h.pairwise_validFrom (ExtTreeMap.mem_toList_iff_getElem?_eq_some.mpr hpend) hle

theorem le_of_getLast?_ready {last entry : ℕ × PublisherList}
    (hlast : (readyLists c closeTime).getLast? = some last)
    (hentry : entry ∈ readyLists c closeTime) : entry.1 ≤ last.1 := by
  have hsort : (readyLists c closeTime).Pairwise fun a b => a.1 < b.1 :=
    (OrderedMap.toList_pairwise_lt c.remaining).sublist (List.takeWhile_sublist _)
  obtain ⟨front, hfront⟩ := List.getLast?_eq_some_iff.mp hlast
  rw [hfront] at hsort hentry
  rcases List.mem_append.mp hentry with hmem | hmem
  · exact ((List.pairwise_append.mp hsort).2.2 entry hmem last (List.mem_singleton_self _)).le
  · rw [List.mem_singleton.mp hmem]

/-- The collection after a rotation: everything effective is at most the current list. -/
structure Rotated (closeTime : ℕ) (c c' : PublisherListCollection) : Prop where
  getElem? : ∀ (sequence : ℕ) (pending : PublisherList), c'.remaining[sequence]? = some pending ↔
    c.remaining[sequence]? = some pending ∧ closeTime < pending.validFrom
  maxSequence_eq : c'.maxSequence = c.maxSequence
  current_le : c.current.sequence ≤ c'.current.sequence
  ready_le : ∀ (sequence : ℕ) (pending : PublisherList), c.remaining[sequence]? = some pending →
    pending.validFrom ≤ closeTime → sequence ≤ c'.current.sequence
  current_cases : c'.current.sequence = c.current.sequence ∨
    ∃ pending : PublisherList, c.remaining[c'.current.sequence]? = some pending ∧
      pending.validFrom ≤ closeTime

theorem Tracks.rotated_rotate (h : Tracks events c) (hsettled : Settled c) (closeTime : ℕ) :
    Rotated closeTime c (c.rotate closeTime) := by
  unfold PublisherListCollection.rotate
  rcases hlast : (readyLists c closeTime).getLast? with _ | ⟨sequence, pending⟩
  · have hnone : ∀ (sequence : ℕ) (pending : PublisherList),
        c.remaining[sequence]? = some pending → closeTime < pending.validFrom := by
      intro sequence pending hpend
      by_contra hle
      have hmem := hsettled.mem_ready_iff.mpr ⟨hpend, not_lt.mp hle⟩
      rw [List.getLast?_eq_none_iff.mp hlast] at hmem
      cases hmem
    refine ⟨fun sequence pending => ⟨fun hpend => ⟨hpend, hnone sequence pending hpend⟩,
      And.left⟩, rfl, le_rfl, fun sequence pending hpend hle => ?_, .inl rfl⟩
    exact absurd hle (not_le.mpr (hnone sequence pending hpend))
  · obtain ⟨hpend, hle⟩ := hsettled.mem_ready_iff.mp (List.mem_of_getLast? hlast)
    have hsequence : pending.sequence = sequence := (h.pending_received sequence pending hpend).1
    have hcurrent : (if pending.validUntil ≤ closeTime then { pending with list := [] }
        else pending).sequence = sequence := by
      split_ifs
      · exact hsequence
      · exact hsequence
    refine ⟨fun sequence' pending' => ?_, rfl, ?_, fun sequence' pending' hpend' hle' => ?_, ?_⟩
    · dsimp only
      rw [getElem?_foldl_erase]
      constructor
      · intro hkept
        split_ifs at hkept with hready
        refine ⟨hkept, lt_of_not_ge fun hle' => hready ?_⟩
        exact List.mem_map.mpr ⟨_, hsettled.mem_ready_iff.mpr ⟨hkept, hle'⟩, rfl⟩
      · rintro ⟨hpend', hlt⟩
        rw [if_neg]
        · exact hpend'
        · intro hready
          obtain ⟨entry, hentry, rfl⟩ := List.mem_map.mp hready
          obtain ⟨hfound, hle'⟩ := mem_remaining_of_mem_ready hentry
          rw [hpend'] at hfound
          cases hfound
          omega
    · dsimp only
      rw [hcurrent]
      exact (hsettled.above sequence pending hpend).le
    · dsimp only
      rw [hcurrent]
      exact le_of_getLast?_ready hlast (hsettled.mem_ready_iff.mpr ⟨hpend', hle'⟩)
    · refine .inr ⟨pending, ?_, hle⟩
      rw [hcurrent]
      exact hpend

theorem rotated_refresh (h : Rotated closeTime c (c.rotate closeTime)) :
    Rotated closeTime c (c.refresh closeTime) := by
  unfold PublisherListCollection.refresh
  dsimp only
  split_ifs
  · exact ⟨h.getElem?, h.maxSequence_eq, h.current_le, h.ready_le, h.current_cases⟩
  · exact h

variable {c' : PublisherListCollection}

theorem Rotated.settled (h : Rotated closeTime c c') (hsettled : Settled c) : Settled c' where
  above sequence pending hpend := by
    obtain ⟨hold, hlt⟩ := (h.getElem? sequence pending).mp hpend
    rcases h.current_cases with hsame | ⟨current, hcurrent, hle⟩
    · rw [hsame]
      exact hsettled.above sequence pending hold
    · -- a list that is not effective yet is newer than one that is
      rcases lt_trichotomy c'.current.sequence sequence with hlt' | heq | hlt'
      · exact hlt'
      · rw [heq, hold] at hcurrent
        cases hcurrent
        omega
      · have := hsettled.increasing _ _ _ _ hold hcurrent hlt'
        omega
  increasing sequence sequence' pending pending' hpend hpend' :=
    hsettled.increasing sequence sequence' pending pending'
      ((h.getElem? sequence pending).mp hpend).1 ((h.getElem? sequence' pending').mp hpend').1

theorem Rotated.tracks (h : Rotated closeTime c c') (htracks : Tracks events c) :
    Tracks (.trusted closeTime :: events) c' where
  pending_received sequence pending hpend := by
    obtain ⟨hold, -⟩ := (h.getElem? sequence pending).mp hpend
    obtain ⟨hsequence, list, hrecv, hrest⟩ := htracks.pending_received sequence pending hold
    exact ⟨hsequence, list, hrecv.cons _, hrest⟩
  pending_le_max sequence pending hpend := by
    rw [h.maxSequence_eq]
    exact htracks.pending_le_max sequence pending ((h.getElem? sequence pending).mp hpend).1
  max_in_force m hm := by
    rw [h.maxSequence_eq] at hm
    rcases htracks.max_in_force m hm with hle | ⟨pending, hpend⟩
    · exact .inl (hle.trans h.current_le)
    · rcases le_or_gt pending.validFrom closeTime with hle | hlt
      · exact .inl (h.ready_le m pending hpend hle)
      · exact .inr ⟨pending, (h.getElem? m pending).mpr ⟨hpend, hlt⟩⟩
  current_due := by
    rcases h.current_cases with hsame | ⟨pending, hpend, hle⟩
    · rw [hsame]
      rcases htracks.current_due with hzero | ⟨list, hdue, hsequence⟩
      · exact .inl hzero
      · exact .inr ⟨list, hdue.cons _, hsequence⟩
    · obtain ⟨-, list, hrecv, hsequence, heffective⟩ :=
        htracks.pending_received _ pending hpend
      exact .inr ⟨list, .inl ⟨hrecv, heffective.trans_le hle⟩, hsequence⟩
  due_le list hdue := by
    rcases hdue with ⟨hrecv, heffective⟩ | hdue
    · rcases htracks.covered list hrecv with hle | ⟨sequence, pending, hpend, hle, hfrom⟩
      · exact hle.trans h.current_le
      · exact hle.trans (h.ready_le sequence pending hpend (hfrom.trans heffective))
    · exact (htracks.due_le list hdue).trans h.current_le
  covered list hrecv := by
    rcases htracks.covered list (received_trusted hrecv) with
      hle | ⟨sequence, pending, hpend, hle, hfrom⟩
    · exact .inl (hle.trans h.current_le)
    · rcases le_or_gt pending.validFrom closeTime with hready | hlt
      · exact .inl (hle.trans (h.ready_le sequence pending hpend hready))
      · exact .inr ⟨sequence, pending, (h.getElem? sequence pending).mpr ⟨hpend, hlt⟩, hle,
          hfrom⟩

end Events

namespace ValidatorList

/-- The list of a publisher in a blob. -/
def blobEvents (codec : Codec) (globalManifest : String) (publisher : PublicKey)
    (s : ValidatorList) (item : ℕ × ValidatorBlobInfo) : List Event :=
  match s.received codec globalManifest item with
  | none => []
  | some (key, list) => if key = publisher then [.received item.1 list] else []

/-- The lists of a publisher in blobs that come one after the other, newest first. -/
def blobsEvents (codec : Codec) (globalManifest : String) (publisher : PublicKey) :
    ValidatorList → List (ℕ × ValidatorBlobInfo) → List Event
  | _, [] => []
  | s, item :: rest =>
    blobsEvents codec globalManifest publisher (s.applyListLocked codec globalManifest item).2
      rest ++ blobEvents codec globalManifest publisher s item

/-- What a call means for a publisher. -/
def Op.events (codec : Codec) (publisher : PublicKey) (s : ValidatorList) : Op → List Event
  | .load _ _ _ _ => []
  | .applyLists manifest version blobs =>
    if version = 1 ∨ version = 2 then blobsEvents codec manifest publisher s blobs else []
  | .updateTrusted closeTime now _ => [.trusted (clampStaleLclCloseTime closeTime now)]

/-- The events of a run for a publisher, and the lists after it. -/
inductive History (codec : Codec) (publisher : PublicKey) (start : ValidatorList) :
    List Event → ValidatorList → Prop
  | start : History codec publisher start [] start
  | step {events : List Event} {s : ValidatorList} (op : Op)
      (before : History codec publisher start events s) (permitted : op.Permitted s) :
      History codec publisher start (op.events codec publisher s ++ events) (op.run codec s)

/-- The times of the lists fit 32 bits, and the lists of a sequence number take effect together. -/
structure Consistent (events : List Event) : Prop where
  fits : ∀ list, Received events list → list.effective < 2 ^ 32 ∧ list.expiration < 2 ^ 32
  one : ∀ list list', Received events list → Received events list' →
    list'.sequence = list.sequence → list'.effective = list.effective

theorem Consistent.of_append {newer older : List Event} (h : Consistent (newer ++ older)) :
    Consistent older := by
  have hmono : ∀ list, Received older list → Received (newer ++ older) list := by
    rintro list ⟨now, hmem⟩
    exact ⟨now, List.mem_append_right _ hmem⟩
  exact ⟨fun list hlist => h.fits list (hmono list hlist), fun list list' hlist hlist' =>
    h.one list list' (hmono list hlist) (hmono list' hlist')⟩

variable {codec : Codec} {publisher : PublicKey} {s s' : ValidatorList} {events : List Event}

/-- Unless it has been revoked, the publisher's collection is up to date, and settled once it
has been cleaned. -/
def UpToDate (publisher : PublicKey) (events : List Event) (cleaned : Prop) (s : ValidatorList) :
    Prop :=
  s.publisherManifests.revoked publisher = false →
    ∃ c, s.publisherLists[publisher]? = some c ∧ Tracks events c ∧ (cleaned → Settled c)

variable {cleaned : Prop}

/-- A list of the publisher makes it one of those to be cleaned. -/
theorem UpToDate.applyListLocked (h : UpToDate publisher events cleaned s)
    (globalManifest : String) (item : ℕ × ValidatorBlobInfo)
    (hcons : Consistent (blobEvents codec globalManifest publisher s item ++ events)) :
    UpToDate publisher (blobEvents codec globalManifest publisher s item ++ events)
      (cleaned ∧ publisher ∉ (s.applyListLocked codec globalManifest item).1)
      (s.applyListLocked codec globalManifest item).2 := by
  have hstep := applyListLocked_blobStep codec globalManifest s item
  unfold blobEvents at hcons ⊢
  generalize (s.applyListLocked codec globalManifest item).2 = s',
    (s.applyListLocked codec globalManifest item).1 = named,
    s.received codec globalManifest item = received at hstep hcons ⊢
  intro hunrevoked
  cases hstep with
  | ignored named manifests hrevoked =>
    rw [hrevoked] at hunrevoked
    obtain ⟨c, hc, htracks, hsettled⟩ := h hunrevoked
    exact ⟨c, hc, htracks, fun hcleaned => hsettled hcleaned.1⟩
  | revoked key coll manifests hfound hrevoked =>
    have hupdates := revokePublisher_updates (s := { s with publisherManifests := manifests })
      hfound
    rw [hupdates.publisherManifests_eq, hrevoked publisher] at hunrevoked
    split_ifs at hunrevoked with heq
    obtain ⟨c, hc, htracks, hsettled⟩ := h hunrevoked
    exact ⟨c, by rw [hupdates.getElem? publisher, if_neg heq, hc], htracks, fun hcleaned =>
      hsettled hcleaned.1⟩
  | stored key coll manifests list hfound hrevoked =>
    have hupdates :=
      storeList_updates codec (s := { s with publisherManifests := manifests }) hfound item.1 list
    rw [hupdates.publisherManifests_eq, hrevoked publisher] at hunrevoked
    obtain ⟨c, hc, htracks, hsettled⟩ := h hunrevoked
    rw [hupdates.getElem? publisher]
    dsimp only at hcons ⊢
    split_ifs at hcons ⊢ with heq
    · subst heq
      rw [hfound] at hc
      cases hc
      have hnew : Received (.received item.1 list :: events) list :=
        ⟨item.1, mem_cons_self⟩
      refine ⟨_, rfl, ?_, fun hcleaned => absurd rfl hcleaned.2⟩
      exact htracks.receive codec (hcons.fits list hnew).1 fun list' hrecv =>
        hcons.one list list' hnew (hrecv.cons _)
    · exact ⟨c, hc, htracks, fun hcleaned => hsettled hcleaned.1⟩

theorem UpToDate.mono {cleaned' : Prop} (h : UpToDate publisher events cleaned s)
    (himp : cleaned' → cleaned) : UpToDate publisher events cleaned' s := by
  intro hunrevoked
  obtain ⟨c, hc, htracks, hsettled⟩ := h hunrevoked
  exact ⟨c, hc, htracks, fun hcleaned => hsettled (himp hcleaned)⟩

theorem UpToDate.applyBlobs (globalManifest : String) (blobs : List (ℕ × ValidatorBlobInfo))
    (acc : Finset PublicKey × ValidatorList)
    (h : UpToDate publisher events (publisher ∉ acc.1) acc.2)
    (hcons : Consistent (blobsEvents codec globalManifest publisher acc.2 blobs ++ events)) :
    let acc' := blobs.foldl (fun acc item =>
      let applied := acc.2.applyListLocked codec globalManifest item
      (acc.1 ∪ applied.1.toFinset, applied.2)) acc
    UpToDate publisher (blobsEvents codec globalManifest publisher acc.2 blobs ++ events)
      (publisher ∉ acc'.1) acc'.2 := by
  induction blobs generalizing acc events with
  | nil => exact h
  | cons item rest ih =>
    unfold blobsEvents at hcons ⊢
    rw [List.append_assoc] at hcons ⊢
    have hitem := h.applyListLocked globalManifest item hcons.of_append
    exact ih _ (hitem.mono fun hnot => by simpa [Finset.mem_union] using hnot) hcons

theorem UpToDate.cleanPublishers {keys : List PublicKey}
    (h : UpToDate publisher events (publisher ∉ keys) s) :
    UpToDate publisher events True (keys.foldl cleanPublisher s) := by
  induction keys generalizing s with
  | nil => exact h.mono fun _ => List.not_mem_nil
  | cons key rest ih =>
    refine ih ?_
    intro hunrevoked
    rcases hfound : s.publisherLists[key]? with _ | coll
    · simp only [cleanPublisher, hfound] at hunrevoked ⊢
      obtain ⟨c, hc, htracks, hsettled⟩ := h hunrevoked
      refine ⟨c, hc, htracks, fun hrest => hsettled ?_⟩
      rintro (_ | ⟨_, hmem⟩)
      · rw [hc] at hfound
        cases hfound
      · exact hrest hmem
    · have hupdates := cleanPublisher_updates hfound
      rw [hupdates.publisherManifests_eq] at hunrevoked
      obtain ⟨c, hc, htracks, hsettled⟩ := h hunrevoked
      rw [hupdates.getElem? publisher]
      split_ifs with heq
      · subst heq
        rw [hfound] at hc
        cases hc
        exact ⟨_, rfl, htracks.clean, fun _ => settled_clean coll⟩
      · refine ⟨c, hc, htracks, fun hrest => hsettled ?_⟩
        rintro (_ | ⟨_, hmem⟩)
        · exact heq rfl
        · exact hrest hmem

theorem UpToDate.refreshPublishers (h : UpToDate publisher events True s) (codec : Codec)
    (closeTime : ℕ) {publishers : List PublicKey}
    (hpublishers : publishers.Perm s.publisherLists.keys) :
    UpToDate publisher (.trusted closeTime :: events) True
      (publishers.foldl (refreshPublisher codec closeTime) s) := by
  intro hunrevoked
  rw [refreshPublishers_publisherManifests] at hunrevoked
  obtain ⟨c, hc, htracks, hsettled⟩ := h hunrevoked
  have hnodup : publishers.Nodup := hpublishers.nodup_iff.mpr
    ((OrderedMap.keys_pairwise_lt s.publisherLists).imp fun h => ne_of_lt h)
  have hmem : publisher ∈ publishers :=
    hpublishers.mem_iff.mpr (ExtTreeMap.mem_keys.mpr (OrderedMap.mem_iff_exists.mpr ⟨c, hc⟩))
  have hrotated := rotated_refresh (htracks.rotated_rotate (hsettled trivial) closeTime)
  refine ⟨c.refresh closeTime, ?_, hrotated.tracks htracks, fun _ =>
    hrotated.settled (hsettled trivial)⟩
  rw [getElem?_foldl_refreshPublisher closeTime hnodup, if_pos hmem, hc]
  rfl

theorem UpToDate.run (h : UpToDate publisher events True s) {op : Op} (hpermitted : op.Permitted s)
    (hcons : Consistent (op.events codec publisher s ++ events)) :
    UpToDate publisher (op.events codec publisher s ++ events) True (op.run codec s) := by
  cases op with
  | load localSigningKey configKeys publisherKeys listThreshold =>
    obtain ⟨hlists, hmanifests⟩ :=
      load_publishers codec s localSigningKey configKeys publisherKeys listThreshold
    intro hunrevoked
    unfold Op.run at hunrevoked ⊢
    rw [hmanifests] at hunrevoked
    obtain ⟨c, hc, htracks, hsettled⟩ := h hunrevoked
    exact ⟨c, by rw [hlists, loadPublishers_found codec hc], htracks, hsettled⟩
  | applyLists manifest version blobs =>
    unfold Op.events at hcons ⊢
    unfold Op.run applyLists
    dsimp only at hcons ⊢
    split_ifs at hcons ⊢
    · refine cleanPublishers ?_
      refine (applyBlobs manifest blobs (∅, s) (h.mono fun _ => trivial)
        hcons).mono fun hnot => ?_
      rw [Finset.mem_sort] at hnot
      exact hnot
    · exact h
  | updateTrusted closeTime now publishers =>
    exact h.refreshPublishers codec (clampStaleLclCloseTime closeTime now) hpermitted

theorem History.upToDate {start : ValidatorList} {status : PublisherStatus}
    (hstart : start.publisherLists[publisher]? = some (.empty status))
    (h : History codec publisher start events s) (hcons : Consistent events) :
    UpToDate publisher events True s := by
  induction h with
  | start => exact fun _ => ⟨_, hstart, tracks_empty status, fun _ => settled_empty status⟩
  | step op before permitted ih => exact (ih hcons.of_append).run permitted hcons

/-- A list that was effective when it came in, or is by the close time. -/
def EffectiveBy (closeTime : ℕ) (events : List Event) (list : VerifiedList) : Prop :=
  (∃ now, Event.received now list ∈ events ∧ list.effective ≤ now) ∨
    Received events list ∧ list.effective ≤ closeTime

/-- If no close time was later than the last one, the lists that are due are those that were
effective when they came in or are now. -/
theorem due_iff_effectiveBy (h : ∀ earlier, Event.trusted earlier ∈ events → earlier ≤ closeTime)
    (list : VerifiedList) :
    Due (.trusted closeTime :: events) list ↔ EffectiveBy closeTime events list := by
  have hdue : ∀ older, (∀ earlier, Event.trusted earlier ∈ older → earlier ≤ closeTime) →
      Due older list → EffectiveBy closeTime older list := by
    intro older
    induction older with
    | nil => exact fun _ => False.elim
    | cons event older ih =>
      intro hearlier hdue
      have hrest : Due older list → EffectiveBy closeTime (event :: older) list := by
        intro hdue
        rcases ih (fun earlier hmem => hearlier earlier (mem_cons_of_mem _ hmem)) hdue with
          ⟨now, hmem, heffective⟩ | ⟨hrecv, heffective⟩
        · exact .inl ⟨now, mem_cons_of_mem _ hmem, heffective⟩
        · exact .inr ⟨hrecv.cons _, heffective⟩
      cases event with
      | received now received =>
        rcases hdue with ⟨rfl, heffective⟩ | hdue
        · exact .inl ⟨now, mem_cons_self, heffective⟩
        · exact hrest hdue
      | trusted earlier =>
        rcases hdue with ⟨hrecv, heffective⟩ | hdue
        · exact .inr ⟨hrecv.cons _, heffective.trans (hearlier earlier mem_cons_self)⟩
        · exact hrest hdue
  have hback : ∀ older, (∃ now, Event.received now list ∈ older ∧ list.effective ≤ now) →
      Due older list := by
    intro older
    induction older with
    | nil => simp
    | cons event older ih =>
      rintro ⟨now, hmem, heffective⟩
      rcases List.mem_cons.mp hmem with rfl | hmem
      · exact .inl ⟨rfl, heffective⟩
      · exact Due.cons (ih ⟨now, hmem, heffective⟩) event
  constructor
  · rintro (⟨hrecv, heffective⟩ | hold)
    · exact .inr ⟨hrecv, heffective⟩
    · exact hdue events h hold
  · rintro (hrecv | ⟨hrecv, heffective⟩)
    · exact .inr (hback events hrecv)
    · exact .inl ⟨hrecv, heffective⟩

/-- The current list is the newest one that is due, and the pending ones are newer and take effect
one after the other. -/
theorem current_newest (codec : Codec) {publisher : PublicKey} {start : ValidatorList}
    {status : PublisherStatus}
    (hstart : start.publisherLists[publisher]? = some (.empty status)) {events : List Event}
    {s : ValidatorList} (hhistory : History codec publisher start events s)
    (hcons : Consistent events) (closeTime now : ℕ) {publishers : List PublicKey}
    (hpublishers : publishers.Perm s.publisherLists.keys)
    (hunrevoked : (s.updateTrusted codec closeTime now publishers).publisherManifests.revoked
      publisher = false) :
    ∃ c, (s.updateTrusted codec closeTime now publishers).publisherLists[publisher]? = some c ∧
      (∀ list, Due (.trusted (clampStaleLclCloseTime closeTime now) :: events) list →
        list.sequence ≤ c.current.sequence) ∧
      (c.current.sequence = 0 ∨
        ∃ list, Due (.trusted (clampStaleLclCloseTime closeTime now) :: events) list ∧
          list.sequence = c.current.sequence) ∧
      Settled c ∧
      ((∀ earlier, Event.trusted earlier ∈ events →
          earlier ≤ clampStaleLclCloseTime closeTime now) →
        ∀ list, Due (.trusted (clampStaleLclCloseTime closeTime now) :: events) list ↔
          EffectiveBy (clampStaleLclCloseTime closeTime now) events list) := by
  have huptodate := (hhistory.upToDate hstart hcons).refreshPublishers codec
    (clampStaleLclCloseTime closeTime now) hpublishers
  obtain ⟨c, hc, htracks, hsettled⟩ := huptodate hunrevoked
  exact ⟨c, hc, htracks.due_le, htracks.current_due, hsettled trivial, due_iff_effectiveBy⟩

/-- A list that takes effect after it comes in. -/
def lateJson : ListJson := ⟨some 1, some 100, some 20, some [⟨some "k", none⟩]⟩

/-- Two publishers without lists. -/
def twoPublishers : ValidatorList :=
  (loadTwoPublishers 1).run (oneListCodec lateJson) (.new (.new 0) (.new 0))

theorem twoPublishers_found :
    twoPublishers.publisherLists[keyOf 1]? = some (.empty .unavailable) := by
  rfl

def lateList : VerifiedList := ⟨1, 20, 100, [⟨some "k", none⟩], by decide⟩

theorem history_lateList :
    History (oneListCodec lateJson) (keyOf 1) twoPublishers [.received 10 lateList]
      (oneList lateJson 1) := by
  have hhistory : History (oneListCodec lateJson) (keyOf 1) twoPublishers
      (applyOneList.events (oneListCodec lateJson) (keyOf 1) twoPublishers ++ [])
      (oneList lateJson 1) := History.start.step applyOneList trivial
  have hevents : applyOneList.events (oneListCodec lateJson) (keyOf 1) twoPublishers ++ [] =
      [.received 10 lateList] := by decide +kernel
  rw [hevents] at hhistory
  exact hhistory

theorem received_lateList (hevents : ∀ now list, Event.received now list ∈ events → list = lateList)
    (h : Received events list) : list = lateList := by
  obtain ⟨now, hmem⟩ := h
  exact hevents now list hmem

theorem consistent_lateList
    (hevents : ∀ now list, Event.received now list ∈ events → list = lateList) :
    Consistent events where
  fits list hlist := by
    rw [received_lateList hevents hlist]
    decide
  one list list' hlist hlist' _ := by
    rw [received_lateList hevents hlist, received_lateList hevents hlist']

theorem current_newest_lateList :
    ∃ c, ((oneList lateJson 1).updateTrusted (oneListCodec lateJson) 0 31
        [keyOf 1, keyOf 2]).publisherLists[keyOf 1]? = some c ∧
      (∀ list, Due [.trusted (clampStaleLclCloseTime 0 31), .received 10 lateList] list →
        list.sequence ≤ c.current.sequence) ∧
      (c.current.sequence = 0 ∨
        ∃ list, Due [.trusted (clampStaleLclCloseTime 0 31), .received 10 lateList] list ∧
          list.sequence = c.current.sequence) ∧
      Settled c ∧
      ((∀ earlier, Event.trusted earlier ∈ [Event.received 10 lateList] →
          earlier ≤ clampStaleLclCloseTime 0 31) →
        ∀ list, Due [.trusted (clampStaleLclCloseTime 0 31), .received 10 lateList] list ↔
          EffectiveBy (clampStaleLclCloseTime 0 31) [.received 10 lateList] list) :=
  current_newest (oneListCodec lateJson) twoPublishers_found history_lateList
    (consistent_lateList (by simp)) 0 31 (by decide +kernel) (by decide +kernel)

/-- The clock and the close times never go back, but the clamped close time does: it is 31 when
the list is put in force and 10 afterwards. -/
theorem current_not_effective :
    History (oneListCodec lateJson) (keyOf 1) twoPublishers
      [.trusted (clampStaleLclCloseTime 0 31), .received 10 lateList]
      ((oneList lateJson 1).updateTrusted (oneListCodec lateJson) 0 31 [keyOf 1, keyOf 2]) ∧
    Consistent [.trusted (clampStaleLclCloseTime 0 31), .received 10 lateList] ∧
    (((oneList lateJson 1).updateTrusted (oneListCodec lateJson) 0 31
        [keyOf 1, keyOf 2]).updateTrusted (oneListCodec lateJson) 10 31
        [keyOf 1, keyOf 2]).publisherManifests.revoked (keyOf 1) = false ∧
    ((((oneList lateJson 1).updateTrusted (oneListCodec lateJson) 0 31
        [keyOf 1, keyOf 2]).updateTrusted (oneListCodec lateJson) 10 31
        [keyOf 1, keyOf 2]).publisherLists[keyOf 1]?.map fun c =>
          (c.current.sequence, c.current.list)) = some (1, [keyOf 4]) ∧
    ∀ list, ¬ EffectiveBy (clampStaleLclCloseTime 10 31)
      [.trusted (clampStaleLclCloseTime 0 31), .received 10 lateList] list := by
  have hlist : ∀ now list, Event.received now list ∈
      [Event.trusted (clampStaleLclCloseTime 0 31), .received 10 lateList] →
        now = 10 ∧ list = lateList := by simp
  refine ⟨?_, consistent_lateList fun now list hmem => (hlist now list hmem).2, by decide +kernel,
    by decide +kernel, ?_⟩
  · exact history_lateList.step (.updateTrusted 0 31 [keyOf 1, keyOf 2])
      (by unfold Op.Permitted; decide +kernel)
  · rintro list (⟨now, hmem, heffective⟩ | ⟨⟨now, hmem⟩, heffective⟩)
    · obtain ⟨rfl, rfl⟩ := hlist now list hmem
      exact absurd heffective (by decide)
    · obtain ⟨rfl, rfl⟩ := hlist now list hmem
      exact absurd heffective (by decide)

/-- The publisher has also signed a list of the same number that took effect at 5. -/
def againCodec : Codec :=
  { oneListCodec lateJson with
    base64Decode := fun text =>
      if text = "again" then [6] else (oneListCodec lateJson).base64Decode text
    verify := fun _ _ _ => true
    jsonFromSlice := fun data =>
      some (if data = [6] then { lateJson with effective := some 5 } else lateJson) }

-- Why the lists of one number must take effect together: when the second list comes in at 12,
-- the pending one, which takes effect at 20, is put in force.
example : (((Op.applyLists "manifest" 1 [(12, ⟨"again", "signature", none⟩)]).run againCodec
    (applyOneList.run againCodec twoPublishers)).publisherLists[keyOf 1]?.map fun c =>
      (c.current.sequence, c.current.validFrom)) = some (1, 20) := by
  decide +kernel

end ValidatorList

end Quaxar.Validators
