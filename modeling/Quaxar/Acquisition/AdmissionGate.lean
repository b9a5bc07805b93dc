import Mathlib
import Quaxar.Lib.ListSum

/-!
# Admission of packets

A gate counts the packets and bytes that are reserved for a session. A reservation gives a lease,
the lease becomes an admitted packet, and settling the packet, or dropping either, gives the
capacity back. Threads share the two counters and the status of each lease; every move below is one
atomic operation of some thread, or the start of a call. A lease is moved and not shared, so at most
one call on it is in progress, and its phase says where that call stands.
-/

namespace Quaxar.Acquisition

open ListSum
open List (append_nil)

structure AdmissionBudget where
  maxPackets : UInt64
  maxBytes : UInt64

/-- `LEASE_OPEN`, `LEASE_CONSUMED` and `LEASE_RELEASED`. -/
inductive LeaseStatus
  | open
  | consumed
  | released
deriving DecidableEq

/-- Where a thread goes on after it has released a lease: back to the owner of the packet, to the
drop of the lease inside the packet, or nowhere. -/
inductive After
  | keep
  | dropLease
  | gone
deriving DecidableEq

/-- Who has a lease: somebody holds it or the packet made of it, a call on it is in progress, or it
is dropped. -/
inductive LeasePhase (Session : Type)
  | bare
  | packet
  | newPacket (session : Session)
  | settle (after : After)
  | dropLease
  | releasePackets (after : After)
  | releaseBytes (after : After)
  | gone
deriving DecidableEq

variable {Session : Type} [DecidableEq Session]

structure AdmissionLease (Session : Type) where
  leaseId : UInt64
  session : Session
  packetCount : UInt64
  byteCount : UInt64
  settled : LeaseStatus
  phase : LeasePhase Session

structure AdmissionGate (Session : Type) where
  budget : AdmissionBudget
  session : Session
  reservedPackets : UInt64
  reservedBytes : UInt64
  nextLeaseId : UInt64

/-- A call of `try_reserve` in progress. `current` is what the thread last saw of a counter. -/
inductive Reservation
  | loadBytes (packetCount byteCount : UInt64)
  | updateBytes (packetCount byteCount current : UInt64)
  | loadPackets (packetCount byteCount : UInt64)
  | updatePackets (packetCount byteCount current : UInt64)
  | rollBack (byteCount : UInt64)
  | mint (packetCount byteCount : UInt64)

structure AdmissionState (Session : Type) where
  gate : AdmissionGate Session
  leases : List (AdmissionLease Session)
  reservations : List Reservation

def AdmissionGate.new (budget : AdmissionBudget) (session : Session) : AdmissionGate Session :=
  ⟨budget, session, 0, 0, 1⟩

def AdmissionState.new (budget : AdmissionBudget) (session : Session) : AdmissionState Session :=
  ⟨.new budget session, [], []⟩

/-- The update that `reserve_counter` tries. -/
def reserveNext (max amount current : UInt64) : Option UInt64 :=
  if current.toNat + amount.toNat < 2 ^ 64 ∧ current + amount ≤ max then some (current + amount)
  else none

/-- The first step of `try_reserve`. No bytes are reserved without an access to the counter. -/
def Reservation.start (packetCount byteCount : UInt64) : Reservation :=
  let packetCount := if packetCount = 0 then 1 else packetCount
  if byteCount = 0 then .loadPackets packetCount byteCount else .loadBytes packetCount byteCount

/-- One atomic operation of `try_reserve`. The exchange of `fetch_update` is weak: it may fail for
no reason. The call goes on, returns a deferral, or returns a lease. -/
def Reservation.step (gate : AdmissionGate Session) (spurious : Bool) :
    Reservation → AdmissionGate Session × Option Reservation × Option (AdmissionLease Session)
  | .loadBytes packetCount byteCount =>
    (gate, some (.updateBytes packetCount byteCount gate.reservedBytes), none)
  | .updateBytes packetCount byteCount current =>
    match reserveNext gate.budget.maxBytes byteCount current with
    | none => (gate, none, none)
    | some next =>
      if gate.reservedBytes = current ∧ spurious = false then
        ({ gate with reservedBytes := next }, some (.loadPackets packetCount byteCount), none)
      else (gate, some (.updateBytes packetCount byteCount gate.reservedBytes), none)
  | .loadPackets packetCount byteCount =>
    (gate, some (.updatePackets packetCount byteCount gate.reservedPackets), none)
  | .updatePackets packetCount byteCount current =>
    match reserveNext gate.budget.maxPackets packetCount current with
    | none => (gate, some (.rollBack byteCount), none)
    | some next =>
      if gate.reservedPackets = current ∧ spurious = false then
        ({ gate with reservedPackets := next }, some (.mint packetCount byteCount), none)
      else (gate, some (.updatePackets packetCount byteCount gate.reservedPackets), none)
  | .rollBack byteCount =>
    ({ gate with reservedBytes := gate.reservedBytes - byteCount }, none, none)
  | .mint packetCount byteCount =>
    ({ gate with nextLeaseId := gate.nextLeaseId + 1 }, none,
      some ⟨gate.nextLeaseId, gate.session, packetCount, byteCount, .open, .bare⟩)

/-- What the owner of a lease or of a packet may call. -/
inductive LeaseCall (Session : Type)
  | newPacket (session : Session)
  | settle
  | drop

/-- A call begins, if the lease is there to be moved into it. -/
def AdmissionLease.start (lease : AdmissionLease Session) :
    LeaseCall Session → AdmissionLease Session
  | .newPacket session =>
    if lease.phase = .bare then { lease with phase := .newPacket session } else lease
  | .settle => if lease.phase = .packet then { lease with phase := .settle .keep } else lease
  | .drop =>
    if lease.phase = .bare then { lease with phase := .dropLease }
    else if lease.phase = .packet then { lease with phase := .settle .dropLease }
    else lease

def After.phase : After → LeasePhase Session
  | .keep => .packet
  | .dropLease => .dropLease
  | .gone => .gone

/-- One atomic operation of a call on a lease. A lease that does not become a packet is dropped. -/
def AdmissionLease.step (gate : AdmissionGate Session) (lease : AdmissionLease Session) :
    AdmissionGate Session × AdmissionLease Session :=
  match lease.phase with
  | .newPacket session =>
    if lease.session = session ∧ gate.session = session ∧ lease.settled = .open then
      (gate, { lease with settled := .consumed, phase := .packet })
    else (gate, { lease with phase := .dropLease })
  | .settle after =>
    if lease.settled = .consumed then
      (gate, { lease with settled := .released, phase := .releasePackets after })
    else (gate, { lease with phase := after.phase })
  | .dropLease =>
    if lease.settled = .open then
      (gate, { lease with settled := .released, phase := .releasePackets .gone })
    else (gate, { lease with phase := .gone })
  | .releasePackets after =>
    ({ gate with reservedPackets := gate.reservedPackets - lease.packetCount },
      { lease with phase := .releaseBytes after })
  | .releaseBytes after =>
    ({ gate with reservedBytes := gate.reservedBytes - lease.byteCount },
      { lease with phase := after.phase })
  | .bare | .packet | .gone => (gate, lease)

/-- A move of some thread. -/
inductive Move (Session : Type)
  | tryReserve (packetCount byteCount : UInt64)
  | stepReservation (index : ℕ) (spurious : Bool)
  | callLease (index : ℕ) (call : LeaseCall Session)
  | stepLease (index : ℕ)

/-- A lease gives packets or bytes back to the gate. -/
inductive GiveBack
  | packets (index : ℕ)
  | bytes (index : ℕ)
deriving DecidableEq

/-- What a step of a lease in this phase gives back. -/
def LeasePhase.givesBack (index : ℕ) : LeasePhase Session → List GiveBack
  | .releasePackets _ => [.packets index]
  | .releaseBytes _ => [.bytes index]
  | _ => []

def AdmissionState.move (state : AdmissionState Session) :
    Move Session → AdmissionState Session × List GiveBack
  | .tryReserve packetCount byteCount =>
    ({ state with reservations := state.reservations ++ [.start packetCount byteCount] }, [])
  | .stepReservation index spurious =>
    match state.reservations[index]? with
    | none => (state, [])
    | some reservation =>
      let result := reservation.step state.gate spurious
      ({ gate := result.1
         leases := state.leases ++ result.2.2.toList
         reservations := state.reservations.take index ++ result.2.1.toList ++
           state.reservations.drop (index + 1) }, [])
  | .callLease index call =>
    match state.leases[index]? with
    | none => (state, [])
    | some lease => ({ state with leases := state.leases.set index (lease.start call) }, [])
  | .stepLease index =>
    match state.leases[index]? with
    | none => (state, [])
    | some lease =>
      let result := lease.step state.gate
      ({ state with gate := result.1, leases := state.leases.set index result.2 },
        lease.phase.givesBack index)

/-- A run of moves, with everything that is given back on the way. -/
def AdmissionState.run (state : AdmissionState Session) :
    List (Move Session) → AdmissionState Session × List GiveBack
  | [] => (state, [])
  | move :: moves =>
    let result := state.move move
    let rest := result.1.run moves
    (rest.1, result.2 ++ rest.2)

variable {amount : UInt64} {Session : Type}

/-- The call in progress has yet to give the packets back. -/
def LeasePhase.owesPackets : LeasePhase Session → Bool
  | .releasePackets _ => true
  | _ => false

def LeasePhase.owesBytes : LeasePhase Session → Bool
  | .releasePackets _ => true
  | .releaseBytes _ => true
  | _ => false

namespace AdmissionLease

variable (lease : AdmissionLease Session)

def packetsReturned : Bool := decide (lease.settled = .released) && !lease.phase.owesPackets

def bytesReturned : Bool := decide (lease.settled = .released) && !lease.phase.owesBytes

def heldPackets : ℕ := if lease.packetsReturned then 0 else lease.packetCount.toNat

def heldBytes : ℕ := if lease.bytesReturned then 0 else lease.byteCount.toNat

/-- The phases in which the status can be what it is. -/
def Consistent : Prop :=
  match lease.phase with
  | .bare | .newPacket _ => lease.settled = .open
  | .packet | .settle _ => lease.settled ≠ .open
  | .dropLease => lease.settled ≠ .consumed
  | .releasePackets _ | .releaseBytes _ | .gone => lease.settled = .released

end AdmissionLease

def Reservation.heldPackets : Reservation → ℕ
  | .mint packetCount _ => packetCount.toNat
  | _ => 0

def Reservation.heldBytes : Reservation → ℕ
  | .loadBytes _ _ => 0
  | .updateBytes _ _ _ => 0
  | .loadPackets _ byteCount => byteCount.toNat
  | .updatePackets _ byteCount _ => byteCount.toNat
  | .rollBack byteCount => byteCount.toNat
  | .mint _ byteCount => byteCount.toNat

theorem Reservation.start_held (packetCount byteCount : UInt64) :
    (start packetCount byteCount).heldPackets = 0 ∧
      (start packetCount byteCount).heldBytes = 0 := by
  unfold start
  by_cases hzero : byteCount = 0
  · rw [if_pos hzero, hzero]
    exact ⟨rfl, rfl⟩
  · rw [if_neg hzero]
    exact ⟨rfl, rfl⟩

theorem reserveNext_eq_some {max current next : UInt64}
    (h : reserveNext max amount current = some next) :
    next.toNat = current.toNat + amount.toNat ∧ next ≤ max := by
  unfold reserveNext at h
  split_ifs at h with hfits
  cases h
  exact ⟨(UInt64.toNat_add _ _).trans (Nat.mod_eq_of_lt hfits.1), hfits.2⟩

theorem toNat_sub_of_held {counter : UInt64} (h : amount.toNat ≤ counter.toNat) :
    (counter - amount).toNat + amount.toNat = counter.toNat := by
  rw [UInt64.toNat_sub_of_le _ _ (UInt64.le_iff_toNat_le.mpr h)]
  omega

variable {Session : Type} {gate : AdmissionGate Session} {lease : AdmissionLease Session}

/-- From one gate to the next the counters change by what enters and what leaves. -/
structure Transfers (gate gate' : AdmissionGate Session) (packets bytes packets' bytes' : ℕ) :
    Prop where
  packets_eq : gate'.reservedPackets.toNat + packets = gate.reservedPackets.toNat + packets'
  bytes_eq : gate'.reservedBytes.toNat + bytes = gate.reservedBytes.toNat + bytes'
  packets_le : gate.reservedPackets ≤ gate.budget.maxPackets →
    gate'.reservedPackets ≤ gate.budget.maxPackets
  bytes_le : gate.reservedBytes ≤ gate.budget.maxBytes → gate'.reservedBytes ≤ gate.budget.maxBytes
  budget_eq : gate'.budget = gate.budget

theorem Transfers.refl (gate : AdmissionGate Session) (packets bytes : ℕ) :
    Transfers gate gate packets bytes packets bytes :=
  ⟨rfl, rfl, id, id, rfl⟩

theorem Transfers.givePackets (gate : AdmissionGate Session) (bytes : ℕ)
    (h : amount.toNat ≤ gate.reservedPackets.toNat) :
    Transfers gate { gate with reservedPackets := gate.reservedPackets - amount } amount.toNat bytes
      0 bytes where
  packets_eq := toNat_sub_of_held h
  bytes_eq := rfl
  packets_le hle := by
    have hsub := toNat_sub_of_held h
    rw [UInt64.le_iff_toNat_le] at hle ⊢
    change (gate.reservedPackets - amount).toNat ≤ _
    omega
  bytes_le := id
  budget_eq := rfl

theorem Transfers.giveBytes (gate : AdmissionGate Session) (packets : ℕ)
    (h : amount.toNat ≤ gate.reservedBytes.toNat) :
    Transfers gate { gate with reservedBytes := gate.reservedBytes - amount } packets amount.toNat
      packets 0 where
  packets_eq := rfl
  bytes_eq := toNat_sub_of_held h
  packets_le := id
  bytes_le hle := by
    have hsub := toNat_sub_of_held h
    rw [UInt64.le_iff_toNat_le] at hle ⊢
    change (gate.reservedBytes - amount).toNat ≤ _
    omega
  budget_eq := rfl

/-- One operation of `try_reserve` moves what it reserves from the call to the lease. -/
theorem Reservation.step_transfers (reservation : Reservation) (spurious : Bool)
    (hbytes : reservation.heldBytes ≤ gate.reservedBytes.toNat) :
    Transfers gate (reservation.step gate spurious).1 reservation.heldPackets reservation.heldBytes
      (((reservation.step gate spurious).2.1.toList.map heldPackets).sum +
        ((reservation.step gate spurious).2.2.toList.map AdmissionLease.heldPackets).sum)
      (((reservation.step gate spurious).2.1.toList.map heldBytes).sum +
        ((reservation.step gate spurious).2.2.toList.map AdmissionLease.heldBytes).sum) := by
  cases reservation with
  | loadBytes packetCount byteCount => exact .refl gate 0 0
  | updateBytes packetCount byteCount current =>
    unfold step
    dsimp only
    split
    · exact .refl gate 0 0
    · rename_i next hnext
      obtain ⟨hsum, hmax⟩ := reserveNext_eq_some hnext
      split_ifs with hsame
      · refine ⟨rfl, ?_, id, fun _ => hmax, rfl⟩
        rw [hsame.1]
        simpa [heldBytes] using hsum
      · exact .refl gate 0 0
  | loadPackets packetCount byteCount => exact .refl gate 0 byteCount.toNat
  | updatePackets packetCount byteCount current =>
    unfold step
    dsimp only
    split
    · exact .refl gate 0 byteCount.toNat
    · rename_i next hnext
      obtain ⟨hsum, hmax⟩ := reserveNext_eq_some hnext
      split_ifs with hsame
      · refine ⟨?_, rfl, fun _ => hmax, id, rfl⟩
        rw [hsame.1]
        simpa [heldPackets] using hsum
      · exact .refl gate 0 byteCount.toNat
  | rollBack byteCount => exact .giveBytes gate 0 hbytes
  | mint packetCount byteCount =>
    refine ⟨?_, ?_, id, id, rfl⟩ <;> simp [step, heldPackets,
      heldBytes, AdmissionLease.heldPackets, AdmissionLease.heldBytes,
      AdmissionLease.packetsReturned, AdmissionLease.bytesReturned]

variable [DecidableEq Session]

namespace AdmissionLease

/-- A lease may become another one without an effect on the counters. -/
structure Keeps (lease lease' : AdmissionLease Session) : Prop where
  consistent : lease'.Consistent
  heldPackets_eq : lease'.heldPackets = lease.heldPackets
  heldBytes_eq : lease'.heldBytes = lease.heldBytes
  packetsReturned_eq : lease'.packetsReturned = lease.packetsReturned
  bytesReturned_eq : lease'.bytesReturned = lease.bytesReturned

omit [DecidableEq Session] in
theorem Keeps.refl (hlease : lease.Consistent) : lease.Keeps lease :=
  ⟨hlease, rfl, rfl, rfl, rfl⟩

/-- A step keeps what the lease has to give back, or gives back its packets or its bytes. -/
theorem step_cases (gate : AdmissionGate Session) (hlease : lease.Consistent) :
    ((lease.step gate).1 = gate ∧ lease.Keeps (lease.step gate).2 ∧
        ∀ index, lease.phase.givesBack index = []) ∨
      lease.settled = .released ∧
        ∃ after, lease.phase = .releasePackets after ∨ lease.phase = .releaseBytes after := by
  obtain ⟨leaseId, session, packetCount, byteCount, settled, phase⟩ := lease
  cases phase with
  | bare => exact .inl ⟨rfl, .refl hlease, fun _ => rfl⟩
  | packet => exact .inl ⟨rfl, .refl hlease, fun _ => rfl⟩
  | gone => exact .inl ⟨rfl, .refl hlease, fun _ => rfl⟩
  | newPacket session' =>
    cases (show settled = .open from hlease)
    refine .inl ?_
    unfold step
    dsimp only
    split_ifs <;> exact ⟨rfl, ⟨by simp [Consistent], rfl, rfl, rfl, rfl⟩, fun _ => rfl⟩
  | settle after =>
    refine .inl ?_
    cases settled with
    | «open» => exact absurd rfl hlease
    | consumed => exact ⟨rfl, ⟨rfl, rfl, rfl, rfl, rfl⟩, fun _ => rfl⟩
    | released =>
      cases after <;>
        exact ⟨rfl, ⟨by simp [step, Consistent, After.phase], rfl, rfl, rfl, rfl⟩, fun _ => rfl⟩
  | dropLease =>
    refine .inl ?_
    cases settled with
    | «open» => exact ⟨rfl, ⟨rfl, rfl, rfl, rfl, rfl⟩, fun _ => rfl⟩
    | consumed => exact absurd rfl hlease
    | released => exact ⟨rfl, ⟨rfl, rfl, rfl, rfl, rfl⟩, fun _ => rfl⟩
  | releasePackets after => exact .inr ⟨hlease, after, .inl rfl⟩
  | releaseBytes after => exact .inr ⟨hlease, after, .inr rfl⟩

theorem start_keeps (hlease : lease.Consistent) (call : LeaseCall Session) :
    lease.Keeps (lease.start call) := by
  obtain ⟨leaseId, session, packetCount, byteCount, settled, phase⟩ := lease
  cases call with
  | newPacket session' =>
    unfold start
    dsimp only
    split_ifs with hbare
    · cases hbare
      exact ⟨hlease, rfl, rfl, rfl, rfl⟩
    · exact .refl hlease
  | settle =>
    unfold start
    dsimp only
    split_ifs with hpacket
    · cases hpacket
      exact ⟨hlease, rfl, rfl, rfl, rfl⟩
    · exact .refl hlease
  | drop =>
    unfold start
    dsimp only
    split_ifs with hbare hpacket
    · cases hbare
      cases (show settled = .open from hlease)
      exact ⟨by simp [Consistent], rfl, rfl, rfl, rfl⟩
    · cases hpacket
      exact ⟨hlease, rfl, rfl, rfl, rfl⟩
    · exact .refl hlease

end AdmissionLease

variable {Session : Type} {budget : AdmissionBudget} {state : AdmissionState Session}
  {log : List GiveBack}

/-- What the counters hold after a run in which `log` was given back. -/
structure Accounts (budget : AdmissionBudget) (state : AdmissionState Session)
    (log : List GiveBack) : Prop where
  budget_eq : state.gate.budget = budget
  packets_eq : state.gate.reservedPackets.toNat =
    (state.leases.map AdmissionLease.heldPackets).sum +
      (state.reservations.map Reservation.heldPackets).sum
  bytes_eq : state.gate.reservedBytes.toNat =
    (state.leases.map AdmissionLease.heldBytes).sum +
      (state.reservations.map Reservation.heldBytes).sum
  packets_le : state.gate.reservedPackets ≤ state.gate.budget.maxPackets
  bytes_le : state.gate.reservedBytes ≤ state.gate.budget.maxBytes
  consistent : ∀ lease ∈ state.leases, lease.Consistent
  returned : ∀ (index : ℕ) (lease : AdmissionLease Session), state.leases[index]? = some lease →
    log.count (.packets index) = lease.packetsReturned.toNat ∧
      log.count (.bytes index) = lease.bytesReturned.toNat
  unborn : ∀ index, state.leases.length ≤ index →
    log.count (.packets index) = 0 ∧ log.count (.bytes index) = 0

theorem accounts_new (budget : AdmissionBudget) (session : Session) :
    Accounts budget (AdmissionState.new budget session) [] where
  budget_eq := rfl
  packets_eq := rfl
  bytes_eq := rfl
  packets_le := UInt64.zero_le
  bytes_le := UInt64.zero_le
  consistent _ h := absurd h List.not_mem_nil
  returned index lease h := by cases h
  unborn _ _ := ⟨rfl, rfl⟩

/-- A lease enters the state as it is minted. -/
theorem Reservation.step_lease (gate : AdmissionGate Session) (spurious : Bool)
    (reservation : Reservation) (lease : AdmissionLease Session)
    (h : lease ∈ (reservation.step gate spurious).2.2) :
    lease.Consistent ∧ lease.packetsReturned = false ∧ lease.bytesReturned = false := by
  cases reservation with
  | loadBytes packetCount byteCount => cases h
  | loadPackets packetCount byteCount => cases h
  | rollBack byteCount => cases h
  | updateBytes packetCount byteCount current =>
    unfold step at h
    dsimp only at h
    split at h
    · cases h
    · split_ifs at h <;> cases h
  | updatePackets packetCount byteCount current =>
    unfold step at h
    dsimp only at h
    split at h
    · cases h
    · split_ifs at h <;> cases h
  | mint packetCount byteCount =>
    cases h
    exact ⟨rfl, rfl, rfl⟩

theorem Accounts.stepReservation [DecidableEq Session] (h : Accounts budget state log)
    (index : ℕ) (spurious : Bool) :
    Accounts budget (state.move (.stepReservation index spurious)).1 log := by
  unfold AdmissionState.move
  dsimp only
  split
  · exact h
  rename_i reservation hreservation
  have hheld := le_sum_map Reservation.heldBytes hreservation
  have hbytes : reservation.heldBytes ≤ state.gate.reservedBytes.toNat := by
    rw [h.bytes_eq]
    omega
  have htransfer := reservation.step_transfers spurious hbytes
  have hminted := Reservation.step_lease state.gate spurious reservation
  rcases hstep : reservation.step state.gate spurious with ⟨gate, next, minted⟩
  rw [hstep] at htransfer hminted
  have hpacketSum := sum_map_replace Reservation.heldPackets hreservation next.toList
  have hbyteSum := sum_map_replace Reservation.heldBytes hreservation next.toList
  have hpacketsEq := h.packets_eq
  have hbytesEq := h.bytes_eq
  refine ⟨htransfer.budget_eq.trans h.budget_eq, ?_, ?_, ?_, ?_, ?_, ?_, ?_⟩
  · have := htransfer.packets_eq
    rw [List.map_append, List.sum_append]
    dsimp only at *
    omega
  · have := htransfer.bytes_eq
    rw [List.map_append, List.sum_append]
    dsimp only at *
    omega
  · exact htransfer.budget_eq ▸ htransfer.packets_le h.packets_le
  · exact htransfer.budget_eq ▸ htransfer.bytes_le h.bytes_le
  · intro lease hmem
    rcases List.mem_append.mp hmem with hold | hnew
    · exact h.consistent lease hold
    · exact (hminted lease (Option.mem_toList.mp hnew)).1
  · intro other lease hother
    rw [List.getElem?_append] at hother
    split_ifs at hother with hlt
    · exact h.returned other lease hother
    · -- the lease that was minted now has given nothing back
      obtain ⟨-, hpackets, hbytes⟩ :=
        hminted lease (Option.mem_toList.mp (List.mem_of_getElem? hother))
      rw [hpackets, hbytes]
      exact h.unborn other (not_lt.mp hlt)
  · intro other hother
    refine h.unborn other (le_trans ?_ hother)
    simp

/-- A lease is replaced by one that consumes the same capacity, less what is given back. -/
theorem Accounts.setLease (h : Accounts budget state log) {index : ℕ}
    {lease lease' : AdmissionLease Session} (hlease : state.leases[index]? = some lease)
    {gate : AdmissionGate Session} {gives : List GiveBack}
    (htransfer : Transfers state.gate gate lease.heldPackets lease.heldBytes lease'.heldPackets
      lease'.heldBytes) (hcons : lease'.Consistent)
    (hpackets : lease'.packetsReturned.toNat =
      lease.packetsReturned.toNat + gives.count (.packets index))
    (hbytes : lease'.bytesReturned.toNat = lease.bytesReturned.toNat + gives.count (.bytes index))
    (hgives : ∀ other ≠ index, gives.count (.packets other) = 0 ∧ gives.count (.bytes other) = 0) :
    Accounts budget { state with gate := gate, leases := state.leases.set index lease' }
      (log ++ gives) := by
  have hpacketSum := sum_map_set AdmissionLease.heldPackets hlease lease'
  have hbyteSum := sum_map_set AdmissionLease.heldBytes hlease lease'
  have hpacketsEq := h.packets_eq
  have hbytesEq := h.bytes_eq
  have hlt := (List.getElem?_eq_some_iff.mp hlease).1
  refine ⟨htransfer.budget_eq.trans h.budget_eq, ?_, ?_, ?_, ?_, ?_, ?_, ?_⟩
  · have := htransfer.packets_eq
    dsimp only
    omega
  · have := htransfer.bytes_eq
    dsimp only
    omega
  · exact htransfer.budget_eq ▸ htransfer.packets_le h.packets_le
  · exact htransfer.budget_eq ▸ htransfer.bytes_le h.bytes_le
  · intro other hmem
    rcases List.mem_or_eq_of_mem_set hmem with hold | rfl
    · exact h.consistent other hold
    · exact hcons
  · intro other found hfound
    rw [List.count_append, List.count_append]
    by_cases hother : other = index
    · subst hother
      obtain ⟨hlog, hlog'⟩ := h.returned other lease hlease
      rw [List.getElem?_set_self hlt] at hfound
      cases hfound
      exact ⟨by rw [hlog, hpackets], by rw [hlog', hbytes]⟩
    · rw [List.getElem?_set_ne (Ne.symm hother)] at hfound
      obtain ⟨hlog, hlog'⟩ := h.returned other found hfound
      obtain ⟨hgive, hgive'⟩ := hgives other hother
      exact ⟨by rw [hlog, hgive, add_zero], by rw [hlog', hgive', add_zero]⟩
  · intro other hother
    rw [List.length_set] at hother
    obtain ⟨hlog, hlog'⟩ := h.unborn other hother
    obtain ⟨hgive, hgive'⟩ := hgives other (by omega)
    rw [List.count_append, List.count_append, hlog, hlog', hgive, hgive']
    exact ⟨rfl, rfl⟩

theorem Accounts.keepLease (h : Accounts budget state log) {index : ℕ}
    {lease lease' : AdmissionLease Session} (hlease : state.leases[index]? = some lease)
    (hkeeps : lease.Keeps lease') :
    Accounts budget { state with leases := state.leases.set index lease' } log := by
  have htransfer : Transfers state.gate state.gate lease.heldPackets lease.heldBytes
      lease'.heldPackets lease'.heldBytes := by
    rw [hkeeps.heldPackets_eq, hkeeps.heldBytes_eq]
    exact .refl _ _ _
  rw [← append_nil log]
  exact h.setLease hlease htransfer hkeeps.consistent (by simp [hkeeps.packetsReturned_eq])
    (by simp [hkeeps.bytesReturned_eq]) (by simp)

theorem LeasePhase.count_givesBack (phase : LeasePhase Session) (index : ℕ) :
    ∀ other ≠ index, (phase.givesBack index).count (.packets other) = 0 ∧
      (phase.givesBack index).count (.bytes other) = 0 := by
  intro other hother
  cases phase <;> simp [givesBack, Ne.symm hother]

variable [DecidableEq Session]

theorem Accounts.move (h : Accounts budget state log) (move : Move Session) :
    Accounts budget (state.move move).1 (log ++ (state.move move).2) := by
  cases move with
  | tryReserve packetCount byteCount =>
    rw [show (state.move (.tryReserve packetCount byteCount)).2 = [] from rfl, append_nil]
    have hstart := Reservation.start_held packetCount byteCount
    refine ⟨h.budget_eq, ?_, ?_, h.packets_le, h.bytes_le, h.consistent, h.returned, h.unborn⟩
    · simpa [AdmissionState.move, hstart.1] using h.packets_eq
    · simpa [AdmissionState.move, hstart.2] using h.bytes_eq
  | stepReservation index spurious =>
    have hnothing : (state.move (.stepReservation index spurious)).2 = [] := by
      unfold AdmissionState.move
      dsimp only
      split <;> rfl
    rw [hnothing, append_nil]
    exact h.stepReservation index spurious
  | callLease index call =>
    unfold AdmissionState.move
    dsimp only
    split
    · rwa [append_nil]
    · rename_i lease hlease
      have hkeeps := AdmissionLease.start_keeps (h.consistent lease (List.mem_of_getElem? hlease))
        call
      rw [append_nil]
      exact h.keepLease hlease hkeeps
  | stepLease index =>
    unfold AdmissionState.move
    dsimp only
    split
    · rwa [append_nil]
    · rename_i lease hlease
      have hpackets := le_sum_map AdmissionLease.heldPackets hlease
      have hbytes := le_sum_map AdmissionLease.heldBytes hlease
      have hpacketsEq := h.packets_eq
      have hbytesEq := h.bytes_eq
      obtain ⟨hgate, hkeeps, hnothing⟩ | ⟨hreleased, after, hphase⟩ :=
        lease.step_cases state.gate (h.consistent lease (List.mem_of_getElem? hlease))
      · rw [hgate, hnothing, append_nil]
        exact h.keepLease hlease hkeeps
      have hgives := lease.phase.count_givesBack index
      obtain ⟨leaseId, session, packetCount, byteCount, settled, phase⟩ := lease
      cases hreleased
      obtain rfl | rfl := hphase
      · exact h.setLease hlease (.givePackets state.gate byteCount.toNat (hpackets.trans
          (by omega))) rfl (congrArg (0 + ·) List.count_singleton_self.symm) rfl hgives
      · cases after <;>
          exact h.setLease hlease (.giveBytes state.gate 0 (hbytes.trans (by omega)))
            (by simp [AdmissionLease.step, AdmissionLease.Consistent, After.phase]) rfl
            (congrArg (0 + ·) List.count_singleton_self.symm) hgives

theorem Accounts.run (h : Accounts budget state log) (moves : List (Move Session)) :
    Accounts budget (state.run moves).1 (log ++ (state.run moves).2) := by
  induction moves generalizing state log with
  | nil => simpa [AdmissionState.run] using h
  | cons move moves ih =>
    have hrest := ih (h.move move)
    rwa [List.append_assoc] at hrest

variable {Session : Type}

/-- A lease whose capacity is not on its way back. -/
def AdmissionLease.unsettled (lease : AdmissionLease Session) : Bool :=
  decide (lease.settled ≠ .released)

/-- No call on the lease is in progress. -/
def LeasePhase.idle : LeasePhase Session → Bool
  | .bare | .packet | .gone => true
  | _ => false

def AdmissionState.unsettledPackets (state : AdmissionState Session) : ℕ :=
  ((state.leases.filter AdmissionLease.unsettled).map fun lease => lease.packetCount.toNat).sum

def AdmissionState.unsettledBytes (state : AdmissionState Session) : ℕ :=
  ((state.leases.filter AdmissionLease.unsettled).map fun lease => lease.byteCount.toNat).sum

theorem owes_of_idle {phase : LeasePhase Session} (h : phase.idle = true) :
    phase.owesPackets = false ∧ phase.owesBytes = false := by
  cases phase <;> first | exact ⟨rfl, rfl⟩ | cases h

variable {lease : AdmissionLease Session}

theorem AdmissionLease.held_of_unsettled (h : lease.unsettled = true) :
    lease.heldPackets = lease.packetCount.toNat ∧ lease.heldBytes = lease.byteCount.toNat ∧
      lease.packetsReturned = false ∧ lease.bytesReturned = false := by
  have hne : lease.settled ≠ .released := by simpa [unsettled] using h
  simp [heldPackets, heldBytes, packetsReturned,
    bytesReturned, hne]

theorem AdmissionLease.returned_of_idle (hidle : lease.phase.idle = true)
    (h : lease.unsettled = false) :
    lease.packetsReturned = true ∧ lease.bytesReturned = true := by
  have hreleased : lease.settled = .released := by simpa [unsettled] using h
  obtain ⟨hpackets, hbytes⟩ := owes_of_idle hidle
  simp [packetsReturned, bytesReturned, hreleased, hpackets, hbytes]

theorem AdmissionLease.held_of_idle (hidle : lease.phase.idle = true) :
    (lease.heldPackets = if lease.unsettled then lease.packetCount.toNat else 0) ∧
      lease.heldBytes = if lease.unsettled then lease.byteCount.toNat else 0 := by
  cases h : lease.unsettled with
  | true =>
    obtain ⟨hpackets, hbytes, -⟩ := held_of_unsettled h
    exact ⟨hpackets, hbytes⟩
  | false =>
    obtain ⟨hpackets, hbytes⟩ := returned_of_idle hidle h
    simp [heldPackets, heldBytes, hpackets, hbytes]

/-- In every interleaving of the threads' operations the counters stay within the budget and cover
the unsettled leases, a lease gives its packets and its bytes back once, and between calls the
counters are what the unsettled leases hold. -/
theorem admission_conserves_capacity {Session : Type} [DecidableEq Session]
    (budget : AdmissionBudget) (session : Session) (moves : List (Move Session))
    {state : AdmissionState Session} {log : List GiveBack}
    (h : (AdmissionState.new budget session).run moves = (state, log)) :
    state.gate.reservedPackets ≤ budget.maxPackets ∧ state.gate.reservedBytes ≤ budget.maxBytes ∧
      state.unsettledPackets ≤ state.gate.reservedPackets.toNat ∧
      state.unsettledBytes ≤ state.gate.reservedBytes.toNat ∧
      (∀ (index : ℕ) (lease : AdmissionLease Session), state.leases[index]? = some lease →
        log.count (.packets index) ≤ 1 ∧ log.count (.bytes index) ≤ 1 ∧
          (lease.unsettled = true →
            log.count (.packets index) = 0 ∧ log.count (.bytes index) = 0) ∧
          (lease.unsettled = false → lease.phase.idle = true →
            log.count (.packets index) = 1 ∧ log.count (.bytes index) = 1) ∧
          (lease.phase = .gone → lease.unsettled = false)) ∧
      (state.reservations = [] → (∀ lease ∈ state.leases, lease.phase.idle = true) →
        state.gate.reservedPackets.toNat = state.unsettledPackets ∧
          state.gate.reservedBytes.toNat = state.unsettledBytes) := by
  have haccounts := (accounts_new budget session).run moves
  rw [h, List.nil_append] at haccounts
  refine ⟨haccounts.budget_eq ▸ haccounts.packets_le, haccounts.budget_eq ▸ haccounts.bytes_le,
    ?_, ?_, ?_, ?_⟩
  · rw [haccounts.packets_eq]
    refine le_trans ?_ (Nat.le_add_right _ _)
    exact sum_map_filter_le _ _ _ _ fun lease _ hunsettled =>
      (AdmissionLease.held_of_unsettled hunsettled).1.ge
  · rw [haccounts.bytes_eq]
    refine le_trans ?_ (Nat.le_add_right _ _)
    exact sum_map_filter_le _ _ _ _ fun lease _ hunsettled =>
      (AdmissionLease.held_of_unsettled hunsettled).2.1.ge
  · intro index lease hlease
    obtain ⟨hpackets, hbytes⟩ := haccounts.returned index lease hlease
    rw [hpackets, hbytes]
    refine ⟨Bool.toNat_le _, Bool.toNat_le _, fun hunsettled => ?_, fun hsettled hidle => ?_,
      fun hgone => ?_⟩
    · obtain ⟨-, -, hnot, hnot'⟩ := AdmissionLease.held_of_unsettled hunsettled
      rw [hnot, hnot']
      exact ⟨rfl, rfl⟩
    · obtain ⟨hreturned, hreturned'⟩ := AdmissionLease.returned_of_idle hidle hsettled
      rw [hreturned, hreturned']
      exact ⟨rfl, rfl⟩
    · have hcons := haccounts.consistent lease (List.mem_of_getElem? hlease)
      rw [AdmissionLease.Consistent, hgone] at hcons
      simp [AdmissionLease.unsettled, show lease.settled = .released from hcons]
  · intro hnone hidle
    rw [haccounts.packets_eq, haccounts.bytes_eq, hnone]
    have hheld := fun lease hmem => AdmissionLease.held_of_idle (hidle lease hmem)
    exact ⟨sum_map_filter_eq _ _ _ _ fun lease hmem => (hheld lease hmem).1,
      sum_map_filter_eq _ _ _ _ fun lease hmem => (hheld lease hmem).2⟩

/-- Two threads reserve in turns, one of them in vain, and the lease of the other is settled. -/
def sampleMoves : List (Move Unit) :=
  [.tryReserve 1 4, .tryReserve 1 4, .stepReservation 0 false, .stepReservation 0 false,
    .stepReservation 1 false, .stepReservation 1 false, .stepReservation 0 false,
    .stepReservation 0 true, .stepReservation 0 false, .stepReservation 0 false,
    .callLease 0 (.newPacket ()), .stepLease 0, .callLease 0 .drop, .stepLease 0, .stepLease 0,
    .stepLease 0, .stepLease 0]

theorem admission_conserves_capacity_sampleMoves :
    ((AdmissionState.new ⟨1, 6⟩ ()).run sampleMoves).1.gate.reservedBytes.toNat = 0 ∧
      ((AdmissionState.new ⟨1, 6⟩ ()).run sampleMoves).2 = [.packets 0, .bytes 0] :=
  ⟨((admission_conserves_capacity ⟨1, 6⟩ () sampleMoves rfl).2.2.2.2.2 rfl (by decide)).2,
    by decide⟩

end Quaxar.Acquisition
