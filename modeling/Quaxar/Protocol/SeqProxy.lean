import Quaxar.Lib.OrderedMap

/-!
# Sequence proxies

A transaction names a sequence number of its account or a ticket. All sequence numbers come
before all tickets.
-/

namespace Quaxar.Protocol

inductive SeqProxyKind
  | sequence
  | ticket
deriving DecidableEq, Repr

structure SeqProxy where
  kind : SeqProxyKind
  value : ℕ
deriving DecidableEq, Repr

namespace SeqProxy

def sequence (value : ℕ) : SeqProxy := ⟨.sequence, value⟩

def isSeq (proxy : SeqProxy) : Bool := decide (proxy.kind = .sequence)

def isTicket (proxy : SeqProxy) : Bool := decide (proxy.kind = .ticket)

/-- The number of a kind, by which kinds compare. -/
def kindCode (proxy : SeqProxy) : ℕ :=
  match proxy.kind with
  | .sequence => 0
  | .ticket => 1

instance : LinearOrder SeqProxy :=
  OrderedMap.orderAlong (fun proxy => toLex (proxy.kindCode, proxy.value)) (by
    rintro ⟨kind, value⟩ ⟨kind', value'⟩ h
    cases kind <;> cases kind' <;> simp_all [kindCode])

instance instTransCmp : Std.TransCmp (compare : SeqProxy → SeqProxy → Ordering) :=
  inferInstance

instance instLawfulBEq : LawfulBEq SeqProxy :=
  inferInstance

theorem isTicket_eq_not (proxy : SeqProxy) : proxy.isTicket = !proxy.isSeq := by
  obtain ⟨kind, value⟩ := proxy
  cases kind <;> rfl

end SeqProxy

end Quaxar.Protocol
