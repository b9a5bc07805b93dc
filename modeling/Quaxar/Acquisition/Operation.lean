import Quaxar.SHAMap.NodeId

/-!
# Operations of the acquisition coordinator

Everything the coordinator dispatches carries the identity of its session and of the operation
itself, and a completion is accepted only if it names exactly that operation. Times, counts and
identities are `u64` values, written as natural numbers.
-/

namespace Quaxar.Acquisition

open SHAMap

abbrev Blob := List UInt8

abbrev PeerId := ℕ

structure IdCounter where
  next : ℕ

/-- Zero is never assigned. -/
def IdCounter.nextId (ids : IdCounter) : ℕ × IdCounter :=
  (ids.next, ⟨max ((ids.next + 1) % 2 ^ 64) 1⟩)

structure SessionRef where
  runEpoch : ℕ
  sessionId : ℕ
  targetHash : Uint256
  planEpoch : ℕ
  storeGeneration : ℕ
deriving DecidableEq

inductive OperationKind where
  | treeTurn
  | cpuTurn
  | read
  | headerRead
  | recoveryRead
  | write
  | durabilityFence
  | peerRequest
  | timer
  | admissionLease
  | durableHandoff
deriving DecidableEq

/-- `is_expected_for` compares all fields, so it is equality. -/
structure OperationRef where
  session : SessionRef
  kind : OperationKind
  operationId : ℕ
  generation : ℕ
deriving DecidableEq

def OperationRef.mint (session : SessionRef) (kind : OperationKind) (ids : IdCounter) :
    OperationRef × IdCounter :=
  let (operationId, ids) := ids.nextId
  let (generation, ids) := ids.nextId
  (⟨session, kind, operationId, generation⟩, ids)

inductive ReadPriority where
  | consensus
  | history
deriving DecidableEq

structure ReadRequest where
  operation : OperationRef
  key : Uint256
  ledgerSequence : ℕ
  storeGeneration : ℕ
  priority : ReadPriority
deriving DecidableEq

/-- The node that is decoded along with the bytes is left out: it is derived from them. -/
inductive ReadOutcome where
  | settled (node : Option Blob)
  | stale
  | cancelled
deriving DecidableEq

structure ReadCompletion where
  operation : OperationRef
  outcome : ReadOutcome
deriving DecidableEq

inductive StoredObjectKind where
  | ledger
  | accountNode
  | transactionNode
  | unknown
deriving DecidableEq

structure PersistNode where
  key : Uint256
  data : Blob
  objectKind : StoredObjectKind
deriving DecidableEq

/-- Only the final batch of a session has a fence. -/
structure WriteBatch where
  operation : OperationRef
  fence : Option OperationRef
  storeGeneration : ℕ
  ledgerSequence : ℕ
  nodes : List PersistNode
deriving DecidableEq

inductive WriteOutcome where
  | accepted
  | failed
  | stale
  | cancelled
deriving DecidableEq

inductive DurabilityOutcome where
  | passed
  | failed
  | stale
deriving DecidableEq

inductive FailureReason where
  | invalidTreePlan
  | invalidPacketData
  | readFailure
  | writeFailure
  | durabilityFenceFailed
  | noUsablePeers
  | acquisitionTimeout
  | nodeStoreFull
deriving DecidableEq

inductive CancelReason where
  | replaced
  | storeRotated
  | shutdown
  | lclInstalled
  | superseded
  | explicit
  | idleExpired
deriving DecidableEq

inductive TreeKind where
  | state
  | transaction
deriving DecidableEq

deriving instance DecidableEq for SHAMapNodeId

structure PlanReadNeed where
  hash : Uint256
  ledgerSeq : ℕ
  nodeId : SHAMapNodeId
  branch : ℕ
deriving DecidableEq

/-- The tree kind is part of the identity of a need. -/
structure PlanNetworkNeed where
  nodeId : SHAMapNodeId
  hash : Uint256
  kind : TreeKind
deriving DecidableEq

inductive PlanStepOutcome where
  | ready
  | yielded
  | needsReads (needs : List PlanReadNeed)
  | needsNetwork (nodes : List PlanNetworkNeed)
  | complete
  | invalid

inductive PlanReadApply where
  | applied (attachedEdges missingEdges : ℕ)
  | requeued
  | cancelled
  | stalePlan
  | hashMismatch
  | unknownRead
deriving DecidableEq

def PlanReadApply.isApplied : PlanReadApply → Bool
  | .applied _ _ => true
  | _ => false

/-- At least one edge was attached. -/
def PlanReadApply.makesProgress : PlanReadApply → Bool
  | .applied attachedEdges _ => decide (1 ≤ attachedEdges)
  | _ => false

structure PlanNetworkApply where
  attachment : PlanReadApply
  useful : Bool
  invalid : Bool

inductive InboundLedgerDataType where
  | base
  | transactionNode
  | stateNode
deriving DecidableEq

structure InboundLedgerNodeData where
  nodeId : Option Blob
  nodeData : Blob
deriving DecidableEq

structure InboundLedgerPacket where
  packetType : InboundLedgerDataType
  nodes : List InboundLedgerNodeData
deriving DecidableEq

/-- A packet and what its lease has reserved. -/
structure AdmittedLedgerPacket where
  peerId : PeerId
  packet : InboundLedgerPacket
  packetCount : ℕ
  byteCount : ℕ
deriving DecidableEq

/-- How nodes and their identifiers are read off the wire: the hash of a node, and the identifier
that comes with it. -/
structure WireCodec where
  nodeHash : Blob → Option Uint256
  nodeId : Blob → Option SHAMapNodeId

/-- The engine that owns a session's trees. Any implementation may be plugged in; `L` is the
ledger it makes. -/
class TreeEngine (E : Type) (L : outParam Type) where
  advance : ℕ → E → PlanStepOutcome × E
  applyRead : Uint256 → ReadOutcome → E → PlanReadApply × E
  applyRecoveryRead : PlanNetworkNeed → ReadOutcome → E → PlanReadApply × E
  applyNetworkNode : TreeKind → InboundLedgerNodeData → E → PlanNetworkApply × E
  beginReplyScan : E → E
  retainNetworkNeeds : List PlanNetworkNeed → E → E
  rearmPendingReads : E → E
  hasRunnableFrontier : E → Bool
  branchSteps : E → ℕ
  ledgerSequence : E → Option ℕ
  takePersistableNodes : E → List PersistNode × E
  onPersistenceAccepted : E → E
  persistenceSequence : E → Option ℕ
  durableLedger : E → Option L × E

end Quaxar.Acquisition
