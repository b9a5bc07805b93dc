import Quaxar.Acquisition.AdmissionGate
import Quaxar.Acquisition.Operation

/-!
# The plan of an acquisition session

A plan owns the mailbox, the tree engine, the reads and the network needs of one session. A turn
drains the read backlog, feeds packets to the engine and advances it. What the engine announces as
missing goes to the network backlog, from there to the bounded retained frontier, and from there
into requests. The plan keeps a history of what happens to its needs, which the source does not
have.
-/

namespace Quaxar.Acquisition

open Std (ExtTreeMap)

def maxNewReadsPerPass : ℕ := 512

def maxTurnsPerEvent : ℕ := 4

def maxPacketsFedPerTurn : ℕ := 4

def maxPendingReads : ℕ := 512

def maxRetainedNetworkFrontier : ℕ := 6 * 128

def maxTimeoutReprobes : ℕ := 12

def defaultMaxAcquireTimeouts : ℕ := 6

def inboundLedgerMaxUsefulPeers : ℕ := 6

structure SessionMailbox where
  packets : List AdmittedLedgerPacket
  packetCount : ℕ
  packetBytes : ℕ
  maxPackets : ℕ
  maxBytes : ℕ

namespace SessionMailbox

def new (maxPackets maxBytes : ℕ) : SessionMailbox := ⟨[], 0, 0, maxPackets, maxBytes⟩

variable (mailbox : SessionMailbox)

def push (packet : AdmittedLedgerPacket) : Bool × SessionMailbox :=
  if mailbox.packetCount + packet.packetCount > mailbox.maxPackets ∨
      mailbox.packetBytes + packet.byteCount > mailbox.maxBytes then (false, mailbox)
  else
    (true, { mailbox with
      packets := mailbox.packets ++ [packet]
      packetCount := mailbox.packetCount + packet.packetCount
      packetBytes := mailbox.packetBytes + packet.byteCount })

def popFront : Option (AdmittedLedgerPacket × SessionMailbox) :=
  match mailbox.packets with
  | [] => none
  | packet :: packets =>
    some (packet, { mailbox with
      packets
      packetCount := mailbox.packetCount - packet.packetCount
      packetBytes := mailbox.packetBytes - packet.byteCount })

def isEmpty : Bool := mailbox.packets.isEmpty

def clear : SessionMailbox :=
  { mailbox with packets := [], packetCount := 0, packetBytes := 0 }

end SessionMailbox

inductive SessionPersistence where
  | none
  | incrementalWritePending (operation : OperationRef)
  | finalWritePending (operation fence : OperationRef)
  | fencePending (operation : OperationRef)
  | durable
  | failed (reason : FailureReason)
deriving DecidableEq

inductive NetworkLane where
  | reply (peer : PeerId)
  | added (peer : PeerId)
  | timeout (peers : List PeerId)
deriving DecidableEq

/-- What happens to network needs: the engine is advanced with this backlog, it announces a need
when these hashes were recent, a node is attached at exactly a need, a lane of requests ends, a
reply starts a new epoch, or the plan is cancelled. -/
inductive FrontierEvent where
  | advanced (backlog : List PlanNetworkNeed)
  | announced (need : PlanNetworkNeed) (recent : Finset Uint256)
  | attached (need : PlanNetworkNeed)
  | laneFinished
  | replyEpoch
  | cancelled

/-- `history` has the newest event first. -/
structure SessionPlan (E : Type) where
  engine : Option E
  mailbox : SessionMailbox
  pendingReads : ExtTreeMap Uint256 OperationRef
  pendingRecoveryReads : List (OperationRef × PlanNetworkNeed)
  readBacklog : List PlanReadNeed
  networkBacklog : List PlanNetworkNeed
  pendingNetwork : Finset Uint256
  retainedNetwork : List PlanNetworkNeed
  unemittedNetwork : List PlanNetworkNeed
  retainedNetworkCursor : ℕ
  usefulPeerScores : ExtTreeMap PeerId ℤ
  networkLanes : List NetworkLane
  recentNodes : Finset Uint256
  persistence : SessionPersistence
  timeouts : ℕ
  progressSinceTimeout : Bool
  maxTimeouts : ℕ
  pendingReadsCap : ℕ
  cancelled : Bool
  runs : ℕ
  history : List FrontierEvent

inductive PlanTurn where
  | «continue»
  | yielded
  | reads (requests : List ReadRequest)
  | network (nodes : List PlanNetworkNeed)
  | persist (batch : WriteBatch)
  | invalid

/-- The identity counter is passed beside it. -/
structure TurnContext where
  session : SessionRef
  storeGeneration : ℕ
  priority : ReadPriority

inductive PlanReadOutcome where
  | applied
  | stale
deriving DecidableEq

inductive PlanWriteOutcome where
  | incrementalAccepted
  | finalAccepted
  | failed (reason : FailureReason)
  | cancelled (reason : CancelReason)
  | stale
deriving DecidableEq

inductive PlanDurabilityOutcome where
  | durable
  | failed (reason : FailureReason)
  | stale
deriving DecidableEq

inductive PlanTimeout where
  | «continue»
  | fail
deriving DecidableEq

structure PacketFeed where
  attached : Bool
  useful : Bool
  usefulPeerCounts : ExtTreeMap PeerId ℤ
  resolvedNetwork : List PlanNetworkNeed

def PacketFeed.default : PacketFeed := ⟨false, false, ∅, []⟩

/-- The best count of a peer. -/
def creditPeer (scores : ExtTreeMap PeerId ℤ) (peer : PeerId) (count : ℤ) : ExtTreeMap PeerId ℤ :=
  scores.insert peer (match scores[peer]? with
    | some current => max current count
    | none => count)

def creditPeers (scores counts : ExtTreeMap PeerId ℤ) : ExtTreeMap PeerId ℤ :=
  counts.toList.foldl (fun scores item => creditPeer scores item.1 item.2) scores

def PacketFeed.merge (fed other : PacketFeed) : PacketFeed where
  attached := fed.attached || other.attached
  useful := fed.useful || other.useful
  usefulPeerCounts := creditPeers fed.usefulPeerCounts other.usefulPeerCounts
  resolvedNetwork := fed.resolvedNetwork ++ other.resolvedNetwork

/-- One more useful node of a peer. -/
def countPeer (counts : ExtTreeMap PeerId ℤ) (peer : PeerId) : ExtTreeMap PeerId ℤ :=
  counts.insert peer (match counts[peer]? with
    | some count => min (count + 1) (2 ^ 31 - 1)
    | none => 1)

variable {E L : Type} [TreeEngine E L] (codec : WireCodec)

/-- The need that an attached node answers, if it came with an identifier. -/
def resolvedNeed (kind : TreeKind) (hash : Uint256) (node : InboundLedgerNodeData)
    (applied : PlanNetworkApply) : List PlanNetworkNeed :=
  match applied.attachment.isApplied, node.nodeId.bind codec.nodeId with
  | true, some nodeId => [⟨nodeId, hash, kind⟩]
  | _, _ => []

/-- The loop over the nodes of a packet, which ends at a malformed or an invalid one. -/
def feedNodes (peer : PeerId) (kind : TreeKind) :
    List InboundLedgerNodeData → PacketFeed → E → PacketFeed × E
  | [], fed, engine => (fed, engine)
  | node :: nodes, fed, engine =>
    match codec.nodeHash node.nodeData with
    | none => (fed, engine)
    | some hash =>
      if hash = BaseUInt.zero then (fed, engine)
      else
        let (applied, engine) := TreeEngine.applyNetworkNode kind node engine
        if applied.invalid then (fed, engine)
        else
          feedNodes peer kind nodes
            { attached := fed.attached || applied.attachment.isApplied
              useful := fed.useful || applied.useful
              usefulPeerCounts :=
                if applied.useful then countPeer fed.usefulPeerCounts peer else fed.usefulPeerCounts
              resolvedNetwork := fed.resolvedNetwork ++ resolvedNeed codec kind hash node applied }
            engine

def feedPacket (packet : AdmittedLedgerPacket) (engine : E) : PacketFeed × E :=
  match packet.packet.packetType with
  | .stateNode => feedNodes codec packet.peerId .state packet.packet.nodes .default engine
  | .transactionNode =>
    feedNodes codec packet.peerId .transaction packet.packet.nodes .default engine
  | .base => (.default, engine)

/-- `swap_remove`: the last element takes the place of the one that is removed. -/
def swapRemove (remaining : List PeerId) (index : ℕ) : List PeerId :=
  match remaining.getLast? with
  | none => []
  | some last => if index + 1 < remaining.length then remaining.dropLast.set index last
    else remaining.dropLast

/-- `picks` are the random choices, one for each peer that is sampled. -/
def samplePeerIdsWith : List ℕ → List PeerId → List PeerId
  | [], _ => []
  | pick :: picks, remaining =>
    match remaining[pick % remaining.length]? with
    | none => []
    | some peer => peer :: samplePeerIdsWith picks (swapRemove remaining (pick % remaining.length))

/-- The peers with at least half of the best score, or a sample of them. -/
def selectInboundLedgerReplyPeers (picks : ℕ → ℕ) (scores : List (PeerId × ℤ)) : List PeerId :=
  let maxUsefulCount := (scores.map Prod.snd).max?.getD 0
  let pruned := (scores.filter fun score => Int.tdiv maxUsefulCount 2 ≤ score.2).map Prod.fst
  if pruned.length ≤ inboundLedgerMaxUsefulPeers then pruned
  else samplePeerIdsWith ((List.range inboundLedgerMaxUsefulPeers).map picks) pruned

namespace SessionPlan

variable {E L : Type}

def new (admission : AdmissionBudget) : SessionPlan E where
  engine := none
  mailbox := .new admission.maxPackets.toNat admission.maxBytes.toNat
  pendingReads := ∅
  pendingRecoveryReads := []
  readBacklog := []
  networkBacklog := []
  pendingNetwork := ∅
  retainedNetwork := []
  unemittedNetwork := []
  retainedNetworkCursor := 0
  usefulPeerScores := ∅
  networkLanes := []
  recentNodes := ∅
  persistence := .none
  timeouts := 0
  progressSinceTimeout := false
  maxTimeouts := defaultMaxAcquireTimeouts
  pendingReadsCap := maxPendingReads
  cancelled := false
  runs := 0
  history := []

/-- `with_max_timeouts` and `with_pending_reads_cap`. -/
def withLimits (admission : AdmissionBudget) (maxTimeouts pendingReadsCap : ℕ) : SessionPlan E :=
  { new admission with maxTimeouts, pendingReadsCap }

variable (plan : SessionPlan E)

def log (events : List FrontierEvent) : SessionPlan E :=
  { plan with history := events ++ plan.history }

def normalizeRetainedNetworkCursor : SessionPlan E :=
  { plan with
    retainedNetworkCursor :=
      if plan.retainedNetwork.isEmpty then 0
      else plan.retainedNetworkCursor % plan.retainedNetwork.length }

def refreshPendingNetwork : SessionPlan E :=
  { plan with
    pendingNetwork :=
      (plan.retainedNetwork.map PlanNetworkNeed.hash ++
        plan.networkBacklog.map PlanNetworkNeed.hash).toFinset }

/-- One node of the loop in `enqueue_network_frontier`. -/
def enqueueNode (node : PlanNetworkNeed) : SessionPlan E :=
  if node.hash ∈ plan.recentNodes then plan
  else if plan.retainedNetwork.contains node || plan.networkBacklog.contains node then plan
  else { plan with networkBacklog := plan.networkBacklog ++ [node] }

/-- `enqueue_network_frontier`, and `defer_network_after_incremental_write`, which does the
same. -/
def enqueueNetworkFrontier (nodes : List PlanNetworkNeed) : SessionPlan E :=
  (nodes.foldl enqueueNode plan).refreshPendingNetwork

def dispatchNetworkBacklog : List PlanNetworkNeed × SessionPlan E :=
  let capacity := maxRetainedNetworkFrontier - plan.retainedNetwork.length
  let dispatched := plan.networkBacklog.take capacity
  (dispatched,
    { plan with
      networkBacklog := plan.networkBacklog.drop capacity
      retainedNetwork := plan.retainedNetwork ++ dispatched
      unemittedNetwork := plan.unemittedNetwork ++ dispatched
      }.normalizeRetainedNetworkCursor.refreshPendingNetwork)

def retireNetworkResolutions (resolutions : List PlanNetworkNeed) : SessionPlan E :=
  { plan with
    retainedNetwork := plan.retainedNetwork.filter fun need => !resolutions.contains need
    unemittedNetwork := plan.unemittedNetwork.filter fun need => !resolutions.contains need
    networkBacklog := plan.networkBacklog.filter fun need => !resolutions.contains need
    }.normalizeRetainedNetworkCursor.refreshPendingNetwork

def retireNetworkNeed (resolved : PlanNetworkNeed) : SessionPlan E :=
  plan.retireNetworkResolutions [resolved]

def resetNetworkEpoch : SessionPlan E :=
  { plan with
    networkBacklog := []
    pendingNetwork := ∅
    retainedNetwork := []
    unemittedNetwork := []
    retainedNetworkCursor := 0 }.log [.replyEpoch]

/-- A batch of one tree kind, first in first out. -/
def takeNextNormalNetworkBatch (maxNodes : ℕ) : List PlanNetworkNeed × SessionPlan E :=
  if plan.cancelled || maxNodes = 0 then ([], plan)
  else
    match plan.unemittedNetwork with
    | [] => ([], plan)
    | first :: rest =>
      let batch := first ::
        (rest.takeWhile fun need => need.kind = first.kind).take (maxNodes - 1)
      (batch, { plan with
        unemittedNetwork := plan.unemittedNetwork.drop batch.length
        recentNodes := plan.recentNodes ∪ (batch.map PlanNetworkNeed.hash).toFinset })

def nextTimeoutRecoveryBatch : List PlanNetworkNeed × SessionPlan E :=
  let len := plan.retainedNetwork.length
  if plan.cancelled || len = 0 then ([], plan)
  else
    let start := plan.retainedNetworkCursor % len
    let count := min len maxTimeoutReprobes
    ((List.range count).filterMap fun offset => plan.retainedNetwork[(start + offset) % len]?,
      { plan with retainedNetworkCursor := (start + count) % len })

variable (plan : SessionPlan E) (ctx : TurnContext)

def pendingReadCount : ℕ := plan.pendingReads.size + plan.pendingRecoveryReads.length

/-- Dispatch a read, with an identity of its own. -/
def dispatchRead (need : PlanReadNeed) (ids : IdCounter) :
    ReadRequest × SessionPlan E × IdCounter :=
  let (operation, ids) := OperationRef.mint ctx.session .read ids
  (⟨operation, need.hash, need.ledgerSeq, ctx.storeGeneration, ctx.priority⟩,
    { plan with pendingReads := plan.pendingReads.insert need.hash operation }, ids)

/-- The loop over the backlog, up to the cap. -/
def drainReadBacklog : List PlanReadNeed → SessionPlan E → IdCounter →
    List ReadRequest × SessionPlan E × IdCounter
  | [], plan, ids => ([], { plan with readBacklog := [] }, ids)
  | need :: needs, plan, ids =>
    if plan.pendingReads.size ≥ plan.pendingReadsCap then
      ([], { plan with readBacklog := need :: needs }, ids)
    else
      let (request, plan, ids) := plan.dispatchRead ctx need ids
      let (requests, plan, ids) := drainReadBacklog needs plan ids
      (request :: requests, plan, ids)

def admitReads : List PlanReadNeed → SessionPlan E → IdCounter →
    List ReadRequest × SessionPlan E × IdCounter
  | [], plan, ids => ([], plan, ids)
  | need :: needs, plan, ids =>
    if plan.pendingReads.contains need.hash then admitReads needs plan ids
    else if plan.pendingReads.size ≥ plan.pendingReadsCap then
      admitReads needs { plan with readBacklog := plan.readBacklog ++ [need] } ids
    else
      let (request, plan, ids) := plan.dispatchRead ctx need ids
      let (requests, plan, ids) := admitReads needs plan ids
      (request :: requests, plan, ids)

def deferReadsAfterIncrementalWrite (needs : List PlanReadNeed) : SessionPlan E :=
  needs.foldl (fun plan need =>
    if plan.pendingReads.contains need.hash ||
        plan.readBacklog.any (fun queued => queued.hash = need.hash) then plan
    else { plan with readBacklog := plan.readBacklog ++ [need] }) plan

variable [TreeEngine E L] (plan : SessionPlan E)

/-- A sequence of zero is none. -/
def ledgerSequence : Option ℕ :=
  (plan.engine.bind TreeEngine.ledgerSequence).filter fun sequence => sequence ≠ 0

def noteProgress : SessionPlan E := { plan with progressSinceTimeout := true }

def noteProgressIf (progress : Bool) : SessionPlan E :=
  if progress then plan.noteProgress else plan

/-- Up to `fuel` packets are fed to the engine. -/
def feedPackets (codec : WireCodec) :
    ℕ → PacketFeed → SessionPlan E → PacketFeed × SessionPlan E
  | 0, fed, plan => (fed, plan)
  | fuel + 1, fed, plan =>
    match plan.engine with
    | none => (fed, plan)
    | some engine =>
      match plan.mailbox.popFront with
      | none => (fed, plan)
      | some (packet, mailbox) =>
        let (other, engine) := feedPacket codec packet engine
        feedPackets codec fuel (fed.merge other)
          ({ plan with engine := some engine, mailbox }.log
            (other.resolvedNetwork.map FrontierEvent.attached))

/-- When the mailbox is empty, useful peers become lanes of requests. If there was none before, a
new epoch starts. -/
def openReplyLanes (picks : ℕ → ℕ) : SessionPlan E :=
  if plan.mailbox.isEmpty && !plan.usefulPeerScores.isEmpty then
    let peers := selectInboundLedgerReplyPeers picks plan.usefulPeerScores.toList
    let opened : SessionPlan E :=
      { plan with
        usefulPeerScores := ∅
        networkLanes := plan.networkLanes ++ peers.map NetworkLane.reply }
    match opened.engine with
    | some engine =>
      if plan.networkLanes.isEmpty && !opened.networkLanes.isEmpty then
        { opened.resetNetworkEpoch with engine := some (TreeEngine.beginReplyScan engine) }
      else opened
    | none => opened
  else plan

/-- What one advance of the engine comes to. -/
structure Advance (E : Type) where
  outcome : PlanStepOutcome
  readyContinues : Bool
  pendingWrites : List PersistNode
  ledgerSequence : Option ℕ
  engine : E

def advanceEngine (attached : Bool) (engine : E) : Advance E :=
  let before := TreeEngine.branchSteps engine
  let (outcome, engine) := TreeEngine.advance maxNewReadsPerPass engine
  let readyContinues := attached ||
    (TreeEngine.hasRunnableFrontier engine && decide (before < TreeEngine.branchSteps engine))
  let (pendingWrites, engine) :=
    match outcome with
    | .complete => ([], engine)
    | _ => TreeEngine.takePersistableNodes engine
  ⟨outcome, readyContinues, pendingWrites, TreeEngine.ledgerSequence engine, engine⟩

/-- The events of an outcome: what it announces, with the hashes that are recent now. -/
def announcements (outcome : PlanStepOutcome) : List FrontierEvent :=
  match outcome with
  | .needsNetwork nodes => nodes.map fun need => .announced need plan.recentNodes
  | _ => []

/-- An incremental write keeps what the outcome asks for until the write settles. -/
def deferOutcome (outcome : PlanStepOutcome) : SessionPlan E :=
  match outcome with
  | .needsReads needs => plan.deferReadsAfterIncrementalWrite needs
  | .needsNetwork nodes => plan.enqueueNetworkFrontier nodes
  | _ => plan

variable (ctx : TurnContext) (ids : IdCounter)

def persistIncrementally (writes : List PersistNode) (ledgerSequence : Option ℕ) :
    PlanTurn × SessionPlan E × IdCounter :=
  match ledgerSequence.filter fun sequence => sequence ≠ 0 with
  | none => (.invalid, plan, ids)
  | some sequence =>
    let (operation, ids) := OperationRef.mint ctx.session .write ids
    (.persist ⟨operation, none, ctx.storeGeneration, sequence, writes⟩,
      { plan with persistence := .incrementalWritePending operation }, ids)

def onComplete : PlanTurn × SessionPlan E × IdCounter :=
  match plan.engine with
  | none => (.invalid, plan, ids)
  | some engine =>
    match (TreeEngine.persistenceSequence engine).filter fun sequence => sequence ≠ 0 with
    | none => (.invalid, plan, ids)
    | some sequence =>
      let (nodes, engine) := TreeEngine.takePersistableNodes engine
      let (write, ids) := OperationRef.mint ctx.session .write ids
      let (fence, ids) := OperationRef.mint ctx.session .durabilityFence ids
      (.persist ⟨write, some fence, ctx.storeGeneration, sequence, nodes⟩,
        { plan with engine := some engine, persistence := .finalWritePending write fence }, ids)

/-- A turn that dispatches what the backlog has room for. -/
def dispatchTurn : PlanTurn × SessionPlan E × IdCounter :=
  let (nodes, plan) := plan.dispatchNetworkBacklog
  (if nodes.isEmpty then .continue else .network nodes, plan, ids)

def readsTurn (requests : List ReadRequest) : PlanTurn :=
  if requests.isEmpty then .continue else .reads requests

/-- How an iteration ends that does not go on. -/
def settleOutcome : PlanStepOutcome → PlanTurn × SessionPlan E × IdCounter
  | .ready => (.continue, plan, ids)
  | .yielded => (.yielded, plan, ids)
  | .needsReads needs =>
    let (requests, plan, ids) := admitReads ctx needs plan ids
    (readsTurn requests, plan, ids)
  | .needsNetwork nodes => (plan.enqueueNetworkFrontier nodes).dispatchTurn ids
  | .complete => plan.onComplete ctx ids
  | .invalid => (.invalid, plan, ids)

/-- Feed packets and open lanes, at the start of an iteration. -/
def feedTurn (codec : WireCodec) (picks : ℕ → ℕ) : PacketFeed × SessionPlan E :=
  let (fed, plan) := feedPackets codec maxPacketsFedPerTurn .default plan
  (fed, { plan with
    usefulPeerScores := creditPeers plan.usefulPeerScores fed.usefulPeerCounts }.openReplyLanes
      picks)

/-- The engine has been advanced, and what the packets resolved is retired. -/
def recordAdvance (fed : PacketFeed) (step : Advance E) : SessionPlan E :=
  let advanced : SessionPlan E :=
    { plan with engine := some step.engine, runs := plan.runs + 1 }.log
      [.advanced plan.networkBacklog]
  (advanced.retireNetworkResolutions fed.resolvedNetwork).noteProgressIf fed.useful

/-- The outcome is known, and not yet acted on. -/
def afterAdvance (fed : PacketFeed) (step : Advance E) : SessionPlan E :=
  (plan.recordAdvance fed step).log ((plan.recordAdvance fed step).announcements step.outcome)

/-- The loop of `run_turn`, for at most `fuel` iterations. -/
def turnLoop (codec : WireCodec) (picks : ℕ → ℕ) :
    ℕ → SessionPlan E → IdCounter → PlanTurn × SessionPlan E × IdCounter
  | 0, plan, ids => (.continue, plan, ids)
  | fuel + 1, plan, ids =>
    let (fed, plan) := plan.feedTurn codec picks
    if !plan.networkBacklog.isEmpty &&
        decide (maxRetainedNetworkFrontier ≤ plan.retainedNetwork.length) then
      ((plan.retireNetworkResolutions fed.resolvedNetwork).noteProgressIf fed.useful).dispatchTurn
        ids
    else
      match plan.engine with
      | none => (.continue, plan, ids)
      | some engine =>
        let step := advanceEngine fed.attached engine
        let plan := plan.afterAdvance fed step
        if !step.pendingWrites.isEmpty then
          (plan.deferOutcome step.outcome).persistIncrementally ctx ids step.pendingWrites
            step.ledgerSequence
        else
          match step.outcome with
          | .ready =>
            if step.readyContinues then turnLoop codec picks fuel plan ids
            else (.continue, plan, ids)
          | outcome => plan.settleOutcome ctx ids outcome

def runTurn (codec : WireCodec) (picks : ℕ → ℕ) : PlanTurn × SessionPlan E × IdCounter :=
  if plan.cancelled || decide (plan.persistence ≠ .none) then (.continue, plan, ids)
  else if !plan.pendingReads.isEmpty then (.continue, plan, ids)
  else if !plan.readBacklog.isEmpty then
    let (requests, plan, ids) := drainReadBacklog ctx plan.readBacklog plan ids
    (readsTurn requests, plan, ids)
  else if !plan.networkBacklog.isEmpty then
    let (nodes, plan) := plan.dispatchNetworkBacklog
    if !nodes.isEmpty then (.network nodes, plan, ids)
    else if plan.mailbox.isEmpty then (.continue, plan, ids)
    else turnLoop ctx codec picks maxTurnsPerEvent plan ids
  else turnLoop ctx codec picks maxTurnsPerEvent plan ids

variable (plan : SessionPlan E)

/-- Let the engine scan anew. -/
def beginReplyScan : SessionPlan E :=
  { plan with engine := plan.engine.map TreeEngine.beginReplyScan }

def discardUnrequestedNetworkTail : SessionPlan E :=
  let unrequested := plan.unemittedNetwork ++ plan.networkBacklog
  let discarded : SessionPlan E :=
    { plan with
      retainedNetwork := plan.retainedNetwork.filter fun need => !unrequested.contains need
      unemittedNetwork := []
      networkBacklog := [] }.normalizeRetainedNetworkCursor.refreshPendingNetwork
  { discarded with
    engine := discarded.engine.map (TreeEngine.retainNetworkNeeds discarded.retainedNetwork) }

def finishNetworkLane : SessionPlan E :=
  let finished : SessionPlan E :=
    match plan.networkLanes with
    | [] => plan
    | _ :: lanes =>
      ({ plan with networkLanes := lanes }.discardUnrequestedNetworkTail).log [.laneFinished]
  if finished.networkLanes.isEmpty then finished else finished.beginReplyScan

def noteUsefulPeer (peer : PeerId) (count : ℤ) : SessionPlan E :=
  { plan with usefulPeerScores := creditPeer plan.usefulPeerScores peer count }

def beginTimeoutScan (existingPeers addedPeers : List PeerId) : SessionPlan E :=
  let opened : SessionPlan E :=
    { plan with
      recentNodes := ∅
      networkLanes := plan.networkLanes ++ .timeout existingPeers ::
        addedPeers.map NetworkLane.added }
  if plan.networkLanes.isEmpty && !opened.networkLanes.isEmpty then opened.beginReplyScan
  else opened

def clearRecentNodes : SessionPlan E := { plan with recentNodes := ∅ }

variable (plan : SessionPlan E)

def durableLedger : Option L × SessionPlan E :=
  match plan.engine with
  | none => (none, plan)
  | some engine =>
    let (ledger, engine) := TreeEngine.durableLedger engine
    (ledger, { plan with engine := some engine })

def installEngine (engine : E) : Bool × SessionPlan E :=
  if plan.cancelled || plan.engine.isSome then (false, plan)
  else (true, { plan with engine := some engine })

def pushPacket (packet : AdmittedLedgerPacket) : Bool × SessionPlan E :=
  let (accepted, mailbox) := plan.mailbox.push packet
  (accepted, { plan with mailbox })

def suspendForDormancy : SessionPlan E :=
  { plan with
    engine := plan.engine.map TreeEngine.rearmPendingReads
    pendingReads := ∅
    pendingRecoveryReads := [] }

def terminalizeRetainingEngine : SessionPlan E :=
  { plan with
    cancelled := true
    mailbox := plan.mailbox.clear
    pendingReads := ∅
    pendingRecoveryReads := []
    readBacklog := []
    networkBacklog := []
    pendingNetwork := ∅
    retainedNetwork := []
    unemittedNetwork := []
    retainedNetworkCursor := 0
    usefulPeerScores := ∅
    networkLanes := []
    recentNodes := ∅
    persistence := .none }.log [.cancelled]

def cancel : SessionPlan E := { plan.terminalizeRetainingEngine with engine := none }

def releaseRetainedEngine : SessionPlan E := { plan with engine := none }

def takeNoProgressInterval : Bool × SessionPlan E :=
  (!plan.progressSinceTimeout, { plan with progressSinceTimeout := false })

/-- The loop over a batch of retained needs. -/
def reprobeNeeds (ctx : TurnContext) (ledgerSequence : ℕ) :
    List PlanNetworkNeed → List ReadRequest → SessionPlan E → IdCounter →
      List ReadRequest × SessionPlan E × IdCounter
  | [], requests, plan, ids => (requests, plan, ids)
  | need :: needs, requests, plan, ids =>
    if plan.pendingRecoveryReads.any (fun pending => pending.2 = need) ||
        requests.any (fun request => request.key = need.hash) ||
        decide (plan.pendingReadsCap ≤ plan.pendingReadCount + requests.length) then
      reprobeNeeds ctx ledgerSequence needs requests plan ids
    else
      let (operation, ids) := OperationRef.mint ctx.session .recoveryRead ids
      reprobeNeeds ctx ledgerSequence needs
        (requests ++ [⟨operation, need.hash, ledgerSequence, ctx.storeGeneration, ctx.priority⟩])
        { plan with pendingRecoveryReads := plan.pendingRecoveryReads ++ [(operation, need)] } ids

def reprobeNetworkBatch (retained : List PlanNetworkNeed) (ctx : TurnContext) (ids : IdCounter) :
    List ReadRequest × SessionPlan E × IdCounter :=
  if plan.cancelled || decide (plan.persistence ≠ .none) then ([], plan, ids)
  else
    match plan.ledgerSequence with
    | none => ([], plan, ids)
    | some sequence => reprobeNeeds ctx sequence retained [] plan ids

def onRead (completion : ReadCompletion) : PlanReadOutcome × SessionPlan E :=
  match plan.engine with
  | none => (.stale, plan)
  | some engine =>
    match completion.operation.kind with
    | .read =>
      match plan.pendingReads.toList.find? fun item => item.2 = completion.operation with
      | none => (.stale, plan)
      | some (hash, _) =>
        let (applied, engine) := TreeEngine.applyRead hash completion.outcome engine
        (.applied, { plan with
          pendingReads := plan.pendingReads.erase hash
          engine := some engine }.noteProgressIf applied.makesProgress)
    | .recoveryRead =>
      match plan.pendingRecoveryReads.find? fun item => item.1 = completion.operation with
      | none => (.stale, plan)
      | some (_, need) =>
        let (applied, engine) := TreeEngine.applyRecoveryRead need completion.outcome engine
        let settled : SessionPlan E :=
          { plan with
            pendingRecoveryReads :=
              plan.pendingRecoveryReads.filter fun item => item.1 ≠ completion.operation
            engine := some engine }
        (.applied, (if applied.isApplied then (settled.retireNetworkNeed need).log [.attached need]
          else settled).noteProgressIf applied.makesProgress)
    | _ => (.stale, plan)

def notifyAccepted : SessionPlan E :=
  { plan with engine := plan.engine.map TreeEngine.onPersistenceAccepted }

def onWrite (operation : OperationRef) (outcome : WriteOutcome) :
    PlanWriteOutcome × SessionPlan E :=
  if operation.kind ≠ .write then (.stale, plan)
  else
    match plan.persistence with
    | .incrementalWritePending expected =>
      if expected ≠ operation then (.stale, plan)
      else
        match outcome with
        | .accepted =>
          (.incrementalAccepted, { plan with persistence := .none }.notifyAccepted)
        | .failed => (.failed .writeFailure, { plan with persistence := .failed .writeFailure })
        | .cancelled => (.cancelled .storeRotated, { plan with persistence := .none })
        | .stale => (.stale, plan)
    | .finalWritePending expected fence =>
      if expected ≠ operation then (.stale, plan)
      else
        match outcome with
        | .accepted =>
          (.finalAccepted, { plan with persistence := .fencePending fence }.notifyAccepted)
        | .failed => (.failed .writeFailure, { plan with persistence := .failed .writeFailure })
        | .cancelled => (.cancelled .storeRotated, { plan with persistence := .none })
        | .stale => (.stale, plan)
    | _ => (.stale, plan)

def onDurability (operation : OperationRef) (outcome : DurabilityOutcome) :
    PlanDurabilityOutcome × SessionPlan E :=
  if operation.kind ≠ .durabilityFence then (.stale, plan)
  else
    match plan.persistence with
    | .fencePending expected =>
      if expected ≠ operation then (.stale, plan)
      else
        match outcome with
        | .passed => (.durable, { plan with persistence := .durable })
        | .failed =>
          (.failed .durabilityFenceFailed,
            { plan with persistence := .failed .durabilityFenceFailed })
        | .stale => (.stale, plan)
    | _ => (.stale, plan)

def onTimeout (noProgress : Bool) : PlanTimeout × SessionPlan E :=
  if plan.cancelled then (.fail, plan)
  else if !noProgress then (.continue, plan)
  else
    let timeouts := min (plan.timeouts + 1) (2 ^ 32 - 1)
    if plan.maxTimeouts < timeouts then (.fail, { plan with timeouts, cancelled := true })
    else (.continue, { plan with timeouts })

end SessionPlan

end Quaxar.Acquisition
