import Quaxar.Acquisition.SessionPlan

/-!
# The network frontier of a plan

What the engine announces as missing is in the backlog or retained until a node is attached at
exactly that place, or the lane, the epoch or the plan ends. Needs move between the backlog, the
retained frontier and the queue of requests, and none of the three has a need twice.
-/

namespace Quaxar.Acquisition

open List (contains_iff_mem mem_append_left mem_append_right mem_cons_self nil_subset nodup_nil
  not_mem_nil)

variable {net : Network}

/-- The part of a plan that this is about. -/
structure Network where
  retained : List PlanNetworkNeed
  backlog : List PlanNetworkNeed
  unemitted : List PlanNetworkNeed
  pending : Finset Uint256
  history : List FrontierEvent

def SessionPlan.network {E : Type} (plan : SessionPlan E) : Network :=
  ⟨plan.retainedNetwork, plan.networkBacklog, plan.unemittedNetwork, plan.pendingNetwork,
    plan.history⟩

/-- The needs that have been announced and not been released since. -/
def Owed (need : PlanNetworkNeed) : List FrontierEvent → Prop
  | [] => False
  | .advanced _ :: history => Owed need history
  | .announced other recent :: history => (other = need ∧ need.hash ∉ recent) ∨ Owed need history
  | .attached other :: history => other ≠ need ∧ Owed need history
  | .laneFinished :: _ => False
  | .replyEpoch :: _ => False
  | .cancelled :: _ => False

/-- The lists are in order, and every need that is owed is in one of them or among those that are
`waiting` to be enqueued. -/
structure Network.Lists (waiting : PlanNetworkNeed → Prop) (net : Network) : Prop where
  retained_nodup : net.retained.Nodup
  backlog_nodup : net.backlog.Nodup
  disjoint : ∀ need ∈ net.backlog, need ∉ net.retained
  unemitted_nodup : net.unemitted.Nodup
  unemitted_subset : net.unemitted ⊆ net.retained
  retained_le : net.retained.length ≤ maxRetainedNetworkFrontier
  advanced_empty : ∀ backlog, .advanced backlog ∈ net.history → backlog = []
  owed : ∀ need, Owed need net.history → need ∈ net.retained ∨ need ∈ net.backlog ∨ waiting need

/-- Between two operations nothing waits, and the hashes are those of the lists. -/
structure Network.Sound (net : Network) : Prop extends net.Lists fun _ => False where
  pending_eq : net.pending =
    (net.retained.map PlanNetworkNeed.hash ++ net.backlog.map PlanNetworkNeed.hash).toFinset

variable {E L : Type} {plan : SessionPlan E} {waiting : PlanNetworkNeed → Prop}
  {need : PlanNetworkNeed}

theorem sound_withLimits (admission : AdmissionBudget) (maxTimeouts pendingReadsCap : ℕ) :
    (SessionPlan.withLimits admission maxTimeouts pendingReadsCap :
      SessionPlan E).network.Sound where
  retained_nodup := nodup_nil
  backlog_nodup := nodup_nil
  disjoint _ h := absurd h not_mem_nil
  unemitted_nodup := nodup_nil
  unemitted_subset := nil_subset _
  retained_le := Nat.zero_le _
  advanced_empty _ h := absurd h not_mem_nil
  owed _ h := h.elim
  pending_eq := rfl

/-- Empty lists owe nothing once their needs are released. -/
theorem Network.Sound.cleared (h : net.Sound) {event : FrontierEvent}
    (hevent : ∀ need, ¬Owed need (event :: net.history))
    (hadvanced : ∀ backlog, event ≠ .advanced backlog) :
    (⟨[], [], [], ∅, event :: net.history⟩ : Network).Sound where
  retained_nodup := nodup_nil
  backlog_nodup := nodup_nil
  disjoint _ hmem := absurd hmem not_mem_nil
  unemitted_nodup := nodup_nil
  unemitted_subset := nil_subset _
  retained_le := Nat.zero_le _
  advanced_empty backlog hmem := by
    rcases List.mem_cons.mp hmem with heq | hmem
    · exact absurd heq.symm (hadvanced backlog)
    · exact h.advanced_empty backlog hmem
  owed need howed := absurd howed (hevent need)
  pending_eq := rfl

theorem Network.Lists.refresh (h : plan.network.Lists fun _ => False) :
    plan.refreshPendingNetwork.network.Sound := ⟨{ h with }, rfl⟩

variable {E L : Type} {plan : SessionPlan E}

theorem Network.Lists.imp {waiting' : PlanNetworkNeed → Prop} (h : net.Lists waiting)
    (hwaits : ∀ need, waiting need → need ∈ net.retained ∨ need ∈ net.backlog ∨ waiting' need) :
    net.Lists waiting' := by
  refine { h with owed := fun need howed => ?_ }
  rcases h.owed need howed with hmem | hmem | hwaiting
  · exact .inl hmem
  · exact .inr (.inl hmem)
  · exact hwaits need hwaiting

theorem Network.Lists.enqueueNode (h : plan.network.Lists fun other =>
      (other = need ∧ other.hash ∉ plan.recentNodes) ∨ waiting other) :
    (plan.enqueueNode need).network.Lists waiting := by
  unfold SessionPlan.enqueueNode
  split_ifs with hrecent hknown
  · refine h.imp ?_
    rintro other (⟨rfl, hfresh⟩ | hwaits)
    · exact absurd hrecent hfresh
    · exact .inr (.inr hwaits)
  · rw [Bool.or_eq_true, contains_iff_mem, contains_iff_mem] at hknown
    refine h.imp ?_
    rintro other (⟨rfl, -⟩ | hwaits)
    · exact hknown.imp_right .inl
    · exact .inr (.inr hwaits)
  · rw [Bool.or_eq_true, contains_iff_mem, contains_iff_mem, not_or] at hknown
    refine { h with backlog_nodup := ?_, disjoint := ?_, owed := ?_ }
    · exact List.nodup_append.mpr ⟨h.backlog_nodup, List.nodup_singleton need, by
        intro other hmem other' hmem' heq
        rw [List.mem_singleton] at hmem'
        exact hknown.2 (hmem' ▸ heq ▸ hmem)⟩
    · intro other hmem
      rcases List.mem_append.mp hmem with hmem | hmem
      · exact h.disjoint other hmem
      · rw [List.mem_singleton] at hmem
        exact hmem ▸ hknown.1
    · intro other howed
      rcases h.owed other howed with hmem | hmem | ⟨rfl, -⟩ | hwaits
      · exact .inl hmem
      · exact .inr (.inl (mem_append_left _ hmem))
      · exact .inr (.inl (mem_append_right _ mem_cons_self))
      · exact .inr (.inr hwaits)

theorem recentNodes_enqueueNode : (plan.enqueueNode need).recentNodes = plan.recentNodes := by
  unfold SessionPlan.enqueueNode
  split_ifs <;> rfl

variable {nodes : List PlanNetworkNeed}

theorem Network.Lists.enqueueNodes
    (h : plan.network.Lists fun other => other ∈ nodes ∧ other.hash ∉ plan.recentNodes) :
    (nodes.foldl SessionPlan.enqueueNode plan).network.Lists fun _ => False := by
  induction nodes generalizing plan with
  | nil => exact { h with owed := by simpa using h.owed }
  | cons node nodes ih =>
    apply ih
    apply enqueueNode
    rw [recentNodes_enqueueNode]
    refine h.imp ?_
    rintro other ⟨hmem, hfresh⟩
    rcases List.mem_cons.mp hmem with rfl | hmem
    · exact .inr (.inr (.inl ⟨rfl, hfresh⟩))
    · exact .inr (.inr (.inr ⟨hmem, hfresh⟩))

theorem Network.Lists.enqueueNetworkFrontier
    (h : plan.network.Lists fun other => other ∈ nodes ∧ other.hash ∉ plan.recentNodes) :
    (plan.enqueueNetworkFrontier nodes).network.Sound :=
  h.enqueueNodes.refresh

theorem Network.Lists.dispatch (h : net.Lists waiting) {dispatched rest : List PlanNetworkNeed}
    (hsplit : net.backlog = dispatched ++ rest)
    (hroom : net.retained.length + dispatched.length ≤ maxRetainedNetworkFrontier)
    (pending : Finset Uint256) :
    (⟨net.retained ++ dispatched, rest, net.unemitted ++ dispatched, pending, net.history⟩ :
      Network).Lists waiting := by
  have hnodup := h.backlog_nodup
  rw [hsplit, List.nodup_append] at hnodup
  obtain ⟨hdispatched, hrest, hapart⟩ := hnodup
  have hnew : ∀ other ∈ dispatched, other ∉ net.retained := fun other hmem =>
    h.disjoint other (hsplit ▸ mem_append_left _ hmem)
  have hold : ∀ other ∈ rest, other ∉ net.retained := fun other hmem =>
    h.disjoint other (hsplit ▸ mem_append_right _ hmem)
  refine { h with
    retained_nodup := ?_, backlog_nodup := hrest, disjoint := ?_, unemitted_nodup := ?_,
    unemitted_subset := ?_, retained_le := by simpa using hroom, owed := ?_ }
  · refine List.nodup_append.mpr ⟨h.retained_nodup, hdispatched, ?_⟩
    rintro other hmem _ hmem' rfl
    exact hnew other hmem' hmem
  · intro other hmem hretained
    rcases List.mem_append.mp hretained with hretained | hmem'
    · exact hold other hmem hretained
    · exact hapart other hmem' other hmem rfl
  · refine List.nodup_append.mpr ⟨h.unemitted_nodup, hdispatched, ?_⟩
    rintro other hmem _ hmem' rfl
    exact hnew other hmem' (h.unemitted_subset hmem)
  · intro other hmem
    rcases List.mem_append.mp hmem with hmem | hmem
    · exact mem_append_left _ (h.unemitted_subset hmem)
    · exact mem_append_right _ hmem
  · intro other howed
    rcases h.owed other howed with hmem | hmem | hwaits
    · exact .inl (mem_append_left _ hmem)
    · rw [hsplit] at hmem
      rcases List.mem_append.mp hmem with hmem | hmem
      · exact .inl (mem_append_right _ hmem)
      · exact .inr (.inl hmem)
    · exact .inr (.inr hwaits)

theorem Network.Sound.dispatchNetworkBacklog (h : plan.network.Sound) :
    plan.dispatchNetworkBacklog.2.network.Sound := by
  have hretained := h.retained_le
  change plan.retainedNetwork.length ≤ maxRetainedNetworkFrontier at hretained
  refine ⟨h.dispatch (List.take_append_drop _ _).symm ?_ _, rfl⟩
  rw [List.length_take]
  change plan.retainedNetwork.length + _ ≤ maxRetainedNetworkFrontier
  omega

/-- A plan whose backlog is not empty has a full frontier. -/
def Full (plan : SessionPlan E) : Prop :=
  plan.networkBacklog = [] ∨ maxRetainedNetworkFrontier ≤ plan.retainedNetwork.length

theorem full_of_dispatch_nil (h : plan.dispatchNetworkBacklog.1 = []) :
    Full plan.dispatchNetworkBacklog.2 := by
  rcases List.take_eq_nil_iff.mp h with hroom | hempty
  · right
    change maxRetainedNetworkFrontier ≤ (plan.retainedNetwork ++ _).length
    rw [List.length_append]
    omega
  · left
    change plan.networkBacklog.drop _ = []
    rw [hempty, List.drop_nil]

theorem Network.Lists.filter (h : net.Lists waiting) (keep : PlanNetworkNeed → Bool)
    (hkeep : ∀ need, Owed need net.history → keep need = true) (pending : Finset Uint256) :
    (⟨net.retained.filter keep, net.backlog.filter keep, net.unemitted.filter keep, pending,
      net.history⟩ : Network).Lists waiting := by
  refine { h with
    retained_nodup := h.retained_nodup.filter _, backlog_nodup := h.backlog_nodup.filter _,
    disjoint := ?_, unemitted_nodup := h.unemitted_nodup.filter _, unemitted_subset := ?_,
    retained_le := (List.length_filter_le _ _).trans h.retained_le, owed := ?_ }
  · intro other hmem hretained
    exact h.disjoint other (List.mem_filter.mp hmem).1 (List.mem_filter.mp hretained).1
  · intro other hmem
    obtain ⟨hmem, hkept⟩ := List.mem_filter.mp hmem
    exact List.mem_filter.mpr ⟨h.unemitted_subset hmem, hkept⟩
  · intro other howed
    have hkept := hkeep other howed
    rcases h.owed other howed with hmem | hmem | hwaits
    · exact .inl (List.mem_filter.mpr ⟨hmem, hkept⟩)
    · exact .inr (.inl (List.mem_filter.mpr ⟨hmem, hkept⟩))
    · exact .inr (.inr hwaits)

theorem Network.Sound.retireNetworkResolutions (h : plan.network.Sound)
    {resolutions : List PlanNetworkNeed}
    (hreleased : ∀ need ∈ resolutions, ¬Owed need plan.history) :
    (plan.retireNetworkResolutions resolutions).network.Sound := by
  refine ⟨h.filter (fun need => !resolutions.contains need) ?_ _, rfl⟩
  intro need howed
  rw [Bool.not_eq_true', ← Bool.not_eq_true, contains_iff_mem]
  exact fun hmem => hreleased need hmem howed

theorem Network.Lists.log_attached (h : net.Lists waiting) (attached : List PlanNetworkNeed) :
    ({ net with history := attached.map .attached ++ net.history } : Network).Lists waiting := by
  refine { h with advanced_empty := ?_, owed := ?_ }
  · intro backlog hmem
    rcases List.mem_append.mp hmem with hmem | hmem
    · simp at hmem
    · exact h.advanced_empty backlog hmem
  · intro need howed
    apply h.owed
    induction attached with
    | nil => exact howed
    | cons other attached ih => exact ih howed.2

variable {attached : List PlanNetworkNeed} {history : List FrontierEvent}

theorem not_owed_of_attached (h : need ∈ attached) :
    ¬Owed need (attached.map .attached ++ history) := by
  induction attached with
  | nil => exact absurd h not_mem_nil
  | cons other attached ih =>
    rintro ⟨hne, howed⟩
    rcases List.mem_cons.mp h with rfl | hmem
    · exact hne rfl
    · exact ih hmem howed

theorem not_owed_append_attached (h : ¬Owed need history) :
    ¬Owed need (attached.map .attached ++ history) := by
  induction attached with
  | nil => exact h
  | cons other attached ih => exact fun howed => ih howed.2

variable {E L : Type} [TreeEngine E L] {plan : SessionPlan E} {codec : WireCodec}

/-- A plan in the middle of a turn: what the packets resolved is released and not yet retired. -/
structure Fed (fed : PacketFeed) (plan : SessionPlan E) : Prop where
  sound : plan.network.Sound
  released : ∀ need ∈ fed.resolvedNetwork, ¬Owed need plan.history
  full : Full plan

variable {fed : PacketFeed}

theorem Fed.feedPackets (h : Fed fed plan) (codec : WireCodec) (fuel : ℕ) :
    Fed (SessionPlan.feedPackets codec fuel fed plan).1
      (SessionPlan.feedPackets codec fuel fed plan).2 := by
  induction fuel generalizing fed plan with
  | zero => exact h
  | succ fuel ih =>
    unfold SessionPlan.feedPackets
    split
    · exact h
    · split
      · exact h
      · rename_i engine _ packet mailbox _
        refine ih ⟨⟨h.sound.log_attached _, h.sound.pending_eq⟩, ?_, h.full⟩
        intro need hmem
        rcases List.mem_append.mp hmem with hmem | hmem
        · exact not_owed_append_attached (h.released need hmem)
        · exact not_owed_of_attached hmem

theorem Network.Sound.resetNetworkEpoch (h : plan.network.Sound) :
    plan.resetNetworkEpoch.network.Sound :=
  h.cleared (fun _ => id) fun _ => FrontierEvent.noConfusion

theorem Fed.openReplyLanes (h : Fed fed plan) (picks : ℕ → ℕ) :
    Fed fed (plan.openReplyLanes picks) := by
  unfold SessionPlan.openReplyLanes
  split_ifs
  · dsimp only
    split
    · split_ifs
      · exact ⟨h.sound.resetNetworkEpoch, fun _ _ => id, .inl rfl⟩
      · exact ⟨h.sound, h.released, h.full⟩
    · exact ⟨h.sound, h.released, h.full⟩
  · exact h

theorem Fed.feedTurn (h : plan.network.Sound) (hfull : Full plan) (picks : ℕ → ℕ) :
    Fed (plan.feedTurn codec picks).1 (plan.feedTurn codec picks).2 := by
  have hstart : Fed .default plan := ⟨h, fun _ hmem => absurd hmem not_mem_nil, hfull⟩
  have hfed := hstart.feedPackets codec maxPacketsFedPerTurn
  refine openReplyLanes ?_ picks
  exact ⟨hfed.sound, hfed.released, hfed.full⟩

theorem Network.Sound.noteProgressIf (h : plan.network.Sound) (progress : Bool) :
    (plan.noteProgressIf progress).network.Sound := by
  unfold SessionPlan.noteProgressIf
  split_ifs
  · exact h
  · exact h

theorem Network.Sound.dispatchTurn (h : plan.network.Sound) (ids : IdCounter) :
    (plan.dispatchTurn ids).2.1.network.Sound :=
  h.dispatchNetworkBacklog

/-- The engine announces needs: those that are not recent are owed from now on. -/
theorem Network.Lists.log_announced (h : net.Lists fun _ => False) (nodes : List PlanNetworkNeed)
    (recent : Finset Uint256) :
    ({ net with history := nodes.map (.announced · recent) ++ net.history } : Network).Lists
      fun need => need ∈ nodes ∧ need.hash ∉ recent := by
  refine { h with advanced_empty := ?_, owed := ?_ }
  · intro backlog hmem
    rcases List.mem_append.mp hmem with hmem | hmem
    · simp at hmem
    · exact h.advanced_empty backlog hmem
  · intro need howed
    have hcase : (need ∈ nodes ∧ need.hash ∉ recent) ∨ Owed need net.history := by
      induction nodes with
      | nil => exact .inr howed
      | cons node nodes ih =>
        rcases howed with ⟨rfl, hfresh⟩ | howed
        · exact .inl ⟨mem_cons_self, hfresh⟩
        · exact (ih howed).imp_left fun ⟨hmem, hfresh⟩ => ⟨List.mem_cons_of_mem _ hmem, hfresh⟩
    rcases hcase with hwaits | howed
    · exact .inr (.inr hwaits)
    · exact (h.owed need howed).imp_right (Or.imp_right False.elim)

/-- What an outcome announces. -/
def announcedNodes : PlanStepOutcome → List PlanNetworkNeed
  | .needsNetwork nodes => nodes
  | _ => []

theorem announcements_eq (outcome : PlanStepOutcome) : plan.announcements outcome =
    (announcedNodes outcome).map (.announced · plan.recentNodes) := by
  cases outcome <;> rfl

section

variable (h : Fed fed plan) (hempty : plan.networkBacklog = []) (step : SessionPlan.Advance E)

include h hempty step

theorem Fed.recordAdvance :
    (plan.recordAdvance fed step).network.Sound ∧
      (plan.recordAdvance fed step).networkBacklog = [] := by
  let advanced : SessionPlan E :=
    { plan with engine := some step.engine, runs := plan.runs + 1 }.log
      [.advanced plan.networkBacklog]
  have hadvanced : advanced.network.Sound := by
    refine ⟨{ h.sound with advanced_empty := ?_, owed := h.sound.owed }, h.sound.pending_eq⟩
    intro backlog hmem
    rcases List.mem_cons.mp hmem with heq | hmem
    · cases heq
      exact hempty
    · exact h.sound.advanced_empty backlog hmem
  have hretired := hadvanced.retireNetworkResolutions h.released
  refine ⟨hretired.noteProgressIf fed.useful, ?_⟩
  have hbacklog : (advanced.retireNetworkResolutions fed.resolvedNetwork).networkBacklog = [] := by
    change plan.networkBacklog.filter _ = []
    rw [hempty, List.filter_nil]
  change ((advanced.retireNetworkResolutions fed.resolvedNetwork).noteProgressIf
    fed.useful).networkBacklog = []
  unfold SessionPlan.noteProgressIf
  split_ifs
  · exact hbacklog
  · exact hbacklog

/-- After an advance, what was announced waits to be enqueued. -/
theorem Fed.afterAdvance :
    (plan.afterAdvance fed step).network.Lists fun need => need ∈ announcedNodes step.outcome ∧
      need.hash ∉ (plan.afterAdvance fed step).recentNodes := by
  have hlists := (h.recordAdvance hempty step).1.log_announced (announcedNodes step.outcome)
    (plan.recordAdvance fed step).recentNodes
  rw [← announcements_eq] at hlists
  exact hlists

theorem Fed.afterAdvance_sound (hnone : announcedNodes step.outcome = []) :
    (plan.afterAdvance fed step).network.Sound := by
  refine ⟨(h.afterAdvance hempty step).imp ?_, (h.recordAdvance hempty step).1.pending_eq⟩
  rintro need ⟨hmem, -⟩
  rw [hnone] at hmem
  exact absurd hmem not_mem_nil

end

variable (ctx : TurnContext) (needs : List PlanReadNeed) (ids : IdCounter)

omit [TreeEngine E L] in
theorem network_drainReadBacklog :
    (SessionPlan.drainReadBacklog ctx needs plan ids).2.1.network = plan.network := by
  induction needs generalizing plan ids with
  | nil => rfl
  | cons need needs ih =>
    unfold SessionPlan.drainReadBacklog
    split_ifs
    · rfl
    · exact ih _

omit [TreeEngine E L] in
theorem network_admitReads :
    (SessionPlan.admitReads ctx needs plan ids).2.1.network = plan.network := by
  induction needs generalizing plan ids with
  | nil => rfl
  | cons need needs ih =>
    unfold SessionPlan.admitReads
    split_ifs
    · exact ih _
    · exact ih _
    · exact ih _

omit [TreeEngine E L] in
theorem network_deferReads :
    (plan.deferReadsAfterIncrementalWrite needs).network = plan.network := by
  unfold SessionPlan.deferReadsAfterIncrementalWrite
  induction needs generalizing plan with
  | nil => rfl
  | cons need needs ih =>
    rw [List.foldl_cons, ih]
    split_ifs <;> rfl

theorem network_reprobeNeeds (ledgerSequence : ℕ) (needs : List PlanNetworkNeed)
    (requests : List ReadRequest) (ids : IdCounter) :
    (SessionPlan.reprobeNeeds ctx ledgerSequence needs requests plan ids).2.1.network =
      plan.network := by
  induction needs generalizing plan requests ids with
  | nil => rfl
  | cons need needs ih =>
    unfold SessionPlan.reprobeNeeds
    split_ifs
    · exact ih _ _
    · exact ih _ _

section Outcomes

variable (h : Fed fed plan) (hempty : plan.networkBacklog = []) (step : SessionPlan.Advance E)

include h hempty

theorem Fed.deferOutcome :
    ((plan.afterAdvance fed step).deferOutcome step.outcome).network.Sound := by
  have hlists := h.afterAdvance hempty step
  have hsound := h.afterAdvance_sound hempty step
  unfold SessionPlan.deferOutcome
  split
  · rename_i needs houtcome
    rw [network_deferReads]
    exact hsound (by rw [houtcome]; rfl)
  · rename_i nodes houtcome
    rw [houtcome] at hlists
    exact hlists.enqueueNetworkFrontier
  · apply hsound
    cases houtcome : step.outcome <;> simp_all [announcedNodes]

theorem Fed.settleOutcome (ctx : TurnContext) (ids : IdCounter) :
    ((plan.afterAdvance fed step).settleOutcome ctx ids step.outcome).2.1.network.Sound := by
  have hlists := h.afterAdvance hempty step
  have hsound := h.afterAdvance_sound hempty step
  cases houtcome : step.outcome with
  | ready => exact hsound (by rw [houtcome]; rfl)
  | yielded => exact hsound (by rw [houtcome]; rfl)
  | invalid => exact hsound (by rw [houtcome]; rfl)
  | needsReads needs =>
    change (SessionPlan.admitReads ctx needs _ ids).2.1.network.Sound
    rw [network_admitReads]
    exact hsound (by rw [houtcome]; rfl)
  | needsNetwork nodes =>
    rw [houtcome] at hlists
    exact hlists.enqueueNetworkFrontier.dispatchTurn ids
  | complete =>
    have hcomplete := hsound (by rw [houtcome]; rfl)
    change ((plan.afterAdvance fed step).onComplete ctx ids).2.1.network.Sound
    unfold SessionPlan.onComplete
    split
    · exact hcomplete
    · split
      · exact hcomplete
      · exact hcomplete

end Outcomes

theorem Network.Sound.persistIncrementally (h : plan.network.Sound) (ctx : TurnContext)
    (ids : IdCounter) (writes : List PersistNode) (ledgerSequence : Option ℕ) :
    (plan.persistIncrementally ctx ids writes ledgerSequence).2.1.network.Sound := by
  unfold SessionPlan.persistIncrementally
  split
  · exact h
  · exact h

/-- The loop of a turn. The engine is advanced only where there is no backlog. -/
theorem Network.Sound.turnLoop (h : plan.network.Sound) (hfull : Full plan) (ctx : TurnContext)
    (codec : WireCodec) (picks : ℕ → ℕ) (fuel : ℕ) (ids : IdCounter) :
    (SessionPlan.turnLoop ctx codec picks fuel plan ids).2.1.network.Sound := by
  induction fuel generalizing plan with
  | zero => exact h
  | succ fuel ih =>
    have hfed : Fed (plan.feedTurn codec picks).1 (plan.feedTurn codec picks).2 :=
      .feedTurn h hfull picks
    unfold SessionPlan.turnLoop
    dsimp only
    split_ifs with hblocked
    · exact ((hfed.sound.retireNetworkResolutions hfed.released).noteProgressIf _).dispatchTurn ids
    · have hempty : (plan.feedTurn codec picks).2.networkBacklog = [] := by
        rcases hfed.full with hempty | hlen
        · exact hempty
        · simpa [hlen] using hblocked
      split
      · exact hfed.sound
      · rename_i engine _
        split
        · exact (hfed.deferOutcome hempty _).persistIncrementally ctx ids _ _
        · have hsettled := hfed.settleOutcome hempty
            (SessionPlan.advanceEngine (plan.feedTurn codec picks).1.attached engine) ctx ids
          split
          · rename_i houtcome
            rw [houtcome] at hsettled
            split_ifs
            · exact ih hsettled (.inl (hfed.recordAdvance hempty _).2)
            · exact hsettled
          · exact hsettled

theorem Network.Sound.runTurn (h : plan.network.Sound) (ctx : TurnContext) (codec : WireCodec)
    (picks : ℕ → ℕ) (ids : IdCounter) :
    (plan.runTurn ctx ids codec picks).2.1.network.Sound := by
  unfold SessionPlan.runTurn
  split_ifs with hdone hreading hbacklog hwaiting
  · exact h
  · exact h
  · dsimp only
    rw [network_drainReadBacklog]
    exact h
  · have hdispatched := h.dispatchNetworkBacklog
    dsimp only
    split_ifs with hnodes hmailbox
    · exact hdispatched
    · exact hdispatched
    · exact hdispatched.turnLoop (full_of_dispatch_nil (by simpa using hnodes)) ctx codec picks _
        ids
  · exact h.turnLoop (.inl (by simpa using hwaiting)) ctx codec picks _ ids

section Operations

variable {E L : Type} [TreeEngine E L]

/-- The operations of a plan, with what the caller gives to each. -/
inductive PlanOperation (E : Type) where
  | installEngine (engine : E)
  | pushPacket (packet : AdmittedLedgerPacket)
  | runTurn (ctx : TurnContext) (ids : IdCounter) (codec : WireCodec) (picks : ℕ → ℕ)
  | onRead (completion : ReadCompletion)
  | onWrite (operation : OperationRef) (outcome : WriteOutcome)
  | onDurability (operation : OperationRef) (outcome : DurabilityOutcome)
  | onTimeout (noProgress : Bool)
  | noteProgress
  | takeNoProgressInterval
  | noteUsefulPeer (peer : PeerId) (count : ℤ)
  | beginTimeoutScan (existingPeers addedPeers : List PeerId)
  | clearRecentNodes
  | finishNetworkLane
  | takeNextNormalNetworkBatch (maxNodes : ℕ)
  | nextTimeoutRecoveryBatch
  | reprobeNetworkBatch (retained : List PlanNetworkNeed) (ctx : TurnContext) (ids : IdCounter)
  | suspendForDormancy
  | durableLedger
  | cancel
  | terminalizeRetainingEngine
  | releaseRetainedEngine

def PlanOperation.apply (plan : SessionPlan E) : PlanOperation E → SessionPlan E
  | .installEngine engine => (plan.installEngine engine).2
  | .pushPacket packet => (plan.pushPacket packet).2
  | .runTurn ctx ids codec picks => (plan.runTurn ctx ids codec picks).2.1
  | .onRead completion => (plan.onRead completion).2
  | .onWrite operation outcome => (plan.onWrite operation outcome).2
  | .onDurability operation outcome => (plan.onDurability operation outcome).2
  | .onTimeout noProgress => (plan.onTimeout noProgress).2
  | .noteProgress => plan.noteProgress
  | .takeNoProgressInterval => plan.takeNoProgressInterval.2
  | .noteUsefulPeer peer count => plan.noteUsefulPeer peer count
  | .beginTimeoutScan existingPeers addedPeers => plan.beginTimeoutScan existingPeers addedPeers
  | .clearRecentNodes => plan.clearRecentNodes
  | .finishNetworkLane => plan.finishNetworkLane
  | .takeNextNormalNetworkBatch maxNodes => (plan.takeNextNormalNetworkBatch maxNodes).2
  | .nextTimeoutRecoveryBatch => plan.nextTimeoutRecoveryBatch.2
  | .reprobeNetworkBatch retained ctx ids => (plan.reprobeNetworkBatch retained ctx ids).2.1
  | .suspendForDormancy => plan.suspendForDormancy
  | .durableLedger => plan.durableLedger.2
  | .cancel => plan.cancel
  | .terminalizeRetainingEngine => plan.terminalizeRetainingEngine
  | .releaseRetainedEngine => plan.releaseRetainedEngine

variable {plan : SessionPlan E} (h : plan.network.Sound)

include h

/-- A batch that is taken is no longer queued, and stays retained. -/
theorem Network.Sound.takeNextNormalNetworkBatch (maxNodes : ℕ) :
    (plan.takeNextNormalNetworkBatch maxNodes).2.network.Sound := by
  unfold SessionPlan.takeNextNormalNetworkBatch
  split_ifs
  · exact h
  · split
    · exact h
    · refine ⟨{ h with unemitted_nodup := ?_, unemitted_subset := ?_ }, h.pending_eq⟩
      · exact h.unemitted_nodup.sublist (List.drop_sublist _ _)
      · exact List.Subset.trans (List.drop_subset _ _) h.unemitted_subset

theorem Network.Sound.discardUnrequestedNetworkTail :
    (plan.discardUnrequestedNetworkTail.log [.laneFinished]).network.Sound := by
  refine ⟨{ h with
    retained_nodup := h.retained_nodup.filter _, backlog_nodup := nodup_nil
    disjoint := fun _ hmem => absurd hmem not_mem_nil
    unemitted_nodup := nodup_nil, unemitted_subset := nil_subset _
    retained_le := (List.length_filter_le _ _).trans h.retained_le
    advanced_empty := ?_, owed := fun _ => False.elim }, rfl⟩
  intro backlog hmem
  rcases List.mem_cons.mp hmem with heq | hmem
  · cases heq
  · exact h.advanced_empty backlog hmem

theorem Network.Sound.finishNetworkLane : plan.finishNetworkLane.network.Sound := by
  unfold SessionPlan.finishNetworkLane
  dsimp only
  rcases hlanes : plan.networkLanes with _ | ⟨lane, lanes⟩
  · split_ifs
    · exact h
    · exact h
  · have hpopped : ({ plan with networkLanes := lanes } : SessionPlan E).network.Sound := h
    split_ifs
    · exact hpopped.discardUnrequestedNetworkTail
    · exact hpopped.discardUnrequestedNetworkTail

/-- A recovery read that is applied attaches exactly the need it was made for. -/
theorem Network.Sound.onRead (completion : ReadCompletion) :
    (plan.onRead completion).2.network.Sound := by
  unfold SessionPlan.onRead
  split
  · exact h
  · split
    · split
      · exact h
      · dsimp only
        refine noteProgressIf ?_ _
        exact h
    · split
      · exact h
      · rename_i need _
        refine noteProgressIf ?_ _
        split_ifs
        · have hattached : (plan.log [.attached need]).network.Sound :=
            ⟨h.log_attached [need], h.pending_eq⟩
          exact hattached.retireNetworkResolutions fun _ hmem => not_owed_of_attached hmem
        · exact h
    · exact h

theorem Network.Sound.onWrite (operation : OperationRef) (outcome : WriteOutcome) :
    (plan.onWrite operation outcome).2.network.Sound := by
  unfold SessionPlan.onWrite
  split_ifs
  · exact h
  · split
    · split_ifs
      · exact h
      · cases outcome <;> exact h
    · split_ifs
      · exact h
      · cases outcome <;> exact h
    · exact h

theorem Network.Sound.onDurability (operation : OperationRef) (outcome : DurabilityOutcome) :
    (plan.onDurability operation outcome).2.network.Sound := by
  unfold SessionPlan.onDurability
  split_ifs
  · exact h
  · split
    · split_ifs
      · exact h
      · cases outcome <;> exact h
    · exact h

theorem Network.Sound.apply (operation : PlanOperation E) :
    (operation.apply plan).network.Sound := by
  cases operation with
  | runTurn ctx ids codec picks => exact h.runTurn ctx codec picks ids
  | onRead completion => exact h.onRead completion
  | onWrite operation outcome => exact h.onWrite operation outcome
  | onDurability operation outcome => exact h.onDurability operation outcome
  | finishNetworkLane => exact h.finishNetworkLane
  | takeNextNormalNetworkBatch maxNodes => exact h.takeNextNormalNetworkBatch maxNodes
  | cancel => exact h.cleared (fun _ => id) fun _ => FrontierEvent.noConfusion
  | terminalizeRetainingEngine =>
    exact h.cleared (fun _ => id) fun _ => FrontierEvent.noConfusion
  | pushPacket packet => exact h
  | noteProgress => exact h
  | takeNoProgressInterval => exact h
  | noteUsefulPeer peer count => exact h
  | clearRecentNodes => exact h
  | suspendForDormancy => exact h
  | releaseRetainedEngine => exact h
  | installEngine engine =>
    change (plan.installEngine engine).2.network.Sound
    unfold SessionPlan.installEngine
    split_ifs <;> exact h
  | onTimeout noProgress =>
    change (plan.onTimeout noProgress).2.network.Sound
    unfold SessionPlan.onTimeout
    dsimp only
    split_ifs <;> exact h
  | beginTimeoutScan existingPeers addedPeers =>
    change (plan.beginTimeoutScan existingPeers addedPeers).network.Sound
    unfold SessionPlan.beginTimeoutScan
    dsimp only
    split_ifs <;> exact h
  | nextTimeoutRecoveryBatch =>
    change plan.nextTimeoutRecoveryBatch.2.network.Sound
    unfold SessionPlan.nextTimeoutRecoveryBatch
    dsimp only
    split_ifs <;> exact h
  | reprobeNetworkBatch retained ctx ids =>
    change (plan.reprobeNetworkBatch retained ctx ids).2.1.network.Sound
    unfold SessionPlan.reprobeNetworkBatch
    split_ifs
    · exact h
    · split
      · exact h
      · rw [network_reprobeNeeds]
        exact h
  | durableLedger =>
    change plan.durableLedger.2.network.Sound
    unfold SessionPlan.durableLedger
    split <;> exact h

end Operations

/-- Events that end the life of a need in the frontier. -/
def FrontierEvent.Releases (need : PlanNetworkNeed) : FrontierEvent → Prop
  | .advanced _ => False
  | .announced _ _ => False
  | .attached other => other = need
  | .laneFinished => True
  | .replyEpoch => True
  | .cancelled => True

/-- An announced need is owed until it is released. -/
theorem owed_of_not_released {recent : Finset Uint256}
    {after before : List FrontierEvent} (hfresh : need.hash ∉ recent)
    (hkept : ∀ event ∈ after, ¬event.Releases need) :
    Owed need (after ++ .announced need recent :: before) := by
  induction after with
  | nil => exact .inl ⟨rfl, hfresh⟩
  | cons event after ih =>
    have howed := ih fun event hmem => hkept event (List.mem_cons_of_mem _ hmem)
    have hevent := hkept event mem_cons_self
    cases event with
    | advanced backlog => exact howed
    | announced other recent => exact .inr howed
    | attached other => exact ⟨hevent, howed⟩
    | laneFinished => exact absurd trivial hevent
    | replyEpoch => exact absurd trivial hevent
    | cancelled => exact absurd trivial hevent

/-- What holds of the frontier of a plan after any operations. -/
structure FrontierKept {E : Type} (plan : SessionPlan E) : Prop where
  retained_nodup : plan.retainedNetwork.Nodup
  backlog_nodup : plan.networkBacklog.Nodup
  disjoint : List.Disjoint plan.retainedNetwork plan.networkBacklog
  unemitted_nodup : plan.unemittedNetwork.Nodup
  unemitted_subset : plan.unemittedNetwork ⊆ plan.retainedNetwork
  mem_pending_iff : ∀ hash, hash ∈ plan.pendingNetwork ↔
    ∃ need ∈ plan.retainedNetwork ++ plan.networkBacklog, need.hash = hash
  retained_le : plan.retainedNetwork.length ≤ 768
  advanced_empty : ∀ backlog, .advanced backlog ∈ plan.history → backlog = []
  announced_kept : ∀ after need recent before,
    plan.history = after ++ .announced need recent :: before → need.hash ∉ recent →
      (∀ event ∈ after, ¬event.Releases need) →
        need ∈ plan.retainedNetwork ∨ need ∈ plan.networkBacklog

theorem Network.Sound.frontierKept {E : Type} {plan : SessionPlan E} (h : plan.network.Sound) :
    FrontierKept plan where
  retained_nodup := h.retained_nodup
  backlog_nodup := h.backlog_nodup
  disjoint := fun need hretained hbacklog => h.disjoint need hbacklog hretained
  unemitted_nodup := h.unemitted_nodup
  unemitted_subset := h.unemitted_subset
  mem_pending_iff := by
    intro hash
    have hpend := h.pending_eq
    change plan.pendingNetwork = (plan.retainedNetwork.map PlanNetworkNeed.hash ++
      plan.networkBacklog.map PlanNetworkNeed.hash).toFinset at hpend
    rw [hpend, ← List.map_append, List.mem_toFinset, List.mem_map]
  retained_le := h.retained_le
  advanced_empty := h.advanced_empty
  announced_kept := by
    intro after need recent before hhistory hfresh hkept
    have howed : Owed need plan.history := by
      rw [hhistory]
      exact owed_of_not_released hfresh hkept
    exact (h.owed need howed).imp_right (Or.resolve_right · id)

/-- The frontier of a plan is never lost and never duplicated, whatever the engine does. -/
theorem sessionPlan_keeps_frontier {E L : Type} [TreeEngine E L] (admission : AdmissionBudget)
    (maxTimeouts pendingReadsCap : ℕ) (operations : List (PlanOperation E)) :
    FrontierKept (operations.foldl PlanOperation.apply
      (SessionPlan.withLimits admission maxTimeouts pendingReadsCap)) := by
  apply Network.Sound.frontierKept
  have hstart : (SessionPlan.withLimits admission maxTimeouts pendingReadsCap :
    SessionPlan E).network.Sound := sound_withLimits admission maxTimeouts pendingReadsCap
  generalize SessionPlan.withLimits admission maxTimeouts pendingReadsCap = plan at hstart ⊢
  induction operations generalizing plan with
  | nil => exact hstart
  | cons operation operations ih => exact ih _ (hstart.apply operation)

end Quaxar.Acquisition
