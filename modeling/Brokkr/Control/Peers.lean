import Brokkr.Lib.Ranking
import Brokkr.Cas.Store
import Brokkr.Control.Cluster

/-!
# What a node says of itself, and what its peers make of it

A control-plane node describes itself from its Raft driver, its registry, its policy, its
store and its job history (`services/observability.rs`), sends that to whoever polls it
in the messages of `brokkr.v1` (`services/peer_observability.rs`), and the poller decodes
the reply (`cluster/probe.rs`) before it merges it.

* `localState`, `getLocalState`, `nodeStateFromProto` — the three steps.
* `nodeStateFromProto_toProto` — what comes out of the wire: everything, except
  that the node is always reachable.
* `merge_perm`, `diff_eq_nil` — the order of the replies does not show, and a snapshot
  does not differ from itself.
-/

namespace Brokkr.Cluster

open List

open Brokkr.Blobs (CasStats CasError)

/-! ## A node by itself -/

/-- What the Raft driver says of itself, as far as a view shows it. -/
structure DriverStatus where
  isLeader : Bool
  term : ℕ
  commitIndex : ℕ
  lastApplied : ℕ
  leader : Option String
  deriving DecidableEq

/-- A node that runs Raft. -/
def nodeViewFromStatus (nodeId advertiseAddr : String) (status : DriverStatus) : NodeView where
  nodeId := nodeId
  advertiseAddr := advertiseAddr
  role :=
    if status.isLeader then .leader
    else if status.leader.isSome then .follower
    else .unknown
  term := status.term
  commitIndex := status.commitIndex
  lastApplied := status.lastApplied
  reachable := true
  lastSeenSecs := 0

/-- A node without Raft. -/
def standaloneNodeView (nodeId advertiseAddr : String) : NodeView where
  nodeId := nodeId
  advertiseAddr := advertiseAddr
  role := .standalone
  term := 0
  commitIndex := 0
  lastApplied := 0
  reachable := true
  lastSeenSecs := 0

/-- What a node reads to describe itself. -/
structure ObservabilityDeps where
  nodeId : String
  advertiseAddr : String
  workers : List WorkerView
  policy : PolicyView
  stats : Except CasError CasStats
  jobs : List JobSummary
  raft : Option (Except String DriverStatus)

namespace ObservabilityDeps

variable (deps : ObservabilityDeps)

/-- The node could read its Raft status, or has none. -/
def readsRaft : Bool :=
  match deps.raft with
  | some (.error _) => false
  | _ => true

/-- This node. -/
def localNode : NodeView :=
  match deps.raft with
  | none => standaloneNodeView deps.nodeId deps.advertiseAddr
  | some (.ok status) => nodeViewFromStatus deps.nodeId deps.advertiseAddr status
  | some (.error _) => unreachableNodeView deps.nodeId deps.advertiseAddr

/-- The size of a store. -/
def casStatsView (stats : CasStats) (owningNode : String) : CasStatsView where
  objects := stats.objects
  bytes := stats.bytes
  owningNode := owningNode

/-- The size of this node's store; a store that cannot be measured reports zero. -/
def localCas : CasStatsView :=
  match deps.stats with
  | .ok stats => casStatsView stats deps.nodeId
  | .error _ => casStatsView ⟨0, 0⟩ deps.nodeId

/-- The state of this node. -/
def localState : NodeState where
  node := deps.localNode
  workers := deps.workers
  policy := deps.policy
  cas := deps.localCas
  jobs := deps.jobs

theorem reachable_localNode :
    deps.localNode.reachable = deps.readsRaft := by
  rw [localNode, readsRaft]
  cases deps.raft with
  | none => rfl
  | some status => cases status <;> rfl

end ObservabilityDeps

/-! ## The messages -/

/-- The tag of a role. -/
def RaftRole.asStr : RaftRole → String
  | .leader => "leader"
  | .follower => "follower"
  | .unknown => "unknown"
  | .standalone => "standalone"

/-- The role of a tag; tags of newer peers read as unknown. -/
def roleOfTag : String → RaftRole
  | "leader" => .leader
  | "follower" => .follower
  | "standalone" => .standalone
  | _ => .unknown

/-- The tag of a state. -/
def JobState.asStr : JobState → String
  | .queued => "queued"
  | .running => "running"
  | .succeeded => "succeeded"
  | .failed => "failed"

/-- The state of a tag. -/
def JobState.fromStrOpt : String → Option JobState
  | "queued" => some .queued
  | "running" => some .running
  | "succeeded" => some .succeeded
  | "failed" => some .failed
  | _ => none

/-- `brokkr.v1.NodeInfo`. -/
structure NodeInfo where
  nodeId : String
  advertiseAddr : String
  role : String
  term : ℕ
  commitIndex : ℕ
  lastApplied : ℕ
  reachable : Bool
  lastSeenSecs : ℕ

/-- `brokkr.v1.WorkerInfo`. -/
structure WorkerInfo where
  workerId : String
  hostname : String
  labels : OrdMap String String
  inflight : ℕ
  lastSeenSecs : ℕ
  stale : Bool
  owningNode : String

/-- `brokkr.v1.PolicyInfo`. -/
structure PolicyInfo where
  loaded : Bool
  quarantined : Bool
  decided : ℕ
  declined : ℕ
  failuresByReason : OrdMap String ℕ
  owningNode : String

/-- `brokkr.v1.CasInfo`. -/
structure CasInfo where
  objects : ℕ
  bytes : ℕ
  owningNode : String

/-- `brokkr.v1.JobInfo`. -/
structure JobInfo where
  jobId : String
  tenant : String
  actionDigest : String
  state : String
  workerId : String
  exitCode : ℤ
  hasExitCode : Bool
  owningNode : String
  completedAtUnixMs : ℕ

/-- `brokkr.v1.GetLocalStateReply`; message fields may be absent. -/
structure GetLocalStateReply where
  node : Option NodeInfo
  workers : List WorkerInfo
  policy : Option PolicyInfo
  cas : Option CasInfo
  jobs : List JobInfo

/-! ### Encoding -/

/-- A node, as a report carries it. -/
def nodeToProto (v : NodeView) : NodeInfo where
  nodeId := v.nodeId
  advertiseAddr := v.advertiseAddr
  role := v.role.asStr
  term := v.term
  commitIndex := v.commitIndex
  lastApplied := v.lastApplied
  reachable := v.reachable
  lastSeenSecs := v.lastSeenSecs

/-- A worker, as a report carries it. -/
def workerToProto (v : WorkerView) : WorkerInfo where
  workerId := v.workerId
  hostname := v.hostname
  labels := v.labels
  inflight := v.inflight
  lastSeenSecs := v.lastSeenSecs
  stale := v.stale
  owningNode := v.owningNode

/-- The policy, as a report carries it. -/
def policyToProto (v : PolicyView) : PolicyInfo where
  loaded := v.loaded
  quarantined := v.quarantined
  decided := v.decided
  declined := v.declined
  failuresByReason := v.failuresByReason
  owningNode := v.owningNode

/-- The cache counters, as a report carries them. -/
def casToProto (v : CasStatsView) : CasInfo where
  objects := v.objects
  bytes := v.bytes
  owningNode := v.owningNode

/-- A job, as a report carries it. -/
def jobToProto (v : JobSummary) : JobInfo where
  jobId := v.jobId
  tenant := v.tenant
  actionDigest := v.actionDigest
  state := v.state.asStr
  workerId := v.workerId.getD ""
  exitCode := v.exitCode.getD 0
  hasExitCode := v.exitCode.isSome
  owningNode := v.owningNode
  completedAtUnixMs := v.completedAtUnixMs

/-- The reply with the parts of a state. -/
def NodeState.toProto (s : NodeState) : GetLocalStateReply where
  node := some (nodeToProto s.node)
  workers := s.workers.map workerToProto
  policy := some (policyToProto s.policy)
  cas := some (casToProto s.cas)
  jobs := s.jobs.map jobToProto

variable (deps : ObservabilityDeps)

/-- `get_local_state`. -/
def getLocalState : GetLocalStateReply := deps.localState.toProto

/-! ### Decoding -/

/-- Why a peer could not be read. -/
inductive ProbeError where
  | unreachable (detail : String)
  | malformed (detail : String)
  deriving DecidableEq

/-- A part of a reply. -/
def part {α : Type} (what : String) : Option α → Except ProbeError α
  | some a => .ok a
  | none => .error (.malformed s!"reply has no {what}")

/-- The peer answered, so it is reachable, whatever it says. -/
def nodeFromProto (node : NodeInfo) : NodeView where
  nodeId := node.nodeId
  advertiseAddr := node.advertiseAddr
  role := roleOfTag node.role
  term := node.term
  commitIndex := node.commitIndex
  lastApplied := node.lastApplied
  reachable := true
  lastSeenSecs := node.lastSeenSecs

/-- A peer's worker, read from its report. -/
def workerFromProto (w : WorkerInfo) : WorkerView where
  workerId := w.workerId
  hostname := w.hostname
  labels := w.labels
  inflight := w.inflight
  lastSeenSecs := w.lastSeenSecs
  stale := w.stale
  owningNode := w.owningNode

/-- A peer's policy, read from its report. -/
def policyFromProto (policy : PolicyInfo) : PolicyView where
  loaded := policy.loaded
  quarantined := policy.quarantined
  decided := policy.decided
  declined := policy.declined
  failuresByReason := policy.failuresByReason
  owningNode := policy.owningNode

/-- A peer's cache counters, read from its report. -/
def casFromProto (cas : CasInfo) : CasStatsView where
  objects := cas.objects
  bytes := cas.bytes
  owningNode := cas.owningNode

/-- A peer's job, read from its report. -/
def jobFromProto (j : JobInfo) : JobSummary where
  jobId := j.jobId
  tenant := j.tenant
  actionDigest := j.actionDigest
  -- a state of a newer peer reads as failed
  state := (JobState.fromStrOpt j.state).getD .failed
  workerId := (some j.workerId).filter fun w => !w.isEmpty
  exitCode := if j.hasExitCode then some j.exitCode else none
  completedAtUnixMs := j.completedAtUnixMs
  owningNode := j.owningNode

/-- `node_state_from_proto`. -/
def nodeStateFromProto (reply : GetLocalStateReply) : Except ProbeError NodeState := do
  let node ← part "node" reply.node
  let policy ← part "policy" reply.policy
  let cas ← part "cas" reply.cas
  return { node := nodeFromProto node
           workers := reply.workers.map workerFromProto
           policy := policyFromProto policy
           cas := casFromProto cas
           jobs := reply.jobs.map jobFromProto }

/-! ### There and back -/

theorem roleOfTag_asStr (role : RaftRole) : roleOfTag role.asStr = role := by
  cases role <;> rfl

theorem fromStrOpt_asStr (state : JobState) : JobState.fromStrOpt state.asStr = some state := by
  cases state <;> rfl

theorem nodeFromProto_nodeToProto (v : NodeView) :
    nodeFromProto (nodeToProto v) = { v with reachable := true } := by
  simp [nodeFromProto, nodeToProto, roleOfTag_asStr]

theorem jobFromProto_jobToProto {v : JobSummary} (hv : v.workerId ≠ some "") :
    jobFromProto (jobToProto v) = v := by
  obtain ⟨jobId, tenant, action, state, workerId, exitCode, completed, owner⟩ := v
  have hworker : ((some (workerId.getD "")).filter fun w => !w.isEmpty) = workerId := by
    cases workerId with
    | none => rfl
    | some w =>
      have hw : w ≠ "" := fun h => hv (congrArg some h)
      simp [Option.filter, hw]
  cases exitCode with
  | none => simp [jobFromProto, jobToProto, fromStrOpt_asStr, hworker]
  | some => simp [jobFromProto, jobToProto, fromStrOpt_asStr, hworker]

/-- Every job that names a worker names one with an id. -/
def NodeState.NamesWorkers (s : NodeState) : Prop := ∀ j ∈ s.jobs, j.workerId ≠ some ""

instance (s : NodeState) : Decidable s.NamesWorkers :=
  inferInstanceAs (Decidable (∀ j ∈ s.jobs, j.workerId ≠ some ""))

theorem nodeStateFromProto_toProto {s : NodeState} (hs : s.NamesWorkers) :
    nodeStateFromProto s.toProto = .ok { s with node := { s.node with reachable := true } } := by
  have hworkers : (s.workers.map workerToProto).map workerFromProto = s.workers := by
    rw [map_map]
    exact map_id _
  have hjobs : (s.jobs.map jobToProto).map jobFromProto = s.jobs := by
    rw [map_map]
    refine (map_congr_left fun j hj => ?_).trans (map_id _)
    exact jobFromProto_jobToProto (hs j hj)
  show Except.ok (⟨nodeFromProto (nodeToProto s.node),
    (s.workers.map workerToProto).map workerFromProto, s.policy, s.cas,
    (s.jobs.map jobToProto).map jobFromProto⟩ : NodeState) = _
  rw [nodeFromProto_nodeToProto, hworkers, hjobs]

/-- **A node's state survives the wire** exactly when the node could read its Raft
status. -/
theorem peer_state_survives (hjobs : deps.localState.NamesWorkers) :
    nodeStateFromProto (getLocalState deps) = .ok deps.localState ↔ deps.readsRaft = true := by
  rw [getLocalState, nodeStateFromProto_toProto hjobs, ← deps.reachable_localNode]
  constructor
  · intro hsame
    have hnode := congrArg NodeState.node (Except.ok.inj hsame)
    exact (congrArg NodeView.reachable hnode).symm
  · intro hreach
    have hnode : { deps.localNode with reachable := true } = deps.localNode := by
      rw [← hreach]
    show Except.ok { deps.localState with node := { deps.localNode with reachable := true } } = _
    rw [hnode]
    rfl

/-- A node with a job of each kind; what its Raft driver says is left open. -/
def sampleDeps (nodeId : String) (raft : Option (Except String DriverStatus)) :
    ObservabilityDeps where
  nodeId := nodeId
  advertiseAddr := nodeId ++ ":7878"
  workers := [sampleWorker false]
  policy := ⟨false, false, 0, 0, ∅, nodeId⟩
  stats := .ok ⟨1, 10⟩
  jobs := [⟨"j-1", "t", "aa", .succeeded, some "w", some 0, 1700000000000, nodeId⟩,
    ⟨"j-0", "t", "ab", .failed, none, none, 1699999999999, nodeId⟩]
  raft := raft

theorem peer_state_survives_sample :
    nodeStateFromProto (getLocalState (sampleDeps "n" (some (.ok ⟨false, 7, 42, 41, some "m"⟩)))) =
      .ok (sampleDeps "n" (some (.ok ⟨false, 7, 42, 41, some "m"⟩))).localState :=
  (peer_state_survives _ (by decide)).2 rfl

/-- A node that cannot read its Raft status reports itself unreachable; its peers decode
it as reachable. -/
theorem unreachable_comes_back : (sampleDeps "n" (some (.error "stopped"))).localState.NamesWorkers
    ∧ (sampleDeps "n" (some (.error "stopped"))).localState.node.reachable = false ∧
    (nodeStateFromProto (getLocalState (sampleDeps "n" (some (.error "stopped"))))).map
      (fun s => s.node.reachable) = .ok true ∧
    nodeStateFromProto (getLocalState (sampleDeps "n" (some (.error "stopped")))) ≠
      .ok (sampleDeps "n" (some (.error "stopped"))).localState := by
  decide

/-! ## A round of polling -/

/-- A peer, from the cluster configuration. -/
structure PeerAddr where
  nodeId : String
  advertiseAddr : String

/-- What became of asking a peer. -/
inductive Probe where
  | failed (peer : PeerAddr)
  | replied (peer : PeerAddr) (deps : ObservabilityDeps)

/-- The outcome of a probe; a reply that cannot be used counts as none. -/
def Probe.outcome : Probe → PeerOutcome
  | .failed peer => .unreachable peer.nodeId peer.advertiseAddr
  | .replied peer deps =>
    match nodeStateFromProto (getLocalState deps) with
    | .ok state => .answered state
    | .error _ => .unreachable peer.nodeId peer.advertiseAddr

/-- The snapshot of a round. -/
def pollRound (probes : List Probe) (asOf : ℕ) : ClusterSnapshot :=
  merge deps.localState (probes.map Probe.outcome) asOf

/-- What the round found of each node, the silent ones included. -/
def found (probes : List Probe) : List NodeView :=
  deps.localNode :: (probes.map Probe.outcome).map PeerOutcome.nodeView

/-- This node and every peer that replied could read their Raft status. -/
def AllRead (probes : List Probe) : Prop :=
  deps.readsRaft = true ∧ ∀ peer d, Probe.replied peer d ∈ probes → d.readsRaft = true

/-- Exactly one node claims leadership at the highest term. -/
def OneLeader (nodes : List NodeView) : Prop :=
  ∃ leader, nodes.filter (fun n =>
    decide (n.role = .leader) && decide (∀ m ∈ nodes, m.term ≤ n.term)) = [leader]

/-- Of the reachable nodes some run Raft, and not exactly one leads. -/
def Leaderless (nodes : List NodeView) : Prop :=
  (∃ n ∈ nodes, n.reachable = true ∧ n.role ≠ .standalone) ∧
    ¬ OneLeader (nodes.filter fun n => n.reachable)

theorem Probe.outcome_replied (peer : PeerAddr) (deps : ObservabilityDeps) :
    ∃ state, (Probe.replied peer deps).outcome = .answered state ∧
      state.node = { deps.localNode with reachable := true } :=
  ⟨_, rfl, nodeFromProto_nodeToProto _⟩

theorem mem_sortBy {α κ : Type} [LinearOrder κ] {key : α → κ} {l : List α} {a : α} :
    a ∈ sortBy key l ↔ a ∈ l :=
  (perm_insertionSort _ l).mem_iff

theorem foldl_max_le_iff (l : List ℕ) (a b : ℕ) :
    l.foldl max a ≤ b ↔ a ≤ b ∧ ∀ x ∈ l, x ≤ b := by
  induction l generalizing a with
  | nil => simp
  | cons x l ih => rw [foldl_cons, ih, max_le_iff, forall_mem_cons, and_assoc]

theorem isSome_elect (nodes : List NodeView) :
    (elect nodes).isSome = true ↔ OneLeader (nodes.filter fun n => n.reachable) := by
  rw [elect, OneLeader]
  set up := nodes.filter fun n => n.reachable with hup
  set highest := (up.map NodeView.term).foldl max 0 with hhighest
  have hterms : ∀ b, highest ≤ b ↔ ∀ m ∈ up, m.term ≤ b := by
    intro b
    rw [hhighest, foldl_max_le_iff]
    simp
  have hclaims : nodes.filter (fun n =>
      n.reachable && decide (n.role = .leader) && decide (n.term = highest)) =
      up.filter (fun n => decide (n.role = .leader) && decide (∀ m ∈ up, m.term ≤ n.term)) := by
    rw [hup, filter_filter]
    refine filter_congr fun n hn => ?_
    cases hreach : n.reachable with
    | false => simp
    | true =>
      have hle : n.term ≤ highest := (hterms highest).1 le_rfl n (mem_filter.2 ⟨hn, hreach⟩)
      have hiff : n.term = highest ↔ ∀ m ∈ up, m.term ≤ n.term := by
        rw [← hterms]
        exact ⟨fun h => h.ge, fun h => le_antisymm hle h⟩
      rw [Bool.true_and, Bool.and_true, decide_eq_decide.2 hiff]
  simp only [hclaims]
  rcases up.filter _ with _ | ⟨a, _ | ⟨b, l⟩⟩ <;> simp

theorem OneLeader.of_perm {nodes nodes' : List NodeView} (h : OneLeader nodes)
    (hperm : nodes.Perm nodes') : OneLeader nodes' := by
  obtain ⟨leader, hleader⟩ := h
  refine ⟨leader, perm_singleton.1 ?_⟩
  rw [← hleader]
  simp only [hperm.mem_iff]
  exact (hperm.filter _).symm

section Round

variable {deps} {probes : List Probe} {asOf : ℕ}

theorem perm_nodes : (pollRound deps probes asOf).nodes.Perm (found deps probes) :=
  perm_insertionSort _ _

theorem degraded_eq_false : (pollRound deps probes asOf).degraded = false ↔
    (∀ peer, Probe.failed peer ∉ probes) ∧ ¬ Leaderless (found deps probes) := by
  have hperm : (pollRound deps probes asOf).nodes.Perm (found deps probes) := perm_nodes
  have hleader : (elect (pollRound deps probes asOf).nodes).isSome = true ↔
      OneLeader ((found deps probes).filter fun n => n.reachable) := by
    rw [isSome_elect]
    exact ⟨fun h => h.of_perm (hperm.filter _), fun h => h.of_perm (hperm.filter _).symm⟩
  show (_ || (_ && _)) = false ↔ _
  rw [Bool.or_eq_false_iff, any_eq_false, Leaderless, ← hleader]
  refine and_congr ?_ ?_
  · constructor
    · intro hnone peer hpeer
      exact hnone _ (mem_map_of_mem hpeer) rfl
    · intro hnone o ho
      obtain ⟨p, hp, rfl⟩ := mem_map.1 ho
      cases p with
      | failed peer => exact absurd hp (hnone peer)
      | replied peer d =>
        obtain ⟨state, houtcome, -⟩ := Probe.outcome_replied peer d
        simp [houtcome, PeerOutcome.state?]
  · rw [not_and_or, not_not, Bool.and_eq_false_iff, Option.isNone_eq_false_iff]
    refine or_congr ?_ Iff.rfl
    rw [Bool.not_eq_eq_eq_not, Bool.not_false, all_eq_true]
    simp only [mem_filter, decide_eq_true_eq, not_exists, not_and, not_not, and_imp]
    exact forall_congr' fun n => by rw [← hperm.mem_iff]; rfl

theorem AllRead.reachable (hread : AllRead deps probes)
    (hreplied : ∀ peer, Probe.failed peer ∉ probes) :
    ∀ n ∈ found deps probes, n.reachable = true := by
  intro n hn
  rcases mem_cons.1 hn with rfl | hn
  · exact deps.reachable_localNode.trans hread.1
  obtain ⟨o, ho, rfl⟩ := mem_map.1 hn
  obtain ⟨p, hp, rfl⟩ := mem_map.1 ho
  cases p with
  | failed peer => exact absurd hp (hreplied peer)
  | replied peer d =>
    obtain ⟨state, houtcome, hnode⟩ := Probe.outcome_replied peer d
    rw [houtcome, PeerOutcome.nodeView, hnode]

end Round

/-- **Degradation shows.**  That a snapshot which is not degraded has reachable nodes only,
which could read their Raft status, and either no node that runs Raft or exactly one that
leads, is so exactly in these cases: every node could read its status, or some peer did not
reply, or the reachable nodes run Raft and do not have one leader. -/
theorem degradation_shown (probes : List Probe) (asOf : ℕ) :
    (AllRead deps probes ∨ (∃ peer, Probe.failed peer ∈ probes) ∨
      Leaderless (found deps probes)) ↔
    ((pollRound deps probes asOf).degraded = false →
      (∀ n ∈ (pollRound deps probes asOf).nodes, n.reachable = true) ∧
      AllRead deps probes ∧
      ((∀ n ∈ (pollRound deps probes asOf).nodes, n.role = .standalone) ∨
        OneLeader (pollRound deps probes asOf).nodes)) := by
  have hperm : (pollRound deps probes asOf).nodes.Perm (found deps probes) := perm_nodes
  constructor
  · intro hshows hok
    obtain ⟨hreplied, hled⟩ := degraded_eq_false.1 hok
    have hread : AllRead deps probes := by
      rcases hshows with hread | ⟨peer, hpeer⟩ | hleaderless
      · exact hread
      · exact absurd hpeer (hreplied peer)
      · exact absurd hleaderless hled
    have hreach := hread.reachable hreplied
    refine ⟨fun n hn => hreach n (hperm.mem_iff.1 hn), hread, ?_⟩
    rw [Leaderless, not_and_or, not_not, filter_eq_self.2 hreach] at hled
    refine hled.imp (fun hnone n hn => ?_) fun hone => hone.of_perm hperm.symm
    by_contra hrole
    have hfound := hperm.mem_iff.1 hn
    exact hnone ⟨n, hfound, hreach n hfound, hrole⟩
  · intro hclaim
    by_contra hhidden
    simp only [not_or, not_exists] at hhidden
    obtain ⟨hread, hreplied, hled⟩ := hhidden
    exact hread (hclaim (degraded_eq_false.2 ⟨hreplied, hled⟩)).2.1

theorem degradation_shown_sample :
    (pollRound (sampleDeps "a" (some (.ok ⟨true, 7, 42, 42, some "a"⟩)))
      [.replied ⟨"b", "b:7878"⟩ (sampleDeps "b" (some (.ok ⟨false, 7, 42, 41, some "a"⟩)))]
      1700000000).degraded = false ∧
    OneLeader (pollRound (sampleDeps "a" (some (.ok ⟨true, 7, 42, 42, some "a"⟩)))
      [.replied ⟨"b", "b:7878"⟩ (sampleDeps "b" (some (.ok ⟨false, 7, 42, 41, some "a"⟩)))]
      1700000000).nodes := by
  refine ⟨by decide, ?_⟩
  have hshown := (degradation_shown (sampleDeps "a" (some (.ok ⟨true, 7, 42, 42, some "a"⟩)))
    [.replied ⟨"b", "b:7878"⟩ (sampleDeps "b" (some (.ok ⟨false, 7, 42, 41, some "a"⟩)))]
    1700000000).1 (.inl ⟨rfl, by
      intro peer d hd
      obtain ⟨rfl, rfl⟩ := Probe.replied.inj (mem_singleton.1 hd)
      rfl⟩) (by decide)
  exact hshown.2.2.resolve_left (by decide)

/-- A node that cannot read its own Raft status: alone it is the healthy picture of a
cluster without nodes, and as a peer it counts as a healthy one. -/
theorem degradation_hidden :
    (pollRound (sampleDeps "a" (some (.error "stopped"))) [] 1700000000).degraded = false ∧
    (∃ n ∈ (pollRound (sampleDeps "a" (some (.error "stopped"))) [] 1700000000).nodes,
      n.reachable = false) ∧
    (pollRound (sampleDeps "a" (some (.ok ⟨true, 7, 42, 42, some "a"⟩)))
      [.replied ⟨"b", "b:7878"⟩ (sampleDeps "b" (some (.error "stopped")))]
      1700000000).degraded = false ∧
    (sampleDeps "b" (some (.error "stopped"))).readsRaft = false := by
  decide

/-! ## The order of the replies -/

theorem sortBy_perm {α κ : Type} [LinearOrder κ] {key : α → κ} {l l' : List α} (h : l.Perm l')
    (hkeys : (l.map key).Nodup) : sortBy key l' = sortBy key l := by
  refine eq_insertionSort ?_ ((perm_insertionSort _ l').trans h.symm)
    (pairwise_insertionSort _ l')
  intro a ha b hb hab hba
  exact inj_on_of_nodup_map hkeys ha hb (le_antisymm hab hba)

theorem sortBy_cons_perm {α κ : Type} [LinearOrder κ] {key : α → κ} (a : α) {l l' : List α}
    (h : l.Perm l') (hkeys : (l.map key).Nodup) : sortBy key (a :: l') = sortBy key (a :: l) := by
  show orderedInsert _ a (sortBy key l') = orderedInsert _ a (sortBy key l)
  rw [sortBy_perm h hkeys]

theorem ids_sublist (peers : List PeerOutcome) :
    ((peers.filterMap PeerOutcome.state?).map fun s => s.node.nodeId).Sublist
      (peers.map fun o => o.nodeView.nodeId) := by
  induction peers with
  | nil => exact List.Sublist.slnil
  | cons o peers ih =>
    cases o with
    | answered => exact ih.cons_cons _
    | unreachable => exact ih.cons _

theorem nodup_jobKey {jobs : List JobSummary} (h : (jobs.map JobSummary.jobId).Nodup) :
    (jobs.map jobKey).Nodup := by
  refine List.Nodup.of_map (fun k : Lex (ℕᵒᵈ × String) => (ofLex k).2) ?_
  rw [map_map]
  exact h

theorem flatMap_find?_eq_nil {ι : Type} {key : ι → String} {l : List ι}
    (hl : (l.map key).Nodup) {delta : ι → List ClusterEvent}
    (hdelta : ∀ i, (l.find? fun j => decide (key j = key i)) = some i → delta i = []) :
    l.flatMap delta = [] := by
  rw [flatMap_eq_nil_iff]
  intro i hi
  exact hdelta i (find?_key_eq_some hl hi)

theorem diff_eq_nil {prev next : ClusterSnapshot} (hnodes : next.nodes = prev.nodes)
    (hworkers : next.workers = prev.workers) (hpolicies : next.policies = prev.policies)
    (hleader : next.leaderId = prev.leaderId) (hnodesOnce : (prev.nodes.map NodeView.nodeId).Nodup)
    (hworkersOnce : (prev.workers.map WorkerView.workerId).Nodup)
    (hpoliciesOnce : (prev.policies.map PolicyView.owningNode).Nodup) : diff prev next = [] := by
  rw [diff, hnodes, hworkers, hpolicies]
  have hn : prev.nodes.flatMap (nodeDelta prev) = [] :=
    flatMap_find?_eq_nil hnodesOnce fun n hfind => by simp [nodeDelta, hfind]
  have hw : prev.workers.flatMap (workerDelta prev) = [] :=
    flatMap_find?_eq_nil hworkersOnce fun w hfind => by simp [workerDelta, hfind]
  have hgone : prev.workers.flatMap (removedDelta next) = [] := by
    rw [flatMap_eq_nil_iff]
    intro w hw
    rw [removedDelta, hworkers, if_pos]
    exact any_eq_true.2 ⟨w, hw, decide_eq_true rfl⟩
  have hp : prev.policies.flatMap (policyDelta prev) = [] :=
    flatMap_find?_eq_nil hpoliciesOnce fun p hfind => by simp [policyDelta, hfind]
  rw [hn, hw, hgone, hp, leaderDelta, if_neg (by rw [hleader]; simp)]
  rfl

section Order

variable {localState : NodeState} {peers peers' : List PeerOutcome}

/-- The states that are merged. -/
def statesOf (localState : NodeState) (peers : List PeerOutcome) : List NodeState :=
  localState :: peers.filterMap PeerOutcome.state?

/-- The owner of the policy and the store of each peer is the peer. -/
def OwnParts (peers : List PeerOutcome) : Prop :=
  ∀ s, PeerOutcome.answered s ∈ peers →
    s.policy.owningNode = s.node.nodeId ∧ s.cas.owningNode = s.node.nodeId

theorem OwnParts.of_mem (h : OwnParts peers) {s : NodeState}
    (hs : s ∈ peers.filterMap PeerOutcome.state?) :
    s.policy.owningNode = s.node.nodeId ∧ s.cas.owningNode = s.node.nodeId := by
  obtain ⟨o, ho, hstate⟩ := mem_filterMap.1 hs
  cases o with
  | answered => cases hstate; exact h _ ho
  | unreachable => cases hstate

theorem OwnParts.nodup_policy (h : OwnParts peers)
    (hids : (peers.map fun o => o.nodeView.nodeId).Nodup) :
    ((peers.filterMap PeerOutcome.state?).map fun s => s.policy.owningNode).Nodup := by
  rw [map_congr_left fun s hs => (h.of_mem hs).1]
  exact (ids_sublist peers).nodup hids

theorem OwnParts.nodup_cas (h : OwnParts peers)
    (hids : (peers.map fun o => o.nodeView.nodeId).Nodup) :
    ((peers.filterMap PeerOutcome.state?).map fun s => s.cas.owningNode).Nodup := by
  rw [map_congr_left fun s hs => (h.of_mem hs).2]
  exact (ids_sublist peers).nodup hids

theorem merge_perm (hperm : peers.Perm peers')
    (hids : (peers.map fun o => o.nodeView.nodeId).Nodup) (howners : OwnParts peers)
    (hworkers : (((statesOf localState peers).flatMap NodeState.workers).map
      WorkerView.workerId).Nodup)
    (hjobs : (((statesOf localState peers).flatMap NodeState.jobs).map JobSummary.jobId).Nodup)
    (asOf : ℕ) : merge localState peers' asOf = merge localState peers asOf := by
  have hstates := hperm.filterMap PeerOutcome.state?
  have hnodes : sortBy NodeView.nodeId (localState.node :: peers'.map PeerOutcome.nodeView) =
      sortBy NodeView.nodeId (localState.node :: peers.map PeerOutcome.nodeView) :=
    sortBy_cons_perm _ (hperm.map _) (by rw [map_map]; exact hids)
  have hpolicies : sortBy PolicyView.owningNode
      ((statesOf localState peers').map NodeState.policy) =
      sortBy PolicyView.owningNode ((statesOf localState peers).map NodeState.policy) := by
    refine sortBy_cons_perm _ (hstates.map _) ?_
    rw [map_map]
    exact howners.nodup_policy hids
  have hcas : sortBy CasStatsView.owningNode ((statesOf localState peers').map NodeState.cas) =
      sortBy CasStatsView.owningNode ((statesOf localState peers).map NodeState.cas) := by
    refine sortBy_cons_perm _ (hstates.map _) ?_
    rw [map_map]
    exact howners.nodup_cas hids
  have hw := sortBy_perm ((hstates.cons localState).flatMap_right NodeState.workers) hworkers
  have hj := sortBy_perm ((hstates.cons localState).flatMap_right NodeState.jobs)
    (nodup_jobKey hjobs)
  have hsilent := hperm.any_eq (f := fun o => o.state?.isNone)
  simp only [merge, ← hsilent, hnodes]
  rw [ClusterSnapshot.mk.injEq]
  exact ⟨rfl, hw, hpolicies, hcas, hj, rfl, rfl, rfl⟩

/-- **The order of the replies does not matter.**  The snapshot is the same for every
order of the replies, and the difference of two such snapshots is empty, whenever they
were made (this node counts among those with distinct ids there). -/
theorem merge_order_irrelevant (localState : NodeState) (peers peers' : List PeerOutcome)
    (hperm : peers.Perm peers')
    (hids : (peers.map fun o => o.nodeView.nodeId).Nodup) (howners : OwnParts peers)
    (hworkers : (((statesOf localState peers).flatMap NodeState.workers).map
      WorkerView.workerId).Nodup)
    (hjobs : (((statesOf localState peers).flatMap NodeState.jobs).map JobSummary.jobId).Nodup) :
    (∀ asOf, merge localState peers' asOf = merge localState peers asOf) ∧
    (localState.node.nodeId ∉ peers.map (fun o => o.nodeView.nodeId) →
      localState.policy.owningNode = localState.node.nodeId →
      ∀ asOf asOf', diff (merge localState peers asOf) (merge localState peers' asOf') = []) := by
  refine ⟨merge_perm hperm hids howners hworkers hjobs, fun hnew hown asOf asOf' => ?_⟩
  rw [merge_perm hperm hids howners hworkers hjobs asOf']
  refine diff_eq_nil rfl rfl rfl rfl ?_ ?_ ?_
  · have hall :
        ((localState.node :: peers.map PeerOutcome.nodeView).map NodeView.nodeId).Nodup := by
      rw [map_cons, map_map]
      exact nodup_cons.2 ⟨hnew, hids⟩
    exact ((perm_insertionSort _ _).map _).nodup_iff.2 hall
  · exact ((perm_insertionSort _ _).map _).nodup_iff.2 hworkers
  have hall : (((statesOf localState peers).map NodeState.policy).map
      PolicyView.owningNode).Nodup := by
    rw [statesOf, map_cons, map_cons, map_map, hown]
    refine nodup_cons.2 ⟨fun hmem => hnew ?_, howners.nodup_policy hids⟩
    obtain ⟨s, hs, hid⟩ := mem_map.1 hmem
    refine (ids_sublist peers).subset (mem_map.2 ⟨s, hs, ?_⟩)
    exact (howners.of_mem hs).1.symm.trans hid
  exact ((perm_insertionSort _ _).map _).nodup_iff.2 hall

end Order

/-- A state of a node with one worker and one job of its own. -/
def ownState (id : String) : NodeState where
  node := standaloneNodeView id (id ++ ":7878")
  workers := [⟨"w-" ++ id, "host", ∅, 0, 1, false, id⟩]
  policy := ⟨false, false, 0, 0, ∅, id⟩
  cas := ⟨1, 10, id⟩
  jobs := [⟨"j-" ++ id, "t", "aa", .succeeded, some "w", some 0, 1700000000000, id⟩]

theorem merge_order_irrelevant_sample :
    merge (ownState "a") [.answered (ownState "c"), .answered (ownState "b")] 1 =
      merge (ownState "a") [.answered (ownState "b"), .answered (ownState "c")] 1 ∧
    diff (merge (ownState "a") [.answered (ownState "b"), .answered (ownState "c")] 1)
      (merge (ownState "a") [.answered (ownState "c"), .answered (ownState "b")] 2) = [] := by
  have horder := merge_order_irrelevant (ownState "a")
    [.answered (ownState "b"), .answered (ownState "c")]
    [.answered (ownState "c"), .answered (ownState "b")] (List.Perm.swap _ _ _) (by decide) (by
      intro s hs
      simp only [mem_cons, PeerOutcome.answered.injEq, not_mem_nil, or_false] at hs
      rcases hs with rfl | rfl <;> exact ⟨rfl, rfl⟩) (by decide) (by decide)
  exact ⟨horder.1 1, horder.2 (by decide) rfl 1 2⟩

end Brokkr.Cluster
