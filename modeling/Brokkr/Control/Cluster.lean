import Brokkr.Lib.Folds
import Brokkr.Lib.OrdMap

/-!
# The cluster view

Every control-plane node polls its peers, merges what they answer into one snapshot
(`cluster/aggregate.rs`), and tells operators what changed since the last one
(`cluster/events.rs`).

* `merge`, `elect` — the snapshot of a poll.
* `diff` — the events between two snapshots: nodes, workers, policies, leadership.
* `Client`, `Client.apply` — what a client knows, and what each event tells it by its
  documentation.
* `Told` — the changes that the events can tell; `Told.replay_diff` — over such a change
  they lead a client from each snapshot to the next.
-/

namespace Brokkr.Cluster

open Function

open List

/-! ## Views -/

/-- The Raft role of a node, as an operator sees it. -/
inductive RaftRole where
  | leader
  | follower
  | unknown
  | standalone
  deriving DecidableEq

/-- A node of the cluster. -/
structure NodeView where
  nodeId : String
  advertiseAddr : String
  role : RaftRole
  term : ℕ
  commitIndex : ℕ
  lastApplied : ℕ
  reachable : Bool
  lastSeenSecs : ℕ
  deriving DecidableEq

/-- A node that did not answer. -/
def unreachableNodeView (nodeId advertiseAddr : String) : NodeView where
  nodeId := nodeId
  advertiseAddr := advertiseAddr
  role := .unknown
  term := 0
  commitIndex := 0
  lastApplied := 0
  reachable := false
  lastSeenSecs := 0

/-- A worker in the registry of some node. -/
structure WorkerView where
  workerId : String
  hostname : String
  labels : OrdMap String String
  inflight : ℕ
  lastSeenSecs : ℕ
  stale : Bool
  owningNode : String
  deriving DecidableEq

/-- The scheduling policy of a node. -/
structure PolicyView where
  loaded : Bool
  quarantined : Bool
  decided : ℕ
  declined : ℕ
  failuresByReason : OrdMap String ℕ
  owningNode : String
  deriving DecidableEq

/-- The size of the store of a node. -/
structure CasStatsView where
  objects : ℕ
  bytes : ℕ
  owningNode : String
  deriving DecidableEq

/-- The state of a job. -/
inductive JobState where
  | queued
  | running
  | succeeded
  | failed
  deriving DecidableEq

/-- A job of the history of a node. -/
structure JobSummary where
  jobId : String
  tenant : String
  actionDigest : String
  state : JobState
  workerId : Option String
  exitCode : Option ℤ
  completedAtUnixMs : ℕ
  owningNode : String
  deriving DecidableEq

/-! ## Snapshots -/

/-- The state of one node. -/
structure NodeState where
  node : NodeView
  workers : List WorkerView
  policy : PolicyView
  cas : CasStatsView
  jobs : List JobSummary
  deriving DecidableEq

/-- The result of asking a peer for its state. -/
inductive PeerOutcome where
  | answered (state : NodeState)
  | unreachable (nodeId advertiseAddr : String)
  deriving DecidableEq

/-- The cluster, from every node that answered. -/
structure ClusterSnapshot where
  nodes : List NodeView
  workers : List WorkerView
  policies : List PolicyView
  cas : List CasStatsView
  jobs : List JobSummary
  leaderId : Option String
  degraded : Bool
  asOf : Option ℕ
  deriving DecidableEq

/-- The leader: the only reachable node that claims leadership at the highest term of
the reachable nodes. -/
def elect (nodes : List NodeView) : Option String :=
  let highestTerm := ((nodes.filter fun n => n.reachable).map NodeView.term).foldl max 0
  match nodes.filter fun n =>
      n.reachable && decide (n.role = .leader) && decide (n.term = highestTerm) with
  | [only] => some only.nodeId
  | _ => none

/-- What an outcome adds to the collections of a snapshot. -/
def PeerOutcome.nodeView : PeerOutcome → NodeView
  | .answered state => state.node
  | .unreachable nodeId advertiseAddr => unreachableNodeView nodeId advertiseAddr

/-- The states of the peers that answered. -/
def PeerOutcome.state? : PeerOutcome → Option NodeState
  | .answered state => some state
  | .unreachable _ _ => none

/-- Sort by a key, keeping the order of equal keys. -/
def sortBy {α κ : Type} [LinearOrder κ] (key : α → κ) (l : List α) : List α :=
  l.insertionSort fun a b => key a ≤ key b

/-- The order of jobs: the newest first, then by id. -/
def jobKey (j : JobSummary) : Lex (ℕᵒᵈ × String) :=
  toLex (OrderDual.toDual j.completedAtUnixMs, j.jobId)

/-- Merge the state of this node with the outcomes of its peers. -/
def merge (localState : NodeState) (peers : List PeerOutcome) (asOf : ℕ) : ClusterSnapshot :=
  let states := localState :: peers.filterMap PeerOutcome.state?
  let nodes := sortBy NodeView.nodeId (localState.node :: peers.map PeerOutcome.nodeView)
  let anySilent := peers.any fun o => o.state?.isNone
  let leaderId := elect nodes
  let standalone := (nodes.filter fun n => n.reachable).all fun n => decide (n.role = .standalone)
  { nodes := nodes
    workers := sortBy WorkerView.workerId (states.flatMap NodeState.workers)
    policies := sortBy PolicyView.owningNode (states.map NodeState.policy)
    cas := sortBy CasStatsView.owningNode (states.map NodeState.cas)
    jobs := sortBy jobKey (states.flatMap NodeState.jobs)
    leaderId := leaderId
    degraded := anySilent || (!standalone && leaderId.isNone)
    asOf := some asOf }

/-! ## Events -/

/-- Something that changed between two snapshots. -/
inductive ClusterEvent where
  | snapshot (s : ClusterSnapshot)
  | nodeUnreachable (nodeId : String)
  | nodeRecovered (nodeId : String)
  | workerAdded (workerId owningNode : String)
  | workerRemoved (workerId owningNode : String)
  | workerStale (workerId owningNode : String)
  | policyQuarantined (owningNode : String)
  | policyRecovered (owningNode : String)
  | leaderChanged (fromNode toNode : Option String)
  deriving DecidableEq

/-- Reachability transitions of a node. -/
def nodeDelta (prev : ClusterSnapshot) (n : NodeView) : List ClusterEvent :=
  match prev.nodes.find? fun p => decide (p.nodeId = n.nodeId) with
  | some p =>
    if p.reachable && !n.reachable then [.nodeUnreachable n.nodeId]
    else if !p.reachable && n.reachable then [.nodeRecovered n.nodeId]
    else []
  | none => []

/-- A worker that is new, or newly stale. -/
def workerDelta (prev : ClusterSnapshot) (w : WorkerView) : List ClusterEvent :=
  match prev.workers.find? fun p => decide (p.workerId = w.workerId) with
  | none => [.workerAdded w.workerId w.owningNode]
  | some p => if !p.stale && w.stale then [.workerStale w.workerId w.owningNode] else []

/-- A worker that is gone. -/
def removedDelta (next : ClusterSnapshot) (w : WorkerView) : List ClusterEvent :=
  if next.workers.any fun n => decide (n.workerId = w.workerId) then []
  else [.workerRemoved w.workerId w.owningNode]

/-- Quarantine transitions of a policy. -/
def policyDelta (prev : ClusterSnapshot) (p : PolicyView) : List ClusterEvent :=
  match prev.policies.find? fun b => decide (b.owningNode = p.owningNode) with
  | some before =>
    if !before.quarantined && p.quarantined then [.policyQuarantined p.owningNode]
    else if before.quarantined && !p.quarantined then [.policyRecovered p.owningNode]
    else []
  | none => []

/-- A change of leadership. -/
def leaderDelta (prev next : ClusterSnapshot) : List ClusterEvent :=
  if prev.leaderId ≠ next.leaderId then [.leaderChanged prev.leaderId next.leaderId] else []

/-- Everything that changed between two snapshots, in a fixed order. -/
def diff (prev next : ClusterSnapshot) : List ClusterEvent :=
  next.nodes.flatMap (nodeDelta prev) ++ next.workers.flatMap (workerDelta prev) ++
    prev.workers.flatMap (removedDelta next) ++ next.policies.flatMap (policyDelta prev) ++
    leaderDelta prev next

/-! ## Clients -/

/-- What a client knows of the cluster. -/
@[ext]
structure Client where
  reachable : String → Option Bool
  worker : String → Option (String × Bool)
  quarantined : String → Bool
  leader : Option String

variable {n : NodeView} {w : WorkerView} {p : PolicyView} {c : Client}

namespace Client

/-- What a snapshot shows. -/
def of (s : ClusterSnapshot) : Client where
  reachable id := (s.nodes.find? fun n => decide (n.nodeId = id)).map NodeView.reachable
  worker id := (s.workers.find? fun w => decide (w.workerId = id)).map fun w =>
    (w.owningNode, w.stale)
  quarantined id := s.policies.any fun p => decide (p.owningNode = id) && p.quarantined
  leader := s.leaderId

/-- What an event tells a client: a worker that appears has just been heard from, and
a worker that goes stale is in the registry of the named node. -/
def apply (c : Client) : ClusterEvent → Client
  | .snapshot s => of s
  | .nodeUnreachable id => { c with reachable := update c.reachable id (some false) }
  | .nodeRecovered id => { c with reachable := update c.reachable id (some true) }
  | .workerAdded id owner => { c with worker := update c.worker id (some (owner, false)) }
  | .workerRemoved id _ => { c with worker := update c.worker id none }
  | .workerStale id owner => { c with worker := update c.worker id (some (owner, true)) }
  | .policyQuarantined id => { c with quarantined := update c.quarantined id true }
  | .policyRecovered id => { c with quarantined := update c.quarantined id false }
  | .leaderChanged _ toNode => { c with leader := toNode }

/-- Apply events in order. -/
def replay (c : Client) (events : List ClusterEvent) : Client := events.foldl apply c

theorem replay_append (c : Client) (l m : List ClusterEvent) :
    c.replay (l ++ m) = (c.replay l).replay m :=
  foldl_append

theorem replay_flatMap {ι : Type} (c : Client) (l : List ι) (delta : ι → List ClusterEvent) :
    c.replay (l.flatMap delta) = l.foldl (fun c i => c.replay (delta i)) c := by
  induction l generalizing c with
  | nil => rfl
  | cons i l ih => rw [flatMap_cons, replay_append, ih, foldl_cons]

end Client

/-! ## What each event is about -/

/-- The part of the client's world that an event is about. -/
inductive Topic where
  | world
  | node
  | worker
  | policy
  | leader
  deriving DecidableEq

/-- The topic of an event. -/
def ClusterEvent.topic : ClusterEvent → Topic
  | .snapshot _ => .world
  | .nodeUnreachable _ | .nodeRecovered _ => .node
  | .workerAdded _ _ | .workerRemoved _ _ | .workerStale _ _ => .worker
  | .policyQuarantined _ | .policyRecovered _ => .policy
  | .leaderChanged _ _ => .leader

/-- Every event is on the topic. -/
def OnTopic (t : Topic) (events : List ClusterEvent) : Prop := ∀ e ∈ events, e.topic = t

theorem OnTopic.flatMap {ι : Type} {t : Topic} {delta : ι → List ClusterEvent}
    (h : ∀ i, OnTopic t (delta i)) (l : List ι) : OnTopic t (l.flatMap delta) := by
  intro e he
  obtain ⟨i, -, hi⟩ := mem_flatMap.1 he
  exact h i e hi

theorem onTopic_nodeDelta (prev : ClusterSnapshot) (n : NodeView) :
    OnTopic .node (nodeDelta prev n) := by
  unfold nodeDelta
  split
  · split_ifs <;> simp [OnTopic, ClusterEvent.topic]
  · simp [OnTopic]

theorem onTopic_workerDelta (prev : ClusterSnapshot) (w : WorkerView) :
    OnTopic .worker (workerDelta prev w) := by
  unfold workerDelta
  split
  · simp [OnTopic, ClusterEvent.topic]
  · split_ifs <;> simp [OnTopic, ClusterEvent.topic]

theorem onTopic_removedDelta (next : ClusterSnapshot) (w : WorkerView) :
    OnTopic .worker (removedDelta next w) := by
  unfold removedDelta
  split_ifs <;> simp [OnTopic, ClusterEvent.topic]

theorem onTopic_policyDelta (prev : ClusterSnapshot) (p : PolicyView) :
    OnTopic .policy (policyDelta prev p) := by
  unfold policyDelta
  split
  · split_ifs <;> simp [OnTopic, ClusterEvent.topic]
  · simp [OnTopic]

theorem onTopic_leaderDelta (prev next : ClusterSnapshot) :
    OnTopic .leader (leaderDelta prev next) := by
  unfold leaderDelta
  split_ifs <;> simp [OnTopic, ClusterEvent.topic]

/-- Clients that differ at most in the part that a topic is about. -/
structure SameBut (t : Topic) (c d : Client) : Prop where
  reachable : t ≠ .node → d.reachable = c.reachable
  worker : t ≠ .worker → d.worker = c.worker
  quarantined : t ≠ .policy → d.quarantined = c.quarantined
  leader : t ≠ .leader → d.leader = c.leader

theorem Client.sameBut_apply (c : Client) {e : ClusterEvent} (he : e.topic ≠ .world) :
    SameBut e.topic c (c.apply e) := by
  cases e with
  | snapshot => exact absurd rfl he
  | nodeUnreachable | nodeRecovered =>
    exact ⟨fun h => absurd rfl h, fun _ => rfl, fun _ => rfl, fun _ => rfl⟩
  | workerAdded | workerRemoved | workerStale =>
    exact ⟨fun _ => rfl, fun h => absurd rfl h, fun _ => rfl, fun _ => rfl⟩
  | policyQuarantined | policyRecovered =>
    exact ⟨fun _ => rfl, fun _ => rfl, fun h => absurd rfl h, fun _ => rfl⟩
  | leaderChanged => exact ⟨fun _ => rfl, fun _ => rfl, fun _ => rfl, fun h => absurd rfl h⟩

theorem OnTopic.sameBut_replay {t : Topic} {events : List ClusterEvent} (h : OnTopic t events)
    (ht : t ≠ .world) (c : Client) : SameBut t c (c.replay events) := by
  induction events generalizing c with
  | nil => exact ⟨fun _ => rfl, fun _ => rfl, fun _ => rfl, fun _ => rfl⟩
  | cons e events ih =>
    obtain ⟨rfl, hrest⟩ := forall_mem_cons.1 h
    have hone := c.sameBut_apply ht
    have hmany := ih hrest (c.apply e)
    exact ⟨fun hne => (hmany.reachable hne).trans (hone.reachable hne),
      fun hne => (hmany.worker hne).trans (hone.worker hne),
      fun hne => (hmany.quarantined hne).trans (hone.quarantined hne),
      fun hne => (hmany.leader hne).trans (hone.leader hne)⟩

/-! ## The effect of each part of a difference -/

section Deltas

variable {prev next : ClusterSnapshot} {k : String}

theorem reachable_nodeDelta_of_ne (hk : k ≠ n.nodeId) :
    (c.replay (nodeDelta prev n)).reachable k = c.reachable k := by
  unfold nodeDelta
  split
  · split_ifs <;> simp [Client.replay, Client.apply, hk]
  · rfl

theorem reachable_nodeDelta (hn : n.nodeId ∈ prev.nodes.map NodeView.nodeId)
    (hc : c.reachable n.nodeId = (Client.of prev).reachable n.nodeId) :
    (c.replay (nodeDelta prev n)).reachable n.nodeId = some n.reachable := by
  cases hp : prev.nodes.find? fun p => decide (p.nodeId = n.nodeId) with
  | none => exact absurd hn (find?_key_eq_none.1 hp)
  | some p =>
    simp only [Client.of, hp, Option.map_some] at hc
    simp only [nodeDelta, hp]
    cases hpr : p.reachable <;> cases hnr : n.reachable <;>
      simp [Client.replay, Client.apply, hc, hpr]

theorem worker_workerDelta_of_ne (hk : k ≠ w.workerId) :
    (c.replay (workerDelta prev w)).worker k = c.worker k := by
  unfold workerDelta
  split
  · simp [Client.replay, Client.apply, hk]
  · split_ifs <;> simp [Client.replay, Client.apply, hk]

theorem worker_removedDelta_of_ne (hk : k ≠ w.workerId) :
    (c.replay (removedDelta next w)).worker k = c.worker k := by
  unfold removedDelta
  split_ifs <;> simp [Client.replay, Client.apply, hk]

theorem worker_removedDelta (w : WorkerView) : (c.replay (removedDelta next w)).worker w.workerId =
      if w.workerId ∈ next.workers.map WorkerView.workerId then c.worker w.workerId else none := by
  have hany : (next.workers.any fun n => decide (n.workerId = w.workerId)) =
      decide (w.workerId ∈ next.workers.map WorkerView.workerId) := by
    simp [any_eq, mem_map]
  by_cases h : w.workerId ∈ next.workers.map WorkerView.workerId
  · rw [if_pos h, removedDelta, hany, decide_eq_true h, if_pos rfl]
    rfl
  · rw [if_neg h, removedDelta, hany, decide_eq_false h, if_neg Bool.false_ne_true]
    simp [Client.replay, Client.apply]

theorem quarantined_policyDelta_of_ne (hk : k ≠ p.owningNode) :
    (c.replay (policyDelta prev p)).quarantined k = c.quarantined k := by
  unfold policyDelta
  split
  · split_ifs <;> simp [Client.replay, Client.apply, hk]
  · rfl

theorem leader_leaderDelta (hc : c.leader = prev.leaderId) :
    (c.replay (leaderDelta prev next)).leader = next.leaderId := by
  unfold leaderDelta
  split_ifs with h
  · rfl
  · rw [not_not] at h
    exact hc.trans h

end Deltas

/-! ## Changes that the events tell -/

/-- The changes between two polls that the events can tell: the cluster has the same
nodes, a worker that appears is not stale yet, one that stays keeps its owner and its
staleness unless it goes stale, and a quarantined policy was reported, and stays
reported, by its node. -/
structure Told (prev next : ClusterSnapshot) : Prop where
  sameNodes : ∀ id, id ∈ prev.nodes.map NodeView.nodeId ↔ id ∈ next.nodes.map NodeView.nodeId
  nodesNodup : (next.nodes.map NodeView.nodeId).Nodup
  prevWorkersNodup : (prev.workers.map WorkerView.workerId).Nodup
  workersNodup : (next.workers.map WorkerView.workerId).Nodup
  prevPoliciesNodup : (prev.policies.map PolicyView.owningNode).Nodup
  policiesNodup : (next.policies.map PolicyView.owningNode).Nodup
  appears : ∀ w ∈ next.workers, w.workerId ∉ prev.workers.map WorkerView.workerId → w.stale = false
  stays : ∀ p ∈ prev.workers, ∀ w ∈ next.workers, p.workerId = w.workerId →
    (p.owningNode = w.owningNode ∧ p.stale = w.stale) ∨ (p.stale = false ∧ w.stale = true)
  reported : ∀ p ∈ next.policies, p.quarantined = true →
    p.owningNode ∈ prev.policies.map PolicyView.owningNode
  staysReported : ∀ p ∈ prev.policies, p.quarantined = true →
    p.owningNode ∈ next.policies.map PolicyView.owningNode

/-! ### What a snapshot shows -/

section Shown

variable {s : ClusterSnapshot} {k : String}

theorem reachable_of_mem (hs : (s.nodes.map NodeView.nodeId).Nodup) (hn : n ∈ s.nodes) :
    (Client.of s).reachable n.nodeId = some n.reachable := by
  simp only [Client.of, find?_key_eq_some hs hn, Option.map_some]

theorem reachable_of_not_mem (hk : k ∉ s.nodes.map NodeView.nodeId) :
    (Client.of s).reachable k = none := by
  simp only [Client.of, find?_key_eq_none.2 hk, Option.map_none]

theorem worker_of_mem (hs : (s.workers.map WorkerView.workerId).Nodup) (hw : w ∈ s.workers) :
    (Client.of s).worker w.workerId = some (w.owningNode, w.stale) := by
  simp only [Client.of, find?_key_eq_some hs hw, Option.map_some]

theorem worker_of_not_mem (hk : k ∉ s.workers.map WorkerView.workerId) :
    (Client.of s).worker k = none := by
  simp only [Client.of, find?_key_eq_none.2 hk, Option.map_none]

theorem quarantined_of_mem (hs : (s.policies.map PolicyView.owningNode).Nodup) (hp : p ∈ s.policies)
    : (Client.of s).quarantined p.owningNode = p.quarantined := by
  rw [Bool.eq_iff_iff]
  simp only [Client.of, any_eq_true, Bool.and_eq_true, decide_eq_true_eq]
  constructor
  · rintro ⟨q, hq, howner, hquarantined⟩
    rwa [← inj_on_of_nodup_map hs hq hp howner]
  · intro hquarantined
    exact ⟨p, hp, rfl, hquarantined⟩

theorem quarantined_of_not_mem (hk : k ∉ s.policies.map PolicyView.owningNode) :
    (Client.of s).quarantined k = false := by
  rw [Bool.eq_false_iff]
  simp only [Client.of, ne_eq, any_eq_true, Bool.and_eq_true, decide_eq_true_eq]
  rintro ⟨q, hq, rfl, -⟩
  exact hk (mem_map_of_mem hq)

end Shown

namespace Told

variable {prev next : ClusterSnapshot}

variable (h : Told prev next)

include h

theorem reachable_replay (hc : c.reachable = (Client.of prev).reachable) :
    (c.replay (next.nodes.flatMap (nodeDelta prev))).reachable = (Client.of next).reachable := by
  rw [Client.replay_flatMap]
  refine get_foldl_keyed Client.reachable NodeView.nodeId
    (fun _ _ _ hk => reachable_nodeDelta_of_ne hk) h.nodesNodup ?_ ?_ hc
  · intro n hn d hd
    rw [reachable_of_mem h.nodesNodup hn]
    exact reachable_nodeDelta ((h.sameNodes _).2 (mem_map_of_mem hn)) hd
  · intro k hk
    rw [reachable_of_not_mem hk, reachable_of_not_mem fun hmem => hk ((h.sameNodes k).1 hmem)]

/-- After the workers of the new snapshot and before the ones that are gone. -/
def midway (prev next : ClusterSnapshot) (k : String) : Option (String × Bool) :=
  if k ∈ next.workers.map WorkerView.workerId then (Client.of next).worker k
  else (Client.of prev).worker k

theorem worker_workerDelta (hw : w ∈ next.workers)
    (hc : c.worker w.workerId = (Client.of prev).worker w.workerId) :
    (c.replay (workerDelta prev w)).worker w.workerId = some (w.owningNode, w.stale) := by
  cases hp : prev.workers.find? fun p => decide (p.workerId = w.workerId) with
  | none =>
    have hfresh : w.stale = false := h.appears w hw (find?_key_eq_none.1 hp)
    simp [workerDelta, hp, Client.replay, Client.apply, hfresh]
  | some p =>
    obtain ⟨hmem, hid⟩ := key_of_find? hp
    simp only [Client.of, hp, Option.map_some] at hc
    rcases h.stays p hmem w hw hid with ⟨howner, hstale⟩ | ⟨hnot, hstale⟩
    · simp [workerDelta, hp, hstale, Client.replay, hc, howner]
    · simp [workerDelta, hp, hnot, hstale, Client.replay, Client.apply]

theorem worker_replay_next (hc : c.worker = (Client.of prev).worker) :
    (c.replay (next.workers.flatMap (workerDelta prev))).worker = midway prev next := by
  rw [Client.replay_flatMap]
  refine get_foldl_keyed Client.worker WorkerView.workerId
    (fun _ _ _ hk => worker_workerDelta_of_ne hk) h.workersNodup ?_ ?_ hc
  · intro w hw d hd
    rw [midway, if_pos (mem_map_of_mem hw), worker_of_mem h.workersNodup hw]
    exact h.worker_workerDelta hw hd
  · intro k hk
    rw [midway, if_neg hk]

theorem worker_replay_prev (hc : c.worker = midway prev next) :
    (c.replay (prev.workers.flatMap (removedDelta next))).worker = (Client.of next).worker := by
  rw [Client.replay_flatMap]
  refine get_foldl_keyed Client.worker WorkerView.workerId
    (fun _ _ _ hk => worker_removedDelta_of_ne hk) h.prevWorkersNodup ?_ ?_ hc
  · intro w hw d hd
    rw [worker_removedDelta, hd, midway]
    split_ifs with hmem
    · rfl
    · rw [worker_of_not_mem hmem]
  intro k hk
  rw [midway]
  split_ifs with hmem
  · rfl
  · rw [worker_of_not_mem hk, worker_of_not_mem hmem]

theorem quarantined_policyDelta (hp : p ∈ next.policies)
    (hc : c.quarantined p.owningNode = (Client.of prev).quarantined p.owningNode) :
    (c.replay (policyDelta prev p)).quarantined p.owningNode = p.quarantined := by
  cases hb : prev.policies.find? fun b => decide (b.owningNode = p.owningNode) with
  | none =>
    have hnew := find?_key_eq_none.1 hb
    have hclear : p.quarantined = false := by
      rw [Bool.eq_false_iff]
      exact fun hq => hnew (h.reported p hp hq)
    rw [quarantined_of_not_mem hnew] at hc
    simp [policyDelta, hb, Client.replay, hc, hclear]
  | some b =>
    obtain ⟨hmem, howner⟩ := key_of_find? hb
    rw [← howner, quarantined_of_mem h.prevPoliciesNodup hmem, howner] at hc
    simp only [policyDelta, hb]
    cases hbq : b.quarantined <;> cases hpq : p.quarantined <;>
      simp [Client.replay, Client.apply, hc, hbq]

theorem quarantined_replay (hc : c.quarantined = (Client.of prev).quarantined)
    : (c.replay (next.policies.flatMap (policyDelta prev))).quarantined =
      (Client.of next).quarantined := by
  rw [Client.replay_flatMap]
  refine get_foldl_keyed Client.quarantined PolicyView.owningNode
    (fun _ _ _ hk => quarantined_policyDelta_of_ne hk) h.policiesNodup ?_ ?_ hc
  · intro p hp d hd
    rw [quarantined_of_mem h.policiesNodup hp]
    exact h.quarantined_policyDelta hp hd
  intro k hk
  rw [quarantined_of_not_mem hk, Bool.eq_false_iff]
  intro hq
  simp only [Client.of, any_eq_true, Bool.and_eq_true, decide_eq_true_eq] at hq
  obtain ⟨p, hp, rfl, hpq⟩ := hq
  exact hk (h.staysReported p hp hpq)

theorem replay_diff :
    (Client.of prev).replay (diff prev next) = Client.of next := by
  simp only [diff, Client.replay_append]
  -- One client per part of the difference, each equal to the one before but for its topic.
  set c₁ := (Client.of prev).replay (next.nodes.flatMap (nodeDelta prev)) with hc₁
  set c₂ := c₁.replay (next.workers.flatMap (workerDelta prev)) with hc₂
  set c₃ := c₂.replay (prev.workers.flatMap (removedDelta next)) with hc₃
  set c₄ := c₃.replay (next.policies.flatMap (policyDelta prev)) with hc₄
  have h₁ : SameBut .node (Client.of prev) c₁ :=
    (OnTopic.flatMap (onTopic_nodeDelta prev) _).sameBut_replay (by decide) _
  have h₂ : SameBut .worker c₁ c₂ :=
    (OnTopic.flatMap (onTopic_workerDelta prev) _).sameBut_replay (by decide) _
  have h₃ : SameBut .worker c₂ c₃ :=
    (OnTopic.flatMap (onTopic_removedDelta next) _).sameBut_replay (by decide) _
  have h₄ : SameBut .policy c₃ c₄ :=
    (OnTopic.flatMap (onTopic_policyDelta prev) _).sameBut_replay (by decide) _
  have h₅ : SameBut .leader c₄ (c₄.replay (leaderDelta prev next)) :=
    (onTopic_leaderDelta prev next).sameBut_replay (by decide) _
  have hreachable : c₁.reachable = (Client.of next).reachable := h.reachable_replay rfl
  have hmid : c₂.worker = midway prev next := h.worker_replay_next (h₁.worker (by decide))
  have hworker : c₃.worker = (Client.of next).worker := h.worker_replay_prev hmid
  apply Client.ext
  · rw [h₅.reachable (by decide), h₄.reachable (by decide), h₃.reachable (by decide),
      h₂.reachable (by decide), hreachable]
  · rw [h₅.worker (by decide), h₄.worker (by decide), hworker]
  · rw [h₅.quarantined (by decide)]
    apply h.quarantined_replay
    rw [h₃.quarantined (by decide), h₂.quarantined (by decide), h₁.quarantined (by decide)]
  · apply leader_leaderDelta
    rw [h₄.leader (by decide), h₃.leader (by decide), h₂.leader (by decide), h₁.leader (by decide)]
    rfl

end Told

/-! ## Histories -/

/-- The events of a history of polls: the difference of each poll to the one before. -/
def deltas : ClusterSnapshot → List ClusterSnapshot → List ClusterEvent
  | _, [] => []
  | s, t :: rest => diff s t ++ deltas t rest

/-- A client that starts from the first of a history of snapshots and applies the events
ends at the last one, if the events can tell every change of the history. -/
theorem replay_deltas (s : ClusterSnapshot) (rest : List ClusterSnapshot)
    (h : (s :: rest).IsChain Told) : (Client.of s).replay (deltas s rest) =
      Client.of ((s :: rest).getLast (cons_ne_nil s rest)) := by
  induction rest generalizing s with
  | nil => rfl
  | cons t rest ih =>
    rw [isChain_cons_cons] at h
    rw [deltas, Client.replay_append, h.1.replay_diff, ih t h.2]
    rfl

/-- The state of a node without jobs. -/
def sampleState (workers : List WorkerView) (role : RaftRole) (quarantined : Bool) :
    NodeState where
  node :=
    { nodeId := "n", advertiseAddr := "n:7878", role := role, term := 7, commitIndex := 42,
      lastApplied := 42, reachable := true, lastSeenSecs := 0 }
  workers := workers
  policy :=
    { loaded := true, quarantined := quarantined, decided := 5, declined := 1,
      failuresByReason := ∅, owningNode := "n" }
  cas := { objects := 10, bytes := 1000, owningNode := "n" }
  jobs := []

/-- The poll of a node without peers. -/
def samplePoll (workers : List WorkerView) (role : RaftRole) (quarantined : Bool) :
    ClusterSnapshot :=
  merge (sampleState workers role quarantined) [] 1700000000

/-- A worker of the node. -/
def sampleWorker (stale : Bool) : WorkerView where
  workerId := "w"
  hostname := "w"
  labels := ∅
  inflight := 0
  lastSeenSecs := 0
  stale := stale
  owningNode := "n"

/-- A worker appears and goes stale, while the node wins an election and its policy is
quarantined for a while. -/
theorem replay_deltas_sample : (Client.of (samplePoll [] .unknown false)).replay
        (deltas (samplePoll [] .unknown false)
          [samplePoll [sampleWorker false] .leader true,
            samplePoll [sampleWorker true] .leader false]) =
      Client.of (samplePoll [sampleWorker true] .leader false) := by
  apply replay_deltas
  refine .cons_cons ?_ (.cons_cons ?_ (.singleton _))
  all_goals
    constructor
    · intro id
      rfl
    all_goals decide +kernel

/-- A stale worker that is heard from again is not an event, so a client goes on
believing that it is stale. -/
theorem untold_recovery : (samplePoll [sampleWorker true] .leader false).nodes.map NodeView.nodeId =
        (samplePoll [sampleWorker false] .leader false).nodes.map NodeView.nodeId ∧
      diff (samplePoll [sampleWorker true] .leader false)
        (samplePoll [sampleWorker false] .leader false) = [] ∧
      (Client.of (samplePoll [sampleWorker true] .leader false)).replay
          (deltas (samplePoll [sampleWorker true] .leader false)
            [samplePoll [sampleWorker false] .leader false]) ≠
        Client.of (samplePoll [sampleWorker false] .leader false) := by
  refine ⟨by decide +kernel, by decide +kernel, fun heq => ?_⟩
  have hworker := congrArg (fun c => c.worker "w") heq
  revert hworker
  decide +kernel

end Brokkr.Cluster
