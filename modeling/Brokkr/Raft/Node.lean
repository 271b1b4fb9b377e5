import Brokkr.Raft.Storage

/-!
# The Raft node: state, configurations, elections and voting

The state of `RaftNode` (`node.rs`) and its start-up, timer, term and voting
logic.  A method that mutates the node is a function from the node to the node
after the call; what it returns is paired with it.  Reads of the store are total:
the storage errors of redb are not modelled.

* `ConfigTracker` — the configurations visible in the log; `active` is the one
  every decision uses.
* `RaftNode.withBootstrap` — recovery from the store at start-up.
* `RaftNode.observeTerm` — adopt a higher term, durably.
* `RaftNode.handleRequestVote` — leader stickiness, the one-vote rule and the
  election restriction.
-/

namespace Brokkr.Raft

/-! ## Configurations visible in the log -/

/-- The cluster configurations visible in the log. A server uses the latest
configuration in its log, committed or not. -/
structure ConfigTracker where
  base : ClusterConfig
  baseIndex : ℕ
  inLog : List (ℕ × ClusterConfig)
  deriving DecidableEq, Inhabited

namespace ConfigTracker

/-- A tracker that knows only its base. -/
def new (base : ClusterConfig) (baseIndex : ℕ) : ConfigTracker :=
  { base := base, baseIndex := baseIndex, inLog := [] }

/-- The configuration currently in force. -/
def active (t : ConfigTracker) : ClusterConfig :=
  match t.inLog.getLast? with
  | some (_, c) => c
  | none => t.base

variable (t : ConfigTracker)

/-- The index of the entry that produced the active configuration. -/
def latestIndex : ℕ :=
  match t.inLog.getLast? with
  | some (i, _) => i
  | none => t.baseIndex

/-- The configuration in effect at `index`. -/
def configAt (index : ℕ) : ClusterConfig :=
  match t.inLog.reverse.find? (fun p => decide (p.1 ≤ index)) with
  | some (_, c) => c
  | none => t.base

/-- Record a configuration entry appended at `index`. -/
def onAppend (index : ℕ) (config : ClusterConfig) : ConfigTracker :=
  { t with inLog := t.inLog.filter (fun p => decide (p.1 < index)) ++ [(index, config)] }

/-- Truncating the suffix from `start` rolls its configurations back. -/
def onTruncate (start : ℕ) : ConfigTracker :=
  { t with inLog := t.inLog.filter (fun p => decide (p.1 < start)) }

/-- Fold every configuration entry a snapshot at `upTo` covers into the base. -/
def onCompact (upTo : ℕ) : ConfigTracker :=
  { base := t.configAt upTo
    baseIndex := upTo
    inLog := t.inLog.filter (fun p => decide (upTo < p.1)) }

/-- Adopt an installed snapshot's configuration as the new base. -/
def onInstallSnapshot (config : ClusterConfig) (index : ℕ)
    (logWiped : Bool) : ConfigTracker :=
  { base := if !config.voters.isEmpty then config else t.base
    baseIndex := index
    inLog := if logWiped then [] else t.inLog.filter (fun p => decide (index < p.1)) }

/-- Configurations apply the moment they are appended: record every
configuration entry among `entries`. -/
def noteAppendedConfigs (entries : List LogEntry) : ConfigTracker :=
  entries.foldl (fun t entry =>
    match entry.payload with
    | .config c => t.onAppend entry.index c
    | _ => t) t

/-- The base a node starts with: the snapshot's configuration, or the bootstrap
one if that is unknown. -/
def fromSnapshot (bootstrap : ClusterConfig) : Option SnapshotMeta → ConfigTracker
  | some m =>
    if !m.config.voters.isEmpty then new m.config m.lastIncludedIndex
    else new bootstrap m.lastIncludedIndex
  | none => new bootstrap 0

/-- The tracker a node starts with: the snapshot's configuration, then the
configuration entries surviving in the log. -/
def recover (bootstrap : ClusterConfig) (db : Db) : ConfigTracker :=
  let configs := fromSnapshot bootstrap db.snapshotMeta
  if db.firstIndex ≠ 0 then configs.noteAppendedConfigs (db.entriesFrom db.firstIndex)
  else configs

end ConfigTracker

/-! ## Roles and messages -/

/-- A linearizable read waiting for leadership confirmation. -/
structure PendingRead where
  id : ℕ
  readIndex : ℕ
  confirmSeq : ℕ
  acks : OrdSet NodeId
  deriving DecidableEq, Inhabited

/-- Per-peer replication bookkeeping a leader keeps. -/
structure LeaderState where
  nextIndex : OrdMap NodeId ℕ
  matchIndex : OrdMap NodeId ℕ
  aeSeq : ℕ
  termStartIndex : ℕ
  pendingReads : List PendingRead
  deriving DecidableEq, Inhabited

/-- The server's current role. -/
inductive Role where
  | follower
  | candidate (votes : OrdSet NodeId)
  | leader (state : LeaderState)
  deriving DecidableEq, Inhabited

/-- A message the node wants sent to a peer. -/
inductive Outbound where
  | requestVote (peer : NodeId) (request : RequestVote)
  | appendEntries (peer : NodeId) (request : AppendEntries)
  | installSnapshot (peer : NodeId) (request : InstallSnapshot)
  deriving DecidableEq

/-! ## The node -/

/-- A Raft node: the consensus state machine for one server. -/
structure RaftNode where
  id : NodeId
  configs : ConfigTracker
  role : Role
  log : RaftLog
  hard : HardState
  commitIndex : ℕ
  snapshot : Option SnapshotMeta
  leaderId : Option NodeId
  lastLeaderContact : Option Instant
  rng : Rng
  config : Config
  electionDeadline : Instant
  heartbeatDeadline : Instant
  readSeq : ℕ
  readResults : List (ℕ × Except RaftError ℕ)

/-- A node after a call, and the messages to send or the error. -/
abbrev Outcome := RaftNode × Except RaftError (List Outbound)

/-- `let mut outs = r?; outs.extend(f()?); Ok(outs)`. -/
def Outcome.extend (r : Outcome) (f : RaftNode → Outcome) : Outcome :=
  match r with
  | (n, .error e) => (n, .error e)
  | (n, .ok outs) =>
    match f n with
    | (n, .error e) => (n, .error e)
    | (n, .ok more) => (n, .ok (outs ++ more))

namespace RaftNode

/-! ### Accessors -/

variable (n : RaftNode)

/-- Does this node currently believe it is the leader? -/
def isLeader : Bool :=
  match n.role with
  | .leader _ => true
  | _ => false

/-- The index of the last entry the current snapshot covers (`0` if none). -/
def snapshotIndex : ℕ :=
  match n.snapshot with
  | some m => m.lastIncludedIndex
  | none => 0

/-- The index of this node's last log entry. -/
def lastLogIndex : ℕ := n.log.db.lastIndex

/-- Everyone the leader replicates to: voters of both configurations plus
learners, excluding self. -/
def replicationTargets : List NodeId :=
  let active := n.configs.active
  let members := match active.oldVoters with
    | some old => active.voters.union old
    | none => active.voters
  ((members.union active.learners).erase n.id).toList

/-- Everyone whose vote can count, excluding self. -/
def voteTargets : List NodeId :=
  let active := n.configs.active
  let voters := match active.oldVoters with
    | some old => active.voters.union old
    | none => active.voters
  (voters.erase n.id).toList

/-- The term at `index`: from the log, or from the snapshot when `index` is
exactly its last included index. -/
def termAt (index : ℕ) : Option ℕ :=
  match n.log.db.get index with
  | some entry => some entry.term
  | none =>
    match n.snapshot with
    | some info => if info.lastIncludedIndex = index then some info.lastIncludedTerm else none
    | none => none

/-- May this node vote and campaign under the active configuration? -/
def isVoter : Bool :=
  let active := n.configs.active
  decide (n.id ∈ active.voters) ||
    match active.oldVoters with
    | some old => decide (n.id ∈ old)
    | none => false

/-! ### Timers and start-up -/

/-- Re-arm the randomized election timer. -/
def armElectionTimer (now : Instant) : RaftNode :=
  let timeout := n.rng.electionTimeout n.config.minElectionTimeout n.config.maxElectionTimeout
  { n with rng := timeout.2, electionDeadline := now + timeout.1 }

/-- Re-arm the heartbeat timer. -/
def armHeartbeatTimer (now : Instant) : RaftNode :=
  { n with heartbeatDeadline := now + n.config.heartbeatInterval }

variable (id : NodeId)

/-- Create a follower, recovering everything durable from `log`. -/
def withBootstrap (bootstrap : ClusterConfig) (log : RaftLog) (rng : Rng)
    (config : Config) (now : Instant) : RaftNode :=
  let commitFloor := match log.db.snapshotMeta with
    | some m => m.lastIncludedIndex
    | none => 0
  armElectionTimer
    { id := id
      configs := ConfigTracker.recover bootstrap log.db
      role := .follower
      log := log
      hard := log.db.hard
      commitIndex := commitFloor
      snapshot := log.db.snapshotMeta
      leaderId := none
      lastLeaderContact := none
      rng := rng
      config := config
      electionDeadline := now
      heartbeatDeadline := now
      readSeq := 0
      readResults := [] } now

/-- The bootstrap configuration of `RaftNode::new`: `peers` and the node itself
vote. -/
def newBootstrap (peers : List NodeId) : ClusterConfig :=
  ClusterConfig.single ((OrdSet.ofList peers).insert id)

/-- Create a voting member of the bootstrap configuration. -/
def new (peers : List NodeId) (log : RaftLog) (rng : Rng) (config : Config)
    (now : Instant) : RaftNode :=
  withBootstrap id (newBootstrap id peers) log rng config now

/-- The bootstrap configuration of `RaftNode::new_learner`: `voters` vote, the
node itself is a learner. -/
def learnerBootstrap (voters : List NodeId) : ClusterConfig :=
  { voters := OrdSet.ofList voters, oldVoters := none, learners := OrdSet.singleton id }

/-- Create a node that joins as a learner. -/
def newLearner (voters : List NodeId) (log : RaftLog) (rng : Rng)
    (config : Config) (now : Instant) : RaftNode :=
  withBootstrap id (learnerBootstrap id voters) log rng config now

/-! ### Terms -/

/-- Revert to follower; reads still awaiting confirmation fail. -/
def stepDownToFollower : RaftNode :=
  match n.role with
  | .leader state =>
    { n with
      readResults := n.readResults ++
        state.pendingReads.map (fun read => (read.id, .error (.notLeader none)))
      role := .follower }
  | _ => { n with role := .follower }

theorem stepDownToFollower_eq :
    ∃ results, n.stepDownToFollower = { n with readResults := results, role := .follower } := by
  unfold stepDownToFollower
  split
  · exact ⟨_, rfl⟩
  · exact ⟨n.readResults, rfl⟩

/-- If `term` exceeds our own, adopt it, revert to follower and clear the vote,
durably. Returns whether a step-down occurred. -/
def observeTerm (term : ℕ) (now : Instant) : RaftNode × Bool :=
  if n.hard.currentTerm < term then
    let hard := n.hard.steppedTo term
    let n := ({ n with hard := hard } : RaftNode).stepDownToFollower
    let n := { n with leaderId := none, log := n.log.saveHardState hard }
    (n.armElectionTimer now, true)
  else (n, false)

theorem observeTerm_of_lt {n : RaftNode} {term : ℕ} (h : n.hard.currentTerm < term)
    (now : Instant) :
    ∃ results, n.observeTerm term now = (({ n with
          hard := n.hard.steppedTo term
          readResults := results
          role := .follower
          leaderId := none
          log := n.log.saveHardState (n.hard.steppedTo term) } : RaftNode).armElectionTimer now,
        true) := by
  obtain ⟨results, hr⟩ := stepDownToFollower_eq { n with hard := n.hard.steppedTo term }
  refine ⟨results, ?_⟩
  simp only [observeTerm, if_pos h, hr]

theorem observeTerm_of_le {n : RaftNode} {term : ℕ} (h : term ≤ n.hard.currentTerm)
    (now : Instant) : n.observeTerm term now = (n, false) := if_neg (Nat.not_lt.2 h)

theorem observeTerm_eq_self {n : RaftNode} {term : ℕ} {now : Instant}
    (h : ¬ (n.observeTerm term now).2 = true) : (n.observeTerm term now).1 = n := by
  rcases Nat.lt_or_ge n.hard.currentTerm term with hlt | hge
  · obtain ⟨results, hr⟩ := observeTerm_of_lt hlt now
    exact absurd (by rw [hr]) h
  · rw [observeTerm_of_le hge]

theorem currentTerm_le_observeTerm (term : ℕ) (now : Instant) :
    n.hard.currentTerm ≤ (n.observeTerm term now).1.hard.currentTerm := by
  rcases Nat.lt_or_ge n.hard.currentTerm term with hlt | hge
  · obtain ⟨results, hr⟩ := observeTerm_of_lt hlt now
    rw [hr]
    exact hlt.le
  · rw [observeTerm_of_le hge]

/-! ### Voting -/

/-- Does this node believe a current leader exists: itself, or one heard from
within the minimum election timeout? -/
def leaderIsCurrent (now : Instant) : Bool :=
  if n.isLeader then true
  else
    match n.lastLeaderContact with
    | some contact => decide (now - contact < n.config.minElectionTimeout)
    | none => false

/-- The election restriction: the candidate's last `(term, index)` is
lexicographically at least ours. -/
def candidateIsUpToDate (candidateLastTerm : ℕ) (candidateLastIndex : ℕ) : Bool :=
  let ours := n.log.db.lastIndexAndTerm
  decide (ours.2 < candidateLastTerm) ||
    (decide (ours.2 = candidateLastTerm) && decide (ours.1 ≤ candidateLastIndex))

/-- Has this node voted for nobody else in its current term? -/
def freeToVote (candidate : NodeId) : Bool :=
  match n.hard.votedFor with
  | none => true
  | some voted => decide (voted = candidate)

/-- Vote for `candidate` in the current term, durably. -/
def grantVote (candidate : NodeId) (now : Instant) : RaftNode :=
  let hard := n.hard.votingFor candidate
  ({ n with hard := hard, log := n.log.saveHardState hard } : RaftNode).armElectionTimer now

/-- Handle an inbound `RequestVote`. -/
def handleRequestVote (request : RequestVote) (now : Instant) :
    RaftNode × RequestVoteResponse :=
  if n.leaderIsCurrent now then
    (n, { term := n.hard.currentTerm, voteGranted := false })
  else
    let n := (n.observeTerm request.term now).1
    let term := n.hard.currentTerm
    if request.term < term then (n, { term := term, voteGranted := false })
    else if n.freeToVote request.candidateId &&
        n.candidateIsUpToDate request.lastLogTerm request.lastLogIndex then
      (n.grantVote request.candidateId now, { term := term, voteGranted := true })
    else (n, { term := term, voteGranted := false })

end RaftNode

end Brokkr.Raft
