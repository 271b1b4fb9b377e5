import Brokkr.Raft.Node

/-!
# The Raft node: replication, commitment, snapshots and the client interface

The rest of `RaftNode` (`node.rs`): the messages a leader builds, the commit rule
and its configuration follow-ups, both sides of `AppendEntries` and
`InstallSnapshot`, compaction, and the calls clients make.

`advance_commit_index` and `append_config_entry` call each other.  The recursion
is carried out here on a counter (`advanceCommitIndexIn`), started at `2`: the
follow-up configuration is never joint, so no deeper call is ever made
(`advanceCommitIndexIn_eq`).
-/

namespace Brokkr.Raft

namespace RaftNode

/-! ### Building replication messages -/

variable (n : RaftNode)

variable (peer : NodeId)

/-- The message that brings `peer` up from `next`: an `AppendEntries`, or an
`InstallSnapshot` when the entries it needs were compacted away. -/
def appendEntriesFor (next : ℕ) (seq : ℕ) :
    Except RaftError Outbound :=
  if next ≤ n.snapshotIndex then
    match n.log.db.snapshot with
    | none => .error (.snapshot "snapshot metadata cached but blob missing")
    | some (info, data) =>
      .ok (.installSnapshot peer
        { term := n.hard.currentTerm
          leaderId := n.id
          lastIncludedIndex := info.lastIncludedIndex
          lastIncludedTerm := info.lastIncludedTerm
          offset := 0
          data := data
          done := true
          config := info.config })
  else
    let prevLogIndex := LogIndex.prev next
    let prevLogTerm := if prevLogIndex = 0 then 0 else (n.termAt prevLogIndex).getD 0
    .ok (.appendEntries peer
      { term := n.hard.currentTerm
        leaderId := n.id
        prevLogIndex := prevLogIndex
        prevLogTerm := prevLogTerm
        entries := n.log.db.entriesFrom next
        leaderCommit := n.commitIndex
        seq := seq })

variable (state : LeaderState)

/-- The `nextIndex` of a peer, `1` if it has none. -/
def nextFor (peer : NodeId) : ℕ := (state.nextIndex.get? peer).getD 1

/-- Each target with its `nextIndex` and a fresh sequence number. -/
def planAll (state : LeaderState) : List NodeId → ℕ → List (NodeId × ℕ × ℕ)
  | [], _ => []
  | peer :: rest, seq => (peer, nextFor state peer, seq + 1) :: planAll state rest (seq + 1)

/-- Build the planned messages, stopping at the first error. -/
def buildAll (n : RaftNode) : List (NodeId × ℕ × ℕ) → Except RaftError (List Outbound)
  | [] => .ok []
  | (peer, next, seq) :: rest =>
    match n.appendEntriesFor peer next seq with
    | .error e => .error e
    | .ok out =>
      match n.buildAll rest with
      | .error e => .error e
      | .ok outs => .ok (out :: outs)

/-- A message for every replication target, each with a fresh `seq`. -/
def replicateAll : Outcome :=
  match n.role with
  | .leader state =>
    let targets := n.replicationTargets
    let n := { n with role := .leader { state with aeSeq := state.aeSeq + targets.length } }
    (n, n.buildAll (planAll state targets state.aeSeq))
  | _ => (n, .ok [])

/-- The message for a single peer, after its `nextIndex` moved. -/
def replicateTo : Outcome :=
  match n.role with
  | .leader state =>
    let n := { n with role := .leader { state with aeSeq := state.aeSeq + 1 } }
    (n, n.buildAll [(peer, nextFor state peer, state.aeSeq + 1)])
  | _ => (n, .ok [])

/-- Align the leader's bookkeeping with the active configuration. -/
def refreshLeaderState : RaftNode :=
  let targets := n.replicationTargets
  let optimisticNext := LogIndex.next n.lastLogIndex
  match n.role with
  | .leader state =>
    { n with role := .leader { state with
        nextIndex := targets.foldl (fun m target => m.orInsert target optimisticNext)
          (state.nextIndex.filter (fun peer _ => decide (peer ∈ targets)))
        matchIndex := targets.foldl (fun m target => m.orInsert target 0)
          (state.matchIndex.filter (fun peer _ => decide (peer ∈ targets))) } }
  | _ => n

theorem refreshed_match {state : LeaderState} {targets : List NodeId} {p : NodeId} {i : ℕ}
    (h : (targets.foldl (fun m target => m.orInsert target 0)
      (state.matchIndex.filter (fun peer _ => decide (peer ∈ targets)))).get? p = some i) :
    state.matchIndex.get? p = some i ∨ i = 0 := by
  refine (OrdMap.get?_foldl_orInsert h).imp_left fun hp => ?_
  rw [OrdMap.get?_filter] at hp
  exact (Option.filter_eq_some_iff.1 hp).1

/-! ### The commit rule -/

/-- The peers that hold index `i`, and the leader itself. -/
def commitAcks (i : ℕ) : OrdSet NodeId :=
  (OrdSet.ofList
    ((state.matchIndex.toList.filter (fun p => decide (i ≤ p.2))).map Prod.fst)).insert n.id

/-- May the leader commit index `i`: a quorum holds it and it is an entry of the
current term? -/
def canCommit (i : ℕ) : Bool :=
  n.configs.active.hasQuorum (n.commitAcks state i) &&
    decide (((n.log.db.get i).map LogEntry.term).getD 0 = n.hard.currentTerm)

/-- Scan down from `i` for the largest index that can be committed. -/
def findCommit (n : RaftNode) (state : LeaderState) : ℕ → ℕ
  | 0 => n.commitIndex
  | i + 1 =>
    if n.commitIndex < i + 1 then
      if n.canCommit state (i + 1) then i + 1 else n.findCommit state i
    else n.commitIndex

variable (config : ClusterConfig)

/-- Append a configuration entry to the leader's own log, in force at once. -/
def appendConfig : RaftNode :=
  let index := LogIndex.next n.lastLogIndex
  let entry := LogEntry.withPayload n.hard.currentTerm index (.config config)
  ({ n with
    log := n.log.append entry
    configs := n.configs.onAppend index config } : RaftNode).refreshLeaderState

/-- Append a configuration entry and replicate it; `advance` is the commit rule
to apply to the new entry. -/
def appendConfigEntryWith (advance : RaftNode → Outcome) (n : RaftNode)
    (config : ClusterConfig) : Outcome :=
  (advance (n.appendConfig config)).extend replicateAll

/-- Reactions to a moved commit index: a committed joint configuration is
followed by C_new; a committed C_new without the leader makes it step down. -/
def afterCommitConfigActions (advance : RaftNode → Outcome) (n : RaftNode) (now : Instant) :
    Outcome :=
  if !n.isLeader then (n, .ok [])
  else if n.commitIndex < n.configs.latestIndex then (n, .ok [])
  else
    let active := n.configs.active
    if active.isJoint then
      appendConfigEntryWith advance n
        { voters := active.voters, oldVoters := none, learners := active.learners }
    else if n.id ∉ active.voters then
      (({ n.stepDownToFollower with leaderId := none } : RaftNode).armElectionTimer now, .ok [])
    else (n, .ok [])

/-- `advance_commit_index` with its nested calls counted down. -/
def advanceCommitIndexIn : ℕ → RaftNode → Instant → Outcome
  | 0, n, _ => (n, .ok [])
  | calls + 1, n, now =>
    match n.role with
    | .leader state =>
      let newCommit := n.findCommit state n.lastLogIndex
      if newCommit = n.commitIndex then (n, .ok [])
      else
        afterCommitConfigActions (fun n => advanceCommitIndexIn calls n now)
          { n with commitIndex := newCommit } now
    | _ => (n, .ok [])

variable (now : Instant)

/-- The leader commit rule: advance to the largest index above `commitIndex`
that a quorum holds and that carries the current term, then react to it. -/
def advanceCommitIndex : Outcome := advanceCommitIndexIn 2 n now

theorem afterCommitConfigActions_congr {n : RaftNode} (h : n.configs.active.isJoint = false)
    (advance advance' : RaftNode → Outcome) (now : Instant) :
    afterCommitConfigActions advance n now = afterCommitConfigActions advance' n now := by
  simp only [afterCommitConfigActions, h, Bool.false_eq_true, if_false]

theorem active_appendConfig :
    (n.appendConfig config).configs.active = config := by
  unfold appendConfig refreshLeaderState
  simp only
  split <;> simp [ConfigTracker.onAppend, ConfigTracker.active]

theorem advanceCommitIndexIn_of_not_joint {n : RaftNode}
    (h : n.configs.active.isJoint = false) (calls : ℕ) (now : Instant) :
    advanceCommitIndexIn (calls + 1) n now = advanceCommitIndexIn 1 n now := by
  simp only [advanceCommitIndexIn]
  split
  · split
    · rfl
    · refine afterCommitConfigActions_congr ?_ _ _ now
      exact h
  · rfl

/-- **Two nested calls are enough**: the follow-up configuration is not joint. -/
theorem advanceCommitIndexIn_eq (calls : ℕ) (n : RaftNode) (now : Instant) :
    advanceCommitIndexIn (calls + 2) n now = n.advanceCommitIndex now := by
  have hnested : ∀ (n : RaftNode) (voters learners : OrdSet NodeId),
      appendConfigEntryWith (fun n => advanceCommitIndexIn (calls + 1) n now) n
        { voters := voters, oldVoters := none, learners := learners } =
      appendConfigEntryWith (fun n => advanceCommitIndexIn 1 n now) n
        { voters := voters, oldVoters := none, learners := learners } := by
    intro n voters learners
    rw [appendConfigEntryWith, appendConfigEntryWith, advanceCommitIndexIn_of_not_joint]
    rw [active_appendConfig]
    rfl
  rw [advanceCommitIndex, advanceCommitIndexIn, advanceCommitIndexIn]
  simp only [afterCommitConfigActions, hnested]

/-- `append_config_entry`. -/
def appendConfigEntry (now : Instant) : Outcome :=
  appendConfigEntryWith (fun n => n.advanceCommitIndex now) n config

/-! ### Elections -/

/-- The bookkeeping a leader starts with. -/
def freshLeaderState : LeaderState :=
  let last := n.lastLogIndex
  let targets := n.replicationTargets
  { nextIndex := targets.foldl (fun m peer => m.insert peer (LogIndex.next last)) ∅
    matchIndex := targets.foldl (fun m peer => m.insert peer 0) ∅
    aeSeq := 0
    termStartIndex := LogIndex.next last
    pendingReads := [] }

theorem freshLeaderState_match (n : RaftNode) {p : NodeId} {i : ℕ}
    (h : n.freshLeaderState.matchIndex.get? p = some i) : i = 0 := by
  rcases OrdMap.get?_foldl_insert h with h | h
  · exact absurd h (by simp)
  · exact h

/-- Take office: fresh bookkeeping and the start-of-term no-op. -/
def takeOffice : RaftNode :=
  let noop := LogEntry.withPayload n.hard.currentTerm (LogIndex.next n.lastLogIndex) .noop
  ({ n with
    log := n.log.append noop
    role := .leader n.freshLeaderState
    leaderId := some n.id } : RaftNode).armHeartbeatTimer now

/-- Become leader and replicate the no-op. -/
def becomeLeader : Outcome :=
  ((n.takeOffice now).advanceCommitIndex now).extend replicateAll

/-- Bump the term and vote for self, durably. -/
def becomeCandidate : RaftNode :=
  let newTerm := Term.next n.hard.currentTerm
  let hard := (n.hard.steppedTo newTerm).votingFor n.id
  ({ n with
    hard := hard
    log := n.log.saveHardState hard
    role := .candidate (OrdSet.singleton n.id)
    leaderId := none } : RaftNode).armElectionTimer now

/-- The `RequestVote` of a candidate. -/
def voteRequest : RequestVote :=
  let last := n.log.db.lastIndexAndTerm
  { term := n.hard.currentTerm
    candidateId := n.id
    lastLogIndex := last.1
    lastLogTerm := last.2 }

/-- Start an election: bump the term, vote for self, ask every voter. -/
def startElection : Outcome :=
  let n := n.becomeCandidate now
  if n.configs.active.hasQuorum (OrdSet.singleton n.id) then n.becomeLeader now
  else (n, .ok (n.voteTargets.map (fun peer => .requestVote peer n.voteRequest)))

/-- Advance logical time to `now`. -/
def tick : Outcome :=
  if n.isLeader then
    if n.heartbeatDeadline ≤ now then (n.armHeartbeatTimer now).replicateAll
    else (n, .ok [])
  else if n.electionDeadline ≤ now then
    if !n.isVoter then (n.armElectionTimer now, .ok [])
    else n.startElection now
  else (n, .ok [])

/-- The votes of a candidate once the reply of `src` is counted. -/
def countVote (votes : OrdSet NodeId) (src : NodeId) (response : RequestVoteResponse) :
    OrdSet NodeId :=
  if response.voteGranted then votes.insert src else votes

variable (src : NodeId)

/-- Handle a peer's reply to our `RequestVote`. -/
def handleRequestVoteResponse (response : RequestVoteResponse)
    (now : Instant) : Outcome :=
  let observed := n.observeTerm response.term now
  let n := observed.1
  if observed.2 then (n, .ok [])
  else if response.term ≠ n.hard.currentTerm then (n, .ok [])
  else
    match n.role with
    | .candidate votes =>
      let votes := countVote votes src response
      let n := { n with role := .candidate votes }
      if n.configs.active.hasQuorum votes then n.becomeLeader now else (n, .ok [])
    | _ => (n, .ok [])

/-! ### AppendEntries, receiver side -/

/-- The rejection of a stale leader. -/
def reject (term : ℕ) (seq : ℕ) : AppendEntriesResponse :=
  { term := term, success := false, conflictTerm := 0, conflictIndex := 0, matchIndex := 0,
    seq := seq }

/-- The acknowledgement of everything up to `matchIndex`. -/
def accept (term matchIndex seq : ℕ) : AppendEntriesResponse :=
  { term := term, success := true, conflictTerm := 0, conflictIndex := 0,
    matchIndex := matchIndex, seq := seq }

/-- Does our log hold an entry at `prevIndex` with term `prevTerm`? Indices below
the snapshot match by construction. -/
def logMatches (prevIndex : ℕ) (prevTerm : ℕ) : Bool :=
  if prevIndex = 0 then true
  else if prevIndex < n.snapshotIndex then true
  else decide (n.termAt prevIndex = some prevTerm)

/-- The first index of the run of entries of term `conflictTerm` that ends at
the given index. -/
def firstOfTerm (n : RaftNode) (conflictTerm : ℕ) : ℕ → ℕ
  | 0 => 0
  | 1 => 1
  | i + 2 =>
    match n.log.db.get (i + 1) with
    | some e => if e.term = conflictTerm then n.firstOfTerm conflictTerm (i + 1) else i + 2
    | none => i + 2

/-- The fast-backtrack hint for a failed check at `prevIndex`. -/
def conflictHint (prevIndex : ℕ) : ℕ × ℕ :=
  let last := n.lastLogIndex
  if last < prevIndex then (0, LogIndex.next last)
  else
    let conflictTerm := ((n.log.db.get prevIndex).map LogEntry.term).getD 0
    (conflictTerm, n.firstOfTerm conflictTerm prevIndex)

/-- Keep what we already store; on the first conflict truncate and append the
rest. -/
def appendNewEntries (n : RaftNode) : List LogEntry → RaftNode
  | [] => n
  | entry :: rest =>
    if entry.index ≤ n.snapshotIndex then n.appendNewEntries rest
    else
      match n.log.db.get entry.index with
      | some existing =>
        if existing.term = entry.term then n.appendNewEntries rest
        else
          { n with
            log := (n.log.truncateFrom entry.index).appendAll (entry :: rest)
            configs := (n.configs.onTruncate entry.index).noteAppendedConfigs (entry :: rest) }
      | none =>
        { n with
          log := n.log.appendAll (entry :: rest)
          configs := n.configs.noteAppendedConfigs (entry :: rest) }

/-- Raise the commit index to the leader's, but not beyond `matchIndex`. -/
def learnCommit (leaderCommit matchIndex : ℕ) : RaftNode :=
  if n.commitIndex < leaderCommit then { n with commitIndex := Nat.min leaderCommit matchIndex }
  else n

/-- Accept the authority of a valid leader of our term. -/
def acceptLeader (leader : NodeId) (now : Instant) : RaftNode :=
  let n := { n.stepDownToFollower with
    leaderId := some leader
    lastLeaderContact := some now }
  n.armElectionTimer now

/-- Handle an inbound `AppendEntries`. -/
def handleAppendEntries (request : AppendEntries) (now : Instant) :
    RaftNode × AppendEntriesResponse :=
  let n := (n.observeTerm request.term now).1
  let term := n.hard.currentTerm
  if request.term < term then (n, reject term request.seq)
  else
    let n := n.acceptLeader request.leaderId now
    if !n.logMatches request.prevLogIndex request.prevLogTerm then
      let hint := n.conflictHint request.prevLogIndex
      (n, { term := term, success := false, conflictTerm := hint.1, conflictIndex := hint.2,
            matchIndex := 0, seq := request.seq })
    else
      let matchIndex := request.prevLogIndex + request.entries.length
      ((n.appendNewEntries request.entries).learnCommit request.leaderCommit matchIndex,
        accept term matchIndex request.seq)

/-! ### AppendEntries, leader side -/

/-- A reply to a request stamped no earlier than the read counts for it. -/
def creditRead (seq : ℕ) (read : PendingRead) : PendingRead :=
  if read.confirmSeq ≤ seq then { read with acks := read.acks.insert src } else read

/-- Credit `src`'s reply (to the request stamped `seq`) against every pending
read, resolving those that reach the active configuration's quorum. -/
def noteLeadershipAck (seq : ℕ) : RaftNode :=
  match n.role with
  | .leader state =>
    let active := n.configs.active
    let credited := state.pendingReads.map (creditRead src seq)
    let ready := credited.filter (fun read => active.hasQuorum read.acks)
    let waiting := credited.filter (fun read => !active.hasQuorum read.acks)
    { n with
      role := .leader { state with pendingReads := waiting }
      readResults := n.readResults ++ ready.map (fun read => (read.id, .ok read.readIndex)) }
  | _ => n

/-- Record that `peer` holds everything up to `matchIndex`. -/
def recordMatch (matchIndex : ℕ) : RaftNode :=
  match n.role with
  | .leader state =>
    let old := (state.matchIndex.get? peer).getD 0
    { n with role := .leader { state with
        matchIndex := state.matchIndex.insert peer (if old < matchIndex then matchIndex else old)
        nextIndex := state.nextIndex.insert peer (LogIndex.next matchIndex) } }
  | _ => n

theorem noteLeadershipAck_log (seq : ℕ) : (n.noteLeadershipAck src seq).log = n.log := by
  unfold noteLeadershipAck
  split <;> rfl

theorem recordMatch_log (matchIndex : ℕ) : (n.recordMatch peer matchIndex).log = n.log := by
  unfold recordMatch
  split <;> rfl

/-- Move a peer's `nextIndex` back to the conflict hint. -/
def backOff (conflictIndex : ℕ) : RaftNode :=
  match n.role with
  | .leader state =>
    { n with role := .leader { state with
        nextIndex := state.nextIndex.insert peer (Nat.max conflictIndex 1) } }
  | _ => n

/-- Has the leader entries this peer has not been sent? -/
def peerIsBehind : Bool :=
  match n.role with
  | .leader state => decide (nextFor state peer ≤ n.lastLogIndex)
  | _ => false

/-- Keep replicating to a peer that is still behind. -/
def replicateIfBehind : Outcome :=
  if n.peerIsBehind peer then n.replicateTo peer else (n, .ok [])

/-- Handle a peer's reply to our `AppendEntries`. -/
def handleAppendEntriesResponse (response : AppendEntriesResponse)
    (now : Instant) : Outcome :=
  let observed := n.observeTerm response.term now
  let n := observed.1
  if observed.2 then (n, .ok [])
  else if response.term ≠ n.hard.currentTerm || !n.isLeader then (n, .ok [])
  else
    let n := n.noteLeadershipAck src response.seq
    if response.success then
      ((n.recordMatch src response.matchIndex).advanceCommitIndex now).extend
        (fun n => n.replicateIfBehind src)
    else (n.backOff src response.conflictIndex).replicateTo src

/-! ### Snapshots -/

/-- Replace the log by a snapshot, keeping the tail beyond it if the log holds
the snapshot's last entry. -/
def adoptSnapshot (info : SnapshotMeta) (data : Bytes) : RaftNode :=
  let basisMatches := decide
    ((n.log.db.get info.lastIncludedIndex).map LogEntry.term = some info.lastIncludedTerm)
  { n with
    log := if basisMatches then n.log.compactTo info data
      else n.log.installSnapshotReplacingLog info data
    configs := n.configs.onInstallSnapshot info.config info.lastIncludedIndex (!basisMatches)
    commitIndex := info.lastIncludedIndex
    snapshot := some info }

/-- Handle an inbound `InstallSnapshot`. -/
def handleInstallSnapshot (request : InstallSnapshot) (now : Instant) :
    RaftNode × Except RaftError InstallSnapshotResponse :=
  let n := (n.observeTerm request.term now).1
  let term := n.hard.currentTerm
  if request.term < term then (n, .ok { term := term })
  else if request.offset ≠ 0 || !request.done then
    (n, .error (.snapshot "chunked InstallSnapshot is not supported (single-shot only)"))
  else
    let n := n.acceptLeader request.leaderId now
    if request.lastIncludedIndex ≤ n.snapshotIndex || request.lastIncludedIndex ≤ n.commitIndex then
      (n, .ok { term := term })
    else
      (n.adoptSnapshot request.info request.data, .ok { term := term })

theorem handleInstallSnapshot_error {n : RaftNode} {request : InstallSnapshot} {now : Instant}
    {e : RaftError} (h : (n.handleInstallSnapshot request now).2 = .error e) :
    ∃ reason, e = .snapshot reason := by
  unfold handleInstallSnapshot at h
  simp only at h
  split at h
  · cases h
  split at h
  · cases h
    exact ⟨_, rfl⟩
  · split at h <;> cases h

/-- Handle a peer's reply to our `InstallSnapshot`. -/
def handleInstallSnapshotResponse (response : InstallSnapshotResponse) (now : Instant) : Outcome :=
  let observed := n.observeTerm response.term now
  let n := observed.1
  if observed.2 then (n, .ok [])
  else if response.term ≠ n.hard.currentTerm || !n.isLeader then (n, .ok [])
  else
    match n.snapshot with
    | none => (n, .ok [])
    | some info =>
      ((n.recordMatch src info.lastIncludedIndex).advanceCommitIndex now).extend
        (fun n => n.replicateIfBehind src)

/-- Has the committed but uncompacted part of the log outgrown the threshold? -/
def needsSnapshot : Bool :=
  decide (n.config.snapshotThreshold < n.commitIndex - n.snapshotIndex)

/-- Compact the committed prefix into a snapshot whose blob is `data`. -/
def compact (n : RaftNode) (data : Bytes) : RaftNode × Except RaftError SnapshotMeta :=
  let index := n.commitIndex
  if index = 0 || index ≤ n.snapshotIndex then
    (n, .error (.snapshot
      s!"nothing to compact: commit index {index}, snapshot already at {n.snapshotIndex}"))
  else
    match n.termAt index with
    | none => (n, .error (.snapshot s!"no term known for committed index {index}"))
    | some term =>
      let info : SnapshotMeta :=
        { lastIncludedIndex := index
          lastIncludedTerm := term
          config := n.configs.configAt index }
      ({ n with
          log := n.log.compactTo info data
          snapshot := some info
          configs := n.configs.onCompact index }, .ok info)

theorem compact_cases (data : Bytes) :
    ((n.commitIndex ≤ n.snapshotIndex ∨ n.termAt n.commitIndex = none) ∧
        ∃ e, n.compact data = (n, .error e)) ∨
      ∃ info : SnapshotMeta, info.lastIncludedIndex = n.commitIndex ∧
        info.config = n.configs.configAt n.commitIndex ∧ n.snapshotIndex < n.commitIndex ∧
        n.compact data = ({ n with
          log := n.log.compactTo info data
          snapshot := some info
          configs := n.configs.onCompact n.commitIndex }, .ok info) := by
  unfold compact
  simp only
  split
  · rename_i hold
    rw [Bool.or_eq_true, decide_eq_true_eq, decide_eq_true_eq] at hold
    exact .inl ⟨Or.inl (by omega), _, rfl⟩
  rename_i hnew
  rw [Bool.or_eq_true, not_or, decide_eq_true_eq, decide_eq_true_eq, Nat.not_le] at hnew
  split
  · rename_i hterm
    exact .inl ⟨Or.inr hterm, _, rfl⟩
  · exact .inr ⟨_, rfl, rfl, hnew.2, rfl⟩

/-! ### Client interface -/

/-- The refusal of a client call on a node that is not the leader. -/
def notLeaderError : RaftError := .notLeader (n.leaderId.map NodeId.asStr)

/-- Append `command` to the leader's log and replicate it. -/
def propose (command : Bytes) (now : Instant) : Outcome :=
  if !n.isLeader then (n, .error n.notLeaderError)
  else
    let entry := LogEntry.new n.hard.currentTerm (LogIndex.next n.lastLogIndex) command
    (({ n with log := n.log.append entry } : RaftNode).advanceCommitIndex now).extend replicateAll

/-- The read a leader registers. -/
def newRead : PendingRead :=
  { id := n.readSeq + 1
    readIndex := Nat.max state.termStartIndex n.commitIndex
    confirmSeq := state.aeSeq + 1
    acks := OrdSet.singleton n.id }

/-- Register a linearizable read; returns its ticket and the heartbeat round
that confirms leadership. -/
def startRead (_now : Instant) : RaftNode × Except RaftError (ℕ × List Outbound) :=
  match n.role with
  | .leader state =>
    let read := n.newRead state
    if n.configs.active.hasQuorum read.acks then
      ({ n with
          readSeq := read.id
          readResults := n.readResults ++ [(read.id, .ok read.readIndex)] },
        .ok (read.id, []))
    else
      let n := { n with
        readSeq := read.id
        role := .leader { state with pendingReads := state.pendingReads ++ [read] } }
      match n.replicateAll with
      | (n, .error e) => (n, .error e)
      | (n, .ok outs) => (n, .ok (read.id, outs))
  | _ => (n, .error n.notLeaderError)

/-- Drain resolved linearizable reads. -/
def drainReadResults : RaftNode × List (ℕ × Except RaftError ℕ) :=
  ({ n with readResults := [] }, n.readResults)

variable (newVoters : OrdSet NodeId)

/-- Begin a joint-consensus membership change to `newVoters`. -/
def proposeConfChange (now : Instant) : Outcome :=
  match n.role with
  | .leader state =>
    let active := n.configs.active
    if newVoters.isEmpty then
      (n, .error (.confChange "the new configuration must have at least one voter"))
    else if active.isJoint || n.commitIndex < n.configs.latestIndex then
      (n, .error (.confChange "a configuration change is already in flight (one at a time)"))
    else if newVoters = active.voters then
      (n, .error (.confChange "the new configuration is identical to the current one"))
    else
      let last := n.lastLogIndex
      let floor := last - n.config.catchUpMargin
      let matched := fun (added : NodeId) => (state.matchIndex.get? added).getD 0
      let added := newVoters.filter (fun v => decide (v ∉ active.voters))
      match added.toList.find? (fun v => decide (matched v < floor)) with
      | some v =>
        let shown := v.asStr
        let got := matched v
        (n, .error (.confChange
          (s!"voter {shown} is not caught up (replicated to {got}, " ++
            s!"leader log at {last}); add it as a learner first")))
      | none =>
        let joint : ClusterConfig :=
          { oldVoters := some active.voters
            learners := active.learners.filter (fun l => decide (l ∉ newVoters))
            voters := newVoters }
        n.appendConfigEntry joint now
  | _ => (n, .error n.notLeaderError)

/-- The joint configuration that a change to `newVoters` begins with. -/
def jointConfig : ClusterConfig where
  voters := newVoters
  oldVoters := some n.configs.active.voters
  learners := n.configs.active.learners.filter (fun l => decide (l ∉ newVoters))

theorem proposeConfChange_cases (now : Instant) :
    (∃ e, n.proposeConfChange newVoters now = (n, .error e)) ∨
      (∃ state, n.role = .leader state) ∧ newVoters.isEmpty = false ∧
        n.configs.active.isJoint = false ∧ n.configs.latestIndex ≤ n.commitIndex ∧
        newVoters ≠ n.configs.active.voters ∧
        n.proposeConfChange newVoters now = n.appendConfigEntry (n.jointConfig newVoters) now := by
  unfold proposeConfChange
  split
  · rename_i state hr
    simp only
    split
    · exact .inl ⟨_, rfl⟩
    rename_i hempty
    split
    · exact .inl ⟨_, rfl⟩
    rename_i hflight
    rw [Bool.or_eq_true, not_or, decide_eq_true_eq, Nat.not_lt, Bool.not_eq_true] at hflight
    split
    · exact .inl ⟨_, rfl⟩
    rename_i hsame
    split
    · exact .inl ⟨_, rfl⟩
    exact .inr ⟨⟨state, hr⟩, by simpa using hempty, hflight.1, hflight.2, hsame, rfl⟩
  · exact .inl ⟨_, rfl⟩

/-- Add `id` as a non-voting learner. -/
def proposeAddLearner (id : NodeId) (now : Instant) : Outcome :=
  if !n.isLeader then (n, .error n.notLeaderError)
  else
    let active := n.configs.active
    let shown := id.asStr
    if active.isJoint || n.commitIndex < n.configs.latestIndex then
      (n, .error (.confChange "a configuration change is already in flight (one at a time)"))
    else if id ∈ active.voters then
      (n, .error (.confChange s!"{shown} is already a voter"))
    else if id ∈ active.learners then
      (n, .error (.confChange s!"{shown} is already a learner"))
    else n.appendConfigEntry { active with learners := active.learners.insert id } now

/-- The active configuration with one more learner. -/
def learnerConfig (id : NodeId) : ClusterConfig :=
  { n.configs.active with learners := n.configs.active.learners.insert id }

theorem proposeAddLearner_cases (id : NodeId) (now : Instant) :
    (∃ e, n.proposeAddLearner id now = (n, .error e)) ∨
      (∃ state, n.role = .leader state) ∧ n.configs.active.isJoint = false ∧
        n.configs.latestIndex ≤ n.commitIndex ∧ id ∉ n.configs.active.voters ∧
        n.proposeAddLearner id now = n.appendConfigEntry (n.learnerConfig id) now := by
  unfold proposeAddLearner
  split
  · exact .inl ⟨_, rfl⟩
  rename_i hleader
  have hrole : ∃ state, n.role = .leader state := by
    unfold isLeader at hleader
    split at hleader
    · exact ⟨_, ‹_›⟩
    · exact absurd rfl hleader
  simp only
  split
  · exact .inl ⟨_, rfl⟩
  rename_i hflight
  rw [Bool.or_eq_true, not_or, decide_eq_true_eq, Nat.not_lt, Bool.not_eq_true] at hflight
  split
  · exact .inl ⟨_, rfl⟩
  rename_i hvoter
  split
  · exact .inl ⟨_, rfl⟩
  exact .inr ⟨hrole, hflight.1, hflight.2, hvoter, rfl⟩

end RaftNode

end Brokkr.Raft
