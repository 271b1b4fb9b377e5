import Brokkr.Raft.Refine.Tracker

/-!
# How a node refines the abstract protocol

The relation between a node of the code and the state of the abstract protocol,
and what each packet in the network is known to say.

* `Dur` — what the database of a node says: its term and vote, and its log, of
  which the snapshot covers a committed prefix.
* `NodeRel` — a running node: its database, and in memory copies of parts of it
  that agree, the commit index, and the bookkeeping of its role.
* `Rel` — a node in the middle of a call: where the abstract state stands now,
  and that every database the call has written on the way is one the protocol
  could have stopped at.
* `MsgOk` — what a packet says is true of the history, and stays true.
-/

namespace Brokkr.Raft

open Consensus

/-! ## Nodes -/

/-- A state of the abstract protocol, at Raft's types. -/
abbrev AState := State NodeId LogEntry

variable {voters : OrdSet NodeId}

/-- A snapshot describes the prefix of the log it stands for. -/
structure SnapshotOk (voters : OrdSet NodeId) (l : List LogEntry) (info : SnapshotMeta) :
    Prop where
  pos : 0 < info.lastIncludedIndex
  term : info.lastIncludedTerm = (rules voters).lastTerm (l.take info.lastIncludedIndex)
  config : info.config.electorate = (rules voters).active (l.take info.lastIncludedIndex)
  known : info.config.voters.isEmpty = false

/-- The database of node `id`; `cov s` are the entries a snapshot of `s` entries
stands for. -/
structure Dur (voters : OrdSet NodeId) (a : AState) (id : NodeId) (cov : ℕ → List LogEntry)
    (db : Db) : Prop where
  term : db.hard.currentTerm = a.term id
  vote : db.hard.votedFor = a.vote id (a.term id)
  holds : Holds (a.log id) db.snapshotIndex db.log
  snapshot_le : db.snapshotIndex ≤ a.commit id
  covered : cov db.snapshotIndex = (a.log id).take db.snapshotIndex
  snapshot : ∀ {info data}, db.snapshot = some (info, data) → SnapshotOk voters (a.log id) info

/-- The bookkeeping of a candidate. -/
structure Campaigning (a : AState) (id : NodeId) (votes : OrdSet NodeId) : Prop where
  cand : a.cand id (a.term id) = some (a.log id)
  notElected : a.leader (a.term id) ≠ some id
  votes : ∀ v ∈ votes, a.vote v (a.term id) = some id

/-- The bookkeeping of a leader whose snapshot covers `s` entries. -/
structure Leading (a : AState) (id : NodeId) (s : ℕ) (state : LeaderState) : Prop where
  elected : a.leader (a.term id) = some id
  acked : (a.log id).length ≤ a.acked id (a.term id)
  next : ∀ {p i}, state.nextIndex.get? p = some i → 0 < i ∧ i ≤ (a.log id).length + 1
  matched : ∀ {p i}, state.matchIndex.get? p = some i → i ≤ max (a.acked p (a.term id)) s
  committed : ∀ {k}, a.committed (a.term id) k → k ≤ a.commit id
  start : state.termStartIndex = (a.elog (a.term id)).length + 1

/-- The bookkeeping of a role. -/
def RoleOk (a : AState) (id : NodeId) (s : ℕ) : Role → Prop
  | .follower => True
  | .candidate votes => Campaigning a id votes
  | .leader state => Leading a id s state

/-- A running node. -/
structure NodeRel (voters : OrdSet NodeId) (a : AState) (id : NodeId) (boot : ClusterConfig)
    (cov : ℕ → List LogEntry) (n : RaftNode) : Prop where
  dur : Dur voters a id cov n.log.db
  bootstrap : boot.electorate = ⟨voters, none⟩
  name : n.id = id
  hard : n.hard = n.log.db.hard
  snapshot : n.snapshot = n.log.db.snapshotMeta
  configs : n.configs = trackerOf boot n.log.db.snapshotMeta n.log.db.snapshotIndex (a.log id)
  commit : n.commitIndex = a.commit id
  role : RoleOk a id n.log.db.snapshotIndex n.role

/-- No index above the commit index can be committed: the commit rule has been
applied since the bookkeeping last changed. -/
def Settled (n : RaftNode) : Prop :=
  ∀ state, n.role = .leader state →
    ∀ i, n.commitIndex < i → i ≤ n.lastLogIndex → n.canCommit state i = false

/-- A node in the middle of a call that began in the abstract state `a₀`. -/
structure Rel (voters : OrdSet NodeId) (a₀ a : AState) (id : NodeId) (boot : ClusterConfig)
    (cov : ℕ → List LogEntry) (n : RaftNode) : Prop
    extends NodeRel voters a id boot cov n where
  inv : Inv (rules voters) a
  steps : Steps (rules voters) id a₀ a
  past : ∀ db ∈ n.log.commits, ∃ a', Steps (rules voters) id a₀ a' ∧ Dur voters a' id cov db

/-! ## Packets -/

/-- What a `RequestVote` says. -/
structure VoteRequestOk (voters : OrdSet NodeId) (a : AState) (src : NodeId)
    (request : RequestVote) : Prop where
  sender : request.candidateId = src
  cand : ∃ l, a.cand src request.term = some l ∧ request.lastLogIndex = l.length ∧
    request.lastLogTerm = (rules voters).lastTerm l

/-- What an `AppendEntries` says: a piece of the leader's log, and a commit index
that does not reach beyond it. -/
structure AppendOk (voters : OrdSet NodeId) (a : AState) (src : NodeId)
    (request : AppendEntries) : Prop where
  sender : request.leaderId = src
  leader : a.leader request.term = some src
  prev_le : request.prevLogIndex ≤ (a.llog request.term).length
  prev_term : request.prevLogTerm =
    (rules voters).lastTerm ((a.llog request.term).take request.prevLogIndex)
  entries : (a.llog request.term).take request.prevLogIndex ++ request.entries <+:
    a.llog request.term
  commit_le : request.leaderCommit ≤ request.prevLogIndex + request.entries.length
  committed : a.CommittedPrefix request.term ((a.llog request.term).take request.leaderCommit)

/-- What an `InstallSnapshot` says: a committed prefix of the leader's log. -/
structure InstallOk (voters : OrdSet NodeId) (a : AState) (src : NodeId)
    (covered : List LogEntry) (request : InstallSnapshot) : Prop where
  sender : request.leaderId = src
  leader : a.leader request.term = some src
  piece : covered <+: a.llog request.term
  length : covered.length = request.lastIncludedIndex
  committed : a.CommittedPrefix request.term covered
  info : SnapshotOk voters covered request.info

/-- What an outbound message says. -/
def OutOk (voters : OrdSet NodeId) (a : AState) (src : NodeId) (covered : List LogEntry) :
    Outbound → Prop
  | .requestVote _ request => VoteRequestOk voters a src request
  | .appendEntries _ request => AppendOk voters a src request
  | .installSnapshot _ request => InstallOk voters a src covered request

/-- What the reply of `src` to an `AppendEntries` says. -/
structure AppendReplyOk (a : AState) (src : NodeId) (response : AppendEntriesResponse) :
    Prop where
  matched : response.success = true → response.matchIndex ≤ a.acked src response.term
  conflict : response.success = false → response.conflictIndex ≤ (a.llog response.term).length

/-- What the reply of `src` to an `InstallSnapshot` says: unless it refuses an earlier term,
`src` has acknowledged what the snapshot covers. -/
def InstallReplyOk (a : AState) (src : NodeId) (request : InstallSnapshot)
    (response : InstallSnapshotResponse) : Prop :=
  response.term = request.term → request.lastIncludedIndex ≤ a.acked src request.term

/-- What a packet says. -/
def MsgOk (voters : OrdSet NodeId) (a : AState) : Packet → Prop
  | .request src out covered => OutOk voters a src covered out
  | .voteReply src dst _ response =>
    response.voteGranted = true → a.vote src response.term = some dst
  | .appendReply src _ _ response => AppendReplyOk a src response
  | .snapshotReply src _ request response => InstallReplyOk a src request response

section

variable {a a' : AState}

theorem AppendOk.mono {src : NodeId} {request : AppendEntries} (h : AppendOk voters a src request)
    (hg : Grows a a') : AppendOk voters a' src request where
  sender := h.sender
  leader := hg.leader h.leader
  prev_le := h.prev_le.trans (hg.llog _).length_le
  prev_term := by
    rw [hg.take_llog h.prev_le]
    exact h.prev_term
  entries := by
    rw [hg.take_llog h.prev_le]
    exact h.entries.trans (hg.llog _)
  commit_le := h.commit_le
  committed := by
    have hlen := h.entries.length_le
    rw [List.length_append, List.length_take, Nat.min_eq_left h.prev_le] at hlen
    rw [hg.take_llog (h.commit_le.trans hlen)]
    exact h.committed.of_grows hg

theorem MsgOk.mono {p : Packet} (h : MsgOk voters a p) (hg : Grows a a') :
    MsgOk voters a' p := by
  cases p with
  | request src out =>
    cases out with
    | requestVote =>
      obtain ⟨hs, l, hc, hl⟩ := h
      exact ⟨hs, l, hg.cand hc, hl⟩
    | appendEntries => exact AppendOk.mono h hg
    | installSnapshot =>
      exact ⟨h.sender, hg.leader h.leader, h.piece.trans (hg.llog _), h.length,
        h.committed.of_grows hg, h.info⟩
  | voteReply => exact fun hv => hg.vote (h hv)
  | appendReply =>
    exact ⟨fun hs => (h.matched hs).trans (hg.acked _ _),
      fun hf => (h.conflict hf).trans (hg.llog _).length_le⟩
  | snapshotReply => exact fun ht => (h ht).trans (hg.acked _ _)

end

/-! ## What the abstract state says about a node -/

section

variable {a : AState}

variable (h : Inv (rules voters) a)

include h

theorem indexed_of_anchored {l : List LogEntry}
    (hl : Anchored (rules voters) a l) : Indexed l :=
  fun _ _ he => index_of_admitted (hl.admitted h.llog_admitted) he

theorem indexed_log (id : NodeId) : Indexed (a.log id) :=
  indexed_of_anchored h (h.log_anchored id)

theorem indexed_llog (t : ℕ) : Indexed (a.llog t) :=
  indexed_of_anchored h (h.llog_anchored t)

theorem voters_ne_of_leader {t : ℕ} (ht : a.leader t ≠ none) :
    voters.isEmpty = false := by
  obtain ⟨A, acks, -, hq⟩ := h.boot_quorum ht
  have := (majority_iff.1 (Electorate.hasQuorum_iff.1 hq).1).1
  simpa [OrdSet.isEmpty, rules] using this

end

theorem Dur.snapshotOk_of_take {a : AState} {id : NodeId} {cov : ℕ → List LogEntry} {db : Db}
    (h : Dur voters a id cov db) {info : SnapshotMeta} {data : Bytes}
    (hs : db.snapshot = some (info, data)) {l : List LogEntry}
    (hl : l.take db.snapshotIndex = (a.log id).take db.snapshotIndex) :
    SnapshotOk voters l info := by
  have hok := h.snapshot hs
  rw [Db.snapshotIndex, hs] at hl
  exact ⟨hok.pos, hl ▸ hok.term, hl ▸ hok.config, hok.known⟩

namespace NodeRel

variable {a : AState} {id : NodeId} {boot : ClusterConfig} {cov : ℕ → List LogEntry} {n : RaftNode}

variable (h : NodeRel voters a id boot cov n)

include h

theorem snapshotIndex_eq :
    n.snapshotIndex = n.log.db.snapshotIndex := by
  rw [RaftNode.snapshotIndex, h.snapshot, Db.snapshotMeta, Db.snapshotIndex]
  cases n.log.db.snapshot <;> rfl

theorem currentTerm : n.hard.currentTerm = a.term id := by
  rw [h.hard, h.dur.term]

theorem snapshotIndex_le (hi : Inv (rules voters) a) :
    n.log.db.snapshotIndex ≤ (a.log id).length := h.dur.snapshot_le.trans (hi.commit_le id)

theorem lastIndexAndTerm (hi : Inv (rules voters) a) :
    n.log.db.lastIndexAndTerm = ((a.log id).length, (rules voters).lastTerm (a.log id)) :=
  Db.lastIndexAndTerm_eq h.dur.holds (indexed_log hi id) (h.snapshotIndex_le hi)
    fun _ _ hs => (h.dur.snapshot hs).term

theorem lastLogIndex (hi : Inv (rules voters) a) :
    n.lastLogIndex = (a.log id).length := by
  rw [RaftNode.lastLogIndex, Db.lastIndex, h.lastIndexAndTerm hi]

theorem get_eq {i : ℕ} (hi : n.log.db.snapshotIndex < i) :
    n.log.db.get i = (a.log id)[i - 1]? := h.dur.holds.get_gt hi

theorem base_electorate :
    (baseOf boot n.log.db.snapshotMeta).electorate =
      (rules voters).active ((a.log id).take n.log.db.snapshotIndex) := by
  rw [Db.snapshotMeta, Db.snapshotIndex]
  cases hs : n.log.db.snapshot with
  | none => exact h.bootstrap
  | some p =>
    have hok := h.dur.snapshot hs
    simp only [Option.map_some, baseOf, hok.known, Bool.not_false, if_true]
    exact hok.config

theorem active_electorate :
    n.configs.active.electorate = (rules voters).active (a.log id) := by
  rw [h.configs]
  exact Raft.active_electorate h.base_electorate

theorem hasQuorum_eq (acks : OrdSet NodeId) :
    n.configs.active.hasQuorum acks = ((rules voters).active (a.log id)).hasQuorum acks := by
  rw [← h.active_electorate, ClusterConfig.hasQuorum_electorate]

theorem latestIndex_le_iff (hi : Inv (rules voters) a) :
    n.configs.latestIndex ≤ n.commitIndex ↔
      ((rules voters).trim (a.log id)).length ≤ a.commit id := by
  rw [h.configs, h.commit]
  exact Raft.latestIndex_le_iff (indexed_log hi id) (h.snapshotIndex_le hi) h.dur.snapshot_le

theorem termAt_eq {i : ℕ}
    (h0 : 0 < i) (hs : n.log.db.snapshotIndex ≤ i) (hl : i ≤ (a.log id).length) :
    n.termAt i = some ((rules voters).lastTerm ((a.log id).take i)) := by
  rw [RaftNode.termAt]
  rcases hs.lt_or_eq with hlt | heq
  · obtain ⟨j, rfl⟩ : ∃ j, i = j + 1 := ⟨i - 1, by omega⟩
    rw [h.get_eq hlt, Nat.add_sub_cancel, List.getElem?_eq_getElem (by omega)]
    rw [← List.take_concat_get' (a.log id) j (by omega), Rules.lastTerm_concat]
    rfl
  rw [Db.get, h.dur.holds.get_le heq.ge, h.snapshot]
  have hsnap : n.log.db.snapshot ≠ none := by
    intro hnone
    have : n.log.db.snapshotIndex = 0 := by rw [Db.snapshotIndex, hnone]
    omega
  obtain ⟨⟨info, data⟩, hp⟩ := Option.ne_none_iff_exists'.1 hsnap
  have hii : info.lastIncludedIndex = i := by
    rw [← heq, Db.snapshotIndex, hp]
  simp only [Db.snapshotMeta, hp, Option.map_some, hii, if_true]
  rw [(h.dur.snapshot hp).term, hii]

end NodeRel

namespace Rel

variable {a₀ a a' : AState} {id : NodeId} {boot : ClusterConfig} {cov : ℕ → List LogEntry}
  {n m : RaftNode}

theorem start (h : NodeRel voters a id boot cov n) (hi : Inv (rules voters) a) :
    Rel voters a a id boot cov n.begin :=
  { h with
    inv := hi
    steps := Relation.ReflTransGen.refl
    past := nofun }

theorem next (h : Rel voters a₀ a id boot cov n) (hs : Steps (rules voters) id a a')
    (hn : NodeRel voters a' id boot cov m)
    (hlog : m.log.commits = n.log.commits ∨ m.log.commits = n.log.commits ++ [m.log.db]) :
    Rel voters a₀ a' id boot cov m where
  toNodeRel := hn
  inv := hs.inv h.inv
  steps := h.steps.trans hs
  past := by
    intro db hdb
    rcases hlog with hlog | hlog
    · exact h.past db (hlog ▸ hdb)
    rw [hlog, List.mem_append, List.mem_singleton] at hdb
    rcases hdb with hdb | rfl
    · exact h.past db hdb
    · exact ⟨a', h.steps.trans hs, hn.dur⟩

end Rel

end Brokkr.Raft
