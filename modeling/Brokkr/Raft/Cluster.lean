import Brokkr.Raft.Replication

/-!
# A cluster of Raft nodes

Any number of nodes, the calls made on them, and a network that may lose,
duplicate, delay and reorder packets.  Every packet ever sent stays in
`Cluster.sent`; a delivery picks any of them, any number of times, so a lost
packet is one that is never picked.  A reply travels back to the node that sent
the request, and carries that request with it.

A call is run to completion and its messages are sent, or the node crashes in
the middle: `Event.crash` keeps the database as one of the call's transactions
left it (or as it was before the call), sends nothing, and restarts the node
from the store.

`Member.covered` is a history variable: the log entries a node's snapshot stands
for, one for each index up to the snapshot's last included index.  Nothing reads
it to decide what happens next.
-/

namespace Brokkr.Raft

open List

/-! ## Calls on one node -/

/-- A call the environment makes on a node. -/
inductive Op where
  | tick (now : Instant)
  | propose (command : Bytes) (now : Instant)
  | startRead (now : Instant)
  | drainReadResults
  | proposeConfChange (newVoters : OrdSet NodeId) (now : Instant)
  | proposeAddLearner (id : NodeId) (now : Instant)
  | compact (data : Bytes)
  deriving DecidableEq

/-- Anything that can be run on a node: a call from the environment, an inbound
request, or the reply to one of its own requests. -/
inductive Call where
  | op (op : Op)
  | requestVote (request : RequestVote) (now : Instant)
  | appendEntries (request : AppendEntries) (now : Instant)
  | installSnapshot (request : InstallSnapshot) (now : Instant)
  | requestVoteResponse (src : NodeId) (response : RequestVoteResponse) (now : Instant)
  | appendEntriesResponse (src : NodeId) (response : AppendEntriesResponse) (now : Instant)
  | installSnapshotResponse (src : NodeId) (response : InstallSnapshotResponse) (now : Instant)
  deriving DecidableEq

/-- What a node answers to an inbound request. -/
inductive Reply where
  | requestVote (response : RequestVoteResponse)
  | appendEntries (response : AppendEntriesResponse)
  | installSnapshot (response : InstallSnapshotResponse)
  deriving DecidableEq

/-- A node after a call, the messages it wants sent, and its answer. -/
structure Effect where
  node : RaftNode
  outs : List Outbound := []
  reply : Option Reply := none
  error : Option RaftError := none

/-- Nothing is sent when a call fails. -/
def Effect.ofOutcome (r : Outcome) : Effect :=
  match r with
  | (n, .ok outs) => { node := n, outs := outs }
  | (n, .error e) => { node := n, error := some e }

namespace RaftNode

/-- Run an environment call. -/
def runOp (n : RaftNode) : Op → Effect
  | .tick now => .ofOutcome (n.tick now)
  | .propose command now => .ofOutcome (n.propose command now)
  | .startRead now =>
    match n.startRead now with
    | (n, .ok (_, outs)) => { node := n, outs := outs }
    | (n, .error e) => { node := n, error := some e }
  | .drainReadResults => { node := n.drainReadResults.1 }
  | .proposeConfChange newVoters now => .ofOutcome (n.proposeConfChange newVoters now)
  | .proposeAddLearner id now => .ofOutcome (n.proposeAddLearner id now)
  | .compact data =>
    match n.compact data with
    | (n, .ok _) => { node := n }
    | (n, .error e) => { node := n, error := some e }

/-- Run a call. -/
def run (n : RaftNode) : Call → Effect
  | .op op => n.runOp op
  | .requestVote request now =>
    let r := n.handleRequestVote request now
    { node := r.1, reply := some (.requestVote r.2) }
  | .appendEntries request now =>
    let r := n.handleAppendEntries request now
    { node := r.1, reply := some (.appendEntries r.2) }
  | .installSnapshot request now =>
    match n.handleInstallSnapshot request now with
    | (n, .ok response) => { node := n, reply := some (.installSnapshot response) }
    | (n, .error e) => { node := n, error := some e }
  | .requestVoteResponse src response now =>
    .ofOutcome (n.handleRequestVoteResponse src response now)
  | .appendEntriesResponse src response now =>
    .ofOutcome (n.handleAppendEntriesResponse src response now)
  | .installSnapshotResponse src response now =>
    .ofOutcome (n.handleInstallSnapshotResponse src response now)

/-- Start recording the transactions of a call. -/
def begin (n : RaftNode) : RaftNode := { n with log := { n.log with commits := [] } }

end RaftNode

/-! ## Packets -/

/-- A packet in the network. -/
inductive Packet where
  | request (src : NodeId) (out : Outbound) (covered : List LogEntry)
  | voteReply (src dst : NodeId) (request : RequestVote) (response : RequestVoteResponse)
  | appendReply (src dst : NodeId) (request : AppendEntries) (response : AppendEntriesResponse)
  | snapshotReply (src dst : NodeId) (request : InstallSnapshot)
      (response : InstallSnapshotResponse)
  deriving DecidableEq

namespace Packet

/-- The call a delivery makes, and on whom. -/
def call (p : Packet) (now : Instant) : NodeId × Call :=
  match p with
  | .request _ (.requestVote peer req) _ => (peer, .requestVote req now)
  | .request _ (.appendEntries peer req) _ => (peer, .appendEntries req now)
  | .request _ (.installSnapshot peer req) _ => (peer, .installSnapshot req now)
  | .voteReply src dst _ response => (dst, .requestVoteResponse src response now)
  | .appendReply src dst _ response => (dst, .appendEntriesResponse src response now)
  | .snapshotReply src dst _ response => (dst, .installSnapshotResponse src response now)

/-- The packet that takes the answer of `me` back to the sender. -/
def replyWith (p : Packet) (me : NodeId) (r : Reply) : List Packet :=
  match p, r with
  | .request src (.requestVote _ req) _, .requestVote response => [.voteReply me src req response]
  | .request src (.appendEntries _ req) _, .appendEntries response =>
    [.appendReply me src req response]
  | .request src (.installSnapshot _ req) _, .installSnapshot response =>
    [.snapshotReply me src req response]
  | _, _ => []

theorem appendReply_mem_replyWith {p : Packet} {me src dst : NodeId} {r : Reply}
    {request : AppendEntries} {response : AppendEntriesResponse}
    (h : .appendReply src dst request response ∈ p.replyWith me r) :
    src = me ∧ r = .appendEntries response ∧
      ∃ peer covered, p = .request dst (.appendEntries peer request) covered := by
  unfold replyWith at h
  split at h <;> simp at h
  obtain ⟨rfl, rfl, rfl, rfl⟩ := h
  exact ⟨rfl, rfl, _, _, rfl⟩

theorem request_not_mem_replyWith {p : Packet} {me src : NodeId} {r : Reply} {out : Outbound}
    {covered : List LogEntry} : .request src out covered ∉ p.replyWith me r := by
  unfold replyWith
  split <;> simp

end Packet

/-! ## The cluster -/

/-- The index of the last entry the stored snapshot covers. -/
def Db.snapshotIndex (db : Db) : ℕ :=
  match db.snapshot with
  | some (info, _) => info.lastIncludedIndex
  | none => 0

/-- A node of the cluster. -/
structure Member where
  node : RaftNode
  bootstrap : ClusterConfig
  covered : List LogEntry := []

/-- The entries a node's snapshot stands for once it covers `index` entries:
those of an installed snapshot are the sender's, a compaction adds the entries
it drops. -/
def Member.coveredUpTo (m : Member) (origin : Option Packet) (index : ℕ) : List LogEntry :=
  if index = m.node.log.db.snapshotIndex then m.covered
  else
    match origin with
    | some (.request _ _ covered) => covered
    | _ => m.covered ++ (m.node.log.db.entriesFrom 0).filter (fun e => decide (e.index ≤ index))

/-- A cluster: its bootstrap voters, its nodes, and every packet ever sent. -/
structure Cluster where
  voters : OrdSet NodeId
  members : OrdMap NodeId Member
  sent : List Packet

/-- What a node is started with, besides the bootstrap voters. -/
structure Start where
  id : NodeId
  rng : Rng
  config : Config
  now : Instant

/-- Bootstrap voters start with `RaftNode::new`, everyone else as a learner. -/
def bootstrapOf (voters : OrdSet NodeId) (id : NodeId) : ClusterConfig :=
  if id ∈ voters then RaftNode.newBootstrap id (voters.erase id).toList
  else RaftNode.learnerBootstrap id voters.toList

/-- Something that can be run: a call from the environment, or the delivery of
the `k`-th packet sent. -/
inductive Action where
  | op (id : NodeId) (op : Op)
  | deliver (k : ℕ) (now : Instant)
  deriving DecidableEq

/-- A step of the cluster. -/
inductive Event where
  | run (action : Action)
  | crash (action : Action) (transactions : ℕ) (rng : Rng) (config : Config) (now : Instant)
  deriving DecidableEq

/-- What the node was doing. -/
def Event.action : Event → Action
  | .run action => action
  | .crash action .. => action

namespace Cluster

/-- A fresh cluster. -/
def init (voters : OrdSet NodeId) (starts : List Start) : Cluster where
  voters := voters
  members := starts.foldl (fun members s =>
    members.insert s.id
      { node := RaftNode.withBootstrap s.id (bootstrapOf voters s.id) {} s.rng s.config s.now
        bootstrap := bootstrapOf voters s.id }) ∅
  sent := []

theorem get?_init {voters : OrdSet NodeId} {starts : List Start} {id : NodeId} {m : Member}
    (h : (init voters starts).members.get? id = some m) :
    ∃ s ∈ starts, s.id = id ∧ m =
      { node := RaftNode.withBootstrap s.id (bootstrapOf voters s.id) {} s.rng s.config s.now
        bootstrap := bootstrapOf voters s.id } := by
  rw [init] at h
  induction starts using reverseRecOn with
  | nil => cases h
  | append_singleton starts s ih =>
    rw [foldl_append, foldl_cons, foldl_nil, OrdMap.get?_insert] at h
    split at h
    · rename_i hid
      exact ⟨s, by simp, hid.symm, (Option.some.inj h).symm⟩
    · obtain ⟨s', hs', heq⟩ := ih h
      exact ⟨s', mem_append_left _ hs', heq⟩

theorem exists_init (voters : OrdSet NodeId) {starts : List Start} {s : Start} (hs : s ∈ starts) :
    ∃ m, (init voters starts).members.get? s.id = some m := by
  rw [init]
  induction starts using reverseRecOn with
  | nil => cases hs
  | append_singleton starts s' ih =>
    simp only [foldl_append, foldl_cons, foldl_nil, OrdMap.get?_insert]
    split
    · exact ⟨_, rfl⟩
    rename_i hne
    rcases mem_append.1 hs with hs | hs
    · exact ih hs
    · exact absurd (congrArg Start.id (mem_singleton.1 hs)) hne

variable (c : Cluster)

/-- The call an action makes, on whom, and the packet it came from. -/
def resolve : Action → Option (NodeId × Call × Option Packet)
  | .op id op => some (id, .op op, none)
  | .deliver k now => (c.sent[k]?).map (fun p => ((p.call now).1, (p.call now).2, some p))

theorem of_resolve_installSnapshot {c : Cluster} {action : Action} {id : NodeId}
    {request : InstallSnapshot} {now : Instant} {origin : Option Packet}
    (h : c.resolve action = some (id, .installSnapshot request now, origin)) :
    ∃ j src covered, action = .deliver j now ∧
      c.sent[j]? = some (.request src (.installSnapshot id request) covered) ∧
      origin = some (.request src (.installSnapshot id request) covered) := by
  cases action with
  | op => simp [resolve] at h
  | deliver j =>
    obtain ⟨p, hp, hcall⟩ := Option.map_eq_some_iff.1 h
    cases p with
    | request src out covered =>
      cases out <;> cases hcall
      exact ⟨j, src, covered, rfl, hp, rfl⟩
    | _ => cases hcall

theorem of_resolve_appendEntriesResponse {c : Cluster} {action : Action} {id src : NodeId}
    {response : AppendEntriesResponse} {now : Instant} {origin : Option Packet}
    (h : c.resolve action = some (id, .appendEntriesResponse src response now, origin)) :
    ∃ j request, action = .deliver j now ∧
      c.sent[j]? = some (.appendReply src id request response) := by
  cases action with
  | op => cases h
  | deliver j =>
    obtain ⟨p, hp, hcall⟩ := Option.map_eq_some_iff.1 h
    unfold Packet.call at hcall
    split at hcall <;> cases hcall
    exact ⟨j, _, rfl, hp⟩

theorem of_resolve_installSnapshotResponse {c : Cluster} {action : Action} {id src : NodeId}
    {response : InstallSnapshotResponse} {now : Instant} {origin : Option Packet}
    (h : c.resolve action = some (id, .installSnapshotResponse src response now, origin)) :
    ∃ j request, action = .deliver j now ∧
      c.sent[j]? = some (.snapshotReply src id request response) := by
  cases action with
  | op => cases h
  | deliver j =>
    obtain ⟨p, hp, hcall⟩ := Option.map_eq_some_iff.1 h
    unfold Packet.call at hcall
    split at hcall <;> cases hcall
    exact ⟨j, _, rfl, hp⟩

/-- The database a crash after `transactions` transactions leaves. -/
def crashedDb (before : Db) (after : RaftLog) (transactions : ℕ) : Db :=
  ((before :: after.commits)[transactions]?).getD after.db

/-- Run a call of node `id` to completion. -/
def runOn (id : NodeId) (m : Member) (call : Call) (origin : Option Packet) :
    Cluster :=
  let effect := m.node.begin.run call
  let covered := m.coveredUpTo origin effect.node.log.db.snapshotIndex
  let replies := match origin, effect.reply with
    | some p, some r => p.replyWith id r
    | _, _ => []
  { c with
    members := c.members.insert id { m with node := effect.node, covered := covered }
    sent := c.sent ++ effect.outs.map (fun out => .request id out covered) ++ replies }

/-- Crash node `id` in the middle of a call and restart it from the store. -/
def crashOn (id : NodeId) (m : Member) (call : Call) (origin : Option Packet)
    (transactions : ℕ) (rng : Rng) (config : Config) (now : Instant) : Cluster :=
  let effect := m.node.begin.run call
  let db := crashedDb m.node.log.db effect.node.log transactions
  { c with
    members := c.members.insert id
      { m with
        node := RaftNode.withBootstrap id m.bootstrap { db := db } rng config now
        covered := m.coveredUpTo origin db.snapshotIndex } }

/-- One step. An action on a node that is not there does nothing. -/
def step : Event → Cluster
  | .run action =>
    match c.resolve action with
    | none => c
    | some (id, call, origin) =>
      match c.members.get? id with
      | none => c
      | some m => c.runOn id m call origin
  | .crash action transactions rng config now =>
    match c.resolve action with
    | none => c
    | some (id, call, origin) =>
      match c.members.get? id with
      | none => c
      | some m => c.crashOn id m call origin transactions rng config now

theorem request_of_runOn {c : Cluster} {id src : NodeId} {m : Member} {call : Call}
    {origin : Option Packet} {out : Outbound} {covered : List LogEntry}
    (hp : .request src out covered ∈ (c.runOn id m call origin).sent) :
    .request src out covered ∈ c.sent ∨ src = id ∧ out ∈ (m.node.begin.run call).outs ∧
      covered = m.coveredUpTo origin (m.node.begin.run call).node.log.db.snapshotIndex := by
  rcases mem_append.1 hp with hp | hp
  · rcases mem_append.1 hp with hp | hp
    · exact .inl hp
    · obtain ⟨out', hout, heq⟩ := mem_map.1 hp
      cases heq
      exact .inr ⟨rfl, hout, rfl⟩
  exfalso
  cases origin with
  | none => exact absurd hp not_mem_nil
  | some =>
    cases hrep : (m.node.begin.run call).reply with
    | none =>
      rw [hrep] at hp
      exact absurd hp not_mem_nil
    | some =>
      rw [hrep] at hp
      exact Packet.request_not_mem_replyWith hp

/-- The three things a step can be. -/
inductive Stepped (c : Cluster) : Event → Cluster → Prop
  | idle (e : Event) : Stepped c e c
  | ran {action : Action} {id : NodeId} {m : Member} {call : Call} {origin : Option Packet}
      (resolved : c.resolve action = some (id, call, origin))
      (member : c.members.get? id = some m) : Stepped c (.run action) (c.runOn id m call origin)
  | crashed {action : Action} {id : NodeId} {m : Member} {call : Call} {origin : Option Packet}
      (resolved : c.resolve action = some (id, call, origin))
      (member : c.members.get? id = some m) (transactions : ℕ) (rng : Rng) (config : Config)
      (now : Instant) :
      Stepped c (.crash action transactions rng config now)
        (c.crashOn id m call origin transactions rng config now)

theorem stepped (e : Event) : c.Stepped e (c.step e) := by
  unfold step
  split
  · split
    · exact .idle _
    · split
      · exact .idle _
      · exact .ran ‹_› ‹_›
  split
  · exact .idle _
  split
  · exact .idle _
  · exact .crashed ‹_› ‹_› _ _ _ _

/-- A sequence of steps. -/
def exec (events : List Event) : Cluster := events.foldl step c

/-- Every term and every log index is below `u64::MAX`. -/
def Within : Prop :=
  ∀ p ∈ c.members.toList, p.2.node.hard.currentTerm < u64Max ∧ p.2.node.lastLogIndex < u64Max

instance (c : Cluster) : Decidable c.Within :=
  inferInstanceAs (Decidable (∀ p ∈ c.members.toList, _))

end Cluster

/-- An execution: nodes sharing one bootstrap voter set, and any events, with
every term and index below `u64::MAX` throughout. -/
structure Run where
  voters : OrdSet NodeId
  starts : List Start
  events : List Event
  within : ∀ k ≤ events.length, ((Cluster.init voters starts).exec (events.take k)).Within

namespace Run

/-- The cluster after the first `k` events. -/
def state (r : Run) (k : ℕ) : Cluster := (Cluster.init r.voters r.starts).exec (r.events.take k)

/-- The cluster after the first `k` events has member `id` in state `m`. -/
def Has (r : Run) (k : ℕ) (id : NodeId) (m : Member) : Prop := (r.state k).members.get? id = some m

end Run

/-- The entry at index `i` that a member holds in its log or has compacted into
its snapshot. -/
def Member.entryAt (m : Member) (i : ℕ) : Option LogEntry :=
  if i ≤ m.node.log.db.snapshotIndex then m.covered.find? (fun e => decide (e.index = i))
  else m.node.log.db.get i

end Brokkr.Raft
