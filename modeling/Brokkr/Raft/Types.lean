import Brokkr.Lib.OrdMap

/-!
# The data of a Raft node

The newtypes, log entries, configurations and messages of `brokkr-raft`
(`types.rs`, `state.rs`, `rng.rs`, `error.rs` and the request and reply types of
`transport.rs`).

* `Term.next`, `LogIndex.next` — terms and log indices are `u64` counters:
  natural numbers whose successor saturates at `u64Max`.  A log index is
  1-based; `0` is "before the first entry".
* `ClusterConfig.hasQuorum` — a strict majority of `voters`, and of `oldVoters`
  while the configuration is joint.
* `HardState.steppedTo`, `HardState.votingFor` — the only two ways the durable
  vote changes.
* `Rng.electionTimeout` — SplitMix64 jitter between the two timeout bounds.

Durations and instants count nanoseconds.
-/

namespace Brokkr.Raft

/-! ## Counters -/

/-- `u64::MAX`. -/
def u64Max : ℕ := 2 ^ 64 - 1

/-- `saturating_add(1)` on a `u64`. -/
def saturatingSucc (v : ℕ) : ℕ := if v < u64Max then v + 1 else v

theorem saturatingSucc_of_lt {v : ℕ} (h : v < u64Max) : saturatingSucc v = v + 1 := if_pos h

/-- The next term (saturating). -/
def Term.next (t : ℕ) : ℕ := saturatingSucc t

/-- The next index (saturating). -/
def LogIndex.next (i : ℕ) : ℕ := saturatingSucc i

/-- The previous index, or `0` if already zero (saturating). -/
def LogIndex.prev (i : ℕ) : ℕ := i - 1

/-- Opaque bytes: a state-machine command or a snapshot blob. -/
abbrev Bytes := List UInt8

/-- Maximum byte length of a `NodeId`. -/
def nodeIdMaxLen : ℕ := 128

/-- A stable identifier for a Raft node: non-empty and at most `nodeIdMaxLen`
bytes. -/
structure NodeId where
  asStr : String
  nonempty : asStr ≠ ""
  short : asStr.utf8ByteSize ≤ nodeIdMaxLen
  deriving DecidableEq, Repr

theorem NodeId.asStr_injective : Function.Injective NodeId.asStr := by
  rintro ⟨a, _, _⟩ ⟨b, _, _⟩ h
  cases h
  rfl

instance : LinearOrder NodeId := LinearOrder.lift' NodeId.asStr NodeId.asStr_injective

/-! ## Errors -/

/-- Errors surfaced by the Raft engine. -/
inductive RaftError where
  | invalidNodeId (reason : String)
  | storage (reason : String)
  | codec (reason : String)
  | transport (reason : String)
  | unknownPeer (peer : String)
  | notLeader (leader : Option String)
  | snapshot (reason : String)
  | confChange (reason : String)
  deriving DecidableEq, Repr

/-- `NodeId::new`: validate an identifier. -/
def NodeId.new (inner : String) : Except RaftError NodeId :=
  if h : inner = "" then .error (.invalidNodeId "empty")
  else if h' : inner.utf8ByteSize ≤ nodeIdMaxLen then .ok ⟨inner, h, h'⟩
  else .error (.invalidNodeId s!"exceeds {nodeIdMaxLen} bytes: got {inner.utf8ByteSize}")

/-! ## Configurations -/

/-- A cluster membership configuration. `oldVoters` marks the joint
configuration C_old,new, where agreement needs a majority of both voter sets. -/
structure ClusterConfig where
  voters : OrdSet NodeId := ∅
  oldVoters : Option (OrdSet NodeId) := none
  learners : OrdSet NodeId := ∅
  deriving DecidableEq, Inhabited

namespace ClusterConfig

/-- A non-joint configuration with the given voters and no learners. -/
def single (voters : OrdSet NodeId) : ClusterConfig := { voters := voters }

/-- Is this the joint configuration C_old,new? -/
def isJoint (c : ClusterConfig) : Bool := c.oldVoters.isSome

/-- A strict majority of `voters` is among `acks`; no set is a majority of an
empty voter set. -/
def majority (voters acks : OrdSet NodeId) : Bool :=
  !voters.isEmpty &&
    decide (voters.toList.length < (voters.toList.filter (fun v => decide (v ∈ acks))).length * 2)

/-- Does `acks` satisfy quorum: a strict majority of `voters`, and of
`oldVoters` when joint? -/
def hasQuorum (c : ClusterConfig) (acks : OrdSet NodeId) : Bool :=
  majority c.voters acks &&
    match c.oldVoters with
    | none => true
    | some old => majority old acks

end ClusterConfig

/-- What a snapshot replaces: the log prefix up to `lastIncludedIndex`, and the
configuration in effect there. -/
structure SnapshotMeta where
  lastIncludedIndex : ℕ
  lastIncludedTerm : ℕ
  config : ClusterConfig
  deriving DecidableEq, Inhabited

/-! ## Log entries -/

/-- The payload of a log entry. -/
inductive EntryPayload where
  | command (bytes : Bytes)
  | noop
  | config (config : ClusterConfig)
  deriving DecidableEq, Inhabited

/-- One entry in the replicated log. -/
structure LogEntry where
  term : ℕ
  index : ℕ
  payload : EntryPayload
  deriving DecidableEq, Inhabited

namespace LogEntry

/-- A command entry. -/
def new (term : ℕ) (index : ℕ) (command : Bytes) : LogEntry :=
  { term := term, index := index, payload := .command command }

/-- An entry with an explicit payload. -/
def withPayload (term : ℕ) (index : ℕ) (payload : EntryPayload) : LogEntry :=
  { term := term, index := index, payload := payload }

/-- The configuration a configuration entry carries. -/
def config? (e : LogEntry) : Option ClusterConfig :=
  match e.payload with
  | .config c => some c
  | _ => none

end LogEntry

/-! ## Hard state -/

/-- The durable term and vote, always written together. -/
structure HardState where
  currentTerm : ℕ := 0
  votedFor : Option NodeId := none
  deriving DecidableEq, Inhabited

namespace HardState

/-- Advance to `term` with the vote cleared. -/
def steppedTo (_h : HardState) (term : ℕ) : HardState := { currentTerm := term, votedFor := none }

/-- Vote for `candidate`, keeping the term. -/
def votingFor (h : HardState) (candidate : NodeId) : HardState :=
  { currentTerm := h.currentTerm, votedFor := some candidate }

end HardState

/-! ## Time -/

/-- A span of time in nanoseconds. -/
abbrev Duration := ℕ

/-- A point in time in nanoseconds. -/
abbrev Instant := ℕ

/-- `Duration::from_millis`. -/
def Duration.fromMillis (ms : ℕ) : Duration := ms * 1000000

/-- `Duration::as_millis`, cast to `u64`. -/
def Duration.asMillis (d : Duration) : ℕ := d / 1000000 % 2 ^ 64

/-- Timing parameters for a node. -/
structure Config where
  minElectionTimeout : Duration := Duration.fromMillis 150
  maxElectionTimeout : Duration := Duration.fromMillis 300
  heartbeatInterval : Duration := Duration.fromMillis 50
  snapshotThreshold : ℕ := 8192
  catchUpMargin : ℕ := 256
  deriving DecidableEq, Inhabited

/-- A seeded SplitMix64 generator. -/
structure Rng where
  state : UInt64
  deriving DecidableEq, Inhabited

namespace Rng

/-- A generator from a 64-bit seed. -/
def seedFromU64 (seed : UInt64) : Rng := { state := seed }

/-- The next 64-bit value, and the advanced generator. -/
def nextU64 (r : Rng) : UInt64 × Rng :=
  let state := r.state + 0x9e3779b97f4a7b15
  let z := (state ^^^ (state >>> 30)) * 0xbf58476d1ce4e5b9
  let z := (z ^^^ (z >>> 27)) * 0x94d049bb133111eb
  (z ^^^ (z >>> 31), { state := state })

/-- A value below `n` (`0` when `n = 0`). -/
def genRangeU64 (r : Rng) (n : ℕ) : ℕ × Rng :=
  if n = 0 then (0, r) else (r.nextU64.1.toNat % n, r.nextU64.2)

/-- A randomized election timeout in `[min, max]`; `min` if `max ≤ min`. -/
def electionTimeout (r : Rng) (min max : Duration) : Duration × Rng :=
  let minMs := min.asMillis
  let maxMs := max.asMillis
  if maxMs ≤ minMs then (min, r)
  else
    let jitter := r.genRangeU64 (saturatingSucc (maxMs - minMs))
    (Duration.fromMillis (Nat.min (minMs + jitter.1) u64Max), jitter.2)

end Rng

/-! ## Requests and replies -/

/-- A `RequestVote` call. -/
structure RequestVote where
  term : ℕ
  candidateId : NodeId
  lastLogIndex : ℕ
  lastLogTerm : ℕ
  deriving DecidableEq

/-- The reply to a `RequestVote`. -/
structure RequestVoteResponse where
  term : ℕ
  voteGranted : Bool
  deriving DecidableEq

/-- An `AppendEntries` call; a heartbeat when `entries` is empty. -/
structure AppendEntries where
  term : ℕ
  leaderId : NodeId
  prevLogIndex : ℕ
  prevLogTerm : ℕ
  entries : List LogEntry
  leaderCommit : ℕ
  seq : ℕ
  deriving DecidableEq

/-- The reply to an `AppendEntries`. -/
structure AppendEntriesResponse where
  term : ℕ
  success : Bool
  conflictTerm : ℕ
  conflictIndex : ℕ
  matchIndex : ℕ
  seq : ℕ
  deriving DecidableEq

/-- An `InstallSnapshot` call. -/
structure InstallSnapshot where
  term : ℕ
  leaderId : NodeId
  lastIncludedIndex : ℕ
  lastIncludedTerm : ℕ
  offset : ℕ
  data : Bytes
  done : Bool
  config : ClusterConfig
  deriving DecidableEq

/-- The metadata an `InstallSnapshot` carries. -/
def InstallSnapshot.info (request : InstallSnapshot) : SnapshotMeta where
  lastIncludedIndex := request.lastIncludedIndex
  lastIncludedTerm := request.lastIncludedTerm
  config := request.config

/-- The reply to an `InstallSnapshot`. -/
structure InstallSnapshotResponse where
  term : ℕ
  deriving DecidableEq

end Brokkr.Raft
