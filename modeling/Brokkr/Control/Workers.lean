import Brokkr.Reapi
import Brokkr.Lib.Vec

/-!
# Workers: who is alive, what they can run, who is connected

`registry.rs`, `matching.rs`, `locality.rs`, `views/job.rs` and `scheduling.rs`:
what the scheduler knows about its workers and how it chooses one of them.

* `WorkerRegistry` — declared capabilities and heartbeats; `eligibleWorkers` are
  the live workers whose labels satisfy a platform.
* `LocalityIndex`, `JobHistory` — what was completed where; both are bounded.
* `ConnectedWorkers` — the open streams, with their job channels.
* `Strategy` — a placement policy; `Strategy.Abides` is its contract, and
  `simpleFifo` and `binPacking` keep it.

Hash maps of the source are kept in the order of their keys: no result here
depends on their order.
-/

namespace Brokkr.Control

open OrdMap

/-! ## The registry -/

/-- What a worker can run. -/
structure WorkerCapabilities where
  labels : OrdMap String String := ∅

/-- How often workers heartbeat and how many they may miss. -/
structure HeartbeatPolicy where
  interval : Duration := Duration.fromSecs 5
  maxMissed : ℕ := 3

/-- A worker not heard from for longer is evictable. -/
def HeartbeatPolicy.deadline (policy : HeartbeatPolicy) : Duration :=
  policy.interval * policy.maxMissed

/-- A registered worker. -/
structure WorkerRecord where
  capabilities : WorkerCapabilities
  registeredAt : Instant
  lastSeen : Instant

/-- Has the worker missed too many heartbeats? -/
def WorkerRecord.isStale (record : WorkerRecord) (now : Instant) (policy : HeartbeatPolicy) :
    Bool :=
  decide (policy.deadline < now - record.lastSeen)

/-- The registered workers. -/
structure WorkerRegistry where
  workers : OrdMap WorkerId WorkerRecord := ∅
  policy : HeartbeatPolicy := {}

namespace WorkerRegistry

variable (r : WorkerRegistry)

/-- Register a worker; a second registration starts afresh. -/
def register (id : WorkerId) (capabilities : WorkerCapabilities)
    (now : Instant) : WorkerRegistry :=
  { r with workers := r.workers.insert id ⟨capabilities, now, now⟩ }

/-- Record a heartbeat; the second component says whether the worker is known. -/
def recordHeartbeat (id : WorkerId) (now : Instant) :
    WorkerRegistry × Bool :=
  match r.workers.get? id with
  | some record => ({ r with workers := r.workers.insert id { record with lastSeen := now } }, true)
  | none => (r, false)

/-- Remove every stale worker. -/
def evictStale (now : Instant) : WorkerRegistry :=
  { r with workers := r.workers.filter fun _ record => !record.isStale now r.policy }

/-- The workers that are not stale. -/
def healthy (now : Instant) : List (WorkerId × WorkerRecord) :=
  r.workers.toList.filter fun p => !p.2.isStale now r.policy

end WorkerRegistry

/-- Every property of the platform is a label. -/
def labelsSatisfyPlatform (labels : OrdMap String String) (platform : Platform) : Bool :=
  platform.properties.all fun p => decide (labels.get? p.name = some p.value)

/-- Does a worker satisfy a platform? -/
def workerSatisfies (caps : WorkerCapabilities) (platform : Platform) : Bool :=
  labelsSatisfyPlatform caps.labels platform

/-- The live workers that satisfy a platform. -/
def eligibleWorkers (registry : WorkerRegistry) (now : Instant) (platform : Platform) :
    List (WorkerId × WorkerRecord) :=
  (registry.healthy now).filter fun p => workerSatisfies p.2.capabilities platform

/-! ## What was completed where -/

/-- A completed job, reduced to what locality is about. -/
structure Completion where
  action : Digest
  inputRoot : Option Digest
  deriving DecidableEq

/-- The recent completions of one worker. -/
structure WorkerHistory where
  recent : List Completion := []
  lastTouch : ℕ := 0

/-- A bounded history of completions, by worker. -/
structure LocalityIndex where
  window : ℕ := 64
  maxWorkers : ℕ := 1024
  workers : OrdMap WorkerId WorkerHistory := ∅
  tick : ℕ := 0

namespace LocalityIndex

/-- An empty index; both bounds are at least one. -/
def new (window maxWorkers : ℕ) : LocalityIndex :=
  { window := max window 1, maxWorkers := max maxWorkers 1 }

variable (x : LocalityIndex)

/-- Drop the least recently active worker other than `keep`. -/
def evictLeastRecent (keep : WorkerId) : LocalityIndex :=
  -- ties are broken by the id, and the list is in the order of the ids
  match firstMin (fun p => p.2.lastTouch)
      (x.workers.toList.filter fun p => decide (p.1 ≠ keep)) with
  | some (_, victim) => { x with workers := x.workers.erase victim.1 }
  | none => x

variable (worker : WorkerId)

/-- Record that a worker completed an action. -/
def record (action : Digest)
    (inputRoot : Option Digest) : LocalityIndex :=
  let tick := (x.tick + 1) % 2 ^ 64
  let history := (x.workers.get? worker).getD {}
  let recent := history.recent ++ [⟨action, inputRoot⟩]
  let recent := if x.window < recent.length then recent.tail else recent
  let x' := { x with tick := tick, workers := x.workers.insert worker ⟨recent, tick⟩ }
  if x'.maxWorkers < x'.workers.toList.length then x'.evictLeastRecent worker else x'

/-- Number of workers tracked. -/
def trackedWorkers : ℕ := x.workers.toList.length

/-- Forget everything about a worker. -/
def forget : LocalityIndex :=
  { x with workers := x.workers.erase worker }

/-- How many of a worker's recent completions satisfy `p`, as a `u32`. -/
def hits (p : Completion → Bool) : ℕ :=
  match x.workers.get? worker with
  | none => 0
  | some h => h.recent.countP p % 2 ^ 32

/-- How many of a worker's recent completions used an input root. -/
def inputRootHits (inputRoot : Digest) : ℕ :=
  x.hits worker fun c => decide (c.inputRoot = some inputRoot)

/-- How many of a worker's recent completions were an action. -/
def actionHits (action : Digest) : ℕ :=
  x.hits worker fun c => decide (c.action = action)

end LocalityIndex

/-- What happened to a job. -/
inductive JobState where
  | queued
  | running
  | succeeded
  | failed
  deriving DecidableEq, Repr

/-- A job as an operator sees it. -/
structure JobSummary where
  jobId : String
  tenant : String
  actionDigest : String
  state : JobState
  workerId : Option String
  exitCode : Option ℤ
  completedAtUnixMs : ℕ
  owningNode : String
  deriving DecidableEq, Repr

/-- A bounded ring of recently completed jobs, oldest first. -/
structure JobHistory where
  entries : List JobSummary := []
  capacity : ℕ := 256

/-- Record a completed job, dropping the oldest one of a full ring. -/
def JobHistory.record (h : JobHistory) (summary : JobSummary) : JobHistory :=
  let entries := if h.entries.length = h.capacity then h.entries.tail else h.entries
  { h with entries := entries ++ [summary] }

/-! ## Connections -/

/-- A worker stream: the job channel that was opened for it. -/
abbrev StreamId := ℕ

/-- A connected worker. -/
structure WorkerConn where
  jobTx : StreamId
  inflight : ℕ := 0
  deriving DecidableEq

/-- The workers with an open stream. -/
structure ConnectedWorkers where
  workers : OrdMap WorkerId WorkerConn := ∅

namespace ConnectedWorkers

variable (c : ConnectedWorkers)

variable (id : WorkerId)

/-- Record a worker's job channel, replacing a previous connection. -/
def connect (jobTx : StreamId) : ConnectedWorkers :=
  ⟨c.workers.insert id { jobTx := jobTx }⟩

/-- Remove a worker. -/
def disconnect : ConnectedWorkers := ⟨c.workers.erase id⟩

/-- Has the worker an open stream? -/
def isConnected : Bool := c.workers.contains id

/-- The connected workers. -/
def connectedIds : List WorkerId := c.workers.keys

/-- The job channel of a worker. -/
def sender : Option StreamId :=
  (c.workers.get? id).map WorkerConn.jobTx

/-- The in-flight count of a worker; an unknown worker reads as zero. -/
def inflight : ℕ :=
  ((c.workers.get? id).map WorkerConn.inflight).getD 0

theorem sender_connect (jobTx : StreamId) (w : WorkerId) :
    (c.connect id jobTx).sender w = if w = id then some jobTx else c.sender w := by
  rw [sender, connect, get?_insert]
  split <;> rfl

theorem sender_disconnect (id w : WorkerId) :
    (c.disconnect id).sender w = if w = id then none else c.sender w := by
  rw [sender, disconnect, get?_erase]
  split <;> rfl

theorem isConnected_iff {c : ConnectedWorkers} {id : WorkerId} :
    c.isConnected id = true ↔ ∃ tx, c.sender id = some tx := by
  rw [isConnected, contains, Option.isSome_iff_exists, sender]
  constructor
  · rintro ⟨conn, h⟩
    exact ⟨conn.jobTx, by rw [h]; rfl⟩
  rintro ⟨tx, h⟩
  obtain ⟨conn, hconn, -⟩ := Option.map_eq_some_iff.1 h
  exact ⟨conn, hconn⟩

theorem mem_connectedIds {c : ConnectedWorkers} {id : WorkerId} :
    id ∈ c.connectedIds ↔ c.isConnected id = true := by
  rw [connectedIds, mem_keys, isConnected, contains, Option.isSome_iff_exists]

end ConnectedWorkers

/-! ## Placement policies -/

/-- What a policy may know about the job it is placing. -/
structure JobFacts where
  tenant : TenantId
  actionDigest : Digest
  inputRootDigest : Option Digest
  platform : Platform

/-- Everything a policy is given besides the candidates. -/
structure DecisionContext where
  loads : ConnectedWorkers
  locality : LocalityIndex
  job : JobFacts

/-- A placement policy.  Policies may keep a state of their own (a loaded guest, a
failure count): the number stands for it. -/
structure Strategy where
  chooseWith : ℕ → List WorkerId → DecisionContext → Option WorkerId

/-- The contract of a policy: it chooses one of the candidates, unless there is none. -/
structure Strategy.Abides (s : Strategy) : Prop where
  mem : ∀ {n candidates ctx w}, s.chooseWith n candidates ctx = some w → w ∈ candidates
  some : ∀ {n candidates ctx}, candidates ≠ [] → (s.chooseWith n candidates ctx).isSome = true

/-- The least element, the first of them on ties. -/
def minBy (lt : WorkerId → WorkerId → Bool) : List WorkerId → Option WorkerId
  | [] => none
  | a :: l =>
    match minBy lt l with
    | none => some a
    | some b => if lt b a then some b else some a

variable {lt : WorkerId → WorkerId → Bool}

theorem minBy_mem {l : List WorkerId} {w : WorkerId}
    (h : minBy lt l = some w) : w ∈ l := by
  induction l generalizing w with
  | nil => cases h
  | cons a l ih =>
    rw [minBy] at h
    split at h
    · cases h
      exact List.mem_cons_self
    rename_i b hb
    split at h
    · cases h
      exact List.mem_cons_of_mem _ (ih hb)
    · cases h
      exact List.mem_cons_self

theorem minBy_isSome {l : List WorkerId} (h : l ≠ []) :
    (minBy lt l).isSome = true := by
  cases l with
  | nil => exact absurd rfl h
  | cons =>
    rw [minBy]
    split
    · rfl
    · split <;> rfl

/-- `a` has less load than `b`, or the same load and the smaller id. -/
def lessLoaded (loads : ConnectedWorkers) (a b : WorkerId) : Bool :=
  decide (loads.inflight a < loads.inflight b) ||
    (decide (loads.inflight a = loads.inflight b) && decide (a < b))

/-- `a` has more load than `b`, or the same load and the smaller id. -/
def moreLoaded (loads : ConnectedWorkers) (a b : WorkerId) : Bool :=
  decide (loads.inflight b < loads.inflight a) ||
    (decide (loads.inflight a = loads.inflight b) && decide (a < b))

/-- `SimpleFifo`: the least-loaded candidate. -/
def simpleFifo : Strategy where
  chooseWith _ candidates ctx := minBy (lessLoaded ctx.loads) candidates

/-- `BinPacking`: the most-loaded candidate under the cap, else the least-loaded. -/
def binPacking (cap : ℕ) : Strategy where
  chooseWith _ candidates ctx :=
    match minBy (moreLoaded ctx.loads)
        (candidates.filter fun w => decide (ctx.loads.inflight w < max cap 1)) with
    | some w => some w
    | none => minBy (lessLoaded ctx.loads) candidates

theorem simpleFifo_abides : simpleFifo.Abides where
  mem h := minBy_mem h
  some h := minBy_isSome h

theorem binPacking_abides (cap : ℕ) : (binPacking cap).Abides where
  mem {n candidates ctx w} h := by
    simp only [binPacking] at h
    split at h
    · rename_i w' hw
      cases h
      exact List.mem_of_mem_filter (minBy_mem hw)
    · exact minBy_mem h
  some {n candidates ctx} h := by
    simp only [binPacking]
    split
    · rfl
    · exact minBy_isSome h

end Brokkr.Control
