import Brokkr.Control.FairQueue
import Brokkr.Control.Lease
import Brokkr.Control.Workers

/-!
# The job scheduler

`scheduler.rs` and the stream pump of `worker_service.rs`: calls run concurrently
and touch the shared state in short critical sections, each under one lock.

* `Inner` — the dispatch state under its one mutex; `Inner.requeueTaken`,
  `Inner.incTenant`, `Inner.decTenant`.
* `Segment` — one lock-delimited piece of a call.  A call in progress is the list
  of segments it has left; `Scheduler.run` runs one segment and says which
  segments take its place.
* `State.step` — one event: a call starts, or one call runs its next segment.
  Events come in any order, so a list of events is an interleaving.

What a segment reads from outside (whether a channel send succeeds, whether the
timer fires, the wall clock, what the action cache answers) is in its `Choice`.
Job ids are drawn at random in the source; here they are an input, and a call whose
id was drawn before does not start.

`Core.history` and `Core.placements` are not in the source: they record what
happened, latest first, so that properties of runs can be stated.
-/

namespace Brokkr.Control

/-! ## Data -/

/-- Dispatch attempts of a job before it is failed. -/
def maxAttempts : ℕ := 5

/-- Default ceiling on how long a call waits for a result. -/
def defaultExecutionTimeout : Duration := Duration.fromSecs (30 * 60)

/-- Default lease duration. -/
def defaultLeaseDuration : Duration := Duration.fromSecs 60

/-- Errors of the action cache; `other` carries the text. -/
inductive CasError where
  | notLeader (leader leaderAddr : Option String)
  | other (reason : String)
  deriving DecidableEq, Repr

/-- The text of an error. -/
def CasError.text : CasError → String
  | .notLeader _ _ => "not the leader"
  | .other reason => reason

/-- Errors of `execute`. -/
inductive ExecutionError where
  | timeout (after : Duration)
  | noEligibleWorker
  | quotaExceeded (limit : ℕ)
  | other (reason : String)
  deriving DecidableEq, Repr

/-- Outcome of an executed action. -/
structure ExecutionOutcome where
  result : ActionResult
  cacheHit : Bool
  resultCached : Bool
  deriving DecidableEq, Repr

/-- A job as it is sent to a worker. -/
structure Job where
  jobId : String
  actionDigest : RawDigest
  action : Action
  command : Command
  deriving DecidableEq, Repr

/-- What a worker reports. -/
structure JobResult where
  jobId : String
  result : Option ActionResult := none
  errorMessage : String := ""
  deriving DecidableEq, Repr

/-- A job in the pending queue or under a lease. -/
structure PendingJob where
  jobId : JobId
  tenant : TenantId
  job : Job
  platform : Platform
  leaseDuration : Duration
  attempts : ℕ
  actionDigest : Digest
  inputRootDigest : Option Digest

/-- The dispatch state, under one mutex. -/
structure Inner where
  connected : ConnectedWorkers := {}
  pending : FairQueue PendingJob := {}
  leases : LeaseTable PendingJob := {}
  locality : LocalityIndex := {}
  jobHistory : JobHistory := {}
  tenantInflight : OrdMap TenantId ℕ := ∅

namespace Inner

/-- In-flight jobs of a tenant. -/
def tenantInflightOf (inner : Inner) (tenant : TenantId) : ℕ :=
  (inner.tenantInflight.get? tenant).getD 0

/-- One more in-flight job of a tenant. -/
def incTenant (inner : Inner) (tenant : TenantId) : Inner :=
  { inner with tenantInflight :=
      inner.tenantInflight.insert tenant (inner.tenantInflightOf tenant + 1) }

/-- One fewer in-flight job of a tenant; at zero the entry goes. -/
def decTenant (inner : Inner) (tenant : TenantId) : Inner :=
  match inner.tenantInflight.get? tenant with
  | none => inner
  | some n =>
    if n - 1 = 0 then { inner with tenantInflight := inner.tenantInflight.erase tenant }
    else { inner with tenantInflight := inner.tenantInflight.insert tenant (n - 1) }

/-- Put jobs whose lease was taken away back into the queue, with one more attempt
on their count; jobs out of attempts are returned instead, after the number of
those that were requeued. -/
def requeueTaken (inner : Inner) : List (JobId × PendingJob) → Inner × ℕ × List JobId
  | [] => (inner, 0, [])
  | (id, pj) :: jobs =>
    let pj := { pj with attempts := pj.attempts + 1 }
    if maxAttempts ≤ pj.attempts then
      let r := requeueTaken inner jobs
      (r.1, r.2.1, id :: r.2.2)
    else
      let r := requeueTaken { inner with pending := inner.pending.push pj.tenant pj } jobs
      (r.1, r.2.1 + 1, r.2.2)

end Inner

/-- The parts of the scheduler that do not change. -/
structure Scheduler where
  strategy : Strategy := simpleFifo
  maxConcurrentPerTenant : Option ℕ := none
  defaultExecutionTimeout : Duration := Control.defaultExecutionTimeout
  leaseDuration : Duration := defaultLeaseDuration
  nodeId : String := "local"

/-- Something that happened. -/
inductive Mark where
  | admitted (job : JobId) (tenant : TenantId)
  | placed (job : JobId) (worker : WorkerId) (stream : StreamId)
  | sent (stream : StreamId) (job : JobId)
  | accepted (stream : StreamId) (job : JobId) (worker : WorkerId)
  | expired (job : JobId)
  | gaveUp (job : JobId)
  | timedOut (job : JobId)
  | returned (job : JobId) (outcome : Except ExecutionError ExecutionOutcome)
  | released (job : JobId) (tenant : TenantId)
  deriving DecidableEq

/-- The latest placement of a job. -/
structure Placement where
  number : ℕ
  stream : StreamId
  deriving DecidableEq

/-- The shared state. -/
structure Core where
  inner : Inner := {}
  waiters : OrdSet JobId := ∅
  delivered : OrdMap JobId JobResult := ∅
  registry : Option WorkerRegistry := none
  uncachedResultsNotLeader : ℕ := 0
  placements : OrdMap JobId Placement := ∅
  placementCount : ℕ := 0
  history : List Mark := []

/-- Record that something happened. -/
def Core.mark (c : Core) (m : Mark) : Core := { c with history := m :: c.history }

/-! ## One critical section after the other -/

/-- A lock-delimited piece of a call. -/
inductive Segment where
  | registerWaiter (job : JobId)
  | admission (pj : PendingJob) (timeout : Duration)
  | withdrawWaiter (job : JobId) (limit : ℕ)
  | dispatch
  | select (now : Instant)
  | send (number : ℕ) (worker : WorkerId) (tx : StreamId) (pj : PendingJob)
  | sendFailed (number : ℕ) (worker : WorkerId) (pj : PendingJob)
  | failJob (job : JobId)
  | startWait (job : JobId) (timeout : Duration)
  | awaitResult (job : JobId) (timeout : Duration) (deadline : Instant)
  | expireWaiter (job : JobId) (timeout : Duration)
  | cancel (job : JobId) (timeout : Duration)
  | recordResult (job : JobId) (report : JobResult)
  | release (job : JobId) (tenant : TenantId)
  | connect (worker : WorkerId) (tx : StreamId)
  | disconnect (worker : WorkerId)
  | takeExpired (now : Instant)
  | recordHeartbeat (worker : WorkerId)
  | startRenew (worker : WorkerId)
  | renew (worker : WorkerId) (deadline : Instant)
  | report (stream : StreamId) (job : JobId) (result : JobResult)
  | wake (job : JobId) (result : JobResult)

/-- What a segment finds outside the scheduler. -/
structure Choice where
  sent : Bool := true
  timeout : Bool := false
  policy : ℕ := 0
  unixMs : ℕ := 0
  gcWindow : Except CasError Unit := .ok ()
  cacheWrite : Except CasError Unit := .ok ()

namespace Core

variable (c : Core)

/-- The workers a job can go to: eligible, connected, and without a lease. -/
def candidates (now : Instant) (platform : Platform) : List WorkerId :=
  match c.registry with
  | some reg =>
    ((eligibleWorkers reg now platform).map Prod.fst).filter fun id =>
      c.inner.connected.isConnected id && !c.inner.leases.isWorkerBusy id
  | none => c.inner.connected.connectedIds.filter fun id => !c.inner.leases.isWorkerBusy id

/-- A slot with its candidates: index, candidates, start tag. -/
abbrev Best := Option (ℕ × List WorkerId × ℕ)

/-- One turn of the scan for the best slot. -/
def considerSlot (now : Instant) (best : Best) (slot : Slot PendingJob) : Best :=
  if best.any fun b => decide (b.2.2 ≤ slot.start) then best
  else
    let candidates := c.candidates now slot.job.platform
    if candidates.isEmpty then best else some (slot.index, candidates, slot.start)

/-- The slot with the least start tag that has a candidate. -/
def bestSlot (now : Instant) : Best := c.inner.pending.slots.foldl (c.considerSlot now) none

end Core

/-- What `try_dispatch` has placed. -/
structure Placed where
  inner : Inner
  worker : WorkerId
  tx : StreamId
  pj : PendingJob

namespace Scheduler

variable (sch : Scheduler)

/-- The critical section of `try_dispatch`. -/
def place (c : Core) (now : Instant) (policy : ℕ) : Option Placed := do
  let (idx, candidates, _) ← c.bestSlot now
  let candidates := candidates.insertionSort (· ≤ ·)
  let winner ← c.inner.pending.get idx
  let ctx : DecisionContext :=
    { loads := c.inner.connected
      locality := c.inner.locality
      job := ⟨winner.job.tenant, winner.job.actionDigest, winner.job.inputRootDigest,
        winner.job.platform⟩ }
  let worker ← sch.strategy.chooseWith policy candidates ctx
  let tx ← c.inner.connected.sender worker
  let (pending, taken) := c.inner.pending.take idx
  let pj ← taken
  let leases := c.inner.leases.insert pj.jobId worker (now + pj.leaseDuration) pj
  return ⟨{ c.inner with pending := pending, leases := leases }, worker, tx, pj⟩

/-- The record of a completed job. -/
def summary (pj : PendingJob) (worker : WorkerId) (result : JobResult) (unixMs : ℕ) :
    JobSummary :=
  let exitCode := result.result.map ActionResult.exitCode
  { jobId := pj.jobId.asStr
    tenant := pj.tenant.asStr
    actionDigest := pj.actionDigest.hash
    state := if exitCode = some 0 then .succeeded else .failed
    workerId := some worker.asStr
    exitCode := exitCode
    completedAtUnixMs := unixMs
    owningNode := sch.nodeId }

/-- The critical section of `report`; the worker under whom the report was recorded, if
it was accepted. -/
def completeLease (inner : Inner) (job : JobId) (result : JobResult) (unixMs : ℕ) :
    Inner × Option WorkerId :=
  let worker := inner.leases.workerOf job
  let (leases, completed) := inner.leases.complete job
  let inner := { inner with leases := leases }
  match worker, completed with
  | some w, some pj =>
    ({ inner with
        locality := inner.locality.record w pj.actionDigest pj.inputRootDigest
        jobHistory := inner.jobHistory.record (sch.summary pj w result unixMs) }, some w)
  | _, _ => (inner, none)

/-- What a woken call makes of the report; the flag says that the result stayed uncached
because this node is not the leader. -/
def settle (report : JobResult) (ch : Choice) :
    Except ExecutionError ExecutionOutcome × Bool :=
  if report.errorMessage ≠ "" then
    (.error (.other ("worker error: " ++ report.errorMessage)), false)
  else
    match report.result with
    | none => (.error (.other "worker reported no ActionResult"), false)
    | some result =>
      if result.exitCode = 0 then
        match ch.gcWindow, ch.cacheWrite with
        | .error e, _ => (.error (.other ("gc_window: " ++ e.text)), false)
        | .ok _, .ok _ => (.ok ⟨result, false, true⟩, false)
        | .ok _, .error (.notLeader _ _) => (.ok ⟨result, false, false⟩, true)
        | .ok _, .error e => (.error (.other ("action cache update: " ++ e.text)), false)
      else (.ok ⟨result, false, true⟩, false)

/-- Run one segment: the new shared state and the segments that follow, or nothing if the
segment has to wait. -/
def run (c : Core) (ch : Choice) (now : Instant) : Segment → Option (Core × List Segment)
  | .registerWaiter job => some ({ c with waiters := c.waiters.insert job }, [])
  | .admission pj timeout =>
    let admitted : Core × List Segment :=
      ({ c with
          inner := { c.inner.incTenant pj.tenant with
            pending := c.inner.pending.push pj.tenant pj }
          history := .admitted pj.jobId pj.tenant :: c.history },
        [.dispatch, .startWait pj.jobId timeout, .release pj.jobId pj.tenant])
    match sch.maxConcurrentPerTenant with
    | some limit =>
      if limit ≤ c.inner.tenantInflightOf pj.tenant then
        some (c, [.withdrawWaiter pj.jobId limit])
      else some admitted
    | none => some admitted
  | .withdrawWaiter job limit =>
    some ({ c with
      waiters := c.waiters.erase job
      history := .returned job (.error (.quotaExceeded limit)) :: c.history }, [])
  | .dispatch => some (c, [.select now])
  | .select read =>
    match sch.place c read ch.policy with
    | none => some (c, [])
    | some placed =>
      some ({ c with
          inner := placed.inner
          placements := c.placements.insert placed.pj.jobId ⟨c.placementCount, placed.tx⟩
          placementCount := c.placementCount + 1
          history := .placed placed.pj.jobId placed.worker placed.tx :: c.history },
        [.send c.placementCount placed.worker placed.tx placed.pj])
  | .send number worker tx pj =>
    if ch.sent then some (c.mark (.sent tx pj.jobId), [.dispatch])
    else some (c, [.sendFailed number worker pj])
  | .sendFailed _ worker pj =>
    let pj := { pj with attempts := pj.attempts + 1 }
    let inner := { c.inner with
      leases := (c.inner.leases.complete pj.jobId).1
      connected := c.inner.connected.disconnect worker }
    if maxAttempts ≤ pj.attempts then
      some ({ c with inner := inner, history := .gaveUp pj.jobId :: c.history },
        [.failJob pj.jobId, .dispatch])
    else
      some ({ c with inner := { inner with pending := inner.pending.push pj.tenant pj } },
        [.dispatch])
  | .failJob job => some ({ c with waiters := c.waiters.erase job }, [])
  | .startWait job timeout => some (c, [.awaitResult job timeout (now + timeout)])
  | .awaitResult job timeout deadline =>
    match c.delivered.get? job with
    | some report =>
      some ({ c with delivered := c.delivered.erase job }, [.recordResult job report])
    | none =>
      if job ∈ c.waiters then
        if ch.timeout && decide (deadline ≤ now) then some (c, [.expireWaiter job timeout])
        else none
      else
        some (c.mark (.returned job
          (.error (.other "job failed before producing a result"))), [])
  | .expireWaiter job timeout =>
    some ({ c with waiters := c.waiters.erase job }, [.cancel job timeout])
  | .cancel job timeout =>
    some ({ c with
      inner := { c.inner with
        pending := c.inner.pending.retain fun p => decide (p.jobId ≠ job)
        leases := (c.inner.leases.complete job).1 }
      history := .returned job (.error (.timeout timeout)) :: .timedOut job :: c.history }, [])
  | .recordResult job report =>
    let (outcome, uncached) := settle report ch
    some ({ c with
      uncachedResultsNotLeader := c.uncachedResultsNotLeader + if uncached then 1 else 0
      history := .returned job outcome :: c.history }, [])
  | .release job tenant =>
    some ({ c with
      inner := c.inner.decTenant tenant
      history := .released job tenant :: c.history }, [])
  | .connect worker tx =>
    some ({ c with
      inner := { c.inner with connected := c.inner.connected.connect worker tx } }, [])
  | .disconnect worker =>
    let (leases, held) := c.inner.leases.takeWorker worker
    let inner := { c.inner with
      connected := c.inner.connected.disconnect worker
      leases := leases }
    let (inner, _, giveUp) := inner.requeueTaken held
    some ({ c with inner := inner, history := giveUp.map .gaveUp ++ c.history },
      giveUp.map .failJob ++ [.dispatch])
  | .takeExpired read =>
    let (leases, expired) := c.inner.leases.takeExpired read
    let (inner, requeued, giveUp) := ({ c.inner with leases := leases }).requeueTaken expired
    some ({ c with
        inner := inner
        history := giveUp.map .gaveUp ++ (expired.map fun p => .expired p.1) ++ c.history },
      giveUp.map .failJob ++ if 0 < requeued then [.dispatch] else [])
  | .recordHeartbeat worker =>
    match c.registry with
    | none => some (c, [])
    | some reg =>
      let (reg, known) := reg.recordHeartbeat worker now
      some ({ c with registry := some reg }, if known then [.startRenew worker] else [])
  | .startRenew worker => some (c, [.renew worker (now + sch.leaseDuration)])
  | .renew worker deadline =>
    some ({ c with
      inner := { c.inner with leases := c.inner.leases.renewWorker worker deadline } }, [])
  | .report stream job result =>
    match sch.completeLease c.inner job result ch.unixMs with
    | (inner, none) => some ({ c with inner := inner }, [])
    | (inner, some worker) =>
      some ({ c with inner := inner, history := .accepted stream job worker :: c.history },
        [.wake job result, .dispatch])
  | .wake job result =>
    if job ∈ c.waiters then
      some ({ c with
        waiters := c.waiters.erase job
        delivered := c.delivered.insert job result }, [])
    else some (c, [])

end Scheduler

/-! ## Calls -/

/-- A call of `execute`, with what it reads before it admits its job: the cache lookup,
the messages fetched from the CAS, and the id it draws. -/
structure ExecuteRequest where
  actionDigest : Digest
  skipCacheLookup : Bool := false
  tenant : TenantId
  lookup : Except CasError (Option ActionResult) := .ok none
  action : Except String Action
  command : Except String Command
  jobId : JobId

/-- What the first part of `execute` comes to. -/
inductive Prepared where
  | done (outcome : Except ExecutionError ExecutionOutcome)
  | job (pj : PendingJob) (timeout : Duration)

namespace Scheduler

variable (sch : Scheduler)

variable (registry : Option WorkerRegistry)

/-- Is there a live worker for a platform, as far as that is checked? -/
def hasMatch (now : Instant) (platform : Platform) : Bool :=
  match registry with
  | none => true
  | some reg => !(eligibleWorkers reg now platform).isEmpty

/-- The per-action timeout: a positive one of the action, else the default. -/
def effectiveTimeout (action : Action) : Duration :=
  match action.timeout with
  | some s => if 0 < s then Duration.fromSecs s.toNat else sch.defaultExecutionTimeout
  | none => sch.defaultExecutionTimeout

/-- `execute` once the action and the command are there. -/
def prepareJob (now : Instant) (req : ExecuteRequest)
    (action : Action) (command : Command) : Prepared :=
  let platform := (action.platform.or command.platform).getD {}
  let inputRoot := action.inputRootDigest.bind fun d => (Digest.ofRaw d).toOption
  if hasMatch registry now platform then
    let timeout := sch.effectiveTimeout action
    .job
      { jobId := req.jobId
        tenant := req.tenant
        job := ⟨req.jobId.asStr, ⟨req.actionDigest.hash, req.actionDigest.sizeBytes⟩, action,
          command⟩
        platform := platform
        leaseDuration := min timeout sch.leaseDuration
        attempts := 0
        actionDigest := req.actionDigest
        inputRootDigest := inputRoot }
      timeout
  else .done (.error .noEligibleWorker)

/-- `execute` after the cache lookup. -/
def prepareMiss (now : Instant) (req : ExecuteRequest) :
    Prepared :=
  match req.action with
  | .error e => .done (.error (.other ("fetching Action from CAS: " ++ e)))
  | .ok action =>
    match action.commandDigest with
    | none => .done (.error (.other "Action.command_digest missing"))
    | some d =>
      match Digest.ofRaw d, req.command with
      | .error _, _ => .done (.error (.other "invalid command digest"))
      | .ok _, .error e => .done (.error (.other ("fetching Command from CAS: " ++ e)))
      | .ok _, .ok command => sch.prepareJob registry now req action command

/-- `execute` up to the registration of the waiter. -/
def prepare (now : Instant) (req : ExecuteRequest) :
    Prepared :=
  if req.skipCacheLookup then sch.prepareMiss registry now req
  else
    match req.lookup with
    | .ok (some cached) => .done (.ok ⟨cached, true, true⟩)
    | .ok none => sch.prepareMiss registry now req
    | .error (.notLeader _ _) => sch.prepareMiss registry now req
    | .error e => .done (.error (.other ("action cache get: " ++ e.text)))

end Scheduler

/-- A call. -/
inductive Call where
  | execute (req : ExecuteRequest)
  | connectWorker (stream : StreamId) (worker : WorkerId)
  | report (stream : StreamId) (result : JobResult)
  | disconnectWorker (stream : StreamId)
  | reapExpiredLeases
  | heartbeat (worker : WorkerId)

/-- The stream whose pump makes a call. -/
def Call.stream? : Call → Option StreamId
  | .connectWorker stream _ => some stream
  | .report stream _ => some stream
  | .disconnectWorker stream => some stream
  | _ => none

/-- A call in progress. -/
structure Task where
  call : Call
  code : List Segment

/-- A worker stream. -/
structure WorkerStream where
  worker : WorkerId
  isOpen : Bool := true

/-- The whole system. -/
structure State where
  core : Core := {}
  tasks : OrdMap ℕ Task := ∅
  streams : OrdMap StreamId WorkerStream := ∅
  issued : OrdSet JobId := ∅
  clock : Instant := 0

/-- What can happen next. -/
inductive Move where
  | start (task : ℕ) (call : Call)
  | run (task : ℕ) (choice : Choice := {})
  | register (worker : WorkerId) (capabilities : WorkerCapabilities := {})
  | evictStale

/-- A move and when it happens. -/
structure Event where
  now : Instant
  move : Move

namespace State

variable (sch : Scheduler) (s : State)

/-- The pump of a stream is waiting for the next message. -/
def pumpIdle (stream : StreamId) : Bool :=
  s.tasks.toList.all fun p => decide (p.2.call.stream? ≠ some stream)

/-- The worker of an open stream whose pump can take a message. -/
def pump? (stream : StreamId) : Option WorkerId :=
  match s.streams.get? stream with
  | some ws => if ws.isOpen && s.pumpIdle stream then some ws.worker else none
  | none => none

/-- The segments of a call, and the state once it has begun; nothing if it cannot begin. -/
def begin : Call → Option (State × List Segment)
  | .execute req =>
    if req.jobId ∈ s.issued then none
    else
      match sch.prepare s.core.registry s.clock req with
      | .done _ => none
      | .job pj timeout =>
        some ({ s with issued := s.issued.insert req.jobId },
          [.registerWaiter pj.jobId, .admission pj timeout])
  | .connectWorker stream worker =>
    if s.streams.contains stream then none
    else some ({ s with streams := s.streams.insert stream { worker := worker } },
      [.connect worker stream, .dispatch])
  | .report stream result =>
    match s.pump? stream, JobId.new result.jobId with
    | some _, .ok job => some (s, [.report stream job result])
    | _, _ => none
  | .disconnectWorker stream =>
    match s.pump? stream with
    | some worker =>
      some ({ s with streams := s.streams.insert stream ⟨worker, false⟩ }, [.disconnect worker])
    | none => none
  | .reapExpiredLeases => some (s, [.takeExpired s.clock])
  | .heartbeat worker => some (s, [.recordHeartbeat worker])

/-- A call starts, unless its number is taken or it cannot begin. -/
def startCall (task : ℕ) (call : Call) : State :=
  if s.tasks.contains task then s
  else
    match s.begin sch call with
    | none => s
    | some (s', code) => { s' with tasks := s'.tasks.insert task ⟨call, code⟩ }

/-- Put a call back with what it has left; a call with nothing left has returned. -/
def setCode (task : ℕ) (call : Call) (code : List Segment) : OrdMap ℕ Task :=
  if code.isEmpty then s.tasks.erase task else s.tasks.insert task ⟨call, code⟩

/-- A call runs its next segment, unless that has to wait. -/
def runTask (task : ℕ) (ch : Choice) : State :=
  match s.tasks.get? task with
  | none => s
  | some t =>
    match t.code with
    | [] => s
    | seg :: rest =>
      match sch.run s.core ch s.clock seg with
      | none => s
      | some (core, next) => { s with core := core, tasks := s.setCode task t.call (next ++ rest) }

/-- The registry changes. -/
def updateRegistry (f : WorkerRegistry → WorkerRegistry) : State :=
  { s with core := { s.core with registry := s.core.registry.map f } }

/-- One event; time does not run backwards. -/
def step (e : Event) : State :=
  if e.now < s.clock then s
  else
    let s := { s with clock := e.now }
    match e.move with
    | .start task call => s.startCall sch task call
    | .run task choice => s.runTask sch task choice
    | .register worker capabilities =>
      s.updateRegistry fun r => r.register worker capabilities e.now
    | .evictStale => s.updateRegistry fun r => r.evictStale e.now

end State

/-- A run: a scheduler, the registry it starts with, and an interleaving. -/
structure SchedulerRun where
  scheduler : Scheduler := {}
  registry : Option WorkerRegistry := none
  events : List Event

namespace SchedulerRun

/-- The state before the first event. -/
def init (r : SchedulerRun) : State := { core := { registry := r.registry } }

/-- The state after `k` events. -/
def state (r : SchedulerRun) (k : ℕ) : State :=
  (r.events.take k).foldl (fun s e => s.step r.scheduler e) r.init

end SchedulerRun

end Brokkr.Control
