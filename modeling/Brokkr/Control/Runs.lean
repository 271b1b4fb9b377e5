import Brokkr.Control.Scheduler

/-!
# Runs of the scheduler

What one segment and one event can do, said once, and the invariants that every
run has.

* `Ran` — the inversion of `Scheduler.run`: one constructor for each way a segment
  can go.
* `Stepped` — the inversion of `State.step`: a call starts or runs a segment, or
  only the registry and the clock change.
* `State.segments` — all segments the calls in progress have left.  A step takes
  one of them and puts others in its place (`State.segments_advance`).
* `SchedulerRun.induction` — an invariant that holds at the start and is kept by
  every step holds throughout.
* `Tracked` — each drawn job id is admitted at most once, and only admitted jobs
  are waited for.
-/

namespace Brokkr.Control

open Option

open OrdMap

open List

/-! ## One segment -/

section Ran

variable (sch : Scheduler) (c : Core) (ch : Choice) (now : Instant)

/-- The state once a job is admitted. -/
def Core.admitJob (pj : PendingJob) : Core :=
  { c with
    inner := { c.inner.incTenant pj.tenant with pending := c.inner.pending.push pj.tenant pj }
    history := .admitted pj.jobId pj.tenant :: c.history }

/-- The state once a job is placed. -/
def Core.afterPlace (p : Placed) : Core :=
  { c with
    inner := p.inner
    placements := c.placements.insert p.pj.jobId ⟨c.placementCount, p.tx⟩
    placementCount := c.placementCount + 1
    history := .placed p.pj.jobId p.worker p.tx :: c.history }

/-- The dispatch state once a job that could not be sent lost its lease. -/
def Inner.unplace (inner : Inner) (worker : WorkerId) (job : JobId) : Inner :=
  { inner with
    leases := (inner.leases.complete job).1
    connected := inner.connected.disconnect worker }

/-- The dispatch state once a call has withdrawn its job. -/
def Inner.withdraw (inner : Inner) (job : JobId) : Inner :=
  { inner with
    pending := inner.pending.retain fun p => decide (p.jobId ≠ job)
    leases := (inner.leases.complete job).1 }

/-- What a job that failed once more looks like. -/
def PendingJob.retried (pj : PendingJob) : PendingJob := { pj with attempts := pj.attempts + 1 }

/-- The dispatch state of a disconnected worker, before its jobs are requeued. -/
def Inner.drop (inner : Inner) (worker : WorkerId) : Inner :=
  { inner with
    connected := inner.connected.disconnect worker
    leases := (inner.leases.takeWorker worker).1 }

/-- The dispatch state without the expired leases. -/
def Inner.expire (inner : Inner) (read : Instant) : Inner :=
  { inner with leases := (inner.leases.takeExpired read).1 }

/-- The dispatch state once a report for a leased job was accepted. -/
def Scheduler.afterReport (inner : Inner) (job : JobId) (l : Lease PendingJob)
    (result : JobResult) (unixMs : ℕ) : Inner :=
  { inner with
    leases := (inner.leases.complete job).1
    locality := inner.locality.record l.workerId l.payload.actionDigest l.payload.inputRootDigest
    jobHistory := inner.jobHistory.record (sch.summary l.payload l.workerId result unixMs) }

/-- Every way a segment can go. -/
inductive Ran : Segment → Core → List Segment → Prop where
  | registerWaiter (job : JobId) :
      Ran (.registerWaiter job) { c with waiters := c.waiters.insert job } []
  | rejected {pj : PendingJob} {timeout : Duration} {limit : ℕ}
      (hlimit : sch.maxConcurrentPerTenant = some limit)
      (hfull : limit ≤ c.inner.tenantInflightOf pj.tenant) :
      Ran (.admission pj timeout) c [.withdrawWaiter pj.jobId limit]
  | admitted {pj : PendingJob} {timeout : Duration}
      (hfree : ∀ limit, sch.maxConcurrentPerTenant = some limit →
        c.inner.tenantInflightOf pj.tenant < limit) :
      Ran (.admission pj timeout) (c.admitJob pj)
        [.dispatch, .startWait pj.jobId timeout, .release pj.jobId pj.tenant]
  | withdrawWaiter (job : JobId) (limit : ℕ) :
      Ran (.withdrawWaiter job limit)
        { c with
          waiters := c.waiters.erase job
          history := .returned job (.error (.quotaExceeded limit)) :: c.history } []
  | dispatch : Ran .dispatch c [.select now]
  | nothing {read : Instant} (hnone : sch.place c read ch.policy = none) :
      Ran (.select read) c []
  | placed {read : Instant} {p : Placed} (hsome : sch.place c read ch.policy = some p) :
      Ran (.select read) (c.afterPlace p) [.send c.placementCount p.worker p.tx p.pj]
  | sent {number : ℕ} {worker : WorkerId} {tx : StreamId} {pj : PendingJob} :
      Ran (.send number worker tx pj) (c.mark (.sent tx pj.jobId)) [.dispatch]
  | unsent {number : ℕ} {worker : WorkerId} {tx : StreamId} {pj : PendingJob} :
      Ran (.send number worker tx pj) c [.sendFailed number worker pj]
  | gaveUp {number : ℕ} {worker : WorkerId} {pj : PendingJob}
      (hmax : maxAttempts ≤ pj.attempts + 1) :
      Ran (.sendFailed number worker pj)
        { c with
          inner := c.inner.unplace worker pj.jobId
          history := .gaveUp pj.jobId :: c.history }
        [.failJob pj.jobId, .dispatch]
  | requeued {number : ℕ} {worker : WorkerId} {pj : PendingJob}
      (hmax : pj.attempts + 1 < maxAttempts) :
      Ran (.sendFailed number worker pj)
        { c with inner := { c.inner.unplace worker pj.jobId with
            pending := c.inner.pending.push pj.tenant pj.retried } }
        [.dispatch]
  | failJob (job : JobId) : Ran (.failJob job) { c with waiters := c.waiters.erase job } []
  | startWait (job : JobId) (timeout : Duration) :
      Ran (.startWait job timeout) c [.awaitResult job timeout (now + timeout)]
  | woken {job : JobId} {timeout : Duration} {deadline : Instant} {report : JobResult}
      (hget : c.delivered.get? job = some report) :
      Ran (.awaitResult job timeout deadline)
        { c with delivered := c.delivered.erase job } [.recordResult job report]
  | fired {job : JobId} {timeout : Duration} {deadline : Instant}
      (hget : c.delivered.get? job = none) (hmem : job ∈ c.waiters) (hdue : deadline ≤ now) :
      Ran (.awaitResult job timeout deadline) c [.expireWaiter job timeout]
  | failed {job : JobId} {timeout : Duration} {deadline : Instant}
      (hget : c.delivered.get? job = none) (hmem : job ∉ c.waiters) :
      Ran (.awaitResult job timeout deadline)
        (c.mark (.returned job (.error (.other "job failed before producing a result")))) []
  | expireWaiter (job : JobId) (timeout : Duration) :
      Ran (.expireWaiter job timeout)
        { c with waiters := c.waiters.erase job } [.cancel job timeout]
  | cancel (job : JobId) (timeout : Duration) :
      Ran (.cancel job timeout)
        { c with
          inner := c.inner.withdraw job
          history := .returned job (.error (.timeout timeout)) :: .timedOut job :: c.history } []
  | recordResult (job : JobId) (report : JobResult)
      (outcome : Except ExecutionError ExecutionOutcome) (uncached : ℕ) :
      Ran (.recordResult job report)
        { c with
          uncachedResultsNotLeader := uncached
          history := .returned job outcome :: c.history } []
  | release (job : JobId) {tenant : TenantId} {inflight : OrdMap TenantId ℕ}
      (hinner : c.inner.decTenant tenant = { c.inner with tenantInflight := inflight }) :
      Ran (.release job tenant)
        { c with
          inner := { c.inner with tenantInflight := inflight }
          history := .released job tenant :: c.history } []
  | connect (worker : WorkerId) (tx : StreamId) :
      Ran (.connect worker tx)
        { c with inner := { c.inner with connected := c.inner.connected.connect worker tx } } []
  | disconnect {worker : WorkerId} {pending : FairQueue PendingJob} {requeued : ℕ}
      {giveUp : List JobId}
      (htaken : (c.inner.drop worker).requeueTaken (c.inner.leases.takeWorker worker).2 =
        ({ c.inner.drop worker with pending := pending }, requeued, giveUp)) :
      Ran (.disconnect worker)
        { c with
          inner := { c.inner.drop worker with pending := pending }
          history := giveUp.map .gaveUp ++ c.history }
        (giveUp.map .failJob ++ [.dispatch])
  | takeExpired {read : Instant} {pending : FairQueue PendingJob} {requeued : ℕ}
      {giveUp : List JobId}
      (htaken : (c.inner.expire read).requeueTaken (c.inner.leases.takeExpired read).2 =
        ({ c.inner.expire read with pending := pending }, requeued, giveUp)) :
      Ran (.takeExpired read)
        { c with
          inner := { c.inner.expire read with pending := pending }
          history := giveUp.map .gaveUp ++
            ((c.inner.leases.takeExpired read).2.map fun p => .expired p.1) ++ c.history }
        (giveUp.map .failJob ++ if 0 < requeued then [.dispatch] else [])
  | unknown (worker : WorkerId) (reg : Option WorkerRegistry) :
      Ran (.recordHeartbeat worker) { c with registry := reg } []
  | known (worker : WorkerId) (reg : Option WorkerRegistry) :
      Ran (.recordHeartbeat worker) { c with registry := reg } [.startRenew worker]
  | startRenew (worker : WorkerId) :
      Ran (.startRenew worker) c [.renew worker (now + sch.leaseDuration)]
  | renew (worker : WorkerId) (deadline : Instant) :
      Ran (.renew worker deadline)
        { c with inner := { c.inner with leases := c.inner.leases.renewWorker worker deadline } } []
  | late {stream : StreamId} {job : JobId} {result : JobResult}
      (hnone : c.inner.leases.get? job = none) :
      Ran (.report stream job result) c []
  | accepted {stream : StreamId} {job : JobId} {result : JobResult} {l : Lease PendingJob}
      (hsome : c.inner.leases.get? job = some l) :
      Ran (.report stream job result)
        { c with
          inner := sch.afterReport c.inner job l result ch.unixMs
          history := .accepted stream job l.workerId :: c.history }
        [.wake job result, .dispatch]
  | wake {job : JobId} {result : JobResult} (hmem : job ∈ c.waiters) :
      Ran (.wake job result)
        { c with
          waiters := c.waiters.erase job
          delivered := c.delivered.insert job result } []
  | wakeNobody {job : JobId} {result : JobResult} (hmem : job ∉ c.waiters) :
      Ran (.wake job result) c []

end Ran

variable {sch : Scheduler} {s s' : State} {e : Event} {c c' core : Core} {ch : Choice}
  {now : Instant} {seg : Segment} {next rest code : List Segment} {task k : ℕ} {t : Task}
  {call : Call} {inner : Inner}

/-- Which segments may come right after which. -/
inductive Follows : Segment → Segment → Prop where
  | dispatch (seg : Segment) : Follows seg .dispatch
  | failJob (seg : Segment) (job : JobId) : Follows seg (.failJob job)
  | withdrawWaiter (pj : PendingJob) (timeout : Duration) (limit : ℕ) :
      Follows (.admission pj timeout) (.withdrawWaiter pj.jobId limit)
  | startWait (pj : PendingJob) (timeout : Duration) :
      Follows (.admission pj timeout) (.startWait pj.jobId timeout)
  | release (pj : PendingJob) (timeout : Duration) :
      Follows (.admission pj timeout) (.release pj.jobId pj.tenant)
  | select (now : Instant) : Follows .dispatch (.select now)
  | send (read : Instant) (number : ℕ) (worker : WorkerId) (tx : StreamId) (pj : PendingJob) :
      Follows (.select read) (.send number worker tx pj)
  | sendFailed (number : ℕ) (worker : WorkerId) (tx : StreamId) (pj : PendingJob) :
      Follows (.send number worker tx pj) (.sendFailed number worker pj)
  | awaitResult (job : JobId) (timeout : Duration) (deadline : Instant) :
      Follows (.startWait job timeout) (.awaitResult job timeout deadline)
  | recordResult (job : JobId) (timeout : Duration) (deadline : Instant) (report : JobResult) :
      Follows (.awaitResult job timeout deadline) (.recordResult job report)
  | expireWaiter (job : JobId) (timeout : Duration) (deadline : Instant) :
      Follows (.awaitResult job timeout deadline) (.expireWaiter job timeout)
  | cancel (job : JobId) (timeout : Duration) :
      Follows (.expireWaiter job timeout) (.cancel job timeout)
  | startRenew (worker : WorkerId) : Follows (.recordHeartbeat worker) (.startRenew worker)
  | renew (worker : WorkerId) (deadline : Instant) :
      Follows (.startRenew worker) (.renew worker deadline)
  | wake (stream : StreamId) (job : JobId) (result : JobResult) :
      Follows (.report stream job result) (.wake job result)

/-- **What comes next**, said once for all segments. -/
theorem Ran.follows (h : Ran sch c ch now seg c' next) : ∀ x ∈ next, Follows seg x := by
  have htwo : ∀ {a b : Segment}, Follows seg a → Follows seg b → ∀ x ∈ [a, b], Follows seg x :=
    fun ha hb => forall_mem_cons.2 ⟨ha, forall_mem_singleton.2 hb⟩
  have hfail : ∀ jobs : List JobId, ∀ x ∈ jobs.map Segment.failJob, Follows seg x := by
    intro jobs x hx
    obtain ⟨job, -, rfl⟩ := mem_map.1 hx
    exact .failJob seg job
  cases h with
  | admitted => exact forall_mem_cons.2 ⟨.dispatch _, htwo (.startWait _ _) (.release _ _)⟩
  | gaveUp => exact htwo (.failJob _ _) (.dispatch _)
  | accepted => exact htwo (.wake _ _ _) (.dispatch _)
  | disconnect =>
    intro x hx
    rcases mem_append.1 hx with hx | hx
    · exact hfail _ x hx
    · rw [mem_singleton.1 hx]
      exact .dispatch _
  | takeExpired =>
    intro x hx
    rcases mem_append.1 hx with hx | hx
    · exact hfail _ x hx
    split at hx
    · rw [mem_singleton.1 hx]
      exact .dispatch _
    · cases hx
  | _ =>
    first
    | exact fun _ hx => absurd hx not_mem_nil
    | exact forall_mem_singleton.2 (by constructor)

theorem LeaseTable.complete_of_none {P : Type} {t : LeaseTable P} {job : JobId}
    (h : t.get? job = none) : (t.complete job).1 = t := by
  exact congrArg LeaseTable.mk (erase_eq_self h)

theorem Scheduler.completeLease_of_none {job : JobId} (h : inner.leases.get? job = none)
    (result : JobResult) (unixMs : ℕ) :
    sch.completeLease inner job result unixMs = (inner, none) := by
  have hw : inner.leases.workerOf job = none := by
    rw [LeaseTable.workerOf, show inner.leases.leases.get? job = none from h]
    rfl
  simp only [completeLease, hw, LeaseTable.complete_of_none h]

theorem Scheduler.completeLease_of_some {job : JobId} {l : Lease PendingJob}
    (h : inner.leases.get? job = some l) (result : JobResult) (unixMs : ℕ) :
    sch.completeLease inner job result unixMs =
      (sch.afterReport inner job l result unixMs, some l.workerId) := by
  have hw : inner.leases.workerOf job = some l.workerId := by
    rw [LeaseTable.workerOf, show inner.leases.leases.get? job = some l from h]
    rfl
  have hp : (inner.leases.complete job).2 = some l.payload := by
    rw [LeaseTable.complete_snd, h]
    rfl
  simp only [completeLease, hw, hp, afterReport]

theorem Inner.decTenant_eq (inner : Inner) (tenant : TenantId) :
    ∃ m, inner.decTenant tenant = { inner with tenantInflight := m } := by
  rw [decTenant]
  split
  · exact ⟨inner.tenantInflight, rfl⟩
  split
  · exact ⟨inner.tenantInflight.erase tenant, rfl⟩
  · exact ⟨_, rfl⟩

theorem Inner.requeueTaken_spec {inner' : Inner} {jobs : List (JobId × PendingJob)} {n : ℕ}
    {giveUp : List JobId} (h : inner.requeueTaken jobs = (inner', n, giveUp)) :
    ∃ pending, inner' = { inner with pending := pending } ∧
      pending.entries.map Entry.job = inner.pending.entries.map Entry.job ++
        (jobs.filter fun q => decide (q.2.attempts + 1 < maxAttempts)).map
          (fun q => q.2.retried) ∧
      giveUp = (jobs.filter fun q => decide (maxAttempts ≤ q.2.attempts + 1)).map Prod.fst ∧
      n = (jobs.filter fun q => decide (q.2.attempts + 1 < maxAttempts)).length := by
  induction jobs generalizing inner inner' n giveUp with
  | nil =>
    cases h
    exact ⟨inner.pending, rfl, by simp, rfl, rfl⟩
  | cons q jobs ih =>
    obtain ⟨id, pj⟩ := q
    simp only [Inner.requeueTaken] at h
    split at h
    · rename_i hmax
      cases h
      obtain ⟨pending, hinner, hjobs, hgive, hn⟩ := ih rfl
      have hnot : ¬ pj.attempts + 1 < maxAttempts := not_lt.2 hmax
      refine ⟨pending, hinner, ?_, ?_, ?_⟩
      · rw [hjobs, filter_cons_of_neg (by simpa using hnot)]
      · rw [filter_cons_of_pos (by simpa using hmax), map_cons, hgive]
      · rw [filter_cons_of_neg (by simpa using hnot), hn]
    rename_i hmax
    cases h
    obtain ⟨pending, hinner, hjobs, hgive, hn⟩ := ih rfl
    have hlt : pj.attempts + 1 < maxAttempts := not_le.1 hmax
    refine ⟨pending, hinner, ?_, ?_, ?_⟩
    · rw [hjobs, filter_cons_of_pos (by simpa using hlt)]
      simp [PendingJob.retried]
    · rw [filter_cons_of_neg (by simpa using hlt), hgive]
    · rw [filter_cons_of_pos (by simpa using hlt), length_cons, hn]

/-- **The inversion of `run`.** -/
theorem Scheduler.ran (h : sch.run c ch now seg = some (c', next)) :
    Ran sch c ch now seg c' next := by
  cases seg with
  | admission =>
    simp only [run] at h
    split at h
    · rename_i limit hlimit
      split at h
      · rename_i hfull
        cases h
        exact .rejected hlimit hfull
      rename_i hfree
      cases h
      refine .admitted fun limit' hlimit' => ?_
      rw [hlimit] at hlimit'
      cases hlimit'
      exact not_le.1 hfree
    · rename_i hnone
      cases h
      exact .admitted fun limit' hlimit' => by rw [hnone] at hlimit'; cases hlimit'
  | select =>
    simp only [run] at h
    split at h <;> cases h
    · rename_i hnone
      exact .nothing hnone
    · rename_i p hsome
      exact .placed hsome
  | send =>
    simp only [run] at h
    split at h <;> cases h
    · exact .sent
    · exact .unsent
  | sendFailed =>
    simp only [run] at h
    split at h <;> cases h
    · rename_i hmax
      exact .gaveUp hmax
    · rename_i hmax
      exact .requeued (not_le.1 hmax)
  | awaitResult =>
    simp only [run] at h
    split at h
    · rename_i report hget
      cases h
      exact .woken hget
    rename_i hget
    split at h
    · rename_i hmem
      split at h
      · rename_i hdue
        cases h
        exact .fired hget hmem (by simpa using (Bool.and_eq_true_iff.1 hdue).2)
      · cases h
    · rename_i hmem
      cases h
      exact .failed hget hmem
  | recordHeartbeat worker =>
    simp only [run] at h
    split at h <;> cases h
    · exact .unknown worker c.registry
    split
    · exact .known worker _
    · exact .unknown worker _
  | report stream job =>
    simp only [run] at h
    cases hl : c.inner.leases.get? job with
    | none =>
      rw [completeLease_of_none hl] at h
      cases h
      exact .late hl
    | some =>
      rw [completeLease_of_some hl] at h
      cases h
      exact .accepted hl
  | wake =>
    simp only [run] at h
    split at h <;> cases h
    · rename_i hmem
      exact .wake hmem
    · rename_i hmem
      exact .wakeNobody hmem
  | registerWaiter job => cases h; exact .registerWaiter job
  | withdrawWaiter job limit => cases h; exact .withdrawWaiter job limit
  | dispatch => cases h; exact .dispatch
  | failJob job => cases h; exact .failJob job
  | startWait job timeout => cases h; exact .startWait job timeout
  | expireWaiter job timeout => cases h; exact .expireWaiter job timeout
  | cancel job timeout => cases h; exact .cancel job timeout
  | recordResult job report => cases h; exact .recordResult job report _ _
  | release job tenant =>
    obtain ⟨inflight, hinner⟩ := c.inner.decTenant_eq tenant
    cases h
    rw [hinner]
    exact .release job hinner
  | connect worker tx => cases h; exact .connect worker tx
  | disconnect worker =>
    have hran : ∀ {r}, (c.inner.drop worker).requeueTaken (c.inner.leases.takeWorker worker).2 = r →
        Ran sch c ch now (.disconnect worker)
          { c with inner := r.1, history := r.2.2.map .gaveUp ++ c.history }
          (r.2.2.map .failJob ++ [.dispatch]) := by
      rintro ⟨inner, requeued, giveUp⟩ htaken
      obtain ⟨pending, rfl, -⟩ := Inner.requeueTaken_spec htaken
      exact .disconnect htaken
    cases h
    exact hran rfl
  | takeExpired read =>
    have hran : ∀ {r}, (c.inner.expire read).requeueTaken (c.inner.leases.takeExpired read).2 = r →
        Ran sch c ch now (.takeExpired read)
          { c with
            inner := r.1
            history := r.2.2.map .gaveUp ++
              ((c.inner.leases.takeExpired read).2.map fun p => .expired p.1) ++ c.history }
          (r.2.2.map .failJob ++ if 0 < r.2.1 then [.dispatch] else []) := by
      rintro ⟨inner, requeued, giveUp⟩ htaken
      obtain ⟨pending, rfl, -⟩ := Inner.requeueTaken_spec htaken
      exact .takeExpired htaken
    cases h
    exact hran rfl
  | startRenew worker => cases h; exact .startRenew worker
  | renew worker deadline => cases h; exact .renew worker deadline

/-- The marks a segment can leave. -/
inductive Leaves (sch : Scheduler) (c : Core) (ch : Choice) : Segment → Mark → Prop where
  | admitted (pj : PendingJob) (timeout : Duration) :
      Leaves sch c ch (.admission pj timeout) (.admitted pj.jobId pj.tenant)
  | placed {read : Instant} {p : Placed} (hsome : sch.place c read ch.policy = some p) :
      Leaves sch c ch (.select read) (.placed p.pj.jobId p.worker p.tx)
  | sent (number : ℕ) (worker : WorkerId) (tx : StreamId) (pj : PendingJob) :
      Leaves sch c ch (.send number worker tx pj) (.sent tx pj.jobId)
  | accepted (stream : StreamId) {job : JobId} (result : JobResult) {l : Lease PendingJob}
      (hsome : c.inner.leases.get? job = some l) :
      Leaves sch c ch (.report stream job result) (.accepted stream job l.workerId)
  | expired {read : Instant} {job : JobId} {l : Lease PendingJob}
      (hsome : c.inner.leases.get? job = some l) (hdue : l.deadline ≤ read) :
      Leaves sch c ch (.takeExpired read) (.expired job)
  | gaveUp (seg : Segment) (job : JobId) : Leaves sch c ch seg (.gaveUp job)
  | timedOut (job : JobId) (timeout : Duration) :
      Leaves sch c ch (.cancel job timeout) (.timedOut job)
  | returned (seg : Segment) (job : JobId) (outcome : Except ExecutionError ExecutionOutcome) :
      Leaves sch c ch seg (.returned job outcome)
  | released (job : JobId) (tenant : TenantId) :
      Leaves sch c ch (.release job tenant) (.released job tenant)

variable (h : Ran sch c ch now seg c' next)

include h

theorem Ran.marks :
    ∃ marks, c'.history = marks ++ c.history ∧ ∀ m ∈ marks, Leaves sch c ch seg m := by
  have hone : ∀ {m}, c'.history = m :: c.history → Leaves sch c ch seg m →
      ∃ marks, c'.history = marks ++ c.history ∧ ∀ m ∈ marks, Leaves sch c ch seg m :=
    fun heq hm => ⟨[_], heq, forall_mem_singleton.2 hm⟩
  cases h with
  | admitted => exact hone rfl (.admitted _ _)
  | withdrawWaiter => exact hone rfl (.returned _ _ _)
  | placed hsome => exact hone rfl (.placed hsome)
  | sent => exact hone rfl (.sent _ _ _ _)
  | gaveUp => exact hone rfl (.gaveUp _ _)
  | failed => exact hone rfl (.returned _ _ _)
  | cancel job timeout =>
    refine ⟨[_, _], rfl, forall_mem_cons.2 ⟨.returned _ _ _, ?_⟩⟩
    exact forall_mem_singleton.2 (.timedOut job timeout)
  | recordResult => exact hone rfl (.returned _ _ _)
  | release => exact hone rfl (.released _ _)
  | @disconnect worker pending requeued giveUp =>
    refine ⟨giveUp.map .gaveUp, rfl, ?_⟩
    intro m hm
    obtain ⟨job, -, rfl⟩ := mem_map.1 hm
    exact .gaveUp _ job
  | takeExpired =>
    refine ⟨_, rfl, ?_⟩
    intro m hm
    rcases mem_append.1 hm with hm | hm
    · obtain ⟨job, -, rfl⟩ := mem_map.1 hm
      exact .gaveUp _ job
    obtain ⟨⟨job, pj⟩, hq, rfl⟩ := mem_map.1 hm
    obtain ⟨l, hl, hdue, -⟩ := (c.inner.leases.mem_takeWhere _).1 hq
    exact .expired hl (of_decide_eq_true hdue)
  | accepted hsome => exact hone rfl (.accepted _ _ hsome)
  | _ => exact ⟨[], rfl, by simp⟩

theorem Ran.mark_mem {m : Mark} (hm : m ∈ c'.history) :
    m ∈ c.history ∨ Leaves sch c ch seg m := by
  obtain ⟨marks, heq, hmarks⟩ := h.marks
  rw [heq] at hm
  rcases mem_append.1 hm with hm | hm
  · exact .inr (hmarks m hm)
  · exact .inl hm

theorem Ran.mark_mono {m : Mark} (hm : m ∈ c.history) :
    m ∈ c'.history := by
  obtain ⟨marks, heq, -⟩ := h.marks
  rw [heq]
  exact mem_append_right marks hm

omit h

theorem FairQueue.mem_slots {J : Type} {q : FairQueue J} {slot : Slot J} (h : slot ∈ q.slots) :
    ∃ e, q.entries[slot.index]? = some e ∧ slot.start = e.start ∧ slot.job = e.job := by
  obtain ⟨⟨e, i⟩, hp, rfl⟩ := mem_map.1 h
  exact ⟨e, mem_zipIdx_iff_getElem?.1 hp, rfl, rfl⟩

namespace Core

variable {slots : List (Slot PendingJob)} {best : Best}

theorem scan_some {idx start : ℕ} {cs : List WorkerId}
    (h : slots.foldl (c.considerSlot now) best = some (idx, cs, start)) :
    best = some (idx, cs, start) ∨ ∃ slot ∈ slots, slot.index = idx ∧ slot.start = start ∧
      cs = c.candidates now slot.job.platform ∧ cs ≠ [] := by
  induction slots generalizing best with
  | nil => exact .inl h
  | cons slot slots ih =>
    rcases ih h with hbest | ⟨slot', hmem, hslot⟩
    · rw [considerSlot] at hbest
      split at hbest
      · exact .inl hbest
      simp only at hbest
      split at hbest
      · exact .inl hbest
      rename_i hne
      cases hbest
      refine .inr ⟨slot, mem_cons_self, rfl, rfl, rfl, ?_⟩
      simpa using hne
    · exact .inr ⟨slot', mem_cons_of_mem _ hmem, hslot⟩

theorem scan_none (h : slots.foldl (c.considerSlot now) best = none) :
    best = none ∧ ∀ slot ∈ slots, c.candidates now slot.job.platform = [] := by
  induction slots generalizing best with
  | nil => exact ⟨h, by simp⟩
  | cons slot slots ih =>
    obtain ⟨hnone, hslots⟩ := ih h
    rw [considerSlot] at hnone
    split at hnone
    · rename_i hany
      rw [hnone] at hany
      cases hany
    simp only at hnone
    split at hnone
    · rename_i hempty
      refine ⟨hnone, ?_⟩
      intro slot' hmem
      rcases mem_cons.1 hmem with rfl | hmem
      · simpa using hempty
      · exact hslots slot' hmem
    · cases hnone

theorem bestSlot_some {idx start : ℕ} {cs : List WorkerId}
    (h : c.bestSlot now = some (idx, cs, start)) :
    ∃ e, c.inner.pending.entries[idx]? = some e ∧ cs = c.candidates now e.job.platform ∧
      cs ≠ [] := by
  rcases scan_some h with hnone | ⟨slot, hmem, rfl, -, hcs, hne⟩
  · cases hnone
  · obtain ⟨e, hget, -, hjob⟩ := FairQueue.mem_slots hmem
    exact ⟨e, hget, hjob ▸ hcs, hne⟩

end Core

/-- Is a worker eligible for a platform?  Without a registry every worker is. -/
def Core.isEligible (c : Core) (now : Instant) (platform : Platform) (w : WorkerId) : Bool :=
  match c.registry with
  | some reg => decide (w ∈ (eligibleWorkers reg now platform).map Prod.fst)
  | none => true

theorem Core.mem_candidates {platform : Platform} {w : WorkerId} :
    w ∈ c.candidates now platform ↔ c.isEligible now platform w = true ∧
      c.inner.connected.isConnected w = true ∧ c.inner.leases.isWorkerBusy w = false := by
  rw [candidates, isEligible]
  cases c.registry with
  | none => simp [ConnectedWorkers.mem_connectedIds]
  | some => simp

theorem Scheduler.place_spec {policy : ℕ} {p : Placed} (h : sch.place c now policy = some p) :
    ∃ e pending candidates ctx, (e :: pending.entries).Perm c.inner.pending.entries ∧
      e.job = p.pj ∧ c.inner.connected.sender p.worker = some p.tx ∧
      (∀ w ∈ candidates, w ∈ c.candidates now p.pj.platform) ∧
      sch.strategy.chooseWith policy candidates ctx = some p.worker ∧
      p.inner = { c.inner with
        pending := pending
        leases := c.inner.leases.insert p.pj.jobId p.worker (now + p.pj.leaseDuration) p.pj } := by
  simp only [place, bind_eq_bind, bind_eq_some_iff] at h
  obtain ⟨⟨idx, cs, start⟩, hbest, winner, -, worker, hchoose, tx, hsender, pj, hpj, heq⟩ := h
  obtain ⟨e, hget, hcs, -⟩ := Core.bestSlot_some hbest
  rcases c.inner.pending.take_cases idx with ⟨hnone, -⟩ | ⟨e', pending, hget', htake, hperm, -⟩
  · rw [hget] at hnone
    cases hnone
  rw [hget] at hget'
  cases hget'
  rw [htake] at hpj heq
  cases hpj
  cases heq
  refine ⟨e, pending, _, _, hperm, rfl, hsender, ?_, hchoose, rfl⟩
  intro w hw
  rw [← hcs]
  exact (perm_insertionSort _ cs).mem_iff.1 hw

section Place

variable {policy : ℕ} {p : Placed}

theorem Scheduler.place_sender (h : sch.place c now policy = some p) :
    c.inner.connected.sender p.worker = some p.tx := by
  obtain ⟨_, _, _, _, -, -, hsender, -⟩ := place_spec h
  exact hsender

theorem Core.connected_afterPlace (h : sch.place c now policy = some p) :
    (c.afterPlace p).inner.connected = c.inner.connected := by
  obtain ⟨_, _, _, _, -, -, -, -, -, hinner⟩ := Scheduler.place_spec h
  rw [afterPlace, hinner]

theorem Core.get?_afterPlace (h : sch.place c now policy = some p) (j : JobId) :
    (c.afterPlace p).inner.leases.get? j =
      if j = p.pj.jobId then some ⟨p.worker, now + p.pj.leaseDuration, p.pj⟩
      else c.inner.leases.get? j := by
  obtain ⟨_, _, _, _, -, -, -, -, -, hinner⟩ := Scheduler.place_spec h
  rw [afterPlace, hinner]
  exact LeaseTable.get?_insert _ _ _ _ _ _

theorem Core.of_get?_afterPlace (h : sch.place c now policy = some p) {j : JobId}
    {l : Lease PendingJob} (hl : (c.afterPlace p).inner.leases.get? j = some l) :
    (j = p.pj.jobId ∧ l.workerId = p.worker ∧ l.payload = p.pj) ∨
      j ≠ p.pj.jobId ∧ c.inner.leases.get? j = some l := by
  rw [get?_afterPlace h] at hl
  split at hl
  · rename_i hj
    cases hl
    exact .inl ⟨hj, rfl, rfl⟩
  · rename_i hj
    exact .inr ⟨hj, hl⟩

end Place

/-! ## One event -/

theorem Scheduler.prepare_job {registry : Option WorkerRegistry} {req : ExecuteRequest}
    {pj : PendingJob} {timeout : Duration} (h : sch.prepare registry now req = .job pj timeout) :
    pj.jobId = req.jobId ∧ pj.tenant = req.tenant ∧ pj.attempts = 0 := by
  have hjob : ∀ action command, sch.prepareJob registry now req action command = .job pj timeout →
      pj.jobId = req.jobId ∧ pj.tenant = req.tenant ∧ pj.attempts = 0 := by
    intro action command h
    simp only [prepareJob] at h
    split at h <;> cases h
    exact ⟨rfl, rfl, rfl⟩
  have hmiss : sch.prepareMiss registry now req = .job pj timeout →
      pj.jobId = req.jobId ∧ pj.tenant = req.tenant ∧ pj.attempts = 0 := by
    intro h
    simp only [prepareMiss] at h
    split at h
    · cases h
    split at h
    · cases h
    split at h
    · cases h
    · cases h
    · exact hjob _ _ h
  simp only [prepare] at h
  split at h
  · exact hmiss h
  split at h
  · cases h
  · exact hmiss h
  · exact hmiss h
  · cases h

/-- Every way a call can begin. -/
inductive Begun (sch : Scheduler) (s : State) : Call → State → List Segment → Prop where
  | execute {req : ExecuteRequest} {pj : PendingJob} {timeout : Duration}
      (hnew : pj.jobId ∉ s.issued) (hjob : pj.jobId = req.jobId) (htenant : pj.tenant = req.tenant)
      (hattempts : pj.attempts = 0) :
      Begun sch s (.execute req) { s with issued := s.issued.insert pj.jobId }
        [.registerWaiter pj.jobId, .admission pj timeout]
  | connectWorker {stream : StreamId} {worker : WorkerId} (hnew : s.streams.get? stream = none) :
      Begun sch s (.connectWorker stream worker)
        { s with streams := s.streams.insert stream { worker := worker } }
        [.connect worker stream, .dispatch]
  | report {stream : StreamId} {result : JobResult} {worker : WorkerId} {job : JobId}
      (hstream : s.streams.get? stream = some ⟨worker, true⟩) (hidle : s.pumpIdle stream = true)
      (hjob : JobId.new result.jobId = .ok job) :
      Begun sch s (.report stream result) s [.report stream job result]
  | disconnectWorker {stream : StreamId} {worker : WorkerId}
      (hstream : s.streams.get? stream = some ⟨worker, true⟩) (hidle : s.pumpIdle stream = true) :
      Begun sch s (.disconnectWorker stream)
        { s with streams := s.streams.insert stream ⟨worker, false⟩ } [.disconnect worker]
  | reapExpiredLeases : Begun sch s .reapExpiredLeases s [.takeExpired s.clock]
  | heartbeat (worker : WorkerId) : Begun sch s (.heartbeat worker) s [.recordHeartbeat worker]

theorem State.pump?_eq_some {stream : StreamId} {worker : WorkerId}
    (h : s.pump? stream = some worker) :
    s.streams.get? stream = some ⟨worker, true⟩ ∧ s.pumpIdle stream = true := by
  simp only [pump?] at h
  split at h
  · rename_i ws hws
    split at h
    · rename_i hopen
      cases h
      obtain ⟨hopen, hidle⟩ := Bool.and_eq_true_iff.1 hopen
      obtain ⟨worker, isOpen⟩ := ws
      cases hopen
      exact ⟨hws, hidle⟩
    · cases h
  · cases h

theorem State.begun (h : s.begin sch call = some (s', code)) : Begun sch s call s' code := by
  cases call with
  | execute =>
    simp only [begin] at h
    split at h
    · cases h
    rename_i hnew
    split at h
    · cases h
    rename_i pj timeout hprep
    obtain ⟨hjob, htenant, hattempts⟩ := Scheduler.prepare_job hprep
    cases h
    rw [← hjob] at hnew ⊢
    exact .execute hnew hjob htenant hattempts
  | connectWorker =>
    simp only [begin] at h
    split at h
    · cases h
    rename_i hnew
    cases h
    exact .connectWorker (by simpa [OrdMap.contains] using hnew)
  | report =>
    simp only [begin] at h
    split at h
    · rename_i worker job hpump hjob
      cases h
      obtain ⟨hstream, hidle⟩ := State.pump?_eq_some hpump
      exact .report hstream hidle hjob
    · cases h
  | disconnectWorker =>
    simp only [begin] at h
    split at h
    · rename_i worker hpump
      cases h
      obtain ⟨hstream, hidle⟩ := State.pump?_eq_some hpump
      exact .disconnectWorker hstream hidle
    · cases h
  | reapExpiredLeases => cases h; exact .reapExpiredLeases
  | heartbeat worker => cases h; exact .heartbeat worker

/-- The segment an event runs, if it is that call's turn. -/
def State.running (s : State) (e : Event) : Option Segment :=
  match e.move with
  | .run task _ => (s.tasks.get? task).bind fun t => t.code.head?
  | _ => none

/-- The state once a call has moved on. -/
def State.advance (s : State) (clock : Instant) (core : Core) (task : ℕ) (call : Call)
    (code : List Segment) : State :=
  { s with clock := clock, core := core, tasks := s.setCode task call code }

/-- The state once a call has begun. -/
def State.enter (s s₁ : State) (task : ℕ) (call : Call) (code : List Segment) : State :=
  { s₁ with core := s.core, tasks := s.tasks.insert task ⟨call, code⟩ }

/-- Every way an event can go. -/
inductive Stepped (sch : Scheduler) (s : State) (e : Event) : State → Prop where
  | idle (clock : Instant) (reg : Option WorkerRegistry) :
      Stepped sch s e { s with clock := clock, core := { s.core with registry := reg } }
  | started {task : ℕ} {call : Call} {s₁ : State} {code : List Segment}
      (hfree : s.tasks.get? task = none)
      (hbegun : Begun sch { s with clock := e.now } call s₁ code)
      (hmove : e.move = .start task call) :
      Stepped sch s e (s.enter s₁ task call code)
  | ran {task : ℕ} {t : Task} {ch : Choice} {seg : Segment} {rest : List Segment} {core : Core}
      {next : List Segment} (hmove : e.move = .run task ch) (htask : s.tasks.get? task = some t)
      (hcode : t.code = seg :: rest) (hran : Ran sch s.core ch e.now seg core next) :
      Stepped sch s e (s.advance e.now core task t.call (next ++ rest))

theorem Begun.enter_eq {s₁ : State} (h : Begun sch { s with clock := now } call s₁ code) (task : ℕ) :
    { s₁ with tasks := s₁.tasks.insert task ⟨call, code⟩ } = s.enter s₁ task call code := by
  cases h <;> rfl

/-- **The inversion of `step`.** -/
theorem State.stepped (sch : Scheduler) (s : State) (e : Event) :
    Stepped sch s e (s.step sch e) := by
  have hidle : ∀ clock, Stepped sch s e { s with clock := clock } :=
    fun clock => .idle clock s.core.registry
  rw [step]
  split
  · exact hidle s.clock
  cases hmove : e.move with
  | start =>
    simp only [startCall]
    split
    · exact hidle e.now
    rename_i hfree
    split
    · exact hidle e.now
    rename_i s₁ code hbegin
    have hbegun := State.begun hbegin
    rw [hbegun.enter_eq]
    exact .started (by simpa [OrdMap.contains] using hfree) hbegun hmove
  | run =>
    simp only [runTask]
    split
    · exact hidle e.now
    rename_i t htask
    split
    · exact hidle e.now
    rename_i seg rest hcode
    split
    · exact hidle e.now
    · rename_i core next hrun
      exact .ran hmove htask hcode (Scheduler.ran hrun)
  | _ => exact .idle e.now _

theorem State.step_run (hnow : s.clock ≤ now) (htask : s.tasks.get? task = some t)
    (hcode : t.code = seg :: rest) (hrun : sch.run s.core ch now seg = some (core, next)) :
    s.step sch ⟨now, .run task ch⟩ = s.advance now core task t.call (next ++ rest) := by
  simp only [step, not_lt.2 hnow, if_false, runTask, htask, hcode, hrun]
  rfl

theorem State.exists_task {move : Move} (h : s.running ⟨now, move⟩ = some seg) :
    ∃ task ch t rest, move = .run task ch ∧ s.tasks.get? task = some t ∧ t.code = seg :: rest := by
  cases move with
  | run task ch =>
    obtain ⟨t, htask, hhead⟩ := bind_eq_some_iff.1 h
    obtain ⟨rest, hcode⟩ := head?_eq_some_iff.1 hhead
    exact ⟨task, ch, t, rest, rfl, htask, hcode⟩
  | _ => cases h

theorem State.exists_ran (hnow : s.clock ≤ e.now) (hseg : s.running e = some seg)
    (hsome : ∀ ch, (sch.run s.core ch e.now seg).isSome = true) :
    ∃ ch next, Ran sch s.core ch e.now seg (s.step sch e).core next := by
  obtain ⟨now, move⟩ := e
  obtain ⟨task, ch, t, rest, rfl, htask, hcode⟩ := State.exists_task hseg
  obtain ⟨⟨core, next⟩, hrun⟩ := isSome_iff_exists.1 (hsome ch)
  rw [State.step_run hnow htask hcode hrun]
  exact ⟨ch, next, Scheduler.ran hrun⟩

theorem Stepped.running_eq (hmove : e.move = .run task ch) (htask : s.tasks.get? task = some t)
    (hcode : t.code = seg :: rest) :
    s.running e = some seg := by
  simp [State.running, hmove, htask, hcode]

theorem State.stream?_ne_of_pumpIdle {stream : StreamId} (h : s.pumpIdle stream = true)
    (ht : s.tasks.get? task = some t) :
    t.call.stream? ≠ some stream := by
  have hall := all_eq_true.1 h (task, t) (get?_eq_some.1 ht)
  exact of_decide_eq_true hall

theorem Stepped.stream_worker (h : Stepped sch s e s') {stream : StreamId} {w : WorkerId}
    (hw : (s.streams.get? stream).map WorkerStream.worker = some w) :
    (s'.streams.get? stream).map WorkerStream.worker = some w := by
  cases h with
  | started hfree hbegun =>
    cases hbegun with
    | @connectWorker stream' worker hnew =>
      rw [State.enter, get?_insert]
      split
      · rename_i heq
        subst heq
        rw [show s.streams.get? stream = none from hnew] at hw
        cases hw
      · exact hw
    | @disconnectWorker stream' worker hstream =>
      rw [State.enter, get?_insert]
      split
      · rename_i heq
        subst heq
        rw [show s.streams.get? stream = some ⟨worker, true⟩ from hstream] at hw
        exact hw
      · exact hw
    | _ => exact hw
  | _ => exact hw

/-! ## All segments -/

/-- The segments that calls in progress have left. -/
def State.segments (s : State) : List Segment := s.tasks.toList.flatMap fun p => p.2.code

theorem State.mem_segments :
    seg ∈ s.segments ↔ ∃ task t, s.tasks.get? task = some t ∧ seg ∈ t.code := by
  rw [segments, mem_flatMap]
  constructor
  · rintro ⟨⟨task, t⟩, hmem, hseg⟩
    exact ⟨task, t, get?_eq_some.2 hmem, hseg⟩
  · rintro ⟨task, t, htask, hseg⟩
    exact ⟨(task, t), get?_eq_some.1 htask, hseg⟩

theorem State.mem_code (htask : s.tasks.get? task = some t) (hcode : t.code = seg :: rest) :
    seg ∈ s.segments :=
  mem_segments.2 ⟨task, t, htask, by rw [hcode]; exact mem_cons_self⟩

theorem State.segments_enter {s₁ : State} (hfree : s.tasks.get? task = none) :
    (s.enter s₁ task call code).segments.Perm (code ++ s.segments) := by
  have hperm := (s.tasks.toList_insert_perm task ⟨call, code⟩).flatMap_right fun p => p.2.code
  rwa [erase_eq_self hfree] at hperm

theorem State.mem_enter {s₁ : State} (hfree : s.tasks.get? task = none)
    (h : seg ∈ (s.enter s₁ task call code).segments) : seg ∈ code ∨ seg ∈ s.segments :=
  mem_append.1 ((segments_enter hfree).mem_iff.1 h)

theorem State.countP_enter {s₁ : State} (hfree : s.tasks.get? task = none) (p : Segment → Bool) :
    (s.enter s₁ task call code).segments.countP p = code.countP p + s.segments.countP p := by
  rw [(segments_enter hfree).countP_eq, countP_append]

theorem State.segments_advance (htask : s.tasks.get? task = some t) (hcode : t.code = seg :: rest)
    (clock : Instant) (core : Core) (next : List Segment) :
    ∃ others, s.segments.Perm (seg :: others) ∧
      (s.advance clock core task t.call (next ++ rest)).segments.Perm (next ++ others) := by
  refine ⟨rest ++ (s.tasks.erase task).toList.flatMap fun p => p.2.code, ?_, ?_⟩
  · have hperm := (toList_perm htask).flatMap_right fun p => p.2.code
    rw [flatMap_cons, hcode] at hperm
    exact hperm
  rw [segments, advance, setCode]
  split
  · rename_i hempty
    rw [List.isEmpty_iff, append_eq_nil_iff] at hempty
    rw [hempty.1, hempty.2]
    exact List.Perm.refl _
  have hperm := (s.tasks.toList_insert_perm task ⟨t.call, next ++ rest⟩).flatMap_right
    fun p => p.2.code
  rw [flatMap_cons, append_assoc] at hperm
  exact hperm

theorem State.mem_advance {clock : Instant} {x : Segment} (htask : s.tasks.get? task = some t)
    (hcode : t.code = seg :: rest)
    (h : x ∈ (s.advance clock core task t.call (next ++ rest)).segments) :
    x ∈ next ∨ x ∈ s.segments := by
  obtain ⟨others, hbefore, hafter⟩ := segments_advance htask hcode clock core next
  refine (mem_append.1 (hafter.mem_iff.1 h)).imp_right ?_
  exact fun hx => hbefore.mem_iff.2 (mem_cons_of_mem _ hx)

theorem State.countP_advance (htask : s.tasks.get? task = some t) (hcode : t.code = seg :: rest)
    (clock : Instant) (core : Core) (next : List Segment) (p : Segment → Bool) :
    (s.advance clock core task t.call (next ++ rest)).segments.countP p + (p seg).toNat =
      next.countP p + s.segments.countP p := by
  obtain ⟨others, hbefore, hafter⟩ := State.segments_advance htask hcode clock core next
  rw [hafter.countP_eq, hbefore.countP_eq, countP_append, countP_cons, Nat.add_assoc]
  cases p seg <;> rfl

theorem State.get?_advance {clock : Instant} {task' : ℕ} {t' : Task}
    (h : (s.advance clock core task call code).tasks.get? task' = some t') :
    t' = ⟨call, code⟩ ∨ s.tasks.get? task' = some t' := by
  have hget : (s.setCode task call code).get? task' = some t' := h
  rw [setCode] at hget
  split at hget
  · obtain ⟨-, hget⟩ := of_get?_erase hget
    exact .inr hget
  rw [get?_insert] at hget
  split at hget
  · exact .inl (some.inj hget).symm
  · exact .inr hget

/-! ## Whole runs -/

namespace SchedulerRun

variable (r : SchedulerRun)

theorem state_succ (h : r.events[k]? = some e) :
    r.state (k + 1) = (r.state k).step r.scheduler e := by
  rw [state, take_add_one, h, foldl_append]
  rfl

theorem state_succ_of_none (h : r.events[k]? = none) : r.state (k + 1) = r.state k := by
  rw [state, take_add_one, h, state, toList_none, append_nil]

theorem induction_from {M : State → Prop} {n : ℕ} (hn : M (r.state n))
    (hstep : ∀ k e, n ≤ k → r.events[k]? = some e → M (r.state k) →
      ∀ s', Stepped r.scheduler (r.state k) e s' → M s') (hk : n ≤ k) :
    M (r.state k) := by
  induction k, hk using Nat.le_induction with
  | base => exact hn
  | succ k hk ih =>
    cases he : r.events[k]? with
    | none =>
      rw [r.state_succ_of_none he]
      exact ih
    | some e =>
      rw [r.state_succ he]
      exact hstep k e hk he ih _ (State.stepped _ _ _)

theorem induction {M : State → Prop} (hinit : M r.init)
    (hstep : ∀ k e, r.events[k]? = some e → M (r.state k) →
      ∀ s', Stepped r.scheduler (r.state k) e s' → M s') (k : ℕ) : M (r.state k) :=
  r.induction_from (n := 0) hinit (fun k e _ => hstep k e) k.zero_le

theorem core_induction {M : Core → Prop} (hinit : M r.init.core)
    (hregistry : ∀ c reg, M c → M { c with registry := reg })
    (hran : ∀ k ch now seg c' next, M (r.state k).core →
      Ran r.scheduler (r.state k).core ch now seg c' next → M c') (k : ℕ) :
    M (r.state k).core := by
  refine r.induction (M := fun s => M s.core) hinit ?_ k
  intro k e _ h s' hs
  cases hs with
  | idle => exact hregistry _ _ h
  | started => exact h
  | ran _ _ _ hstep => exact hran k _ _ _ _ _ h hstep

/-- Every step of the run meets a condition on the state before it and the event. -/
def Meets (cond : State → Event → Bool) : Prop :=
  ∀ k e, r.events[k]? = some e → cond (r.state k) e = true

theorem meets_of_lt {cond : State → Event → Bool}
    (h : ∀ k < r.events.length, (r.events[k]?).all (cond (r.state k)) = true) : r.Meets cond := by
  intro k e he
  obtain ⟨hk, -⟩ := List.getElem?_eq_some_iff.1 he
  have hall := h k hk
  rwa [he] at hall

theorem forall_state {P : State → Prop} (h : ∀ k ≤ r.events.length, P (r.state k)) (k : ℕ) :
    P (r.state k) := by
  rcases le_total k r.events.length with hk | hk
  · exact h k hk
  have hsame : r.state k = r.state r.events.length := by
    rw [state, take_of_length_le hk, state, take_length]
  rw [hsame]
  exact h _ le_rfl

/-- An event runs the segment. -/
def Runs (k : ℕ) (seg : Segment) : Prop :=
  ∃ e, r.events[k]? = some e ∧ (r.state k).clock ≤ e.now ∧ (r.state k).running e = some seg

theorem Runs.mem {r : SchedulerRun} (h : r.Runs k seg) : seg ∈ (r.state k).segments := by
  obtain ⟨⟨now, move⟩, -, -, hrun⟩ := h
  obtain ⟨task, ch, t, rest, -, htask, hcode⟩ := State.exists_task hrun
  exact State.mem_code htask hcode

end SchedulerRun

/-! ## Job identities -/

namespace Mark

/-- The mark admits a job. -/
def admits (j : JobId) : Mark → Bool
  | .admitted job _ => decide (job = j)
  | _ => false

/-- The mark ends a job: a report was accepted, it was given up, or its call timed out. -/
def closes (j : JobId) : Mark → Bool
  | .accepted _ job _ => decide (job = j)
  | .gaveUp job => decide (job = j)
  | .timedOut job => decide (job = j)
  | _ => false

end Mark

/-- The job passed admission. -/
def Core.isAdmitted (c : Core) (j : JobId) : Bool := c.history.any (Mark.admits j)

/-- The job has ended. -/
def Core.isClosed (c : Core) (j : JobId) : Bool := c.history.any (Mark.closes j)

namespace Segment

/-- The segment would admit a job. -/
def admits (j : JobId) : Segment → Bool
  | .admission pj _ => decide (pj.jobId = j)
  | _ => false

/-- The job whose call is past admission here. -/
def past? : Segment → Option JobId
  | .startWait job _ => some job
  | .awaitResult job _ _ => some job
  | .expireWaiter job _ => some job
  | .cancel job _ => some job
  | .recordResult job _ => some job
  | .release job _ => some job
  | _ => none

end Segment

theorem any_const_false {α : Type} (l : List α) : (l.any fun _ => false) = false := by
  induction l with
  | nil => rfl
  | cons a l ih => exact ih

theorem Core.isAdmitted_admit (c : Core) (pj : PendingJob) (j : JobId) :
    (c.admitJob pj).isAdmitted j = (decide (pj.jobId = j) || c.isAdmitted j) := rfl

theorem Ran.admission (h : Ran sch c ch now seg c' next) :
    (∃ pj timeout, seg = .admission pj timeout ∧ c' = c.admitJob pj ∧
      next = [.dispatch, .startWait pj.jobId timeout, .release pj.jobId pj.tenant]) ∨
      ((∀ j, c'.isAdmitted j = c.isAdmitted j) ∧
        ∀ x ∈ next, (∀ j, x.admits j = false) ∧ ∀ j, x.past? = some j → seg.past? = some j) := by
  -- after any other segment comes nothing that is past an admission the segment is not
  have hnext : ∀ x ∈ next, (∀ pj timeout, seg ≠ .admission pj timeout) →
      (∀ j, x.admits j = false) ∧ ∀ j, x.past? = some j → seg.past? = some j := by
    intro x hx hseg
    cases h.follows x hx with
    | withdrawWaiter pj timeout => exact absurd rfl (hseg pj timeout)
    | startWait pj timeout => exact absurd rfl (hseg pj timeout)
    | release pj timeout => exact absurd rfl (hseg pj timeout)
    | dispatch => exact ⟨fun _ => rfl, fun _ hj => nomatch hj⟩
    | failJob => exact ⟨fun _ => rfl, fun _ hj => nomatch hj⟩
    | _ => exact ⟨fun _ => rfl, fun _ hj => hj⟩
  cases h with
  | @admitted pj timeout => exact .inl ⟨pj, timeout, rfl, rfl, rfl⟩
  | disconnect =>
    refine .inr ⟨?_, ?_⟩
    · intro j
      simp [Core.isAdmitted, any_append, Function.comp_def, Mark.admits, any_const_false]
    · exact fun x hx => hnext x hx fun _ _ => Segment.noConfusion
  | takeExpired =>
    refine .inr ⟨?_, ?_⟩
    · intro j
      simp [Core.isAdmitted, any_append, Function.comp_def, Mark.admits, any_const_false]
    · exact fun x hx => hnext x hx fun _ _ => Segment.noConfusion
  | rejected => refine .inr ⟨fun _ => rfl, forall_mem_singleton.2 ⟨fun _ => rfl, nofun⟩⟩
  | _ =>
    refine .inr ⟨fun j => ?_, fun x hx => hnext x hx fun _ _ => Segment.noConfusion⟩
    simp [Core.isAdmitted, Core.mark, Core.afterPlace, Mark.admits]

/-- Job ids are used once. -/
structure Tracked (s : State) : Prop where
  once : ∀ j, s.segments.countP (Segment.admits j) + (s.core.isAdmitted j).toNat ≤
    (decide (j ∈ s.issued)).toNat
  past : ∀ seg ∈ s.segments, ∀ j, seg.past? = some j → s.core.isAdmitted j = true

namespace Tracked

theorem init (r : SchedulerRun) : Tracked r.init where
  once j := Nat.zero_le _
  past seg h := by cases h

theorem started {s₁ : State} (h : Tracked s) (hfree : s.tasks.get? task = none)
    (hbegun : Begun sch { s with clock := e.now } call s₁ code) :
    Tracked (s.enter s₁ task call code) := by
  refine ⟨?_, ?_⟩
  · intro j
    rw [State.countP_enter hfree]
    have hj := h.once j
    show _ + (s.core.isAdmitted j).toNat ≤ (decide (j ∈ s₁.issued)).toNat
    cases hbegun with
    | @execute req pj timeout hnew =>
      by_cases hid : j = pj.jobId
      · subst hid
        have hzero : (decide (pj.jobId ∈ s.issued)).toNat = 0 := by
          rw [decide_eq_false (show pj.jobId ∉ s.issued from hnew)]
          rfl
        have hone : (decide (pj.jobId ∈ s.issued.insert pj.jobId)).toNat = 1 := by simp
        have hcount : countP (Segment.admits pj.jobId)
            [.registerWaiter pj.jobId, .admission pj timeout] = 1 := by
          simp [Segment.admits]
        refine le_trans ?_ hone.ge
        omega
      · have hcount : countP (Segment.admits j)
            [.registerWaiter pj.jobId, .admission pj timeout] = 0 := by
          simp [Segment.admits, Ne.symm hid]
        have hsame : (j ∈ s.issued.insert pj.jobId) = (j ∈ s.issued) := by simp [hid]
        rw [hcount, Nat.zero_add]
        simp only [hsame]
        exact hj
    | _ =>
      simp only [countP_cons, countP_nil, Segment.admits]
      simpa using hj
  · intro seg hseg j hpast
    rcases State.mem_enter hfree hseg with hmem | hmem
    · cases hbegun <;> simp only [mem_cons, not_mem_nil, or_false] at hmem
      all_goals rcases hmem with rfl | rfl <;> cases hpast
    · exact h.past seg hmem j hpast

theorem ran (h : Tracked s) (htask : s.tasks.get? task = some t) (hcode : t.code = seg :: rest)
    (hran : Ran sch s.core ch e.now seg core next) :
    Tracked (s.advance e.now core task t.call (next ++ rest)) := by
  refine ⟨?_, ?_⟩
  · intro j
    have hj := h.once j
    have hcount := State.countP_advance htask hcode e.now core next (Segment.admits j)
    show _ + (core.isAdmitted j).toNat ≤ (decide (j ∈ s.issued)).toNat
    rcases hran.admission with ⟨pj, timeout, rfl, rfl, rfl⟩ | ⟨hsame, hnext⟩
    · rw [Core.isAdmitted_admit]
      by_cases hid : pj.jobId = j <;> simp [Segment.admits, hid] at hcount ⊢ <;> omega
    · have hzero : next.countP (Segment.admits j) = 0 :=
        countP_eq_zero.2 fun x hx => by simp [(hnext x hx).1 j]
      rw [hsame]
      omega
  · intro x hx j hpast
    show core.isAdmitted j = true
    have hseg := State.mem_code htask hcode
    have hwhere := State.mem_advance htask hcode hx
    rcases hran.admission with ⟨pj, timeout, rfl, rfl, rfl⟩ | ⟨hsame, hnext⟩
    · rw [Core.isAdmitted_admit]
      rcases hwhere with hmem | hmem
      · simp only [mem_cons, not_mem_nil, or_false] at hmem
        rcases hmem with rfl | rfl | rfl <;> cases hpast <;> simp
      · rw [h.past x hmem j hpast, Bool.or_true]
    · rw [hsame]
      rcases hwhere with hmem | hmem
      · exact h.past seg hseg j ((hnext x hmem).2 j hpast)
      · exact h.past x hmem j hpast

theorem step (h : Tracked s) (hs : Stepped sch s e s') : Tracked s' := by
  cases hs with
  | idle => exact ⟨h.once, h.past⟩
  | started hfree hbegun => exact h.started hfree hbegun
  | ran hmove htask hcode hran => exact h.ran htask hcode hran

end Tracked

theorem SchedulerRun.tracked (r : SchedulerRun) (k : ℕ) : Tracked (r.state k) :=
  r.induction (.init r) (fun _ _ _ h _ hs => h.step hs) k

theorem Tracked.not_admitted (h : Tracked s) {pj : PendingJob} {timeout : Duration}
    (hseg : .admission pj timeout ∈ s.segments) : s.core.isAdmitted pj.jobId = false := by
  have hpos : 0 < s.segments.countP (Segment.admits pj.jobId) :=
    countP_pos_iff.2 ⟨_, hseg, by simp [Segment.admits]⟩
  have honce := h.once pj.jobId
  have hle : (decide (pj.jobId ∈ s.issued)).toNat ≤ 1 := Bool.toNat_le _
  cases hadm : s.core.isAdmitted pj.jobId with
  | false => rfl
  | true =>
    rw [hadm, Bool.toNat_true] at honce
    omega

namespace Sample

/-- A digest. -/
def digest : Digest :=
  ⟨String.ofList (List.replicate 64 '0'), 0, by decide +kernel, by decide +kernel, le_rfl⟩

/-- A worker. -/
def worker : WorkerId := ⟨"w", by decide, by decide⟩

/-- Another worker. -/
def other : WorkerId := ⟨"x", by decide, by decide⟩

/-- A job. -/
def job : JobId := ⟨"j", by decide, by decide⟩

/-- A second job. -/
def second : JobId := ⟨"k", by decide, by decide⟩

/-- A tenant. -/
def tenant : TenantId := ⟨"t", by decide, by decide⟩

/-- An action is to be executed as the given job, within so many seconds. -/
def execute (id : JobId) (timeout : Option ℤ := none) : Call :=
  .execute
    { actionDigest := digest
      tenant := tenant
      action := .ok { commandDigest := some ⟨digest.hash, 0⟩, timeout := timeout }
      command := .ok {}
      jobId := id }

/-- A call starts, at a time in seconds. -/
def start (secs task : ℕ) (call : Call) : Event := ⟨Duration.fromSecs secs, .start task call⟩

/-- A call runs its next segment. -/
def go (secs task : ℕ) (choice : Choice := {}) : Event := ⟨Duration.fromSecs secs, .run task choice⟩

/-- The worker says `Hello` on stream 1, and the scheduler takes note. -/
def hello : List Event := [start 0 0 (.connectWorker 1 worker), go 0 0, go 0 0, go 0 0]

/-- Call 1 gets its job admitted and leased to the worker. -/
def lease : List Event := [start 1 1 (execute job), go 1 1, go 1 1, go 1 1, go 1 1]

end Sample

end Brokkr.Control
