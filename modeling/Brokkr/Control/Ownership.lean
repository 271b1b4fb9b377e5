import Brokkr.Control.Placement

/-!
# Reports and the leases they complete

A report carries a job id and nothing about who sends it; the stream's worker is
known to the pump and dropped before the scheduler sees the report.

* `State.Accepts`, `State.Ignores` — what an accepted and an ignored report do.
* `reportsWhatWasSent` — a worker reports on a stream what it was sent on that stream.
* `leasedAfterOthers` — when a job is leased, no stream of another worker that was given
  the job is still open.
* `report_from_holder` — in every run that meets the two, each accepted report arrived
  on a stream of the worker it is recorded under, and every other report changes nothing.
* `late_report_accepted` — a run that meets only the first: a worker whose lease has
  expired reports after the job was leased to another worker, and its report is
  accepted and recorded under the other worker.
-/

namespace Brokkr.Control

open List

/-- A report that came in on a stream for a job is accepted: the stream's worker holds the
job's lease, the lease is completed, the locality index, the job history and the record
of the run name that worker, and the caller will be woken. -/
structure State.Accepts (sch : Scheduler) (s : State) (stream : StreamId) (j : JobId)
    (result : JobResult) (s' : State) (ws : WorkerStream) (l : Lease PendingJob) : Prop where
  stream_eq : s.streams.get? stream = some ws
  lease_eq : s.core.inner.leases.get? j = some l
  holder : l.workerId = ws.worker
  completed : s'.core.inner.leases = (s.core.inner.leases.complete j).1
  locality : s'.core.inner.locality = s.core.inner.locality.record ws.worker
    l.payload.actionDigest l.payload.inputRootDigest
  history : ∃ unixMs, s'.core.inner.jobHistory =
    s.core.inner.jobHistory.record (sch.summary l.payload ws.worker result unixMs)
  recorded : s'.core.history = .accepted stream j ws.worker :: s.core.history
  wakes : ∃ others, s.segments.Perm (.report stream j result :: others) ∧
    s'.segments.Perm (.wake j result :: .dispatch :: others)

/-- A report changes nothing; its call has returned. -/
structure State.Ignores (s : State) (stream : StreamId) (j : JobId) (result : JobResult)
    (s' : State) : Prop where
  core_eq : s'.core = s.core
  returned : s.segments.Perm (.report stream j result :: s'.segments)

/-- The segment is about to send the job on the stream. -/
def Segment.gives (stream : StreamId) (j : JobId) : Segment → Bool
  | .send _ _ tx pj => decide (tx = stream) && decide (pj.jobId = j)
  | _ => false

/-- The job was sent on the stream, or is about to be. -/
def State.given (s : State) (stream : StreamId) (j : JobId) : Bool :=
  decide (.sent stream j ∈ s.core.history) || s.segments.any (Segment.gives stream j)

/-- The stream has not ended. -/
def State.hasOpen (s : State) (stream : StreamId) : Bool :=
  (s.streams.get? stream).any WorkerStream.isOpen

/-- A report that begins is about a job that was sent on its stream: the worker answers
assignments, and answers each on the stream it came from. -/
def reportsWhatWasSent (s : State) (e : Event) : Bool :=
  match e.move with
  | .start _ (.report stream result) =>
    match JobId.new result.jobId with
    | .ok job => decide (.sent stream job ∈ s.core.history)
    | .error _ => true
  | _ => true

/-- When a job is leased to a worker, the streams of other workers on which it was given out
before have ended. -/
def leasedAfterOthers (sch : Scheduler) (s : State) (e : Event) : Bool :=
  match s.running e, e.move with
  | some (.select read), .run _ ch =>
    match sch.place s.core read ch.policy with
    | some p => s.streams.toList.all fun q =>
        decide (q.2.worker = p.worker) || !(q.2.isOpen && s.given q.1 p.pj.jobId)
    | none => true
  | _, _ => true

section Steps

variable {sch : Scheduler} {s s' : State} {e : Event} {stream : StreamId} {j : JobId}
  {task : ℕ} {t : Task} {call : Call} {s₁ : State} {code rest next : List Segment}
  {seg : Segment} {core : Core} {ch : Choice}

theorem State.given_iff : s.given stream j = true ↔ .sent stream j ∈ s.core.history ∨
    ∃ number w pj, .send number w stream pj ∈ s.segments ∧ pj.jobId = j := by
  rw [given, Bool.or_eq_true, decide_eq_true_iff, any_eq_true]
  refine or_congr_right ⟨?_, ?_⟩
  · rintro ⟨x, hx, hgives⟩
    cases x with
    | send number w tx pj =>
      rw [Segment.gives, Bool.and_eq_true, decide_eq_true_iff, decide_eq_true_iff] at hgives
      obtain ⟨rfl, hj⟩ := hgives
      exact ⟨number, w, pj, hx, hj⟩
    | _ => cases hgives
  · rintro ⟨number, w, pj, hx, rfl⟩
    exact ⟨_, hx, by simp [Segment.gives]⟩

theorem State.hasOpen_iff :
    s.hasOpen stream = true ↔ ∃ w, s.streams.get? stream = some ⟨w, true⟩ := by
  rw [hasOpen, Option.any_eq_true]
  refine ⟨?_, ?_⟩
  · rintro ⟨⟨w, isOpen⟩, hget, hopen⟩
    cases hopen
    exact ⟨w, hget⟩
  · rintro ⟨w, hget⟩
    exact ⟨_, hget, rfl⟩

theorem Wired.exists_worker (h : Wired s) (hgiven : s.given stream j = true) :
    ∃ w, s.workerOn stream = some w := by
  rcases State.given_iff.1 hgiven with hsent | ⟨number, w, pj, hsend, -⟩
  · obtain ⟨w, hplaced⟩ := h.sent stream j hsent
    exact ⟨w, h.placed j w stream hplaced⟩
  · exact ⟨w, h.placed pj.jobId w stream (h.send number w stream pj hsend)⟩

/-- Where reports can come from. -/
structure Answers (s : State) : Prop where
  report : ∀ task t stream j result, s.tasks.get? task = some t →
    .report stream j result ∈ t.code → t.call.stream? = some stream ∧
      s.hasOpen stream = true ∧ .sent stream j ∈ s.core.history
  holder : ∀ j l stream, s.core.inner.leases.get? j = some l → s.hasOpen stream = true →
    s.given stream j = true → s.workerOn stream = some l.workerId

namespace Answers

theorem init (r : SchedulerRun) : Answers r.init where
  report task t stream j result h := by cases h
  holder j l stream h := by cases h

theorem given_of_started (hfree : s.tasks.get? task = none)
    (hbegun : Begun sch { s with clock := e.now } call s₁ code)
    (h : (s.enter s₁ task call code).given stream j = true) : s.given stream j = true := by
  refine State.given_iff.2 ?_
  rcases State.given_iff.1 h with hsent | ⟨number, w, pj, hsend, hj⟩
  · exact .inl hsent
  rcases State.mem_enter hfree hsend with hx | hx
  · cases hbegun <;> simp at hx
  · exact .inr ⟨number, w, pj, hx, hj⟩

theorem hasOpen_of_started (hbegun : Begun sch { s with clock := e.now } call s₁ code)
    (h : s₁.hasOpen stream = true) : s.hasOpen stream = true ∨ s.workerOn stream = none := by
  obtain ⟨w, hget⟩ := State.hasOpen_iff.1 h
  cases hbegun with
  | @connectWorker opened worker hnew =>
    rw [OrdMap.get?_insert] at hget
    split at hget
    · rename_i heq
      subst heq
      refine .inr ?_
      rw [State.workerOn, show s.streams.get? stream = none from hnew]
      rfl
    · exact .inl (State.hasOpen_iff.2 ⟨w, hget⟩)
  | @disconnectWorker closed worker hstream hidle =>
    rw [OrdMap.get?_insert] at hget
    split at hget
    · cases hget
    · exact .inl (State.hasOpen_iff.2 ⟨w, hget⟩)
  | _ => exact .inl h

theorem hasOpen_started (hbegun : Begun sch { s with clock := e.now } call s₁ code)
    (ht : s.tasks.get? task = some t) (hcall : t.call.stream? = some stream)
    (h : s.hasOpen stream = true) : s₁.hasOpen stream = true := by
  obtain ⟨w, hget⟩ := State.hasOpen_iff.1 h
  cases hbegun with
  | @connectWorker opened worker hnew =>
    refine State.hasOpen_iff.2 ⟨w, ?_⟩
    rw [OrdMap.get?_insert, if_neg, hget]
    intro heq
    rw [heq, show s.streams.get? opened = none from hnew] at hget
    cases hget
  | @disconnectWorker closed worker hstream hidle =>
    refine State.hasOpen_iff.2 ⟨w, ?_⟩
    rw [OrdMap.get?_insert, if_neg, hget]
    rintro rfl
    exact State.stream?_ne_of_pumpIdle hidle ht hcall
  | _ => exact h

theorem report_started (hbegun : Begun sch { s with clock := e.now } call s₁ code)
    (hmove : e.move = .start task call) (hcond : reportsWhatWasSent s e = true)
    {result : JobResult} (hmem : .report stream j result ∈ code) :
    call.stream? = some stream ∧ s₁.hasOpen stream = true ∧ .sent stream j ∈ s.core.history := by
  cases hbegun with
  | report hstream hidle hjob =>
    cases mem_singleton.1 hmem
    simp only [reportsWhatWasSent, hmove, hjob] at hcond
    exact ⟨rfl, State.hasOpen_iff.2 ⟨_, hstream⟩, of_decide_eq_true hcond⟩
  | _ => simp at hmem

theorem started (h : Answers s) (hwired : Wired s) (hcond : reportsWhatWasSent s e = true)
    (hfree : s.tasks.get? task = none) (hbegun : Begun sch { s with clock := e.now } call s₁ code)
    (hmove : e.move = .start task call)
    (hworker : ∀ stream w, s.workerOn stream = some w → s₁.workerOn stream = some w) :
    Answers (s.enter s₁ task call code) := by
  refine ⟨?_, ?_⟩
  · intro task' t' stream j result ht hmem
    show _ ∧ s₁.hasOpen stream = true ∧ .sent stream j ∈ s.core.history
    rcases OrdMap.of_get?_insert ht with ⟨-, rfl⟩ | ⟨-, ht⟩
    · exact report_started hbegun hmove hcond hmem
    · obtain ⟨hcall, hopen, hsent⟩ := h.report task' t' stream j result ht hmem
      exact ⟨hcall, hasOpen_started hbegun ht hcall hopen, hsent⟩
  · intro j l stream hl hopen hgiven
    have hgiven := given_of_started hfree hbegun hgiven
    rcases hasOpen_of_started hbegun hopen with hopen | hnone
    · exact hworker stream l.workerId (h.holder j l stream hl hopen hgiven)
    · obtain ⟨w, hw⟩ := hwired.exists_worker hgiven
      rw [hw] at hnone
      cases hnone

theorem given_of_ran (htask : s.tasks.get? task = some t) (hcode : t.code = seg :: rest)
    (hran : Ran sch s.core ch e.now seg core next)
    (h : (s.advance e.now core task t.call (next ++ rest)).given stream j = true) :
    s.given stream j = true ∨ ∃ number w pj, .send number w stream pj ∈ next ∧ pj.jobId = j := by
  have hseg := State.mem_code htask hcode
  rcases State.given_iff.1 h with hsent | ⟨number, w, pj, hsend, hj⟩
  · rcases hran.mark_mem hsent with hsent | hleft
    · exact .inl (State.given_iff.2 (.inl hsent))
    · cases hleft with
      | sent number w tx pj => exact .inl (State.given_iff.2 (.inr ⟨number, w, pj, hseg, rfl⟩))
  rcases State.mem_advance htask hcode hsend with hx | hx
  · exact .inr ⟨number, w, pj, hx, hj⟩
  · exact .inl (State.given_iff.2 (.inr ⟨number, w, pj, hx, hj⟩))

theorem worker_of_leasedAfterOthers {read : Instant} {p : Placed}
    (hcond : leasedAfterOthers sch s e = true) (hmove : e.move = .run task ch)
    (hrun : s.running e = some (.select read)) (hplace : sch.place s.core read ch.policy = some p)
    (hopen : s.hasOpen stream = true) (hgiven : s.given stream p.pj.jobId = true) :
    s.workerOn stream = some p.worker := by
  obtain ⟨w, hget⟩ := State.hasOpen_iff.1 hopen
  simp only [leasedAfterOthers, hrun, hmove, hplace] at hcond
  have hall := all_eq_true.1 hcond (stream, ⟨w, true⟩) (OrdMap.get?_eq_some.1 hget)
  simp only [hgiven, Bool.and_true, Bool.not_true, Bool.or_false, decide_eq_true_iff] at hall
  rw [State.workerOn, hget, Option.map_some, hall]

theorem ran (h : Answers s) (hwired : Wired s) (hcond : leasedAfterOthers sch s e = true)
    (hmove : e.move = .run task ch) (htask : s.tasks.get? task = some t)
    (hcode : t.code = seg :: rest) (hran : Ran sch s.core ch e.now seg core next) :
    Answers (s.advance e.now core task t.call (next ++ rest)) := by
  refine ⟨?_, ?_⟩
  · intro task' t' stream j result ht hmem
    have hbefore : ∃ task₀ t₀, s.tasks.get? task₀ = some t₀ ∧ t₀.call = t'.call ∧
        .report stream j result ∈ t₀.code := by
      rcases State.get?_advance ht with rfl | ht
      · refine ⟨task, t, htask, rfl, ?_⟩
        rcases mem_append.1 hmem with hx | hx
        · cases hran.follows _ hx
        · rw [hcode]
          exact mem_cons_of_mem _ hx
      · exact ⟨task', t', ht, rfl, hmem⟩
    obtain ⟨task₀, t₀, ht₀, hcall, hmem₀⟩ := hbefore
    obtain ⟨hstream, hopen, hsent⟩ := h.report task₀ t₀ stream j result ht₀ hmem₀
    exact ⟨hcall ▸ hstream, hopen, hran.mark_mono hsent⟩
  · intro j l stream hl hopen hgiven
    show s.workerOn stream = some l.workerId
    have hwhere := given_of_ran htask hcode hran hgiven
    rcases hran.leases with ⟨read, p, rfl, hplace, rfl, rfl⟩ | ⟨-, hcount, hleases⟩
    · rcases Core.of_get?_afterPlace hplace hl with ⟨rfl, hw, -⟩ | ⟨hne, hl⟩
      · rw [hw]
        rcases hwhere with hgiven | ⟨number, w, pj, hx, -⟩
        · exact worker_of_leasedAfterOthers hcond hmove (Stepped.running_eq hmove htask hcode)
            hplace hopen hgiven
        · cases mem_singleton.1 hx
          exact hwired.sender p.worker p.tx (Scheduler.place_sender hplace)
      · rcases hwhere with hgiven | ⟨number, w, pj, hx, rfl⟩
        · exact h.holder j l stream hl hopen hgiven
        · cases mem_singleton.1 hx
          exact absurd rfl hne
    · obtain ⟨l₀, hl₀, hw, -⟩ := hleases j l hl
      rcases hwhere with hgiven | ⟨number, w, pj, hx, -⟩
      · rw [← hw]
        exact h.holder j l₀ stream hl₀ hopen hgiven
      · cases hran.follows _ hx with
        | send =>
          cases hran with
          | nothing => cases hx
          | placed => exact absurd hcount (Nat.succ_ne_self _)

theorem step (h : Answers s) (hwired : Wired s) (hsent : reportsWhatWasSent s e = true)
    (hleased : leasedAfterOthers sch s e = true) (hs : Stepped sch s e s') : Answers s' := by
  have hworker : ∀ stream w, s.workerOn stream = some w → s'.workerOn stream = some w :=
    fun _ _ => hs.stream_worker
  cases hs with
  | idle => exact ⟨h.report, h.holder⟩
  | started hfree hbegun hmove => exact h.started hwired hsent hfree hbegun hmove hworker
  | ran hmove htask hcode hran => exact h.ran hwired hleased hmove htask hcode hran

theorem worker_of_running {result : JobResult} {l : Lease PendingJob} (h : Answers s)
    (hrun : s.running e = some (.report stream j result))
    (hl : s.core.inner.leases.get? j = some l) : s.workerOn stream = some l.workerId := by
  obtain ⟨now, move⟩ := e
  obtain ⟨task, ch, t, rest, rfl, htask, hcode⟩ := State.exists_task hrun
  have hmem : .report stream j result ∈ t.code := by
    rw [hcode]
    exact mem_cons_self
  obtain ⟨-, hopen, hsent⟩ := h.report task t stream j result htask hmem
  exact h.holder j l stream hl hopen (State.given_iff.2 (.inl hsent))

end Answers

end Steps

theorem State.report_cases {sch : Scheduler} {s : State} {e : Event} {stream : StreamId}
    {j : JobId} {result : JobResult} (hnow : s.clock ≤ e.now)
    (hrun : s.running e = some (.report stream j result)) :
    (s.core.inner.leases.get? j = none ∧ s.Ignores stream j result (s.step sch e)) ∨
      ∃ l, s.core.inner.leases.get? j = some l ∧
        ∀ ws, s.streams.get? stream = some ws → l.workerId = ws.worker →
          s.Accepts sch stream j result (s.step sch e) ws l := by
  obtain ⟨now, move⟩ := e
  obtain ⟨task, ch, t, rest, rfl, htask, hcode⟩ := State.exists_task hrun
  cases hl : s.core.inner.leases.get? j with
  | none =>
    have hignored : sch.run s.core ch now (.report stream j result) = some (s.core, []) := by
      rw [Scheduler.run, Scheduler.completeLease_of_none hl]
    obtain ⟨others, hbefore, hafter⟩ := State.segments_advance htask hcode now s.core []
    refine .inl ⟨rfl, ?_⟩
    rw [State.step_run hnow htask hcode hignored]
    exact ⟨rfl, hbefore.trans (List.Perm.cons _ hafter.symm)⟩
  | some l =>
    refine .inr ⟨l, rfl, ?_⟩
    intro ws hws hholder
    let core : Core := { s.core with
      inner := sch.afterReport s.core.inner j l result ch.unixMs
      history := .accepted stream j l.workerId :: s.core.history }
    have haccepted : sch.run s.core ch now (.report stream j result) =
        some (core, [.wake j result, .dispatch]) := by
      rw [Scheduler.run, Scheduler.completeLease_of_some hl]
    obtain ⟨others, hbefore, hafter⟩ :=
      State.segments_advance htask hcode now core [.wake j result, .dispatch]
    rw [State.step_run hnow htask hcode haccepted]
    refine ⟨hws, hl, hholder, rfl, ?_, ⟨ch.unixMs, ?_⟩, ?_, others, hbefore, hafter⟩
    · rw [← hholder]
      rfl
    · rw [← hholder]
      rfl
    · rw [← hholder]
      rfl

theorem SchedulerRun.answers (r : SchedulerRun) (hsent : r.Meets reportsWhatWasSent)
    (hleased : r.Meets (leasedAfterOthers r.scheduler)) (k : ℕ) : Answers (r.state k) := by
  refine r.induction (Answers.init r) ?_ k
  intro k e he h s' hs
  exact h.step (r.wired k) (hsent k e he) (hleased k e he) hs

/-- Where accepted reports came from: each arrived on a stream of the worker it is
recorded under. -/
def OwnReports (s : State) : Prop :=
  ∀ stream j w, .accepted stream j w ∈ s.core.history → s.workerOn stream = some w

theorem OwnReports.step {sch : Scheduler} {s s' : State} {e : Event} (h : OwnReports s)
    (hanswers : Answers s) (hs : Stepped sch s e s') : OwnReports s' := by
  intro stream j w hmem
  refine hs.stream_worker ?_
  cases hs with
  | idle => exact h stream j w hmem
  | started => exact h stream j w hmem
  | ran hmove htask hcode hran =>
    rcases hran.mark_mem hmem with hmem | hleft
    · exact h stream j w hmem
    cases hleft with
    | accepted stream result hl =>
      exact hanswers.worker_of_running (Stepped.running_eq hmove htask hcode) hl

theorem SchedulerRun.ownReports (r : SchedulerRun) (hsent : r.Meets reportsWhatWasSent)
    (hleased : r.Meets (leasedAfterOthers r.scheduler)) (k : ℕ) : OwnReports (r.state k) := by
  refine r.induction ?_ ?_ k
  · intro stream j w hmem
    cases hmem
  · intro k e he h s' hs
    exact h.step (r.answers hsent hleased k) hs

/-- **Lease ownership.**  If workers report on a stream what they were sent on it, and a job
is leased anew only once the streams of other workers that were given it have ended, then
every accepted report arrived on a stream of the worker it is recorded under, which held the
lease at that moment, and a report from any other worker changes nothing. -/
theorem report_from_holder (r : SchedulerRun) (hsent : r.Meets reportsWhatWasSent)
    (hleased : r.Meets (leasedAfterOthers r.scheduler)) :
    (∀ k stream j w, .accepted stream j w ∈ (r.state k).core.history →
        ((r.state k).streams.get? stream).map WorkerStream.worker = some w) ∧
      ∀ k e stream j result, r.events[k]? = some e → (r.state k).clock ≤ e.now →
        (r.state k).running e = some (.report stream j result) →
          (∃ ws l, (r.state k).Accepts r.scheduler stream j result (r.state (k + 1)) ws l) ∨
            (r.state k).Ignores stream j result (r.state (k + 1)) := by
  refine ⟨fun k => r.ownReports hsent hleased k, ?_⟩
  intro k e stream j result he hnow hrun
  rw [r.state_succ he]
  rcases State.report_cases hnow hrun with ⟨-, hignored⟩ | ⟨l, hl, haccepts⟩
  · exact .inr hignored
  have hholder := (r.answers hsent hleased k).worker_of_running hrun hl
  obtain ⟨ws, hws, hw⟩ := Option.map_eq_some_iff.1 hholder
  exact .inl ⟨ws, l, haccepts ws hws hw.symm⟩

/-- The job is leased to one worker and sent, that worker's stream ends, and the job is leased
to a second worker, sent to it and reported by it. -/
def Sample.reassignedRun : SchedulerRun where
  events :=
    [start 0 0 (.connectWorker 1 other), go 0 0, go 0 0, go 0 0] ++ lease ++
      [go 1 1, start 2 2 (.connectWorker 2 worker), go 2 2, go 2 2, go 2 2,
        start 3 3 (.disconnectWorker 1), go 3 3, go 3 3, go 3 3, go 3 3,
        start 4 4 (.report 2 { jobId := "j" }), go 4 4]

open Sample

theorem report_from_holder_sample : ∃ ws l, (reassignedRun.state 20).Accepts
    reassignedRun.scheduler 2 job { jobId := "j" }
    (reassignedRun.state 21) ws l := by
  have hsent : reassignedRun.Meets reportsWhatWasSent :=
    reassignedRun.meets_of_lt (by decide +kernel)
  have hleased : reassignedRun.Meets (leasedAfterOthers reassignedRun.scheduler) :=
    reassignedRun.meets_of_lt (by decide +kernel)
  have hrun : (reassignedRun.state 20).running (go 4 4) =
      some (.report 2 job { jobId := "j" }) := by
    set_option maxRecDepth 2000 in rfl
  have hbefore : (reassignedRun.state 20).core.inner.leases.contains job = true := by
    decide +kernel
  have hafter : (reassignedRun.state (20 + 1)).core.inner.leases.contains job = false := by
    decide +kernel
  rcases (report_from_holder reassignedRun hsent hleased).2 20 (go 4 4) 2 job
    { jobId := "j" } rfl (by decide +kernel) hrun with h | h
  · exact h
  · rw [h.core_eq, hbefore] at hafter
    cases hafter

/-- A worker's lease expires, the job is leased to a second worker, and the first one
reports late. -/
def Sample.lateRun : SchedulerRun where
  events :=
    [start 0 0 (.connectWorker 1 other), go 0 0, go 0 0, go 0 0] ++ lease ++
      [go 1 1, start 2 2 (.connectWorker 2 worker), go 2 2, go 2 2, go 2 2,
        start 100 3 .reapExpiredLeases, go 100 3, go 100 3, go 100 3, go 100 3,
        start 101 4 (.report 1 { jobId := "j" }), go 101 4]

/-- **A late report is accepted** from a worker that no longer holds the lease: it completes
the other worker's lease and is recorded under the other worker.  Every report of the run is
about a job that was sent on its stream. -/
theorem late_report_accepted :
    lateRun.Meets reportsWhatWasSent ∧
      (lateRun.state 20).core.inner.leases.workerOf job = some worker ∧
      ((lateRun.state 20).streams.get? 1).map WorkerStream.worker = some other ∧
      (lateRun.state 21).core.inner.leases.workerOf job = none ∧
      (lateRun.state 21).core.inner.jobHistory.entries.map JobSummary.workerId = [some "w"] ∧
      (lateRun.state 21).core.inner.locality.actionHits worker digest = 1 :=
  ⟨lateRun.meets_of_lt (by decide +kernel), by decide +kernel⟩

end Brokkr.Control
