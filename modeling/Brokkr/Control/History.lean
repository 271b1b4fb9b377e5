import Brokkr.Control.Quota
import Brokkr.Control.Requeue

/-!
# What the job history says

A job is recorded when a report for it is accepted; what its call makes of the report is
decided later, by the call.

* `Staged` — a job has one call, and the call is at one stage.
* `recordsTrue` — what must not happen for the record to be right: a call times out, a job
  is given up or put back twice, or a worker reports an error along with exit code zero.
* `Filed` — every closed job has one record, and whatever report is on its way to the call,
  or has reached it, is the one the record was made from.
* `Sample.unrecordedRun`, `Sample.misrecordedRun` — a job that timed out has no record; one
  whose call failed is recorded as succeeded.
-/

namespace Brokkr.Control

open OrdMap

open List

variable {sch : Scheduler} {s : State} {j : JobId}

/-! ## One call, one stage -/

namespace Segment

/-- The job whose call is at this stage, from its admission to its outcome. -/
def stage? : Segment → Option JobId
  | .admission pj _ => some pj.jobId
  | .withdrawWaiter job _ => some job
  | .startWait job _ => some job
  | .awaitResult job _ _ => some job
  | .expireWaiter job _ => some job
  | .cancel job _ => some job
  | .recordResult job _ => some job
  | _ => none

/-- The job whose call waits here, or is about to. -/
def awaits? : Segment → Option JobId
  | .startWait job _ => some job
  | .awaitResult job _ _ => some job
  | _ => none

/-- The segment is a stage of the call of a job. -/
def stages (j : JobId) (seg : Segment) : Bool := decide (seg.stage? = some j)

end Segment

theorem Ran.stages {c c' : Core} {ch : Choice} {now : Instant} {seg : Segment} {next : List Segment}
    (h : Ran sch c ch now seg c' next) (j : JobId) :
    next.countP (Segment.stages j) ≤ (seg.stages j).toNat := by
  cases h with
  | disconnect =>
    simp [countP_append, countP_map, Function.comp_def, Segment.stages, Segment.stage?]
  | @takeExpired read pending requeued =>
    by_cases hpos : 0 < requeued <;>
      simp [countP_append, countP_map, Function.comp_def, Segment.stages, Segment.stage?, hpos]
  | @rejected pj => by_cases hj : pj.jobId = j <;> simp [Segment.stages, Segment.stage?, hj]
  | @admitted pj => by_cases hj : pj.jobId = j <;> simp [Segment.stages, Segment.stage?, hj]
  | startWait job => by_cases hj : job = j <;> simp [Segment.stages, Segment.stage?, hj]
  | @woken job => by_cases hj : job = j <;> simp [Segment.stages, Segment.stage?, hj]
  | @fired job => by_cases hj : job = j <;> simp [Segment.stages, Segment.stage?, hj]
  | expireWaiter job => by_cases hj : job = j <;> simp [Segment.stages, Segment.stage?, hj]
  | _ => simp [Segment.stages, Segment.stage?]

/-- The call of a job is at one stage. -/
def Staged (s : State) : Prop :=
  ∀ j, s.segments.countP (Segment.stages j) ≤ (decide (j ∈ s.issued)).toNat

theorem Staged.step {s' : State} {e : Event} (h : Staged s) (hs : Stepped sch s e s') :
    Staged s' := by
  intro j
  have hj := h j
  cases hs with
  | idle => exact hj
  | @started task call s₁ code hfree hbegun =>
    rw [State.countP_enter hfree]
    show _ ≤ (decide (j ∈ s₁.issued)).toNat
    cases hbegun with
    | @execute req pj timeout hnew =>
      have hnew' : pj.jobId ∉ s.issued := hnew
      by_cases hid : pj.jobId = j
      · subst hid
        simp only [hnew', decide_false, Bool.toNat_false, Nat.le_zero] at hj
        simp [Segment.stages, Segment.stage?, hj]
      have hsame : (decide (j ∈ s.issued.insert pj.jobId)).toNat =
          (decide (j ∈ s.issued)).toNat := by simp [Ne.symm hid]
      refine le_trans ?_ hsame.ge
      simpa [Segment.stages, Segment.stage?, hid] using hj
    | _ => simpa [Segment.stages, Segment.stage?] using hj
  | @ran task t ch seg rest core next hmove htask hcode hran =>
    have hle := hran.stages j
    have hcount := State.countP_advance htask hcode e.now core next (Segment.stages j)
    show _ ≤ (decide (j ∈ s.issued)).toNat
    omega

theorem SchedulerRun.staged (r : SchedulerRun) (k : ℕ) : Staged (r.state k) :=
  r.induction (M := Staged) (fun _ => Nat.zero_le _) (fun _ _ _ h _ hs => h.step hs) k

theorem Staged.unique (h : Staged s) {seg : Segment} {others : List Segment}
    (hperm : s.segments.Perm (seg :: others)) (hseg : seg.stage? = some j) {x : Segment}
    (hx : x ∈ others) : x.stage? ≠ some j := by
  intro hstage
  have hle := (h j).trans (Bool.toNat_le _)
  rw [hperm.countP_eq, countP_cons, if_pos (by simp [Segment.stages, hseg])] at hle
  have hpos : 0 < others.countP (Segment.stages j) :=
    countP_pos_iff.2 ⟨x, hx, by simp [Segment.stages, hstage]⟩
  omega

/-! ## What is recorded -/

namespace JobResult

variable (report : JobResult)

/-- The worker reports exit code zero and no error. -/
def succeeded : Bool :=
  decide (report.errorMessage = "") &&
    decide (report.result.map ActionResult.exitCode = some 0)

/-- The state a job with this report is recorded under. -/
def recordedAs : JobState :=
  if report.result.map ActionResult.exitCode = some 0 then .succeeded else .failed

/-- There is no error beside an exit code of zero. -/
def isPlain : Bool :=
  decide (report.errorMessage = "") ||
    decide (report.result.map ActionResult.exitCode ≠ some 0)

theorem recordedAs_of_isPlain {report : JobResult} (h : report.isPlain = true) :
    report.recordedAs = if report.succeeded then .succeeded else .failed := by
  rw [isPlain, Bool.or_eq_true, decide_eq_true_eq, decide_eq_true_eq] at h
  rw [recordedAs, succeeded]
  by_cases hzero : report.result.map ActionResult.exitCode = some 0
  · simp [hzero, h.resolve_right (not_not.2 hzero)]
  · simp [hzero]

end JobResult

/-- The records of a job. -/
def JobHistory.of (h : JobHistory) (j : JobId) : List JobSummary :=
  h.entries.filter fun summary => decide (summary.jobId = j.asStr)

theorem JobHistory.of_record {h : JobHistory} (hroom : h.entries.length < h.capacity)
    {summary : JobSummary} {i : JobId} (hid : summary.jobId = i.asStr) (j : JobId) :
    (h.record summary).of j = h.of j ++ if i = j then [summary] else [] := by
  rw [of, record, if_neg (ne_of_lt hroom)]
  rw [filter_append]
  congr 1
  by_cases hj : i = j
  · simp [hid, hj]
  · have hne : ¬ i.asStr = j.asStr := fun heq => hj (Ident.asStr_injective heq)
    simp [hid, hj, hne]

/-- The segment leaves a true record: no call times out, no job is given up or put back a
second time, and no report that is accepted has an error beside an exit code of zero. -/
def Core.recordsTrue (c : Core) (seg : Segment) : Bool :=
  match seg with
  | .expireWaiter _ _ => false
  | .sendFailed _ _ pj => c.inner.leases.contains pj.jobId && decide (pj.attempts + 1 < maxAttempts)
  | .report _ job result => !c.inner.leases.contains job || result.isPlain
  | seg => (c.taken seg).all fun q => decide (q.2.attempts + 1 < maxAttempts)

/-- The segment whose turn it is leaves a true record. -/
def recordsTrue (s : State) (e : Event) : Bool := (s.running e).all s.core.recordsTrue

theorem Inner.giveUp_eq_nil {inner inner' : Inner} {jobs : List (JobId × PendingJob)} {n : ℕ}
    {giveUp : List JobId} (h : inner.requeueTaken jobs = (inner', n, giveUp))
    (hall : (jobs.all fun q => decide (q.2.attempts + 1 < maxAttempts)) = true) :
    giveUp = [] := by
  obtain ⟨-, -, -, hgive, -⟩ := requeueTaken_spec h
  rw [hgive, map_eq_nil_iff, filter_eq_nil_iff]
  intro q hq
  have hlt := of_decide_eq_true (all_eq_true.1 hall q hq)
  simpa using hlt

namespace Ran

variable {c c' : Core} {ch : Choice} {now : Instant} {seg : Segment} {next : List Segment}

variable (h : Ran sch c ch now seg c' next)

include h

theorem filed (hcond : c.recordsTrue seg = true)
    (hcancel : ∀ j timeout, seg ≠ .cancel j timeout) :
    (∃ stream j result l, seg = .report stream j result ∧ c.inner.leases.get? j = some l ∧
      next = [.wake j result, .dispatch] ∧
      c'.inner.jobHistory =
        c.inner.jobHistory.record (sch.summary l.payload l.workerId result ch.unixMs) ∧
      ∀ i, c'.isClosed i = (decide (j = i) || c.isClosed i)) ∨
    (c'.inner.jobHistory = c.inner.jobHistory ∧ (∀ i, c'.isClosed i = c.isClosed i) ∧
      ∀ j result, .wake j result ∉ next) := by
  cases h with
  | @accepted stream j result l hsome =>
    exact .inl ⟨stream, j, result, l, rfl, hsome, rfl, rfl, fun _ => rfl⟩
  | gaveUp hmax =>
    obtain ⟨-, hlt⟩ := Bool.and_eq_true_iff.1 hcond
    exact absurd (of_decide_eq_true hlt) (not_lt.2 hmax)
  | cancel job timeout => exact absurd rfl (hcancel job timeout)
  | disconnect hrequeue =>
    obtain rfl := Inner.giveUp_eq_nil hrequeue hcond
    exact .inr ⟨rfl, fun _ => rfl, by simp⟩
  | @takeExpired read pending requeued giveUp hrequeue =>
    obtain rfl := Inner.giveUp_eq_nil hrequeue hcond
    refine .inr ⟨rfl, ?_, ?_⟩
    · simp [Core.isClosed, any_append, any_map, Function.comp_def, Mark.closes, any_const_false]
    · intro j result hmem
      by_cases hpos : 0 < requeued <;> simp [hpos] at hmem
  | placed hsome =>
    obtain ⟨_, _, _, _, -, -, -, -, -, hinner⟩ := Scheduler.place_spec hsome
    refine .inr ⟨?_, fun _ => rfl, by simp⟩
    rw [Core.afterPlace, hinner]
  | _ => exact .inr ⟨rfl, fun _ => rfl, by simp⟩

theorem delivers (j : JobId) (result : JobResult) :
    (.recordResult j result ∈ next → c.delivered.get? j = some result) ∧
      (c'.delivered.get? j = some result →
        c.delivered.get? j = some result ∨ seg = .wake j result) := by
  cases h with
  | @woken job timeout deadline report hget =>
    refine ⟨?_, ?_⟩
    · intro hmem
      obtain ⟨rfl, rfl⟩ : j = job ∧ result = report := by simpa using hmem
      exact hget
    intro hsome
    obtain ⟨-, hold⟩ := of_get?_erase hsome
    exact .inl hold
  | @wake job report =>
    refine ⟨by simp, ?_⟩
    intro hsome
    rcases of_get?_insert hsome with ⟨heq, rfl⟩ | ⟨-, hold⟩
    · exact .inr (by rw [heq])
    · exact .inl hold
  | disconnect => exact ⟨by simp, .inl⟩
  | @takeExpired read pending requeued =>
    by_cases hpos : 0 < requeued <;> simp [hpos]
  | _ => exact ⟨by simp, .inl⟩

theorem returned {o : Except ExecutionError ExecutionOutcome}
    (hm : .returned j o ∈ c'.history) :
    .returned j o ∈ c.history ∨ (∃ limit, seg = .withdrawWaiter j limit) ∨
      (∃ timeout deadline, seg = .awaitResult j timeout deadline ∧ c.isWaitedFor j = false) ∨
      (∃ timeout, seg = .cancel j timeout) ∨ ∃ report, seg = .recordResult j report := by
  cases h with
  | withdrawWaiter job limit =>
    rcases mem_cons.1 hm with heq | hm
    · cases heq
      exact .inr (.inl ⟨limit, rfl⟩)
    · exact .inl hm
  | @failed job timeout deadline hget hmem =>
    rcases mem_cons.1 hm with heq | hm
    · cases heq
      exact .inr (.inr (.inl ⟨timeout, deadline, rfl, by simp [Core.isWaitedFor, hget, hmem]⟩))
    · exact .inl hm
  | cancel job timeout =>
    rcases mem_cons.1 hm with heq | hm
    · cases heq
      exact .inr (.inr (.inr (.inl ⟨timeout, rfl⟩)))
    · exact .inl ((mem_cons.1 hm).resolve_left (by simp))
  | recordResult job report =>
    rcases mem_cons.1 hm with heq | hm
    · cases heq
      exact .inr (.inr (.inr (.inr ⟨report, rfl⟩)))
    · exact .inl hm
  | disconnect => exact .inl (by simpa using hm)
  | takeExpired => exact .inl (by simpa using hm)
  | _ => exact .inl (by simpa [Core.admitJob, Core.afterPlace, Core.mark] using hm)

theorem stillWaited (hw : c.isWaitedFor j = true) :
    c'.isWaitedFor j = true ∨ seg = .failJob j ∨ (∃ limit, seg = .withdrawWaiter j limit) ∨
      (∃ timeout deadline, seg = .awaitResult j timeout deadline) ∨
      ∃ timeout, seg = .expireWaiter j timeout := by
  have hor : j ∈ c.waiters ∨ (c.delivered.get? j).isSome = true := by
    simpa [Core.isWaitedFor] using hw
  cases h with
  | registerWaiter =>
    rcases hor with hmem | hsome
    · simp [Core.isWaitedFor, hmem]
    · simp [Core.isWaitedFor, hsome]
  | withdrawWaiter job limit =>
    by_cases hj : j = job
    · subst hj
      exact .inr (.inr (.inl ⟨limit, rfl⟩))
    · left
      simpa [Core.isWaitedFor, hj] using hor
  | failJob job =>
    by_cases hj : j = job
    · subst hj
      exact .inr (.inl rfl)
    · left
      simpa [Core.isWaitedFor, hj] using hor
  | @woken job timeout deadline =>
    by_cases hj : j = job
    · subst hj
      exact .inr (.inr (.inr (.inl ⟨timeout, deadline, rfl⟩)))
    · left
      simpa [Core.isWaitedFor, get?_erase, hj] using hor
  | expireWaiter job timeout =>
    by_cases hj : j = job
    · subst hj
      exact .inr (.inr (.inr (.inr ⟨timeout, rfl⟩)))
    · left
      simpa [Core.isWaitedFor, hj] using hor
  | @wake job =>
    by_cases hj : j = job
    · simp [Core.isWaitedFor, hj]
    · simpa [Core.isWaitedFor, get?_insert, hj] using hor
  | _ => exact .inl hw

theorem awaits_cases : (∀ x ∈ next, x.awaits? = none) ∨
    (∃ pj timeout, seg = .admission pj timeout ∧ c' = c.admitJob pj ∧
      next = [.dispatch, .startWait pj.jobId timeout, .release pj.jobId pj.tenant]) ∨
    ∃ job timeout, seg = .startWait job timeout ∧ c' = c ∧
      next = [.awaitResult job timeout (now + timeout)] := by
  cases seg with
  | admission pj timeout =>
    cases h with
    | rejected => exact .inl (forall_mem_singleton.2 rfl)
    | admitted => exact .inr (.inl ⟨pj, timeout, rfl, rfl, rfl⟩)
  | startWait job timeout =>
    cases h
    exact .inr (.inr ⟨job, timeout, rfl, rfl, rfl⟩)
  | _ => exact .inl fun x hx => by cases h.follows x hx <;> rfl

theorem awaits {x : Segment} (hx : x ∈ next)
    (hj : x.awaits? = some j) : c'.isWaitedFor j = c.isWaitedFor j ∧
      (seg.awaits? = some j ∨ ∃ pj timeout, seg = .admission pj timeout ∧ pj.jobId = j) := by
  rcases h.awaits_cases with hnone | ⟨pj, timeout, rfl, rfl, rfl⟩ | ⟨job, timeout, rfl, rfl, rfl⟩
  · rw [hnone x hx] at hj
    cases hj
  · refine ⟨rfl, .inr ⟨pj, timeout, rfl, ?_⟩⟩
    simp only [mem_cons, not_mem_nil, or_false] at hx
    rcases hx with rfl | rfl | rfl <;> cases hj
    rfl
  · cases mem_singleton.1 hx
    exact ⟨rfl, .inl hj⟩

theorem withdraws {limit : ℕ}
    (hmem : .withdrawWaiter j limit ∈ next) : ∃ pj timeout, seg = .admission pj timeout ∧
      pj.jobId = j ∧ c' = c ∧ next = [.withdrawWaiter j limit] := by
  cases h.follows _ hmem with
  | withdrawWaiter pj timeout =>
    cases h with
    | rejected =>
      cases mem_singleton.1 hmem
      exact ⟨pj, timeout, rfl, rfl, rfl, rfl⟩
    | admitted => simp at hmem

theorem quiet (hcond : c.recordsTrue seg = true) :
    ∀ x ∈ next, (∀ j, x ≠ .failJob j) ∧ ∀ j timeout, x ≠ .cancel j timeout := by
  cases h with
  | gaveUp hmax =>
    obtain ⟨-, hlt⟩ := Bool.and_eq_true_iff.1 hcond
    exact absurd (of_decide_eq_true hlt) (not_lt.2 hmax)
  | expireWaiter => cases hcond
  | disconnect hrequeue =>
    obtain rfl := Inner.giveUp_eq_nil hrequeue hcond
    simp
  | @takeExpired read pending requeued giveUp hrequeue =>
    obtain rfl := Inner.giveUp_eq_nil hrequeue hcond
    by_cases hpos : 0 < requeued <;> simp [hpos]
  | _ => simp

end Ran

/-! ## The record and the call -/

/-- The job was turned away: it is not admitted, and never will be. -/
def State.Spent (s : State) (j : JobId) : Prop :=
  s.core.isAdmitted j = false ∧ j ∈ s.issued ∧ s.segments.countP (Segment.admits j) = 0

theorem State.Spent.step {s' : State} {e : Event} (h : s.Spent j) (hs : Stepped sch s e s') :
    s'.Spent j := by
  obtain ⟨hadm, hissued, hcount⟩ := h
  cases hs with
  | idle => exact ⟨hadm, hissued, hcount⟩
  | @started task call s₁ code hfree hbegun =>
    refine ⟨hadm, ?_, ?_⟩
    · show j ∈ s₁.issued
      cases hbegun with
      | execute => simp [hissued]
      | _ => exact hissued
    rw [State.countP_enter hfree, hcount]
    cases hbegun with
    | @execute req pj timeout hnew =>
      have hne : pj.jobId ≠ j := by
        rintro rfl
        exact hnew hissued
      simp [Segment.admits, hne]
    | _ => simp [Segment.admits]
  | @ran task t ch seg rest core next hmove htask hcode hran =>
    have hno : seg.admits j = false := by
      simpa using countP_eq_zero.1 hcount seg (State.mem_code htask hcode)
    have hsum := State.countP_advance htask hcode e.now core next (Segment.admits j)
    rcases hran.admission with ⟨pj, timeout, rfl, rfl, rfl⟩ | ⟨hsame, hnext⟩
    · have hne : ¬ pj.jobId = j := of_decide_eq_false hno
      refine ⟨?_, hissued, ?_⟩
      · show (s.core.admitJob pj).isAdmitted j = false
        rw [Core.isAdmitted_admit, hadm, decide_eq_false hne]
        rfl
      · rw [hno, hcount] at hsum
        simpa [Segment.admits] using hsum
    have hzero : next.countP (Segment.admits j) = 0 :=
      countP_eq_zero.2 fun x hx => by simp [(hnext x hx).1 j]
    refine ⟨?_, hissued, ?_⟩
    · show core.isAdmitted j = false
      rw [hsame, hadm]
    · rw [hno, hcount, hzero] at hsum
      exact hsum

/-- The report is on its way to the call of the job, or has reached it. -/
def State.Knows (s : State) (told : JobId → JobResult → Prop) (j : JobId) (report : JobResult) :
    Prop :=
  .wake j report ∈ s.segments ∨ s.core.delivered.get? j = some report ∨
    .recordResult j report ∈ s.segments ∨ told j report

/-- The record and the calls tell the same story; `told` are the reports calls have looked
at so far. -/
structure Filed (told : JobId → JobResult → Prop) (s : State) : Prop where
  records : ∀ j, (s.core.inner.jobHistory.of j).length = (s.core.isClosed j).toNat
  verdict : ∀ j report, s.Knows told j report → s.core.isClosed j = true ∧
    report.isPlain = true ∧ ∀ summary ∈ s.core.inner.jobHistory.of j,
      summary.state = report.recordedAs
  opens : ∀ task t pj timeout, s.tasks.get? task = some t → .admission pj timeout ∈ t.code →
    t.code = [.registerWaiter pj.jobId, .admission pj timeout] ∨
      t.code = [.admission pj timeout] ∧ s.core.isWaitedFor pj.jobId = true
  waiting : ∀ seg ∈ s.segments, ∀ j, seg.awaits? = some j → s.core.isWaitedFor j = true
  quiet : ∀ seg ∈ s.segments, (∀ j, seg ≠ .failJob j) ∧ ∀ j timeout, seg ≠ .cancel j timeout
  rejected : ∀ j limit, .withdrawWaiter j limit ∈ s.segments → s.Spent j
  returned : ∀ j o, .returned j o ∈ s.core.history → s.Spent j ∨ ∃ report, told j report

namespace Filed

variable {s' : State} {e : Event} {told told' : JobId → JobResult → Prop}

theorem init (r : SchedulerRun) : Filed (fun _ _ => False) r.init where
  records j := rfl
  verdict j report h := by
    rcases h with h | h | h | h
    · cases h
    · cases h
    · cases h
    · exact h.elim
  opens task t pj timeout h := by cases h
  waiting seg h := by cases h
  quiet seg h := by cases h
  rejected j limit h := by cases h
  returned j o h := by cases h

theorem weaken (h : Filed told s) (hmono : ∀ j report, told j report → told' j report)
    (hback : ∀ j report, told' j report → told j report ∨ .recordResult j report ∈ s.segments) :
    Filed told' s where
  records := h.records
  verdict j report hknows := by
    refine h.verdict j report ?_
    rcases hknows with hwake | hget | hrecord | htold
    · exact .inl hwake
    · exact .inr (.inl hget)
    · exact .inr (.inr (.inl hrecord))
    rcases hback j report htold with htold | hrecord
    · exact .inr (.inr (.inr htold))
    · exact .inr (.inr (.inl hrecord))
  opens := h.opens
  waiting := h.waiting
  quiet := h.quiet
  rejected := h.rejected
  returned j o hm := (h.returned j o hm).imp_right fun ⟨report, htold⟩ =>
    ⟨report, hmono j report htold⟩

theorem started {task : ℕ} {call : Call} {s₁ : State} {code : List Segment} (h : Filed told s)
    (hfree : s.tasks.get? task = none) (hbegun : Begun sch { s with clock := e.now } call s₁ code) :
    Filed told (s.enter s₁ task call code) := by
  have hspent : ∀ j, s.Spent j → (s.enter s₁ task call code).Spent j :=
    fun j hj => hj.step (Stepped.started (e := ⟨e.now, .start task call⟩) hfree hbegun rfl)
  have hnew : ∀ x ∈ code, (∀ j report, x ≠ .wake j report) ∧
      (∀ j report, x ≠ .recordResult j report) ∧ x.awaits? = none ∧ (∀ j, x ≠ .failJob j) ∧
      (∀ j timeout, x ≠ .cancel j timeout) ∧ ∀ j limit, x ≠ .withdrawWaiter j limit := by
    cases hbegun <;> simp [Segment.awaits?]
  refine ⟨h.records, ?_, ?_, ?_, ?_, ?_, ?_⟩
  · intro j report hknows
    refine h.verdict j report ?_
    rcases hknows with hwake | hget | hrecord | htold
    · exact .inl ((State.mem_enter hfree hwake).resolve_left fun hx => (hnew _ hx).1 j report rfl)
    · exact .inr (.inl hget)
    · exact .inr (.inr (.inl ((State.mem_enter hfree hrecord).resolve_left fun hx =>
        (hnew _ hx).2.1 j report rfl)))
    · exact .inr (.inr (.inr htold))
  · intro task' t pj timeout ht hmem
    rcases of_get?_insert ht with ⟨-, rfl⟩ | ⟨-, hget⟩
    · left
      cases hbegun with
      | execute =>
        simp only [mem_cons, not_mem_nil, or_false, reduceCtorEq, false_or] at hmem
        cases hmem
        rfl
      | _ => simp at hmem
    · exact h.opens task' t pj timeout hget hmem
  · intro seg hseg j hj
    rcases State.mem_enter hfree hseg with hx | hx
    · rw [(hnew seg hx).2.2.1] at hj
      cases hj
    · exact h.waiting seg hx j hj
  · intro seg hseg
    rcases State.mem_enter hfree hseg with hx | hx
    · exact ⟨(hnew seg hx).2.2.2.1, (hnew seg hx).2.2.2.2.1⟩
    · exact h.quiet seg hx
  · intro j limit hmem
    rcases State.mem_enter hfree hmem with hx | hx
    · exact absurd rfl ((hnew _ hx).2.2.2.2.2 j limit)
    · exact hspent j (h.rejected j limit hx)
  · intro j o hm
    exact (h.returned j o hm).imp_left (hspent j)

section Ran

variable {task : ℕ} {t : Task} {ch : Choice} {seg : Segment} {rest : List Segment} {core : Core}
  {next : List Segment}

theorem knows_advance (htask : s.tasks.get? task = some t) (hcode : t.code = seg :: rest)
    (hran : Ran sch s.core ch e.now seg core next) {report : JobResult}
    (h : (s.advance e.now core task t.call (next ++ rest)).Knows told j report) :
    s.Knows told j report ∨ .wake j report ∈ next := by
  obtain ⟨hrecorded, hdelivered⟩ := hran.delivers j report
  rcases h with hwake | hget | hrecord | htold
  · rcases State.mem_advance htask hcode hwake with hx | hx
    · exact .inr hx
    · exact .inl (.inl hx)
  · rcases hdelivered hget with hget | rfl
    · exact .inl (.inr (.inl hget))
    · exact .inl (.inl (State.mem_code htask hcode))
  · rcases State.mem_advance htask hcode hrecord with hx | hx
    · exact .inl (.inr (.inl (hrecorded hx)))
    · exact .inl (.inr (.inr (.inl hx)))
  · exact .inl (.inr (.inr (.inr htold)))

theorem recorded (h : Filed told s) (hc : Conserved s.core)
    (hroom : s.core.inner.jobHistory.entries.length < s.core.inner.jobHistory.capacity)
    (hcond : s.core.recordsTrue seg = true) (htask : s.tasks.get? task = some t)
    (hcode : t.code = seg :: rest) (hran : Ran sch s.core ch e.now seg core next) :
    (∀ j, (core.inner.jobHistory.of j).length = (core.isClosed j).toNat) ∧
      ∀ j report, (s.advance e.now core task t.call (next ++ rest)).Knows told j report →
        core.isClosed j = true ∧ report.isPlain = true ∧
          ∀ summary ∈ core.inner.jobHistory.of j, summary.state = report.recordedAs := by
  have hseg := State.mem_code htask hcode
  rcases hran.filed hcond (h.quiet seg hseg).2 with
    ⟨stream, i, result, l, rfl, hl, hnext, hhistory, hclosed⟩ | ⟨hhistory, hclosed, hnext⟩
  · -- a report is accepted: the job was alive, and had no record
    have hopen : s.core.isClosed i = false := (Conserved.isAlive_iff.1 (hc.of_leased hl).2).2
    have hnone : s.core.inner.jobHistory.of i = [] := by
      rw [← length_eq_zero_iff, h.records, hopen]
      rfl
    have hid : (sch.summary l.payload l.workerId result ch.unixMs).jobId = i.asStr := by
      show l.payload.jobId.asStr = i.asStr
      rw [hc.keyed i l hl]
    have hof := JobHistory.of_record hroom hid
    have hplain : result.isPlain = true := by
      have hor : (!s.core.inner.leases.contains i || result.isPlain) = true := hcond
      rw [LeaseTable.contains_eq, hl] at hor
      exact hor
    refine ⟨?_, ?_⟩
    · intro j
      rw [hhistory, hof, hclosed, length_append, h.records]
      by_cases hj : i = j
      · subst hj
        simp [hopen]
      · simp [hj]
    intro j report hknows
    rw [hhistory, hof, hclosed]
    rcases knows_advance htask hcode hran hknows with hknows | hwake
    · obtain ⟨hcl, hpl, hstate⟩ := h.verdict j report hknows
      have hj : i ≠ j := by
        rintro rfl
        rw [hopen] at hcl
        cases hcl
      rw [hcl, if_neg hj, append_nil, Bool.or_true]
      exact ⟨rfl, hpl, hstate⟩
    rw [hnext] at hwake
    obtain ⟨rfl, rfl⟩ : j = i ∧ report = result := by simpa using hwake
    rw [hnone, if_pos rfl, decide_eq_true rfl, Bool.true_or]
    refine ⟨rfl, hplain, ?_⟩
    intro summary hsummary
    cases mem_singleton.1 hsummary
    rfl
  · refine ⟨?_, ?_⟩
    · intro j
      rw [hhistory, hclosed]
      exact h.records j
    · intro j report hknows
      rw [hhistory, hclosed]
      rcases knows_advance htask hcode hran hknows with hknows | hwake
      · exact h.verdict j report hknows
      · exact absurd hwake (hnext j report)

theorem keepsWaiter (h : Filed told s) (hcond : s.core.recordsTrue seg = true)
    (hseg : seg ∈ s.segments) (hran : Ran sch s.core ch e.now seg core next)
    (hw : s.core.isWaitedFor j = true) (hwithdraw : ∀ limit, seg ≠ .withdrawWaiter j limit)
    (hawait : ∀ timeout deadline, seg ≠ .awaitResult j timeout deadline) :
    core.isWaitedFor j = true := by
  rcases hran.stillWaited hw with hw | heq | ⟨limit, heq⟩ | ⟨timeout, deadline, heq⟩ |
    ⟨timeout, heq⟩
  · exact hw
  · exact absurd heq ((h.quiet seg hseg).1 j)
  · exact absurd heq (hwithdraw limit)
  · exact absurd heq (hawait timeout deadline)
  · rw [heq] at hcond
    cases hcond

theorem ran (h : Filed told s) (ht : Tracked s) (hst : Staged s) (hc : Conserved s.core)
    (hroom : s.core.inner.jobHistory.entries.length < s.core.inner.jobHistory.capacity)
    (hcond : s.core.recordsTrue seg = true) (hmove : e.move = .run task ch)
    (htold : ∀ j report, seg = .recordResult j report → told j report)
    (htask : s.tasks.get? task = some t) (hcode : t.code = seg :: rest)
    (hran : Ran sch s.core ch e.now seg core next) :
    Filed told (s.advance e.now core task t.call (next ++ rest)) := by
  obtain ⟨others, hbefore, hafter⟩ := State.segments_advance htask hcode e.now core next
  obtain ⟨hseg, hothers⟩ := cons_subset.1 hbefore.symm.subset
  have hspent : ∀ j, s.Spent j → (s.advance e.now core task t.call (next ++ rest)).Spent j :=
    fun j hj => hj.step (Stepped.ran hmove htask hcode hran)
  obtain ⟨hrecords, hverdict⟩ := h.recorded hc hroom hcond htask hcode hran
  refine ⟨hrecords, hverdict, ?_, ?_, ?_, ?_, ?_⟩
  · intro task' t' pj timeout ht' hmem
    show _ ∨ _ ∧ core.isWaitedFor pj.jobId = true
    rcases State.get?_advance ht' with rfl | hold
    · -- the call that moved on: it has registered its waiter
      have hrest : .admission pj timeout ∈ rest := by
        rcases mem_append.1 hmem with hx | hx
        · rcases hran.admission with ⟨_, _, -, -, rfl⟩ | ⟨-, hnext⟩
          · simp at hx
          · have hno := (hnext _ hx).1 pj.jobId
            simp [Segment.admits] at hno
        · exact hx
      rcases h.opens task t pj timeout htask (by rw [hcode]; exact mem_cons_of_mem _ hrest)
        with heq | ⟨heq, -⟩
      · rw [hcode] at heq
        cases heq
        cases hran with
        | registerWaiter =>
          simp [Core.isWaitedFor]
      · rw [hcode] at heq
        cases heq
        cases hrest
    · rcases h.opens task' t' pj timeout hold hmem with heq | ⟨heq, hw⟩
      · exact .inl heq
      · have hadmission : .admission pj timeout ∈ s.segments :=
          State.mem_segments.2 ⟨task', t', hold, hmem⟩
        refine .inr ⟨heq, h.keepsWaiter hcond hseg hran hw ?_ ?_⟩
        · rintro limit rfl
          have hnone := countP_eq_zero.1 (h.rejected pj.jobId limit hseg).2.2 _ hadmission
          simp [Segment.admits] at hnone
        rintro timeout' deadline rfl
        have hadm := ht.past _ hseg pj.jobId rfl
        rw [ht.not_admitted hadmission] at hadm
        cases hadm
  · intro x hx j hj
    show core.isWaitedFor j = true
    rcases mem_append.1 (hafter.mem_iff.1 hx) with hx | hx
    · obtain ⟨hsame, hfrom⟩ := hran.awaits hx hj
      rw [hsame]
      rcases hfrom with hawaits | ⟨pj, timeout, rfl, rfl⟩
      · exact h.waiting seg hseg j hawaits
      rcases h.opens task t pj timeout htask (by rw [hcode]; exact mem_cons_self) with
        heq | ⟨-, hw⟩
      · rw [hcode] at heq
        cases heq
      · exact hw
    · have hstage : x.stage? = some j := by
        cases x <;> first | exact hj | cases hj
      refine h.keepsWaiter hcond hseg hran (h.waiting x (hothers hx) j hj) ?_ ?_
      · rintro limit rfl
        exact hst.unique hbefore rfl hx hstage
      · rintro timeout deadline rfl
        exact hst.unique hbefore rfl hx hstage
  · intro x hx
    rcases State.mem_advance htask hcode hx with hx | hx
    · exact hran.quiet hcond x hx
    · exact h.quiet x hx
  · intro j limit hmem
    rcases State.mem_advance htask hcode hmem with hx | hx
    · obtain ⟨pj, timeout, rfl, rfl, rfl, rfl⟩ := hran.withdraws hx
      have honce := ht.once pj.jobId
      have hcount := State.countP_advance htask hcode e.now s.core
        [.withdrawWaiter pj.jobId limit] (Segment.admits pj.jobId)
      have hadmits : (Segment.admission pj timeout).admits pj.jobId = true := by
        simp [Segment.admits]
      have hnone : countP (Segment.admits pj.jobId)
          [.withdrawWaiter pj.jobId limit] = 0 := by simp [Segment.admits]
      have hle := Bool.toNat_le (decide (pj.jobId ∈ s.issued))
      rw [hadmits, hnone, Bool.toNat_true] at hcount
      refine ⟨ht.not_admitted hseg, ?_, by omega⟩
      by_contra hissued
      rw [decide_eq_false (show pj.jobId ∉ s.issued from hissued)] at honce
      simp only [Bool.toNat_false] at honce
      omega
    · exact hspent j (h.rejected j limit hx)
  · intro j o hm
    rcases hran.returned hm with hm | ⟨limit, rfl⟩ | ⟨timeout, deadline, rfl, hnone⟩ |
      ⟨timeout, rfl⟩ | ⟨report, rfl⟩
    · exact (h.returned j o hm).imp_left (hspent j)
    · exact .inl (hspent j (h.rejected j limit hseg))
    · rw [h.waiting _ hseg j rfl] at hnone
      cases hnone
    · exact absurd rfl ((h.quiet _ hseg).2 j timeout)
    · exact .inr ⟨report, htold j report rfl⟩

end Ran

end Filed

namespace SchedulerRun

variable (r : SchedulerRun)

theorem Meets.unsentLeasedOf {r : SchedulerRun} (h : r.Meets recordsTrue) :
    r.Meets Control.unsentStillLeased := by
  intro k e he
  have htrue := h k e he
  rw [Control.recordsTrue] at htrue
  rw [Control.unsentStillLeased]
  split
  · rename_i number worker pj hrun
    rw [hrun] at htrue
    exact (Bool.and_eq_true_iff.1 htrue).1
  · rfl

/-- The reports that calls have looked at within the first `k` events. -/
def Told (k : ℕ) (j : JobId) (report : JobResult) : Prop :=
  ∃ i < k, r.Runs i (.recordResult j report)

theorem filed (hcond : r.Meets recordsTrue)
    (hroom : ∀ k, (r.state k).core.inner.jobHistory.entries.length <
      (r.state k).core.inner.jobHistory.capacity) (k : ℕ) : Filed (r.Told k) (r.state k) := by
  induction k with
  | zero =>
    refine (Filed.init r).weaken (fun _ _ h => h.elim) ?_
    rintro j report ⟨i, hi, -⟩
    exact absurd hi (Nat.not_lt_zero i)
  | succ k ih =>
    have hmore : Filed (r.Told (k + 1)) (r.state k) := by
      refine ih.weaken ?_ ?_
      · rintro j report ⟨i, hi, hrun⟩
        exact ⟨i, Nat.lt_succ_of_lt hi, hrun⟩
      rintro j report ⟨i, hi, hrun⟩
      rcases Nat.lt_succ_iff_lt_or_eq.1 hi with hi | rfl
      · exact .inl ⟨i, hi, hrun⟩
      · exact .inr hrun.mem
    cases he : r.events[k]? with
    | none =>
      rw [r.state_succ_of_none he]
      exact hmore
    | some e =>
      rw [r.state_succ he]
      by_cases hnow : e.now < (r.state k).clock
      · rw [State.step, if_pos hnow]
        exact hmore
      have hs := State.stepped r.scheduler (r.state k) e
      generalize (r.state k).step r.scheduler e = s' at hs ⊢
      cases hs with
      | idle => exact ⟨hmore.1, hmore.2, hmore.3, hmore.4, hmore.5, hmore.6, hmore.7⟩
      | started hfree hbegun => exact hmore.started hfree hbegun
      | ran hmove htask hcode hran =>
        have hrunning := Stepped.running_eq hmove htask hcode
        have htrue := hcond k e he
        rw [Control.recordsTrue, hrunning] at htrue
        refine hmore.ran (r.tracked k) (r.staged k) (r.conserved hcond.unsentLeasedOf k)
          (hroom k) htrue hmove ?_ htask hcode hran
        rintro j report rfl
        exact ⟨k, Nat.lt_succ_self k, e, he, not_lt.1 hnow, hrunning⟩

end SchedulerRun

/-- **Job history truth.**  In every run in which no call times out, no job is given up or
put back a second time, and no accepted report has an error beside an exit code of zero, a
job that was admitted and whose call has returned has exactly one record.  It says
`succeeded` if the call got a report with exit code zero and no error, and `failed`
otherwise.  The ring is never full. -/
theorem history_truth (r : SchedulerRun) (hcond : r.Meets recordsTrue)
    (hroom : ∀ k, (r.state k).core.inner.jobHistory.entries.length <
      (r.state k).core.inner.jobHistory.capacity)
    {k : ℕ} {j : JobId} {o : Except ExecutionError ExecutionOutcome}
    (hadm : (r.state k).core.isAdmitted j = true)
    (hret : .returned j o ∈ (r.state k).core.history) :
    ∃ summary, (r.state k).core.inner.jobHistory.of j = [summary] ∧ (summary.state = .succeeded ↔
        ∃ i < k, ∃ report, r.Runs i (.recordResult j report) ∧ report.succeeded = true) ∧
      (summary.state = .failed ↔
        ¬ ∃ i < k, ∃ report, r.Runs i (.recordResult j report) ∧ report.succeeded = true) := by
  have h := r.filed hcond hroom k
  obtain ⟨report, htold⟩ : ∃ report, r.Told k j report := by
    rcases h.returned j o hret with ⟨hno, -⟩ | htold
    · rw [hadm] at hno
      cases hno
    · exact htold
  -- every report the call looked at is the one that was recorded
  have hknown : ∀ report, r.Told k j report → (r.state k).core.isClosed j = true ∧
      ∀ summary ∈ (r.state k).core.inner.jobHistory.of j,
        summary.state = if report.succeeded then .succeeded else .failed := by
    intro report htold
    obtain ⟨hclosed, hplain, hstate⟩ := h.verdict j report (.inr (.inr (.inr htold)))
    rw [JobResult.recordedAs_of_isPlain hplain] at hstate
    exact ⟨hclosed, hstate⟩
  obtain ⟨hclosed, hstate⟩ := hknown report htold
  have hone := h.records j
  rw [hclosed, Bool.toNat_true] at hone
  obtain ⟨summary, hsummary⟩ := length_eq_one_iff.1 hone
  have hmem : summary ∈ (r.state k).core.inner.jobHistory.of j := by
    rw [hsummary]
    exact mem_cons_self
  have hgot : report.succeeded = true ↔
      ∃ i < k, ∃ report, r.Runs i (.recordResult j report) ∧ report.succeeded = true := by
    constructor
    · intro hsucc
      obtain ⟨i, hi, hrun⟩ := htold
      exact ⟨i, hi, report, hrun, hsucc⟩
    rintro ⟨i, hi, report', hrun, hsucc⟩
    have hsame := (hknown report' ⟨i, hi, hrun⟩).2 summary hmem
    rw [hstate summary hmem, hsucc] at hsame
    cases hfirst : report.succeeded with
    | true => rfl
    | false =>
      rw [hfirst] at hsame
      cases hsame
  refine ⟨summary, hsummary, ?_, ?_⟩
  · rw [← hgot, hstate summary hmem]
    cases report.succeeded <;> simp
  · rw [← hgot, hstate summary hmem]
    cases report.succeeded <;> simp

/-- The job is sent and reported, and its call gets the report. -/
def Sample.reportingRun (result : JobResult) : SchedulerRun where
  events := hello ++ lease ++ [go 1 1, go 1 1, go 1 1, go 1 1, start 2 2 (.report 1 result),
    go 2 2, go 2 2, go 3 1, go 3 1]

/-- The job is reported with exit code zero. -/
def Sample.recordedRun : SchedulerRun :=
  reportingRun { jobId := "j", result := some { exitCode := 0 } }

open Sample

theorem history_truth_sample : ∃ summary,
    (recordedRun.state 18).core.inner.jobHistory.of job = [summary] ∧
      summary.state = .succeeded := by
  have hcond : recordedRun.Meets recordsTrue :=
    recordedRun.meets_of_lt (by decide +kernel)
  have hroom : ∀ k, (recordedRun.state k).core.inner.jobHistory.entries.length <
      (recordedRun.state k).core.inner.jobHistory.capacity :=
    recordedRun.forall_state (P := fun s => s.core.inner.jobHistory.entries.length <
      s.core.inner.jobHistory.capacity) (by decide +kernel)
  have hreturned : .returned job (.ok ⟨{ exitCode := 0 }, false, true⟩) ∈
      (recordedRun.state 18).core.history := by decide +kernel
  obtain ⟨summary, hone, hsucc, -⟩ :=
    history_truth recordedRun hcond hroom (by decide +kernel) hreturned
  refine ⟨summary, hone, hsucc.2 ⟨17, by decide, _, ⟨_, rfl, by decide +kernel, by rfl⟩, ?_⟩⟩
  decide

/-- The call of the job gives up waiting. -/
def Sample.unrecordedRun : SchedulerRun where
  events := hello ++ start 1 1 (execute job (some 1)) :: List.replicate 8 (go 1 1) ++
    [go 9 1 { timeout := true }, go 9 1, go 9 1]

/-- The job is reported with an error, and exit code zero. -/
def Sample.misrecordedRun : SchedulerRun :=
  reportingRun { jobId := "j", result := some { exitCode := 0 }, errorMessage := "e" }

/-- **A job that timed out has no record**, and one whose call failed with the error of the
worker is recorded as succeeded. -/
theorem history_untrue :
    ((unrecordedRun.state 16).core.isAdmitted job = true ∧
      .returned job (.error (.timeout (Duration.fromSecs 1))) ∈
        (unrecordedRun.state 16).core.history ∧
      (unrecordedRun.state 16).core.inner.jobHistory.of job = []) ∧
    .returned job (.error (.other "worker error: e")) ∈ (misrecordedRun.state 18).core.history ∧
    ((misrecordedRun.state 18).core.inner.jobHistory.of job).map
      JobSummary.state = [.succeeded] := by
  decide +kernel

end Brokkr.Control
