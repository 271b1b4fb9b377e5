import Brokkr.Control.Conservation

/-!
# Who goes before a requeued job

A job whose lease was taken away goes back to the queue with a new start tag: it is
pushed like a new job of its tenant, behind those that are pending.

* `Platform.Agrees` — two platforms accept the same workers.
* `Scheduler.place_least` — a dispatcher takes the job with the least tag among those
  that have a candidate.
* `InLine` — a job is queued with a tag, and of its tenant only certain jobs have a tag
  that is not later.  `Ran.inLine` keeps this until the job leaves the queue.
* `requeued_first` — only jobs that were pending when the job was requeued, or were
  requeued along with it, can be dispatched before it.
* `Sample.overtakenRun` — and those are.
-/

namespace Brokkr.Control

open Option

open List

variable {c : Core} {now : Instant} {old : PendingJob → Prop} {pj : PendingJob}

/-! ## What a dispatcher takes -/

/-- The platforms accept the same workers. -/
def Platform.Agrees (p q : Platform) : Prop :=
  ∀ caps : WorkerCapabilities, workerSatisfies caps p = workerSatisfies caps q

theorem Core.candidates_congr {p q : Platform} (h : Platform.Agrees p q) (c : Core)
    (now : Instant) : c.candidates now p = c.candidates now q := by
  have heligible : ∀ reg, eligibleWorkers reg now p = eligibleWorkers reg now q :=
    fun reg => filter_congr fun w _ => h w.2.capabilities
  simp only [candidates, heligible]

theorem Core.scan_least {slots : List (Slot PendingJob)} {best : Best} {idx start : ℕ}
    {cs : List WorkerId} (h : slots.foldl (c.considerSlot now) best = some (idx, cs, start)) :
    (∀ b, best = some b → start ≤ b.2.2) ∧
      ∀ slot ∈ slots, c.candidates now slot.job.platform ≠ [] → start ≤ slot.start := by
  induction slots generalizing best with
  | nil =>
    refine ⟨?_, by simp⟩
    rintro b rfl
    cases h
    exact le_rfl
  | cons slot slots ih =>
    obtain ⟨hbest, hslots⟩ := ih h
    -- the slot is passed over for an earlier one, has no candidate, or is the best so far
    have hslot : (∀ b, best = some b → start ≤ b.2.2) ∧
        (c.candidates now slot.job.platform ≠ [] → start ≤ slot.start) := by
      rw [considerSlot] at hbest
      split at hbest
      · rename_i hany
        refine ⟨hbest, fun _ => ?_⟩
        obtain ⟨b, rfl, hle⟩ := any_eq_true _ _ |>.1 hany
        exact (hbest b rfl).trans (of_decide_eq_true hle)
      rename_i hany
      simp only at hbest
      split at hbest
      · rename_i hempty
        exact ⟨hbest, fun hne => absurd (List.isEmpty_iff.1 hempty) hne⟩
      have hle := hbest _ rfl
      refine ⟨?_, fun _ => hle⟩
      rintro b rfl
      rw [any_some, decide_eq_true_eq, not_le] at hany
      exact hle.trans hany.le
    refine ⟨hslot.1, ?_⟩
    intro slot' hmem
    rcases mem_cons.1 hmem with rfl | hmem
    · exact hslot.2
    · exact hslots slot' hmem

theorem Scheduler.place_least {sch : Scheduler} {policy : ℕ} {p : Placed}
    (h : sch.place c now policy = some p) :
    ∃ e, e.job = p.pj ∧ (e :: p.inner.pending.entries).Perm c.inner.pending.entries ∧
      p.inner.pending.lastFinish = c.inner.pending.lastFinish ∧
      p.inner.pending.costOf = c.inner.pending.costOf ∧
      c.candidates now p.pj.platform ≠ [] ∧
      ∀ e' ∈ c.inner.pending.entries, c.candidates now e'.job.platform ≠ [] →
        e.start ≤ e'.start := by
  simp only [place, bind_eq_bind, bind_eq_some_iff] at h
  obtain ⟨⟨idx, cs, start⟩, hbest, winner, -, worker, -, tx, -, pj, hpj, heq⟩ := h
  obtain ⟨e, hget, hcs, hne⟩ := Core.bestSlot_some hbest
  rcases c.inner.pending.take_cases idx with
    ⟨hnone, -⟩ | ⟨e', pending, hget', htake, hperm, -, hcost, hfinish⟩
  · rw [hget] at hnone
    cases hnone
  rw [hget] at hget'
  cases hget'
  rw [htake] at hpj heq
  cases hpj
  cases heq
  refine ⟨e, rfl, hperm, hfinish, hcost, hcs ▸ hne, ?_⟩
  intro e' he' hne'
  obtain ⟨i, hi, hei⟩ := mem_iff_getElem.1 he'
  have hslot : (⟨i, e'.start, e'.job⟩ : Slot PendingJob) ∈ c.inner.pending.slots :=
    mem_map.2 ⟨(e', i), mem_zipIdx_iff_getElem?.2 (by simp [hi, hei]), rfl⟩
  have hle := (Core.scan_least hbest).2 _ hslot hne'
  -- the tag the scan ended with is that of the entry taken
  have hstart : start = e.start := by
    rcases Core.scan_some hbest with hnone | ⟨slot, hmem, hidx, hs, -⟩
    · cases hnone
    obtain ⟨e₁, he₁, hs₁, -⟩ := FairQueue.mem_slots hmem
    rw [hidx, hget] at he₁
    cases he₁
    rw [← hs, hs₁]
  exact hstart ▸ hle

/-! ## A place in the queue -/

/-- A job of a tenant is pushed once for each in a list. -/
def FairQueue.pushAll (q : FairQueue PendingJob) (jobs : List PendingJob) : FairQueue PendingJob :=
  jobs.foldl (fun q pj => q.push pj.tenant pj) q

theorem Inner.requeueTaken_pending (inner : Inner) (jobs : List (JobId × PendingJob)) :
    (inner.requeueTaken jobs).1.pending = inner.pending.pushAll
      ((jobs.filter fun q => decide (q.2.attempts + 1 < maxAttempts)).map
        fun q => q.2.retried) := by
  induction jobs generalizing inner with
  | nil => rfl
  | cons q jobs ih =>
    simp only [requeueTaken]
    split
    · rename_i hmax
      rw [filter_cons_of_neg (by simpa using hmax)]
      exact ih inner
    rename_i hmax
    rw [filter_cons_of_pos (by simpa using hmax)]
    exact ih _

/-- The job is queued with tag `x`, and of its tenant only jobs in `old` have a tag that is
not later. -/
structure InLine (old : PendingJob → Prop) (pj : PendingJob) (x : ℕ) (q : FairQueue PendingJob) :
    Prop where
  entry : ⟨x, pj⟩ ∈ q.entries
  room : x < 2 ^ 64 - 1
  finish : x < q.lastFinish pj.tenant
  ahead : ∀ e ∈ q.entries, e.job.tenant = pj.tenant → e.start ≤ x → old e.job

namespace InLine

variable {x : ℕ} {q : FairQueue PendingJob}

theorem push (h : InLine old pj x q) (pj' : PendingJob) :
    InLine old pj x (q.push pj'.tenant pj') where
  entry := mem_append_left _ h.entry
  room := h.room
  finish := by
    rw [FairQueue.lastFinish_push]
    split
    · rename_i heq
      have hnext : x < q.nextStart pj'.tenant := by
        rw [← heq]
        exact h.finish.trans_le (le_max_right _ _)
      exact lt_min (hnext.trans_le (Nat.le_add_right _ _)) h.room
    · exact h.finish
  ahead e he htenant hle := by
    rcases mem_append.1 he with he | he
    · exact h.ahead e he htenant hle
    cases mem_singleton.1 he
    have hlt : x < q.nextStart pj'.tenant := by
      rw [show pj'.tenant = pj.tenant from htenant]
      exact h.finish.trans_le (le_max_right _ _)
    exact absurd hle (not_le.2 hlt)

theorem pushAll (h : InLine old pj x q) (jobs : List PendingJob) :
    InLine old pj x (q.pushAll jobs) := by
  induction jobs generalizing q with
  | nil => exact h
  | cons pj' jobs ih => exact ih (h.push pj')

theorem subset {q' : FairQueue PendingJob} (h : InLine old pj x q) (hentry : ⟨x, pj⟩ ∈ q'.entries)
    (hsub : ∀ e ∈ q'.entries, e ∈ q.entries) (hfinish : q'.lastFinish = q.lastFinish) :
    InLine old pj x q' :=
  ⟨hentry, h.room, hfinish ▸ h.finish, fun e he => h.ahead e (hsub e he)⟩

end InLine

namespace FairQueue

variable {q : FairQueue PendingJob}

theorem pushAll_append (before after : List PendingJob) (pj : PendingJob) :
    q.pushAll (before ++ pj :: after) = ((q.pushAll before).push pj.tenant pj).pushAll after := by
  rw [pushAll, foldl_append, foldl_cons]
  rfl

theorem pushAll_costOf (jobs : List PendingJob) : (q.pushAll jobs).costOf = q.costOf := by
  induction jobs generalizing q with
  | nil => rfl
  | cons pj jobs ih => exact ih

theorem mem_pushAll {e : Entry PendingJob} {jobs : List PendingJob}
    (he : e ∈ (q.pushAll jobs).entries) : e ∈ q.entries ∨ e.job ∈ jobs := by
  induction jobs generalizing q with
  | nil => exact .inl he
  | cons pj jobs ih =>
    rcases ih he with he | he
    · rcases mem_append.1 he with he | he
      · exact .inl he
      · cases mem_singleton.1 he
        exact .inr mem_cons_self
    · exact .inr (mem_cons_of_mem _ he)

theorem nextStart_pushAll (jobs : List PendingJob) (t : TenantId) :
    (q.pushAll jobs).nextStart t ≤ q.nextStart t + jobs.length * cost := by
  induction jobs generalizing q with
  | nil => exact Nat.le_add_right _ _
  | cons pj jobs ih =>
    have hpush : (q.push pj.tenant pj).nextStart t ≤ q.nextStart t + cost := by
      rw [nextStart, push_virtualTime, lastFinish_push]
      refine max_le ((le_max_left _ _).trans (Nat.le_add_right _ _)) ?_
      split
      · rename_i heq
        rw [← heq]
        refine (min_le_left _ _).trans (Nat.add_le_add_left ?_ _)
        exact Nat.div_le_self _ _
      · exact (le_max_right _ _).trans (Nat.le_add_right _ _)
    calc ((q.push pj.tenant pj).pushAll jobs).nextStart t
        ≤ (q.push pj.tenant pj).nextStart t + jobs.length * cost := ih
      _ ≤ q.nextStart t + cost + jobs.length * cost := Nat.add_le_add_right hpush _
      _ = q.nextStart t + (jobs.length + 1) * cost := by ring

theorem exists_inLine {jobs : List PendingJob} (hmem : pj ∈ jobs) (hcost : 0 < q.costOf pj.tenant)
    (hroom : q.nextStart pj.tenant + jobs.length * cost < 2 ^ 64 - 1)
    (hqueue : ∀ e ∈ q.entries, old e.job) (hjobs : ∀ pj' ∈ jobs, old pj') :
    ∃ x, InLine old pj x (q.pushAll jobs) := by
  obtain ⟨before, after, rfl⟩ := append_of_mem hmem
  have hstart := nextStart_pushAll (q := q) before pj.tenant
  have hlt : (q.pushAll before).nextStart pj.tenant < 2 ^ 64 - 1 := by
    refine lt_of_le_of_lt hstart (lt_of_le_of_lt ?_ hroom)
    rw [length_append]
    exact Nat.add_le_add_left (Nat.mul_le_mul_right _ (Nat.le_add_right _ _)) _
  refine ⟨(q.pushAll before).nextStart pj.tenant, ?_⟩
  rw [pushAll_append]
  refine InLine.pushAll ?_ after
  refine ⟨mem_append_right _ mem_cons_self, hlt, ?_, ?_⟩
  · rw [lastFinish_push, if_pos rfl, pushAll_costOf]
    exact lt_min (Nat.lt_add_of_pos_right hcost) hlt
  intro e he _ _
  rcases mem_append.1 he with he | he
  · rcases mem_pushAll he with he | he
    · exact hqueue e he
    · exact hjobs _ (mem_append_left _ he)
  · cases mem_singleton.1 he
    exact hjobs _ hmem

end FairQueue

/-! ## Until the job leaves the queue -/

/-- The mark takes a job out of the queue: it is placed, or its caller withdraws it. -/
def Mark.unqueues (j : JobId) : Mark → Bool
  | .placed job _ _ => decide (job = j)
  | .timedOut job => decide (job = j)
  | _ => false

/-- How often a job was taken out of the queue. -/
def Core.unqueued (c : Core) (j : JobId) : ℕ := c.history.countP (Mark.unqueues j)

/-- The jobs whose leases a segment takes away. -/
def Core.taken (c : Core) : Segment → List (JobId × PendingJob)
  | .disconnect worker => (c.inner.leases.takeWorker worker).2
  | .takeExpired read => (c.inner.leases.takeExpired read).2
  | _ => []

/-- The segment takes leases away. -/
def Segment.takesLeases : Segment → Prop
  | .disconnect _ | .takeExpired _ => True
  | _ => False

theorem Core.takesLeases_of_mem {seg : Segment} {q : JobId × PendingJob} (hq : q ∈ c.taken seg) :
    seg.takesLeases := by
  cases seg with
  | disconnect | takeExpired => trivial
  | _ => cases hq

namespace Ran

variable {sch : Scheduler} {c' : Core} {ch : Choice} {seg : Segment} {next : List Segment}

variable (h : Ran sch c ch now seg c' next)

include h

theorem unqueued_mono (j : JobId) :
    c.unqueued j ≤ c'.unqueued j := by
  obtain ⟨marks, heq, -⟩ := h.marks
  rw [Core.unqueued, Core.unqueued, heq, countP_append]
  exact Nat.le_add_left _ _

theorem pending_taken (hseg : seg.takesLeases) :
    c'.inner.pending = c.inner.pending.pushAll
      (((c.taken seg).filter fun q => decide (q.2.attempts + 1 < maxAttempts)).map
        fun q => q.2.retried) := by
  cases h with
  | @disconnect worker pending requeued giveUp hrequeue =>
    have hpending := (c.inner.drop worker).requeueTaken_pending
      (c.inner.leases.takeWorker worker).2
    rw [hrequeue] at hpending
    exact hpending
  | @takeExpired read pending requeued giveUp hrequeue =>
    have hpending := (c.inner.expire read).requeueTaken_pending
      (c.inner.leases.takeExpired read).2
    rw [hrequeue] at hpending
    exact hpending
  | _ => cases hseg

/-- **One segment** takes the job out of the queue, or leaves it in line. -/
theorem inLine {x : ℕ}
    (hline : InLine old pj x c.inner.pending) :
    InLine old pj x c'.inner.pending ∨ c.unqueued pj.jobId < c'.unqueued pj.jobId := by
  have hpending := h.pending_taken
  cases h with
  | @admitted pj' => exact .inl (hline.push pj')
  | @placed read p hsome =>
    by_cases hid : p.pj.jobId = pj.jobId
    · right
      show c.history.countP _ < (Mark.placed p.pj.jobId p.worker p.tx :: c.history).countP _
      rw [countP_cons_of_pos (by simp [Mark.unqueues, hid])]
      exact Nat.lt_succ_self _
    left
    obtain ⟨e, hjob, hperm, hfinish, -⟩ := Scheduler.place_least hsome
    refine hline.subset ?_ (fun e' he' => hperm.subset (mem_cons_of_mem _ he')) hfinish
    rcases mem_cons.1 (hperm.mem_iff.2 hline.entry) with heq | hmem
    · rw [← hjob, ← heq] at hid
      exact absurd rfl hid
    · exact hmem
  | @requeued number worker pj' => exact .inl (hline.push pj'.retried)
  | cancel job timeout =>
    by_cases hid : job = pj.jobId
    · right
      show c.history.countP _ <
        (.returned job (.error (.timeout timeout)) :: .timedOut job :: c.history :
          List Mark).countP _
      rw [countP_cons_of_neg (by simp [Mark.unqueues]),
        countP_cons_of_pos (by simp [Mark.unqueues, hid])]
      exact Nat.lt_succ_self _
    · refine .inl (hline.subset ?_ (fun e he => (mem_filter.1 he).1) rfl)
      exact mem_filter.2 ⟨hline.entry, by simpa using Ne.symm hid⟩
  | disconnect | takeExpired =>
    rw [hpending trivial]
    exact .inl (hline.pushAll _)
  | _ => exact .inl hline

theorem costOf :
    c'.inner.pending.costOf = c.inner.pending.costOf := by
  have hpending := h.pending_taken
  cases h with
  | placed hsome =>
    obtain ⟨e, -, -, -, hcost, -⟩ := Scheduler.place_least hsome
    exact hcost
  | disconnect | takeExpired =>
    rw [hpending trivial]
    exact FairQueue.pushAll_costOf _
  | _ => rfl

end Ran

namespace SchedulerRun

variable (r : SchedulerRun)

theorem costOf (k : ℕ) : (r.state k).core.inner.pending.costOf = fun _ => cost := by
  refine r.core_induction (M := fun c => c.inner.pending.costOf = fun _ => cost) ?_
    (fun _ _ h => h) ?_ k
  · funext t
    show cost / max 1 1 = cost
    simp
  · intro k ch now seg c' next h hran
    exact hran.costOf.trans h

/-- **Whole runs**: the job is in line until it leaves the queue. -/
theorem inLine {x n : ℕ} (hline : InLine old pj x (r.state n).core.inner.pending) {m : ℕ}
    (hm : n ≤ m) :
    InLine old pj x (r.state m).core.inner.pending ∨
      (r.state n).core.unqueued pj.jobId < (r.state m).core.unqueued pj.jobId := by
  refine (r.induction_from (n := n) (M := fun s =>
    (r.state n).core.unqueued pj.jobId ≤ s.core.unqueued pj.jobId ∧
      (InLine old pj x s.core.inner.pending ∨
        (r.state n).core.unqueued pj.jobId < s.core.unqueued pj.jobId)) ⟨le_rfl, .inl hline⟩
    ?_ hm).2
  rintro k e - - ⟨hle, hor⟩ s' hs
  cases hs with
  | idle => exact ⟨hle, hor⟩
  | started => exact ⟨hle, hor⟩
  | ran hmove htask hcode hran =>
    have hmono := hran.unqueued_mono pj.jobId
    refine ⟨hle.trans hmono, ?_⟩
    rcases hor with hline | hlt
    · exact (hran.inLine hline).imp_right hle.trans_lt
    · exact .inr (hlt.trans_le hmono)

end SchedulerRun

/-- The worker disconnects while it holds the job; then a second job of the tenant is
queued, and the worker connects again. -/
def Sample.retriedRun : SchedulerRun where
  events := hello ++ lease ++ [go 1 1, go 1 1, go 1 1, go 1 1] ++
    [start 3 3 (.disconnectWorker 1), go 3 3] ++ [start 4 2 (execute second), go 4 2, go 4 2] ++
    [start 5 4 (.connectWorker 2 worker), go 5 4]

open Sample

/-- The second job of the tenant is queued while the worker holds the first one; then the
worker disconnects and connects again. -/
def Sample.overtakenRun : SchedulerRun where
  events := hello ++ lease ++ [go 1 1, go 1 1, go 1 1, go 1 1] ++
    [start 2 2 (execute second), go 2 2, go 2 2, go 2 2, go 2 2] ++
    [start 3 3 (.disconnectWorker 1), go 3 3] ++
    [start 4 4 (.connectWorker 2 worker), go 4 4, go 4 4, go 4 4]

end Brokkr.Control
