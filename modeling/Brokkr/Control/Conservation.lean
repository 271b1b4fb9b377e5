import Brokkr.Control.Runs

/-!
# Jobs are neither lost nor duplicated

From its admission on a job is in one place, in the pending queue or under one
lease, until it ends: a report for it is accepted, it is given up, or the call that
waits for it times out.

* `Inner.occurrences` — how often a job occurs in the queue and the lease table.
* `Conserved` — every job occurs once while it lives, and never otherwise.
* `job_occurs_once` — this holds in every run in which a dispatcher whose send
  failed still finds the job under a lease.
* `job_queued_twice` — a run in which it does not, and the job is queued twice: the
  worker disconnects between the lease and the failing send, so its cleanup and the
  dispatcher both put the job back.
-/

namespace Brokkr.Control

open List

variable {j j₀ : JobId} {l : Lease PendingJob} {now : Instant} {policy : ℕ} {p : Placed}

/-- How often a job is queued. -/
def Inner.queued (inner : Inner) (j : JobId) : ℕ :=
  (inner.pending.entries.map Entry.job).countP fun pj => decide (pj.jobId = j)

/-- How often a job occurs in the pending queue and the lease table together. -/
def Inner.occurrences (inner : Inner) (j : JobId) : ℕ :=
  inner.queued j + (inner.leases.contains j).toNat

theorem LeaseTable.contains_eq {P : Type} (t : LeaseTable P) (j : JobId) :
    t.contains j = (t.get? j).isSome := rfl

/-- A job is alive: admitted and not ended. -/
def Core.isAlive (c : Core) (j : JobId) : Bool := c.isAdmitted j && !c.isClosed j

/-- Every job is in one place while it lives. -/
structure Conserved (c : Core) : Prop where
  occurs : ∀ j, c.inner.occurrences j = (c.isAlive j).toNat
  keyed : ∀ j l, c.inner.leases.get? j = some l → l.payload.jobId = j
  admitted : ∀ j, c.isClosed j = true → c.isAdmitted j = true

namespace Conserved

variable {sch : Scheduler} {c c' : Core}

theorem of_leased (h : Conserved c) (hl : c.inner.leases.get? j = some l) :
    c.inner.queued j = 0 ∧ c.isAlive j = true := by
  have hocc := h.occurs j
  rw [Inner.occurrences, LeaseTable.contains_eq, hl, Option.isSome_some, Bool.toNat_true] at hocc
  cases halive : c.isAlive j with
  | false =>
    rw [halive, Bool.toNat_false] at hocc
    omega
  | true =>
    rw [halive, Bool.toNat_true] at hocc
    exact ⟨by omega, rfl⟩

theorem of_queued (h : Conserved c) (hq : 0 < c.inner.queued j) :
    c.inner.queued j = 1 ∧ c.inner.leases.get? j = none ∧ c.isAlive j = true := by
  have hocc := h.occurs j
  have hle := Bool.toNat_le (c.isAlive j)
  rw [Inner.occurrences] at hocc
  have hzero : (c.inner.leases.contains j).toNat = 0 := by omega
  have halive : (c.isAlive j).toNat = 1 := by omega
  refine ⟨by omega, ?_, ?_⟩
  · cases hl : c.inner.leases.get? j with
    | none => rfl
    | some =>
      rw [LeaseTable.contains_eq, hl] at hzero
      cases hzero
  cases hb : c.isAlive j with
  | false =>
    rw [hb] at halive
    cases halive
  | true => rfl

theorem isAlive_iff :
    c.isAlive j = true ↔ c.isAdmitted j = true ∧ c.isClosed j = false := by
  simp [Core.isAlive]

theorem of_ended (h : Conserved c) (ended : JobId → Bool)
    (ha : ∀ j, c'.isAdmitted j = c.isAdmitted j)
    (hc : ∀ j, c'.isClosed j = (ended j || c.isClosed j))
    (hadm : ∀ j, ended j = true → c.isAdmitted j = true)
    (hocc : ∀ j, c'.inner.occurrences j = if ended j then 0 else c.inner.occurrences j)
    (hkeyed : ∀ j l, c'.inner.leases.get? j = some l → l.payload.jobId = j) : Conserved c' where
  occurs j := by
    rw [hocc, h.occurs, Core.isAlive, Core.isAlive, ha, hc]
    cases ended j <;> simp
  keyed := hkeyed
  admitted j hclosed := by
    rw [hc, Bool.or_eq_true] at hclosed
    rw [ha]
    exact hclosed.elim (hadm j) (h.admitted j)

theorem of_same (h : Conserved c) (ha : ∀ j, c'.isAdmitted j = c.isAdmitted j)
    (hc : ∀ j, c'.isClosed j = c.isClosed j)
    (hocc : ∀ j, c'.inner.occurrences j = c.inner.occurrences j)
    (hkeyed : ∀ j l, c'.inner.leases.get? j = some l → l.payload.jobId = j) : Conserved c' :=
  h.of_ended (fun _ => false) ha hc nofun hocc hkeyed

theorem congr (h : Conserved c)
    (hp : c'.inner.pending.entries = c.inner.pending.entries)
    (hl : ∀ j, (c'.inner.leases.get? j).map Lease.payload =
      (c.inner.leases.get? j).map Lease.payload)
    (ha : ∀ j, c'.isAdmitted j = c.isAdmitted j) (hc : ∀ j, c'.isClosed j = c.isClosed j) :
    Conserved c' := by
  refine h.of_same ha hc (fun j => ?_) (fun j l hget => ?_)
  · have hsome := congrArg Option.isSome (hl j)
    rw [Option.isSome_map, Option.isSome_map] at hsome
    rw [Inner.occurrences, Inner.queued, hp, LeaseTable.contains_eq, hsome]
    rfl
  have hpay := hl j
  rw [hget, Option.map_some] at hpay
  obtain ⟨l', hl', heq⟩ := Option.map_eq_some_iff.1 hpay.symm
  rw [← heq]
  exact h.keyed j l' hl'

theorem admission (h : Conserved c) {pj : PendingJob} (hnew : c.isAdmitted pj.jobId = false) :
    Conserved (c.admitJob pj) where
  occurs j := by
    have hocc := h.occurs j
    have hqueued : (c.admitJob pj).inner.queued j =
        c.inner.queued j + (decide (pj.jobId = j)).toNat := by
      simp [Inner.queued, Core.admitJob, countP_append, countP_cons, Bool.toNat, Bool.cond_decide]
    have hsum : (c.admitJob pj).inner.occurrences j =
        c.inner.occurrences j + (decide (pj.jobId = j)).toNat := by
      rw [Inner.occurrences, hqueued, Inner.occurrences]
      show _ + _ + (c.inner.leases.contains j).toNat = _
      omega
    have hclosed : (c.admitJob pj).isClosed j = c.isClosed j := rfl
    rw [hsum, hocc, Core.isAlive, Core.isAlive, Core.isAdmitted_admit, hclosed]
    by_cases hj : pj.jobId = j
    · -- a job that was not admitted has not ended either
      subst hj
      have hopen : c.isClosed pj.jobId = false := by
        cases hcl : c.isClosed pj.jobId with
        | false => rfl
        | true => rw [h.admitted _ hcl] at hnew; cases hnew
      simp [hnew, hopen]
    · simp [hj]
  keyed := h.keyed
  admitted j hclosed := by
    rw [Core.isAdmitted_admit, h.admitted j hclosed, Bool.or_true]

theorem queued_of_place (hp : sch.place c now policy = some p) : ∃ pending : FairQueue PendingJob,
      p.inner = { c.inner with
        pending := pending
        leases := c.inner.leases.insert p.pj.jobId p.worker (now + p.pj.leaseDuration) p.pj } ∧
      ∀ j, c.inner.queued j =
        (pending.entries.map Entry.job).countP (fun pj => decide (pj.jobId = j)) +
          (decide (p.pj.jobId = j)).toNat := by
  obtain ⟨e, pending, candidates, ctx, hperm, hjob, -, -, -, hinner⟩ := Scheduler.place_spec hp
  have hjobs : (p.pj :: pending.entries.map Entry.job).Perm
      (c.inner.pending.entries.map Entry.job) := by
    rw [← hjob]
    exact hperm.map Entry.job
  refine ⟨pending, hinner, ?_⟩
  intro j
  rw [Inner.queued, ← hjobs.countP_eq, countP_cons]
  by_cases hj : p.pj.jobId = j <;> simp [hj]

theorem not_leased (h : Conserved c) (hp : sch.place c now policy = some p) :
    c.inner.leases.get? p.pj.jobId = none := by
  obtain ⟨pending, -, hqueued⟩ := queued_of_place hp
  have hwas : 0 < c.inner.queued p.pj.jobId := by
    rw [hqueued]
    simp
  exact (h.of_queued hwas).2.1

theorem place (h : Conserved c) (hp : sch.place c now policy = some p) :
    Conserved (c.afterPlace p) := by
  obtain ⟨pending, hinner, hqueued⟩ := queued_of_place hp
  have hfree := h.not_leased hp
  refine h.of_same (fun _ => rfl) (fun _ => rfl) (fun j => ?_) (fun j l hl => ?_)
  · rw [Inner.occurrences, Inner.occurrences, hqueued, Core.afterPlace, hinner, Inner.queued,
      LeaseTable.contains_eq, LeaseTable.contains_eq, LeaseTable.get?_insert]
    by_cases hj : j = p.pj.jobId
    · subst hj
      simp [hfree]
    · simp [hj, Ne.symm hj]
  rcases Core.of_get?_afterPlace hp hl with ⟨rfl, -, hpay⟩ | ⟨-, hl⟩
  · rw [hpay]
  · exact h.keyed j l hl

theorem complete (h : Conserved c) (hl : c.inner.leases.get? j₀ = some l)
    (hp : c'.inner.pending.entries = c.inner.pending.entries)
    (hleases : c'.inner.leases = (c.inner.leases.complete j₀).1)
    (ha : ∀ j, c'.isAdmitted j = c.isAdmitted j)
    (hc : ∀ j, c'.isClosed j = (decide (j₀ = j) || c.isClosed j)) : Conserved c' := by
  obtain ⟨hzero, halive⟩ := h.of_leased hl
  refine h.of_ended (fun j => decide (j₀ = j)) ha hc (fun j hj => ?_) (fun j => ?_)
    (fun j l' hl' => ?_)
  · exact of_decide_eq_true hj ▸ (isAlive_iff.1 halive).1
  · rw [Inner.occurrences, Inner.queued, hp, hleases, LeaseTable.contains_eq,
      LeaseTable.get?_complete]
    by_cases hj : j = j₀
    · subst hj
      rw [Inner.queued] at hzero
      simp [hzero]
    · rw [if_neg hj, decide_eq_false (Ne.symm hj)]
      rfl
  · rw [hleases] at hl'
    exact h.keyed j l' (LeaseTable.of_get?_complete hl').2

theorem requeue (h : Conserved c) (pj : PendingJob) (hl : c.inner.leases.get? j₀ = some l)
    (hid : pj.jobId = j₀) (worker : WorkerId) (tenant : TenantId) :
    Conserved { c with inner := { c.inner.unplace worker j₀ with
      pending := c.inner.pending.push tenant pj } } := by
  refine h.of_same (fun _ => rfl) (fun _ => rfl) (fun j => ?_)
    (fun j l' hl' => h.keyed j l' (LeaseTable.of_get?_complete hl').2)
  rw [Inner.occurrences, Inner.occurrences, Inner.queued, Inner.unplace,
    LeaseTable.contains_eq, LeaseTable.contains_eq, LeaseTable.get?_complete,
    FairQueue.push_entries, map_append, countP_append]
  by_cases hj : j = j₀
  · subst hj
    simp [hid, hl, Inner.queued]
  · have hne : ¬ pj.jobId = j := fun heq => hj (by rw [← heq, hid])
    simp [hj, hne, Inner.queued]

theorem requeued_of_not_mem {jobs : List (JobId × PendingJob)} (hk : ∀ q ∈ jobs, q.2.jobId = q.1)
    (f : PendingJob → Bool) (hj : ∀ pj, (j, pj) ∉ jobs) :
    ((jobs.filter fun q => f q.2).map fun q => q.2.retried).countP
      (fun pj => decide (pj.jobId = j)) = 0 := by
  refine countP_eq_zero.2 fun pj hpj => ?_
  obtain ⟨q, hq, rfl⟩ := mem_map.1 hpj
  have hmem := mem_of_mem_filter hq
  have hne : q.2.jobId ≠ j := by
    rw [hk q hmem]
    rintro rfl
    exact hj q.2 hmem
  rw [decide_eq_true_eq]
  exact hne

theorem requeued_of_mem {jobs : List (JobId × PendingJob)} (hn : (jobs.map Prod.fst).Nodup)
    (hk : ∀ q ∈ jobs, q.2.jobId = q.1) (f : PendingJob → Bool) {pj : PendingJob}
    (hmem : (j, pj) ∈ jobs) : ((jobs.filter fun q => f q.2).map fun q => q.2.retried).countP
      (fun pj => decide (pj.jobId = j)) = (f pj).toNat := by
  induction jobs with
  | nil => cases hmem
  | cons q jobs ih =>
    obtain ⟨hq, hjobs⟩ := nodup_cons.1 hn
    have hk' : ∀ q' ∈ jobs, q'.2.jobId = q'.1 := fun q' hq' => hk q' (mem_cons_of_mem _ hq')
    have hid : q.2.jobId = q.1 := hk q mem_cons_self
    rcases mem_cons.1 hmem with rfl | hmem
    · have hrest : ∀ pj', (j, pj') ∉ jobs := fun pj' hpj' =>
        hq (mem_map.2 ⟨(j, pj'), hpj', rfl⟩)
      have hzero := requeued_of_not_mem hk' f hrest
      have hj : pj.jobId = j := hid
      cases hf : f pj with
      | true =>
        rw [filter_cons, if_pos hf, map_cons, countP_cons, hzero]
        simp [PendingJob.retried, hj]
      | false =>
        rw [filter_cons, if_neg (by simp [hf]), hzero]
        rfl
    · have hne : ¬ q.2.jobId = j := by
        rw [hid]
        rintro rfl
        exact hq (mem_map.2 ⟨_, hmem, rfl⟩)
      rw [← ih hjobs hk' hmem]
      by_cases hf : f q.2 = true
      · rw [filter_cons, if_pos hf, map_cons, countP_cons]
        simp [PendingJob.retried, hne]
      · rw [filter_cons, if_neg hf]

theorem take (h : Conserved c) (p : Lease PendingJob → Bool) (inner₀ : Inner) {inner : Inner}
    {n : ℕ} {giveUp : List JobId} (hl : inner₀.leases = (c.inner.leases.takeWhere p).1)
    (hp : inner₀.pending = c.inner.pending)
    (htaken : inner₀.requeueTaken (c.inner.leases.takeWhere p).2 = (inner, n, giveUp))
    (hinner : c'.inner = inner) (ha : ∀ j, c'.isAdmitted j = c.isAdmitted j)
    (hc : ∀ j, c'.isClosed j = (decide (j ∈ giveUp) || c.isClosed j)) : Conserved c' := by
  obtain ⟨pending, rfl, hjobs, hgive, -⟩ := Inner.requeueTaken_spec htaken
  have hkeyed : ∀ q ∈ (c.inner.leases.takeWhere p).2, q.2.jobId = q.1 := by
    rintro ⟨j, x⟩ hq
    obtain ⟨l, hget, -, rfl⟩ := (c.inner.leases.mem_takeWhere p).1 hq
    exact h.keyed j l hget
  have hnodup := c.inner.leases.nodup_takeWhere p
  have hget : ∀ j, c'.inner.leases.get? j = (c.inner.leases.get? j).filter fun l => !p l := by
    intro j
    rw [hinner]
    rw [hl]
    exact c.inner.leases.get?_takeWhere p j
  have hqueued : ∀ j, c'.inner.queued j = c.inner.queued j +
      (((c.inner.leases.takeWhere p).2.filter fun q =>
        decide (q.2.attempts + 1 < maxAttempts)).map fun q => q.2.retried).countP
          (fun pj => decide (pj.jobId = j)) := by
    intro j
    rw [hinner, Inner.queued, Inner.queued]
    rw [hjobs, hp, countP_append]
  -- what is given up was taken away, without attempts left
  have hgone : ∀ j, j ∈ giveUp ↔ ∃ l, c.inner.leases.get? j = some l ∧ p l = true ∧
      maxAttempts ≤ l.payload.attempts + 1 := by
    intro j
    rw [hgive, mem_map]
    constructor
    · rintro ⟨⟨j', pj⟩, hq, rfl⟩
      obtain ⟨hq, hmax⟩ := mem_filter.1 hq
      obtain ⟨l, hleased, hpl, rfl⟩ := (c.inner.leases.mem_takeWhere p).1 hq
      exact ⟨l, hleased, hpl, of_decide_eq_true hmax⟩
    · rintro ⟨l, hleased, hpl, hmax⟩
      exact ⟨(j, l.payload), mem_filter.2 ⟨(c.inner.leases.mem_takeWhere p).2
        ⟨l, hleased, hpl, rfl⟩, decide_eq_true hmax⟩, rfl⟩
  refine h.of_ended (fun j => decide (j ∈ giveUp)) ha hc (fun j hj => ?_) (fun j => ?_)
    (fun j l hl' => ?_)
  · obtain ⟨l, hleased, -⟩ := (hgone j).1 (of_decide_eq_true hj)
    exact (isAlive_iff.1 (h.of_leased hleased).2).1
  · rw [Inner.occurrences, Inner.occurrences, hqueued, LeaseTable.contains_eq,
      LeaseTable.contains_eq, hget]
    by_cases hin : ∃ l, c.inner.leases.get? j = some l ∧ p l = true
    · -- taken away: queued again or given up
      obtain ⟨l, hleased, hpl⟩ := hin
      rw [requeued_of_mem hnodup hkeyed (fun pj => decide (pj.attempts + 1 < maxAttempts))
        ((c.inner.leases.mem_takeWhere p).2 ⟨l, hleased, hpl, rfl⟩), (h.of_leased hleased).1]
      by_cases hmax : l.payload.attempts + 1 < maxAttempts <;>
        simp [hgone, hleased, Option.filter, hpl, hmax, not_le.2, not_lt.1]
    -- left alone
    have hnot : ∀ pj, (j, pj) ∉ (c.inner.leases.takeWhere p).2 := by
      intro pj hmem
      obtain ⟨l, hleased, hpl, -⟩ := (c.inner.leases.mem_takeWhere p).1 hmem
      exact hin ⟨l, hleased, hpl⟩
    have hnotgive : j ∉ giveUp := fun hmem =>
      let ⟨l, hleased, hpl, _⟩ := (hgone j).1 hmem
      hin ⟨l, hleased, hpl⟩
    have hkept : ((c.inner.leases.get? j).filter fun l => !p l) = c.inner.leases.get? j := by
      cases hleased : c.inner.leases.get? j with
      | none => rfl
      | some l => exact Option.filter_some_pos (by simpa using fun hpl => hin ⟨l, hleased, hpl⟩)
    rw [requeued_of_not_mem hkeyed (fun pj => decide (pj.attempts + 1 < maxAttempts)) hnot,
      hkept, decide_eq_false hnotgive]
    rfl
  · rw [hget] at hl'
    exact h.keyed j l (Option.filter_eq_some_iff.1 hl').1

theorem withdraw (h : Conserved c) (hadm : c.isAdmitted j₀ = true)
    (hinner : c'.inner = c.inner.withdraw j₀) (ha : ∀ j, c'.isAdmitted j = c.isAdmitted j)
    (hc : ∀ j, c'.isClosed j = (decide (j₀ = j) || c.isClosed j)) : Conserved c' := by
  refine h.of_ended (fun j => decide (j₀ = j)) ha hc (fun j hj => ?_) (fun j => ?_)
    (fun j l hl => ?_)
  · exact of_decide_eq_true hj ▸ hadm
  · rw [hinner, Inner.occurrences, Inner.queued, Inner.withdraw, FairQueue.retain,
      LeaseTable.contains_eq, LeaseTable.get?_complete]
    by_cases hj : j = j₀
    · subst hj
      have hzero : (List.map Entry.job (c.inner.pending.entries.filter fun e =>
          decide (e.job.jobId ≠ j))).countP (fun pj => decide (pj.jobId = j)) = 0 := by
        refine countP_eq_zero.2 fun pj hpj => ?_
        obtain ⟨e, he, rfl⟩ := mem_map.1 hpj
        simpa using (mem_filter.1 he).2
      simp
    have hsame : (List.map Entry.job (c.inner.pending.entries.filter fun e =>
        decide (e.job.jobId ≠ j₀))).countP (fun pj => decide (pj.jobId = j)) =
        c.inner.queued j := by
      rw [Inner.queued, countP_map, countP_map, countP_filter]
      refine countP_congr fun e _ => ?_
      simp only [Function.comp_apply, Bool.and_eq_true, decide_eq_true_eq]
      exact ⟨fun he => he.1, fun he => ⟨he, fun h0 => hj (he.symm.trans h0)⟩⟩
    rw [hsame, if_neg hj, decide_eq_false (Ne.symm hj)]
    rfl
  · rw [hinner] at hl
    exact h.keyed j l (LeaseTable.of_get?_complete hl).2

theorem closes_giveUp (giveUp : List JobId) (h : List Mark) (j : JobId) :
    (giveUp.map Mark.gaveUp ++ h).any (Mark.closes j) =
      (decide (j ∈ giveUp) || h.any (Mark.closes j)) := by
  rw [Bool.eq_iff_iff]
  simp [Mark.closes]

/-- **One segment** keeps every job in one place, if a failed send finds its job leased. -/
theorem ran {ch : Choice} {seg : Segment} {next : List Segment} (h : Conserved c)
    (hran : Ran sch c ch now seg c' next)
    (hnew : ∀ pj timeout, seg = .admission pj timeout → c.isAdmitted pj.jobId = false)
    (hpast : ∀ j, seg.past? = some j → c.isAdmitted j = true)
    (hcond : ∀ number worker pj, seg = .sendFailed number worker pj →
      c.inner.leases.contains pj.jobId = true) : Conserved c' := by
  cases hran with
  | admitted => exact h.admission (hnew _ _ rfl)
  | placed hsome => exact h.place hsome
  | gaveUp =>
    obtain ⟨l, hl⟩ := Option.isSome_iff_exists.1 (hcond _ _ _ rfl)
    exact h.complete hl rfl rfl (fun _ => rfl) (fun _ => rfl)
  | @requeued number worker pj =>
    obtain ⟨l, hl⟩ := Option.isSome_iff_exists.1 (hcond _ _ _ rfl)
    exact h.requeue pj.retried hl rfl _ _
  | cancel => exact h.withdraw (hpast _ rfl) rfl (fun _ => rfl) (fun _ => rfl)
  | @disconnect worker _ _ _ htaken =>
    refine h.take (fun l => decide (l.workerId = worker)) (c.inner.drop worker) rfl rfl htaken
      rfl ?_ ?_
    · simp [Core.isAdmitted, any_append, Function.comp_def, Mark.admits, any_const_false]
    · exact fun j => closes_giveUp _ _ j
  | @takeExpired read _ _ _ htaken =>
    refine h.take (fun l => decide (l.deadline ≤ read)) (c.inner.expire read) rfl rfl htaken
      rfl ?_ ?_
    · simp [Core.isAdmitted, any_append, Function.comp_def, Mark.admits, any_const_false]
    intro j
    rw [Core.isClosed, append_assoc, closes_giveUp, any_append, any_map]
    simp only [Function.comp_def, Mark.closes, any_const_false, Bool.false_or]
    rfl
  | renew worker deadline =>
    refine h.congr rfl ?_ (fun _ => rfl) (fun _ => rfl)
    intro j
    rw [LeaseTable.get?_renewWorker, Option.map_map]
    congr 1
    funext l
    simp only [Function.comp_apply]
    split <;> rfl
  | accepted hsome => exact h.complete hsome rfl rfl (fun _ => rfl) (fun _ => rfl)
  | _ => exact h.congr rfl (fun _ => rfl) (fun _ => rfl) (fun _ => rfl)

end Conserved

/-- A dispatcher that could not send a job finds the job under a lease. -/
def unsentStillLeased (s : State) (e : Event) : Bool :=
  match s.running e with
  | some (.sendFailed _ _ pj) => s.core.inner.leases.contains pj.jobId
  | _ => true

/-- **One event** keeps every job in one place. -/
theorem Conserved.step {sch : Scheduler} {s s' : State} {e : Event} (h : Conserved s.core)
    (ht : Tracked s) (hcond : unsentStillLeased s e = true) (hs : Stepped sch s e s') :
    Conserved s'.core := by
  cases hs with
  | idle => exact h.congr rfl (fun _ => rfl) (fun _ => rfl) (fun _ => rfl)
  | started => exact h
  | @ran task t ch seg rest core next hmove htask hcode hran =>
    have hmem := State.mem_code htask hcode
    have hrunning := Stepped.running_eq hmove htask hcode
    refine h.ran hran ?_ ?_ ?_
    · rintro pj timeout rfl
      exact ht.not_admitted hmem
    · intro j hj
      exact ht.past seg hmem j hj
    · rintro number worker pj rfl
      rwa [unsentStillLeased, hrunning] at hcond

theorem SchedulerRun.conserved (r : SchedulerRun) (hcond : r.Meets unsentStillLeased) (k : ℕ) :
    Conserved (r.state k).core := by
  refine r.induction (M := fun s => Conserved s.core) ?_ ?_ k
  · refine ⟨fun _ => rfl, ?_, ?_⟩
    · intro j l hl
      cases hl
    · intro j hclosed
      cases hclosed
  · intro k e he h s' hs
    exact h.step (r.tracked k) (hcond k e he) hs

/-- **Job conservation.**  In every interleaving in which a failed send finds its job
leased, an admitted job occurs exactly once in the pending queue and the lease table
together until it ends, and in neither afterwards. -/
theorem job_occurs_once (r : SchedulerRun) (hcond : r.Meets unsentStillLeased) (k : ℕ) (j : JobId)
    (hadm : (r.state k).core.isAdmitted j = true) :
    ((r.state k).core.isClosed j = false → (r.state k).core.inner.occurrences j = 1) ∧
      ((r.state k).core.isClosed j = true → (r.state k).core.inner.occurrences j = 0) := by
  have hocc := (r.conserved hcond k).occurs j
  rw [Core.isAlive, hadm, Bool.true_and] at hocc
  constructor
  · intro hopen
    rw [hocc, hopen]
    rfl
  intro hclosed
  rw [hocc, hclosed]
  rfl

/-- The job is leased and sent, and the worker reports it. -/
def Sample.reportedRun : SchedulerRun where
  events := hello ++ lease ++
    [go 1 1, go 1 1, go 1 1, go 1 1, start 2 2 (.report 1 { jobId := "j" }), go 2 2]

open Sample

theorem job_occurs_once_sample :
    (reportedRun.state 9).core.inner.occurrences job = 1 ∧
      (reportedRun.state 15).core.inner.occurrences job = 0 := by
  have hcond : reportedRun.Meets unsentStillLeased :=
    reportedRun.meets_of_lt (by decide +kernel)
  exact ⟨(job_occurs_once _ hcond 9 job (by decide +kernel)).1 (by decide +kernel),
    (job_occurs_once _ hcond 15 job (by decide +kernel)).2 (by decide +kernel)⟩

/-- The job is leased; before it is sent, the stream ends and the cleanup queues the job
again; then the send fails. -/
def Sample.twiceRun : SchedulerRun where
  events := hello ++ lease ++
    [start 2 2 (.disconnectWorker 1), go 2 2, go 2 1 { sent := false }, go 2 1]

/-- **A job is queued twice**, although nothing has ended it. -/
theorem job_queued_twice : (twiceRun.state 13).core.isAdmitted job = true ∧
      (twiceRun.state 13).core.isClosed job = false ∧
      (twiceRun.state 13).core.inner.occurrences job = 2 := by
  decide +kernel

end Brokkr.Control
