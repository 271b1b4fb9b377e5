import Brokkr.Control.Capacity

/-!
# How often a job is sent

A job carries its count of failed attempts with it, from the queue into the lease, into
the hands of the dispatcher that is to send it, and back.

* `Core.placedTimes`, `Core.sentTimes` — how often the record shows a job placed and sent.
* `Metered` — the count a queued or leased job carries is the number of its placements.
* `takesBackOwn` — a dispatcher that takes a job back after a failed send finds its own
  placement in force.  In every run with that condition no job is sent more than
  `maxAttempts` times.
* `Sample.sentOftenRun` — without it the cleanup of the worker and the dispatcher both put
  the job back, and each copy has attempts of its own.
-/

namespace Brokkr.Control

open List

/-! ## Counting -/

namespace Mark

/-- The mark places the job. -/
def places (j : JobId) : Mark → Bool
  | .placed job _ _ => decide (job = j)
  | _ => false

/-- The mark sends the job. -/
def sends (j : JobId) : Mark → Bool
  | .sent _ job => decide (job = j)
  | _ => false

end Mark

/-- How often a job was placed. -/
def Core.placedTimes (c : Core) (j : JobId) : ℕ := c.history.countP (Mark.places j)

/-- How often a job was sent. -/
def Core.sentTimes (c : Core) (j : JobId) : ℕ := c.history.countP (Mark.sends j)

namespace Segment

/-- The segment sends the job. -/
def sends (j : JobId) : Segment → Bool
  | .send _ _ _ pj => decide (pj.jobId = j)
  | _ => false

/-- The number of the placement a dispatcher is busy with, and its copy of the job. -/
def copy? : Segment → Option (ℕ × PendingJob)
  | .send number _ _ pj => some (number, pj)
  | .sendFailed number _ pj => some (number, pj)
  | _ => none

theorem unsent?_eq (seg : Segment) :
    seg.unsent? = seg.copy?.map fun q => (q.1, q.2.jobId) := by
  cases seg <;> rfl

end Segment

theorem Core.placedTimes_afterPlace (c : Core) (p : Placed) (j : JobId) :
    (c.afterPlace p).placedTimes j = c.placedTimes j + (decide (p.pj.jobId = j)).toNat := by
  show (Mark.placed p.pj.jobId p.worker p.tx :: c.history).countP (Mark.places j) = _
  by_cases hj : p.pj.jobId = j <;> simp [Mark.places, hj, Core.placedTimes]

theorem Core.sentTimes_afterPlace (c : Core) (p : Placed) (j : JobId) :
    (c.afterPlace p).sentTimes j = c.sentTimes j := by
  show (Mark.placed p.pj.jobId p.worker p.tx :: c.history).countP (Mark.sends j) = _
  simp [Mark.sends, Core.sentTimes]

theorem Scheduler.place_queue {sch : Scheduler} {c : Core} {now : Instant} {policy : ℕ} {p : Placed}
    (h : sch.place c now policy = some p) : (p.pj :: p.inner.pending.entries.map Entry.job).Perm
      (c.inner.pending.entries.map Entry.job) := by
  obtain ⟨e, pending, _, _, hperm, hjob, -, -, -, hinner⟩ := place_spec h
  rw [hinner, ← hjob]
  exact hperm.map Entry.job

namespace Ran

variable {sch : Scheduler} {c c' : Core} {ch : Choice} {now : Instant} {seg : Segment}
  {next : List Segment}

variable (h : Ran sch c ch now seg c' next)

include h

theorem queue {pj : PendingJob}
    (hpj : pj ∈ c'.inner.pending.entries.map Entry.job) :
    pj ∈ c.inner.pending.entries.map Entry.job ∨ (∃ timeout, seg = .admission pj timeout) ∨
      (∃ j l, c.inner.leases.get? j = some l ∧ pj = l.payload.retried ∧
        l.payload.attempts + 1 < maxAttempts) ∨
      ∃ number worker pj₀, seg = .sendFailed number worker pj₀ ∧ pj = pj₀.retried ∧
        pj₀.attempts + 1 < maxAttempts := by
  have hpush : ∀ (t : TenantId) (pj₀ : PendingJob),
      pj ∈ (c.inner.pending.push t pj₀).entries.map Entry.job →
        pj ∈ c.inner.pending.entries.map Entry.job ∨ pj = pj₀ := by
    intro t pj₀ hmem
    rw [FairQueue.push_entries, map_append, mem_append] at hmem
    exact hmem.imp_right mem_singleton.1
  have htaken : ∀ (q : Lease PendingJob → Bool) (inner₀ inner : Inner) (n : ℕ)
      (giveUp : List JobId), inner₀.pending = c.inner.pending →
        inner₀.requeueTaken (c.inner.leases.takeWhere q).2 = (inner, n, giveUp) →
        pj ∈ inner.pending.entries.map Entry.job → pj ∈ c.inner.pending.entries.map Entry.job ∨
            ∃ j l, c.inner.leases.get? j = some l ∧ pj = l.payload.retried ∧
              l.payload.attempts + 1 < maxAttempts := by
    intro q inner₀ inner n giveUp hpending hrequeue hmem
    obtain ⟨pending, rfl, hjobs, -⟩ := Inner.requeueTaken_spec hrequeue
    have hall : pj ∈ pending.entries.map Entry.job := hmem
    rw [hjobs, hpending, mem_append] at hall
    refine hall.imp_right ?_
    intro hnew
    obtain ⟨⟨j, x⟩, hx, rfl⟩ := mem_map.1 hnew
    obtain ⟨hx, hlt⟩ := mem_filter.1 hx
    obtain ⟨l, hl, -, rfl⟩ := (c.inner.leases.mem_takeWhere q).1 hx
    exact ⟨j, l, hl, rfl, of_decide_eq_true hlt⟩
  cases h with
  | @admitted pj₀ timeout =>
    rcases hpush pj₀.tenant pj₀ hpj with hold | rfl
    · exact .inl hold
    · exact .inr (.inl ⟨timeout, rfl⟩)
  | @placed read p hsome =>
    exact .inl ((Scheduler.place_queue hsome).mem_iff.1 (mem_cons_of_mem _ hpj))
  | @requeued number worker pj₀ hmax =>
    rcases hpush pj₀.tenant pj₀.retried hpj with hold | rfl
    · exact .inl hold
    · exact .inr (.inr (.inr ⟨number, worker, pj₀, rfl, rfl, hmax⟩))
  | cancel =>
    obtain ⟨e, he, rfl⟩ := mem_map.1 hpj
    exact .inl (mem_map.2 ⟨e, (mem_filter.1 he).1, rfl⟩)
  | @disconnect worker pending requeued giveUp hrequeue =>
    rcases htaken (fun l => decide (l.workerId = worker)) (c.inner.drop worker) _ _ _ rfl hrequeue
      hpj with hold | hnew
    · exact .inl hold
    · exact .inr (.inr (.inl hnew))
  | @takeExpired read pending requeued giveUp hrequeue =>
    rcases htaken (fun l => decide (l.deadline ≤ read)) (c.inner.expire read) _ _ _ rfl hrequeue
      hpj with hold | hnew
    · exact .inl hold
    · exact .inr (.inr (.inl hnew))
  | _ => exact .inl hpj

variable (hcount : c'.placementCount = c.placementCount)

include hcount

theorem placedTimes (j : JobId) :
    c'.placedTimes j = c.placedTimes j := by
  cases h with
  | placed => exact absurd hcount (Nat.succ_ne_self _)
  | disconnect =>
    simp [Core.placedTimes, countP_append, countP_map, Function.comp_def, Mark.places]
  | takeExpired =>
    simp [Core.placedTimes, countP_append, countP_map, Function.comp_def, Mark.places]
  | _ => simp [Core.placedTimes, Core.mark, Core.admitJob, Mark.places]

theorem sentTimes (j : JobId) :
    c'.sentTimes j + next.countP (Segment.sends j) ≤ c.sentTimes j + (seg.sends j).toNat := by
  cases h with
  | placed => exact absurd hcount (Nat.succ_ne_self _)
  | @sent number worker tx pj =>
    by_cases hj : pj.jobId = j <;>
      simp [Core.sentTimes, Core.mark, Mark.sends, Segment.sends, hj]
  | disconnect =>
    simp [Core.sentTimes, countP_append, countP_map, Function.comp_def, Mark.sends, Segment.sends]
  | @takeExpired read inner requeued =>
    by_cases hpos : 0 < requeued <;>
      simp [Core.sentTimes, countP_append, countP_map, Function.comp_def, Mark.sends,
        Segment.sends, hpos]
  | _ => simp [Core.sentTimes, Core.admitJob, Core.mark, Mark.sends, Segment.sends]

theorem copy
    {x : Segment} (hx : x ∈ next) {q : ℕ × PendingJob} (hq : x.copy? = some q) :
    seg.copy? = some q := by
  rcases h.unsent_cases hcount with hnone | ⟨number, w, tx, pj, rfl, rfl⟩
  · have hunsent := hnone x hx
    rw [Segment.unsent?_eq, hq] at hunsent
    cases hunsent
  · cases mem_singleton.1 hx
    exact hq

end Ran

/-! ## The count a job carries -/

/-- A dispatcher takes a job back only while its own placement is in force. -/
def takesBackOwn (s : State) (e : Event) : Bool :=
  match s.running e with
  | some (.sendFailed number _ pj) => s.core.inForce number pj.jobId
  | _ => true

/-- The attempts of a job are counted where it is. -/
structure Metered (s : State) : Prop where
  queued : ∀ pj ∈ s.core.inner.pending.entries.map Entry.job,
    s.core.placedTimes pj.jobId = pj.attempts ∧ pj.attempts < maxAttempts
  leased : ∀ j l, s.core.inner.leases.get? j = some l →
    s.core.placedTimes j = l.payload.attempts + 1
  held : ∀ seg ∈ s.segments, ∀ number pj, seg.copy? = some (number, pj) →
    s.core.inForce number pj.jobId = true →
      ∀ l, s.core.inner.leases.get? pj.jobId = some l → l.payload = pj
  begins : ∀ pj timeout, .admission pj timeout ∈ s.segments → pj.attempts = 0
  fresh : ∀ j, s.core.isAdmitted j = false → s.core.placedTimes j = 0
  bound : ∀ j, s.core.placedTimes j ≤ maxAttempts
  sends : ∀ j, s.core.sentTimes j + s.segments.countP (Segment.sends j) ≤ s.core.placedTimes j

namespace Metered

variable {sch : Scheduler} {s s' : State} {e : Event}

theorem init (r : SchedulerRun) : Metered r.init where
  queued pj h := by cases h
  leased j l h := by cases h
  held seg h := by cases h
  begins pj timeout h := by cases h
  fresh j h := rfl
  bound j := Nat.zero_le _
  sends j := le_rfl

theorem started {task : ℕ} {call : Call} {s₁ : State} {code : List Segment} (h : Metered s)
    (hfree : s.tasks.get? task = none) (hbegun : Begun sch { s with clock := e.now } call s₁ code) :
    Metered (s.enter s₁ task call code) := by
  -- a call that begins has nothing to send, and its job has no attempts
  have hcode : (∀ x ∈ code, x.copy? = none) ∧ (∀ j, code.countP (Segment.sends j) = 0) ∧
      ∀ pj timeout, .admission pj timeout ∈ code → pj.attempts = 0 := by
    cases hbegun with
    | execute hnew hjob htenant hattempts =>
      refine ⟨by simp [Segment.copy?], by simp [Segment.sends], ?_⟩
      intro pj timeout hmem
      simp only [mem_cons, not_mem_nil, or_false, reduceCtorEq, false_or] at hmem
      cases hmem
      exact hattempts
    | _ => exact ⟨by simp [Segment.copy?], by simp [Segment.sends], by simp⟩
  obtain ⟨hcopy, hsends, hbegins⟩ := hcode
  refine ⟨h.queued, h.leased, ?_, ?_, h.fresh, h.bound, ?_⟩
  · intro seg hmem number pj hq
    rcases State.mem_enter hfree hmem with hmem | hmem
    · rw [hcopy seg hmem] at hq
      cases hq
    · exact h.held seg hmem number pj hq
  · intro pj timeout hmem
    rcases State.mem_enter hfree hmem with hmem | hmem
    · exact hbegins pj timeout hmem
    · exact h.begins pj timeout hmem
  · intro j
    rw [State.countP_enter hfree, hsends, Nat.zero_add]
    exact h.sends j

theorem place {read : Instant} {policy : ℕ} {p : Placed} {others : List Segment} (h : Metered s)
    (hc : Conserved s.core) (hn : Numbered s) (hplace : sch.place s.core read policy = some p)
    (hbefore : s.segments.Perm (.select read :: others)) (hcore : s'.core = s.core.afterPlace p)
    (hafter : s'.segments.Perm (.send s.core.placementCount p.worker p.tx p.pj :: others)) :
    Metered s' := by
  have hqueue := Scheduler.place_queue hplace
  obtain ⟨hattempts, hlt⟩ := h.queued p.pj (hqueue.mem_iff.1 mem_cons_self)
  have hothers : ∀ x ∈ others, x ∈ s.segments :=
    fun x hx => hbefore.mem_iff.2 (mem_cons_of_mem _ hx)
  have hself : (s.core.afterPlace p).placedTimes p.pj.jobId = p.pj.attempts + 1 := by
    rw [Core.placedTimes_afterPlace, hattempts]
    simp
  have hother : ∀ j, p.pj.jobId ≠ j →
      (s.core.afterPlace p).placedTimes j = s.core.placedTimes j := by
    intro j hj
    rw [Core.placedTimes_afterPlace]
    simp [hj]
  -- the job was queued once, so no other queued job has its id
  have hone : s.core.inner.queued p.pj.jobId = 1 := by
    refine (hc.of_queued ?_).1
    rw [Inner.queued, ← hqueue.countP_eq, countP_cons]
    simp
  have hapart : ∀ pj ∈ p.inner.pending.entries.map Entry.job, p.pj.jobId ≠ pj.jobId := by
    rw [Inner.queued, ← hqueue.countP_eq, countP_cons, if_pos (by simp)] at hone
    intro pj hpj heq
    exact countP_eq_zero.1 (Nat.succ.inj hone) pj hpj (decide_eq_true heq.symm)
  refine ⟨?_, ?_, ?_, ?_, ?_, ?_, ?_⟩
  · rw [hcore]
    intro pj hpj
    rw [hother _ (hapart pj hpj)]
    exact h.queued pj (hqueue.mem_iff.1 (mem_cons_of_mem _ hpj))
  · rw [hcore]
    intro j l hl
    rcases Core.of_get?_afterPlace hplace hl with ⟨rfl, -, hpay⟩ | ⟨hj, hl⟩
    · rw [hself, hpay]
    · rw [hother j (Ne.symm hj)]
      exact h.leased j l hl
  · rw [hcore]
    intro x hx number pj hq hforce l hl
    obtain ⟨-, hnumber⟩ := Bool.and_eq_true_iff.1 hforce
    rcases mem_cons.1 (hafter.mem_iff.1 hx) with rfl | hx
    · cases hq
      rcases Core.of_get?_afterPlace hplace hl with ⟨-, -, hpay⟩ | ⟨hj, -⟩
      · exact hpay
      · exact absurd rfl hj
    rcases Core.of_get?_afterPlace hplace hl with ⟨heq, -⟩ | ⟨hj, hl⟩
    · -- a dispatcher of an earlier placement: its number is not the latest
      have hunsent : x.unsent? = some (number, pj.jobId) := by
        rw [Segment.unsent?_eq, hq]
        rfl
      have hbelow := hn.known x (hothers x hx) _ hunsent
      have hget : (s.core.afterPlace p).placements.get? pj.jobId =
          some ⟨s.core.placementCount, p.tx⟩ := by
        rw [Core.afterPlace, OrdMap.get?_insert, if_pos heq]
      rw [hget] at hnumber
      exact absurd (Option.some.inj (of_decide_eq_true hnumber)).symm (ne_of_lt hbelow)
    · refine h.held x (hothers x hx) number pj hq ?_ l hl
      rw [Core.inForce, Core.contains_afterPlace_of_ne hplace hj,
        Core.placements_afterPlace_of_ne hj] at hforce
      exact hforce
  · intro pj timeout hmem
    rcases mem_cons.1 (hafter.mem_iff.1 hmem) with hmem | hmem
    · cases hmem
    · exact h.begins pj timeout (hothers _ hmem)
  · rw [hcore]
    intro j hadm
    have hadm₀ : s.core.isAdmitted j = false := hadm
    have hzero := h.fresh j hadm₀
    by_cases hj : p.pj.jobId = j
    · -- a queued job was admitted
      subst hj
      have halive := (hc.of_queued (by rw [hone]; exact Nat.one_pos)).2.2
      rw [(Conserved.isAlive_iff.1 halive).1] at hadm₀
      cases hadm₀
    · rw [hother j hj]
      exact hzero
  · rw [hcore]
    intro j
    by_cases hj : p.pj.jobId = j
    · rw [← hj, hself]
      exact hlt
    · rw [hother j hj]
      exact h.bound j
  · rw [hcore]
    intro j
    have hsends := h.sends j
    rw [hbefore.countP_eq, countP_cons] at hsends
    rw [hafter.countP_eq, countP_cons, Core.sentTimes_afterPlace, Core.placedTimes_afterPlace]
    by_cases hj : p.pj.jobId = j <;> simp [Segment.sends, hj] at hsends ⊢ <;> omega

theorem other {task : ℕ} {t : Task} {ch : Choice} {seg : Segment} {rest : List Segment}
    {core : Core} {next : List Segment} (h : Metered s) (hc : Conserved s.core) (ht : Tracked s)
    (hcond : takesBackOwn s e = true) (hmove : e.move = .run task ch)
    (htask : s.tasks.get? task = some t) (hcode : t.code = seg :: rest)
    (hran : Ran sch s.core ch e.now seg core next)
    (hplacements : core.placements = s.core.placements)
    (hcount : core.placementCount = s.core.placementCount)
    (hleases : ∀ j l', core.inner.leases.get? j = some l' →
      ∃ l, s.core.inner.leases.get? j = some l ∧ l.workerId = l'.workerId ∧
        l.payload = l'.payload) :
    Metered (s.advance e.now core task t.call (next ++ rest)) := by
  have hseg := State.mem_code htask hcode
  have htimes := hran.placedTimes hcount
  refine ⟨?_, ?_, ?_, ?_, ?_, ?_, ?_⟩
  · intro pj hpj
    show core.placedTimes pj.jobId = _ ∧ _
    rw [htimes]
    rcases hran.queue hpj with hold | ⟨timeout, rfl⟩ | ⟨j, l, hl, rfl, hlt⟩ |
      ⟨number, worker, pj₀, rfl, rfl, hlt⟩
    · exact h.queued pj hold
    · rw [h.begins pj timeout hseg, h.fresh _ (ht.not_admitted hseg)]
      exact ⟨rfl, by decide⟩
    · refine ⟨?_, hlt⟩
      rw [show l.payload.retried.jobId = j from hc.keyed j l hl]
      exact h.leased j l hl
    rw [takesBackOwn, Stepped.running_eq hmove htask hcode] at hcond
    obtain ⟨l, hl⟩ := LeaseTable.contains_iff.1 (Bool.and_eq_true_iff.1 hcond).1
    refine ⟨?_, hlt⟩
    have hpay := h.held _ hseg number pj₀ rfl hcond l hl
    rw [show pj₀.retried.jobId = pj₀.jobId from rfl, h.leased _ l hl, hpay]
    rfl
  · intro j l hl
    show core.placedTimes j = _
    obtain ⟨l₀, hl₀, -, hpay⟩ := hleases j l hl
    rw [htimes, ← hpay]
    exact h.leased j l₀ hl₀
  · intro x hx number pj hq hforce l hl
    obtain ⟨l₀, hl₀, -, hpay⟩ := hleases _ l hl
    have hforce₀ : s.core.inForce number pj.jobId = true := by
      obtain ⟨-, hnumber⟩ := Bool.and_eq_true_iff.1 hforce
      rw [show (s.advance e.now core task t.call (next ++ rest)).core.placements =
        s.core.placements from hplacements] at hnumber
      exact Bool.and_eq_true_iff.2 ⟨LeaseTable.contains_iff.2 ⟨l₀, hl₀⟩, hnumber⟩
    rw [← hpay]
    rcases State.mem_advance htask hcode hx with hx | hx
    · exact h.held seg hseg number pj (hran.copy hcount hx hq) hforce₀ l₀ hl₀
    · exact h.held x hx number pj hq hforce₀ l₀ hl₀
  · intro pj timeout hmem
    rcases State.mem_advance htask hcode hmem with hmem | hmem
    · rcases hran.admission with ⟨pj₀, timeout₀, -, -, rfl⟩ | ⟨-, hnext⟩
      · simp at hmem
      · have hno := (hnext _ hmem).1 pj.jobId
        simp [Segment.admits] at hno
    · exact h.begins pj timeout hmem
  · intro j hadm
    show core.placedTimes j = 0
    rw [htimes]
    refine h.fresh j ?_
    rcases hran.admission with ⟨pj, timeout, -, rfl, -⟩ | ⟨hsame, -⟩
    · have hor : (decide (pj.jobId = j) || s.core.isAdmitted j) = false := hadm
      exact (Bool.or_eq_false_iff.1 hor).2
    · rw [← hsame]
      exact hadm
  · intro j
    show core.placedTimes j ≤ _
    rw [htimes]
    exact h.bound j
  · intro j
    show core.sentTimes j + _ ≤ core.placedTimes j
    have hsends := h.sends j
    have hle := hran.sentTimes hcount j
    have hsum := State.countP_advance htask hcode e.now core next (Segment.sends j)
    rw [htimes]
    omega

/-- **One event** keeps the counts. -/
theorem step (h : Metered s) (hc : Conserved s.core) (ht : Tracked s) (hn : Numbered s)
    (hcond : takesBackOwn s e = true) (hs : Stepped sch s e s') : Metered s' := by
  cases hs with
  | idle => exact ⟨h.1, h.2, h.3, h.4, h.5, h.6, h.7⟩
  | started hfree hbegun => exact h.started hfree hbegun
  | @ran task t ch seg rest core next hmove htask hcode hran =>
    rcases hran.leases with ⟨read, p, rfl, hplace, rfl, rfl⟩ | ⟨hplacements, hcount, hleases⟩
    · obtain ⟨others, hbefore, hafter⟩ := State.segments_advance htask hcode e.now
        (s.core.afterPlace p) [.send s.core.placementCount p.worker p.tx p.pj]
      exact h.place hc hn hplace hbefore rfl hafter
    · exact h.other hc ht hcond hmove htask hcode hran hplacements hcount hleases

end Metered

namespace SchedulerRun

variable (r : SchedulerRun)

theorem Meets.unsentLeased {r : SchedulerRun} (h : r.Meets takesBackOwn) :
    r.Meets Control.unsentStillLeased := by
  intro k e he
  have hown := h k e he
  rw [takesBackOwn] at hown
  rw [Control.unsentStillLeased]
  split
  · rename_i number worker pj hrun
    rw [hrun] at hown
    exact (Bool.and_eq_true_iff.1 hown).1
  · rfl

theorem metered (hcond : r.Meets takesBackOwn) (k : ℕ) : Metered (r.state k) := by
  refine r.induction (.init r) ?_ k
  intro k e he h s' hs
  exact h.step (r.conserved hcond.unsentLeased k) (r.tracked k) (r.numbered k) (hcond k e he) hs

end SchedulerRun

/-- **Bounded dispatch.**  In every interleaving in which a dispatcher whose send failed
still finds its own placement in force, no job is sent more than `maxAttempts` times. -/
theorem sends_bounded (r : SchedulerRun) (hcond : r.Meets takesBackOwn) (k : ℕ) (j : JobId) :
    (r.state k).core.sentTimes j ≤ maxAttempts := by
  have h := r.metered hcond k
  calc (r.state k).core.sentTimes j
      ≤ (r.state k).core.sentTimes j + (r.state k).segments.countP (Segment.sends j) :=
        Nat.le_add_right _ _
    _ ≤ (r.state k).core.placedTimes j := h.sends j
    _ ≤ maxAttempts := h.bound j

/-- The reaper takes the expired lease, and the job is placed and sent once more. -/
def Sample.retry (secs task : ℕ) : List Event :=
  start secs task .reapExpiredLeases :: List.replicate 6 (go secs task)

/-- The job is sent to the worker, which falls silent, five times; then it is given up. -/
def Sample.silentRun : SchedulerRun where
  events := hello ++ lease ++ [go 1 1, go 1 1, go 1 1] ++ retry 100 2 ++ retry 200 3 ++
    retry 300 4 ++ retry 400 5 ++ retry 500 6

open Sample

theorem sends_bounded_sample : (silentRun.state 47).core.sentTimes job = 5 ∧
      (silentRun.state 47).core.sentTimes job ≤ maxAttempts :=
  ⟨by decide +kernel, sends_bounded _ (silentRun.meets_of_lt (by decide +kernel)) 47 job⟩

/-- The job is queued twice, as the cleanup and the dispatcher both put it back; then the
worker connects again and falls silent. -/
def Sample.sentOftenRun : SchedulerRun where
  events := twiceRun.events ++ start 3 3 (.connectWorker 2 worker) :: List.replicate 6 (go 3 3) ++
    retry 100 4 ++ retry 200 5 ++ retry 300 6 ++ retry 400 7 ++ retry 500 8

/-- **A job is sent six times.** -/
theorem sent_too_often :
    (sentOftenRun.state 55).core.sentTimes job = 6 ∧ maxAttempts = 5 := by
  decide +kernel

end Brokkr.Control
