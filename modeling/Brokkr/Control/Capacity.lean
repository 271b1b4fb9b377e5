import Brokkr.Control.Conservation
import Brokkr.Control.Placement

/-!
# One job per worker stream

A worker runs one job at a time.  The scheduler knows no more of it than the lease
table: a worker without a lease is free.

* `runningOn` — a job was sent on a stream and since then neither reported on it nor
  was its lease found expired.
* `Exclusive` — a job that runs on a stream holds the lease of that stream, as long as
  the stream is in use.
* `sent_apart` — in every run in which leases end only by the report of the worker they
  were placed on, by expiry or with the connection, nothing is sent on a stream while a
  job runs on it.
* `sent_to_busy` — a run without that condition: the caller of a job times out, which
  ends the lease, and the next job is sent to a worker that is still running.
-/

namespace Brokkr.Control

open Option

open List

/-! ## What the record says about a stream -/

namespace Mark

/-- The job is sent on the stream. -/
def isSent (stream : StreamId) (j : JobId) : Mark → Bool
  | .sent stream' job => decide (stream' = stream) && decide (job = j)
  | _ => false

/-- The job is reported on the stream, or its lease has expired. -/
def resolves (stream : StreamId) (j : JobId) : Mark → Bool
  | .accepted stream' job _ => decide (stream' = stream) && decide (job = j)
  | .expired job => decide (job = j)
  | _ => false

end Mark

/-- The job was sent on the stream and is not resolved since. -/
def runningOn (stream : StreamId) (j : JobId) : List Mark → Bool
  | [] => false
  | m :: h => m.isSent stream j || (!m.resolves stream j && runningOn stream j h)

/-- Nothing was sent on a stream while a job was running on it. -/
def Apart : List Mark → Prop
  | [] => True
  | m :: h => (∀ stream j, m = .sent stream j → ∀ i, runningOn stream i h = false) ∧ Apart h

section Record

variable {stream : StreamId} {j : JobId} {h : List Mark}

theorem runningOn_append {marks : List Mark} (hsent : ∀ m ∈ marks, m.isSent stream j = false) :
    runningOn stream j (marks ++ h) =
      (marks.all (fun m => !m.resolves stream j) && runningOn stream j h) := by
  induction marks with
  | nil => rfl
  | cons m marks ih =>
    rw [cons_append, runningOn, hsent m mem_cons_self, Bool.false_or,
      ih fun m' hm' => hsent m' (mem_cons_of_mem _ hm'), all_cons, Bool.and_assoc]

theorem runningOn_of_sent {mid post : List Mark} (hmid : ∀ m ∈ mid, m.resolves stream j = false) :
    runningOn stream j (mid ++ .sent stream j :: post) = true := by
  induction mid with
  | nil => simp [runningOn, Mark.isSent]
  | cons m mid ih =>
    rw [cons_append, runningOn, hmid m mem_cons_self,
      ih fun m' hm' => hmid m' (mem_cons_of_mem _ hm')]
    simp

theorem sent_mem_of_runningOn (hrun : runningOn stream j h = true) : .sent stream j ∈ h := by
  induction h with
  | nil => cases hrun
  | cons m h ih =>
    rw [runningOn, Bool.or_eq_true, Bool.and_eq_true] at hrun
    rcases hrun with hsent | ⟨-, hrun⟩
    · cases m with
      | sent =>
        simp only [Mark.isSent, Bool.and_eq_true, decide_eq_true_eq] at hsent
        rw [hsent.1, hsent.2]
        exact mem_cons_self
      | _ => cases hsent
    · exact mem_cons_of_mem _ (ih hrun)

theorem Apart.append {marks : List Mark} (hh : Apart h)
    (hsent : ∀ m ∈ marks, ∀ stream j, m ≠ .sent stream j) : Apart (marks ++ h) := by
  induction marks with
  | nil => exact hh
  | cons m marks ih =>
    refine ⟨?_, ih fun m' hm' => hsent m' (mem_cons_of_mem _ hm')⟩
    intro stream j heq
    exact absurd heq (hsent m mem_cons_self stream j)

theorem Apart.free {pre : List Mark} (hh : Apart (pre ++ .sent stream j :: h)) (i : JobId) :
    runningOn stream i h = false := by
  induction pre with
  | nil => exact hh.1 stream j rfl i
  | cons m pre ih => exact ih hh.2

end Record

/-! ## One job at a time -/

/-- The job is leased, and the lease was placed on the stream. -/
def Core.PlacedOn (c : Core) (stream : StreamId) (j : JobId) : Prop :=
  c.inner.leases.contains j = true ∧ (c.placements.get? j).map Placement.stream = some stream

/-- Jobs can still be sent on the stream: a worker is connected by it, or a lease was
placed on it. -/
def Core.InUse (c : Core) (stream : StreamId) : Prop :=
  (∃ w, c.inner.connected.sender w = some stream) ∨ ∃ i, c.PlacedOn stream i

/-- The placement of that number is the latest of the job, and its lease has not ended. -/
def Core.inForce (c : Core) (number : ℕ) (j : JobId) : Bool :=
  c.inner.leases.contains j && decide ((c.placements.get? j).map Placement.number = some number)

/-- The segment respects the leases of others: a caller that timed out withdraws a job that
is not leased, a report for a leased job comes in on the stream the lease was placed on,
and a dispatcher that sends a job, or takes it back, does so while its placement is in
force. -/
def Core.respects (c : Core) : Segment → Bool
  | .cancel job _ => !c.inner.leases.contains job
  | .report stream job _ =>
    !c.inner.leases.contains job ||
      decide ((c.placements.get? job).map Placement.stream = some stream)
  | .send number _ _ pj => c.inForce number pj.jobId
  | .sendFailed number _ pj => c.inForce number pj.jobId
  | _ => true

/-- The segment whose turn it is respects the leases of others. -/
def leasesRespected (s : State) (e : Event) : Bool := (s.running e).all s.core.respects

/-- Nothing is sent on a stream while a job runs on it. -/
structure Exclusive (s : State) : Prop where
  apart : Apart s.core.history
  held : ∀ stream j, runningOn stream j s.core.history = true → s.core.InUse stream →
    s.core.PlacedOn stream j
  unsent : ∀ seg ∈ s.segments, ∀ number j, seg.unsent? = some (number, j) →
    s.core.inForce number j = true → ∀ stream, s.core.PlacedOn stream j →
      runningOn stream j s.core.history = false

theorem LeaseTable.contains_iff {P : Type} {t : LeaseTable P} {j : JobId} :
    t.contains j = true ↔ ∃ l, t.get? j = some l := isSome_iff_exists

namespace Wired

variable {s : State} {stream : StreamId} {i j : JobId}

theorem placedOn_worker (h : Wired s) (hp : s.core.PlacedOn stream j) :
    ∃ l, s.core.inner.leases.get? j = some l ∧ s.workerOn stream = some l.workerId := by
  obtain ⟨l, hl⟩ := LeaseTable.contains_iff.1 hp.1
  obtain ⟨p, hget, hw⟩ := h.lease j l hl
  have hstream := hp.2
  rw [hget] at hstream
  cases hstream
  exact ⟨l, hl, hw⟩

theorem placedOn_unique (h : Wired s) (hsingle : s.core.SingleLease)
    (hi : s.core.PlacedOn stream i) (hj : s.core.PlacedOn stream j) : i = j := by
  obtain ⟨l, hl, hlw⟩ := h.placedOn_worker hi
  obtain ⟨m, hm, hmw⟩ := h.placedOn_worker hj
  rw [hlw] at hmw
  exact hsingle i j l m hl hm (some.inj hmw)

theorem not_running (h : Wired s) {w : WorkerId} (hseg : .connect w stream ∈ s.segments) :
    runningOn stream j s.core.history = false := by
  cases hrun : runningOn stream j s.core.history with
  | false => rfl
  | true =>
    obtain ⟨w', hm⟩ := h.sent stream j (sent_mem_of_runningOn hrun)
    have hzero := h.fresh stream (.inr ⟨j, w', hm⟩)
    have := countP_eq_zero.1 hzero _ hseg
    simp [Segment.connects] at this

end Wired

section AfterPlace

variable {sch : Scheduler} {c : Core} {now : Instant} {policy : ℕ} {p : Placed}
  {stream : StreamId} {j : JobId}

theorem Core.placedOn_afterPlace_self (hon : (c.afterPlace p).PlacedOn stream p.pj.jobId) :
    stream = p.tx := by
  have hstream : ((c.placements.insert p.pj.jobId ⟨c.placementCount, p.tx⟩).get?
      p.pj.jobId).map Placement.stream = some stream := hon.2
  rw [OrdMap.get?_insert, if_pos rfl] at hstream
  exact (some.inj hstream).symm

theorem Core.placements_afterPlace_of_ne (hne : j ≠ p.pj.jobId) :
    (c.afterPlace p).placements.get? j = c.placements.get? j := by
  show (c.placements.insert p.pj.jobId _).get? j = _
  rw [OrdMap.get?_insert, if_neg hne]

theorem Core.contains_afterPlace_of_ne (hplace : sch.place c now policy = some p)
    (hne : j ≠ p.pj.jobId) :
    (c.afterPlace p).inner.leases.contains j = c.inner.leases.contains j := by
  rw [LeaseTable.contains_eq, LeaseTable.contains_eq, get?_afterPlace hplace, if_neg hne]

theorem Core.placedOn_afterPlace_of_ne (hplace : sch.place c now policy = some p)
    (hne : j ≠ p.pj.jobId) : (c.afterPlace p).PlacedOn stream j ↔ c.PlacedOn stream j := by
  rw [PlacedOn, PlacedOn, contains_afterPlace_of_ne hplace hne, placements_afterPlace_of_ne hne]

end AfterPlace

namespace Exclusive

variable {sch : Scheduler} {s s' : State} {e : Event} {task : ℕ} {t : Task} {ch : Choice}
  {seg : Segment} {rest : List Segment} {core : Core} {next : List Segment}

theorem init (r : SchedulerRun) : Exclusive r.init where
  apart := trivial
  held stream j h := by cases h
  unsent seg h := by cases h

theorem started {call : Call} {s₁ : State} {code : List Segment} (h : Exclusive s)
    (hfree : s.tasks.get? task = none) (hbegun : Begun sch { s with clock := e.now } call s₁ code) :
    Exclusive (s.enter s₁ task call code) := by
  refine ⟨h.apart, h.held, ?_⟩
  intro seg hmem number j hunsent
  rcases State.mem_enter hfree hmem with hmem | hmem
  · rw [hbegun.unsent_eq_none seg hmem] at hunsent
    cases hunsent
  · exact h.unsent seg hmem number j hunsent

theorem place {read : Instant} {p : Placed} {others : List Segment} (h : Exclusive s)
    (hwired : Wired s) (hnumbered : Numbered s) (hconserved : Conserved s.core)
    (hstrategy : sch.strategy.Abides) (hplace : sch.place s.core read ch.policy = some p)
    (hothers : others ⊆ s.segments) (hcore : s'.core = s.core.afterPlace p)
    (hafter : s'.segments.Perm
      (.send s.core.placementCount p.worker p.tx p.pj :: others)) : Exclusive s' := by
  have hsender := Scheduler.place_sender hplace
  have hidle : ∀ i, runningOn p.tx i s.core.history = false := by
    intro i
    cases hrun : runningOn p.tx i s.core.history with
    | false => rfl
    | true =>
      have hon := h.held p.tx i hrun (.inl ⟨p.worker, hsender⟩)
      obtain ⟨l, hl, hw⟩ := hwired.placedOn_worker hon
      rw [hwired.sender p.worker p.tx hsender] at hw
      exact absurd (some.inj hw).symm (Scheduler.place_free hstrategy hplace hl)
  have hhistory : ∀ stream j, runningOn stream j s'.core.history =
      runningOn stream j s.core.history := by
    intro stream j
    rw [hcore, Core.afterPlace, runningOn]
    simp [Mark.isSent, Mark.resolves]
  have hne : ∀ j, s.core.inner.leases.contains j = true → j ≠ p.pj.jobId := by
    rintro j hleased rfl
    rw [LeaseTable.contains_eq, hconserved.not_leased hplace] at hleased
    cases hleased
  refine ⟨?_, ?_, ?_⟩
  · rw [hcore]
    exact ⟨by rintro _ _ ⟨⟩, h.apart⟩
  · intro stream j hrun huse
    rw [hhistory] at hrun
    rw [hcore] at huse ⊢
    have hwas : s.core.InUse stream := by
      rcases huse with ⟨w, hw⟩ | ⟨i, hi⟩
      · rw [Core.connected_afterPlace hplace] at hw
        exact .inl ⟨w, hw⟩
      by_cases heq : i = p.pj.jobId
      · subst heq
        rw [Core.placedOn_afterPlace_self hi, hidle] at hrun
        cases hrun
      · exact .inr ⟨i, (Core.placedOn_afterPlace_of_ne hplace heq).1 hi⟩
    have hon := h.held stream j hrun hwas
    exact (Core.placedOn_afterPlace_of_ne hplace (hne j hon.1)).2 hon
  · intro x hx number j hunsent hforce stream hon
    rw [hhistory]
    rw [hcore] at hforce hon
    rcases mem_cons.1 (hafter.mem_iff.1 hx) with rfl | hx
    · cases hunsent
      rw [Core.placedOn_afterPlace_self hon]
      exact hidle _
    by_cases heq : j = p.pj.jobId
    · -- the older placements of the job are not in force any more
      subst heq
      have hlt := hnumbered.known x (hothers hx) _ hunsent
      have hnumber := (Bool.and_eq_true_iff.1 hforce).2
      have hget : (s.core.afterPlace p).placements.get? p.pj.jobId =
          some ⟨s.core.placementCount, p.tx⟩ := by
        show (s.core.placements.insert p.pj.jobId _).get? _ = _
        rw [OrdMap.get?_insert, if_pos rfl]
      rw [hget] at hnumber
      exact absurd (some.inj (of_decide_eq_true hnumber)).symm (ne_of_lt hlt)
    · rw [Core.inForce, Core.contains_afterPlace_of_ne hplace heq,
        Core.placements_afterPlace_of_ne heq] at hforce
      exact h.unsent x (hothers hx) number j hunsent hforce stream
        ((Core.placedOn_afterPlace_of_ne hplace heq).1 hon)

theorem send {number : ℕ} {w : WorkerId} {tx : StreamId} {pj : PendingJob}
    {others : List Segment} (h : Exclusive s) (hwired : Wired s) (hnumbered : Numbered s)
    (hsingle : s.core.SingleLease) (hforce : s.core.inForce number pj.jobId = true)
    (hbefore : s.segments.Perm (.send number w tx pj :: others))
    (hcore : s'.core = s.core.mark (.sent tx pj.jobId))
    (hafter : s'.segments.Perm (.dispatch :: others)) : Exclusive s' := by
  have hseg : .send number w tx pj ∈ s.segments := hbefore.mem_iff.2 mem_cons_self
  obtain ⟨hleased, hlatest⟩ := Bool.and_eq_true_iff.1 hforce
  obtain ⟨p, hp, hnumber⟩ := map_eq_some_iff.1 (of_decide_eq_true hlatest)
  have hon : s.core.PlacedOn tx pj.jobId := by
    refine ⟨hleased, ?_⟩
    rw [hp, map_some, hnumbered.stream number w tx pj hseg p hp hnumber]
  have hidle : ∀ i, runningOn tx i s.core.history = false := by
    intro i
    cases hrun : runningOn tx i s.core.history with
    | false => rfl
    | true =>
      have hi := h.held tx i hrun (.inr ⟨_, hon⟩)
      obtain rfl := hwired.placedOn_unique hsingle hi hon
      rw [h.unsent _ hseg number pj.jobId rfl hforce tx hon] at hrun
      cases hrun
  have hhistory : ∀ stream j, runningOn stream j s'.core.history =
      ((decide (tx = stream) && decide (pj.jobId = j)) ||
        runningOn stream j s.core.history) := by
    intro stream j
    rw [hcore, Core.mark, runningOn]
    simp [Mark.isSent, Mark.resolves]
  refine ⟨?_, ?_, ?_⟩
  · rw [hcore]
    refine ⟨?_, h.apart⟩
    rintro _ _ ⟨⟩
    exact hidle
  · intro stream j hrun huse
    rw [hcore] at huse ⊢
    rw [hhistory, Bool.or_eq_true, Bool.and_eq_true, decide_eq_true_eq, decide_eq_true_eq] at hrun
    rcases hrun with ⟨rfl, rfl⟩ | hrun
    · exact hon
    · exact h.held stream j hrun huse
  intro x hx n j hunsent hforce' stream hon'
  rw [hcore] at hforce' hon'
  rcases mem_cons.1 (hafter.mem_iff.1 hx) with rfl | hx
  · cases hunsent
  have hx' : x ∈ s.segments := hbefore.mem_iff.2 (mem_cons_of_mem _ hx)
  have hother : pj.jobId ≠ j := by
    -- no other segment is about this placement
    rintro rfl
    have hsame := (Bool.and_eq_true_iff.1 hforce').2
    rw [show (s.core.mark _).placements = s.core.placements from rfl, hp] at hsame
    have heq : number = n := by
      rw [← hnumber]
      exact some.inj (of_decide_eq_true hsame)
    subst heq
    have honce := hnumbered.once number
    rw [hbefore.countP_eq, countP_cons,
      if_pos (by simp [Segment.isUnsent, Segment.unsent?])] at honce
    have hpos : 0 < others.countP (Segment.isUnsent number) :=
      countP_pos_iff.2 ⟨x, hx, by simp [Segment.isUnsent, hunsent]⟩
    omega
  rw [hhistory, decide_eq_false hother, Bool.and_false, Bool.false_or]
  exact h.unsent x hx' n j hunsent hforce' stream hon'

/-- **A running job keeps its lease**, as long as its stream is in use. -/
theorem kept {stream : StreamId} {j : JobId} (h : Exclusive s) (hwired : Wired s)
    (hseg : seg ∈ s.segments) (hcond : s.core.respects seg = true)
    (hran : Ran sch s.core ch e.now seg core next) (hrun : runningOn stream j s.core.history = true)
    (hstill : runningOn stream j core.history = true) (huse : core.InUse stream)
    (hon : s.core.PlacedOn stream j) : core.inner.leases.contains j = true := by
  -- completing the lease of another job
  have hother : ∀ job, j ≠ job → (s.core.inner.leases.complete job).1.contains j = true := by
    intro job hne
    rw [LeaseTable.contains_eq, LeaseTable.get?_complete, if_neg hne, ← LeaseTable.contains_eq]
    exact hon.1
  have hunsent : ∀ number pj, seg.unsent? = some (number, pj) →
      s.core.inForce number pj = true → j ≠ pj := by
    rintro number pj hsome hforce rfl
    rw [h.unsent seg hseg number j hsome hforce stream hon] at hrun
    cases hrun
  cases hran with
  | placed hsome =>
    rw [LeaseTable.contains_eq, Core.get?_afterPlace hsome]
    split
    · rfl
    · exact hon.1
  | gaveUp | requeued => exact hother _ (hunsent _ _ rfl hcond)
  | cancel job =>
    refine hother job ?_
    rintro rfl
    rw [Core.respects, hon.1] at hcond
    cases hcond
  | @accepted stream' job =>
    refine hother job ?_
    rintro rfl
    rw [Core.respects, hon.1, hon.2, Bool.not_true, Bool.false_or] at hcond
    obtain rfl := some.inj (of_decide_eq_true hcond)
    simp [runningOn, Mark.isSent, Mark.resolves] at hstill
  | @disconnect worker =>
    obtain ⟨l, hl, hw⟩ := hwired.placedOn_worker hon
    have hne : l.workerId ≠ worker := by
      rintro rfl
      rcases huse with ⟨w, hsender⟩ | ⟨i, hi⟩
      · have hdrop : (s.core.inner.connected.disconnect l.workerId).sender w = some stream :=
          hsender
        rw [ConnectedWorkers.sender_disconnect] at hdrop
        split at hdrop
        · cases hdrop
        rename_i hne
        rw [hwired.sender w stream hdrop] at hw
        exact hne (some.inj hw)
      obtain ⟨m, hm⟩ := LeaseTable.contains_iff.1 hi.1
      have hfilter : (s.core.inner.leases.takeWorker l.workerId).1.get? i = some m := hm
      rw [LeaseTable.get?_takeWorker] at hfilter
      obtain ⟨hm, hkeep⟩ := filter_eq_some_iff.1 hfilter
      obtain ⟨m', hm', hmw⟩ := hwired.placedOn_worker ⟨LeaseTable.contains_iff.2 ⟨m, hm⟩, hi.2⟩
      rw [hm] at hm'
      cases hm'
      rw [hw] at hmw
      simp [some.inj hmw] at hkeep
    refine LeaseTable.contains_iff.2 ⟨l, ?_⟩
    show (s.core.inner.leases.takeWorker worker).1.get? j = some l
    rw [LeaseTable.get?_takeWorker, hl, filter_some, decide_eq_false hne]
    rfl
  | @takeExpired read _ _ giveUp =>
    obtain ⟨l, hl⟩ := LeaseTable.contains_iff.1 hon.1
    have hlater : ¬ l.deadline ≤ read := by
      intro hdue
      have hmem : (j, l.payload) ∈ (s.core.inner.leases.takeExpired read).2 :=
        (LeaseTable.mem_takeWhere _ _).2 ⟨l, hl, decide_eq_true hdue, rfl⟩
      have hmark : (.expired j : Mark) ∈ giveUp.map Mark.gaveUp ++
          (s.core.inner.leases.takeExpired read).2.map fun p => Mark.expired p.1 :=
        mem_append_right _ (mem_map.2 ⟨_, hmem, rfl⟩)
      rw [runningOn_append, Bool.and_eq_true] at hstill
      · have hresolved := all_eq_true.1 hstill.1 _ hmark
        simp [Mark.resolves] at hresolved
      intro m hm
      rcases mem_append.1 hm with hm | hm
      · obtain ⟨_, -, rfl⟩ := mem_map.1 hm
        rfl
      · obtain ⟨_, -, rfl⟩ := mem_map.1 hm
        rfl
    refine LeaseTable.contains_iff.2 ⟨l, ?_⟩
    show (s.core.inner.leases.takeExpired read).1.get? j = some l
    rw [LeaseTable.get?_takeExpired, hl, filter_some, decide_eq_false hlater]
    rfl
  | renew worker deadline =>
    rw [LeaseTable.contains_eq]
    show ((s.core.inner.leases.renewWorker worker deadline).get? j).isSome = true
    rw [LeaseTable.get?_renewWorker, isSome_map]
    exact hon.1
  | _ => exact hon.1

end Exclusive

theorem Ran.sent_cases {sch : Scheduler} {c c' : Core} {ch : Choice} {now : Instant}
    {seg : Segment} {next : List Segment} (h : Ran sch c ch now seg c' next) :
    (∃ number w tx pj, seg = .send number w tx pj ∧ c' = c.mark (.sent tx pj.jobId) ∧
      next = [.dispatch]) ∨
      ∃ marks, c'.history = marks ++ c.history ∧ ∀ m ∈ marks, ∀ stream j, m ≠ .sent stream j := by
  have hmarks := h.marks
  cases h with
  | @sent number w tx pj => exact .inl ⟨number, w, tx, pj, rfl, rfl, rfl⟩
  | unsent => exact .inr ⟨[], rfl, by simp⟩
  | _ =>
    obtain ⟨marks, heq, hmarks⟩ := hmarks
    refine .inr ⟨marks, heq, ?_⟩
    rintro m hm stream j rfl
    cases hmarks _ hm

namespace Exclusive

variable {sch : Scheduler} {s s' : State} {e : Event} {task : ℕ} {t : Task} {ch : Choice}
  {seg : Segment} {rest : List Segment} {core : Core} {next : List Segment}

theorem ran (h : Exclusive s) (hwired : Wired s) (hnumbered : Numbered s)
    (hsingle : s.core.SingleLease) (hconserved : Conserved s.core) (hstrategy : sch.strategy.Abides)
    (hcond : s.core.respects seg = true) (htask : s.tasks.get? task = some t)
    (hcode : t.code = seg :: rest) (hran : Ran sch s.core ch e.now seg core next) :
    Exclusive (s.advance e.now core task t.call (next ++ rest)) := by
  obtain ⟨others, hbefore, hafter⟩ := State.segments_advance htask hcode e.now core next
  obtain ⟨hseg, hothers⟩ := cons_subset.1 hbefore.symm.subset
  rcases hran.leases with ⟨read, p, rfl, hplace, rfl, rfl⟩ | ⟨hplacements, hcount, hleases⟩
  · exact h.place hwired hnumbered hconserved hstrategy hplace hothers rfl hafter
  rcases hran.sent_cases with ⟨number, w, tx, pj, rfl, rfl, rfl⟩ | ⟨marks, hmarks, hnosent⟩
  · exact h.send hwired hnumbered hsingle hcond hbefore rfl hafter
  -- nothing is placed or sent: leases only end, and so do runs
  have hruns : ∀ stream j, runningOn stream j core.history = true →
      runningOn stream j s.core.history = true := by
    intro stream j hrun
    rw [hmarks, runningOn_append, Bool.and_eq_true] at hrun
    · exact hrun.2
    intro m hm
    cases m with
    | sent stream' job => exact absurd rfl (hnosent _ hm stream' job)
    | _ => rfl
  have hleased : ∀ j, core.inner.leases.contains j = true →
      s.core.inner.leases.contains j = true := by
    intro j hl
    obtain ⟨l, hl⟩ := LeaseTable.contains_iff.1 hl
    obtain ⟨l₀, hl₀, -⟩ := hleases j l hl
    exact LeaseTable.contains_iff.2 ⟨l₀, hl₀⟩
  have hwas : ∀ stream j, core.PlacedOn stream j → s.core.PlacedOn stream j :=
    fun stream j hon => ⟨hleased j hon.1, hplacements ▸ hon.2⟩
  refine ⟨?_, ?_, ?_⟩
  · show Apart core.history
    rw [hmarks]
    exact h.apart.append hnosent
  · intro stream j hstill huse
    have hrun := hruns stream j hstill
    have hused : s.core.InUse stream := by
      rcases huse with ⟨w, hw⟩ | ⟨i, hi⟩
      · rcases hran.sender hw with hw | rfl
        · exact .inl ⟨w, hw⟩
        · rw [hwired.not_running hseg] at hrun
          cases hrun
      · exact .inr ⟨i, hwas stream i hi⟩
    have hon := h.held stream j hrun hused
    exact ⟨h.kept hwired hseg hcond hran hrun hstill huse hon, hplacements ▸ hon.2⟩
  · intro x hx number j hunsent hforce stream hon
    have hforce₀ : s.core.inForce number j = true := by
      obtain ⟨hl, hn⟩ := Bool.and_eq_true_iff.1 hforce
      exact Bool.and_eq_true_iff.2 ⟨hleased j hl, hplacements ▸ hn⟩
    have hfrom : ∃ y ∈ s.segments, y.unsent? = some (number, j) := by
      rcases mem_append.1 (hafter.mem_iff.1 hx) with hx | hx
      · rcases hran.unsent_cases hcount with hnone | ⟨n, w, tx, pj, rfl, rfl⟩
        · rw [hnone x hx] at hunsent
          cases hunsent
        · cases mem_singleton.1 hx
          exact ⟨_, hseg, hunsent⟩
      · exact ⟨x, hothers hx, hunsent⟩
    obtain ⟨y, hy, hunsent⟩ := hfrom
    cases hrun : runningOn stream j core.history with
    | false => exact hrun
    | true =>
      have := hruns stream j hrun
      rw [h.unsent y hy number j hunsent hforce₀ stream (hwas stream j hon)] at this
      cases this

theorem step (h : Exclusive s) (hwired : Wired s) (hnumbered : Numbered s)
    (hsingle : s.core.SingleLease) (hconserved : Conserved s.core) (hstrategy : sch.strategy.Abides)
    (hcond : leasesRespected s e = true) (hs : Stepped sch s e s') : Exclusive s' := by
  cases hs with
  | idle => exact ⟨h.apart, h.held, h.unsent⟩
  | started hfree hbegun => exact h.started hfree hbegun
  | ran hmove htask hcode hran =>
    rw [leasesRespected, Stepped.running_eq hmove htask hcode] at hcond
    exact h.ran hwired hnumbered hsingle hconserved hstrategy hcond htask hcode hran

end Exclusive

theorem SchedulerRun.Meets.unsentStillLeased {r : SchedulerRun} (h : r.Meets leasesRespected) :
    r.Meets unsentStillLeased := by
  intro k e he
  have hcond := h k e he
  rw [leasesRespected] at hcond
  rw [Control.unsentStillLeased]
  split
  · rename_i number worker pj hrun
    rw [hrun] at hcond
    exact (Bool.and_eq_true_iff.1 hcond).1
  · rfl

theorem SchedulerRun.exclusive (r : SchedulerRun) (hstrategy : r.scheduler.strategy.Abides)
    (hcond : r.Meets leasesRespected) (k : ℕ) : Exclusive (r.state k) := by
  refine r.induction (.init r) ?_ k
  intro k e he h s' hs
  exact h.step (r.wired k) (r.numbered k) (r.singleLease hstrategy k)
    (r.conserved hcond.unsentStillLeased k) hstrategy (hcond k e he) hs

/-- Between any two jobs sent on a stream, the earlier one was reported on that stream or
its lease expired.  The record has the latest first. -/
def SentApart (h : List Mark) : Prop :=
  ∀ stream first second pre mid post,
    h = pre ++ .sent stream second :: (mid ++ .sent stream first :: post) →
      (∃ w, .accepted stream first w ∈ mid) ∨ .expired first ∈ mid

theorem Apart.sentApart {h : List Mark} (hh : Apart h) : SentApart h := by
  intro stream first second pre mid post heq
  subst heq
  have hfree := hh.free first
  by_contra hnot
  have hmid : ∀ m ∈ mid, m.resolves stream first = false := by
    intro m hm
    cases m with
    | accepted stream' job w =>
      by_contra htrue
      simp only [Mark.resolves, Bool.not_eq_false, Bool.and_eq_true, decide_eq_true_eq] at htrue
      obtain ⟨rfl, rfl⟩ := htrue
      exact hnot (.inl ⟨w, hm⟩)
    | expired =>
      by_contra htrue
      simp only [Mark.resolves, Bool.not_eq_false, decide_eq_true_eq] at htrue
      subst htrue
      exact hnot (.inr hm)
    | _ => rfl
  rw [runningOn_of_sent hmid] at hfree
  cases hfree

/-- **One job per worker stream.**  If the policy chooses among the candidates and every
segment respects the leases of others, then between any two jobs sent on a stream the
earlier one was reported on that stream or its lease expired. -/
theorem sent_apart (r : SchedulerRun) (hstrategy : r.scheduler.strategy.Abides)
    (hcond : r.Meets leasesRespected) (k : ℕ) : SentApart (r.state k).core.history :=
  (r.exclusive hstrategy hcond k).apart.sentApart

/-- Two jobs are sent on one stream, the second after the first was reported. -/
def Sample.inTurnRun : SchedulerRun where
  events := hello ++ lease ++
    [go 1 1, start 2 2 (.report 1 { jobId := "j" }), go 2 2, start 3 3 (execute second),
      go 3 3, go 3 3, go 3 3, go 3 3, go 3 3]

open Sample

theorem sent_apart_sample :
    Mark.sent 1 second ∈ (inTurnRun.state 18).core.history ∧
      Mark.sent 1 job ∈ (inTurnRun.state 18).core.history ∧
      SentApart (inTurnRun.state 18).core.history := by
  have hcond : inTurnRun.Meets leasesRespected :=
    inTurnRun.meets_of_lt (by decide +kernel)
  exact ⟨by decide +kernel, by decide +kernel, sent_apart inTurnRun simpleFifo_abides hcond 18⟩

/-- A job with a timeout of ten seconds is sent; the worker heartbeats, which renews the
lease; the call times out; a second job is sent. -/
def Sample.timedOutRun : SchedulerRun where
  registry := some {}
  events := [⟨0, .register worker⟩] ++ hello ++
    [start 1 1 (execute job (some 10)), go 1 1, go 1 1, go 1 1, go 1 1, go 1 1, go 1 1, go 1 1,
      go 1 1, start 5 2 (.heartbeat worker), go 5 2, go 5 2, go 5 2, go 12 1 { timeout := true },
      go 12 1, go 12 1, go 12 1, start 13 3 (execute second), go 13 3, go 13 3, go 13 3, go 13 3,
      go 13 3]

/-- **A busy worker is sent a second job**: the first one was not reported, and its lease,
renewed by the heartbeat, would have run until second 65. -/
theorem sent_to_busy :
    ((timedOutRun.state 20).core.inner.leases.get? job).map Lease.deadline =
        some (Duration.fromSecs 65) ∧
      (timedOutRun.state 28).clock = Duration.fromSecs 13 ∧
      ¬ SentApart (timedOutRun.state 28).core.history := by
  refine ⟨by decide +kernel, by decide +kernel, ?_⟩
  intro h
  have hmid := h 1 job second []
    [.placed second worker 1, .admitted second tenant, .released job tenant,
      .returned job (.error (.timeout (Duration.fromSecs 10))), .timedOut job]
    [.placed job worker 1, .admitted job tenant] (by decide +kernel)
  simp at hmid

end Brokkr.Control
