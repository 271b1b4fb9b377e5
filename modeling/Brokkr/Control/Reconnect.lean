import Brokkr.Control.Capacity

/-!
# A worker that connects again

Connections and leases are kept by worker id.  When a worker has two streams, the cleanup
of the older one, or a send that fails on it, is carried out against the worker, and so
against the newer stream too.

* `Core.placings` — all placements, the oldest first; `Listed` ties the numbers of
  placements to them.
* `State.endsOn` — the stream whose cleanup, or whose failed send, an event runs.
* `Core.TakesBack` — a job is queued once more, or given up.
* `reconnect_supersedes` — once a second stream has connected, every such step of the
  first leaves the worker without a connection; `State.spares` says exactly which jobs
  sent on the second stream it does not take back.
* `Sample.reconnectedRun` — the cleanup of the old stream disconnects the new one and
  requeues the job that was sent on it.
-/

namespace Brokkr.Control

open Option

open OrdMap

open List

variable {j : JobId} {w : WorkerId} {stream : StreamId} {sch : Scheduler} {ch : Choice}
  {seg : Segment} {next code rest : List Segment} {s : State} {core : Core} {task k m : ℕ}
  {call : Call} {t : Task}

/-! ## All placements -/

/-- What a mark placed: the job, the worker and the stream. -/
def Mark.placing? : Mark → Option (JobId × WorkerId × StreamId)
  | .placed job worker stream => some (job, worker, stream)
  | _ => none

/-- All placements, the oldest first. -/
def Core.placings (c : Core) : List (JobId × WorkerId × StreamId) :=
  (c.history.filterMap Mark.placing?).reverse

theorem Core.mem_placings {c : Core} :
    (j, w, stream) ∈ c.placings ↔ .placed j w stream ∈ c.history := by
  rw [placings, mem_reverse, mem_filterMap]
  constructor
  · rintro ⟨m, hm, heq⟩
    cases m with
    | placed => cases heq; exact hm
    | _ => cases heq
  · exact fun hm => ⟨_, hm, rfl⟩

theorem Core.placings_afterPlace (c : Core) (p : Placed) :
    (c.afterPlace p).placings = c.placings ++ [(p.pj.jobId, p.worker, p.tx)] := by
  show ((p.pj.jobId, p.worker, p.tx) :: c.history.filterMap Mark.placing?).reverse = _
  rw [reverse_cons]
  rfl

theorem Ran.placings {c c' : Core} {now : Instant} (h : Ran sch c ch now seg c' next)
    (hcount : c'.placementCount = c.placementCount) : c'.placings = c.placings := by
  cases h with
  | placed => exact absurd hcount (Nat.succ_ne_self _)
  | disconnect =>
    simp [Core.placings, filterMap_append, filterMap_map, Function.comp_def, Mark.placing?]
  | takeExpired =>
    simp [Core.placings, filterMap_append, filterMap_map, Function.comp_def, Mark.placing?]
  | _ => rfl

/-- The placement a dispatcher is busy with: its number, the job and the worker. -/
def Segment.placing? : Segment → Option (ℕ × JobId × WorkerId)
  | .send number worker _ pj => some (number, pj.jobId, worker)
  | .sendFailed number worker pj => some (number, pj.jobId, worker)
  | _ => none

theorem Ran.placing {c c' : Core} {now : Instant} (h : Ran sch c ch now seg c' next)
    (hcount : c'.placementCount = c.placementCount) {x : Segment} (hx : x ∈ next)
    {q : ℕ × JobId × WorkerId} (hq : x.placing? = some q) : seg.placing? = some q := by
  cases h.follows x hx with
  | send =>
    cases h with
    | nothing => cases hx
    | placed => exact absurd hcount (Nat.succ_ne_self _)
  | sendFailed => exact hq
  | _ => cases hq

/-- What numbers of placements stand for. -/
structure Listed (s : State) : Prop where
  count : s.core.placings.length = s.core.placementCount
  latest : ∀ j p, s.core.placements.get? j = some p →
    (∃ w, s.core.placings[p.number]? = some (j, w, p.stream)) ∧
      ∀ n q, p.number < n → s.core.placings[n]? = some q → q.1 ≠ j
  unsent : ∀ seg ∈ s.segments, ∀ number j w, seg.placing? = some (number, j, w) →
    ∃ stream, s.core.placings[number]? = some (j, w, stream)

namespace Listed

variable {s' : State} {e : Event}

theorem init (r : SchedulerRun) : Listed r.init where
  count := rfl
  latest j p h := by cases h
  unsent seg h := by cases h

theorem step (h : Listed s) (hs : Stepped sch s e s') : Listed s' := by
  cases hs with
  | idle => exact ⟨h.1, h.2, h.3⟩
  | @started task call s₁ code hfree hbegun =>
    have hcode : ∀ x ∈ code, x.placing? = none := by
      cases hbegun <;> simp [Segment.placing?]
    refine ⟨h.count, h.latest, ?_⟩
    intro seg hmem number j w hq
    rcases State.mem_enter hfree hmem with hmem | hmem
    · rw [hcode seg hmem] at hq
      cases hq
    · exact h.unsent seg hmem number j w hq
  | @ran task t ch seg rest core next hmove htask hcode hran =>
    rcases hran.leases with ⟨read, p, rfl, -, rfl, rfl⟩ | ⟨hplacements, hcount, -⟩
    · -- one more placement at the end; the others keep their places
      have hlist := s.core.placings_afterPlace p
      have hold : ∀ {n : ℕ} {q}, s.core.placings[n]? = some q →
          (s.core.afterPlace p).placings[n]? = some q := by
        intro n q hq
        rw [hlist, getElem?_append_left (List.getElem?_eq_some_iff.1 hq).1]
        exact hq
      have hnew : (s.core.afterPlace p).placings[s.core.placementCount]? =
          some (p.pj.jobId, p.worker, p.tx) := by
        rw [hlist, ← h.count, getElem?_concat_length]
      refine ⟨?_, ?_, ?_⟩
      · show (s.core.afterPlace p).placings.length = s.core.placementCount + 1
        rw [hlist, length_append, length_singleton, h.count]
      · intro j p' hp'
        have hget : (s.core.placements.insert p.pj.jobId ⟨s.core.placementCount, p.tx⟩).get? j =
            some p' := hp'
        rcases of_get?_insert hget with ⟨hj, rfl⟩ | ⟨hj, hget⟩
        · refine ⟨⟨p.worker, hj ▸ hnew⟩, ?_⟩
          intro n q hn hq
          have hlt := (List.getElem?_eq_some_iff.1 hq).1
          rw [show (s.advance e.now (s.core.afterPlace p) task t.call _).core.placings =
            s.core.placings ++ _ from hlist, length_append, length_singleton,
            h.count] at hlt
          exact absurd (show s.core.placementCount < n from hn) (by omega)
        obtain ⟨⟨w, hw⟩, hlater⟩ := h.latest j p' hget
        refine ⟨⟨w, hold hw⟩, ?_⟩
        intro n q hn hq
        have hq' : (s.core.afterPlace p).placings[n]? = some q := hq
        rw [hlist] at hq'
        by_cases hlt : n < s.core.placings.length
        · rw [getElem?_append_left hlt] at hq'
          exact hlater n q hn hq'
        rw [getElem?_append_right (not_lt.1 hlt)] at hq'
        cases mem_singleton.1 (mem_of_getElem? hq')
        exact Ne.symm hj
      · intro x hx number j w hq
        rcases State.mem_advance htask hcode hx with hx | hx
        · cases mem_singleton.1 hx
          cases hq
          exact ⟨p.tx, hnew⟩
        · obtain ⟨stream, hw⟩ := h.unsent x hx number j w hq
          exact ⟨stream, hold hw⟩
    · have hlist := hran.placings hcount
      refine ⟨?_, ?_, ?_⟩
      · show core.placings.length = core.placementCount
        rw [hlist, hcount]
        exact h.count
      · show ∀ j p, core.placements.get? j = some p → _
        rw [hplacements]
        show ∀ j p, s.core.placements.get? j = some p →
          (∃ w, core.placings[p.number]? = some (j, w, p.stream)) ∧
            ∀ n q, p.number < n → core.placings[n]? = some q → q.1 ≠ j
        rw [hlist]
        exact h.latest
      · intro x hx number j w hq
        show ∃ stream, core.placings[number]? = some (j, w, stream)
        rw [hlist]
        rcases State.mem_advance htask hcode hx with hx | hx
        · exact h.unsent seg (State.mem_code htask hcode) number j w (hran.placing hcount hx hq)
        · exact h.unsent x hx number j w hq

end Listed

theorem SchedulerRun.listed (r : SchedulerRun) (k : ℕ) : Listed (r.state k) :=
  r.induction (.init r) (fun _ _ _ h _ hs => h.step hs) k

theorem SchedulerRun.keyed (r : SchedulerRun) (k : ℕ) : ∀ j l,
    (r.state k).core.inner.leases.get? j = some l → l.payload.jobId = j := by
  refine r.core_induction (M := fun c => ∀ j l, c.inner.leases.get? j = some l →
    l.payload.jobId = j) ?_ (fun _ _ h => h) ?_ k
  · rintro j l ⟨⟩
  intro k ch now seg c' next h hran j l hl
  rcases hran.leases with ⟨read, p, -, hplace, rfl, -⟩ | ⟨-, -, hleases⟩
  · rcases Core.of_get?_afterPlace hplace hl with ⟨rfl, -, hpay⟩ | ⟨-, hl⟩
    · rw [hpay]
    · exact h j l hl
  · obtain ⟨l₀, hl₀, -, hpay⟩ := hleases j l hl
    rw [← hpay]
    exact h j l₀ hl₀

/-! ## Steps that end a stream -/

/-- Every cleanup is a call of a stream of the worker. -/
def Cleaning (s : State) : Prop :=
  ∀ task t w, s.tasks.get? task = some t → .disconnect w ∈ t.code →
    ∃ stream, t.call = .disconnectWorker stream ∧ s.workerOn stream = some w

theorem Cleaning.step {s' : State} {e : Event} (h : Cleaning s) (hs : Stepped sch s e s') :
    Cleaning s' := by
  have hkept : ∀ {task t w}, s.tasks.get? task = some t → .disconnect w ∈ t.code →
      ∃ stream, t.call = .disconnectWorker stream ∧ s'.workerOn stream = some w := by
    intro task t w ht hmem
    obtain ⟨stream, hcall, hw⟩ := h task t w ht hmem
    exact ⟨stream, hcall, hs.stream_worker hw⟩
  cases hs with
  | idle => exact h
  | @started task call s₁ code hfree hbegun =>
    intro task' t' w ht hmem
    have hget : (s.tasks.insert task ⟨call, code⟩).get? task' = some t' := ht
    rcases of_get?_insert hget with ⟨-, rfl⟩ | ⟨-, hget⟩
    · cases hbegun with
      | @disconnectWorker stream worker hstream hidle =>
        cases mem_singleton.1 hmem
        refine ⟨stream, rfl, ?_⟩
        show ((s.streams.insert stream ⟨w, false⟩).get? stream).map WorkerStream.worker = some w
        rw [get?_insert, if_pos rfl]
        rfl
      | _ => simp at hmem
    · exact hkept hget hmem
  | @ran task t ch seg rest core next hmove htask hcode hran =>
    intro task' t' w ht hmem
    rcases State.get?_advance ht with rfl | ht
    · rcases mem_append.1 hmem with hx | hx
      · cases hran.follows _ hx
      · have hmem₀ : .disconnect w ∈ t.code := by
          rw [hcode]
          exact mem_cons_of_mem _ hx
        obtain ⟨stream, hcall, hw⟩ := hkept htask hmem₀
        exact ⟨stream, hcall, hw⟩
    · exact hkept ht hmem

theorem SchedulerRun.cleaning (r : SchedulerRun) (k : ℕ) : Cleaning (r.state k) := by
  refine r.induction ?_ (fun _ _ _ h _ hs => h.step hs) k
  intro task t w ht
  cases ht

/-- The stream whose cleanup, or whose failed send, an event runs. -/
def State.endsOn (s : State) (e : Event) : Option StreamId :=
  match e.move with
  | .run task _ =>
    match s.tasks.get? task with
    | some ⟨.disconnectWorker stream, .disconnect _ :: _⟩ => some stream
    | some ⟨_, .sendFailed number _ _ :: _⟩ => (s.core.placings[number]?).map fun q => q.2.2
    | _ => none
  | _ => none

theorem SchedulerRun.endsOn_isSome (r : SchedulerRun) (k : ℕ) {e : Event}
    (hseg : (r.state k).running e = some seg)
    (hkind : (∃ w, seg = .disconnect w) ∨ ∃ number w pj, seg = .sendFailed number w pj) :
    ((r.state k).endsOn e).isSome = true := by
  obtain ⟨now, move⟩ := e
  obtain ⟨task, ch, ⟨call, code⟩, rest, rfl, htask, rfl⟩ := State.exists_task hseg
  rcases hkind with ⟨w, rfl⟩ | ⟨number, w, pj, rfl⟩
  · obtain ⟨stream, hcall, -⟩ := r.cleaning k task _ w htask mem_cons_self
    obtain rfl : call = .disconnectWorker stream := hcall
    simp [State.endsOn, htask]
  have hmem : .sendFailed number w pj ∈ (r.state k).segments :=
    State.mem_segments.2 ⟨task, _, htask, mem_cons_self⟩
  obtain ⟨stream, hget⟩ := (r.listed k).unsent _ hmem number pj.jobId w rfl
  simp [State.endsOn, htask, hget]

theorem SchedulerRun.endsOn_cases (r : SchedulerRun) {e : Event}
    (h : (r.state k).endsOn e = some stream) (hw : (r.state k).workerOn stream = some w) :
    (r.state k).running e = some (.disconnect w) ∨
      ∃ number pj, (r.state k).running e = some (.sendFailed number w pj) ∧
        (r.state k).core.placings[number]? = some (pj.jobId, w, stream) := by
  simp only [State.endsOn] at h
  split at h
  · rename_i task ch hmove
    split at h
    · rename_i stream' w' rest htask
      cases h
      obtain ⟨stream', hcall, hw'⟩ := r.cleaning k task _ w' htask mem_cons_self
      cases hcall
      rw [hw] at hw'
      cases hw'
      exact .inl (Stepped.running_eq hmove htask rfl)
    · rename_i call number w' pj rest htask
      obtain ⟨⟨j, w₁, stream'⟩, hq, rfl⟩ := map_eq_some_iff.1 h
      have hmem : .sendFailed number w' pj ∈ (r.state k).segments :=
        State.mem_segments.2 ⟨task, _, htask, mem_cons_self⟩
      obtain ⟨stream₁, hget⟩ := (r.listed k).unsent _ hmem number pj.jobId w' rfl
      rw [hq] at hget
      cases hget
      have hplaced := (r.wired k).placed _ w' _ (Core.mem_placings.1 (mem_of_getElem? hq))
      rw [hw] at hplaced
      cases hplaced
      exact .inr ⟨number, pj, Stepped.running_eq hmove htask rfl, hq⟩
    · cases h
  · cases h

/-- From one moment to another a job is taken back: it is queued once more, or given up
because its attempts are used up. -/
def Core.TakesBack (c c' : Core) (j : JobId) : Prop :=
  c.inner.queued j < c'.inner.queued j ∨
    ∃ marks, c'.history = marks ++ c.history ∧ .gaveUp j ∈ marks

namespace Ran

variable {c c' : Core} {now : Instant}

theorem sender_disconnect (h : Ran sch c ch now (.disconnect w) c' next) :
    c'.inner.connected.sender w = none := by
  cases h with
  | disconnect =>
    show (c.inner.connected.disconnect w).sender w = none
    rw [ConnectedWorkers.sender_disconnect, if_pos rfl]

theorem sender_sendFailed {number : ℕ} {pj : PendingJob}
    (h : Ran sch c ch now (.sendFailed number w pj) c' next) :
    c'.inner.connected.sender w = none := by
  have hnone : (c.inner.connected.disconnect w).sender w = none := by
    rw [ConnectedWorkers.sender_disconnect, if_pos rfl]
  cases h with
  | gaveUp | requeued => exact hnone

theorem takesBack_disconnect (hkeyed : ∀ j l, c.inner.leases.get? j = some l → l.payload.jobId = j)
    (h : Ran sch c ch now (.disconnect w) c' next) :
    c.TakesBack c' j ↔ c.inner.leases.workerOf j = some w := by
  cases h with
  | @disconnect _ pending requeued giveUp htaken =>
    obtain ⟨_, hsame, hqueue, rfl, -⟩ := Inner.requeueTaken_spec htaken
    cases hsame
    have hqueued : ({ c.inner.drop w with pending := pending } : Inner).queued j =
        c.inner.queued j + (((c.inner.leases.takeWorker w).2.filter fun q =>
          decide (q.2.attempts + 1 < maxAttempts)).map fun q => q.2.retried).countP
            fun pj => decide (pj.jobId = j) := by
      rw [Inner.queued, hqueue, countP_append]
      rfl
    have htaken : ∀ q ∈ (c.inner.leases.takeWorker w).2, q.2.jobId = q.1 ∧
        c.inner.leases.workerOf q.1 = some w := by
      rintro ⟨i, pj⟩ hq
      obtain ⟨l, hl, hlw, rfl⟩ := (c.inner.leases.mem_takeWhere _).1 hq
      refine ⟨hkeyed i l hl, ?_⟩
      rw [LeaseTable.workerOf, show c.inner.leases.leases.get? i = some l from hl, map_some,
        of_decide_eq_true hlw]
    constructor
    · rintro (hlt | ⟨marks, heq, hm⟩)
      · have hpos := Nat.pos_of_lt_add_right (hqueued ▸ hlt)
        obtain ⟨pj, hpj, hid⟩ := countP_pos_iff.1 hpos
        obtain ⟨q, hq, rfl⟩ := mem_map.1 hpj
        obtain ⟨hkey, hheld⟩ := htaken q (mem_filter.1 hq).1
        rw [← hheld, ← hkey, ← of_decide_eq_true hid]
        rfl
      · obtain rfl := append_cancel_right heq
        obtain ⟨i, hi, hm⟩ := mem_map.1 hm
        cases hm
        obtain ⟨q, hq, rfl⟩ := mem_map.1 hi
        exact (htaken q (mem_filter.1 hq).1).2
    · intro hheld
      obtain ⟨l, hl, hlw⟩ := map_eq_some_iff.1 hheld
      have hq : (j, l.payload) ∈ (c.inner.leases.takeWorker w).2 :=
        (c.inner.leases.mem_takeWhere _).2 ⟨l, hl, decide_eq_true hlw, rfl⟩
      by_cases hmax : l.payload.attempts + 1 < maxAttempts
      · left
        rw [hqueued]
        refine Nat.lt_add_of_pos_right (countP_pos_iff.2 ⟨l.payload.retried, ?_, ?_⟩)
        · exact mem_map.2 ⟨_, mem_filter.2 ⟨hq, decide_eq_true hmax⟩, rfl⟩
        · exact decide_eq_true (hkeyed j l hl)
      · refine .inr ⟨_, rfl, mem_map.2 ⟨j, mem_map.2 ⟨_, mem_filter.2 ⟨hq, ?_⟩, rfl⟩, rfl⟩⟩
        exact decide_eq_true (not_lt.1 hmax)

theorem takesBack_sendFailed {number : ℕ} {pj : PendingJob}
    (h : Ran sch c ch now (.sendFailed number w pj) c' next) : c.TakesBack c' j ↔ pj.jobId = j := by
  cases h with
  | gaveUp hmax =>
    constructor
    · rintro (hlt | ⟨marks, heq, hm⟩)
      · exact absurd hlt (lt_irrefl _)
      · obtain rfl := append_cancel_right (show [Mark.gaveUp pj.jobId] ++ c.history = _ from heq)
        cases mem_singleton.1 hm
        rfl
    · rintro rfl
      exact .inr ⟨[.gaveUp pj.jobId], rfl, mem_cons_self⟩
  | requeued hmax =>
    have hqueued : ({ c.inner.unplace w pj.jobId with
        pending := c.inner.pending.push pj.tenant pj.retried } : Inner).queued j =
          c.inner.queued j + [pj.retried].countP fun pj => decide (pj.jobId = j) := by
      rw [Inner.queued, FairQueue.push_entries, map_append, countP_append]
      rfl
    constructor
    · rintro (hlt | ⟨marks, heq, hm⟩)
      · have hpos := Nat.pos_of_lt_add_right (hqueued ▸ hlt)
        obtain ⟨pj', hpj, hid⟩ := countP_pos_iff.1 hpos
        cases mem_singleton.1 hpj
        exact of_decide_eq_true hid
      · obtain rfl := append_cancel_right (show [] ++ c.history = _ from heq)
        cases hm
    · rintro rfl
      left
      rw [hqueued]
      exact Nat.lt_add_of_pos_right (countP_pos_iff.2 ⟨_, mem_cons_self, decide_eq_true rfl⟩)

end Ran

/-! ## Two streams of one worker -/

theorem Begun.connects {s₁ : State} (h : Begun sch s call s₁ code) (hw : s.workerOn stream = some w)
    : code.countP (Segment.connects stream) = 0 := by
  cases h with
  | @connectWorker stream' worker hnew =>
    have hne : stream' ≠ stream := by
      rintro rfl
      rw [State.workerOn, hnew] at hw
      cases hw
    simp [Segment.connects, hne]
  | _ => simp [Segment.connects]

namespace SchedulerRun

variable {r : SchedulerRun}

theorem Runs.connected (h : r.Runs k (.connect w stream)) :
    (∀ w', (r.state (k + 1)).core.inner.connected.sender w' =
      if w' = w then some stream else (r.state k).core.inner.connected.sender w') ∧
    (r.state (k + 1)).core.placings = (r.state k).core.placings ∧
    (r.state (k + 1)).segments.countP (Segment.connects stream) = 0 := by
  have hone := (r.wired k).once stream
  obtain ⟨⟨now, move⟩, he, hnow, hrun⟩ := h
  obtain ⟨task, ch, t, rest, rfl, htask, hcode⟩ := State.exists_task hrun
  rw [r.state_succ he, State.step_run hnow htask hcode rfl]
  refine ⟨?_, rfl, ?_⟩
  · intro w'
    exact ConnectedWorkers.sender_connect _ _ _ w'
  have hran : Ran r.scheduler (r.state k).core ch now (.connect w stream) _ _ :=
    .connect w stream
  have hcount := State.connects_advance htask hcode hran stream
  have htrue : (Segment.connect w stream).connects stream = true := by simp [Segment.connects]
  rw [htrue, Bool.toNat_true] at hcount
  exact Nat.le_zero.1 (Nat.le_of_succ_le_succ (hcount.le.trans hone))

theorem Runs.connects_once (h : r.Runs k (.connect w stream)) (hm : k < m) :
    (r.state m).segments.countP (Segment.connects stream) = 0 ∧
      (r.state m).workerOn stream = some w := by
  refine r.induction_from (n := k + 1) (M := fun s =>
    s.segments.countP (Segment.connects stream) = 0 ∧ s.workerOn stream = some w) ?_ ?_ hm
  · refine ⟨h.connected.2.2, ?_⟩
    have hworker := (r.wired k).connect w stream h.mem
    obtain ⟨e, he, -⟩ := h
    rw [r.state_succ he]
    exact (State.stepped _ _ _).stream_worker hworker
  rintro k e - - ⟨hzero, hworker⟩ s' hs
  refine ⟨?_, hs.stream_worker hworker⟩
  cases hs with
  | idle => exact hzero
  | @started task call s₁ code hfree hbegun =>
    rw [State.countP_enter hfree, hzero, hbegun.connects hworker]
  | ran hmove htask hcode hran =>
    have hcount := State.connects_advance htask hcode hran stream
    omega

theorem superseded {k₁ k₂ : ℕ} {stream₁ stream₂ : StreamId} (h₁ : r.Runs k₁ (.connect w stream₁))
    (h₂ : r.Runs k₂ (.connect w stream₂)) (h₁₂ : k₁ < k₂) (hm : k₂ < m) :
    ∃ new, (r.state m).core.placings = (r.state k₂).core.placings ++ new ∧
      ∀ q ∈ new, q.2.2 ≠ stream₁ := by
  have hne : stream₁ ≠ stream₂ := by
    rintro rfl
    have hzero := (h₁.connects_once h₁₂).1
    have := countP_eq_zero.1 hzero _ h₂.mem
    simp [Segment.connects] at this
  refine (r.induction_from (n := k₂ + 1) (M := fun s =>
    (∀ w', s.core.inner.connected.sender w' ≠ some stream₁) ∧
      ∃ new, s.core.placings = (r.state k₂).core.placings ++ new ∧
        ∀ q ∈ new, q.2.2 ≠ stream₁) ?_ ?_ hm).2
  · obtain ⟨hsender, hsame, -⟩ := h₂.connected
    refine ⟨?_, [], by simp [hsame], by simp⟩
    intro w' hw'
    rw [hsender] at hw'
    split at hw'
    · exact hne (some.inj hw').symm
    rename_i hww
    have hon := (r.wired k₂).sender w' stream₁ hw'
    rw [(h₁.connects_once h₁₂).2] at hon
    exact hww (some.inj hon).symm
  · rintro k e hk - ⟨hsender, new, hlist, hnew⟩ s' hs
    cases hs with
    | idle => exact ⟨hsender, new, hlist, hnew⟩
    | started => exact ⟨hsender, new, hlist, hnew⟩
    | @ran task t ch seg rest core next hmove htask hcode hran =>
      refine ⟨?_, ?_⟩
      · -- the first stream would have to connect again
        intro w' hw'
        rcases hran.sender hw' with hw' | rfl
        · exact hsender w' hw'
        have hzero := (h₁.connects_once (h₁₂.trans hk)).1
        have := countP_eq_zero.1 hzero _ (State.mem_code htask hcode)
        simp [Segment.connects] at this
      · rcases hran.leases with ⟨read, p, -, hplace, rfl, -⟩ | ⟨-, hcount, -⟩
        · refine ⟨new ++ [(p.pj.jobId, p.worker, p.tx)], ?_, ?_⟩
          · show ((r.state k).core.afterPlace p).placings = _
            rw [Core.placings_afterPlace, hlist, append_assoc]
          intro q hq
          rcases mem_append.1 hq with hq | hq
          · exact hnew q hq
          cases mem_singleton.1 hq
          rintro rfl
          exact hsender p.worker (Scheduler.place_sender hplace)
        · exact ⟨new, (hran.placings hcount).trans hlist, hnew⟩

theorem not_sent {k₁ k₂ : ℕ} {stream₁ stream₂ : StreamId} (h₁ : r.Runs k₁ (.connect w stream₁))
    (h₂ : r.Runs k₂ (.connect w stream₂)) (h₁₂ : k₁ < k₂) (hm : k₂ < m) {p : Placement}
    (hp : (r.state m).core.placements.get? j = some p) (hstream : p.stream = stream₁) :
    .sent stream₂ j ∉ (r.state m).core.history := by
  intro hsent
  obtain ⟨w₂, hplaced⟩ := (r.wired m).sent stream₂ j hsent
  obtain ⟨n₂, hn₂, hq₂⟩ := mem_iff_getElem.1 (Core.mem_placings.2 hplaced)
  obtain ⟨⟨w₁, hq₁⟩, hlater⟩ := (r.listed m).latest j p hp
  have hq₂' := List.getElem?_eq_some_iff.2 ⟨hn₂, hq₂⟩
  refine hlater n₂ _ ?_ hq₂' rfl
  -- what is on the first stream comes before, what is on the second after its connection
  obtain ⟨new, hlist, hnew⟩ := superseded h₁ h₂ h₁₂ hm
  rw [hlist] at hq₁ hq₂'
  have hlt : p.number < (r.state k₂).core.placings.length := by
    by_contra hge
    rw [getElem?_append_right (not_lt.1 hge)] at hq₁
    exact hnew _ (mem_of_getElem? hq₁) hstream
  refine hlt.trans_le ?_
  by_contra hlt₂
  rw [getElem?_append_left (not_le.1 hlt₂)] at hq₂'
  have hlinked : (r.state k₂).core.Linked stream₂ :=
    .inr ⟨j, w₂, Core.mem_placings.1 (mem_of_getElem? hq₂')⟩
  have := countP_eq_zero.1 ((r.wired k₂).fresh stream₂ hlinked) _ h₂.mem
  simp [Segment.connects] at this

end SchedulerRun

/-- A step that ends a stream leaves the job alone: a cleanup finds it not leased to the
worker, and a send that failed was of another job, or is taken back while its placement is
in force. -/
def State.spares (s : State) (e : Event) (j : JobId) : Bool :=
  match s.running e with
  | some (.disconnect w) => decide (s.core.inner.leases.workerOf j ≠ some w)
  | some (.sendFailed number _ pj) => decide (pj.jobId ≠ j) || s.core.inForce number j
  | _ => true

theorem SchedulerRun.not_inForce {r : SchedulerRun} {k₁ k₂ number : ℕ}
    {stream₁ stream₂ : StreamId} (h₁ : r.Runs k₁ (.connect w stream₁))
    (h₂ : r.Runs k₂ (.connect w stream₂)) (h₁₂ : k₁ < k₂) (hk : k₂ < k)
    (hlisted : (r.state k).core.placings[number]? = some (j, w, stream₁))
    (hsent : .sent stream₂ j ∈ (r.state k).core.history) :
    (r.state k).core.inForce number j = false := by
  by_contra hforce
  obtain ⟨-, hnumber⟩ := Bool.and_eq_true_iff.1 (Bool.of_not_eq_false hforce)
  obtain ⟨p, hp, rfl⟩ := map_eq_some_iff.1 (of_decide_eq_true hnumber)
  obtain ⟨⟨w₂, hget⟩, -⟩ := (r.listed k).latest j p hp
  rw [hlisted] at hget
  cases hget
  exact not_sent h₁ h₂ h₁₂ hk hp rfl hsent

/-- **Reconnect supersedes, where it does.**  A worker connects by one stream and then by
another.  A later cleanup of the first stream, or a send that fails on it, always leaves the
worker without a connection, so it never spares a second stream that is connected.  Of the
jobs that were sent on the second stream, it takes back exactly those that are not spared:
leased to the worker at a cleanup, or placed anew since the send that failed. -/
theorem reconnect_supersedes (r : SchedulerRun) {w : WorkerId} {stream₁ stream₂ : StreamId}
    {k₁ k₂ k : ℕ} {e : Event} (h₁ : r.Runs k₁ (.connect w stream₁))
    (h₂ : r.Runs k₂ (.connect w stream₂)) (h₁₂ : k₁ < k₂) (hk : k₂ < k)
    (he : r.events[k]? = some e) (hnow : (r.state k).clock ≤ e.now)
    (hends : (r.state k).endsOn e = some stream₁) :
    (r.state (k + 1)).core.inner.connected.sender w = none ∧
      ∀ j, .sent stream₂ j ∈ (r.state k).core.history →
        ((r.state k).spares e j = true ↔
          ¬ (r.state k).core.TakesBack (r.state (k + 1)).core j) := by
  have hworker := (h₁.connects_once (h₁₂.trans hk)).2
  rw [r.state_succ he]
  rcases r.endsOn_cases hends hworker with hrun | ⟨number, pj, hrun, hlisted⟩
  · have hsome : ∀ ch, (r.scheduler.run (r.state k).core ch e.now (.disconnect w)).isSome = true :=
      fun _ => rfl
    obtain ⟨ch, next, hran⟩ := State.exists_ran hnow hrun hsome
    refine ⟨hran.sender_disconnect, ?_⟩
    intro j _
    rw [hran.takesBack_disconnect (r.keyed k), State.spares, hrun, decide_eq_true_iff]
  · have hsome : ∀ ch, (r.scheduler.run (r.state k).core ch e.now
        (.sendFailed number w pj)).isSome = true := by
      intro ch
      simp only [Scheduler.run]
      split <;> rfl
    obtain ⟨ch, next, hran⟩ := State.exists_ran hnow hrun hsome
    refine ⟨hran.sender_sendFailed, ?_⟩
    intro j hsent
    rw [hran.takesBack_sendFailed, State.spares, hrun, Bool.or_eq_true, decide_eq_true_iff]
    refine or_iff_left_of_imp ?_
    rintro hforce rfl
    rw [SchedulerRun.not_inForce h₁ h₂ h₁₂ hk hlisted hsent] at hforce
    cases hforce

/-- The worker connects by stream 1 and by stream 2; a job is sent on stream 2 and reported
there; then stream 1 ends. -/
def Sample.inOrderRun : SchedulerRun where
  events := hello ++ [start 1 2 (.connectWorker 2 worker), go 1 2, go 1 2, go 1 2] ++ lease ++
    [go 1 1, start 2 3 (.report 2 { jobId := "j" }), go 2 3, start 3 4 (.disconnectWorker 1),
      go 3 4]

open Sample

theorem reconnect_supersedes_sample : .sent 2 job ∈ (inOrderRun.state 17).core.history ∧
    (inOrderRun.state 17).core.inner.connected.sender worker = some 2 ∧
    (inOrderRun.state 18).core.inner.connected.sender worker = none ∧
    ¬ (inOrderRun.state 17).core.TakesBack (inOrderRun.state 18).core job := by
  have hsent : .sent 2 job ∈ (inOrderRun.state 17).core.history := by decide +kernel
  have h₁ : inOrderRun.Runs 1 (.connect worker 1) := ⟨_, rfl, by decide +kernel, by rfl⟩
  have h₂ : inOrderRun.Runs 5 (.connect worker 2) := ⟨_, rfl, by decide +kernel, by rfl⟩
  have hends : (inOrderRun.state 17).endsOn (go 3 4) = some 1 := by decide +kernel
  obtain ⟨hgone, hjobs⟩ := reconnect_supersedes inOrderRun h₁ h₂ (by decide) (by decide) rfl
    (by decide +kernel) hends
  exact ⟨hsent, by decide +kernel, hgone, (hjobs job hsent).1 (by decide +kernel)⟩

/-- The worker connects by stream 1 and by stream 2, and a job is sent on stream 2; then
stream 1 ends. -/
def Sample.reconnectedRun : SchedulerRun where
  events := hello ++ [start 1 2 (.connectWorker 2 worker), go 1 2, go 1 2, go 1 2] ++ lease ++
    [go 1 1, start 2 3 (.disconnectWorker 1), go 2 3]

/-- **The old stream takes the new one down**: its cleanup removes the connection by the new
stream and requeues the job that was sent on it. -/
theorem cleanup_hits_new_stream : (reconnectedRun.state 15).endsOn (go 2 3) = some 1 ∧
    (reconnectedRun.state 15).core.inner.connected.sender worker = some 2 ∧
    .sent 2 job ∈ (reconnectedRun.state 15).core.history ∧
    (reconnectedRun.state 15).core.inner.queued job = 0 ∧
    (reconnectedRun.state 16).core.inner.connected.sender worker = none ∧
    (reconnectedRun.state 16).core.inner.queued job = 1 := by
  decide +kernel

end Brokkr.Control
