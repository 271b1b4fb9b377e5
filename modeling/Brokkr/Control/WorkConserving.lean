import Brokkr.Control.Runs

/-!
# No idle worker while there is work for it

After every call a pending job should have no worker that is eligible, connected and
without a lease: whatever queues a job or frees a worker is followed by a dispatch
pass, and a pass goes on until nothing can be placed.

* `Inner.WorkConserving` — no pending job could be placed.
* `Scheduler.place_eq_none` — a policy that abides by its contract ends the pass only
  then; `Scheduler.pass_ends` — the pass does end.
* `work_conserving` — in every run in which no lease ends without a pass after it, every
  quiet state is work conserving.  Calls need not be sequential for this.
* `idle_after_timeout` — a run without that condition: a caller times out, which ends the
  lease of its job, and nobody looks at the queue.
-/

namespace Brokkr.Control

open Option

open List

variable {eligible : Platform → WorkerId → Prop} {c : Core} {now : Instant} {policy : ℕ}
  {seg : Segment} {rest : List Segment}

/-- No pending job has an eligible, connected worker that holds no lease. -/
def Inner.WorkConserving (inner : Inner) (eligible : Platform → WorkerId → Prop) : Prop :=
  ∀ entry ∈ inner.pending.entries, ∀ w, eligible entry.job.platform w →
    inner.connected.isConnected w = true → inner.leases.isWorkerBusy w = true

theorem LeaseTable.isWorkerBusy_mono {P : Type} {t t' : LeaseTable P} {w : WorkerId}
    (h : ∀ j l, t.get? j = some l → ∃ l', t'.get? j = some l' ∧ l'.workerId = l.workerId)
    (hw : t.isWorkerBusy w = true) : t'.isWorkerBusy w = true := by
  obtain ⟨j, l, hl, hlw⟩ := isWorkerBusy_iff.1 hw
  obtain ⟨l', hl', heq⟩ := h j l hl
  exact isWorkerBusy_iff.2 ⟨j, l', hl', heq.trans hlw⟩

theorem Inner.WorkConserving.mono {inner inner' : Inner} (h : inner.WorkConserving eligible)
    (hp : ∀ entry ∈ inner'.pending.entries, entry ∈ inner.pending.entries)
    (hc : inner'.connected = inner.connected) (hl : ∀ j l, inner.leases.get? j = some l →
      ∃ l', inner'.leases.get? j = some l' ∧ l'.workerId = l.workerId) :
    inner'.WorkConserving eligible := by
  intro entry hentry w hw hconn
  rw [hc] at hconn
  exact LeaseTable.isWorkerBusy_mono hl (h entry (hp entry hentry) w hw hconn)

/-! ## The end of a pass -/

/-- **A pass ends only when nothing can be placed**, if the policy chooses whenever it can. -/
theorem Scheduler.place_eq_none {sch : Scheduler} (hstrategy : sch.strategy.Abides)
    (h : sch.place c now policy = none) {entry : Entry PendingJob}
    (hentry : entry ∈ c.inner.pending.entries) :
    c.candidates now entry.job.platform = [] := by
  cases hbest : c.bestSlot now with
  | none =>
    obtain ⟨i, hi⟩ := mem_iff_getElem?.1 hentry
    have hslot : (⟨i, entry.start, entry.job⟩ : Slot PendingJob) ∈ c.inner.pending.slots :=
      mem_map.2 ⟨(entry, i), mem_zipIdx_iff_getElem?.2 hi, rfl⟩
    exact (Core.scan_none hbest).2 _ hslot
  | some best =>
    -- with a best slot every later choice succeeds
    obtain ⟨idx, cs, start⟩ := best
    obtain ⟨e, hget, hcs, hne⟩ := Core.bestSlot_some hbest
    have hsorted : cs.insertionSort (· ≤ ·) ≠ [] := by
      intro hnil
      have hperm := perm_insertionSort (· ≤ ·) cs
      rw [hnil] at hperm
      exact hne hperm.nil_eq.symm
    have hwinner : c.inner.pending.get idx = some ⟨idx, e.start, e.job⟩ := by
      rw [FairQueue.get, hget]
      rfl
    have htake : (c.inner.pending.take idx).2 = some e.job := by
      rw [FairQueue.take, hget]
    simp only [place, hbest, hwinner, bind_eq_bind, bind_some] at h
    rw [bind_eq_none_iff] at h
    obtain ⟨w, hw⟩ := isSome_iff_exists.1 (hstrategy.some hsorted)
    have hmem : w ∈ c.candidates now e.job.platform := by
      rw [← hcs]
      exact (perm_insertionSort _ cs).mem_iff.1 (hstrategy.mem hw)
    obtain ⟨tx, htx⟩ := ConnectedWorkers.isConnected_iff.1 (Core.mem_candidates.1 hmem).2.1
    have hnone := h w hw
    rw [htx, bind_some, htake, bind_some] at hnone
    cases hnone

/-- The worker is eligible for the platform: the relation is the same at every dispatch. -/
def SchedulerRun.FixedEligibility (r : SchedulerRun) (eligible : Platform → WorkerId → Prop) :
    Prop :=
  ∀ k e read, r.events[k]? = some e → (r.state k).running e = some (.select read) →
    ∀ platform w, (r.state k).core.isEligible read platform w = true ↔ eligible platform w

theorem SchedulerRun.fixedEligibility_of_none {r : SchedulerRun}
    (h : ∀ k < r.events.length, (r.state k).core.registry.isNone = true) :
    r.FixedEligibility fun _ _ => True := by
  intro k e read he _ platform w
  obtain ⟨hk, -⟩ := List.getElem?_eq_some_iff.1 he
  simp [Core.isEligible, isNone_iff_eq_none.1 (h k hk)]

theorem Scheduler.workConserving_of_place {sch : Scheduler} (hstrategy : sch.strategy.Abides)
    (hfixed : ∀ platform w, c.isEligible now platform w = true ↔ eligible platform w)
    (h : sch.place c now policy = none) : c.inner.WorkConserving eligible := by
  intro entry hentry w hw hconn
  have hnil := Scheduler.place_eq_none hstrategy h hentry
  cases hbusy : c.inner.leases.isWorkerBusy w with
  | true => rfl
  | false =>
    have hmem : w ∈ c.candidates now entry.job.platform :=
      Core.mem_candidates.2 ⟨(hfixed _ w).2 hw, hconn, hbusy⟩
    rw [hnil] at hmem
    cases hmem

/-! ## A pass ends -/

/-- A call runs on its own; the inputs are what its segments find, and when. -/
def Scheduler.runAlone (sch : Scheduler) :
    List (Choice × Instant) → Core × List Segment → Core × List Segment
  | [], x => x
  | _ :: _, (c, []) => (c, [])
  | i :: inputs, (c, seg :: rest) =>
    match sch.run c i.1 i.2 seg with
    | none => runAlone sch inputs (c, seg :: rest)
    | some (c', next) => runAlone sch inputs (c', next ++ rest)

/-- How long a pass can go on: it places a queued job, or loses a worker, at every turn. -/
def Inner.passBound (inner : Inner) : ℕ :=
  inner.pending.entries.length + inner.connected.workers.toList.length

theorem ConnectedWorkers.length_disconnect {c : ConnectedWorkers} {w : WorkerId} {tx : StreamId}
    (h : c.sender w = some tx) :
    (c.disconnect w).workers.toList.length + 1 = c.workers.toList.length := by
  obtain ⟨conn, hconn, -⟩ := map_eq_some_iff.1 h
  have hperm := (OrdMap.toList_perm hconn).length_eq
  exact hperm.symm

theorem Scheduler.place_passBound {sch : Scheduler} {p : Placed}
    (h : sch.place c now policy = some p) :
    p.inner.pending.entries.length + 1 = c.inner.pending.entries.length ∧
      p.inner.connected = c.inner.connected ∧
      c.inner.connected.sender p.worker = some p.tx := by
  obtain ⟨e, pending, _, _, hperm, -, hsender, -, -, hinner⟩ := place_spec h
  have hlength := hperm.length_eq
  rw [hinner]
  exact ⟨hlength, rfl, hsender⟩

namespace Scheduler

variable (sch : Scheduler)

theorem runAlone_append (used left : List (Choice × Instant)) (x : Core × List Segment) :
    sch.runAlone (used ++ left) x = sch.runAlone left (sch.runAlone used x) := by
  induction used generalizing x with
  | nil => rfl
  | cons i used ih =>
    obtain ⟨c, code⟩ := x
    cases code with
    | nil =>
      cases left with
      | nil => rw [append_nil, runAlone]
      | cons => rfl
    | cons seg =>
      rw [cons_append, runAlone, runAlone]
      cases sch.run c i.1 i.2 seg with
      | none => exact ih _
      | some => exact ih _

theorem pass_turn (rest : List Segment) (c : Core) (i₁ i₂ i₃ i₄ i₅ : Choice × Instant) :
    ∃ used left c', [i₁, i₂, i₃, i₄, i₅] = used ++ left ∧
      (sch.runAlone used (c, .dispatch :: rest) = (c', rest) ∨
        sch.runAlone used (c, .dispatch :: rest) = (c', .dispatch :: rest) ∧
          c'.inner.passBound < c.inner.passBound) := by
  cases hplace : sch.place c i₁.2 i₂.1.policy with
  | none =>
    refine ⟨[i₁, i₂], [i₃, i₄, i₅], c, rfl, .inl ?_⟩
    simp [runAlone, run, hplace]
  | some p =>
    obtain ⟨hpending, hconnected, hsender⟩ := place_passBound hplace
    have hdrop := ConnectedWorkers.length_disconnect hsender
    cases hsent : i₃.1.sent with
    | true =>
      refine ⟨[i₁, i₂, i₃], [i₄, i₅], (c.afterPlace p).mark (.sent p.tx p.pj.jobId), rfl,
        .inr ⟨?_, ?_⟩⟩
      · simp [runAlone, run, hplace, hsent, Core.afterPlace]
      show p.inner.passBound < _
      rw [Inner.passBound, Inner.passBound, hconnected]
      omega
    | false =>
      -- the worker is dropped, which outweighs that its job may be queued again
      by_cases hmax : maxAttempts ≤ p.pj.attempts + 1
      · refine ⟨[i₁, i₂, i₃, i₄, i₅], [], { c.afterPlace p with
            inner := p.inner.unplace p.worker p.pj.jobId
            waiters := c.waiters.erase p.pj.jobId
            history := .gaveUp p.pj.jobId :: (c.afterPlace p).history }, rfl, .inr ⟨?_, ?_⟩⟩
        · simp [runAlone, run, hplace, hsent, hmax, Core.afterPlace, Inner.unplace]
        · rw [Inner.passBound, Inner.passBound, Inner.unplace, hconnected]
          simp only
          omega
      · refine ⟨[i₁, i₂, i₃, i₄], [i₅], { c.afterPlace p with
            inner := { p.inner.unplace p.worker p.pj.jobId with
              pending := p.inner.pending.push p.pj.tenant p.pj.retried } }, rfl,
          .inr ⟨?_, ?_⟩⟩
        · simp [runAlone, run, hplace, hsent, hmax, Core.afterPlace, Inner.unplace,
            PendingJob.retried]
        · simp only [Inner.passBound, Inner.unplace, hconnected, FairQueue.push_entries,
            length_append, length_singleton]
          omega

/-- **A dispatch pass ends**, whatever its sends come to: given enough turns, what is left
of the call is what comes after the pass. -/
theorem pass_ends (rest : List Segment) (c : Core) (inputs : List (Choice × Instant))
    (hlength : 5 * (c.inner.passBound + 1) ≤ inputs.length) :
    ∃ used left c', inputs = used ++ left ∧
      sch.runAlone used (c, .dispatch :: rest) = (c', rest) := by
  induction hm : c.inner.passBound using Nat.strong_induction_on generalizing c inputs with
  | _ m ih =>
    match inputs, hlength with
    | i₁ :: i₂ :: i₃ :: i₄ :: i₅ :: inputs, hlength =>
      obtain ⟨used, left, c', hsplit, hend | ⟨hturn, hless⟩⟩ := sch.pass_turn rest c i₁ i₂ i₃ i₄ i₅
      · exact ⟨used, left ++ inputs, c', by rw [← append_assoc, ← hsplit]; rfl, hend⟩
      have henough : 5 * (c'.inner.passBound + 1) ≤ (left ++ inputs).length := by
        simp only [length_cons, length_append] at hlength ⊢
        omega
      obtain ⟨used', left', c'', hsplit', hend⟩ :=
        ih c'.inner.passBound (hm ▸ hless) c' (left ++ inputs) henough rfl
      refine ⟨used ++ used', left', c'', ?_, ?_⟩
      · rw [append_assoc, ← hsplit', ← append_assoc, ← hsplit]
        rfl
      · rw [runAlone_append, hturn, hend]

end Scheduler

/-! ## What a call still owes -/

namespace Segment

/-- The segment belongs to a dispatch pass. -/
def dispatches : Segment → Bool
  | .dispatch | .select _ | .send .. | .sendFailed .. => true
  | _ => false

/-- After this segment an `execute` call makes no further pass than the one that follows
its admission. -/
def waits : Segment → Bool
  | .admission .. | .startWait .. | .awaitResult .. => true
  | _ => false

/-- The segment connects a worker. -/
def isConnect : Segment → Bool
  | .connect .. => true
  | _ => false

end Segment

/-- A call that connects a worker dispatches afterwards, and a call that waits for its
result does not. -/
def inOrder : List Segment → Bool
  | [] => true
  | seg :: rest =>
    (!seg.waits || rest.all fun x => !x.dispatches) &&
      (!seg.isConnect || rest.any Segment.dispatches) && inOrder rest

theorem inOrder_cons :
    inOrder (seg :: rest) = true ↔ (seg.waits = true → ∀ x ∈ rest, x.dispatches = false) ∧
        (seg.isConnect = true → ∃ x ∈ rest, x.dispatches = true) ∧ inOrder rest = true := by
  rw [inOrder, Bool.and_eq_true, Bool.and_eq_true, and_assoc]
  cases seg.waits <;> cases seg.isConnect <;> simp

theorem inOrder_append (next : List Segment) (hrest : inOrder rest = true)
    (hnext : ∀ x ∈ next, x.waits = false ∧ x.isConnect = false) :
    inOrder (next ++ rest) = true := by
  induction next with
  | nil => exact hrest
  | cons x next ih =>
    obtain ⟨hx, hnext⟩ := forall_mem_cons.1 hnext
    refine inOrder_cons.2 ⟨?_, ?_, ih hnext⟩
    · intro hw
      rw [hx.1] at hw
      cases hw
    intro hc
    rw [hx.2] at hc
    cases hc

theorem Ran.inOrder {sch : Scheduler} {c' : Core} {ch : Choice} {next : List Segment}
    (h : Ran sch c ch now seg c' next) (hcode : Control.inOrder (seg :: rest) = true) :
    Control.inOrder (next ++ rest) = true := by
  obtain ⟨hwaits, -, hrest⟩ := inOrder_cons.1 hcode
  cases seg with
  | admission =>
    cases h with
    | rejected => exact inOrder_append _ hrest (forall_mem_singleton.2 ⟨rfl, rfl⟩)
    | admitted =>
      have hnone := hwaits rfl
      refine inOrder_append [.dispatch] ?_ (forall_mem_singleton.2 ⟨rfl, rfl⟩)
      refine inOrder_cons.2 ⟨?_, Bool.noConfusion, ?_⟩
      · intro _ x hx
        rcases mem_cons.1 hx with rfl | hx
        · rfl
        · exact hnone x hx
      · exact inOrder_append [.release _ _] hrest (forall_mem_singleton.2 ⟨rfl, rfl⟩)
  | startWait =>
    cases h
    exact inOrder_cons.2 ⟨fun _ => hwaits rfl, Bool.noConfusion, hrest⟩
  | _ => exact inOrder_append _ hrest fun x hx => by cases h.follows x hx <;> exact ⟨rfl, rfl⟩

variable (s : State)

/-- Every call in progress is in order. -/
def State.InOrder : Prop := ∀ task t, s.tasks.get? task = some t → inOrder t.code = true

variable (r : SchedulerRun)

theorem SchedulerRun.inOrder (k : ℕ) : (r.state k).InOrder := by
  refine r.induction ?_ ?_ k
  · intro task t h
    cases h
  intro k e he h s' hs
  cases hs with
  | idle => exact h
  | @started task call s₁ code hfree hbegun =>
    intro task' t' ht'
    rcases OrdMap.of_get?_insert ht' with ⟨-, rfl⟩ | ⟨-, hget⟩
    · cases hbegun <;> rfl
    · exact h task' t' hget
  | ran hmove htask hcode hran =>
    intro task' t' ht'
    rcases State.get?_advance ht' with rfl | ht'
    · exact hran.inOrder (hcode ▸ h _ _ htask)
    · exact h task' t' ht'

/-! ## Every quiet state -/

/-- Every call in progress is an `execute` call that waits for its result. -/
def State.quiet : Bool :=
  s.tasks.toList.all fun p =>
    match p.2.code with
    | .awaitResult .. :: _ => true
    | _ => false

/-- No lease ends without a dispatch pass after it: a caller that timed out withdraws a job
that is not leased, and the reaper that takes leases away requeues one of the jobs. -/
def Core.passFollows (c : Core) : Segment → Bool
  | .cancel job _ => !c.inner.leases.contains job
  | .takeExpired read =>
    (c.inner.leases.takeExpired read).2.isEmpty ||
      (c.inner.leases.takeExpired read).2.any fun q => decide (q.2.attempts + 1 < maxAttempts)
  | _ => true

/-- No lease ends at this step without a dispatch pass after it. -/
def passesFollow (e : Event) : Bool := (s.running e).all s.core.passFollows

/-- **One segment** keeps work conserving, or brings a dispatch pass. -/
theorem Ran.workConserving {sch : Scheduler} {c' : Core} {ch : Choice} {next : List Segment}
    (hstrategy : sch.strategy.Abides) (h : Ran sch c ch now seg c' next)
    (hcond : c.passFollows seg = true) (hfixed : ∀ read, seg = .select read →
      ∀ platform w, c.isEligible read platform w = true ↔ eligible platform w)
    (hc : seg.dispatches = true ∨ seg.isConnect = false ∧ c.inner.WorkConserving eligible) :
    (∃ x ∈ next, x.dispatches = true) ∨ c'.inner.WorkConserving eligible := by
  have hkeep : seg.dispatches = false → c.inner.WorkConserving eligible := by
    intro hno
    rcases hc with hyes | ⟨-, hc⟩
    · rw [hno] at hyes
      cases hyes
    · exact hc
  cases h with
  | admitted => exact .inl ⟨.dispatch, mem_cons_self, rfl⟩
  | dispatch => exact .inl ⟨.select now, mem_cons_self, rfl⟩
  | nothing hnone => exact .inr (Scheduler.workConserving_of_place hstrategy (hfixed _ rfl) hnone)
  | placed => exact .inl ⟨_, mem_cons_self, rfl⟩
  | sent => exact .inl ⟨.dispatch, mem_cons_self, rfl⟩
  | unsent => exact .inl ⟨_, mem_cons_self, rfl⟩
  | gaveUp => exact .inl ⟨.dispatch, by simp, rfl⟩
  | requeued => exact .inl ⟨.dispatch, mem_cons_self, rfl⟩
  | disconnect => exact .inl ⟨.dispatch, by simp, rfl⟩
  | accepted => exact .inl ⟨.dispatch, by simp, rfl⟩
  | cancel job =>
    have hnone : c.inner.leases.get? job = none := by
      rw [Core.passFollows, Bool.not_eq_true'] at hcond
      exact isSome_eq_false_iff.1 hcond |> isNone_iff_eq_none.1
    refine .inr ((hkeep rfl).mono ?_ rfl ?_)
    · intro entry hentry
      exact mem_of_mem_filter hentry
    intro j l hl
    refine ⟨l, ?_, rfl⟩
    show ((c.inner.leases.complete job).1).get? j = some l
    rw [LeaseTable.complete_of_none hnone]
    exact hl
  | @takeExpired read pending requeued giveUp htaken =>
    by_cases hempty : (c.inner.leases.takeExpired read).2 = []
    · -- nothing was taken
      rw [hempty] at htaken
      cases htaken
      refine .inr ((hkeep rfl).mono (fun _ h => h) rfl ?_)
      intro j l hl
      refine ⟨l, ?_, rfl⟩
      show (c.inner.leases.takeExpired read).1.get? j = some l
      rw [LeaseTable.get?_takeExpired, hl, filter_some, if_pos]
      rw [Bool.not_eq_true', decide_eq_false_iff_not]
      intro hdue
      have hmem : (j, l.payload) ∈ (c.inner.leases.takeExpired read).2 :=
        (LeaseTable.mem_takeWhere _ _).2 ⟨l, hl, decide_eq_true hdue, rfl⟩
      rw [hempty] at hmem
      cases hmem
    · -- something was requeued
      obtain ⟨-, -, -, -, hn⟩ := Inner.requeueTaken_spec htaken
      rw [Core.passFollows, Bool.or_eq_true, List.isEmpty_iff] at hcond
      obtain ⟨q, hq, hlt⟩ := any_eq_true.1 (hcond.resolve_left hempty)
      have hpos : 0 < requeued := by
        rw [hn, length_pos_iff_exists_mem]
        exact ⟨q, mem_filter.2 ⟨hq, hlt⟩⟩
      exact .inl ⟨.dispatch, by simp [hpos], rfl⟩
  | renew worker deadline =>
    refine .inr ((hkeep rfl).mono (fun _ h => h) rfl ?_)
    intro j l hl
    rw [LeaseTable.get?_renewWorker, hl, map_some]
    refine ⟨_, rfl, ?_⟩
    by_cases hw : l.workerId = worker
    · rw [if_pos hw]
    · rw [if_neg hw]
  | release => exact .inr ((hkeep rfl).mono (fun _ h => h) rfl fun j l hl => ⟨l, hl, rfl⟩)
  | connect =>
    rcases hc with hno | ⟨hno, -⟩
    · cases hno
    · cases hno
  | _ => exact .inr (hkeep rfl)

/-- Work is conserved, or a dispatch pass is on its way. -/
def State.Attended (eligible : Platform → WorkerId → Prop) : Prop :=
  (∃ x ∈ s.segments, x.dispatches = true) ∨ s.core.inner.WorkConserving eligible

/-- **One event** keeps this. -/
theorem State.Attended.step {sch : Scheduler} {s s' : State} {e : Event} (h : s.Attended eligible)
    (hcodes : s.InOrder) (hstrategy : sch.strategy.Abides) (hcond : passesFollow s e = true)
    (hfixed : ∀ read, s.running e = some (.select read) →
      ∀ platform w, s.core.isEligible read platform w = true ↔ eligible platform w)
    (hs : Stepped sch s e s') : s'.Attended eligible := by
  cases hs with
  | idle => exact h
  | started hfree hbegun =>
    rcases h with ⟨x, hx, hdisp⟩ | hwork
    · exact .inl ⟨x, (State.segments_enter hfree).mem_iff.2 (mem_append_right _ hx), hdisp⟩
    · exact .inr hwork
  | @ran task t ch seg rest core next hmove htask hcode hran =>
    have hrunning := Stepped.running_eq hmove htask hcode
    rw [passesFollow, hrunning] at hcond
    obtain ⟨others, hbefore, hafter⟩ := State.segments_advance htask hcode e.now core next
    by_cases hothers : ∃ x ∈ others, x.dispatches = true
    · obtain ⟨x, hx, hdisp⟩ := hothers
      exact .inl ⟨x, hafter.mem_iff.2 (mem_append_right _ hx), hdisp⟩
    have hc : seg.dispatches = true ∨
        seg.isConnect = false ∧ s.core.inner.WorkConserving eligible := by
      cases hdisp : seg.dispatches with
      | true => exact .inl rfl
      | false =>
        have hnone : ∀ x ∈ s.segments, x.dispatches = false := by
          intro x hx
          rcases mem_cons.1 (hbefore.mem_iff.1 hx) with rfl | hx
          · exact hdisp
          · exact Bool.not_eq_true _ ▸ fun htrue => hothers ⟨x, hx, htrue⟩
        refine .inr ⟨?_, ?_⟩
        · cases hconn : seg.isConnect with
          | false => rfl
          | true =>
            have hcode' := hcodes task t htask
            rw [hcode] at hcode'
            obtain ⟨x, hx, htrue⟩ := (inOrder_cons.1 hcode').2.1 hconn
            have hmem : x ∈ s.segments := State.mem_segments.2
              ⟨task, t, htask, by rw [hcode]; exact mem_cons_of_mem _ hx⟩
            rw [hnone x hmem] at htrue
            cases htrue
        · rcases h with ⟨x, hx, htrue⟩ | hwork
          · rw [hnone x hx] at htrue
            cases htrue
          · exact hwork
    rcases hran.workConserving hstrategy hcond
      (fun read hread => hfixed read (hread ▸ hrunning)) hc with ⟨x, hx, hdisp⟩ | hwork
    · exact .inl ⟨x, hafter.mem_iff.2 (mem_append_left _ hx), hdisp⟩
    · exact .inr hwork

theorem SchedulerRun.attended (hstrategy : r.scheduler.strategy.Abides)
    (hfixed : r.FixedEligibility eligible) (hcond : r.Meets passesFollow) (k : ℕ) :
    (r.state k).Attended eligible := by
  refine r.induction (M := fun s => s.Attended eligible) ?_ ?_ k
  · refine .inr ?_
    intro entry hentry
    cases hentry
  · intro k e he h s' hs
    exact h.step (r.inOrder k) hstrategy (hcond k e he) (fun read => hfixed k e read he) hs

theorem State.InOrder.not_dispatching {s : State} (h : s.InOrder) (hquiet : s.quiet = true) :
    ∀ x ∈ s.segments, x.dispatches = false := by
  intro x hx
  obtain ⟨task, t, htask, hmem⟩ := State.mem_segments.1 hx
  have hwaits := all_eq_true.1 hquiet (task, t) (OrdMap.get?_eq_some.1 htask)
  split at hwaits
  · rename_i job timeout deadline rest hcode
    rw [hcode] at hmem
    rcases mem_cons.1 hmem with rfl | hmem
    · rfl
    have horder := h task t htask
    rw [hcode] at horder
    exact (inOrder_cons.1 horder).1 rfl x hmem
  · cases hwaits

/-- **Work conservation.**  With a policy that abides by its contract and a fixed
eligibility relation, in every run in which no lease ends without a dispatch pass after
it, no pending job of a quiet state has an eligible, connected worker without a lease. -/
theorem work_conserving (eligible : Platform → WorkerId → Prop)
    (hstrategy : r.scheduler.strategy.Abides) (hfixed : r.FixedEligibility eligible)
    (hcond : r.Meets passesFollow) (k : ℕ) (hquiet : (r.state k).quiet = true) :
    (r.state k).core.inner.WorkConserving eligible := by
  rcases r.attended hstrategy hfixed hcond k with ⟨x, hx, hdisp⟩ | hwork
  · rw [(r.inOrder k).not_dispatching hquiet x hx] at hdisp
    cases hdisp
  · exact hwork

/-- Two calls are admitted one after the other; the worker gets the first job. -/
def Sample.queuedRun : SchedulerRun where
  events := hello ++ lease ++
    [go 1 1, go 1 1, go 1 1, go 1 1, start 2 2 (execute second), go 2 2, go 2 2, go 2 2, go 2 2,
      go 2 2]

open Sample

theorem work_conserving_sample : (queuedRun.state 19).core.inner.pending.entries.length = 1 ∧
      (queuedRun.state 19).core.inner.WorkConserving fun _ _ => True := by
  have hcond : queuedRun.Meets passesFollow :=
    queuedRun.meets_of_lt (by decide +kernel)
  have hfixed : queuedRun.FixedEligibility fun _ _ => True :=
    SchedulerRun.fixedEligibility_of_none (by decide +kernel)
  exact ⟨by decide +kernel, work_conserving queuedRun _ simpleFifo_abides hfixed hcond 19
    (by decide +kernel)⟩

theorem pass_ends_sample : ∃ used left c', replicate 15 ({}, 20) = used ++ left ∧
    queuedRun.scheduler.runAlone used ((queuedRun.state 19).core, [.dispatch]) = (c', []) :=
  queuedRun.scheduler.pass_ends [] _ _ (by decide +kernel)

/-- The call of the leased job times out while the second job is queued. -/
def Sample.idleRun : SchedulerRun where
  events := hello ++
    [start 1 1 (execute job (some 10)), go 1 1, go 1 1, go 1 1, go 1 1, go 1 1, go 1 1, go 1 1,
      go 1 1, start 2 2 (execute second), go 2 2, go 2 2, go 2 2, go 2 2, go 2 2,
      go 12 1 { timeout := true }, go 12 1, go 12 1, go 12 1]

/-- **A worker stays idle while a job waits for it.**  The worker connects, two calls are
admitted and the first one returns, each run to completion; then the second job is queued,
and the worker is connected and holds no lease. -/
theorem idle_after_timeout :
    idleRun.FixedEligibility (fun _ _ => True) ∧
      (∀ k ∈ [4, 13, 19, 23], (idleRun.state k).quiet = true) ∧
      ¬ (idleRun.state 23).core.inner.WorkConserving fun _ _ => True := by
  obtain ⟨hquiet, hqueued, hconnected, hfree⟩ :
      (∀ k ∈ [4, 13, 19, 23], (idleRun.state k).quiet = true) ∧
      0 < (idleRun.state 23).core.inner.pending.entries.length ∧
      (idleRun.state 23).core.inner.connected.isConnected worker = true ∧
      (idleRun.state 23).core.inner.leases.isWorkerBusy worker = false := by
    decide +kernel
  refine ⟨SchedulerRun.fixedEligibility_of_none (by decide +kernel), hquiet, ?_⟩
  intro h
  obtain ⟨entry, hentry⟩ := exists_mem_of_length_pos hqueued
  have hbusy := h entry hentry worker trivial hconnected
  rw [hfree] at hbusy
  cases hbusy

end Brokkr.Control
