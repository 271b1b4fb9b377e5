import Brokkr.Control.Runs

/-!
# Streams, leases and placements

How the worker streams, the lease table and what is on its way to a worker belong
together, in every run.

* `Wired` — a worker is connected, and its leases are placed, on streams of its own,
  and a stream is connected once.
* `Numbered` — each placement is sent, or taken back, once.
* `Core.SingleLease` — with a policy that chooses among the candidates, a worker holds
  at most one lease.
-/

namespace Brokkr.Control

open List

variable {stream : StreamId} {task : ℕ} {ch : Choice} {seg : Segment} {next : List Segment}
  {sch : Scheduler} {c : Core} {now : Instant}

/-! ## Streams -/

/-- The worker that said `Hello` on a stream. -/
def State.workerOn (s : State) (stream : StreamId) : Option WorkerId :=
  (s.streams.get? stream).map WorkerStream.worker

/-- The stream was given to the scheduler: a worker is connected by it, or a job was placed
on it. -/
def Core.Linked (c : Core) (stream : StreamId) : Prop :=
  (∃ w, c.inner.connected.sender w = some stream) ∨ ∃ j w, .placed j w stream ∈ c.history

/-- The segment connects a worker by the stream. -/
def Segment.connects (stream : StreamId) : Segment → Bool
  | .connect _ tx => decide (tx = stream)
  | _ => false

namespace Ran

variable {c' : Core}

variable (h : Ran sch c ch now seg c' next)

include h

theorem sender {w : WorkerId}
    (hw : c'.inner.connected.sender w = some stream) :
    c.inner.connected.sender w = some stream ∨ seg = .connect w stream := by
  have hdrop : ∀ worker, (c.inner.connected.disconnect worker).sender w = some stream →
      c.inner.connected.sender w = some stream := by
    intro worker hw
    rw [ConnectedWorkers.sender_disconnect] at hw
    split at hw
    · cases hw
    · exact hw
  cases h with
  | placed hsome =>
    rw [Core.connected_afterPlace hsome] at hw
    exact .inl hw
  | gaveUp | requeued | disconnect => exact .inl (hdrop _ hw)
  | connect worker tx =>
    have hsender : (c.inner.connected.connect worker tx).sender w = some stream := hw
    rw [ConnectedWorkers.sender_connect] at hsender
    split at hsender
    · rename_i heq
      cases hsender
      exact .inr (by rw [heq])
    · exact .inl hsender
  | _ => exact .inl hw

theorem placed_mem {j : JobId} {w : WorkerId}
    (hm : .placed j w stream ∈ c'.history) :
    .placed j w stream ∈ c.history ∨ c.inner.connected.sender w = some stream := by
  rcases h.mark_mem hm with hm | hleft
  · exact .inl hm
  cases hleft with
  | placed hsome => exact .inr (Scheduler.place_sender hsome)

theorem linked (hl : c'.Linked stream) :
    c.Linked stream ∨ ∃ w, seg = .connect w stream := by
  rcases hl with ⟨w, hw⟩ | ⟨j, w, hm⟩
  · rcases h.sender hw with hw | hseg
    · exact .inl (.inl ⟨w, hw⟩)
    · exact .inr ⟨w, hseg⟩
  rcases h.placed_mem hm with hm | hw
  · exact .inl (.inr ⟨j, w, hm⟩)
  · exact .inl (.inl ⟨w, hw⟩)

theorem follow : ∀ x ∈ next,
    (∀ stream, x.connects stream = false) ∧ ∀ number w stream pj, x = .send number w stream pj →
        .placed pj.jobId w stream ∈ c'.history := by
  intro x hx
  cases h.follows x hx with
  | send =>
    cases h with
    | nothing => cases hx
    | placed =>
      cases mem_singleton.1 hx
      refine ⟨fun _ => rfl, ?_⟩
      rintro _ _ _ _ ⟨⟩
      exact mem_cons_self
  | _ => exact ⟨fun _ => rfl, by rintro _ _ _ _ ⟨⟩⟩

theorem leases :
    (∃ read p, seg = .select read ∧ sch.place c read ch.policy = some p ∧ c' = c.afterPlace p ∧
      next = [.send c.placementCount p.worker p.tx p.pj]) ∨
      (c'.placements = c.placements ∧ c'.placementCount = c.placementCount ∧
        ∀ j l', c'.inner.leases.get? j = some l' →
          ∃ l, c.inner.leases.get? j = some l ∧ l.workerId = l'.workerId ∧
            l.payload = l'.payload) := by
  have hcomplete : ∀ job j l', (c.inner.leases.complete job).1.get? j = some l' →
      ∃ l, c.inner.leases.get? j = some l ∧ l.workerId = l'.workerId ∧ l.payload = l'.payload := by
    intro job j l' hl
    obtain ⟨-, hl⟩ := LeaseTable.of_get?_complete hl
    exact ⟨l', hl, rfl, rfl⟩
  have htake : ∀ p j l', (c.inner.leases.takeWhere p).1.get? j = some l' →
      ∃ l, c.inner.leases.get? j = some l ∧ l.workerId = l'.workerId ∧ l.payload = l'.payload := by
    intro p j l' hl
    rw [LeaseTable.get?_takeWhere] at hl
    exact ⟨l', (Option.filter_eq_some_iff.1 hl).1, rfl, rfl⟩
  cases h with
  | @placed read p hsome => exact .inl ⟨read, p, rfl, hsome, rfl, rfl⟩
  | gaveUp | requeued | cancel | accepted => exact .inr ⟨rfl, rfl, hcomplete _⟩
  | @disconnect worker => exact .inr ⟨rfl, rfl, htake fun l => decide (l.workerId = worker)⟩
  | @takeExpired read => exact .inr ⟨rfl, rfl, htake fun l => decide (l.deadline ≤ read)⟩
  | renew worker deadline =>
    refine .inr ⟨rfl, rfl, ?_⟩
    intro j l' hl
    have hget : (c.inner.leases.renewWorker worker deadline).get? j = some l' := hl
    rw [LeaseTable.get?_renewWorker] at hget
    obtain ⟨l, hsome, rfl⟩ := Option.map_eq_some_iff.1 hget
    refine ⟨l, hsome, ?_⟩
    split <;> exact ⟨rfl, rfl⟩
  | _ => exact .inr ⟨rfl, rfl, fun j l' hl => ⟨l', hl, rfl, rfl⟩⟩

end Ran

theorem State.connects_advance {s : State} {t : Task} {rest : List Segment} {core : Core}
    (htask : s.tasks.get? task = some t) (hcode : t.code = seg :: rest)
    (hran : Ran sch s.core ch now seg core next) (stream : StreamId) :
    (s.advance now core task t.call (next ++ rest)).segments.countP (Segment.connects stream) +
      (seg.connects stream).toNat = s.segments.countP (Segment.connects stream) := by
  have hnext : next.countP (Segment.connects stream) = 0 :=
    countP_eq_zero.2 fun x hx => by simp [(hran.follow x hx).1 stream]
  rw [State.countP_advance htask hcode, hnext, Nat.zero_add]

/-- How streams, connections, leases and the record belong together. -/
structure Wired (s : State) : Prop where
  sender : ∀ w stream, s.core.inner.connected.sender w = some stream → s.workerOn stream = some w
  connect : ∀ w stream, .connect w stream ∈ s.segments → s.workerOn stream = some w
  placed : ∀ j w stream, .placed j w stream ∈ s.core.history → s.workerOn stream = some w
  lease : ∀ j l, s.core.inner.leases.get? j = some l →
    ∃ p, s.core.placements.get? j = some p ∧ s.workerOn p.stream = some l.workerId
  once : ∀ stream, s.segments.countP (Segment.connects stream) ≤ 1
  fresh : ∀ stream, s.core.Linked stream → s.segments.countP (Segment.connects stream) = 0
  send : ∀ number w stream pj, .send number w stream pj ∈ s.segments →
    .placed pj.jobId w stream ∈ s.core.history
  sent : ∀ stream j, .sent stream j ∈ s.core.history → ∃ w, .placed j w stream ∈ s.core.history

namespace Wired

variable {s s' : State} {e : Event}

theorem init (r : SchedulerRun) : Wired r.init where
  sender w stream h := by cases h
  connect w stream h := by cases h
  placed j w stream h := by cases h
  lease j l h := by cases h
  once stream := Nat.zero_le _
  fresh stream h := rfl
  send number w stream pj h := by cases h
  sent stream j h := by cases h

theorem unused (h : Wired s) (hnone : s.workerOn stream = none) :
    ¬ s.core.Linked stream ∧ s.segments.countP (Segment.connects stream) = 0 := by
  refine ⟨?_, ?_⟩
  · rintro (⟨w, hw⟩ | ⟨j, w, hm⟩)
    · rw [h.sender w stream hw] at hnone
      cases hnone
    · rw [h.placed j w stream hm] at hnone
      cases hnone
  refine countP_eq_zero.2 ?_
  intro seg hseg hconnects
  cases seg with
  | connect w tx =>
    obtain rfl : tx = stream := of_decide_eq_true hconnects
    rw [h.connect w tx hseg] at hnone
    cases hnone
  | _ => cases hconnects

theorem started {call : Call} {s₁ : State} {code : List Segment} (h : Wired s)
    (hfree : s.tasks.get? task = none) (hbegun : Begun sch { s with clock := e.now } call s₁ code)
    (hworker : ∀ stream w, s.workerOn stream = some w → s₁.workerOn stream = some w) :
    Wired (s.enter s₁ task call code) := by
  -- a call that begins brings a connection only on a new stream, and nothing to send
  have hcode : (∀ w stream, .connect w stream ∈ code → s₁.workerOn stream = some w) ∧
      (∀ stream, code.countP (Segment.connects stream) = 0 ∨
        code.countP (Segment.connects stream) = 1 ∧ s.workerOn stream = none) ∧
      ∀ number w stream pj, .send number w stream pj ∉ code := by
    cases hbegun with
    | @connectWorker stream worker hnew =>
      refine ⟨?_, ?_, by simp⟩
      · intro w stream' hmem
        simp only [mem_cons, not_mem_nil, or_false, reduceCtorEq] at hmem
        cases hmem
        show ((s.streams.insert stream { worker := worker }).get? stream).map _ = _
        rw [OrdMap.get?_insert, if_pos rfl]
        rfl
      intro stream'
      by_cases heq : stream = stream'
      · subst heq
        refine .inr ⟨by simp [Segment.connects], ?_⟩
        rw [State.workerOn, show s.streams.get? stream = none from hnew]
        rfl
      · exact .inl (by simp [Segment.connects, heq])
    | _ => exact ⟨by simp, fun _ => .inl (by simp [Segment.connects]), by simp⟩
  obtain ⟨hconnect, hcount, hsend⟩ := hcode
  refine ⟨?_, ?_, ?_, ?_, ?_, ?_, ?_, h.sent⟩
  · intro w stream hw
    exact hworker stream w (h.sender w stream hw)
  · intro w stream hmem
    rcases State.mem_enter hfree hmem with hmem | hmem
    · exact hconnect w stream hmem
    · exact hworker stream w (h.connect w stream hmem)
  · intro j w stream hm
    exact hworker stream w (h.placed j w stream hm)
  · intro j l hl
    obtain ⟨p, hp, hw⟩ := h.lease j l hl
    exact ⟨p, hp, hworker p.stream l.workerId hw⟩
  · intro stream
    rw [State.countP_enter hfree]
    rcases hcount stream with hzero | ⟨hone, hnone⟩
    · rw [hzero, Nat.zero_add]
      exact h.once stream
    · rw [hone, (h.unused hnone).2]
  · intro stream hl
    rw [State.countP_enter hfree]
    rcases hcount stream with hzero | ⟨-, hnone⟩
    · rw [hzero, h.fresh stream hl]
    · exact absurd hl (h.unused hnone).1
  · intro number w stream pj hmem
    rcases State.mem_enter hfree hmem with hmem | hmem
    · exact absurd hmem (hsend number w stream pj)
    · exact h.send number w stream pj hmem

theorem ran {t : Task} {rest : List Segment} {core : Core} (h : Wired s)
    (htask : s.tasks.get? task = some t) (hcode : t.code = seg :: rest)
    (hran : Ran sch s.core ch e.now seg core next) :
    Wired (s.advance e.now core task t.call (next ++ rest)) := by
  have hseg := State.mem_code htask hcode
  have hcount := State.connects_advance htask hcode hran
  refine ⟨?_, ?_, ?_, ?_, ?_, ?_, ?_, ?_⟩
  · intro w stream hw
    rcases hran.sender hw with hw | rfl
    · exact h.sender w stream hw
    · exact h.connect w stream hseg
  · intro w stream hx
    rcases State.mem_advance htask hcode hx with hx | hx
    · have hno := (hran.follow _ hx).1 stream
      simp [Segment.connects] at hno
    · exact h.connect w stream hx
  · intro j w stream hm
    rcases hran.placed_mem hm with hm | hw
    · exact h.placed j w stream hm
    · exact h.sender w stream hw
  · intro j l hl
    rcases hran.leases with ⟨read, p, -, hplace, rfl, -⟩ | ⟨hplacements, -, hleases⟩
    · show ∃ p', (s.core.placements.insert p.pj.jobId ⟨s.core.placementCount, p.tx⟩).get? j =
        some p' ∧ _
      rw [OrdMap.get?_insert]
      rcases Core.of_get?_afterPlace hplace hl with ⟨heq, hw, -⟩ | ⟨hne, hl⟩
      · rw [if_pos heq, hw]
        exact ⟨_, rfl, h.sender p.worker p.tx (Scheduler.place_sender hplace)⟩
      · rw [if_neg hne]
        exact h.lease j l hl
    · obtain ⟨l₀, hl₀, hw, -⟩ := hleases j l hl
      show ∃ p, core.placements.get? j = some p ∧ _
      rw [hplacements, ← hw]
      exact h.lease j l₀ hl₀
  · intro stream
    have := h.once stream
    have := hcount stream
    omega
  · intro stream hl
    have hsum := hcount stream
    have hone := h.once stream
    rcases hran.linked hl with hl | ⟨w, rfl⟩
    · have hzero := h.fresh stream hl
      omega
    have htrue : (Segment.connect w stream).connects stream = true := by simp [Segment.connects]
    rw [htrue, Bool.toNat_true] at hsum
    omega
  · intro number w stream pj hx
    rcases State.mem_advance htask hcode hx with hx | hx
    · exact (hran.follow _ hx).2 number w stream pj rfl
    · exact hran.mark_mono (h.send number w stream pj hx)
  · intro stream j hm
    rcases hran.mark_mem hm with hm | hleft
    · obtain ⟨w, hm⟩ := h.sent stream j hm
      exact ⟨w, hran.mark_mono hm⟩
    · cases hleft with
      | sent number w tx pj => exact ⟨w, hran.mark_mono (h.send number w stream pj hseg)⟩

theorem step (h : Wired s) (hs : Stepped sch s e s') : Wired s' := by
  have hworker : ∀ stream w, s.workerOn stream = some w → s'.workerOn stream = some w :=
    fun _ _ => hs.stream_worker
  cases hs with
  | idle => exact ⟨h.1, h.2, h.3, h.4, h.5, h.6, h.7, h.8⟩
  | started hfree hbegun => exact h.started hfree hbegun hworker
  | ran hmove htask hcode hran => exact h.ran htask hcode hran

end Wired

theorem SchedulerRun.wired (r : SchedulerRun) (k : ℕ) : Wired (r.state k) :=
  r.induction (.init r) (fun _ _ _ h _ hs => h.step hs) k

/-! ## Placements -/

/-- The placement whose job the segment has yet to send, or to take back: its number and
the job. -/
def Segment.unsent? : Segment → Option (ℕ × JobId)
  | .send number _ _ pj => some (number, pj.jobId)
  | .sendFailed number _ pj => some (number, pj.jobId)
  | _ => none

/-- The segment is about the placement of that number. -/
def Segment.isUnsent (number : ℕ) (seg : Segment) : Bool :=
  decide (seg.unsent?.map Prod.fst = some number)

theorem Ran.unsent_cases {c' : Core} (h : Ran sch c ch now seg c' next)
    (hcount : c'.placementCount = c.placementCount) : (∀ x ∈ next, x.unsent? = none) ∨
      ∃ number w tx pj, seg = .send number w tx pj ∧ next = [.sendFailed number w pj] := by
  cases seg with
  | select =>
    cases h with
    | nothing => exact .inl fun _ hx => absurd hx not_mem_nil
    | placed => exact absurd hcount (Nat.succ_ne_self _)
  | send number w tx pj =>
    cases h with
    | sent => exact .inl (forall_mem_singleton.2 rfl)
    | unsent => exact .inr ⟨number, w, tx, pj, rfl, rfl⟩
  | _ => exact .inl fun x hx => by cases h.follows x hx <;> rfl

theorem Begun.unsent_eq_none {s s₁ : State} {call : Call} {code : List Segment}
    (h : Begun sch s call s₁ code) : ∀ x ∈ code, x.unsent? = none := by
  cases h <;> simp [Segment.unsent?]

/-- Placements have numbers of their own. -/
structure Numbered (s : State) : Prop where
  below : ∀ j p, s.core.placements.get? j = some p → p.number < s.core.placementCount
  known : ∀ seg ∈ s.segments, ∀ q, seg.unsent? = some q → q.1 < s.core.placementCount
  once : ∀ number, s.segments.countP (Segment.isUnsent number) ≤ 1
  stream : ∀ number w tx pj, .send number w tx pj ∈ s.segments → ∀ p,
    s.core.placements.get? pj.jobId = some p → p.number = number → p.stream = tx

namespace Numbered

variable {s s' : State} {e : Event}

theorem init (r : SchedulerRun) : Numbered r.init where
  below j p h := by cases h
  known seg h := by cases h
  once number := Nat.zero_le _
  stream number w tx pj h := by cases h

theorem started {call : Call} {s₁ : State} {code : List Segment} (h : Numbered s)
    (hfree : s.tasks.get? task = none) (hbegun : Begun sch { s with clock := e.now } call s₁ code) :
    Numbered (s.enter s₁ task call code) := by
  have hcode := hbegun.unsent_eq_none
  refine ⟨h.below, ?_, ?_, ?_⟩
  · intro seg hmem q hq
    rcases State.mem_enter hfree hmem with hmem | hmem
    · rw [hcode seg hmem] at hq
      cases hq
    · exact h.known seg hmem q hq
  · intro number
    rw [State.countP_enter hfree, countP_eq_zero.2, Nat.zero_add]
    · exact h.once number
    · intro x hx
      simp [Segment.isUnsent, hcode x hx]
  · intro number w tx pj hmem
    rcases State.mem_enter hfree hmem with hmem | hmem
    · cases hcode _ hmem
    · exact h.stream number w tx pj hmem

theorem fresh (h : Numbered s) :
    s.segments.countP (Segment.isUnsent s.core.placementCount) = 0 := by
  refine countP_eq_zero.2 ?_
  intro seg hseg hunsent
  obtain ⟨q, hq, hnumber⟩ := Option.map_eq_some_iff.1 (of_decide_eq_true hunsent)
  exact absurd (h.known seg hseg q hq) (by rw [hnumber]; exact lt_irrefl _)

theorem ran {t : Task} {rest : List Segment} {core : Core} (h : Numbered s)
    (htask : s.tasks.get? task = some t) (hcode : t.code = seg :: rest)
    (hran : Ran sch s.core ch e.now seg core next) :
    Numbered (s.advance e.now core task t.call (next ++ rest)) := by
  obtain ⟨others, hbefore, hafter⟩ := State.segments_advance htask hcode e.now core next
  obtain ⟨hseg, hmem⟩ := cons_subset.1 hbefore.symm.subset
  have hothers : ∀ number, others.countP (Segment.isUnsent number) +
      (seg.isUnsent number).toNat ≤ 1 := by
    intro number
    have honce := h.once number
    rw [hbefore.countP_eq, countP_cons] at honce
    cases hu : seg.isUnsent number <;> rw [hu] at honce <;> simpa using honce
  rcases hran.leases with ⟨read, p, rfl, -, rfl, rfl⟩ | ⟨hplacements, hcount, -⟩
  · -- a new placement, under a new number
    have hold : ∀ x ∈ others, ∀ q, x.unsent? = some q → q.1 < s.core.placementCount :=
      fun x hx => h.known x (hmem hx)
    refine ⟨?_, ?_, ?_, ?_⟩
    · intro j p' hp'
      have hget : (s.core.placements.insert p.pj.jobId ⟨s.core.placementCount, p.tx⟩).get? j =
          some p' := hp'
      rw [OrdMap.get?_insert] at hget
      split at hget
      · cases hget
        exact Nat.lt_succ_self _
      · exact Nat.lt_succ_of_lt (h.below j p' hget)
    · intro x hx q hq
      rcases mem_cons.1 (hafter.mem_iff.1 hx) with rfl | hx
      · cases hq
        exact Nat.lt_succ_self _
      · exact Nat.lt_succ_of_lt (hold x hx q hq)
    · intro number
      rw [hafter.countP_eq, countP_append, countP_singleton]
      by_cases hnumber : s.core.placementCount = number
      · have hzero := h.fresh
        rw [hnumber, hbefore.countP_eq, countP_cons] at hzero
        have : others.countP (Segment.isUnsent number) = 0 := by omega
        split <;> omega
      have hone := hothers number
      have hfalse : Segment.isUnsent number
          (.send s.core.placementCount p.worker p.tx p.pj) = false := by
        simp [Segment.isUnsent, Segment.unsent?, hnumber]
      rw [if_neg (by simp [hfalse])]
      omega
    · intro number w tx pj hx p' hp' hnumber
      have hget : (s.core.placements.insert p.pj.jobId ⟨s.core.placementCount, p.tx⟩).get?
          pj.jobId = some p' := hp'
      rw [OrdMap.get?_insert] at hget
      rcases mem_cons.1 (hafter.mem_iff.1 hx) with heq | hx
      · cases heq
        rw [if_pos rfl] at hget
        cases hget
        rfl
      split at hget
      · cases hget
        have := hold _ hx (number, pj.jobId) rfl
        exact absurd hnumber.symm (ne_of_lt this)
      · exact h.stream number w tx pj (hmem hx) p' hget hnumber
  · have hnext := hran.unsent_cases hcount
    have hfrom : ∀ x ∈ next, ∀ q, x.unsent? = some q → seg.unsent? = some q := by
      intro x hx q hq
      rcases hnext with hnext | ⟨number, w, tx, pj, rfl, rfl⟩
      · rw [hnext x hx] at hq
        cases hq
      · cases mem_singleton.1 hx
        exact hq
    have hle : ∀ number, next.countP (Segment.isUnsent number) ≤ (seg.isUnsent number).toNat := by
      intro number
      rcases hnext with hnext | ⟨_, w, tx, pj, rfl, rfl⟩
      · rw [countP_eq_zero.2]
        · exact Nat.zero_le _
        · intro x hx
          simp [Segment.isUnsent, hnext x hx]
      rw [countP_singleton]
      split
      · rename_i htrue
        rw [show Segment.isUnsent number (.send _ w tx pj) = true from htrue]
        rfl
      · exact Nat.zero_le _
    refine ⟨?_, ?_, ?_, ?_⟩
    · intro j p hp
      show p.number < core.placementCount
      rw [hcount]
      exact h.below j p (hplacements ▸ hp)
    · intro x hx q hq
      show q.1 < core.placementCount
      rw [hcount]
      rcases mem_append.1 (hafter.mem_iff.1 hx) with hx | hx
      · exact h.known seg hseg q (hfrom x hx q hq)
      · exact h.known x (hmem hx) q hq
    · intro number
      rw [hafter.countP_eq, countP_append]
      have := hle number
      have := hothers number
      omega
    · intro number w tx pj hx p hp
      have hget : s.core.placements.get? pj.jobId = some p := hplacements ▸ hp
      rcases mem_append.1 (hafter.mem_iff.1 hx) with hx | hx
      · rcases hnext with hnext | ⟨_, _, _, _, -, rfl⟩
        · cases hnext _ hx
        · cases mem_singleton.1 hx
      · exact h.stream number w tx pj (hmem hx) p hget

theorem step (h : Numbered s) (hs : Stepped sch s e s') : Numbered s' := by
  cases hs with
  | idle => exact ⟨h.1, h.2, h.3, h.4⟩
  | started hfree hbegun => exact h.started hfree hbegun
  | ran hmove htask hcode hran => exact h.ran htask hcode hran

end Numbered

theorem SchedulerRun.numbered (r : SchedulerRun) (k : ℕ) : Numbered (r.state k) :=
  r.induction (.init r) (fun _ _ _ h _ hs => h.step hs) k

/-- A worker holds at most one lease. -/
def Core.SingleLease (c : Core) : Prop :=
  ∀ i j l m, c.inner.leases.get? i = some l → c.inner.leases.get? j = some m →
    l.workerId = m.workerId → i = j

theorem Scheduler.place_free (hstrategy : sch.strategy.Abides) {policy : ℕ} {p : Placed}
    (h : sch.place c now policy = some p) {j : JobId} {l : Lease PendingJob}
    (hl : c.inner.leases.get? j = some l) : l.workerId ≠ p.worker := by
  obtain ⟨_, _, candidates, ctx, -, -, -, hcs, hchoose, -⟩ := place_spec h
  obtain ⟨-, -, hfree⟩ := Core.mem_candidates.1 (hcs _ (hstrategy.mem hchoose))
  intro heq
  rw [LeaseTable.isWorkerBusy_iff.2 ⟨j, l, hl, heq⟩] at hfree
  cases hfree

theorem Ran.singleLease {c' : Core} (hstrategy : sch.strategy.Abides)
    (h : Ran sch c ch now seg c' next) (hc : c.SingleLease) : c'.SingleLease := by
  rcases h.leases with ⟨read, p, -, hplace, rfl, -⟩ | ⟨-, -, hleases⟩
  · intro i j l m hl hm hw
    rcases Core.of_get?_afterPlace hplace hl with ⟨hi, hlw, -⟩ | ⟨-, hl⟩ <;>
      rcases Core.of_get?_afterPlace hplace hm with ⟨hj, hmw, -⟩ | ⟨-, hm⟩
    · exact hi.trans hj.symm
    · exact absurd (hw.symm.trans hlw) (Scheduler.place_free hstrategy hplace hm)
    · exact absurd (hw.trans hmw) (Scheduler.place_free hstrategy hplace hl)
    · exact hc i j l m hl hm hw
  · intro i j l m hl hm hw
    obtain ⟨l₀, hl₀, hlw, -⟩ := hleases i l hl
    obtain ⟨m₀, hm₀, hmw, -⟩ := hleases j m hm
    exact hc i j l₀ m₀ hl₀ hm₀ (by rw [hlw, hmw, hw])

theorem SchedulerRun.singleLease (r : SchedulerRun) (hstrategy : r.scheduler.strategy.Abides)
    (k : ℕ) : (r.state k).core.SingleLease := by
  refine r.core_induction (M := Core.SingleLease) ?_ (fun _ _ h => h) ?_ k
  · intro i j l m hl
    cases hl
  · intro k ch now seg c' next h hran
    exact hran.singleLease hstrategy h

end Brokkr.Control
