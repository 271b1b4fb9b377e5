import Brokkr.Control.Runs
import Brokkr.Lib.Leftmost

/-!
# Which job is placed next, and among which workers

`try_dispatch` scans the slots of the queue in their order.  It passes over a slot whose
tag is not below the best one so far, before it looks for workers, and then hands the
workers of the best slot to the policy, sorted.

* `Core.Free` — a worker that can take a job of a platform: eligible, connected, without a
  lease; `Core.mem_candidates_iff_free` — the candidates are the free workers.
* `Core.Selected` — the slot that is to be served: the leftmost one with the least tag
  among those with a free worker.
* `Core.scanned` — the scan finds it: the step of the scan carries `Leftmost` from one slot
  to the next.
* `slot_selection` — the critical section of `try_dispatch` is the policy's choice for that
  slot and its free workers, and it places nothing only if no slot has one.
-/

namespace Brokkr.Control

open List

namespace Core

/-- A worker can take a job of a platform now. -/
structure Free (c : Core) (now : Instant) (platform : Platform) (w : WorkerId) : Prop where
  eligible : ∀ reg, c.registry = some reg → ∃ record, reg.workers.get? w = some record ∧
    record.isStale now reg.policy = false ∧ workerSatisfies record.capabilities platform = true
  connected : c.inner.connected.isConnected w = true
  leaseFree : ∀ job lease, c.inner.leases.get? job = some lease → lease.workerId ≠ w

variable {c : Core} {now : Instant} {platform : Platform}

theorem isEligible_iff {w : WorkerId} :
    c.isEligible now platform w = true ↔ ∀ reg, c.registry = some reg →
      ∃ record, reg.workers.get? w = some record ∧ record.isStale now reg.policy = false ∧
        workerSatisfies record.capabilities platform = true := by
  rw [isEligible]
  cases c.registry with
  | none => simp
  | some =>
    refine decide_eq_true_iff.trans ?_
    simp only [eligibleWorkers, WorkerRegistry.healthy, mem_map, mem_filter,
      Option.some.injEq, forall_eq']
    constructor
    · rintro ⟨⟨id, record⟩, ⟨⟨hmem, hstale⟩, hsat⟩, rfl⟩
      exact ⟨record, OrdMap.get?_eq_some.2 hmem, by simpa using hstale, hsat⟩
    · rintro ⟨record, hget, hstale, hsat⟩
      exact ⟨(w, record), ⟨⟨OrdMap.get?_eq_some.1 hget, by simpa using hstale⟩, hsat⟩, rfl⟩

theorem mem_candidates_iff_free {w : WorkerId} :
    w ∈ c.candidates now platform ↔ c.Free now platform w := by
  have hbusy : c.inner.leases.isWorkerBusy w = false ↔
      ∀ job lease, c.inner.leases.get? job = some lease → lease.workerId ≠ w := by
    rw [← Bool.not_eq_true, LeaseTable.isWorkerBusy_iff]
    constructor
    · intro h job lease hget hw
      exact h ⟨job, lease, hget, hw⟩
    · rintro h ⟨job, lease, hget, hw⟩
      exact h job lease hget hw
  rw [mem_candidates, isEligible_iff, hbusy]
  exact ⟨fun ⟨he, hc, hl⟩ => ⟨he, hc, hl⟩, fun ⟨he, hc, hl⟩ => ⟨he, hc, hl⟩⟩

theorem nodup_candidates (c : Core) (now : Instant) (platform : Platform) :
    (c.candidates now platform).Nodup := by
  have hkeys : ∀ {β : Type} (m : OrdMap WorkerId β), (m.toList.map Prod.fst).Nodup := by
    intro β m
    rw [List.Nodup, pairwise_map]
    exact m.sorted.imp fun h => ne_of_lt h
  rw [candidates]
  cases c.registry with
  | none => exact (hkeys c.inner.connected.workers).filter _
  | some reg =>
    apply List.Nodup.filter
    refine List.Nodup.sublist ?_ (hkeys reg.workers)
    exact (filter_sublist.trans filter_sublist).map Prod.fst

/-- The list that is handed to the policy: the free workers, in increasing order. -/
structure Lists (c : Core) (now : Instant) (platform : Platform) (ws : List WorkerId) : Prop where
  sorted : ws.Pairwise (· < ·)
  mem : ∀ w, w ∈ ws ↔ c.Free now platform w

theorem lists_candidates (c : Core) (now : Instant) (platform : Platform) :
    c.Lists now platform ((c.candidates now platform).insertionSort (· ≤ ·)) where
  sorted := by
    have hnodup := (perm_insertionSort (· ≤ ·) (c.candidates now platform)).nodup_iff.2
      (c.nodup_candidates now platform)
    have hle := pairwise_insertionSort (· ≤ ·) (c.candidates now platform)
    exact (hle.and hnodup).imp fun h => lt_of_le_of_ne h.1 h.2
  mem w := (mem_insertionSort _).trans mem_candidates_iff_free

/-! ## The scan -/

/-- A slot has a free worker. -/
def Servable (c : Core) (now : Instant) (e : Entry PendingJob) : Prop :=
  ∃ w, c.Free now e.job.platform w

/-- The slot to serve: of those that have a free worker, the first with the least tag. -/
def Selected (c : Core) (now : Instant) (idx : ℕ) (e : Entry PendingJob) : Prop :=
  Leftmost Entry.start (c.Servable now) c.inner.pending.entries idx e

theorem servable_iff {e : Entry PendingJob} :
    c.Servable now e ↔ c.candidates now e.job.platform ≠ [] := by
  constructor
  · rintro ⟨w, hw⟩
    exact ne_nil_of_mem (mem_candidates_iff_free.2 hw)
  intro hne
  obtain ⟨w, hw⟩ := exists_mem_of_ne_nil _ hne
  exact ⟨w, mem_candidates_iff_free.1 hw⟩

/-- What the scan has found after some slots. -/
structure Scanned (c : Core) (now : Instant) (entries : List (Entry PendingJob)) (best : Best) :
    Prop where
  nothing : best = none → ∀ e ∈ entries, ¬ c.Servable now e
  something : ∀ idx ws start, best = some (idx, ws, start) → ∃ e,
    Leftmost Entry.start (c.Servable now) entries idx e ∧ e.start = start ∧
      ws = c.candidates now e.job.platform

theorem Scanned.step {entries : List (Entry PendingJob)} {best : Best}
    (h : Scanned c now entries best) (e : Entry PendingJob) :
    Scanned c now (entries ++ [e])
      (c.considerSlot now best ⟨entries.length, e.start, e.job⟩) := by
  -- the slot changes nothing if it cannot be served or its tag is not below the best
  have hkeep : (∀ idx ws start, best = some (idx, ws, start) → c.Servable now e →
      start ≤ e.start) → (best = none → ¬ c.Servable now e) →
      Scanned c now (entries ++ [e]) best := by
    intro hsome hnone
    refine ⟨?_, ?_⟩
    · intro hbest e' hmem
      rcases mem_append.1 hmem with hold | hnew
      · exact h.nothing hbest e' hold
      · rw [mem_singleton.1 hnew]
        exact hnone hbest
    intro idx ws start hbest
    obtain ⟨e', hleft, hstart, hws⟩ := h.something idx ws start hbest
    refine ⟨e', hleft.keep ?_, hstart, hws⟩
    intro hserv
    rw [hstart]
    exact hsome idx ws start hbest hserv
  rw [considerSlot]
  by_cases hpass : (best.any fun b => decide (b.2.2 ≤ e.start)) = true
  · rw [if_pos hpass]
    apply hkeep
    · rintro idx ws start rfl -
      simpa using hpass
    · rintro rfl
      cases hpass
  rw [if_neg hpass]
  by_cases hempty : c.candidates now e.job.platform = []
  · have hnot : ¬ c.Servable now e := fun hserv => servable_iff.1 hserv hempty
    simp only [hempty, isEmpty_nil, if_true]
    exact hkeep (fun _ _ _ _ hserv => absurd hserv hnot) fun _ => hnot
  have hserv : c.Servable now e := servable_iff.2 hempty
  simp only [List.isEmpty_iff, hempty, if_false]
  refine ⟨(by simp), ?_⟩
  rintro idx ws start ⟨⟩
  refine ⟨e, ?_, rfl, rfl⟩
  cases best with
  | none => exact Leftmost.first_found (h.nothing rfl) hserv
  | some b =>
    obtain ⟨idx, ws, start⟩ := b
    obtain ⟨e', hleft, hstart, -⟩ := h.something idx ws start rfl
    refine hleft.replace hserv ?_
    rw [hstart]
    simpa using hpass

theorem scanned (c : Core) (now : Instant) (entries : List (Entry PendingJob)) :
    Scanned c now entries
      ((entries.zipIdx.map fun p => (⟨p.2, p.1.start, p.1.job⟩ : Slot PendingJob)).foldl
        (c.considerSlot now) none) := by
  induction entries using reverseRecOn with
  | nil => exact ⟨by simp, by simp⟩
  | append_singleton entries e ih =>
    rw [zipIdx_append, map_append, foldl_append]
    simpa using ih.step e

theorem scanned_bestSlot (c : Core) (now : Instant) :
    Scanned c now c.inner.pending.entries (c.bestSlot now) :=
  c.scanned now c.inner.pending.entries

end Core

/-! ## The critical section -/

/-- What a policy is told about a queued job. -/
def Core.decision (c : Core) (e : Entry PendingJob) : DecisionContext :=
  { loads := c.inner.connected
    locality := c.inner.locality
    job := ⟨e.job.tenant, e.job.actionDigest, e.job.inputRootDigest, e.job.platform⟩ }

variable (sch : Scheduler)

/-- The rest of the critical section once a slot is selected: the policy chooses among the
workers, and the job is leased to its choice. -/
def Scheduler.placeSlot (c : Core) (now : Instant) (policy idx : ℕ)
    (e : Entry PendingJob) (workers : List WorkerId) : Option Placed :=
  (sch.strategy.chooseWith policy workers (c.decision e)).bind fun worker =>
    (c.inner.connected.sender worker).map fun tx =>
      { inner := { c.inner with
          pending := (c.inner.pending.take idx).1
          leases := c.inner.leases.insert e.job.jobId worker (now + e.job.leaseDuration) e.job }
        worker := worker
        tx := tx
        pj := e.job }

theorem Scheduler.place_of_bestSlot {c : Core} {now : Instant} (policy : ℕ)
    {idx start : ℕ} {ws : List WorkerId} (hbest : c.bestSlot now = some (idx, ws, start))
    {e : Entry PendingJob} (hget : c.inner.pending.entries[idx]? = some e) :
    sch.place c now policy = sch.placeSlot c now policy idx e (ws.insertionSort (· ≤ ·)) := by
  have hwinner : c.inner.pending.get idx = some ⟨idx, e.start, e.job⟩ := by
    rw [FairQueue.get, hget]
    rfl
  have htake : (c.inner.pending.take idx).2 = some e.job := by rw [FairQueue.take, hget]
  simp only [place, hbest, hwinner, htake, Option.bind_eq_bind, Option.bind_some, placeSlot,
    Core.decision]
  congr 1
  funext worker
  cases c.inner.connected.sender worker <;> rfl

/-- **Slot selection equals the specification.**  For every queue, registry, connection set,
lease table and policy, `try_dispatch` serves the first slot with the least tag among those
that have a free worker, and hands the policy exactly the free workers of that slot, sorted
and without repetition; or no slot has a free worker, and it places nothing.  A policy that
chooses a candidate whenever there is one leaves nothing unplaced otherwise. -/
theorem slot_selection (c : Core) (now : Instant) (policy : ℕ) :
    ((∃ idx e workers, c.Selected now idx e ∧ c.Lists now e.job.platform workers ∧
          sch.place c now policy = sch.placeSlot c now policy idx e workers) ∨
        (∀ e ∈ c.inner.pending.entries, ¬ c.Servable now e) ∧ sch.place c now policy = none) ∧
      ((∀ workers ctx, workers ≠ [] →
          ∃ w ∈ workers, sch.strategy.chooseWith policy workers ctx = some w) →
        sch.place c now policy = none → ∀ e ∈ c.inner.pending.entries, ¬ c.Servable now e) := by
  have hscan := c.scanned_bestSlot now
  cases hbest : c.bestSlot now with
  | none =>
    have hnone := hscan.nothing hbest
    have hplace : sch.place c now policy = none := by
      rw [Scheduler.place, hbest]
      rfl
    exact ⟨.inr ⟨hnone, hplace⟩, fun _ _ => hnone⟩
  | some best =>
    obtain ⟨idx, ws, start⟩ := best
    obtain ⟨e, hleft, -, rfl⟩ := hscan.something idx ws start hbest
    have hlists := c.lists_candidates now e.job.platform
    have hplace := sch.place_of_bestSlot policy hbest hleft.at_index
    refine ⟨.inl ⟨idx, e, _, hleft, hlists, hplace⟩, ?_⟩
    -- the policy's choice is a free worker, and a free worker has a channel
    intro hchooses hnone
    obtain ⟨w, hw⟩ := hleft.qualifies
    obtain ⟨worker, hmem, hchoice⟩ := hchooses _ (c.decision e)
      (ne_nil_of_mem ((hlists.mem w).2 hw))
    obtain ⟨tx, htx⟩ := ConnectedWorkers.isConnected_iff.1 ((hlists.mem worker).1 hmem).connected
    rw [hplace, Scheduler.placeSlot, hchoice, Option.bind_some, htx] at hnone
    cases hnone

namespace Sample

/-- A queued job that needs the given labels. -/
def queued (id : JobId) (properties : List Property) : PendingJob where
  jobId := id
  tenant := tenant
  job := ⟨id.asStr, ⟨digest.hash, 0⟩, {}, {}⟩
  platform := ⟨properties⟩
  leaseDuration := 1
  attempts := 0
  actionDigest := digest
  inputRootDigest := none

/-- Two idle workers.  No worker fits the job with the least tag; two jobs share the next
one. -/
def contested : Core where
  inner :=
    { connected := (({} : ConnectedWorkers).connect other 2).connect worker 1
      pending := { entries := [⟨0, queued ⟨"i", by decide, by decide⟩ [⟨"os", "none"⟩]⟩,
        ⟨5, queued second []⟩, ⟨5, queued job []⟩] } }
  registry := some ((({} : WorkerRegistry).register worker {} 0).register other {} 0)

end Sample

open Sample

theorem slot_selection_sample :
    ((({} : Scheduler).place contested 0 0).map fun p => (p.pj.jobId, p.worker)) =
        some (second, worker) ∧
      ∃ idx e workers, contested.Selected 0 idx e ∧
        contested.Lists 0 e.job.platform workers ∧
        ({} : Scheduler).place contested 0 0 =
          ({} : Scheduler).placeSlot contested 0 0 idx e workers := by
  have hplace : ((({} : Scheduler).place contested 0 0).map
      fun p => (p.pj.jobId, p.worker)) = some (second, worker) := by
    decide +kernel
  refine ⟨hplace, ?_⟩
  rcases (slot_selection {} contested 0 0).1 with hselected | ⟨-, hnone⟩
  · exact hselected
  · rw [hnone] at hplace
    cases hplace

end Brokkr.Control
