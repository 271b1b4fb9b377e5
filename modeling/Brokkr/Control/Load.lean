import Brokkr.Control.Runs

/-!
# The load of a worker

A placement policy is given the number of jobs that each connected worker has in flight
(`LoadView::inflight`), and operators see the same numbers (`inflight_snapshot`). They are
counters beside the connections; the leases are a table of their own.

* `Inner.inflightSnapshot` — the numbers of the connected workers.
* `LeaseTable.heldBy` — how many leases a worker holds.
* `Core.Unloaded` — no call of the scheduler ever counts a job: all counters are zero, in
  every run.
-/

namespace Brokkr.Control

/-- `inflight_snapshot`: the in-flight counts of the connected workers. -/
def Inner.inflightSnapshot (inner : Inner) : List (WorkerId × ℕ) :=
  inner.connected.connectedIds.map fun id => (id, inner.connected.inflight id)

/-- How many leases a worker holds. -/
def LeaseTable.heldBy {P : Type} (t : LeaseTable P) (worker : WorkerId) : ℕ :=
  t.leases.toList.countP fun p => decide (p.2.workerId = worker)

/-- No worker is counted as having a job. -/
def Core.Unloaded (c : Core) : Prop :=
  ∀ w conn, c.inner.connected.workers.get? w = some conn → conn.inflight = 0

theorem Core.Unloaded.inflight {c : Core} (h : c.Unloaded) (w : WorkerId) :
    c.inner.connected.inflight w = 0 := by
  rw [ConnectedWorkers.inflight]
  cases hget : c.inner.connected.workers.get? w with
  | none => rfl
  | some conn => exact h w conn hget

theorem Core.Unloaded.mono {c c' : Core} (h : c.Unloaded)
    (hsub : ∀ w conn, c'.inner.connected.workers.get? w = some conn →
      c.inner.connected.workers.get? w = some conn) : c'.Unloaded :=
  fun w conn hget => h w conn (hsub w conn hget)

theorem ConnectedWorkers.get?_of_disconnect {c : ConnectedWorkers} {id w : WorkerId}
    {conn : WorkerConn} (h : (c.disconnect id).workers.get? w = some conn) :
    c.workers.get? w = some conn := by
  rw [disconnect, OrdMap.get?_erase] at h
  split at h
  · cases h
  · exact h

theorem Ran.unloaded {sch : Scheduler} {c c' : Core} {ch : Choice} {now : Instant} {seg : Segment}
    {next : List Segment} (hran : Ran sch c ch now seg c' next) (h : c.Unloaded) :
    c'.Unloaded := by
  cases hran with
  | connect worker tx =>
    intro w conn hget
    rcases OrdMap.of_get?_insert hget with ⟨-, rfl⟩ | ⟨-, hins⟩
    · rfl
    · exact h w conn hins
  | placed hsome =>
    refine h.mono fun w conn hget => ?_
    rw [Core.connected_afterPlace hsome] at hget
    exact hget
  | gaveUp | requeued | disconnect =>
    exact h.mono fun w conn => ConnectedWorkers.get?_of_disconnect
  | _ => exact h

theorem SchedulerRun.unloaded (r : SchedulerRun) (k : ℕ) : (r.state k).core.Unloaded := by
  refine r.core_induction (M := Core.Unloaded) ?_ (fun _ _ h => h) ?_ k
  · intro w conn hget
    cases hget
  · intro k ch now seg c' next h hran
    exact hran.unloaded h

theorem Inner.mem_inflightSnapshot {inner : Inner} {w : WorkerId} {n : ℕ} :
    (w, n) ∈ inner.inflightSnapshot ↔
      inner.connected.isConnected w = true ∧ inner.connected.inflight w = n := by
  rw [inflightSnapshot, List.mem_map]
  constructor
  · rintro ⟨id, hid, heq⟩
    cases heq
    exact ⟨ConnectedWorkers.mem_connectedIds.1 hid, rfl⟩
  · rintro ⟨hconnected, rfl⟩
    exact ⟨w, ConnectedWorkers.mem_connectedIds.2 hconnected, rfl⟩

/-- **The load signal.**  In every run the in-flight count of a connected worker, as a
policy and an operator see it, is the number of leases that the worker holds exactly when
it holds none. -/
theorem load_counts_leases (r : SchedulerRun) (k : ℕ) (w : WorkerId)
    (hconnected : (r.state k).core.inner.connected.isConnected w = true) :
    ((r.state k).core.inner.connected.inflight w = (r.state k).core.inner.leases.heldBy w ↔
      (r.state k).core.inner.leases.heldBy w = 0) ∧
    ((w, (r.state k).core.inner.leases.heldBy w) ∈ (r.state k).core.inner.inflightSnapshot ↔
      (r.state k).core.inner.leases.heldBy w = 0) := by
  have hzero := (r.unloaded k).inflight w
  rw [Inner.mem_inflightSnapshot, and_iff_right hconnected, hzero]
  exact ⟨eq_comm, eq_comm⟩

/-- A worker is connected, and a job is leased to it and sent. -/
def Sample.loadedRun : SchedulerRun where
  events := hello ++ lease ++ [go 1 1]

open Sample

theorem load_counts_leases_sample :
    (loadedRun.state 4).core.inner.connected.inflight worker =
      (loadedRun.state 4).core.inner.leases.heldBy worker :=
  (load_counts_leases loadedRun 4 worker (by decide +kernel)).1.2 (by decide +kernel)

/-- **A busy worker reads as idle**: it holds a lease and is counted with no job. -/
theorem load_not_counted :
    (loadedRun.state 10).core.inner.connected.isConnected worker = true ∧
      (loadedRun.state 10).core.inner.leases.heldBy worker = 1 ∧
      (loadedRun.state 10).core.inner.connected.inflight worker = 0 ∧
      (loadedRun.state 10).core.inner.inflightSnapshot = [(worker, 0)] := by
  decide +kernel

end Brokkr.Control
