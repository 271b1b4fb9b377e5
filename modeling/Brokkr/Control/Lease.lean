import Brokkr.Common

/-!
# Job leases

`lease.rs`: which worker holds which job, until when, with what is needed to
dispatch the job again.

* `LeaseTable.complete` — resolve a lease because the worker reported.
* `LeaseTable.takeExpired`, `LeaseTable.takeWorker` — remove the leases that have
  expired, or those of one worker; `LeaseTable.get?_takeWhere` and
  `LeaseTable.mem_takeWhere` say what is left and what is returned.
* `LeaseTable.renewWorker` — push the deadlines of one worker out.

The table is a hash map in the source; no operation depends on its order, so it is
kept in the order of the job ids.
-/

namespace Brokkr.Control

open OrdMap

variable {P : Type}

/-- An active lease. -/
structure Lease (P : Type) where
  workerId : WorkerId
  deadline : Instant
  payload : P
  deriving DecidableEq

/-- The active leases, by job. -/
structure LeaseTable (P : Type) where
  leases : OrdMap JobId (Lease P) := ∅

namespace LeaseTable

/-- The lease of a job. -/
def get? (t : LeaseTable P) (job : JobId) : Option (Lease P) := t.leases.get? job

/-- Record a lease, replacing any other of the same job. -/
def insert (t : LeaseTable P) (job : JobId) (worker : WorkerId) (deadline : Instant)
    (payload : P) : LeaseTable P :=
  ⟨t.leases.insert job ⟨worker, deadline, payload⟩⟩

/-- Drop the lease of a job and return its payload. -/
def complete (t : LeaseTable P) (job : JobId) : LeaseTable P × Option P :=
  (⟨t.leases.erase job⟩, (t.leases.get? job).map Lease.payload)

/-- The worker that holds a job. -/
def workerOf (t : LeaseTable P) (job : JobId) : Option WorkerId :=
  (t.leases.get? job).map Lease.workerId

/-- Is a job leased? -/
def contains (t : LeaseTable P) (job : JobId) : Bool := t.leases.contains job

/-- Does a worker hold any lease? -/
def isWorkerBusy (t : LeaseTable P) (worker : WorkerId) : Bool :=
  t.leases.toList.any fun p => decide (p.2.workerId = worker)

/-- Remove the leases of some jobs and return their payloads. -/
def drain (leases : OrdMap JobId (Lease P)) :
    List JobId → OrdMap JobId (Lease P) × List (JobId × P)
  | [] => (leases, [])
  | id :: ids =>
    match leases.get? id with
    | none => drain leases ids
    | some l =>
      let r := drain (leases.erase id) ids
      (r.1, (id, l.payload) :: r.2)

/-- Remove every lease that satisfies `p` and return the payloads, by job id. -/
def takeWhere (t : LeaseTable P) (p : Lease P → Bool) : LeaseTable P × List (JobId × P) :=
  let r := drain t.leases ((t.leases.toList.filter fun q => p q.2).map Prod.fst)
  (⟨r.1⟩, r.2)

/-- Remove every lease whose deadline has passed and return the payloads. -/
def takeExpired (t : LeaseTable P) (now : Instant) : LeaseTable P × List (JobId × P) :=
  t.takeWhere fun l => decide (l.deadline ≤ now)

/-- Remove every lease of a worker and return the payloads. -/
def takeWorker (t : LeaseTable P) (worker : WorkerId) : LeaseTable P × List (JobId × P) :=
  t.takeWhere fun l => decide (l.workerId = worker)

/-- Move the deadline of every lease of a worker. -/
def renewWorker (t : LeaseTable P) (worker : WorkerId) (deadline : Instant) : LeaseTable P :=
  ⟨t.leases.mapValues fun l => if l.workerId = worker then { l with deadline := deadline } else l⟩

/-! ## What is left, what is returned -/

theorem get?_insert (t : LeaseTable P) (job : JobId) (worker : WorkerId) (deadline : Instant)
    (payload : P) (j : JobId) : (t.insert job worker deadline payload).get? j =
      if j = job then some ⟨worker, deadline, payload⟩ else t.get? j :=
  OrdMap.get?_insert _ _ _ _

theorem get?_complete (t : LeaseTable P) (job j : JobId) :
    (t.complete job).1.get? j = if j = job then none else t.get? j :=
  get?_erase _ _ _

theorem of_get?_complete {t : LeaseTable P} {job j : JobId} {l : Lease P}
    (h : (t.complete job).1.get? j = some l) : j ≠ job ∧ t.get? j = some l :=
  of_get?_erase h

@[simp] theorem complete_snd (t : LeaseTable P) (job : JobId) :
    (t.complete job).2 = (t.get? job).map Lease.payload := rfl

theorem isWorkerBusy_iff {t : LeaseTable P} {worker : WorkerId} :
    t.isWorkerBusy worker = true ↔ ∃ j l, t.get? j = some l ∧ l.workerId = worker := by
  simp only [isWorkerBusy, List.any_eq_true, decide_eq_true_eq]
  constructor
  · rintro ⟨p, hp, hw⟩
    exact ⟨p.1, p.2, get?_eq_some.2 hp, hw⟩
  · rintro ⟨j, l, hget, hw⟩
    exact ⟨(j, l), get?_eq_some.1 hget, hw⟩

theorem get?_drain (leases : OrdMap JobId (Lease P)) (ids : List JobId) (j : JobId) :
    (drain leases ids).1.get? j = if j ∈ ids then none else leases.get? j := by
  induction ids generalizing leases with
  | nil => simp [drain]
  | cons id ids ih =>
    rw [drain]
    cases h : leases.get? id with
    | none =>
      rw [ih]
      by_cases hj : j = id
      · subst hj
        simp [h]
      · simp [hj]
    | some =>
      rw [ih, get?_erase]
      by_cases hj : j = id <;> simp [hj]

theorem mem_drain {leases : OrdMap JobId (Lease P)} {ids : List JobId} (hn : ids.Nodup)
    {j : JobId} {x : P} : (j, x) ∈ (drain leases ids).2 ↔
      j ∈ ids ∧ ∃ l, leases.get? j = some l ∧ l.payload = x := by
  induction ids generalizing leases with
  | nil => simp [drain]
  | cons id ids ih =>
    obtain ⟨hid, hids⟩ := List.nodup_cons.1 hn
    rw [drain]
    cases h : leases.get? id with
    | none =>
      rw [ih hids, List.mem_cons]
      constructor
      · exact fun hmem => ⟨.inr hmem.1, hmem.2⟩
      rintro ⟨rfl | hmem, l, hl, hx⟩
      · rw [h] at hl
        cases hl
      · exact ⟨hmem, l, hl, hx⟩
    | some l =>
      simp only [List.mem_cons, ih hids, get?_erase]
      constructor
      · rintro (heq | ⟨hmem, l', hl', hx⟩)
        · cases heq
          exact ⟨.inl rfl, l, h, rfl⟩
        · have hne : j ≠ id := fun heq => hid (heq ▸ hmem)
          rw [if_neg hne] at hl'
          exact ⟨.inr hmem, l', hl', hx⟩
      rintro ⟨rfl | hmem, l', hl', hx⟩
      · rw [h] at hl'
        cases hl'
        exact .inl (by rw [hx])
      · have hne : j ≠ id := fun heq => hid (heq ▸ hmem)
        exact .inr ⟨hmem, l', by rw [if_neg hne]; exact hl', hx⟩

theorem nodup_drain {leases : OrdMap JobId (Lease P)} {ids : List JobId} (hn : ids.Nodup) :
    ((drain leases ids).2.map Prod.fst).Nodup := by
  have hsub : ((drain leases ids).2.map Prod.fst).Sublist ids := by
    clear hn
    induction ids generalizing leases with
    | nil => exact List.Sublist.refl _
    | cons id ids ih =>
      rw [drain]
      cases leases.get? id with
      | none => exact (ih).cons id
      | some => exact (ih).cons_cons id
  exact hn.sublist hsub

section takeWhere

variable (t : LeaseTable P) (p : Lease P → Bool)

theorem nodup_taken : ((t.leases.toList.filter fun q => p q.2).map Prod.fst).Nodup := by
  have hsorted := t.leases.sorted.filter fun q => p q.2
  exact (List.pairwise_map.2 hsorted).imp fun h => ne_of_lt h

theorem mem_taken {j : JobId} : j ∈ (t.leases.toList.filter fun q => p q.2).map Prod.fst ↔
    ∃ l, t.get? j = some l ∧ p l = true := by
  simp only [List.mem_map, List.mem_filter]
  constructor
  · rintro ⟨q, ⟨hq, hp⟩, rfl⟩
    exact ⟨q.2, get?_eq_some.2 hq, hp⟩
  · rintro ⟨l, hl, hp⟩
    exact ⟨(j, l), ⟨get?_eq_some.1 hl, hp⟩, rfl⟩

theorem get?_takeWhere (j : JobId) :
    (t.takeWhere p).1.get? j = (t.get? j).filter fun l => !p l := by
  have hdrain := get?_drain t.leases ((t.leases.toList.filter fun q => p q.2).map Prod.fst) j
  rw [show (t.takeWhere p).1.get? j = _ from hdrain]
  cases h : t.get? j with
  | none =>
    have hnone : t.leases.get? j = none := h
    simp [hnone]
  | some l =>
    have hsome : t.leases.get? j = some l := h
    by_cases hp : p l = true
    · rw [if_pos ((t.mem_taken p).2 ⟨l, h, hp⟩), Option.filter_some, hp]
      rfl
    have hnot : ¬ j ∈ (t.leases.toList.filter fun q => p q.2).map Prod.fst := by
      intro hmem
      obtain ⟨l', hl', hp'⟩ := (t.mem_taken p).1 hmem
      rw [h] at hl'
      cases hl'
      exact hp hp'
    rw [if_neg hnot, hsome]
    simp [Option.filter, hp]

theorem mem_takeWhere {j : JobId} {x : P} : (j, x) ∈ (t.takeWhere p).2 ↔
    ∃ l, t.get? j = some l ∧ p l = true ∧ l.payload = x := by
  rw [show (t.takeWhere p).2 = (drain t.leases _).2 from rfl, mem_drain (t.nodup_taken p),
    t.mem_taken p]
  constructor
  · rintro ⟨⟨l, hl, hp⟩, l', hl', hx⟩
    have heq : l = l' := by
      have : t.get? j = some l' := hl'
      rw [hl] at this
      exact Option.some.inj this
    exact ⟨l, hl, hp, heq ▸ hx⟩
  · rintro ⟨l, hl, hp, hx⟩
    exact ⟨⟨l, hl, hp⟩, l, hl, hx⟩

theorem nodup_takeWhere : ((t.takeWhere p).2.map Prod.fst).Nodup := nodup_drain (t.nodup_taken p)

end takeWhere

theorem get?_takeExpired (t : LeaseTable P) (now : Instant) (j : JobId) :
    (t.takeExpired now).1.get? j = (t.get? j).filter fun l => !decide (l.deadline ≤ now) :=
  get?_takeWhere t _ j

theorem get?_takeWorker (t : LeaseTable P) (worker : WorkerId) (j : JobId) :
    (t.takeWorker worker).1.get? j = (t.get? j).filter fun l => !decide (l.workerId = worker) :=
  get?_takeWhere t _ j

theorem get?_renewWorker (t : LeaseTable P) (worker : WorkerId) (deadline : Instant) (j : JobId) :
    (t.renewWorker worker deadline).get? j = (t.get? j).map fun l =>
      if l.workerId = worker then { l with deadline := deadline } else l :=
  get?_mapValues _ _ _

end LeaseTable

end Brokkr.Control
