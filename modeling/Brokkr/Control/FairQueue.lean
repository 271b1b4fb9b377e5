import Brokkr.Common
import Brokkr.Lib.Vec
import Brokkr.Lib.StartTime

/-!
# The per-tenant fair queue

`fairqueue.rs`: the queue of pending jobs.  Each job is tagged with a virtual
start time when it is pushed, and jobs are taken in the order of their tags.  The
entries themselves are kept in no particular order.

* `FairQueue.push`, `FairQueue.take`, `FairQueue.pop`, `FairQueue.retain` — the
  operations.
* `FairQueue.Models` — the queue as a start-time fair discipline: the tags of a
  tenant's jobs are spaced by its cost, from the tenant's head on.
  `FairQueue.Models.push` and `FairQueue.Models.pop` are its steps.
* `popped_in_proportion` — proportional fairness of pushes and pops.

Tags and virtual time are `u64`: natural numbers, added with saturation.
-/

namespace Brokkr.Control

open List

/-- Virtual-time cost of one unit-weight job. -/
def cost : ℕ := 1000000

/-- A queued job with its start tag. -/
structure Entry (J : Type) where
  start : ℕ
  job : J
  deriving DecidableEq

/-- A view of one queued job. -/
structure Slot (J : Type) where
  index : ℕ
  start : ℕ
  job : J

/-- Start-time fair queue keyed by tenant. -/
structure FairQueue (J : Type) where
  entries : List (Entry J) := []
  virtualTime : ℕ := 0
  tenantFinish : OrdMap TenantId ℕ := ∅
  weights : OrdMap TenantId ℕ := ∅

namespace FairQueue

variable {J : Type}

/-- Set a tenant's weight; zero is clamped to one. -/
def setWeight (q : FairQueue J) (tenant : TenantId) (weight : ℕ) : FairQueue J :=
  { q with weights := q.weights.insert tenant (max weight 1) }

/-- A tenant's weight, one unless it was set. -/
def weightOf (q : FairQueue J) (tenant : TenantId) : ℕ := max ((q.weights.get? tenant).getD 1) 1

/-- What one job of a tenant costs it, in virtual time. -/
def costOf (q : FairQueue J) (tenant : TenantId) : ℕ := cost / q.weightOf tenant

/-- When a tenant's latest job finishes. -/
def lastFinish (q : FairQueue J) (tenant : TenantId) : ℕ := (q.tenantFinish.get? tenant).getD 0

/-- The tag the next job of a tenant gets. -/
def nextStart (q : FairQueue J) (tenant : TenantId) : ℕ := max q.virtualTime (q.lastFinish tenant)

/-- Enqueue a job for a tenant, with its start tag. -/
def push (q : FairQueue J) (tenant : TenantId) (job : J) : FairQueue J :=
  let start := q.nextStart tenant
  let finish := U64.saturatingAdd start (q.costOf tenant)
  { q with
    tenantFinish := q.tenantFinish.insert tenant finish
    entries := q.entries ++ [⟨start, job⟩] }

/-- The queued jobs as slots. -/
def slots (q : FairQueue J) : List (Slot J) :=
  q.entries.zipIdx.map fun p => ⟨p.2, p.1.start, p.1.job⟩

/-- The slot at an index. -/
def get (q : FairQueue J) (index : ℕ) : Option (Slot J) :=
  q.entries[index]?.map fun e => ⟨index, e.start, e.job⟩

/-- Remove the entry at an index and advance virtual time to its tag. -/
def take (q : FairQueue J) (index : ℕ) : FairQueue J × Option J :=
  match q.entries[index]? with
  | none => (q, none)
  | some e =>
    ({ q with
        entries := swapRemove q.entries index
        virtualTime := max q.virtualTime e.start }, some e.job)

/-- Take the job with the least start tag. -/
def pop (q : FairQueue J) : FairQueue J × Option J :=
  match firstMin Entry.start q.entries with
  | none => (q, none)
  | some (index, _) => q.take index

/-- Drop the jobs that are not to be kept. -/
def retain (q : FairQueue J) (keep : J → Bool) : FairQueue J :=
  { q with entries := q.entries.filter fun e => keep e.job }

/-! ## What the operations do to the entries -/

@[simp] theorem push_entries (q : FairQueue J) (tenant : TenantId) (job : J) :
    (q.push tenant job).entries = q.entries ++ [⟨q.nextStart tenant, job⟩] := rfl

@[simp] theorem push_virtualTime (q : FairQueue J) (tenant : TenantId) (job : J) :
    (q.push tenant job).virtualTime = q.virtualTime := rfl

@[simp] theorem push_costOf (q : FairQueue J) (tenant : TenantId) (job : J) :
    (q.push tenant job).costOf = q.costOf := rfl

theorem lastFinish_push (q : FairQueue J) (tenant : TenantId) (job : J) (t : TenantId) :
    (q.push tenant job).lastFinish t =
      if t = tenant then U64.saturatingAdd (q.nextStart tenant) (q.costOf tenant)
      else q.lastFinish t := by
  rw [lastFinish, push, OrdMap.get?_insert]
  split <;> rfl

theorem take_cases (q : FairQueue J) (index : ℕ) :
    q.entries[index]? = none ∧ q.take index = (q, none) ∨
      ∃ e q', q.entries[index]? = some e ∧ q.take index = (q', some e.job) ∧
        (e :: q'.entries).Perm q.entries ∧ q'.virtualTime = max q.virtualTime e.start ∧
        q'.costOf = q.costOf ∧ q'.lastFinish = q.lastFinish := by
  unfold take
  cases h : q.entries[index]? with
  | none => exact .inl ⟨rfl, rfl⟩
  | some e => exact .inr ⟨e, _, rfl, rfl, swapRemove_perm h, rfl, rfl, rfl⟩

theorem pop_cases (q : FairQueue J) :
    q.entries = [] ∧ q.pop = (q, none) ∨
      ∃ e q', (∀ e' ∈ q.entries, e.start ≤ e'.start) ∧ q.pop = (q', some e.job) ∧
        (e :: q'.entries).Perm q.entries ∧ q'.virtualTime = max q.virtualTime e.start ∧
        q'.costOf = q.costOf ∧ q'.lastFinish = q.lastFinish := by
  unfold pop
  cases h : firstMin Entry.start q.entries with
  | none => exact .inl ⟨firstMin_eq_none.1 h, rfl⟩
  | some p =>
    obtain ⟨index, e⟩ := p
    obtain ⟨hget, hle⟩ := firstMin_spec h
    rcases q.take_cases index with ⟨hnone, -⟩ | ⟨e', q', hsome, htake, hrest⟩
    · rw [hget] at hnone
      cases hnone
    rw [hget] at hsome
    cases hsome
    exact .inr ⟨e, q', hle, htake, hrest⟩

/-! ## The queue as a start-time fair discipline -/

/-- The tags of a tenant's jobs, in the order of the entries. -/
def tags (q : FairQueue J) (owner : J → TenantId) (t : TenantId) : List ℕ :=
  (q.entries.filter fun e => decide (owner e.job = t)).map Entry.start

/-- `n` tags from `h` on, `c` apart. -/
def progression (h c n : ℕ) : List ℕ := (List.range n).map fun i => h + i * c

theorem progression_succ (h c n : ℕ) :
    progression h c (n + 1) = progression h c n ++ [h + n * c] := by
  simp [progression, range_succ]

theorem progression_cons (h c n : ℕ) :
    progression h c (n + 1) = h :: progression (h + c) c n := by
  rw [progression, range_succ_eq_map, map_cons, map_map, progression]
  congr 1
  · omega
  apply map_congr_left
  intro i _
  simp only [Function.comp_apply, Nat.succ_eq_add_one]
  ring

theorem le_of_mem_progression {h c n x : ℕ} (hx : x ∈ progression h c n) : h ≤ x ∧ 0 < n := by
  obtain ⟨i, hi, rfl⟩ := mem_map.1 hx
  have := mem_range.1 hi
  exact ⟨Nat.le_add_right _ _, by omega⟩

theorem head_mem_progression {h c n : ℕ} (hn : 0 < n) : h ∈ progression h c n :=
  mem_map.2 ⟨0, mem_range.2 hn, by simp⟩

/-- The queue follows a state of the discipline with costs `c`. -/
structure Models (owner : J → TenantId) (c : TenantId → ℕ) (q : FairQueue J)
    (f : Flows TenantId) : Prop where
  clock : f.clock = q.virtualTime
  costs : q.costOf = c
  spaced : ∀ t, (q.tags owner t).Perm (progression (f.head t) (c t) (f.backlog t))
  finish : ∀ t, q.lastFinish t = f.head t + f.backlog t * c t

namespace Models

variable {owner : J → TenantId} {c : TenantId → ℕ} {q : FairQueue J} {f : Flows TenantId}

variable (h : Models owner c q f)

include h

theorem length_tags (t : TenantId) :
    (q.tags owner t).length = f.backlog t := by
  rw [(h.spaced t).length_eq, progression, length_map, length_range]

theorem head_le {e : Entry J} (he : e ∈ q.entries) :
    0 < f.backlog (owner e.job) ∧ f.head (owner e.job) ≤ e.start := by
  have hmem : e.start ∈ q.tags owner (owner e.job) :=
    mem_map.2 ⟨e, mem_filter.2 ⟨he, by simp⟩, rfl⟩
  obtain ⟨hle, hpos⟩ := le_of_mem_progression ((h.spaced _).mem_iff.1 hmem)
  exact ⟨hpos, hle⟩

theorem exists_head {t : TenantId} (ht : 0 < f.backlog t) :
    ∃ e ∈ q.entries, owner e.job = t ∧ e.start = f.head t := by
  have hmem := (h.spaced t).mem_iff.2 (head_mem_progression ht)
  obtain ⟨e, he, hstart⟩ := mem_map.1 hmem
  obtain ⟨he, ht⟩ := mem_filter.1 he
  exact ⟨e, he, of_decide_eq_true ht, hstart⟩

theorem nextStart_eq (hb : f.Bounded c) (t : TenantId) :
    q.nextStart t = (f.arrive t).head t + f.backlog t * c t := by
  rw [nextStart, h.finish, ← h.clock]
  by_cases h0 : f.backlog t = 0
  · simp [Flows.arrive, h0]
  have hbehind := hb.behind t (Nat.pos_of_ne_zero h0)
  simp only [Flows.arrive, h0, if_false]
  omega

theorem push (hb : f.Bounded c) {t : TenantId} {job : J}
    (ho : owner job = t) (hsat : q.nextStart t + q.costOf t ≤ 2 ^ 64 - 1) :
    Models owner c (q.push t job) (f.arrive t) where
  clock := h.clock
  costs := h.costs
  spaced u := by
    by_cases hut : u = t
    · subst hut
      have htags : (q.push u job).tags owner u = q.tags owner u ++ [q.nextStart u] := by
        simp [tags, ho]
      have hback : (f.arrive u).backlog u = f.backlog u + 1 := by simp [Flows.arrive]
      rw [htags, hback, progression_succ, ← h.nextStart_eq hb]
      apply List.Perm.append_right
      by_cases h0 : f.backlog u = 0
      · -- an idle tenant restarts: it has no tags yet
        have hnil := h.length_tags u
        rw [h0] at hnil ⊢
        rw [length_eq_zero_iff.1 hnil]
        exact List.Perm.refl _
      · have hhead : (f.arrive u).head u = f.head u := by simp [Flows.arrive, h0]
        rw [hhead]
        exact h.spaced u
    · have htags : (q.push t job).tags owner u = q.tags owner u := by
        have hne : ¬ t = u := fun htu => hut htu.symm
        simp [tags, ho, hne]
      have hback : (f.arrive t).backlog u = f.backlog u := by simp [Flows.arrive, hut]
      have hhead : (f.arrive t).head u = f.head u := by
        by_cases h0 : f.backlog t = 0 <;> simp [Flows.arrive, h0, hut]
      rw [htags, hback, hhead]
      exact h.spaced u
  finish u := by
    rw [lastFinish_push]
    split
    · rename_i hut
      subst hut
      have hback : (f.arrive u).backlog u = f.backlog u + 1 := by simp [Flows.arrive]
      have hcost : q.costOf u = c u := congrFun h.costs u
      rw [U64.saturatingAdd_of_le hsat, h.nextStart_eq hb, hback, hcost]
      ring
    rename_i hut
    have hback : (f.arrive t).backlog u = f.backlog u := by simp [Flows.arrive, hut]
    have hhead : (f.arrive t).head u = f.head u := by
      by_cases h0 : f.backlog t = 0 <;> simp [Flows.arrive, h0, hut]
    rw [hback, hhead]
    exact h.finish u

theorem pop (hb : f.Bounded c) {q' : FairQueue J} {job : J}
    (hp : q.pop = (q', some job)) :
    f.First (owner job) ∧ Models owner c q' (f.serve c (owner job)) := by
  rcases q.pop_cases with ⟨-, hnone⟩ | ⟨e, q'', hle, hsome, hperm, hclock, hcost, hfinish⟩
  · rw [hnone] at hp
    cases hp
  rw [hsome] at hp
  cases hp
  have he : e ∈ q.entries := hperm.subset mem_cons_self
  obtain ⟨hpos, hhead⟩ := h.head_le he
  -- the least tag of all is the head of its tenant
  have hstart : e.start = f.head (owner e.job) := by
    obtain ⟨e', he', -, hs'⟩ := h.exists_head hpos
    exact le_antisymm (hs' ▸ hle e' he') hhead
  have hfirst : f.First (owner e.job) := by
    refine ⟨hpos, ?_⟩
    intro u hu
    obtain ⟨e', he', -, hs'⟩ := h.exists_head hu
    rw [← hstart, ← hs']
    exact hle e' he'
  have htags : ∀ u, (((e :: q'.entries).filter fun x => decide (owner x.job = u)).map
      Entry.start).Perm (q.tags owner u) := fun u => (hperm.filter _).map _
  refine ⟨hfirst, ?_, hcost.trans h.costs, ?_, ?_⟩
  · have hbehind := hb.behind _ hpos
    rw [hclock, ← h.clock, hstart]
    exact (max_eq_right hbehind).symm
  · intro u
    by_cases hu : u = owner e.job
    · subst hu
      have hstep := (htags (owner e.job)).trans (h.spaced _)
      obtain ⟨n, hn⟩ := Nat.exists_eq_succ_of_ne_zero (Nat.pos_iff_ne_zero.1 hpos)
      rw [hn, Nat.succ_eq_add_one, progression_cons] at hstep
      have hback : (f.serve c (owner e.job)).backlog (owner e.job) = n := by
        simp [Flows.serve, hn]
      have hnext : (f.serve c (owner e.job)).head (owner e.job) =
          f.head (owner e.job) + c (owner e.job) := by simp [Flows.serve]
      rw [hback, hnext]
      rw [filter_cons_of_pos (by simp), map_cons, hstart] at hstep
      exact hstep.cons_inv
    · have hne : ¬ owner e.job = u := fun h => hu h.symm
      have hstep := (htags u).trans (h.spaced u)
      have hback : (f.serve c (owner e.job)).backlog u = f.backlog u := by
        simp [Flows.serve, hu]
      have hnext : (f.serve c (owner e.job)).head u = f.head u := by simp [Flows.serve, hu]
      rw [hback, hnext]
      rwa [filter_cons_of_neg (by simp [hne])] at hstep
  · intro u
    rw [hfinish, h.finish]
    by_cases hu : u = owner e.job
    · subst hu
      have hsplit : f.backlog (owner e.job) = f.backlog (owner e.job) - 1 + 1 := by omega
      simp only [Flows.serve, Function.update_self]
      conv_lhs => rw [hsplit]
      ring
    · simp [Flows.serve, hu]

end Models

end FairQueue

/-! ## Sequences of pushes and pops -/

/-- An operation of a sequence. -/
inductive QueueOp (J : Type) where
  | push (job : J)
  | pop

/-- A sequence of pushes and pops on a new queue, with the weights set before. -/
structure QueueRun (J : Type) where
  owner : J → TenantId
  weights : List (TenantId × ℕ)
  ops : List (QueueOp J)

namespace QueueRun

variable {J : Type} (r : QueueRun J)

/-- The queue before the first operation. -/
def start : FairQueue J := r.weights.foldl (fun q p => q.setWeight p.1 p.2) {}

/-- One operation, with what it returns. -/
def apply (q : FairQueue J) : QueueOp J → FairQueue J × Option J
  | .push job => (q.push (r.owner job) job, none)
  | .pop => q.pop

/-- The queue after `k` operations. -/
def state (k : ℕ) : FairQueue J := (r.ops.take k).foldl (fun q op => (r.apply q op).1) r.start

/-- The job that operation `k` pops. -/
def popped (k : ℕ) : Option J := r.ops[k]?.bind fun op => (r.apply (r.state k) op).2

/-- How many jobs of a tenant the operations from `i` up to `j` pop. -/
def served (t : TenantId) (i j : ℕ) : ℕ :=
  (range' i (j - i)).countP fun k => decide ((r.popped k).map r.owner = some t)

/-- A tenant has a queued job after `k` operations. -/
def Backlogged (t : TenantId) (k : ℕ) : Prop := ∃ e ∈ (r.state k).entries, r.owner e.job = t

/-- No finish tag of the sequence exceeds `u64::MAX`. -/
def NeverSaturates : Prop :=
  ∀ k job, r.ops[k]? = some (.push job) →
    (r.state k).nextStart (r.owner job) + (r.state k).costOf (r.owner job) ≤ 2 ^ 64 - 1

theorem state_succ {k : ℕ} {op : QueueOp J} (h : r.ops[k]? = some op) :
    r.state (k + 1) = (r.apply (r.state k) op).1 := by
  rw [state, take_add_one, h, foldl_append]
  rfl

theorem state_succ_of_none {k : ℕ} (h : r.ops[k]? = none) : r.state (k + 1) = r.state k := by
  rw [state, take_add_one, h, state, Option.toList_none, append_nil]

/-- What an operation is for the discipline. -/
def action (k : ℕ) : Flows.Action TenantId :=
  match r.ops[k]? with
  | some (.push job) => .arrive (r.owner job)
  | some .pop =>
    match r.popped k with
    | some job => .serve (r.owner job)
    | none => .pass
  | none => .pass

/-- The discipline beside the queue. -/
def flows : ℕ → Flows TenantId
  | 0 => ⟨0, fun _ => 0, fun _ => 0⟩
  | k + 1 => (flows k).next r.start.costOf (r.action k)

theorem start_entries : r.start.entries = [] ∧ r.start.virtualTime = 0 ∧
    r.start.tenantFinish = ∅ := by
  rw [start]
  induction r.weights using reverseRecOn with
  | nil => exact ⟨rfl, rfl, rfl⟩
  | append_singleton l p ih =>
    rw [foldl_append]
    exact ih

theorem models_start : (r.state 0).Models r.owner r.start.costOf (r.flows 0) := by
  obtain ⟨hentries, hclock, hfinish⟩ := r.start_entries
  refine ⟨hclock.symm, rfl, ?_, ?_⟩
  · intro t
    have hnil : (r.state 0).tags r.owner t = [] := by
      rw [FairQueue.tags, state, take_zero, foldl_nil, hentries]
      rfl
    rw [hnil]
    exact List.Perm.refl _
  · intro t
    rw [FairQueue.lastFinish, state, take_zero, foldl_nil, hfinish]
    simp [flows]

variable (hsat : r.NeverSaturates)

include hsat

theorem models_step {k : ℕ}
    (h : (r.state k).Models r.owner r.start.costOf (r.flows k))
    (hb : (r.flows k).Bounded r.start.costOf) : (∀ t, r.action k = .serve t → (r.flows k).First t) ∧
      (r.state (k + 1)).Models r.owner r.start.costOf (r.flows (k + 1)) := by
  cases hop : r.ops[k]? with
  | none =>
    have hact : r.action k = .pass := by simp only [action, hop]
    rw [flows, hact, r.state_succ_of_none hop]
    exact ⟨by simp, h⟩
  | some op =>
    rw [flows, r.state_succ hop]
    cases op with
    | push job =>
      have hact : r.action k = .arrive (r.owner job) := by simp only [action, hop]
      rw [hact]
      exact ⟨by simp, h.push hb rfl (hsat k job hop)⟩
    | pop =>
      have hpop : r.popped k = (r.state k).pop.2 := by simp only [popped, hop]; rfl
      cases hp : (r.state k).pop with
      | mk q' job? =>
        cases job? with
        | none =>
          have hact : r.action k = .pass := by simp only [action, hop, hpop, hp]
          -- nothing was popped: the queue is as it was
          have hq : q' = r.state k := by
            rcases (r.state k).pop_cases with ⟨-, heq⟩ | ⟨e, q'', -, heq, -⟩
            · rw [heq] at hp
              cases hp
              rfl
            · rw [heq] at hp
              cases hp
          rw [hact, apply, hp, hq]
          exact ⟨by simp, h⟩
        | some job =>
          have hact : r.action k = .serve (r.owner job) := by
            simp only [action, hop, hpop, hp]
          obtain ⟨hfirst, hmodels⟩ := h.pop hb hp
          rw [hact, apply, hp]
          refine ⟨?_, hmodels⟩
          rintro t ⟨⟩
          exact hfirst

theorem models (k : ℕ) :
    (r.state k).Models r.owner r.start.costOf (r.flows k) ∧ (r.flows k).Bounded r.start.costOf := by
  induction k with
  | zero => exact ⟨r.models_start, by simp [flows], by simp [flows]⟩
  | succ k ih =>
    obtain ⟨hfirst, hmodels⟩ := r.models_step hsat ih.1 ih.2
    exact ⟨hmodels, ih.2.step (Flows.step_next hfirst)⟩

/-- The run of the discipline. -/
def flowRun (hsat : r.NeverSaturates) : Flows.Run r.start.costOf where
  state := r.flows
  action := r.action
  bounded := (r.models hsat 0).2
  step k := Flows.step_next (r.models_step hsat (r.models hsat k).1 (r.models hsat k).2).1

theorem served_eq (t : TenantId) (i n : ℕ) :
    r.served t i (i + n) = (r.flowRun hsat).served t i n := by
  have hact : ∀ k, ((r.popped k).map r.owner = some t) ↔ r.action k = .serve t := by
    intro k
    cases hop : r.ops[k]? with
    | none => simp [popped, action, hop]
    | some op =>
      cases op with
      | push => simp [popped, action, hop, apply]
      | pop => cases hp : r.popped k <;> simp [action, hop, hp]
  rw [served, Nat.add_sub_cancel_left]
  induction n with
  | zero => rfl
  | succ n ih =>
    rw [range'_1_concat, countP_append, ih, Flows.Run.served, countP_singleton]
    congr 1
    simp only [decide_eq_true_eq]
    exact if_congr (hact (i + n)) rfl rfl

theorem backlog_pos {t : TenantId} {k : ℕ} (h : r.Backlogged t k) :
    0 < (r.flows k).backlog t := by
  obtain ⟨e, he, rfl⟩ := h
  exact ((r.models hsat k).1.head_le he).1

end QueueRun

/-- **Proportional fairness.**  While two tenants both have queued jobs, the jobs
popped of each, weighed with what a job of the tenant costs, differ by at most the
two costs. -/
theorem popped_in_proportion {J : Type} (r : QueueRun J) (hsat : r.NeverSaturates) {i j : ℕ}
    (hij : i ≤ j) {a b : TenantId} (ha : ∀ k, i ≤ k → k ≤ j → r.Backlogged a k)
    (hb : ∀ k, i ≤ k → k ≤ j → r.Backlogged b k) :
    |(r.served a i j : ℤ) * (cost / r.start.weightOf a : ℕ) -
        r.served b i j * (cost / r.start.weightOf b : ℕ)| ≤
      (cost / r.start.weightOf a : ℕ) + (cost / r.start.weightOf b : ℕ) := by
  obtain ⟨n, rfl⟩ := Nat.exists_eq_add_of_le hij
  have hfair := (r.flowRun hsat).fair (fun k hi hn => r.backlog_pos hsat (ha k hi hn))
    (fun k hi hn => r.backlog_pos hsat (hb k hi hn))
  rw [← r.served_eq hsat, ← r.served_eq hsat] at hfair
  exact hfair

namespace Sample

/-- A tenant of weight two. -/
def heavy : TenantId := ⟨"heavy", by decide, by decide⟩

/-- A tenant of weight one. -/
def light : TenantId := ⟨"light", by decide, by decide⟩

/-- Four jobs of each tenant are pushed, then four are popped; a job is its tenant. -/
def queueRun : QueueRun TenantId where
  owner := id
  weights := [(heavy, 2)]
  ops := List.replicate 4 (.push heavy) ++ List.replicate 4 (.push light) ++ List.replicate 4 .pop

end Sample

open Sample

theorem popped_in_proportion_sample :
    queueRun.served heavy 8 11 = 2 ∧ queueRun.served light 8 11 = 1 ∧
      |(2 : ℤ) * (500000 : ℕ) - (1 : ℤ) * (1000000 : ℕ)| ≤ (500000 : ℕ) + (1000000 : ℕ) := by
  have hsat : queueRun.NeverSaturates := by
    have hall : ∀ k < 12, ∀ job ∈ [heavy, light],
        (queueRun.state k).nextStart job + (queueRun.state k).costOf job ≤
          2 ^ 64 - 1 := by decide +kernel
    intro k job h
    have hmem := mem_of_getElem? h
    obtain ⟨hk, -⟩ := List.getElem?_eq_some_iff.1 h
    refine hall k hk job ?_
    simpa [queueRun, mem_replicate] using hmem
  have ha : ∀ k, 8 ≤ k → k ≤ 11 → queueRun.Backlogged heavy k := by
    have hall : ∀ k < 12, 8 ≤ k → ∃ e ∈ (queueRun.state k).entries,
        queueRun.owner e.job = heavy := by decide +kernel
    exact fun k h8 h11 => hall k (by omega) h8
  have hb : ∀ k, 8 ≤ k → k ≤ 11 → queueRun.Backlogged light k := by
    have hall : ∀ k < 12, 8 ≤ k → ∃ e ∈ (queueRun.state k).entries,
        queueRun.owner e.job = light := by decide +kernel
    exact fun k h8 h11 => hall k (by omega) h8
  have hserved : queueRun.served heavy 8 11 = 2 ∧
      queueRun.served light 8 11 = 1 := by decide +kernel
  have hcost : cost / queueRun.start.weightOf heavy = 500000 ∧
      cost / queueRun.start.weightOf light = 1000000 := by decide +kernel
  have hfair := popped_in_proportion queueRun hsat (i := 8) (j := 11) (by decide) ha hb
  exact ⟨hserved.1, hserved.2, hfair⟩

end Brokkr.Control
