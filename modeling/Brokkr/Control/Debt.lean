import Brokkr.Control.FairQueue

/-!
# What a tenant owes

How far a tenant's finish tag can be ahead of virtual time.  A push moves the tag on by
the tenant's cost, and what keeps the tag in reach is that virtual time follows when the
job is taken.  A job that `retain` drops leaves the tag where it is.

* `QueueCall`, `Calls` — sequences of pushes, takes, pops and retains.
* `FairQueue.Owed` — from every moment of virtual time on, the finish tag is at most one
  cost ahead, and one for each queued job of the tenant with a later tag.
* `debt_bounded` — so it is in every sequence as long as no queued job of the tenant is
  dropped.
* `debt_after_retain` — and not when jobs are dropped.
-/

namespace Brokkr.Control

open List

/-- An operation of a sequence. -/
inductive QueueCall (J : Type) where
  | push (job : J)
  | pop
  | take (index : ℕ)
  | retain (keep : J → Bool)

/-- A sequence of operations on a new queue, with the weights set before. -/
structure Calls (J : Type) where
  owner : J → TenantId
  weights : List (TenantId × ℕ)
  ops : List (QueueCall J)

namespace Calls

variable {J : Type} (r : Calls J)

/-- The queue before the first operation. -/
def start : FairQueue J := r.weights.foldl (fun q p => q.setWeight p.1 p.2) {}

/-- One operation. -/
def apply (q : FairQueue J) : QueueCall J → FairQueue J
  | .push job => q.push (r.owner job) job
  | .pop => q.pop.1
  | .take index => (q.take index).1
  | .retain keep => q.retain keep

/-- The queue after `k` operations. -/
def state (k : ℕ) : FairQueue J := (r.ops.take k).foldl r.apply r.start

theorem state_succ {k : ℕ} {op : QueueCall J} (h : r.ops[k]? = some op) :
    r.state (k + 1) = r.apply (r.state k) op := by
  rw [state, take_add_one, h, foldl_append]
  rfl

theorem state_succ_of_none {k : ℕ} (h : r.ops[k]? = none) : r.state (k + 1) = r.state k := by
  rw [state, take_add_one, h, state, Option.toList_none, append_nil]

/-- How many jobs of a tenant are queued. -/
def queued (t : TenantId) (k : ℕ) : ℕ :=
  (r.state k).entries.countP fun e => decide (r.owner e.job = t)

/-- The operation drops no queued job of a tenant. -/
def Keeps (t : TenantId) (q : FairQueue J) : QueueCall J → Prop
  | .retain keep => ∀ e ∈ q.entries, r.owner e.job = t → keep e.job = true
  | _ => True

end Calls

namespace FairQueue

variable {J : Type} {owner : J → TenantId} {t : TenantId} {q : FairQueue J}

/-- How many jobs of a tenant have a tag later than `x`. -/
def laterThan (owner : J → TenantId) (t : TenantId) (q : FairQueue J) (x : ℕ) : ℕ :=
  q.entries.countP fun e => decide (owner e.job = t) && decide (x < e.start)

/-- From `x` on, the tenant has at most this much virtual time before it. -/
def Owed (owner : J → TenantId) (t : TenantId) (q : FairQueue J) : Prop :=
  ∀ x, q.virtualTime ≤ x → q.lastFinish t ≤ x + q.costOf t * (q.laterThan owner t x + 1)

theorem Owed.push (h : Owed owner t q) (job : J) : Owed owner t (q.push (owner job) job) := by
  intro x hx
  have hold := h x hx
  have hlater : (q.push (owner job) job).laterThan owner t x = q.laterThan owner t x +
      if owner job = t ∧ x < q.nextStart (owner job) then 1 else 0 := by
    rw [laterThan, push_entries, countP_append, countP_singleton, laterThan]
    simp
  rw [lastFinish_push, push_costOf, hlater]
  by_cases ht : t = owner job
  · subst ht
    rw [if_pos rfl]
    refine (Nat.min_le_left _ _).trans ?_
    by_cases hstart : x < q.nextStart (owner job)
    · -- a tag later than `x` continues from the finish tag, and counts itself
      have heq : q.nextStart (owner job) = q.lastFinish (owner job) := by
        rw [nextStart] at hstart ⊢
        have hx' : q.virtualTime ≤ x := hx
        omega
      rw [if_pos ⟨rfl, hstart⟩, heq]
      calc q.lastFinish (owner job) + q.costOf (owner job)
          ≤ x + q.costOf (owner job) * (q.laterThan owner (owner job) x + 1) +
              q.costOf (owner job) := Nat.add_le_add_right hold _
        _ = x + q.costOf (owner job) * (q.laterThan owner (owner job) x + 1 + 1) := by ring
    · rw [if_neg fun hand => hstart hand.2]
      have hcost : q.costOf (owner job) ≤
          q.costOf (owner job) * (q.laterThan owner (owner job) x + 0 + 1) :=
        Nat.le_mul_of_pos_right _ (Nat.succ_pos _)
      omega
  · rw [if_neg ht, if_neg fun hand => ht hand.1.symm]
    exact hold

theorem Owed.take (h : Owed owner t q) (index : ℕ) : Owed owner t (q.take index).1 := by
  rcases q.take_cases index with ⟨-, heq⟩ | ⟨e, q', -, heq, hperm, htime, hcost, hfinish⟩
  · rw [heq]
    exact h
  rw [heq]
  intro x hx
  have hx' : max q.virtualTime e.start ≤ x := htime ▸ hx
  have hlater : q'.laterThan owner t x = q.laterThan owner t x := by
    rw [laterThan, laterThan, ← hperm.countP_eq, countP_cons_of_neg]
    have hnot : ¬ x < e.start := not_lt.2 ((le_max_right _ _).trans hx')
    simp [hnot]
  have hold := h x ((le_max_left _ _).trans hx')
  rw [hfinish, hcost, hlater]
  exact hold

theorem Owed.pop (h : Owed owner t q) : Owed owner t q.pop.1 := by
  rw [FairQueue.pop]
  split
  · exact h
  · exact h.take _

theorem Owed.retain (h : Owed owner t q) {keep : J → Bool}
    (hkeep : ∀ e ∈ q.entries, owner e.job = t → keep e.job = true) :
    Owed owner t (q.retain keep) := by
  intro x hx
  have hlater : (q.retain keep).laterThan owner t x = q.laterThan owner t x := by
    rw [laterThan, FairQueue.retain, laterThan, countP_filter]
    refine countP_congr fun e he => ?_
    by_cases ht : owner e.job = t
    · simp [ht, hkeep e he ht]
    · simp [ht]
  rw [hlater]
  exact h x hx

theorem costOf_take (q : FairQueue J) (index : ℕ) : (q.take index).1.costOf = q.costOf := by
  rcases q.take_cases index with ⟨-, heq⟩ | ⟨e, q', -, heq, -, -, hcost, -⟩
  · rw [heq]
  · rw [heq]
    exact hcost

end FairQueue

namespace Calls

variable {J : Type} (r : Calls J)

theorem start_owed (t : TenantId) : FairQueue.Owed r.owner t r.start := by
  have hfinish : r.start.tenantFinish = ∅ := by
    rw [start]
    induction r.weights using reverseRecOn with
    | nil => rfl
    | append_singleton l p ih =>
      rw [foldl_append]
      exact ih
  intro x _
  rw [FairQueue.lastFinish, hfinish]
  exact Nat.zero_le _

theorem costOf_apply (q : FairQueue J) (op : QueueCall J) : (r.apply q op).costOf = q.costOf := by
  cases op with
  | push => rfl
  | pop =>
    rw [apply, FairQueue.pop]
    split
    · rfl
    · exact q.costOf_take _
  | take index => exact q.costOf_take index
  | retain => rfl

theorem costOf_state (k : ℕ) : (r.state k).costOf = r.start.costOf := by
  induction k with
  | zero => rfl
  | succ k ih =>
    cases hop : r.ops[k]? with
    | none => rw [r.state_succ_of_none hop, ih]
    | some => rw [r.state_succ hop, r.costOf_apply, ih]

theorem owed {t : TenantId} {k : ℕ}
    (hkeeps : ∀ i < k, ∀ op, r.ops[i]? = some op → r.Keeps t (r.state i) op) :
    (r.state k).Owed r.owner t := by
  induction k with
  | zero => exact r.start_owed t
  | succ k ih =>
    have hold := ih fun i hi => hkeeps i (hi.trans (Nat.lt_succ_self k))
    cases hop : r.ops[k]? with
    | none =>
      rw [r.state_succ_of_none hop]
      exact hold
    | some op =>
      rw [r.state_succ hop]
      cases op with
      | push job => exact hold.push job
      | pop => exact hold.pop
      | take index => exact hold.take index
      | retain => exact hold.retain (hkeeps k (Nat.lt_succ_self k) _ hop)

end Calls

/-- **Bounded debt.**  A tenant none of whose queued jobs was dropped has a finish tag that
is ahead of virtual time by at most its cost for each of its queued jobs and one more. -/
theorem debt_bounded {J : Type} (r : Calls J) (t : TenantId) (k : ℕ)
    (hkeeps : ∀ i < k, ∀ op, r.ops[i]? = some op → r.Keeps t (r.state i) op) :
    (r.state k).lastFinish t ≤
      (r.state k).virtualTime + cost / r.start.weightOf t * (r.queued t k + 1) := by
  have howed := r.owed hkeeps (r.state k).virtualTime le_rfl
  rw [r.costOf_state] at howed
  refine howed.trans (Nat.add_le_add_left (Nat.mul_le_mul_left _ ?_) _)
  refine Nat.succ_le_succ (countP_mono_left fun e _ he => ?_)
  exact (Bool.and_eq_true_iff.1 he).1

namespace Sample

/-- Two jobs of one tenant and one of another are pushed, a job is popped, and jobs are
dropped; a job is its tenant. -/
def dropped (keep : TenantId → Bool) : Calls TenantId where
  owner := id
  weights := [(heavy, 2)]
  ops := [.push heavy, .push heavy, .push light, .pop, .retain keep]

end Sample

open Sample

theorem debt_bounded_sample :
    ((dropped fun t => decide (t ≠ light)).state 5).lastFinish heavy ≤
      0 + cost / (dropped fun t => decide (t ≠ light)).start.weightOf heavy * (1 + 1) := by
  have htime : ((dropped fun t => decide (t ≠ light)).state 5).virtualTime = 0 := by
    decide +kernel
  have hqueued : (dropped fun t => decide (t ≠ light)).queued heavy 5 = 1 := by
    decide +kernel
  have hbound := debt_bounded (dropped fun t => decide (t ≠ light)) heavy 5 (by
    intro i hi op hop
    cases op with
    | retain =>
      have hfour : i = 4 := by
        have : i = 0 ∨ i = 1 ∨ i = 2 ∨ i = 3 ∨ i = 4 := by omega
        rcases this with rfl | rfl | rfl | rfl | rfl <;> first | rfl | cases hop
      subst hfour
      cases hop
      intro e _ he
      rw [show e.job = heavy from he]
      decide
    | _ => trivial)
  exact hbound

/-- When the queued job of the tenant is dropped, the tenant still has to wait for its time. -/
theorem debt_after_retain :
    ((dropped fun t => decide (t ≠ heavy)).state 5).virtualTime = 0 ∧
      (dropped fun t => decide (t ≠ heavy)).queued heavy 5 = 0 ∧
      ¬ ((dropped fun t => decide (t ≠ heavy)).state 5).lastFinish heavy ≤
        0 + cost / (dropped fun t => decide (t ≠ heavy)).start.weightOf heavy * (0 + 1) := by
  decide +kernel

end Brokkr.Control
