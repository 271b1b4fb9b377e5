import Brokkr.Control.FairQueue

/-!
# The order of one tenant's jobs

`fairqueue.rs` keeps its entries in a vector that `swap_remove` reorders, so the
order of a tenant's jobs rests on their start tags alone.

* `FairQueue.popped`, `FairQueue.pushed` — the jobs that a sequence of weight
  changes, pushes and pops returns and takes in.
* `FairQueue.InOrder` — the queued jobs of a tenant, in the order they were pushed,
  have increasing tags, all below the tenant's finish tag.
  `FairQueue.InOrder.setWeight`, `FairQueue.InOrder.push` and
  `FairQueue.InOrder.pop` are its steps.
* `popped_in_order` — a tenant's jobs are popped in the order they were pushed,
  unless a weight above `cost` was set for it.  `reordered_by_weight` — with such a
  weight a job costs nothing, the tags of the tenant's jobs are equal, and the jobs
  come out of order.

A job knows its tenant (`owner`); the queue itself does not look at its jobs.
-/

namespace Brokkr.Control

open List

/-- An operation on the queue. -/
inductive FairOp (J : Type) where
  | setWeight (tenant : TenantId) (weight : ℕ)
  | push (job : J)
  | pop

namespace FairQueue

variable {J : Type} (owner : J → TenantId)

/-- One operation, with the job it returns. -/
def apply (q : FairQueue J) : FairOp J → FairQueue J × Option J
  | .setWeight tenant weight => (q.setWeight tenant weight, none)
  | .push job => (q.push (owner job) job, none)
  | .pop => q.pop

/-- The jobs a sequence of operations pops, in order. -/
def popped (q : FairQueue J) : List (FairOp J) → List J
  | [] => []
  | op :: ops => (q.apply owner op).2.toList ++ popped (q.apply owner op).1 ops

/-- The jobs a sequence of operations pushes, in order. -/
def pushed : List (FairOp J) → List J
  | [] => []
  | .push job :: ops => job :: pushed ops
  | _ :: ops => pushed ops

/-- The finish tag of the job an operation pushes is at most `u64::MAX`. -/
def Fits (q : FairQueue J) : FairOp J → Prop
  | .push job => q.nextStart (owner job) + q.costOf (owner job) ≤ 2 ^ 64 - 1
  | _ => True

/-- No finish tag of a sequence saturates. -/
def NeverSaturates (q : FairQueue J) : List (FairOp J) → Prop
  | [] => True
  | op :: ops => q.Fits owner op ∧ NeverSaturates (q.apply owner op).1 ops

/-- The jobs of a tenant in a list. -/
def jobsOf (t : TenantId) (jobs : List J) : List J := jobs.filter fun job => decide (owner job = t)

/-- The entries of a tenant in a list. -/
def entriesOf (t : TenantId) (entries : List (Entry J)) : List (Entry J) :=
  entries.filter fun e => decide (owner e.job = t)

variable {owner}

theorem entriesOf_append_singleton (t : TenantId) (entries : List (Entry J)) (e : Entry J) :
    entriesOf owner t (entries ++ [e]) =
      entriesOf owner t entries ++ if owner e.job = t then [e] else [] := by
  rw [entriesOf, filter_append, filter_singleton, entriesOf]
  simp only [Bool.cond_decide]

theorem jobsOf_cons (t : TenantId) (job : J) (jobs : List J) :
    jobsOf owner t (job :: jobs) =
      if owner job = t then job :: jobsOf owner t jobs else jobsOf owner t jobs := by
  rw [jobsOf, filter_cons, jobsOf]
  simp only [decide_eq_true_eq]

/-- The queued jobs of a tenant, as they were pushed: their tags increase, and the
tenant's next tag is above all of them. -/
structure InOrder (owner : J → TenantId) (t : TenantId) (q : FairQueue J)
    (waiting : List (Entry J)) : Prop where
  entries : waiting.Perm (entriesOf owner t q.entries)
  increasing : waiting.Pairwise fun a b => a.start < b.start
  finished : ∀ e ∈ waiting, e.start < q.lastFinish t
  costs : 0 < q.costOf t

namespace InOrder

variable {t : TenantId} {q : FairQueue J} {waiting : List (Entry J)}

theorem new (t : TenantId) : InOrder owner t ({} : FairQueue J) [] where
  entries := List.Perm.refl _
  increasing := List.Pairwise.nil
  finished := by simp
  costs := by
    rw [costOf, weightOf, OrdMap.get?_empty]
    decide

variable (h : InOrder owner t q waiting)

include h

theorem setWeight {tenant : TenantId} {weight : ℕ}
    (hw : tenant = t → weight ≤ cost) : InOrder owner t (q.setWeight tenant weight) waiting where
  entries := h.entries
  increasing := h.increasing
  finished := h.finished
  costs := by
    have hget := OrdMap.get?_insert q.weights tenant (max weight 1) t
    by_cases ht : t = tenant
    · have hle := hw ht.symm
      have hweight : (q.setWeight tenant weight).weightOf t = max (max weight 1) 1 := by
        rw [weightOf, FairQueue.setWeight, hget, if_pos ht, Option.getD_some]
      apply Nat.div_pos
      · have hone : 1 ≤ cost := by decide
        omega
      · omega
    · have hweight : (q.setWeight tenant weight).weightOf t = q.weightOf t := by
        rw [weightOf, FairQueue.setWeight, hget, if_neg ht, weightOf]
      rw [costOf, hweight]
      exact h.costs

theorem push {job : J} (hsat : q.Fits owner (.push job)) :
    InOrder owner t (q.push (owner job) job)
      (waiting ++ if owner job = t then [⟨q.nextStart t, job⟩] else []) := by
  by_cases ht : owner job = t
  · subst ht
    have hnext : ∀ e ∈ waiting, e.start < q.nextStart (owner job) := by
      intro e he
      exact lt_of_lt_of_le (h.finished e he) (le_max_right _ _)
    have hfinish : (q.push (owner job) job).lastFinish (owner job) =
        q.nextStart (owner job) + q.costOf (owner job) := by
      rw [lastFinish_push, if_pos rfl, U64.saturatingAdd_of_le hsat]
    have hcost := h.costs
    rw [if_pos rfl]
    refine ⟨?_, ?_, ?_, ?_⟩
    · rw [push_entries, entriesOf_append_singleton, if_pos rfl]
      exact h.entries.append_right _
    · rw [pairwise_append]
      refine ⟨h.increasing, pairwise_singleton _ _, ?_⟩
      intro a ha b hb
      rw [mem_singleton.1 hb]
      exact hnext a ha
    · intro e he
      rw [hfinish]
      rcases mem_append.1 he with hold | hnew
      · have := hnext e hold
        omega
      · rw [mem_singleton.1 hnew]
        exact Nat.lt_add_of_pos_right hcost
    · exact hcost
  · rw [if_neg ht, append_nil]
    refine ⟨?_, h.increasing, ?_, h.costs⟩
    · rw [push_entries, entriesOf_append_singleton, if_neg ht, append_nil]
      exact h.entries
    · rw [lastFinish_push, if_neg (Ne.symm ht)]
      exact h.finished

theorem pop :
    ∃ rest, InOrder owner t q.pop.1 rest ∧
      waiting.map Entry.job = jobsOf owner t q.pop.2.toList ++ rest.map Entry.job := by
  rcases q.pop_cases with ⟨-, hnone⟩ | ⟨e, q', hle, hsome, hperm, -, hcost, hfinish⟩
  · rw [hnone]
    exact ⟨waiting, h, rfl⟩
  rw [hsome]
  have hentries : waiting.Perm (entriesOf owner t (e :: q'.entries)) :=
    h.entries.trans (hperm.filter _).symm
  by_cases ht : owner e.job = t
  · have hcons : entriesOf owner t (e :: q'.entries) = e :: entriesOf owner t q'.entries :=
      filter_cons_of_pos (by simpa using ht)
    rw [hcons] at hentries
    have hmem : e ∈ waiting := hentries.symm.subset mem_cons_self
    -- the least tag of all belongs to the job that was pushed first
    obtain ⟨first, rest, rfl⟩ := exists_cons_of_ne_nil (ne_nil_of_mem hmem)
    obtain ⟨hfirst, hrest⟩ := pairwise_cons.1 h.increasing
    have hfirst_mem : first ∈ q.entries :=
      mem_of_mem_filter (h.entries.subset mem_cons_self)
    have heq : e = first := by
      rcases mem_cons.1 hmem with heq | hlater
      · exact heq
      · exact absurd (hle first hfirst_mem) (not_le.2 (hfirst e hlater))
    subst heq
    refine ⟨rest, ⟨hentries.cons_inv, hrest, ?_, hcost ▸ h.costs⟩, ?_⟩
    · intro e' he'
      rw [hfinish]
      exact h.finished e' (mem_cons_of_mem _ he')
    · simp [jobsOf, ht]
  · have hcons : entriesOf owner t (e :: q'.entries) = entriesOf owner t q'.entries :=
      filter_cons_of_neg (by simpa using ht)
    rw [hcons] at hentries
    refine ⟨waiting, ⟨hentries, h.increasing, hfinish ▸ h.finished, hcost ▸ h.costs⟩, ?_⟩
    simp [jobsOf, ht]

theorem popped {ops : List (FairOp J)}
    (hsat : q.NeverSaturates owner ops) (hw : ∀ w, .setWeight t w ∈ ops → w ≤ cost) :
    jobsOf owner t (q.popped owner ops) <+:
      waiting.map Entry.job ++ jobsOf owner t (pushed ops) := by
  induction ops generalizing q waiting with
  | nil => exact List.nil_prefix
  | cons op ops ih =>
    obtain ⟨hfits, hsat⟩ := hsat
    have hw' : ∀ w, .setWeight t w ∈ ops → w ≤ cost :=
      fun w hmem => hw w (mem_cons_of_mem _ hmem)
    cases op with
    | setWeight tenant weight =>
      have hweight : tenant = t → weight ≤ cost := by
        rintro rfl
        exact hw weight mem_cons_self
      exact ih (h.setWeight hweight) hsat hw'
    | push job =>
      have hnext := ih (h.push hfits) hsat hw'
      rw [pushed, jobsOf_cons]
      by_cases ht : owner job = t
      · rw [if_pos ht] at hnext ⊢
        rw [map_append, append_assoc] at hnext
        exact hnext
      rw [if_neg ht] at hnext ⊢
      rw [append_nil] at hnext
      exact hnext
    | pop =>
      obtain ⟨rest, hrest, hwaiting⟩ := h.pop
      have hnext := ih hrest hsat hw'
      rw [hwaiting, FairQueue.popped, jobsOf, filter_append, append_assoc]
      exact (List.prefix_append_right_inj _).2 hnext

end InOrder

end FairQueue

/-- **Per-tenant order.**  After any weight changes, pushes and pops, none of which
saturates a tag, the jobs popped of a tenant are the first ones that were pushed for
it, in that order, if no weight above `cost` was set for the tenant. -/
theorem popped_in_order {J : Type} (owner : J → TenantId) (ops : List (FairOp J))
    (hsat : ({} : FairQueue J).NeverSaturates owner ops) (t : TenantId)
    (hw : ∀ weight, .setWeight t weight ∈ ops → weight ≤ cost) :
    FairQueue.jobsOf owner t (({} : FairQueue J).popped owner ops) <+:
      FairQueue.jobsOf owner t (FairQueue.pushed ops) :=
  (FairQueue.InOrder.new t).popped hsat hw

namespace Sample

/-- Three jobs of one tenant are pushed under a weight, then popped. -/
def weighted (weight : ℕ) : List (FairOp ℕ) :=
  [.setWeight heavy weight, .push 0, .push 1, .push 2, .pop, .pop, .pop]

end Sample

open Sample

theorem popped_in_order_sample :
    ({} : FairQueue ℕ).popped (fun _ => heavy) (weighted 2) = [0, 1, 2] ∧
      FairQueue.jobsOf (fun _ => heavy) heavy
          (({} : FairQueue ℕ).popped (fun _ => heavy) (weighted 2)) <+:
        FairQueue.jobsOf (fun _ => heavy) heavy
          (FairQueue.pushed (weighted 2)) := by
  refine ⟨by decide +kernel, popped_in_order _ _ ?_ _ ?_⟩
  · refine ⟨trivial, ?_, ?_, ?_, trivial, trivial, trivial, trivial⟩ <;>
      simp only [FairQueue.Fits] <;> decide +kernel
  intro weight hmem
  have hweight : weight = 2 := by simpa [weighted] using hmem
  rw [hweight]
  decide

/-- Under a weight above `cost` all three jobs get the tag `0`.  The first pop moves
the last job to the front of the vector, so it is popped before the second. -/
theorem reordered_by_weight :
    cost < 2000000 ∧ 2000000 < 2 ^ 32 ∧
      ({} : FairQueue ℕ).NeverSaturates (fun _ => heavy) (weighted 2000000) ∧
      FairQueue.pushed (weighted 2000000) = [0, 1, 2] ∧
      ({} : FairQueue ℕ).popped (fun _ => heavy) (weighted 2000000) = [0, 2, 1] := by
  refine ⟨by decide, by decide, ?_, rfl, by decide +kernel⟩
  refine ⟨trivial, ?_, ?_, ?_, trivial, trivial, trivial, trivial⟩ <;>
    simp only [FairQueue.Fits] <;> decide +kernel

end Brokkr.Control
