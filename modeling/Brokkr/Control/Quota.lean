import Brokkr.Control.Runs

/-!
# Quota slots and waiters

Every `execute` call that passes admission takes a slot of its tenant and gives it back
when it ends, whichever way it ends; and every call registers a waiter, which is gone
when the call is.

* `Core.holders` — the calls of a tenant that passed admission and have not given their
  slot back.
* `Slots` — the counters of the tenants are the numbers of holders, and every holder has
  the release of its slot still before it.
* `Waited` — every registered waiter belongs to a call that is still waiting.
* `slots_accounted` — both, in every run: the counters are exact, the quota is never
  exceeded, and when no `execute` call is in progress nothing is left behind.
-/

namespace Brokkr.Control

open Option

open OrdMap

open List

variable {sch : Scheduler} {c c' : Core} {ch : Choice} {now : Instant} {seg : Segment}
  {next others : List Segment} {j : JobId}

/-! ## Slots -/

/-- The mark is about a slot of a tenant. -/
def Mark.movesSlot : Mark → Bool
  | .admitted .. | .released .. => true
  | _ => false

/-- A call of the tenant passed admission, and it is not in the record that it gave its slot
back. -/
def Mark.holds (history : List Mark) (t : TenantId) : Mark → Bool
  | .admitted job tenant => decide (tenant = t) && decide (.released job tenant ∉ history)
  | _ => false

/-- How many calls of a tenant passed admission and have not given their slot back. -/
def Core.holders (c : Core) (t : TenantId) : ℕ := c.history.countP (Mark.holds c.history t)

/-- The segment gives the slot of a job back. -/
def Segment.releases (j : JobId) (t : TenantId) : Segment → Bool
  | .release job tenant => decide (job = j) && decide (tenant = t)
  | _ => false

theorem Ran.slots (h : Ran sch c ch now seg c' next) :
    (∃ pj timeout, seg = .admission pj timeout ∧ c' = c.admitJob pj ∧
      next = [.dispatch, .startWait pj.jobId timeout, .release pj.jobId pj.tenant] ∧
      ∀ limit, sch.maxConcurrentPerTenant = some limit →
        c.inner.tenantInflightOf pj.tenant < limit) ∨
      (∃ j t, seg = .release j t ∧ c'.inner = c.inner.decTenant t ∧
        c'.history = .released j t :: c.history ∧ next = []) ∨
      (c'.inner.tenantInflight = c.inner.tenantInflight ∧ (∀ j t, seg.releases j t = false) ∧
        (∀ x ∈ next, ∀ j t, x.releases j t = false) ∧
        ∃ marks, c'.history = marks ++ c.history ∧ ∀ m ∈ marks, m.movesSlot = false) := by
  have hmarks := h.marks
  have hnext : (∀ pj timeout, seg ≠ .admission pj timeout) →
      ∀ x ∈ next, ∀ j t, x.releases j t = false := by
    intro hseg x hx
    cases h.follows x hx with
    | release pj timeout => exact absurd rfl (hseg pj timeout)
    | _ => exact fun _ _ => rfl
  cases h with
  | @admitted pj timeout hfree => exact .inl ⟨pj, timeout, rfl, rfl, rfl, hfree⟩
  | @release job tenant inflight hinner =>
    exact .inr (.inl ⟨job, tenant, rfl, hinner.symm, rfl, rfl⟩)
  | rejected =>
    exact .inr (.inr ⟨rfl, fun _ _ => rfl, forall_mem_singleton.2 fun _ _ => rfl, [], rfl,
      forall_mem_nil _⟩)
  | placed hsome =>
    obtain ⟨_, _, _, _, -, -, -, -, -, hinner⟩ := Scheduler.place_spec hsome
    refine .inr (.inr ⟨?_, fun _ _ => rfl, forall_mem_singleton.2 fun _ _ => rfl, [_], rfl,
      forall_mem_singleton.2 rfl⟩)
    rw [Core.afterPlace, hinner]
  | _ =>
    obtain ⟨marks, heq, hmarks⟩ := hmarks
    refine .inr (.inr ⟨rfl, fun _ _ => rfl, hnext fun _ _ => Segment.noConfusion, marks, heq, ?_⟩)
    intro m hm
    cases hmarks m hm <;> rfl

/-! ### The record -/

section Holders

variable {h : List Mark} {t : TenantId}

theorem holders_append {marks : List Mark} (hmarks : ∀ m ∈ marks, m.movesSlot = false) :
    (marks ++ h).countP (Mark.holds (marks ++ h) t) = h.countP (Mark.holds h t) := by
  have hmem : ∀ j u, Mark.released j u ∈ marks ++ h ↔ Mark.released j u ∈ h := by
    intro j u
    rw [mem_append]
    refine ⟨fun hm => hm.resolve_left fun hm => ?_, .inr⟩
    cases hmarks _ hm
  have hzero : marks.countP (Mark.holds (marks ++ h) t) = 0 := by
    refine countP_eq_zero.2 ?_
    intro m hm hholds
    have := hmarks m hm
    cases m <;> first | cases hholds | cases this
  rw [countP_append, hzero, Nat.zero_add]
  refine countP_congr ?_
  intro m _
  cases m with
  | admitted => simp [Mark.holds, hmem]
  | _ => rfl

theorem holders_admitted {u : TenantId} (hnew : .released j u ∉ h) :
    (.admitted j u :: h).countP (Mark.holds (.admitted j u :: h) t) =
      h.countP (Mark.holds h t) + if u = t then 1 else 0 := by
  have hsame : h.countP (Mark.holds (.admitted j u :: h) t) = h.countP (Mark.holds h t) := by
    refine countP_congr ?_
    intro m _
    cases m with
    | admitted => simp [Mark.holds]
    | _ => rfl
  rw [countP_cons, hsame]
  simp [Mark.holds, hnew]

theorem countP_and_ne {α : Type} [DecidableEq α] (p : α → Bool) (a : α) (l : List α) :
    l.countP (fun x => p x && decide (x ≠ a)) + (if p a = true then l.count a else 0) =
      l.countP p := by
  induction l with
  | nil => simp
  | cons x l ih =>
    rw [countP_cons, countP_cons, count_cons, ← ih]
    by_cases hx : x = a
    · subst hx
      cases p x with
      | true => simp; omega
      | false => simp
    · cases p x with
      | true => simp [hx]; omega
      | false => simp [hx]

theorem holders_released {u : TenantId} (hone : h.count (.admitted j u) = 1)
    (hnew : .released j u ∉ h) :
    (.released j u :: h).countP (Mark.holds (.released j u :: h) t) + (if u = t then 1 else 0) =
      h.countP (Mark.holds h t) := by
  have hsame : (.released j u :: h).countP (Mark.holds (.released j u :: h) t) =
      h.countP fun m => Mark.holds h t m && decide (m ≠ .admitted j u) := by
    rw [countP_cons, if_neg (by simp [Mark.holds]), Nat.add_zero]
    refine countP_congr ?_
    intro m _
    cases m with
    | admitted =>
      simp only [Mark.holds, mem_cons, Mark.released.injEq, Mark.admitted.injEq, ne_eq,
        Bool.and_eq_true, decide_eq_true_eq, not_or]
      tauto
    | _ => simp [Mark.holds]
  have hcount := countP_and_ne (Mark.holds h t) (.admitted j u) h
  have hholds : Mark.holds h t (.admitted j u) = decide (u = t) := by
    simp [Mark.holds, hnew]
  rw [hsame, ← hcount, hholds, hone]
  by_cases ht : u = t <;> simp [ht]

end Holders

/-! ### The counters -/

namespace Inner

variable (inner : Inner) (t u : TenantId)

theorem tenantInflightOf_incTenant : (inner.incTenant u).tenantInflightOf t =
      inner.tenantInflightOf t + if u = t then 1 else 0 := by
  rw [tenantInflightOf, incTenant, get?_insert]
  by_cases h : t = u
  · subst h
    simp
  · rw [if_neg h, if_neg (Ne.symm h)]
    rfl

theorem tenantInflightOf_decTenant (hpos : 0 < inner.tenantInflightOf u) :
    (inner.decTenant u).tenantInflightOf t + (if u = t then 1 else 0) =
      inner.tenantInflightOf t := by
  cases hget : inner.tenantInflight.get? u with
  | none =>
    rw [tenantInflightOf, hget] at hpos
    cases hpos
  | some n =>
    have hn : inner.tenantInflightOf u = n := by
      rw [tenantInflightOf, hget]
      rfl
    by_cases h : t = u
    · subst h
      rw [hn, if_pos rfl, decTenant, hget]
      simp only
      split
      · rw [tenantInflightOf, get?_erase, if_pos rfl]
        simp only [getD_none]
        omega
      rw [tenantInflightOf, get?_insert, if_pos rfl]
      simp only [getD_some]
      omega
    · rw [if_neg (Ne.symm h), Nat.add_zero, decTenant, hget]
      simp only
      split
      · rw [tenantInflightOf, get?_erase, if_neg h]
        rfl
      · rw [tenantInflightOf, get?_insert, if_neg h]
        rfl

theorem get?_incTenant_pos (h : ∀ t n, inner.tenantInflight.get? t = some n → 0 < n) (n : ℕ)
    (hn : (inner.incTenant u).tenantInflight.get? t = some n) : 0 < n := by
  rw [incTenant, get?_insert] at hn
  split at hn
  · cases hn
    exact Nat.succ_pos _
  · exact h t n hn

theorem get?_decTenant_pos (h : ∀ t n, inner.tenantInflight.get? t = some n → 0 < n) (n : ℕ)
    (hn : (inner.decTenant u).tenantInflight.get? t = some n) : 0 < n := by
  rw [decTenant] at hn
  split at hn
  · exact h t n hn
  split at hn
  · obtain ⟨-, hn⟩ := of_get?_erase hn
    exact h t n hn
  rw [get?_insert] at hn
  split at hn
  · cases hn
    omega
  · exact h t n hn

end Inner

/-- The books of the slots. -/
structure Slots (sch : Scheduler) (s : State) : Prop where
  once : ∀ j t, s.core.history.count (.admitted j t) ≤ 1
  balance : ∀ j t, s.segments.countP (Segment.releases j t) +
    s.core.history.count (.released j t) = s.core.history.count (.admitted j t)
  counted : ∀ t, s.core.inner.tenantInflightOf t = s.core.holders t
  pos : ∀ t n, s.core.inner.tenantInflight.get? t = some n → 0 < n
  quota : ∀ limit, sch.maxConcurrentPerTenant = some limit →
    ∀ t, s.core.inner.tenantInflightOf t ≤ limit

theorem Tracked.count_admitted {s : State} (h : Tracked s) {pj : PendingJob} {timeout : Duration}
    (hseg : .admission pj timeout ∈ s.segments) (t : TenantId) :
    s.core.history.count (.admitted pj.jobId t) = 0 := by
  rw [count_eq_zero]
  intro hmem
  have hadm : s.core.isAdmitted pj.jobId = true :=
    any_eq_true.2 ⟨_, hmem, by simp [Mark.admits]⟩
  rw [h.not_admitted hseg] at hadm
  cases hadm

namespace Slots

variable {s s' : State} {e : Event}

theorem init (r : SchedulerRun) : Slots r.scheduler r.init where
  once j t := Nat.zero_le _
  balance j t := rfl
  counted t := rfl
  pos t n h := by cases h
  quota limit h t := Nat.zero_le _

variable (h : Slots sch s)

include h

theorem not_released {t : TenantId}
    (hzero : s.core.history.count (.admitted j t) = 0) : .released j t ∉ s.core.history := by
  have hbalance := h.balance j t
  exact count_eq_zero.1 (by omega)

theorem admission {pj : PendingJob} {timeout : Duration}
    (hzero : ∀ t, s.core.history.count (.admitted pj.jobId t) = 0)
    (hfree : ∀ limit, sch.maxConcurrentPerTenant = some limit →
      s.core.inner.tenantInflightOf pj.tenant < limit)
    (hbefore : s.segments.Perm (.admission pj timeout :: others))
    (hcore : s'.core = s.core.admitJob pj) (hafter : s'.segments.Perm
      (.dispatch :: .startWait pj.jobId timeout :: .release pj.jobId pj.tenant :: others)) :
    Slots sch s' := by
  have hhistory : s'.core.history = .admitted pj.jobId pj.tenant :: s.core.history := by
    rw [hcore]
    rfl
  have hinflight : ∀ t, s'.core.inner.tenantInflightOf t =
      s.core.inner.tenantInflightOf t + if pj.tenant = t then 1 else 0 := by
    intro t
    rw [hcore]
    exact Inner.tenantInflightOf_incTenant _ _ _
  refine ⟨?_, ?_, ?_, ?_, ?_⟩
  · intro j t
    have honce := h.once j t
    rw [hhistory, count_cons]
    split
    · rename_i heq
      cases eq_of_beq heq
      rw [hzero]
    · exact honce
  · intro j t
    have hbalance := h.balance j t
    rw [hbefore.countP_eq] at hbalance
    rw [hafter.countP_eq, hhistory]
    simp only [countP_cons, count_cons, Segment.releases] at hbalance ⊢
    by_cases hj : pj.jobId = j
    · by_cases ht : pj.tenant = t <;> simp [hj, ht] at hbalance ⊢ <;> omega
    · simp [hj] at hbalance ⊢
      omega
  · intro t
    rw [hinflight, h.counted, Core.holders, Core.holders, hhistory,
      holders_admitted (h.not_released (hzero pj.tenant))]
  · rw [hcore]
    exact fun t n hn => Inner.get?_incTenant_pos _ t pj.tenant h.pos n hn
  · intro limit hlimit t
    rw [hinflight]
    have hquota := h.quota limit hlimit t
    split
    · rename_i heq
      subst heq
      have := hfree limit hlimit
      omega
    · exact hquota

theorem release {j₀ : JobId} {t₀ : TenantId}
    (hbefore : s.segments.Perm (.release j₀ t₀ :: others))
    (hinner : s'.core.inner = s.core.inner.decTenant t₀)
    (hhistory : s'.core.history = .released j₀ t₀ :: s.core.history)
    (hafter : s'.segments.Perm others) : Slots sch s' := by
  have hbal := h.balance j₀ t₀
  rw [hbefore.countP_eq, countP_cons, if_pos (by simp [Segment.releases])] at hbal
  have honce := h.once j₀ t₀
  have hone : s.core.history.count (.admitted j₀ t₀) = 1 := by omega
  have hnew : .released j₀ t₀ ∉ s.core.history := count_eq_zero.1 (by omega)
  have hholders : ∀ t, s'.core.holders t + (if t₀ = t then 1 else 0) = s.core.holders t := by
    intro t
    rw [Core.holders, hhistory]
    exact holders_released hone hnew
  have hpos : 0 < s.core.inner.tenantInflightOf t₀ := by
    rw [h.counted, ← hholders, if_pos rfl]
    exact Nat.succ_pos _
  have hinflight : ∀ t, s'.core.inner.tenantInflightOf t + (if t₀ = t then 1 else 0) =
      s.core.inner.tenantInflightOf t := by
    intro t
    rw [hinner]
    exact Inner.tenantInflightOf_decTenant _ _ _ hpos
  refine ⟨?_, ?_, ?_, ?_, ?_⟩
  · intro j t
    rw [hhistory, count_cons]
    simpa using h.once j t
  · intro j t
    have hbalance := h.balance j t
    rw [hbefore.countP_eq] at hbalance
    rw [hafter.countP_eq, hhistory]
    simp only [countP_cons, count_cons, Segment.releases] at hbalance ⊢
    by_cases hj : j₀ = j
    · by_cases ht : t₀ = t <;> simp [hj, ht] at hbalance ⊢ <;> omega
    · simp [hj] at hbalance ⊢
      omega
  · intro t
    have := hinflight t
    have := hholders t
    have := h.counted t
    omega
  · rw [hinner]
    exact fun t n hn => Inner.get?_decTenant_pos _ t t₀ h.pos n hn
  · intro limit hlimit t
    have := hinflight t
    have := h.quota limit hlimit t
    omega

theorem other (hbefore : s.segments.Perm (seg :: others))
    (hseg : ∀ j t, seg.releases j t = false) (hnext : ∀ x ∈ next, ∀ j t, x.releases j t = false)
    (hinflight : s'.core.inner.tenantInflight = s.core.inner.tenantInflight)
    (hhistory : ∃ marks, s'.core.history = marks ++ s.core.history ∧
      ∀ m ∈ marks, m.movesSlot = false) (hafter : s'.segments.Perm (next ++ others)) :
    Slots sch s' := by
  obtain ⟨marks, heq, hmarks⟩ := hhistory
  have hcount : ∀ m : Mark, m.movesSlot = true →
      s'.core.history.count m = s.core.history.count m := by
    intro m hm
    rw [heq, count_append, count_eq_zero.2, Nat.zero_add]
    intro hmem
    rw [hmarks m hmem] at hm
    cases hm
  have hsame : ∀ t, s'.core.inner.tenantInflightOf t = s.core.inner.tenantInflightOf t := by
    intro t
    rw [Inner.tenantInflightOf, hinflight]
    rfl
  refine ⟨?_, ?_, ?_, ?_, ?_⟩
  · intro j t
    rw [hcount _ rfl]
    exact h.once j t
  · intro j t
    rw [hcount _ rfl, hcount _ rfl, ← h.balance j t, hafter.countP_eq, hbefore.countP_eq,
      countP_append, countP_cons, hseg j t, countP_eq_zero.2]
    · simp
    · intro x hx
      simp [hnext x hx j t]
  · intro t
    rw [hsame, h.counted, Core.holders, Core.holders, heq, holders_append hmarks]
  · rw [hinflight]
    exact h.pos
  · intro limit hlimit t
    rw [hsame]
    exact h.quota limit hlimit t

theorem step (ht : Tracked s) (hs : Stepped sch s e s') : Slots sch s' := by
  cases hs with
  | idle => exact ⟨h.once, h.balance, h.counted, h.pos, h.quota⟩
  | @started task call s₁ code hfree hbegun =>
    refine ⟨h.once, ?_, h.counted, h.pos, h.quota⟩
    intro j t
    have hcode : code.countP (Segment.releases j t) = 0 := by
      cases hbegun <;> simp [Segment.releases]
    rw [State.countP_enter hfree, hcode, Nat.zero_add]
    exact h.balance j t
  | @ran task t ch seg rest core next hmove htask hcode hran =>
    obtain ⟨others, hbefore, hafter⟩ := State.segments_advance htask hcode e.now core next
    rcases hran.slots with ⟨pj, timeout, rfl, rfl, rfl, hfree⟩ |
      ⟨j, t, rfl, hinner, hhistory, rfl⟩ | ⟨hinflight, hseg, hnext, hhistory⟩
    · exact h.admission (ht.count_admitted (State.mem_code htask hcode)) hfree hbefore rfl hafter
    · exact h.release hbefore hinner hhistory hafter
    · exact h.other hbefore hseg hnext hinflight hhistory hafter

end Slots

theorem SchedulerRun.slots (r : SchedulerRun) (k : ℕ) : Slots r.scheduler (r.state k) :=
  r.induction (M := Slots r.scheduler) (.init r) (fun k _ _ h _ hs => h.step (r.tracked k) hs) k

/-! ## Waiters -/

namespace Segment

/-- The segment belongs to an `execute` call. -/
def ofExecute : Segment → Bool
  | .registerWaiter .. | .admission .. | .withdrawWaiter .. | .startWait .. | .awaitResult ..
  | .expireWaiter .. | .cancel .. | .recordResult .. | .release .. => true
  | _ => false

/-- The job whose waiter the call still looks after here. -/
def waiter? : Segment → Option JobId
  | .admission pj _ => some pj.jobId
  | .withdrawWaiter job _ => some job
  | .startWait job _ => some job
  | .awaitResult job _ _ => some job
  | .expireWaiter job _ => some job
  | _ => none

/-- The job whose waiter the segment registers. -/
def registered? : Segment → Option JobId
  | .registerWaiter job => some job
  | _ => none

/-- The segment registers the waiter of a job. -/
def registers (j : JobId) (seg : Segment) : Bool := decide (seg.registered? = some j)

theorem ofExecute_of_waiter? (h : seg.waiter? = some j) :
    seg.ofExecute = true := by
  cases seg <;> first | rfl | cases h

end Segment

/-- The call is an `execute` call. -/
def Call.isExecute : Call → Bool
  | .execute _ => true
  | _ => false

/-- A waiter is looked after by what comes after its registration. -/
def announced : List Segment → Bool
  | [] => true
  | seg :: rest =>
    (seg.registered?.all fun job => rest.any fun x => decide (x.waiter? = some job)) &&
      announced rest

theorem Ran.registers (h : Ran sch c ch now seg c' next) :
    ∀ x ∈ next, x.registered? = none ∧ (x.ofExecute = true → seg.ofExecute = true) := by
  intro x hx
  cases h.follows x hx with
  | dispatch => exact ⟨rfl, Bool.noConfusion⟩
  | failJob => exact ⟨rfl, Bool.noConfusion⟩
  | _ => exact ⟨rfl, fun hx => hx⟩

theorem announced_append {rest : List Segment} (hrest : announced rest = true)
    (hnext : ∀ x ∈ next, x.registered? = none) : announced (next ++ rest) = true := by
  induction next with
  | nil => exact hrest
  | cons x next ih =>
    obtain ⟨hx, hnext⟩ := forall_mem_cons.1 hnext
    rw [cons_append, announced, ih hnext, hx]
    rfl

theorem Ran.waiters (h : Ran sch c ch now seg c' next) (hj : j ∈ c'.waiters) :
    seg = .registerWaiter j ∨ j ∈ c.waiters ∧ (seg.waiter? = some j →
        (∃ x ∈ next, x.waiter? = some j) ∨ (c.delivered.get? j).isSome = true) := by
  have herase : ∀ job, j ∈ c.waiters.erase job → j ≠ job ∧ j ∈ c.waiters := by simp [and_comm]
  cases h with
  | registerWaiter job =>
    have hmem : j ∈ c.waiters.insert job := hj
    rcases (by simpa using hmem : j = job ∨ j ∈ c.waiters) with rfl | hmem
    · exact .inl rfl
    · exact .inr ⟨hmem, fun h => by cases h⟩
  | rejected => exact .inr ⟨hj, fun h => .inl ⟨_, mem_cons_self, h⟩⟩
  | @admitted pj timeout => exact .inr ⟨hj, fun h => .inl ⟨.startWait pj.jobId timeout, by simp, h⟩⟩
  | withdrawWaiter job =>
    obtain ⟨hne, hmem⟩ := herase job hj
    exact .inr ⟨hmem, fun h => absurd (some.inj h).symm hne⟩
  | failJob job => exact .inr ⟨(herase job hj).2, fun h => by cases h⟩
  | startWait => exact .inr ⟨hj, fun h => .inl ⟨_, mem_cons_self, h⟩⟩
  | @woken job timeout deadline report hget =>
    refine .inr ⟨hj, fun h => .inr ?_⟩
    cases h
    rw [hget]
    rfl
  | fired => exact .inr ⟨hj, fun h => .inl ⟨_, mem_cons_self, h⟩⟩
  | failed hget hmem =>
    refine .inr ⟨hj, fun h => ?_⟩
    cases h
    exact absurd hj hmem
  | expireWaiter job =>
    obtain ⟨hne, hmem⟩ := herase job hj
    exact .inr ⟨hmem, fun h => absurd (some.inj h).symm hne⟩
  | wake => exact .inr ⟨(herase _ hj).2, fun h => by cases h⟩
  | _ => exact .inr ⟨hj, fun h => by cases h⟩

theorem Ran.delivered (h : Ran sch c ch now seg c' next) (hj : (c'.delivered.get? j).isSome = true)
    : (c.delivered.get? j).isSome = true ∨ j ∈ c.waiters ∧ j ∉ c'.waiters := by
  obtain ⟨report, hget⟩ := isSome_iff_exists.1 hj
  cases h with
  | woken =>
    rw [(of_get?_erase hget).2]
    exact .inl rfl
  | wake hmem =>
    rcases of_get?_insert hget with ⟨rfl, -⟩ | ⟨-, hget⟩
    · exact .inr ⟨hmem, by simp⟩
    · rw [hget]
      exact .inl rfl
  | _ => exact .inl hj

/-- The job has a waiter, or a result on its way. -/
def Core.isWaitedFor (c : Core) (j : JobId) : Bool :=
  decide (j ∈ c.waiters) || (c.delivered.get? j).isSome

/-- Every waiter belongs to a call. -/
structure Waited (s : State) : Prop where
  own : ∀ task t, s.tasks.get? task = some t → ∀ seg ∈ t.code, seg.ofExecute = true →
    t.call.isExecute = true
  announced : ∀ task t, s.tasks.get? task = some t → announced t.code = true
  once : ∀ j, s.segments.countP (Segment.registers j) + (s.core.isWaitedFor j).toNat ≤
    (decide (j ∈ s.issued)).toNat
  apart : ∀ j ∈ s.core.waiters, s.core.delivered.get? j = none
  kept : ∀ j ∈ s.core.waiters, ∃ seg ∈ s.segments, seg.waiter? = some j

namespace Waited

variable {s s' : State} {e : Event}

theorem init (r : SchedulerRun) : Waited r.init where
  own task t h := by cases h
  announced task t h := by cases h
  once j := Nat.zero_le _
  apart j h := by simp [SchedulerRun.init] at h
  kept j h := by simp [SchedulerRun.init] at h

theorem fresh (h : Waited s) (hseg : .registerWaiter j ∈ s.segments) :
    s.core.isWaitedFor j = false := by
  have hpos : 0 < s.segments.countP (Segment.registers j) :=
    countP_pos_iff.2 ⟨_, hseg, by simp [Segment.registers, Segment.registered?]⟩
  have honce := h.once j
  have hle : (decide (j ∈ s.issued)).toNat ≤ 1 := Bool.toNat_le _
  cases hw : s.core.isWaitedFor j with
  | false => rfl
  | true =>
    rw [hw, Bool.toNat_true] at honce
    omega

theorem started {task : ℕ} {call : Call} {s₁ : State} {code : List Segment} (h : Waited s)
    (hfree : s.tasks.get? task = none) (hbegun : Begun sch { s with clock := e.now } call s₁ code) :
    Waited (s.enter s₁ task call code) := by
  refine ⟨?_, ?_, ?_, h.apart, ?_⟩
  · intro task' t' ht' seg hseg hexec
    rcases of_get?_insert ht' with ⟨-, rfl⟩ | ⟨-, ht'⟩
    · cases hbegun <;>
        simp only [mem_cons, not_mem_nil, or_false] at hseg <;>
        first | rfl | (rcases hseg with rfl | rfl <;> cases hexec)
    · exact h.own task' t' ht' seg hseg hexec
  · intro task' t' ht'
    rcases of_get?_insert ht' with ⟨-, rfl⟩ | ⟨-, ht'⟩
    · cases hbegun <;> simp [Control.announced, Segment.registered?, Segment.waiter?]
    · exact h.announced task' t' ht'
  · intro j
    have honce := h.once j
    rw [State.countP_enter hfree]
    show _ + (s.core.isWaitedFor j).toNat ≤ (decide (j ∈ s₁.issued)).toNat
    cases hbegun with
    | @execute req pj timeout hnew =>
      by_cases hid : j = pj.jobId
      · subst hid
        rw [decide_eq_false (show pj.jobId ∉ s.issued from hnew), Bool.toNat_false] at honce
        have hone : countP (Segment.registers pj.jobId)
            [.registerWaiter pj.jobId, .admission pj timeout] = 1 := by
          simp [Segment.registers, Segment.registered?]
        rw [hone, decide_eq_true (by simp), Bool.toNat_true]
        omega
      · have hzero : countP (Segment.registers j)
            [.registerWaiter pj.jobId, .admission pj timeout] = 0 := by
          simp [Segment.registers, Segment.registered?, Ne.symm hid]
        rw [hzero, Nat.zero_add]
        simpa [hid] using honce
    | _ => simpa [Segment.registers, Segment.registered?] using honce
  · intro j hj
    obtain ⟨seg, hseg, hwaits⟩ := h.kept j hj
    exact ⟨seg, (State.segments_enter hfree).mem_iff.2 (mem_append_right _ hseg), hwaits⟩

theorem ran {task : ℕ} {t : Task} {rest : List Segment} {core : Core} (h : Waited s)
    (htask : s.tasks.get? task = some t) (hcode : t.code = seg :: rest)
    (hran : Ran sch s.core ch e.now seg core next) :
    Waited (s.advance e.now core task t.call (next ++ rest)) := by
  obtain ⟨others, hbefore, hafter⟩ := State.segments_advance htask hcode e.now core next
  have hseg := State.mem_code htask hcode
  have hnext := hran.registers
  have hwaited : ∀ j, (core.isWaitedFor j).toNat ≤
      (s.core.isWaitedFor j).toNat + (seg.registers j).toNat := by
    intro j
    cases hw : core.isWaitedFor j with
    | false => exact Nat.zero_le _
    | true =>
      have hor : s.core.isWaitedFor j = true ∨ seg.registers j = true := by
        rw [Core.isWaitedFor, Bool.or_eq_true, decide_eq_true_eq] at hw ⊢
        rcases hw with hw | hd
        · rcases hran.waiters hw with rfl | ⟨hmem, -⟩
          · exact .inr (by simp [Segment.registers, Segment.registered?])
          · exact .inl (.inl hmem)
        rcases hran.delivered hd with hd | ⟨hmem, -⟩
        · exact .inl (.inr hd)
        · exact .inl (.inl hmem)
      rcases hor with hor | hor <;> rw [hor] <;> simp
  refine ⟨?_, ?_, ?_, ?_, ?_⟩
  · intro task' t' ht' x hx hexec
    rcases State.get?_advance ht' with rfl | ht'
    · rcases mem_append.1 hx with hx | hx
      · refine h.own task t htask seg ?_ ((hnext x hx).2 hexec)
        rw [hcode]
        exact mem_cons_self
      · refine h.own task t htask x ?_ hexec
        rw [hcode]
        exact mem_cons_of_mem _ hx
    · exact h.own task' t' ht' x hx hexec
  · intro task' t' ht'
    rcases State.get?_advance ht' with rfl | ht'
    · have hann := h.announced task t htask
      rw [hcode, Control.announced, Bool.and_eq_true] at hann
      exact announced_append hann.2 fun x hx => (hnext x hx).1
    · exact h.announced task' t' ht'
  · intro j
    have honce := h.once j
    have hle := hwaited j
    have hcount := State.countP_advance htask hcode e.now core next (Segment.registers j)
    have hzero : next.countP (Segment.registers j) = 0 :=
      countP_eq_zero.2 fun x hx => by simp [Segment.registers, (hnext x hx).1]
    show _ + (core.isWaitedFor j).toNat ≤ (decide (j ∈ s.issued)).toNat
    omega
  · intro j hj
    cases hd : core.delivered.get? j with
    | none => exact hd
    | some =>
      exfalso
      rcases hran.delivered (by rw [hd]; rfl) with hsome | ⟨-, hgone⟩
      · rcases hran.waiters hj with rfl | ⟨hmem, -⟩
        · have hfresh := h.fresh hseg
          rw [Core.isWaitedFor, hsome, Bool.or_true] at hfresh
          cases hfresh
        · rw [h.apart j hmem] at hsome
          cases hsome
      · exact hgone hj
  · intro j hj
    have hstill : ∀ x ∈ s.segments, x ≠ seg → x ∈ next ++ others := fun x hx hne =>
      mem_append_right _ ((mem_cons.1 (hbefore.mem_iff.1 hx)).resolve_left hne)
    rcases hran.waiters hj with rfl | ⟨hmem, hkeep⟩
    · have hann := h.announced task t htask
      rw [hcode, Control.announced, Bool.and_eq_true] at hann
      obtain ⟨x, hx, hwaits⟩ := any_eq_true.1 hann.1
      have hwaits := of_decide_eq_true hwaits
      have hxs : x ∈ s.segments := State.mem_segments.2
        ⟨task, t, htask, by rw [hcode]; exact mem_cons_of_mem _ hx⟩
      refine ⟨x, hafter.mem_iff.2 (hstill x hxs ?_), hwaits⟩
      rintro rfl
      cases hwaits
    · obtain ⟨x, hx, hwaits⟩ := h.kept j hmem
      by_cases heq : x = seg
      · subst heq
        rcases hkeep hwaits with ⟨y, hy, hwaits⟩ | hsome
        · exact ⟨y, hafter.mem_iff.2 (mem_append_left _ hy), hwaits⟩
        · rw [h.apart j hmem] at hsome
          cases hsome
      · exact ⟨x, hafter.mem_iff.2 (hstill x hx heq), hwaits⟩

theorem step (h : Waited s) (hs : Stepped sch s e s') : Waited s' := by
  cases hs with
  | idle => exact ⟨h.own, h.announced, h.once, h.apart, h.kept⟩
  | started hfree hbegun => exact h.started hfree hbegun
  | ran hmove htask hcode hran => exact h.ran htask hcode hran

end Waited

theorem SchedulerRun.waited (r : SchedulerRun) (k : ℕ) : Waited (r.state k) :=
  r.induction (.init r) (fun _ _ _ h _ hs => h.step hs) k

/-! ## Accounts -/

/-- No `execute` call is in progress. -/
def State.noExecute (s : State) : Bool := s.tasks.toList.all fun p => !p.2.call.isExecute

theorem Waited.not_ofExecute {s : State} (h : Waited s) (hnone : s.noExecute = true)
    (hseg : seg ∈ s.segments) : seg.ofExecute = false := by
  obtain ⟨task, t, htask, hmem⟩ := State.mem_segments.1 hseg
  have hcall := all_eq_true.1 hnone (task, t) (get?_eq_some.1 htask)
  cases hexec : seg.ofExecute with
  | false => rfl
  | true =>
    rw [h.own task t htask seg hmem hexec] at hcall
    cases hcall

/-- **Quota and waiter accounting.**  At every moment of every interleaving the counter of a
tenant is the number of its `execute` calls that passed admission and have not given their
slot back; it never exceeds the quota; and whenever no `execute` call is in progress, no
counter and no waiter is left. -/
theorem slots_accounted (r : SchedulerRun) (k : ℕ) :
    (∀ t, (r.state k).core.inner.tenantInflightOf t = (r.state k).core.holders t) ∧
      (∀ limit, r.scheduler.maxConcurrentPerTenant = some limit →
        ∀ t, (r.state k).core.inner.tenantInflightOf t ≤ limit) ∧
      ((r.state k).noExecute = true → (∀ t, (r.state k).core.inner.tenantInflight.get? t = none) ∧
          ∀ j, j ∉ (r.state k).core.waiters) := by
  have hslots := r.slots k
  have hwaited := r.waited k
  refine ⟨hslots.counted, hslots.quota, ?_⟩
  intro hnone
  refine ⟨?_, ?_⟩
  · intro t
    cases hget : (r.state k).core.inner.tenantInflight.get? t with
    | none => rfl
    | some n =>
      -- a counter that is kept counts a call, and that call is still to give its slot back
      have hpos : 0 < (r.state k).core.holders t := by
        rw [← hslots.counted, Inner.tenantInflightOf, hget]
        exact hslots.pos t n hget
      obtain ⟨m, hm, hholds⟩ := countP_pos_iff.1 hpos
      cases m with
      | admitted j u =>
        simp only [Mark.holds, Bool.and_eq_true, decide_eq_true_eq] at hholds
        have hbalance := hslots.balance j u
        rw [count_eq_zero.2 hholds.2, Nat.add_zero] at hbalance
        have hseg : 0 < (r.state k).segments.countP (Segment.releases j u) := by
          rw [hbalance]
          exact count_pos_iff.2 hm
        obtain ⟨seg, hseg, hreleases⟩ := countP_pos_iff.1 hseg
        have hno := hwaited.not_ofExecute hnone hseg
        cases seg with
        | release => cases hno
        | _ => cases hreleases
      | _ => cases hholds
  · intro j hj
    obtain ⟨seg, hseg, hwaits⟩ := hwaited.kept j hj
    have hno := hwaited.not_ofExecute hnone hseg
    rw [Segment.ofExecute_of_waiter? hwaits] at hno
    cases hno

/-- With a quota of one, the first call of a tenant is admitted and the second rejected; the
first job is reported and its call returns. -/
def Sample.quotaRun : SchedulerRun where
  scheduler := { maxConcurrentPerTenant := some 1 }
  events := hello ++ lease ++
    [go 1 1, go 1 1, go 1 1, go 1 1, start 2 2 (execute second), go 2 2, go 2 2, go 2 2,
      start 3 3 (.report 1 { jobId := "j" }), go 3 3, go 3 3, go 3 3, go 3 3, go 4 1, go 4 1,
      go 4 1]

open Sample

theorem slots_accounted_sample : (quotaRun.state 17).core.holders tenant = 1 ∧
      (quotaRun.state 17).core.inner.tenantInflightOf tenant ≤ 1 ∧
      (∀ t, (quotaRun.state 25).core.inner.tenantInflight.get? t = none) ∧
      ∀ j, j ∉ (quotaRun.state 25).core.waiters := by
  obtain ⟨-, hquota, -⟩ := slots_accounted quotaRun 17
  obtain ⟨-, -, hempty⟩ := slots_accounted quotaRun 25
  exact ⟨by decide +kernel, hquota 1 rfl _, hempty (by decide +kernel)⟩

end Brokkr.Control
