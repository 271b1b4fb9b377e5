import Mathlib

/-!
# Start-time fair queuing

The abstract discipline: every flow has a backlog and a *head*, the start tag of
its oldest waiting item (of its next item, while it has none).  Serving a flow
moves its head on by the flow's cost and the clock to the tag that was served,
and only a flow with the least head may be served.

* `Flows.Bounded` — heads of backlogged flows are never behind the clock, and no
  head is ahead of it by more than the flow's cost; every step keeps this
  (`Flows.Bounded.step`).
* `Flows.Run.head_eq` — while a flow stays backlogged its head counts its services.
* `Flows.Run.fair` — the service of two flows that stay backlogged, each weighed
  with its cost, differs by at most the sum of the costs.
-/

namespace Brokkr

variable {T : Type} [DecidableEq T]

/-- The state of the discipline. -/
structure Flows (T : Type) where
  clock : ℕ
  /-- How many items of a flow wait. -/
  backlog : T → ℕ
  /-- The start tag of the first of them, or of the next one. -/
  head : T → ℕ

namespace Flows

/-- What can happen. -/
inductive Action (T : Type) where
  | arrive (t : T)
  | serve (t : T)
  | pass
  deriving DecidableEq

/-- An item of `t` arrives: a flow that was idle restarts at the clock. -/
def arrive (s : Flows T) (t : T) : Flows T where
  clock := s.clock
  backlog := Function.update s.backlog t (s.backlog t + 1)
  head := if s.backlog t = 0 then Function.update s.head t (max s.clock (s.head t)) else s.head

/-- An item of `t` is served, at cost `c t`. -/
def serve (c : T → ℕ) (s : Flows T) (t : T) : Flows T where
  clock := s.head t
  backlog := Function.update s.backlog t (s.backlog t - 1)
  head := Function.update s.head t (s.head t + c t)

/-- A flow that may be served: backlogged, with the least head. -/
def First (s : Flows T) (t : T) : Prop :=
  0 < s.backlog t ∧ ∀ u, 0 < s.backlog u → s.head t ≤ s.head u

/-- One step of the discipline. -/
inductive Step (c : T → ℕ) : Flows T → Action T → Flows T → Prop where
  | arrive (s : Flows T) (t : T) : Step c s (.arrive t) (s.arrive t)
  | serve {s : Flows T} {t : T} (h : s.First t) : Step c s (.serve t) (s.serve c t)
  | pass (s : Flows T) : Step c s .pass s

/-- The state after an action. -/
def next (c : T → ℕ) (s : Flows T) : Action T → Flows T
  | .arrive t => s.arrive t
  | .serve t => s.serve c t
  | .pass => s

theorem step_next {c : T → ℕ} {s : Flows T} {a : Action T} (h : ∀ t, a = .serve t → s.First t) :
    Step c s a (s.next c a) := by
  cases a with
  | arrive t => exact .arrive s t
  | serve t => exact .serve (h t rfl)
  | pass => exact .pass s

/-- Where heads can be. -/
structure Bounded (c : T → ℕ) (s : Flows T) : Prop where
  /-- A backlogged flow is not behind the clock. -/
  behind : ∀ t, 0 < s.backlog t → s.clock ≤ s.head t
  /-- No flow is ahead of the clock by more than its cost. -/
  ahead : ∀ t, s.head t ≤ s.clock + c t

namespace Bounded

variable {c : T → ℕ} {s s' : Flows T} {t : T}

theorem arrive (h : s.Bounded c) (t : T) : (s.arrive t).Bounded c := by
  refine ⟨?_, ?_⟩
  · intro u hu
    by_cases hut : u = t
    · subst hut
      by_cases h0 : s.backlog u = 0
      · simp [Flows.arrive, h0]
      · simpa [Flows.arrive, h0] using h.behind u (Nat.pos_of_ne_zero h0)
    have hu' : 0 < s.backlog u := by simpa [Flows.arrive, hut] using hu
    have hhead : (s.arrive t).head u = s.head u := by
      by_cases h0 : s.backlog t = 0 <;> simp [Flows.arrive, h0, hut]
    rw [hhead]
    exact h.behind u hu'
  · intro u
    have hu := h.ahead u
    by_cases h0 : s.backlog t = 0
    · by_cases hut : u = t
      · subst hut
        simpa [Flows.arrive, h0] using hu
      · simpa [Flows.arrive, h0, hut] using hu
    · simpa [Flows.arrive, h0] using hu

theorem serve (h : s.Bounded c) (hf : s.First t) : (s.serve c t).Bounded c := by
  have hclock : s.clock ≤ s.head t := h.behind t hf.1
  refine ⟨?_, ?_⟩
  · intro u hu
    by_cases hut : u = t
    · subst hut
      simp [Flows.serve]
    · have hu' : 0 < s.backlog u := by simpa [Flows.serve, hut] using hu
      simpa [Flows.serve, hut] using hf.2 u hu'
  intro u
  by_cases hut : u = t
  · subst hut
    simp [Flows.serve]
  have hu := h.ahead u
  simp only [Flows.serve, ne_eq, hut, not_false_eq_true, Function.update_of_ne]
  omega

theorem step {a : Action T} (h : s.Bounded c) (hs : Step c s a s') : s'.Bounded c := by
  cases hs with
  | arrive t => exact h.arrive t
  | serve hf => exact h.serve hf
  | pass => exact h

end Bounded

/-- A run: a state and an action at every moment. -/
structure Run (c : T → ℕ) where
  state : ℕ → Flows T
  action : ℕ → Action T
  /-- Nothing is out of bounds at the start. -/
  bounded : (state 0).Bounded c
  step : ∀ k, Step c (state k) (action k) (state (k + 1))

namespace Run

variable {c : T → ℕ} (r : Run c)

theorem bounded_at (k : ℕ) : (r.state k).Bounded c := by
  induction k with
  | zero => exact r.bounded
  | succ k ih => exact ih.step (r.step k)

/-- How often a flow is served in the `n` moments from `i` on. -/
def served (t : T) (i : ℕ) : ℕ → ℕ
  | 0 => 0
  | n + 1 => served t i n + if r.action (i + n) = .serve t then 1 else 0

theorem head_step {t : T} {k : ℕ} (h : 0 < (r.state k).backlog t) : (r.state (k + 1)).head t =
      (r.state k).head t + (if r.action k = .serve t then 1 else 0) * c t := by
  have hs := r.step k
  generalize r.state k = s, r.action k = a, r.state (k + 1) = s' at hs h
  cases hs with
  | arrive u =>
    by_cases h0 : s.backlog u = 0
    · have hne : t ≠ u := fun htu => by rw [htu, h0] at h; exact absurd h (lt_irrefl 0)
      simp [Flows.arrive, h0, hne]
    · simp [Flows.arrive, h0]
  | @serve u =>
    by_cases htu : t = u
    · subst htu
      simp [Flows.serve]
    · have hut : u ≠ t := fun h => htu h.symm
      simp [Flows.serve, htu, hut]
  | pass => simp

theorem head_eq {t : T} {i n : ℕ} (h : ∀ k, i ≤ k → k ≤ i + n → 0 < (r.state k).backlog t) :
    (r.state (i + n)).head t = (r.state i).head t + r.served t i n * c t := by
  induction n with
  | zero => simp [served]
  | succ n ih =>
    have hprev := ih fun k hi hn => h k hi (by omega)
    have hstep := r.head_step (h (i + n) (by omega) (by omega))
    rw [show i + (n + 1) = i + n + 1 from rfl, hstep, hprev, served]
    ring

theorem head_le {a b : T} {k : ℕ} (hb : 0 < (r.state k).backlog b) :
    (r.state k).head a ≤ (r.state k).head b + c a := by
  have h := r.bounded_at k
  have h1 := h.ahead a
  have h2 := h.behind b hb
  omega

/-- **Fairness.**  Two flows that stay backlogged get service in the inverse
proportion of their costs, up to one cost each. -/
theorem fair {a b : T} {i n : ℕ} (ha : ∀ k, i ≤ k → k ≤ i + n → 0 < (r.state k).backlog a)
    (hb : ∀ k, i ≤ k → k ≤ i + n → 0 < (r.state k).backlog b) :
    |(r.served a i n * c a : ℤ) - r.served b i n * c b| ≤ c a + c b := by
  have hea := r.head_eq ha
  have heb := r.head_eq hb
  have h1 := r.head_le (a := a) (hb i le_rfl (by omega))
  have h2 := r.head_le (a := b) (ha i le_rfl (by omega))
  have h3 := r.head_le (a := a) (hb (i + n) (by omega) le_rfl)
  have h4 := r.head_le (a := b) (ha (i + n) (by omega) le_rfl)
  rw [← Nat.cast_mul, ← Nat.cast_mul, abs_le]
  omega

end Run

end Flows

end Brokkr
