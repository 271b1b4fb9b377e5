import Brokkr.Common

/-!
# How a worker finds a control plane

The reconnect policy of `brokkr-worker` (`endpoint.rs`, and the loop of `run_worker`).

* `rotationPlan` — which control plane an attempt goes to, and how long it waits first.
* `attemptAfter` — the attempt after the sessions so far: only matters which registered.
* `every_plane_tried` — wherever a worker stands, one cycle of failures takes it to every
  control plane; `waits_by_cycle` — a later cycle never waits less.
-/

namespace Brokkr.Worker

open List

/-- The wait after the first full cycle, in milliseconds. -/
def baseBackoff : ℕ := 250

/-- The ceiling on the wait, in milliseconds. -/
def maxBackoff : ℕ := 30000

/-- The wait after some full cycles, before the jitter. -/
def cycleWait (completedCycles : ℕ) : ℕ :=
  -- `completed_cycles as u32 - 1`; `checked_shl` has no answer from 64 on
  let shift := (completedCycles % 2 ^ 32 + (2 ^ 32 - 1)) % 2 ^ 32
  let factor := if shift < 64 then 2 ^ shift else 2 ^ 64 - 1
  min (baseBackoff * factor) maxBackoff

/-- The place of the control plane to try, and the wait before it. -/
def rotationPlan (len attempt : ℕ) : ℕ × ℕ :=
  if len = 0 then (0, maxBackoff)
  else if attempt / len = 0 then (attempt % len, 0)
  else (attempt % len, min (cycleWait (attempt / len) + attempt * 37 % 100) maxBackoff)

/-- The attempt after a session. -/
def nextAttempt (attempt : ℕ) (registered : Bool) : ℕ :=
  if registered then 0 else U64.saturatingAdd attempt 1

/-- The attempt counter after a row of sessions, each with whether it registered. -/
def attemptAfter (sessions : List Bool) : ℕ := sessions.foldl nextAttempt 0

/-! ## Rotation -/

variable {sessions : List Bool} {len : ℕ}

theorem attemptAfter_append (registered : Bool) :
    attemptAfter (sessions ++ [registered]) = nextAttempt (attemptAfter sessions) registered := by
  simp [attemptAfter]

theorem attemptAfter_failed {j : ℕ} (hroom : attemptAfter sessions + j < 2 ^ 64) :
    attemptAfter (sessions ++ replicate j false) = attemptAfter sessions + j := by
  induction j with
  | zero => rw [replicate_zero, append_nil, Nat.add_zero]
  | succ j ih =>
    rw [replicate_succ', ← append_assoc, attemptAfter_append, ih (by omega), nextAttempt,
      if_neg Bool.false_ne_true, U64.saturatingAdd_of_le (by omega), Nat.add_assoc]

theorem rotationPlan_fst (hlen : 0 < len) (attempt : ℕ) :
    (rotationPlan len attempt).1 = attempt % len := by
  rw [rotationPlan, if_neg hlen.ne']
  split <;> rfl

/-- **No control plane is left out.**  After any sessions, fewer than a cycle of further
failures bring the worker to the control plane at any place `i`, while the attempts since
the last registration can be counted. -/
theorem every_plane_tried {i : ℕ} (hi : i < len) (sessions : List Bool)
    (hroom : attemptAfter sessions + len ≤ 2 ^ 64) :
    ∃ j < len, (rotationPlan len (attemptAfter (sessions ++ replicate j false))).1 = i := by
  have hlen : 0 < len := Nat.zero_lt_of_lt hi
  have hmod := Nat.mod_lt (attemptAfter sessions) hlen
  -- the distance from where the worker stands to `i`, around the cycle
  refine ⟨(i + (len - attemptAfter sessions % len)) % len, Nat.mod_lt _ hlen, ?_⟩
  have hj := Nat.mod_lt (i + (len - attemptAfter sessions % len)) hlen
  rw [rotationPlan_fst hlen, attemptAfter_failed (by omega), Nat.add_mod_mod,
    ← Nat.mod_add_mod, show attemptAfter sessions % len +
      (i + (len - attemptAfter sessions % len)) = i + len by omega,
    Nat.add_mod_right, Nat.mod_eq_of_lt hi]

theorem every_plane_tried_first : ∃ j < 3, (rotationPlan 3 (attemptAfter
    ([false, true, false] ++ replicate j false))).1 = 0 :=
  every_plane_tried (by decide) _ (by decide)

/-! ## Waits -/

theorem cycleWait_eq {c : ℕ} (hpos : 0 < c) (hc : c < 2 ^ 32) :
    cycleWait c = min (baseBackoff * 2 ^ (c - 1)) maxBackoff := by
  have hshift : (c % 2 ^ 32 + (2 ^ 32 - 1)) % 2 ^ 32 = c - 1 := by omega
  rw [cycleWait, hshift]
  split
  · rfl
  · rename_i hlarge
    have hpow : 2 ^ 64 ≤ 2 ^ (c - 1) := Nat.pow_le_pow_right (by decide) (not_lt.1 hlarge)
    rw [baseBackoff, maxBackoff]
    omega

theorem cycleWait_lt {c d : ℕ} (hpos : 0 < c) (hlt : c < d) (hd : d < 2 ^ 32) :
    cycleWait d = maxBackoff ∨ cycleWait c + 100 ≤ cycleWait d := by
  have hpow : 2 * 2 ^ (c - 1) ≤ 2 ^ (d - 1) := by
    rw [← pow_succ']
    exact Nat.pow_le_pow_right (by decide) (by omega)
  have hone : 1 ≤ 2 ^ (c - 1) := Nat.one_le_two_pow
  rw [cycleWait_eq hpos (hlt.trans hd), cycleWait_eq (hpos.trans hlt) hd, baseBackoff, maxBackoff]
  omega

/-- **Waits grow from cycle to cycle**, whatever the jitter; no wait passes the ceiling, and
the first cycle does not wait. -/
theorem waits_by_cycle (len : ℕ) :
    (∀ a b, a / len < b / len → b / len < 2 ^ 32 →
      (rotationPlan len a).2 ≤ (rotationPlan len b).2) ∧
    (∀ a, (rotationPlan len a).2 ≤ maxBackoff) ∧ ∀ a < len, (rotationPlan len a).2 = 0 := by
  have hceiling : ∀ a, (rotationPlan len a).2 ≤ maxBackoff := by
    intro a
    rw [rotationPlan]
    split_ifs
    · exact le_rfl
    · exact Nat.zero_le _
    · exact min_le_right _ _
  refine ⟨fun a b hcycle hb => ?_, hceiling, fun a ha => ?_⟩
  · have hlen : len ≠ 0 := by
      rintro rfl
      simp at hcycle
    by_cases ha : a / len = 0
    · rw [rotationPlan, if_neg hlen, if_pos ha]
      exact Nat.zero_le _
    have hwait := hceiling a
    simp only [rotationPlan, if_neg hlen, if_neg ha, if_neg (Nat.ne_zero_of_lt hcycle)] at hwait ⊢
    refine le_min ?_ hwait
    rcases cycleWait_lt (Nat.pos_of_ne_zero ha) hcycle hb with htop | hmore
    · exact hwait.trans (htop ▸ Nat.le_add_right _ _)
    · exact (min_le_left _ _).trans (by omega)
  · rw [rotationPlan, if_neg (Nat.ne_zero_of_lt ha), if_pos (Nat.div_eq_of_lt ha)]

theorem waits_by_cycle_third :
    (rotationPlan 3 4).2 ≤ (rotationPlan 3 7).2 ∧ (rotationPlan 3 2).2 = 0 :=
  ⟨(waits_by_cycle 3).1 4 7 (by decide) (by decide), (waits_by_cycle 3).2.2 2 (by decide)⟩

end Brokkr.Worker
