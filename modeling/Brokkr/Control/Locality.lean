import Brokkr.Control.Workers

/-!
# The locality index against the history of its calls

`locality.rs` keeps, for a bounded number of workers, a bounded queue of completions and
a touch counter.  Here it is compared with the list of all calls that were made.

* `LocalityRun` — `record` and `forget` calls on a new index; `LocalityRun.history` — the
  completions recorded for a worker since it was last evicted or forgotten.
* `LocalityIndex.record_cases` — what a record does: at most one worker is dropped, and it
  has the least touch counter of all but the recorded one.
* `LocalityRun.Mirrors` — the queues are the ends of the histories, and the touch counter
  of a worker counts the records up to its last one.
* `locality_window` — the bounds, the hit counts and the choice of the evicted worker, for
  all runs.  Hits are returned as `u32`: `hits_wrap` is a run where the number of matching
  completions does not fit.
-/

namespace Brokkr.Control

open Option

open OrdMap

open List

variable {k n : ℕ} {w u v : WorkerId}

/-! ## What one call does -/

namespace LocalityIndex

variable (x : LocalityIndex)

variable (worker : WorkerId)

/-- A worker's recent completions with one more; the oldest goes if there are too many. -/
def pushed (c : Completion) : List Completion :=
  let recent := ((x.workers.get? worker).getD {}).recent ++ [c]
  if x.window < recent.length then recent.tail else recent

/-- The index after a record, before a worker is evicted. -/
def noted (c : Completion) : LocalityIndex :=
  { x with
    tick := (x.tick + 1) % 2 ^ 64
    workers := x.workers.insert worker ⟨x.pushed worker c, (x.tick + 1) % 2 ^ 64⟩ }

theorem record_eq (action : Digest)
    (inputRoot : Option Digest) :
    x.record worker action inputRoot =
      if x.maxWorkers < (x.noted worker ⟨action, inputRoot⟩).trackedWorkers then
        (x.noted worker ⟨action, inputRoot⟩).evictLeastRecent worker
      else x.noted worker ⟨action, inputRoot⟩ := rfl

theorem get?_noted (worker u : WorkerId) (c : Completion) :
    (x.noted worker c).workers.get? u =
      if u = worker then some ⟨x.pushed worker c, (x.tick + 1) % 2 ^ 64⟩
      else x.workers.get? u :=
  get?_insert _ _ _ _

theorem trackedWorkers_noted_le (c : Completion) :
    (x.noted worker c).trackedWorkers ≤ x.trackedWorkers + 1 := by
  have hinsert := (toList_insert_perm x.workers worker
    ⟨x.pushed worker c, (x.tick + 1) % 2 ^ 64⟩).length_eq
  have herase : (x.workers.erase worker).toList.length ≤ x.workers.toList.length := by
    cases hget : x.workers.get? worker with
    | none => rw [erase_eq_self hget]
    | some =>
      have := (toList_perm hget).length_eq
      rw [length_cons] at this
      omega
  exact hinsert.trans_le (Nat.add_le_add_right herase 1)

theorem evictLeastRecent_cases (keep : WorkerId) :
    (x.evictLeastRecent keep = x ∧ ∀ u h, x.workers.get? u = some h → u = keep) ∨
      ∃ v h, v ≠ keep ∧ x.workers.get? v = some h ∧
        (∀ u hu, x.workers.get? u = some hu → u ≠ keep → h.lastTouch ≤ hu.lastTouch) ∧
        x.evictLeastRecent keep = { x with workers := x.workers.erase v } := by
  have hmem : ∀ u hu, x.workers.get? u = some hu → u ≠ keep →
      (u, hu) ∈ x.workers.toList.filter fun p => decide (p.1 ≠ keep) := by
    intro u hu hget hne
    exact mem_filter.2 ⟨get?_eq_some.1 hget, by simpa using hne⟩
  unfold evictLeastRecent
  cases hmin : firstMin (fun p : WorkerId × WorkerHistory => p.2.lastTouch)
      (x.workers.toList.filter fun p => decide (p.1 ≠ keep)) with
  | none =>
    refine .inl ⟨rfl, ?_⟩
    intro u h hget
    by_contra hne
    have := hmem u h hget hne
    rw [firstMin_eq_none.1 hmin] at this
    cases this
  | some found =>
    obtain ⟨index, v, h⟩ := found
    obtain ⟨hat, hleast⟩ := firstMin_spec hmin
    obtain ⟨hv, hne⟩ := mem_filter.1 (mem_of_getElem? hat)
    refine .inr ⟨v, h, by simpa using hne, get?_eq_some.2 hv, ?_, rfl⟩
    intro u hu hget hu'
    exact hleast (u, hu) (hmem u hu hget hu')

theorem record_cases {x : LocalityIndex} (hmax : 1 ≤ x.maxWorkers) (worker : WorkerId)
    (action : Digest) (inputRoot : Option Digest) :
    (x.record worker action inputRoot = x.noted worker ⟨action, inputRoot⟩ ∧
        (x.noted worker ⟨action, inputRoot⟩).trackedWorkers ≤ x.maxWorkers) ∨
      ∃ v h, v ≠ worker ∧ (x.noted worker ⟨action, inputRoot⟩).workers.get? v = some h ∧
        (∀ u hu, (x.noted worker ⟨action, inputRoot⟩).workers.get? u = some hu → u ≠ worker →
          h.lastTouch ≤ hu.lastTouch) ∧
        x.record worker action inputRoot = { x.noted worker ⟨action, inputRoot⟩ with
            workers := (x.noted worker ⟨action, inputRoot⟩).workers.erase v } := by
  rw [record_eq]
  generalize hx' : x.noted worker ⟨action, inputRoot⟩ = x'
  by_cases hsize : x.maxWorkers < x'.trackedWorkers
  · rw [if_pos hsize]
    rcases x'.evictLeastRecent_cases worker with ⟨-, honly⟩ | hvictim
    · -- the recorded worker alone does not exceed the bound
      obtain ⟨h, hself⟩ : ∃ h, x'.workers.get? worker = some h :=
        ⟨_, by rw [← hx', get?_noted, if_pos rfl]⟩
      have hlength := (toList_perm hself).length_eq
      have hnil : (x'.workers.erase worker).toList = [] := by
        rw [eq_nil_iff_forall_not_mem]
        rintro ⟨u, h⟩ hmem
        have hget := get?_eq_some.2 hmem
        obtain ⟨hne, hget⟩ := of_get?_erase hget
        exact hne (honly u h hget)
      rw [hnil, length_singleton] at hlength
      rw [trackedWorkers, hlength] at hsize
      omega
    · exact .inr hvictim
  · rw [if_neg hsize]
    exact .inl ⟨rfl, not_lt.1 hsize⟩

end LocalityIndex

/-! ## Sequences of calls -/

/-- A call that changes the index. -/
inductive LocalityCall where
  | record (worker : WorkerId) (action : Digest) (inputRoot : Option Digest)
  | forget (worker : WorkerId)

namespace LocalityCall

/-- The worker and the completion a call records. -/
def recorded : LocalityCall → Option (WorkerId × Completion)
  | .record worker action inputRoot => some (worker, ⟨action, inputRoot⟩)
  | .forget _ => none

/-- The call on an index. -/
def apply (x : LocalityIndex) : LocalityCall → LocalityIndex
  | .record worker action inputRoot => x.record worker action inputRoot
  | .forget worker => x.forget worker

end LocalityCall

/-- A sequence of calls on a new index. -/
structure LocalityRun where
  window : ℕ
  maxWorkers : ℕ
  calls : List LocalityCall

namespace LocalityRun

variable (r : LocalityRun)

/-- The index after `k` calls. -/
def state (k : ℕ) : LocalityIndex :=
  (r.calls.take k).foldl LocalityCall.apply (.new r.window r.maxWorkers)

/-- A worker is tracked after `k` calls. -/
def Tracked (w : WorkerId) (k : ℕ) : Prop := (r.state k).workers.contains w = true

instance (w : WorkerId) (k : ℕ) : Decidable (r.Tracked w k) :=
  inferInstanceAs (Decidable (_ = true))

/-- What call `k` records, if anything. -/
def recordedAt (k : ℕ) : Option (WorkerId × Completion) := r.calls[k]?.bind LocalityCall.recorded

/-- Call `k` records a worker. -/
def Records (w : WorkerId) (k : ℕ) : Prop := ∃ c, r.recordedAt k = some (w, c)

/-- How many of the first `k` calls are records. -/
def records (k : ℕ) : ℕ := (r.calls.take k).countP fun call => call.recorded.isSome

/-- The completions recorded for a worker up to call `k`, since it was last evicted or
forgotten. -/
def history (w : WorkerId) : ℕ → List Completion
  | 0 => []
  | k + 1 =>
    if r.Tracked w (k + 1) then
      history w k ++ ((r.recordedAt k).toList.filter fun p => decide (p.1 = w)).map Prod.snd
    else []

/-- Up to call `k`, `u` was recorded after the last record of `v`. -/
def MoreRecent (u v : WorkerId) (k : ℕ) : Prop :=
  ∃ i ≤ k, r.Records u i ∧ ∀ j, i ≤ j → j ≤ k → ¬ r.Records v j

variable {r}

theorem state_succ {call : LocalityCall} (h : r.calls[k]? = some call) :
    r.state (k + 1) = call.apply (r.state k) := by
  rw [state, take_add_one, h, foldl_append]
  rfl

theorem state_succ_of_none (h : r.calls[k]? = none) : r.state (k + 1) = r.state k := by
  rw [state, take_add_one, h, state, toList_none, append_nil]

theorem records_succ (k : ℕ) :
    r.records (k + 1) = r.records k + if (r.recordedAt k).isSome then 1 else 0 := by
  rw [records, take_add_one, countP_append, records, recordedAt]
  cases r.calls[k]? with
  | none => rfl
  | some => simp [countP_singleton]

theorem records_mono {i j : ℕ} (h : i ≤ j) : r.records i ≤ r.records j :=
  (List.take_prefix_take_left h).sublist.countP_le

theorem records_le (k : ℕ) :
    r.records k ≤ r.calls.countP fun call => call.recorded.isSome :=
  (take_sublist k r.calls).countP_le

theorem Records.lt (h : r.Records w k) :
    r.records (k + 1) = r.records k + 1 := by
  obtain ⟨c, hc⟩ := h
  rw [records_succ, hc]
  rfl

theorem Records.unique (hu : r.Records u k) (hv : r.Records v k) :
    u = v := by
  obtain ⟨c, hc⟩ := hu
  obtain ⟨d, hd⟩ := hv
  rw [hc] at hd
  cases hd
  rfl

theorem tracked_iff :
    r.Tracked w k ↔ ∃ h, (r.state k).workers.get? w = some h :=
  isSome_iff_exists

theorem history_of_not_tracked (h : ¬ r.Tracked w k) :
    r.history w k = [] := by
  cases k with
  | zero => rfl
  | succ => rw [history, if_neg h]

theorem history_succ_of_records {c : Completion} (hc : r.recordedAt k = some (w, c))
    (h : r.Tracked w (k + 1)) :
    r.history w (k + 1) = r.history w k ++ [c] := by
  rw [history, if_pos h, hc]
  simp

theorem history_succ_of_not_records (hnot : ¬ r.Records w k) (h : r.Tracked w (k + 1)) :
    r.history w (k + 1) = r.history w k := by
  rw [history, if_pos h]
  cases hrec : r.recordedAt k with
  | none => simp
  | some p =>
    have hne : p.1 ≠ w := fun heq => hnot ⟨p.2, by rw [hrec, ← heq]⟩
    simp [hne]

/-! ## The index mirrors the history -/

theorem rtake_push {α : Type} (hn : 1 ≤ n) (l : List α) (a : α) :
    (if n < (l.rtake n ++ [a]).length then (l.rtake n ++ [a]).tail else l.rtake n ++ [a]) =
      (l ++ [a]).rtake n := by
  have hlength : (l.rtake n ++ [a]).length = min n l.length + 1 := by
    simp only [rtake, length_append, length_drop, length_singleton]
    omega
  rw [hlength, rtake, rtake, length_append, length_singleton]
  by_cases hle : n ≤ l.length
  · rw [if_pos (by omega)]
    have hne : l.drop (l.length - n) ≠ [] := by
      intro hnil
      have := congrArg List.length hnil
      rw [length_drop, length_nil] at this
      omega
    rw [tail_append_of_ne_nil hne, tail_drop, drop_append_of_le_length (by omega)]
    congr 2
    omega
  · rw [if_neg (by omega), drop_append_of_le_length (by omega)]
    congr 2
    omega

/-- The index after `k` calls holds the ends of the histories. -/
structure Mirrors (r : LocalityRun) (k : ℕ) : Prop where
  bounds : (r.state k).window = max r.window 1 ∧ (r.state k).maxWorkers = max r.maxWorkers 1
  tick : (r.state k).tick = r.records k
  size : (r.state k).trackedWorkers ≤ max r.maxWorkers 1
  recent : ∀ w h, (r.state k).workers.get? w = some h →
    h.recent = (r.history w k).rtake (max r.window 1)
  touched : ∀ w h, (r.state k).workers.get? w = some h →
    ∃ i < k, r.Records w i ∧ h.lastTouch = r.records (i + 1) ∧ ∀ j, i < j → j < k → ¬ r.Records w j

namespace Mirrors

theorem zero (r : LocalityRun) : Mirrors r 0 where
  bounds := ⟨rfl, rfl⟩
  tick := rfl
  size := Nat.zero_le _
  recent w h hget := by cases hget
  touched w h hget := by cases hget

theorem entry_cases (m : Mirrors r k) {h : WorkerHistory}
    (hget : (r.state (k + 1)).workers.get? u = some h) :
    (∃ c, r.recordedAt k = some (u, c) ∧
        h = ⟨(r.state k).pushed u c, ((r.state k).tick + 1) % 2 ^ 64⟩) ∨
      (¬ r.Records u k ∧ (r.state k).workers.get? u = some h) := by
  cases hcall : r.calls[k]? with
  | none =>
    rw [state_succ_of_none hcall] at hget
    refine .inr ⟨?_, hget⟩
    rintro ⟨c, hc⟩
    simp [recordedAt, hcall] at hc
  | some call =>
    rw [state_succ hcall] at hget
    cases call with
    | forget =>
      rw [LocalityCall.apply, LocalityIndex.forget, get?_erase] at hget
      split at hget
      · cases hget
      refine .inr ⟨?_, hget⟩
      rintro ⟨c, hc⟩
      simp [recordedAt, hcall, LocalityCall.recorded] at hc
    | record w action inputRoot =>
      have hrec : r.recordedAt k = some (w, ⟨action, inputRoot⟩) := by
        simp [recordedAt, hcall, LocalityCall.recorded]
      -- an eviction leaves the other workers as they are
      have hnoted : ((r.state k).noted w ⟨action, inputRoot⟩).workers.get? u = some h := by
        rw [LocalityCall.apply] at hget
        have hmax : 1 ≤ (r.state k).maxWorkers := m.bounds.2 ▸ le_max_right _ _
        rcases LocalityIndex.record_cases hmax w action inputRoot with
          ⟨heq, -⟩ | ⟨v, hv, -, -, -, heq⟩
        · rwa [heq] at hget
        rw [heq, get?_erase] at hget
        split at hget
        · cases hget
        · exact hget
      rw [LocalityIndex.get?_noted] at hnoted
      split at hnoted
      · rename_i huw
        subst huw
        exact .inl ⟨_, hrec, (some.inj hnoted).symm⟩
      rename_i huw
      refine .inr ⟨?_, hnoted⟩
      rintro ⟨c, hc⟩
      rw [hrec] at hc
      exact huw (congrArg Prod.fst (some.inj hc)).symm

theorem pushed_eq (m : Mirrors r k) (w : WorkerId) (c : Completion) :
    (r.state k).pushed w c = (r.history w k ++ [c]).rtake (max r.window 1) := by
  have hrecent : (((r.state k).workers.get? w).getD {}).recent =
      (r.history w k).rtake (max r.window 1) := by
    cases hget : (r.state k).workers.get? w with
    | some h => exact m.recent w h hget
    | none =>
      have hnot : ¬ r.Tracked w k := by
        rw [tracked_iff, hget]
        simp
      rw [history_of_not_tracked hnot, rtake_nil]
      rfl
  rw [LocalityIndex.pushed, hrecent, m.bounds.1]
  exact rtake_push (le_max_right _ _) _ _

theorem succ (m : Mirrors r k)
    (hrecords : (r.calls.countP fun call => call.recorded.isSome) < 2 ^ 64) :
    Mirrors r (k + 1) := by
  have htick : ∀ w, r.Records w k → ((r.state k).tick + 1) % 2 ^ 64 = r.records (k + 1) := by
    intro w hw
    rw [m.tick, ← hw.lt]
    exact Nat.mod_eq_of_lt ((records_le _).trans_lt hrecords)
  have hmax : 1 ≤ (r.state k).maxWorkers := m.bounds.2 ▸ le_max_right _ _
  have hstate : (r.state (k + 1)).window = max r.window 1 ∧
      (r.state (k + 1)).maxWorkers = max r.maxWorkers 1 ∧
      (r.state (k + 1)).tick = r.records (k + 1) ∧
      (r.state (k + 1)).trackedWorkers ≤ max r.maxWorkers 1 := by
    cases hcall : r.calls[k]? with
    | none =>
      have hrecords : r.records (k + 1) = r.records k := by
        rw [records_succ, recordedAt, hcall]
        rfl
      rw [state_succ_of_none hcall, hrecords]
      exact ⟨m.bounds.1, m.bounds.2, m.tick, m.size⟩
    | some call =>
      rw [state_succ hcall]
      cases call with
      | forget =>
        have hrecords : r.records (k + 1) = r.records k := by
          rw [records_succ, recordedAt, hcall]
          rfl
        rw [hrecords]
        refine ⟨m.bounds.1, m.bounds.2, m.tick, le_trans ?_ m.size⟩
        exact length_filter_le _ _
      | record w action inputRoot =>
        have hw : r.Records w k :=
          ⟨⟨action, inputRoot⟩, by simp [recordedAt, hcall, LocalityCall.recorded]⟩
        have hnoted := (r.state k).trackedWorkers_noted_le w ⟨action, inputRoot⟩
        rw [LocalityCall.apply]
        rcases LocalityIndex.record_cases hmax w action inputRoot with
          ⟨heq, hle⟩ | ⟨v, hv, -, hget, -, heq⟩
        · rw [heq]
          exact ⟨m.bounds.1, m.bounds.2, htick w hw, m.bounds.2 ▸ hle⟩
        rw [heq]
        refine ⟨m.bounds.1, m.bounds.2, htick w hw, ?_⟩
        have hlength := (toList_perm hget).length_eq
        have hsize := m.size
        rw [length_cons] at hlength
        simp only [LocalityIndex.trackedWorkers] at hnoted hsize ⊢
        omega
  refine ⟨⟨hstate.1, hstate.2.1⟩, hstate.2.2.1, hstate.2.2.2, ?_, ?_⟩
  · intro u h hget
    have htracked : r.Tracked u (k + 1) := tracked_iff.2 ⟨h, hget⟩
    rcases m.entry_cases hget with ⟨c, hc, rfl⟩ | ⟨hnot, hold⟩
    · rw [history_succ_of_records hc htracked]
      exact m.pushed_eq u c
    · rw [history_succ_of_not_records hnot htracked]
      exact m.recent u h hold
  intro u h hget
  rcases m.entry_cases hget with ⟨c, hc, rfl⟩ | ⟨hnot, hold⟩
  · exact ⟨k, Nat.lt_succ_self k, ⟨c, hc⟩, htick u ⟨c, hc⟩, fun j hj hk => by omega⟩
  obtain ⟨i, hi, hrec, htouch, hlast⟩ := m.touched u h hold
  refine ⟨i, Nat.lt_succ_of_lt hi, hrec, htouch, ?_⟩
  intro j hij hjk
  rcases Nat.lt_succ_iff_lt_or_eq.1 hjk with hlt | rfl
  · exact hlast j hij hlt
  · exact hnot

end Mirrors

theorem mirrors (hrecords : (r.calls.countP fun call => call.recorded.isSome) < 2 ^ 64) (k : ℕ) :
    Mirrors r k := by
  induction k with
  | zero => exact Mirrors.zero r
  | succ k ih => exact ih.succ hrecords

namespace Mirrors

theorem hits_eq (m : Mirrors r k) (hw : r.Tracked w k) (p : Completion → Bool) :
    (r.state k).hits w p = ((r.history w k).rtake (max r.window 1)).countP p % 2 ^ 32 := by
  obtain ⟨h, hget⟩ := tracked_iff.1 hw
  rw [LocalityIndex.hits, hget, ← m.recent w h hget]

theorem tracked_of_records (m : Mirrors r k) (hw : r.Records w k) :
    r.Tracked w (k + 1) := by
  obtain ⟨c, hc⟩ := hw
  obtain ⟨call, hcall, hrec⟩ := bind_eq_some_iff.1 hc
  cases call with
  | forget => cases hrec
  | record v action inputRoot =>
    cases hrec
    have hmax : 1 ≤ (r.state k).maxWorkers := m.bounds.2 ▸ le_max_right _ _
    rw [tracked_iff, state_succ hcall, LocalityCall.apply]
    rcases LocalityIndex.record_cases hmax w action inputRoot with
      ⟨heq, -⟩ | ⟨v, hv, hne, -, -, heq⟩
    · rw [heq, LocalityIndex.get?_noted, if_pos rfl]
      exact ⟨_, rfl⟩
    · rw [heq, get?_erase, if_neg (Ne.symm hne), LocalityIndex.get?_noted, if_pos rfl]
      exact ⟨_, rfl⟩

theorem moreRecent (m : Mirrors r k) {hu hv : WorkerHistory}
    (hgetu : (r.state k).workers.get? u = some hu) (hgetv : (r.state k).workers.get? v = some hv)
    (hne : u ≠ v) (hle : hv.lastTouch ≤ hu.lastTouch) (hk : ¬ r.Records v k) :
    r.MoreRecent u v k := by
  obtain ⟨i, hi, hreci, htouchi, -⟩ := m.touched u hu hgetu
  obtain ⟨j, hj, hrecj, htouchj, hlast⟩ := m.touched v hv hgetv
  have hij : j < i := by
    rcases Nat.lt_trichotomy i j with hlt | rfl | hgt
    · have hmono := records_mono (r := r) (Nat.succ_le_of_lt hlt)
      have hcount := hrecj.lt
      simp only [Nat.succ_eq_add_one] at hmono
      omega
    · exact absurd (hreci.unique hrecj) hne
    · exact hgt
  refine ⟨i, hi.le, hreci, ?_⟩
  intro n hin hnk
  rcases hnk.lt_or_eq with hlt | rfl
  · exact hlast n (by omega) hlt
  · exact hk

theorem dropped (m : Mirrors r k) (hw : r.Records w k) (hv : r.Tracked v k)
    (hv' : ¬ r.Tracked v (k + 1)) (hu : u ≠ v) (htracked : r.Tracked u k ∨ r.Tracked u (k + 1)) :
    r.MoreRecent u v k := by
  have hvw : v ≠ w := by
    rintro rfl
    exact hv' (m.tracked_of_records hw)
  have hnot : ¬ r.Records v k := fun h => hvw (h.unique hw)
  by_cases huw : u = w
  · -- the worker that was just recorded
    subst huw
    refine ⟨k, le_rfl, hw, ?_⟩
    intro j hkj hjk
    rw [show j = k by omega]
    exact hnot
  obtain ⟨c, hc⟩ := hw
  obtain ⟨call, hcall, hrec⟩ := bind_eq_some_iff.1 hc
  obtain ⟨hv0, hgetv⟩ := tracked_iff.1 hv
  have hgetu : ∃ hu0, (r.state k).workers.get? u = some hu0 := by
    rcases htracked with hbefore | hafter
    · exact tracked_iff.1 hbefore
    obtain ⟨hu0, hget⟩ := tracked_iff.1 hafter
    rcases m.entry_cases hget with ⟨d, hd, -⟩ | ⟨-, hold⟩
    · rw [hc] at hd
      exact absurd (congrArg Prod.fst (some.inj hd)).symm huw
    · exact ⟨hu0, hold⟩
  obtain ⟨hu0, hgetu⟩ := hgetu
  cases call with
  | forget => cases hrec
  | record v' action inputRoot =>
    cases hrec
    have hmax : 1 ≤ (r.state k).maxWorkers := m.bounds.2 ▸ le_max_right _ _
    have hkept : ∀ x, x ≠ w → ((r.state k).noted w ⟨action, inputRoot⟩).workers.get? x =
        (r.state k).workers.get? x := by
      intro x hx
      rw [LocalityIndex.get?_noted, if_neg hx]
    rw [tracked_iff, state_succ hcall, LocalityCall.apply] at hv'
    rcases LocalityIndex.record_cases hmax w action inputRoot with
      ⟨heq, -⟩ | ⟨victim, hvictim, hne, hget, hleast, heq⟩
    · rw [heq, hkept v hvw] at hv'
      exact absurd ⟨hv0, hgetv⟩ hv'
    have hvictim_eq : v = victim := by
      by_contra hother
      rw [heq, get?_erase, if_neg hother, hkept v hvw] at hv'
      exact hv' ⟨hv0, hgetv⟩
    subst hvictim_eq
    have hle := hleast u hu0 ((hkept u huw).trans hgetu) huw
    exact m.moreRecent hgetu ((hkept v hvw).symm.trans hget) hu hle hnot

end Mirrors

end LocalityRun

/-- **The locality window.**  For every window, worker cap and sequence of calls with fewer
than 2^64 records: the number of tracked workers is bounded; the hits of a tracked worker
are the matching completions among the last ones since it was evicted or forgotten, as a
`u32`; the worker just recorded is tracked; and a worker is dropped by a record only if
every other one was recorded more recently. -/
theorem locality_window (r : LocalityRun)
    (hrecords : (r.calls.countP fun call => call.recorded.isSome) < 2 ^ 64) :
    (∀ k, (r.state k).trackedWorkers ≤ max r.maxWorkers 1) ∧ (∀ k w, r.Tracked w k →
        (∀ action, (r.state k).actionHits w action =
          (((r.history w k).rtake (max r.window 1)).countP fun c => decide (c.action = action)) %
            2 ^ 32) ∧
        ∀ inputRoot, (r.state k).inputRootHits w inputRoot =
          (((r.history w k).rtake (max r.window 1)).countP fun c =>
            decide (c.inputRoot = some inputRoot)) % 2 ^ 32) ∧
      (∀ k w, r.Records w k → r.Tracked w (k + 1)) ∧
      ∀ k w v, r.Records w k → r.Tracked v k → ¬ r.Tracked v (k + 1) →
        ∀ u, u ≠ v → r.Tracked u k ∨ r.Tracked u (k + 1) → r.MoreRecent u v k := by
  have hmirrors := LocalityRun.mirrors hrecords
  refine ⟨fun k => (hmirrors k).size, ?_, fun k w hw => (hmirrors k).tracked_of_records hw, ?_⟩
  · intro k w hw
    exact ⟨fun action => (hmirrors k).hits_eq hw _, fun inputRoot => (hmirrors k).hits_eq hw _⟩
  · intro k w v hw hv hv' u hne htracked
    exact (hmirrors k).dropped hw hv hv' hne htracked

namespace Sample

/-- The digest of an action. -/
def built : Digest := ⟨"".pushn 'b' 64, 0, by decide +kernel, by decide +kernel, by decide⟩

/-- A builder. -/
def builder : WorkerId := ⟨"builder", by decide, by decide⟩

/-- A builder that comes later. -/
def newcomer : WorkerId := ⟨"newcomer", by decide, by decide⟩

/-- Three completions with a window of two and room for one worker, then another worker. -/
def crowded : LocalityRun where
  window := 2
  maxWorkers := 0
  calls := [.record builder built none, .record builder built (some built),
    .record builder built none, .record newcomer built none, .forget newcomer]

/-- As many completions of one action as the window holds. -/
def busy (n : ℕ) : LocalityRun := ⟨n, 1, List.replicate n (.record builder built none)⟩

end Sample

open Sample

theorem locality_window_sample :
    (crowded.state 3).actionHits builder built = 2 ∧
      (crowded.state 3).inputRootHits builder built = 1 ∧
      (crowded.state 4).trackedWorkers = 1 ∧
      (crowded.state 5).trackedWorkers = 0 ∧
      crowded.Tracked newcomer 4 ∧
      crowded.MoreRecent newcomer builder 3 := by
  have hrecords : (crowded.calls.countP fun call => call.recorded.isSome) < 2 ^ 64 := by
    decide
  obtain ⟨-, -, htracked, hdropped⟩ := locality_window crowded hrecords
  have hrecorded : crowded.Records newcomer 3 := ⟨_, rfl⟩
  have hbefore : crowded.Tracked builder 3 ∧ ¬ crowded.Tracked builder 4 ∧ newcomer ≠ builder := by
    decide +kernel
  have hafter := htracked 3 _ hrecorded
  exact ⟨by decide +kernel, by decide +kernel, by decide +kernel, by decide +kernel, hafter,
    hdropped 3 _ _ hrecorded hbefore.1 hbefore.2.1 _ hbefore.2.2 (.inr hafter)⟩

namespace Sample

theorem busy_mirrors (hn : n < 2 ^ 64) (k : ℕ) : (busy n).Mirrors k := by
  refine LocalityRun.mirrors (lt_of_le_of_lt countP_le_length ?_) k
  rw [busy, length_replicate]
  exact hn

theorem recordedAt_busy (hk : k < n) : (busy n).recordedAt k = some (builder, ⟨built, none⟩) := by
  rw [LocalityRun.recordedAt, busy, getElem?_replicate_of_lt hk]
  rfl

theorem tracked_busy (hn : n < 2 ^ 64) (h0 : k ≠ 0) (hk : k ≤ n) : (busy n).Tracked builder k := by
  obtain ⟨j, rfl⟩ := Nat.exists_eq_succ_of_ne_zero h0
  exact (busy_mirrors hn j).tracked_of_records ⟨_, recordedAt_busy hk⟩

theorem history_busy (hn : n < 2 ^ 64) (hk : k ≤ n) :
    (busy n).history builder k = List.replicate k ⟨built, none⟩ := by
  induction k with
  | zero => rfl
  | succ k ih =>
    rw [LocalityRun.history_succ_of_records (recordedAt_busy hk)
      (tracked_busy hn k.succ_ne_zero hk), ih (by omega), replicate_succ']

theorem window_busy (hn : n < 2 ^ 64) :
    (((busy n).history builder n).rtake (max (busy n).window 1)).countP
      (fun c => decide (c.action = built)) = n := by
  have hwindow : n - max (busy n).window 1 = 0 := Nat.sub_eq_zero_of_le (le_max_left _ _)
  rw [history_busy hn le_rfl, rtake, length_replicate, hwindow, drop_zero,
    countP_replicate, if_pos (by simp)]

end Sample

/-- A window of 2^32 completions that are all the same action: it has no hit. -/
theorem hits_wrap : (busy (2 ^ 32)).calls.length = 2 ^ 32 ∧
      (busy (2 ^ 32)).Tracked builder (2 ^ 32) ∧
      (((busy (2 ^ 32)).history builder (2 ^ 32)).rtake
        (max (busy (2 ^ 32)).window 1)).countP
          (fun c => decide (c.action = built)) = 2 ^ 32 ∧
      ((busy (2 ^ 32)).state (2 ^ 32)).actionHits builder built = 0 := by
  have hn : 2 ^ 32 < 2 ^ 64 := by norm_num
  have htracked : (busy (2 ^ 32)).Tracked builder (2 ^ 32) :=
    tracked_busy hn (by norm_num) le_rfl
  have hcount := window_busy hn
  refine ⟨length_replicate, htracked, hcount, ?_⟩
  rw [LocalityIndex.actionHits, (busy_mirrors hn _).hits_eq htracked, hcount, Nat.mod_self]

end Brokkr.Control
