import Mathlib

/-!
# Keyed lists and folds over them

A state that is read key by key (`get`) and changed by a list of items, each of which
touches only its own key.

* `find?_key_eq_some`, `find?_key_eq_none`: the search for a key.
* `foldl_frame`: what no item touches stays as it was.
* `get_foldl_keyed`: when no key occurs twice and each item takes its key from an old
  value to a new one, the fold takes every key there.
-/

namespace Brokkr

open List

variable {σ ι κ β : Type}

section Search

variable [DecidableEq κ] {key : ι → κ} {l : List ι} {k : κ}

theorem find?_key_eq_none : (l.find? fun i => decide (key i = k)) = none ↔ k ∉ l.map key := by
  rw [find?_eq_none, mem_map]
  constructor
  · rintro h ⟨i, hi, hk⟩
    exact h i hi (decide_eq_true hk)
  · intro h i hi hk
    exact h ⟨i, hi, of_decide_eq_true hk⟩

theorem key_of_find? {i : ι} (h : (l.find? fun i => decide (key i = k)) = some i) :
    i ∈ l ∧ key i = k := by
  have hk := find?_some h
  exact ⟨mem_of_find?_eq_some h, of_decide_eq_true hk⟩

theorem find?_key_eq_some (hl : (l.map key).Nodup) {i : ι} (hi : i ∈ l) :
    (l.find? fun j => decide (key j = key i)) = some i := by
  induction l with
  | nil => cases hi
  | cons j l ih =>
    rw [map_cons, nodup_cons] at hl
    rcases mem_cons.1 hi with rfl | hi
    · rw [find?_cons_of_pos (by simp)]
    · have hne : key j ≠ key i := fun heq => hl.1 (heq ▸ mem_map_of_mem hi)
      rw [find?_cons_of_neg (by simpa using hne), ih hl.2 hi]

end Search

theorem foldl_frame {step : σ → ι → σ} {g : σ → β} {l : List ι}
    (h : ∀ i ∈ l, ∀ s, g (step s i) = g s) (s : σ) : g (l.foldl step s) = g s := by
  induction l generalizing s with
  | nil => rfl
  | cons i l ih =>
    rw [forall_mem_cons] at h
    rw [foldl_cons, ih h.2, h.1]

section Keyed

variable {step : σ → ι → σ} {get : σ → κ → β} {key : ι → κ} {old new : κ → β}

theorem get_foldl_of_not_mem (hother : ∀ s i k, k ≠ key i → get (step s i) k = get s k)
    {l : List ι} {k : κ} (hk : k ∉ l.map key) (s : σ) : get (l.foldl step s) k = get s k := by
  apply foldl_frame (g := fun s => get s k)
  intro i hi s
  apply hother
  rintro rfl
  exact hk (mem_map_of_mem hi)

theorem get_foldl_of_mem (hother : ∀ s i k, k ≠ key i → get (step s i) k = get s k)
    {l : List ι} (hl : (l.map key).Nodup)
    (hself : ∀ i ∈ l, ∀ s, get s (key i) = old (key i) → get (step s i) (key i) = new (key i))
    {i : ι} (hi : i ∈ l) {s : σ} (hs : get s (key i) = old (key i)) :
    get (l.foldl step s) (key i) = new (key i) := by
  induction l generalizing s with
  | nil => cases hi
  | cons j l ih =>
    rw [map_cons, nodup_cons] at hl
    rw [forall_mem_cons] at hself
    rw [foldl_cons]
    rcases mem_cons.1 hi with rfl | hi
    · rw [get_foldl_of_not_mem hother hl.1]
      exact hself.1 s hs
    · have hne : key i ≠ key j := fun heq => hl.1 (heq ▸ mem_map_of_mem hi)
      exact ih hl.2 hself.2 hi ((hother s j (key i) hne).trans hs)

theorem get_foldl_keyed (get : σ → κ → β) (key : ι → κ)
    (hother : ∀ s i k, k ≠ key i → get (step s i) k = get s k) {l : List ι} (hl : (l.map key).Nodup)
    (hself : ∀ i ∈ l, ∀ s, get s (key i) = old (key i) → get (step s i) (key i) = new (key i))
    (hrest : ∀ k, k ∉ l.map key → old k = new k) {s : σ} (hs : get s = old) :
    get (l.foldl step s) = new := by
  funext k
  by_cases hk : k ∈ l.map key
  · obtain ⟨i, hi, rfl⟩ := mem_map.1 hk
    exact get_foldl_of_mem hother hl hself hi (congrFun hs _)
  · rw [get_foldl_of_not_mem hother hk, hs, hrest k hk]

end Keyed

end Brokkr
