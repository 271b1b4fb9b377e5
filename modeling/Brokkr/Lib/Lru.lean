import Mathlib.Algebra.BigOperators.Group.List.Basic
import Mathlib.Algebra.GroupWithZero.Nat
import Mathlib.Data.List.Induction

/-!
# A cache bounded by the sizes of its entries

The least-recently-used cache as a list: entries in the order of their last use, the most
recent first.  What does not fit any more is dropped from the back.

* `trim` — entries are dropped from the back while their sizes sum to too much;
  `trim_of_le`, `trim_append_singleton` — its two cases; `total_trim_le`.
* `get`, `put` — the operations; `after`, `answers` — a run of them.
-/

namespace Lru

variable {κ ν : Type}

/-! ## Sizes -/

section Sizes

variable (size : ν → ℕ)

/-- The sizes of all entries. -/
def total (entries : List (κ × ν)) : ℕ := (entries.map fun e => size e.2).sum

/-- Drop entries from the front while there is too much. -/
def dropOver (cap : ℕ) : List (κ × ν) → List (κ × ν)
  | [] => []
  | e :: entries => if cap < total size (e :: entries) then dropOver cap entries else e :: entries

/-- Drop entries from the back while there is too much. -/
def trim (cap : ℕ) (entries : List (κ × ν)) : List (κ × ν) :=
  (dropOver size cap entries.reverse).reverse

variable {size} {entries : List (κ × ν)} {cap : ℕ}

@[simp] theorem total_nil : total size ([] : List (κ × ν)) = 0 := rfl

@[simp] theorem total_cons (e : κ × ν) (entries : List (κ × ν)) :
    total size (e :: entries) = size e.2 + total size entries := by
  simp [total]

@[simp] theorem total_append (l r : List (κ × ν)) :
    total size (l ++ r) = total size l + total size r := by
  simp [total]

@[simp] theorem total_reverse (entries : List (κ × ν)) :
    total size entries.reverse = total size entries := by
  simp [total, List.sum_reverse]

theorem total_perm {l r : List (κ × ν)} (h : l.Perm r) : total size l = total size r :=
  (h.map _).sum_eq

@[simp] theorem trim_nil (cap : ℕ) : trim size cap ([] : List (κ × ν)) = [] := rfl

theorem trim_of_le (h : total size entries ≤ cap) : trim size cap entries = entries := by
  rw [trim]
  cases hrev : entries.reverse with
  | nil =>
    rw [List.reverse_eq_nil_iff.1 hrev]
    rfl
  | cons e l =>
    have htotal : total size (e :: l) ≤ cap := by
      rw [← hrev, total_reverse]
      exact h
    rw [dropOver, if_neg (Nat.not_lt.2 htotal), ← hrev, List.reverse_reverse]

theorem trim_append_singleton (e : κ × ν) (h : cap < total size (entries ++ [e])) :
    trim size cap (entries ++ [e]) = trim size cap entries := by
  have htotal : cap < total size (e :: entries.reverse) := by
    simp only [total_append, total_cons, total_nil, total_reverse] at h ⊢
    omega
  rw [trim, List.reverse_append, List.reverse_singleton, List.singleton_append, dropOver,
    if_pos htotal, trim]

theorem total_trim_le (cap : ℕ) (entries : List (κ × ν)) :
    total size (trim size cap entries) ≤ cap := by
  induction entries using List.reverseRecOn with
  | nil => exact Nat.zero_le cap
  | append_singleton entries e ih =>
    by_cases h : cap < total size (entries ++ [e])
    · rw [trim_append_singleton e h]
      exact ih
    · rw [trim_of_le (Nat.not_lt.1 h)]
      exact Nat.not_lt.1 h

end Sizes

/-! ## Operations -/

variable [DecidableEq κ] (size : ν → ℕ)

/-- Entries with other keys. -/
def remove (entries : List (κ × ν)) (k : κ) : List (κ × ν) := entries.filter fun e => e.1 ≠ k

theorem remove_of_lookup_none {entries : List (κ × ν)} {k : κ} (h : entries.lookup k = none) :
    remove entries k = entries := by
  rw [remove, List.filter_eq_self]
  intro e he
  have hne := bne_iff_ne.1 (List.lookup_eq_none_iff.1 h e he)
  exact decide_eq_true hne.symm

/-- Look a key up; its entry becomes the most recent one. -/
def get (entries : List (κ × ν)) (k : κ) : Option ν × List (κ × ν) :=
  match entries.lookup k with
  | none => (none, entries)
  | some v => (some v, (k, v) :: remove entries k)

/-- Enter a value as the most recent one, unless it is new and too large. -/
def put (cap : ℕ) (entries : List (κ × ν)) (k : κ) (v : ν) : List (κ × ν) :=
  if (entries.lookup k).isSome then trim size cap ((k, v) :: remove entries k)
  else if size v ≤ cap then trim size cap ((k, v) :: entries)
  else entries

section Put

variable {size} {cap : ℕ} {entries : List (κ × ν)} {k : κ} {v : ν}

theorem put_of_some {w : ν} (h : entries.lookup k = some w) :
    put size cap entries k v = trim size cap ((k, v) :: remove entries k) := by
  rw [put, h]
  rfl

theorem put_of_none (h : entries.lookup k = none) :
    put size cap entries k v =
      if size v ≤ cap then trim size cap ((k, v) :: entries) else entries := by
  rw [put, h]
  rfl

theorem total_put_le (h : total size entries ≤ cap) (k : κ) (v : ν) :
    total size (put size cap entries k v) ≤ cap := by
  rw [put]
  split
  · exact total_trim_le cap _
  split
  · exact total_trim_le cap _
  · exact h

end Put

/-- An operation on a cache. -/
inductive Op (κ ν : Type) where
  | get (k : κ)
  | put (k : κ) (v : ν)

/-- The entries after an operation. -/
def step (cap : ℕ) (entries : List (κ × ν)) : Op κ ν → List (κ × ν)
  | .get k => (get entries k).2
  | .put k v => put size cap entries k v

/-- The answers to the lookups of a run. -/
def answers (cap : ℕ) (entries : List (κ × ν)) : List (Op κ ν) → List (Option ν)
  | [] => []
  | .get k :: ops => (get entries k).1 :: answers cap (step size cap entries (.get k)) ops
  | .put k v :: ops => answers cap (step size cap entries (.put k v)) ops

end Lru
