import Mathlib

/-!
# Vectors used as bags

Two operations on lists that leave the order of a bag open.

* `swapRemove` — remove the element at an index by moving the last element into
  its place; `swapRemove_perm` says what is left.
* `firstMin` — the first element with the least key, with its index;
  `firstMin_spec` and `firstMin_eq_none` characterise it.
-/

namespace Brokkr

open List

variable {α : Type}

/-- Remove the element at `i`; the last element takes its place. -/
def swapRemove (l : List α) (i : ℕ) : List α :=
  match l.getLast? with
  | none => []
  | some x => (l.set i x).dropLast

theorem swapRemove_append (init : List α) (x : α) (i : ℕ) :
    swapRemove (init ++ [x]) i = ((init ++ [x]).set i x).dropLast := by
  simp [swapRemove]

theorem swapRemove_perm {l : List α} {i : ℕ} {a : α} (h : l[i]? = some a) :
    (a :: swapRemove l i).Perm l := by
  induction l using reverseRecOn with
  | nil => simp at h
  | append_singleton init x =>
    rw [swapRemove_append]
    by_cases hi : i < init.length
    · rw [getElem?_append_left hi] at h
      obtain ⟨_, rfl⟩ := List.getElem?_eq_some_iff.1 h
      rw [set_append_left _ _ hi, dropLast_concat]
      have hsplit : init = init.take i ++ init[i] :: init.drop (i + 1) := by
        rw [getElem_cons_drop, take_append_drop]
      have hset : init.set i x = init.take i ++ x :: init.drop (i + 1) := by
        rw [set_eq_take_append_cons_drop, if_pos hi]
      rw [hset]
      conv_rhs => rw [hsplit]
      refine (List.Perm.cons _ perm_middle).trans ?_
      refine (List.Perm.swap _ _ _).trans ?_
      refine (List.Perm.cons x perm_middle.symm).trans ?_
      exact (perm_append_singleton x _).symm
    · have hx : i = init.length := by
        have := (List.getElem?_eq_some_iff.1 h).1
        rw [length_append, length_singleton] at this
        omega
      subst hx
      rw [getElem?_concat_length] at h
      cases h
      rw [set_append_right _ _ le_rfl]
      simp only [Nat.sub_self, set_cons_zero, dropLast_concat]
      exact (perm_append_singleton _ _).symm

/-- The first element with the least key, with its index. -/
def firstMin (key : α → ℕ) : List α → Option (ℕ × α)
  | [] => none
  | a :: l =>
    match firstMin key l with
    | none => some (0, a)
    | some (i, b) => if key b < key a then some (i + 1, b) else some (0, a)

theorem firstMin_eq_none {key : α → ℕ} {l : List α} : firstMin key l = none ↔ l = [] := by
  cases l with
  | nil => simp [firstMin]
  | cons =>
    rw [firstMin]
    split
    · simp
    · split <;> simp

theorem firstMin_spec {key : α → ℕ} {l : List α} {i : ℕ} {a : α}
    (h : firstMin key l = some (i, a)) : l[i]? = some a ∧ ∀ b ∈ l, key a ≤ key b := by
  induction l generalizing i a with
  | nil => cases h
  | cons c l ih =>
    rw [firstMin] at h
    split at h
    · rename_i hnone
      cases h
      rw [firstMin_eq_none.1 hnone]
      simp
    rename_i j b hb
    obtain ⟨hget, hle⟩ := ih hb
    split at h
    · rename_i hlt
      cases h
      refine ⟨hget, ?_⟩
      intro d hd
      rcases mem_cons.1 hd with rfl | hd
      · exact hlt.le
      · exact hle d hd
    rename_i hge
    cases h
    refine ⟨rfl, ?_⟩
    intro d hd
    rcases mem_cons.1 hd with rfl | hd
    · exact le_rfl
    · exact (not_lt.1 hge).trans (hle d hd)

end Brokkr
