import Mathlib

/-!
# Rankings

Picking the best of some candidates by sorting them, when the order tells any two of
the candidates apart.

* `Separates`: no two members of a list are ranked the same.
* `eq_insertionSort`: then there is only one way to sort it, whatever the algorithm.
* `take_filter_take`: the best of what is left, when at most `k` candidates are taken
  out, are among the `k` more best of all.
-/

namespace Brokkr

open List

variable {α : Type} {le : α → α → Prop} {l s : List α}

/-- No two members of the list are ranked the same. -/
def Separates (le : α → α → Prop) (l : List α) : Prop := ∀ a ∈ l, ∀ b ∈ l, le a b → le b a → a = b

section Sorting

variable [DecidableRel le] [Std.Total le] [IsTrans α le]

theorem eq_insertionSort (h : Separates le l) (hperm : s.Perm l) (hs : s.Pairwise le) :
    s = l.insertionSort le := by
  have hsort : (l.insertionSort le).Perm l := perm_insertionSort le l
  refine List.Perm.eq_of_pairwise ?_ hs (pairwise_insertionSort le l)
    (hperm.trans hsort.symm)
  intro a b ha hb hab hba
  exact h a (hperm.subset ha) b (hsort.subset hb) hab hba

end Sorting

theorem take_filter_take {p : α → Bool} {k : ℕ} (h : (l.countP fun a => decide ¬p a = true) ≤ k)
    (r : ℕ) : (l.filter p).take r = ((l.take (r + k)).filter p).take r := by
  by_cases hlen : l.length ≤ r + k
  · rw [take_of_length_le hlen]
  have hsplit : l.filter p = (l.take (r + k)).filter p ++ (l.drop (r + k)).filter p := by
    rw [← filter_append, take_append_drop]
  -- the first `r + k` lose at most `k`, so `r` of them are left
  have hout : ((l.take (r + k)).countP fun a => decide ¬p a = true) ≤ k :=
    ((take_sublist _ _).countP_le).trans h
  have hfull : (l.take (r + k)).length = r + k := by
    rw [length_take]
    omega
  have hin := @List.length_eq_countP_add_countP _ p (l.take (r + k))
  rw [hsplit, take_append_of_le_length]
  rw [← countP_eq_length_filter]
  omega

end Brokkr
