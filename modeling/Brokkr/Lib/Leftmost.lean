import Mathlib.Data.List.Basic
import Mathlib.Data.Nat.Basic
import Mathlib.Order.Basic

/-!
# The leftmost least element among those that qualify

A scan of a list that keeps the best element so far finds the leftmost element with the
least key among the elements that satisfy a condition.

* `Leftmost` — what the result of such a scan is.
* `Leftmost.keep`, `Leftmost.replace`, `Leftmost.first_found` — the steps of the scan.
-/

namespace Brokkr

open List

variable {α : Type} {key : α → ℕ} {ok : α → Prop} {l : List α} {i : ℕ} {a : α}

/-- The element at `i` is the leftmost one with the least key among those that qualify. -/
structure Leftmost (key : α → ℕ) (ok : α → Prop) (l : List α) (i : ℕ) (a : α) : Prop where
  at_index : l[i]? = some a
  qualifies : ok a
  /-- No element that qualifies has a lower key. -/
  least : ∀ {j : ℕ} {b : α}, l[j]? = some b → ok b → key a ≤ key b
  /-- Those with the same key come later. -/
  first : ∀ {j : ℕ} {b : α}, l[j]? = some b → ok b → key b = key a → i ≤ j

namespace Leftmost

theorem getElem?_concat {b c : α} {j : ℕ} (h : (l ++ [b])[j]? = some c) :
    l[j]? = some c ∨ j = l.length ∧ c = b := by
  rcases Nat.lt_trichotomy j l.length with hlt | rfl | hgt
  · rw [getElem?_append_left hlt] at h
    exact .inl h
  · rw [getElem?_concat_length] at h
    exact .inr ⟨rfl, (Option.some.inj h).symm⟩
  · rw [List.getElem?_eq_none (by rw [length_append]; exact hgt)] at h
    cases h

theorem index_lt (h : Leftmost key ok l i a) : i < l.length :=
  (List.getElem?_eq_some_iff.1 h.at_index).1

theorem keep (h : Leftmost key ok l i a) {b : α} (hb : ok b → key a ≤ key b) :
    Leftmost key ok (l ++ [b]) i a where
  at_index := by
    rw [getElem?_append_left h.index_lt]
    exact h.at_index
  qualifies := h.qualifies
  least := by
    intro j c hc hok
    rcases getElem?_concat hc with hold | ⟨-, rfl⟩
    · exact h.least hold hok
    · exact hb hok
  first := by
    intro j c hc hok hkey
    rcases getElem?_concat hc with hold | ⟨rfl, -⟩
    · exact h.first hold hok hkey
    · exact h.index_lt.le

theorem last {b : α} (hok : ok b) (hlt : ∀ {j : ℕ} {c : α}, l[j]? = some c → ok c → key b < key c) :
    Leftmost key ok (l ++ [b]) l.length b where
  at_index := getElem?_concat_length
  qualifies := hok
  least := by
    intro j c hc hqual
    rcases getElem?_concat hc with hold | ⟨-, rfl⟩
    · exact (hlt hold hqual).le
    · exact le_rfl
  first := by
    intro j c hc hqual hkey
    rcases getElem?_concat hc with hold | ⟨rfl, -⟩
    · exact absurd hkey (hlt hold hqual).ne'
    · exact le_rfl

theorem replace (h : Leftmost key ok l i a) {b : α} (hok : ok b) (hlt : key b < key a) :
    Leftmost key ok (l ++ [b]) l.length b :=
  last hok fun hc hqual => hlt.trans_le (h.least hc hqual)

theorem first_found {b : α} (hnone : ∀ c ∈ l, ¬ ok c) (hok : ok b) :
    Leftmost key ok (l ++ [b]) l.length b :=
  last hok fun hc hqual => absurd hqual (hnone _ (mem_of_getElem? hc))

end Leftmost

end Brokkr
