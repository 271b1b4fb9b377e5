import Mathlib.Data.List.Infix

/-!
# Parts of a text

A text is a list of characters, of any type.

* `hasPart` — one text is part of another.
* `splitOnce` — the parts before and after the first occurrence of a separator.
* `splitOnce_append` — what comes after the separator can be replaced.
* `splitOnce_singleton` — a text that does not hold the separator is the first part of
  what it is joined to.
-/

namespace Text

variable {α : Type} [DecidableEq α]

/-- Is one text part of another? -/
def hasPart (part l : List α) : Bool := decide (part <:+: l)

/-- Split a text at the first occurrence of a separator. -/
def splitOnce (sep : List α) : List α → Option (List α × List α)
  | [] => if sep = [] then some ([], []) else none
  | a :: l =>
    if sep <+: a :: l then some ([], (a :: l).drop sep.length)
    else (splitOnce sep l).map fun parts => (a :: parts.1, parts.2)

theorem splitOnce_sep (sep after : List α) : splitOnce sep (sep ++ after) = some ([], after) := by
  cases h : sep ++ after with
  | nil =>
    obtain ⟨rfl, rfl⟩ := List.append_eq_nil_iff.1 h
    rfl
  | cons a l =>
    have hfirst : sep <+: a :: l := ⟨after, h⟩
    rw [splitOnce, if_pos hfirst, ← h, List.drop_left]

theorem splitOnce_append {sep l before after : List α}
    (h : splitOnce sep l = some (before, after)) :
    l = before ++ (sep ++ after) ∧
      ∀ after', splitOnce sep (before ++ (sep ++ after')) = some (before, after') := by
  induction l generalizing before with
  | nil =>
    rw [splitOnce] at h
    split at h
    · rename_i hsep
      cases h
      subst hsep
      exact ⟨rfl, splitOnce_sep []⟩
    · cases h
  | cons a l ih =>
    rw [splitOnce] at h
    split at h
    · rename_i hsep
      cases h
      exact ⟨(List.prefix_iff_eq_append.1 hsep).symm, splitOnce_sep sep⟩
    rename_i hsep
    obtain ⟨⟨before', end'⟩, hl, heq⟩ := Option.map_eq_some_iff.1 h
    cases heq
    obtain ⟨hparts, hother⟩ := ih hl
    refine ⟨by rw [hparts]; rfl, fun after' => ?_⟩
    -- an earlier occurrence would lie within the part that both texts share
    have hnot : ¬ sep <+: a :: (before' ++ (sep ++ after')) := by
      intro hearly
      have hshared : sep <+: a :: (before' ++ sep) := by
        refine List.prefix_of_prefix_length_le hearly ⟨after', by simp⟩ ?_
        simp only [List.length_cons, List.length_append]
        omega
      refine hsep (hshared.trans ⟨end', ?_⟩)
      rw [hparts]
      simp
    rw [List.cons_append, splitOnce, if_neg hnot, hother after']
    rfl

theorem splitOnce_singleton {c : α} {before : List α} (h : c ∉ before) (after : List α) :
    splitOnce [c] (before ++ c :: after) = some (before, after) := by
  induction before with
  | nil => exact splitOnce_sep [c] after
  | cons a before ih =>
    have hne : c ≠ a := fun heq => h (heq ▸ List.mem_cons_self)
    have hnot : ¬ [c] <+: a :: (before ++ c :: after) := by
      rintro ⟨rest, hrest⟩
      exact hne (List.cons.inj hrest).1
    rw [List.cons_append, splitOnce, if_neg hnot, ih fun hmem => h (List.mem_cons_of_mem _ hmem)]
    rfl

end Text
