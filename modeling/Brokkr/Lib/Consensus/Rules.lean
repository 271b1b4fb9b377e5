import Mathlib

/-!
# Replicated logs with configurations in the log

The static part of a leader-based replicated log whose membership changes travel
in the log itself.  A `Rules` says what the term and the configuration of an
entry are, which sets of nodes are a quorum of a configuration, and which entry
a leader may append to which log; it carries the proofs that quorums of
configurations that can be in force side by side meet.

* `Rules.active` — the configuration in force: the last one in the log, whether
  committed or not.
* `Rules.trim` — the log up to its last configuration entry.
* `Rules.overlap` — two logs that each hold the other's configurations, all but
  the last, have meeting quorums.  This is the one fact about membership changes
  that elections and commitment rest on.
* `Rules.UpToDate` — the order in which voters compare logs.
-/

namespace Brokkr.Consensus

open List

/-- A replicated log with configurations in it: `N` nodes, `E` entries, `C`
configurations. -/
structure Rules (N E C : Type) where
  term : E → ℕ
  conf : E → Option C
  boot : C
  Quorum : C → Set N → Prop
  Next : C → C → Prop
  Admits : List E → E → Prop
  quorum_mono : ∀ {c : C} {A B : Set N}, A ⊆ B → Quorum c A → Quorum c B
  overlap_self : ∀ {c : C} {A B : Set N}, Quorum c A → Quorum c B → (A ∩ B).Nonempty
  overlap_next : ∀ {c d : C} {A B : Set N}, Next c d → Quorum c A → Quorum d B → (A ∩ B).Nonempty
  overlap_sibling : ∀ {c d d' : C} {A B : Set N}, Next c d → Next c d' →
    Quorum d A → Quorum d' B → (A ∩ B).Nonempty
  next_of_admits : ∀ {l : List E} {e : E} {c : C}, Admits l e → conf e = some c →
    Next ((l.filterMap conf).getLastD boot) c

namespace Rules

variable {N E C : Type} (R : Rules N E C)

/-! ## Configurations in a log -/

variable (l : List E)

/-- The configurations in a log, oldest first. -/
def confs : List C := l.filterMap R.conf

/-- The configuration in force. -/
def active : C := (R.confs l).getLastD R.boot

/-- The log up to and including its last configuration entry. -/
def trim : List E := l.rdropWhile (fun e => (R.conf e).isNone)

theorem trim_isPrefix : R.trim l <+: l := List.rdropWhile_prefix _ _

theorem trim_concat_none {l : List E} {e : E} (h : R.conf e = none) :
    R.trim (l ++ [e]) = R.trim l := by
  rw [trim, trim, rdropWhile_concat_pos]
  simp [h]

theorem trim_concat_some {l : List E} {e : E} {c : C} (h : R.conf e = some c) :
    R.trim (l ++ [e]) = l ++ [e] := by
  rw [trim, rdropWhile_concat_neg]
  simp [h]

theorem confs_concat_none {l : List E} {e : E} (h : R.conf e = none) :
    R.confs (l ++ [e]) = R.confs l := by simp [confs, h]

theorem confs_concat_some {l : List E} {e : E} {c : C} (h : R.conf e = some c) :
    R.confs (l ++ [e]) = R.confs l ++ [c] := by simp [confs, h]

theorem active_concat_some {l : List E} {e : E} {c : C} (h : R.conf e = some c) :
    R.active (l ++ [e]) = c := by simp [active, R.confs_concat_some h]

theorem confs_trim : R.confs (R.trim l) = R.confs l := by
  induction l using reverseRecOn with
  | nil => rfl
  | append_singleton l e ih =>
    cases h : R.conf e with
    | none => rw [R.trim_concat_none h, ih, R.confs_concat_none h]
    | some => rw [R.trim_concat_some h]

theorem confs_prefix {l m : List E} (h : l <+: m) : R.confs l <+: R.confs m := h.filterMap R.conf

/-- Every entry was admitted on top of what stands below it. -/
def Admitted : Prop := ∀ p e, p ++ [e] <+: l → R.Admits p e

variable {R}

theorem Admitted.of_isPrefix {l m : List E} (hm : R.Admitted m) (h : l <+: m) : R.Admitted l :=
  fun p e hp => hm p e (hp.trans h)

theorem Admitted.last_conf {l : List E} (h : R.Admitted l) :
    R.confs l = [] ∨ ∃ p e c, p ++ [e] <+: l ∧ R.conf e = some c ∧
      R.confs l = R.confs p ++ [c] ∧ R.Next (R.active p) c := by
  induction l using reverseRecOn with
  | nil => exact .inl rfl
  | append_singleton l e ih =>
    cases hc : R.conf e with
    | none =>
      rw [R.confs_concat_none hc]
      refine (ih (h.of_isPrefix (List.prefix_append l [e]))).imp_right ?_
      rintro ⟨p, f, c, hp, hf, hcs, hn⟩
      exact ⟨p, f, c, hp.trans (List.prefix_append l [e]), hf, hcs, hn⟩
    | some c =>
      refine .inr ⟨l, e, c, List.prefix_rfl, hc, R.confs_concat_some hc, ?_⟩
      exact R.next_of_admits (h l e List.prefix_rfl) hc

/-- What it takes for two logs to have been in force side by side: each holds
the other's configurations, all but the last. -/
def Known (R : Rules N E C) (l m : List E) : Prop :=
  ∀ p e c, p ++ [e] <+: l → R.conf e = some c → R.confs l = R.confs p ++ [c] → R.trim p <+: m

theorem Known.confs_prefix {l m p : List E} {e : E} {c : C} (h : R.Known l m)
    (hp : p ++ [e] <+: l) (hc : R.conf e = some c) (hl : R.confs l = R.confs p ++ [c]) :
    R.confs p <+: R.confs m := by
  rw [← R.confs_trim p]
  exact R.confs_prefix (h p e c hp hc hl)

/-- **Quorums of configurations that can be in force side by side meet.** -/
theorem overlap {l m : List E} (hl : R.Admitted l) (hm : R.Admitted m) (hlm : R.Known l m)
    (hml : R.Known m l) {A B : Set N} (hA : R.Quorum (R.active l) A)
    (hB : R.Quorum (R.active m) B) : (A ∩ B).Nonempty := by
  rcases hl.last_conf with hl0 | ⟨p, e, c, hp, he, hlc, hn⟩
  · rcases hm.last_conf with hm0 | ⟨q, f, d, hq, hf, hmd, hn'⟩
    · -- neither has left the bootstrap configuration
      have hactive : R.active l = R.active m := by rw [active, active, hl0, hm0]
      rw [hactive] at hA
      exact R.overlap_self hA hB
    · have hq0 : R.confs q = [] := by
        have := hml.confs_prefix hq hf hmd
        rwa [hl0, List.prefix_nil] at this
      have hact : R.active q = R.active l := by rw [active, active, hq0, hl0]
      have hactm : R.active m = d := by rw [active, hmd, getLastD_concat]
      rw [hact] at hn'
      rw [hactm] at hB
      exact R.overlap_next hn' hA hB
  · have hactl : R.active l = c := by rw [active, hlc, getLastD_concat]
    rw [hactl] at hA
    have h1 : R.confs p <+: R.confs m := hlm.confs_prefix hp he hlc
    rcases hm.last_conf with hm0 | ⟨q, f, d, hq, hf, hmd, hn'⟩
    · have hp0 : R.confs p = [] := by rwa [hm0, List.prefix_nil] at h1
      have hact : R.active p = R.active m := by rw [active, active, hp0, hm0]
      rw [hact] at hn
      rw [Set.inter_comm]
      exact R.overlap_next hn hB hA
    have hactm : R.active m = d := by rw [active, hmd, getLastD_concat]
    rw [hactm] at hB
    have h2 : R.confs q <+: R.confs l := hml.confs_prefix hq hf hmd
    rw [hmd] at h1
    rw [hlc] at h2
    rcases List.prefix_concat_iff.1 h1 with h1' | h1'
    · -- `p` already holds the last configuration of `m`
      have hact : R.active p = d := by rw [active, h1', getLastD_concat]
      rw [hact] at hn
      rw [Set.inter_comm]
      exact R.overlap_next hn hB hA
    rcases List.prefix_concat_iff.1 h2 with h2' | h2'
    · have hact : R.active q = c := by rw [active, h2', getLastD_concat]
      rw [hact] at hn'
      exact R.overlap_next hn' hA hB
    -- the same configurations below the last one
    have heq : R.confs p = R.confs q :=
      List.IsPrefix.eq_of_length h1' (le_antisymm h1'.length_le h2'.length_le)
    have hact : R.active p = R.active q := by rw [active, active, heq]
    rw [hact] at hn
    exact R.overlap_sibling hn hn' hA hB

/-! ## Comparing logs -/

variable (R)

/-- The term of the last entry, `0` for the empty log. -/
def lastTerm (l : List E) : ℕ := (l.getLast?.map R.term).getD 0

@[simp] theorem lastTerm_concat (l : List E) (e : E) : R.lastTerm (l ++ [e]) = R.term e := by
  simp [lastTerm]

/-- Log `l` is at least as up to date as `m`: a later last term wins, ties break
on the longer log. -/
def UpToDate (l m : List E) : Prop :=
  R.lastTerm m < R.lastTerm l ∨ (R.lastTerm m = R.lastTerm l ∧ m.length ≤ l.length)

theorem UpToDate.refl (l : List E) : R.UpToDate l l := Or.inr ⟨rfl, le_rfl⟩

/-- Terms never decrease along the log. -/
def Ordered (l : List E) : Prop := l.Pairwise (fun a b => R.term a ≤ R.term b)

variable {R}

theorem Ordered.term_le_lastTerm {l : List E} (h : R.Ordered l) {e : E} (he : e ∈ l) :
    R.term e ≤ R.lastTerm l := by
  induction l using reverseRecOn with
  | nil => exact absurd he not_mem_nil
  | append_singleton l f =>
    rw [lastTerm_concat]
    rcases mem_append.1 he with he | he
    · exact (pairwise_append.1 h).2.2 e he f (mem_singleton_self f)
    · rw [mem_singleton.1 he]

end Rules

end Brokkr.Consensus
