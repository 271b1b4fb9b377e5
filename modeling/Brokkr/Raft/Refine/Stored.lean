import Brokkr.Raft.Rules

/-!
# The log table and the log it stands for

The `log` table of a node holds the entries above its snapshot; the whole log is
the entries the snapshot covers followed by those.  `Holds l s t` says that the
table `t` holds the entries of the log `l` above index `s`, and each operation
of the store is shown to do to the table what it should do to the log.

* `Holds.toList_eq`, `Holds.entriesFrom` — iterating the table lists the log.
* `Holds.insertAll`, `Holds.truncate`, `Holds.compact` — appending, truncating
  and compacting.
* `Db.lastIndexAndTerm_eq` — the last index and term, from the table or from the
  snapshot.
-/

namespace Brokkr.Raft

open OrdMap

open Consensus List

variable {k s i : ℕ} {e : LogEntry}

/-! ## Logs whose entries stand at their own index -/

/-- Every entry stands at its own index. -/
def Indexed (l : List LogEntry) : Prop := ∀ i e, l[i]? = some e → e.index = i + 1

namespace Indexed

variable {l m : List LogEntry}

theorem of_isPrefix (h : Indexed m) (hl : l <+: m) : Indexed l := by
  intro i e he
  obtain ⟨r, rfl⟩ := hl
  obtain ⟨hi, -⟩ := List.getElem?_eq_some_iff.1 he
  exact h i e (by rwa [getElem?_append_left hi])

theorem mem_take (h : Indexed l) (he : e ∈ l.take k) : e.index ≤ k := by
  obtain ⟨i, hi⟩ := mem_iff_getElem?.1 he
  rw [getElem?_take] at hi
  split at hi
  · have := h i e hi
    omega
  · exact absurd hi (by simp)

theorem mem_drop (h : Indexed l) (he : e ∈ l.drop k) : k < e.index := by
  obtain ⟨i, hi⟩ := mem_iff_getElem?.1 he
  rw [getElem?_drop] at hi
  have := h _ e hi
  omega

theorem getElem_pred (h : Indexed l) (he : e ∈ l) :
    0 < e.index ∧ l[e.index - 1]? = some e := by
  obtain ⟨i, hi⟩ := mem_iff_getElem?.1 he
  have := h i e hi
  rw [this]
  exact ⟨Nat.succ_pos i, by simpa using hi⟩

theorem drop_eq_append (hk : s ≤ k) : l.drop s = (l.take k).drop s ++ l.drop k := by
  have h := take_append_drop (k - s) (l.drop s)
  rw [drop_drop, Nat.add_sub_cancel' hk, ← drop_take] at h
  exact h.symm

theorem filter_gt (h : Indexed l) (hk : s ≤ k) :
    (l.drop s).filter (fun e => decide (k < e.index)) = l.drop k := by
  rw [drop_eq_append hk, filter_append, filter_eq_nil_iff.2, nil_append, filter_eq_self.2]
  · exact fun e he => by simpa using h.mem_drop he
  · intro e he
    simpa using h.mem_take (mem_of_mem_drop he)

theorem filter_le (h : Indexed l) (hk : s ≤ k) :
    (l.drop s).filter (fun e => decide (e.index ≤ k)) = (l.take k).drop s := by
  rw [drop_eq_append hk, filter_append, filter_eq_self.2, filter_eq_nil_iff.2, append_nil]
  · intro e he
    have := h.mem_drop he
    simpa using this
  · intro e he
    simpa using h.mem_take (mem_of_mem_drop he)

end Indexed

/-! ## The table -/

/-- The table holds the entries of `l` above index `s`. -/
def Holds (l : List LogEntry) (s : ℕ) (t : OrdMap ℕ LogEntry) : Prop :=
  ∀ i, t.get? i = if s < i then l[i - 1]? else none

namespace Holds

variable {l : List LogEntry} {t : OrdMap ℕ LogEntry}

variable (h : Holds l s t)

include h

theorem toList_eq (hl : Indexed l) :
    t.toList = (l.drop s).map (fun e => (e.index, e)) := by
  have hidx : ∀ {j e}, (l.drop s)[j]? = some e → e.index = s + j + 1 := by
    intro j e he
    rw [getElem?_drop] at he
    exact hl _ e he
  have hsorted : ((l.drop s).map (fun e => (e.index, e))).Pairwise (fun a b => a.1 < b.1) := by
    rw [pairwise_iff_getElem]
    intro i j hi hj hij
    rw [getElem_map, getElem_map]
    rw [length_map] at hi hj
    have h1 := hidx (getElem?_eq_getElem hi)
    have h2 := hidx (getElem?_eq_getElem hj)
    omega
  have heq : t = ⟨_, hsorted⟩ := by
    refine ext fun k => Option.ext fun e => ?_
    rw [h k, get?_eq_some, mem_map]
    constructor
    · intro he
      split at he
      · have hke : e.index = k := by
          have := hl _ e he
          omega
        refine ⟨e, mem_iff_getElem?.2 ⟨k - 1 - s, ?_⟩, by rw [hke]⟩
        rw [getElem?_drop, show s + (k - 1 - s) = k - 1 by omega]
        exact he
      · exact absurd he (by simp)
    · rintro ⟨e', he', heq⟩
      obtain ⟨rfl, rfl⟩ := Prod.mk.inj heq
      rw [if_pos (hl.mem_drop he')]
      exact (hl.getElem_pred (mem_of_mem_drop he')).2
  rw [heq]

theorem get_gt (hi : s < i) : t.get? i = l[i - 1]? := by
  rw [h i, if_pos hi]

theorem get_le (hi : i ≤ s) : t.get? i = none := by
  rw [h i, if_neg (by omega)]

theorem insert (he : e.index = l.length + 1) (hs : s ≤ l.length) :
    Holds (l ++ [e]) s (t.insert e.index e) := by
  intro i
  rw [get?_insert, h i]
  by_cases hi : i = e.index
  · rw [if_pos hi, hi, he, if_pos (by omega)]
    simp
  rw [if_neg hi]
  split
  · rcases lt_or_ge (i - 1) l.length with hlt | hge
    · rw [getElem?_append_left hlt]
    · rw [List.getElem?_eq_none hge, List.getElem?_eq_none]
      rw [length_append, length_singleton]
      omega
  · rfl

theorem insertAll {es : List LogEntry} (hes : Indexed (l ++ es))
    (hs : s ≤ l.length) : Holds (l ++ es) s (Db.insertAll t es) := by
  induction es generalizing l t with
  | nil => simpa [Db.insertAll] using h
  | cons e es ih =>
    have hassoc : l ++ e :: es = (l ++ [e]) ++ es := by simp
    have he : e.index = l.length + 1 := hes l.length e (by simp)
    rw [hassoc] at hes ⊢
    refine ih (h.insert he hs) hes ?_
    rw [length_append]
    exact Nat.le_add_right_of_le hs

theorem truncate :
    Holds (l.take (i - 1)) s (t.filter (fun key _ => decide (key < i))) := by
  intro j
  rw [get?_filter, h j]
  by_cases hsj : s < j
  · rw [if_pos hsj, if_pos hsj, getElem?_take]
    cases hl : l[j - 1]? with
    | none => simp
    | some =>
      by_cases hji : j < i
      · simp [hji, show j - 1 < i - 1 by omega]
      · simp [hji, show ¬ j - 1 < i - 1 by omega]
  · rw [if_neg hsj, if_neg hsj]
    rfl

theorem compact (hk : s ≤ k) :
    Holds l k (t.filter (fun key _ => decide (k < key))) := by
  intro j
  rw [get?_filter, h j]
  by_cases hkj : k < j
  · rw [if_pos hkj, if_pos (by omega)]
    cases l[j - 1]? with
    | none => rfl
    | some => simp [hkj]
  split
  · cases l[j - 1]? with
    | none => rfl
    | some => simp [hkj]
  · rfl

omit h

theorem wiped : Holds l l.length ∅ := by
  intro j
  rw [get?_empty]
  split
  · rw [List.getElem?_eq_none (by omega)]
  · rfl

end Holds

/-! ## Reads of the database -/

namespace Db

variable {l : List LogEntry} {db : Db}

theorem entriesFrom_eq (h : Holds l s db.log) (hl : Indexed l) {start : ℕ}
    (hs : s < start) : db.entriesFrom start = l.drop (start - 1) := by
  rw [entriesFrom, h.toList_eq hl, filter_map, map_map]
  rw [← hl.filter_gt (s := s) (k := start - 1) (by omega)]
  simp only [Function.comp_def, map_id']
  refine filter_congr fun e _ => ?_
  rw [decide_eq_decide]
  omega

theorem entriesFrom_all (h : Holds l s db.log) (hl : Indexed l) {start : ℕ}
    (hs : start ≤ s + 1) : db.entriesFrom start = l.drop s := by
  rw [entriesFrom, h.toList_eq hl, filter_eq_self.2, map_map]
  · simp [Function.comp_def]
  intro p hp
  obtain ⟨e, he, rfl⟩ := mem_map.1 hp
  have := hl.mem_drop he
  simp only [decide_eq_true_eq]
  omega

/-- What the snapshot rows say about the log. -/
def SnapshotTerm (voters : OrdSet NodeId) (l : List LogEntry) (db : Db) : Prop :=
  ∀ info data, db.snapshot = some (info, data) →
    info.lastIncludedTerm = (rules voters).lastTerm (l.take info.lastIncludedIndex)

theorem lastIndexAndTerm_eq {voters : OrdSet NodeId} (h : Holds l db.snapshotIndex db.log)
    (hl : Indexed l) (hs : db.snapshotIndex ≤ l.length) (hsnap : db.SnapshotTerm voters l) :
    db.lastIndexAndTerm = (l.length, (rules voters).lastTerm l) := by
  rw [lastIndexAndTerm, h.toList_eq hl, getLast?_map]
  rcases hs.lt_or_eq with hlt | heq
  · rw [getLast?_drop, if_neg (by omega)]
    obtain ⟨p, e, rfl⟩ : ∃ p e, l = p ++ [e] := by
      rcases eq_nil_or_concat l with rfl | ⟨p, e, he⟩
      · exact absurd hlt (by simp)
      · exact ⟨p, e, by rw [he, concat_eq_append]⟩
    have he : e.index = p.length + 1 := hl p.length e (by simp)
    simp [he]
    rfl
  have hfull : l.take db.snapshotIndex = l := by rw [heq, take_length]
  cases hsn : db.snapshot with
  | none =>
    have h0 : l = [] := eq_nil_of_length_eq_zero (by rw [← heq, snapshotIndex, hsn])
    simp [snapshotMeta, hsn, h0]
    rfl
  | some p =>
    obtain ⟨info, data⟩ := p
    have hi : db.snapshotIndex = info.lastIncludedIndex := by rw [snapshotIndex, hsn]
    have := hsnap info data hsn
    simp [snapshotMeta, hsn, this, ← hi, heq]

end Db

end Brokkr.Raft
