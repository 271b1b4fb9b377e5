import Brokkr.Raft.Refine.Stored

/-!
# The configuration tracker follows the log

`ConfigTracker` is kept up to date by hand at every append, truncation,
compaction and snapshot.  `trackerOf` is what it should be: a function of the
snapshot and the log above it.  Each operation of the tracker is shown to match
the operation on the log, and recovery to rebuild exactly the same tracker.

* `recover_eq`, `noteAppendedConfigs_eq`, `onTruncate_eq`, `onCompact_eq`,
  `onInstallSnapshot_eq` — the operations.
* `active_electorate` — the configuration in force is that of the whole log.
* `latestIndex_le_iff` — it is committed if the log up to it is.
-/

namespace Brokkr.Raft

open ConfigTracker

open Consensus List

variable {k : ℕ} {info : SnapshotMeta}

/-! ## What the tracker should be -/

/-- The configuration entries of a log, with their indices. -/
def configsIn (l : List LogEntry) : List (ℕ × ClusterConfig) :=
  l.filterMap (fun e => e.config?.map (fun c => (e.index, c)))

theorem configsIn_append (l m : List LogEntry) :
    configsIn (l ++ m) = configsIn l ++ configsIn m := filterMap_append

/-- The configuration below the log: the snapshot's, or the bootstrap one if
there is no snapshot or its configuration is unknown. -/
def baseOf (bootstrap : ClusterConfig) : Option SnapshotMeta → ClusterConfig
  | some m => if !m.config.voters.isEmpty then m.config else bootstrap
  | none => bootstrap

/-- The tracker of a node whose log is `l` and whose snapshot covers `s`
entries of it. -/
def trackerOf (bootstrap : ClusterConfig) (snap : Option SnapshotMeta) (s : ℕ)
    (l : List LogEntry) : ConfigTracker where
  base := baseOf bootstrap snap
  baseIndex := s
  inLog := configsIn (l.drop s)

theorem mem_configsIn {l : List LogEntry} {p : ℕ × ClusterConfig} (h : p ∈ configsIn l) :
    ∃ e ∈ l, e.index = p.1 ∧ e.config? = some p.2 := by
  obtain ⟨e, he, hp⟩ := mem_filterMap.1 h
  obtain ⟨c, hc, rfl⟩ := Option.map_eq_some_iff.1 hp
  exact ⟨e, he, rfl, hc⟩

theorem configsIn_filter (l : List LogEntry) (q : ℕ → Bool) :
    (configsIn l).filter (fun p => q p.1) = configsIn (l.filter (fun e => q e.index)) := by
  induction l with
  | nil => rfl
  | cons e l ih =>
    have hcons : ∀ m : List LogEntry, configsIn (e :: m) = configsIn [e] ++ configsIn m :=
      fun m => configsIn_append [e] m
    have hone : ∀ p ∈ configsIn [e], p.1 = e.index := by
      intro p hp
      obtain ⟨e', he', hp', -⟩ := mem_configsIn hp
      rw [← hp', mem_singleton.1 he']
    rw [hcons, filter_append, ih]
    by_cases hq : q e.index = true
    · rw [filter_cons_of_pos (p := fun e : LogEntry => q e.index) hq,
        hcons (l.filter fun e => q e.index),
        filter_eq_self.2 fun p hp => by rw [hone p hp]; exact hq]
    rw [filter_cons_of_neg (p := fun e : LogEntry => q e.index) hq,
      filter_eq_nil_iff.2 fun p hp => by rw [hone p hp]; exact hq]
    rfl

/-! ## The operations -/

section

variable {bootstrap : ClusterConfig} {snap : Option SnapshotMeta} {s : ℕ} {l : List LogEntry}

theorem noteAppendedConfigs_eq {es : List LogEntry} (hl : Indexed (l ++ es)) (hs : s ≤ l.length) :
    (trackerOf bootstrap snap s l).noteAppendedConfigs es =
      trackerOf bootstrap snap s (l ++ es) := by
  induction es generalizing l with
  | nil => rw [append_nil]; rfl
  | cons e es ih =>
    have hassoc : l ++ e :: es = (l ++ [e]) ++ es := by simp
    rw [hassoc] at hl ⊢
    rw [← ih hl (by rw [length_append]; exact Nat.le_add_right_of_le hs)]
    -- one entry: every configuration recorded so far is below it
    have hone : (trackerOf bootstrap snap s l).noteAppendedConfigs [e] =
        trackerOf bootstrap snap s (l ++ [e]) := by
      have hle : Indexed (l ++ [e]) := hl.of_isPrefix (List.prefix_append _ _)
      have he : e.index = l.length + 1 := hle l.length e (by simp)
      have hdrop : (l ++ [e]).drop s = l.drop s ++ [e] := drop_append_of_le_length hs
      have hkeep : (configsIn (l.drop s)).filter (fun p => decide (p.1 < e.index)) =
          configsIn (l.drop s) := by
        refine filter_eq_self.2 fun p hp => ?_
        obtain ⟨e', he', hp', -⟩ := mem_configsIn hp
        have : e'.index ≤ l.length :=
          (hle.of_isPrefix (List.prefix_append l [e])).mem_take
            (by rw [take_length]; exact mem_of_mem_drop he')
        simp only [decide_eq_true_eq]
        omega
      cases hc : e.payload with
      | config =>
        simp only [noteAppendedConfigs, foldl_cons, foldl_nil, hc,
          onAppend, trackerOf, hkeep, hdrop, configsIn_append]
        simp [configsIn, LogEntry.config?, hc]
      | _ =>
        simp [noteAppendedConfigs, trackerOf, hdrop, configsIn, LogEntry.config?, hc]
    rw [← hone]
    rfl

theorem onTruncate_eq (hl : Indexed l) {i : ℕ} (hi : s < i) :
    (trackerOf bootstrap snap s l).onTruncate i = trackerOf bootstrap snap s (l.take (i - 1)) := by
  have hfilter : (l.drop s).filter (fun e => decide (e.index < i)) = (l.take (i - 1)).drop s := by
    rw [← hl.filter_le (s := s) (k := i - 1) (by omega)]
    refine filter_congr fun e _ => ?_
    rw [decide_eq_decide]
    omega
  simp only [trackerOf, onTruncate, configsIn_filter _ (fun j => decide (j < i)), hfilter]

theorem inLog_filter_gt (hl : Indexed l) (hk : s ≤ k) :
    (trackerOf bootstrap snap s l).inLog.filter (fun p => decide (k < p.1)) =
      configsIn (l.drop k) := by
  rw [trackerOf, configsIn_filter _ (fun j => decide (k < j)), hl.filter_gt hk]

theorem onCompact_eq (hl : Indexed l) (hk : s ≤ k)
    (hinfo : info.config = (trackerOf bootstrap snap s l).configAt k)
    (hv : info.config.voters.isEmpty = false) :
    (trackerOf bootstrap snap s l).onCompact k = trackerOf bootstrap (some info) k l := by
  rw [onCompact, inLog_filter_gt hl hk, ← hinfo]
  simp [trackerOf, baseOf, hv]

theorem onInstallSnapshot_eq (hl : Indexed l) (hk : s ≤ k) (hv : info.config.voters.isEmpty = false)
    : (trackerOf bootstrap snap s l).onInstallSnapshot info.config k false =
      trackerOf bootstrap (some info) k l := by
  simp only [onInstallSnapshot, Bool.false_eq_true, if_false, inLog_filter_gt hl hk]
  simp [trackerOf, baseOf, hv]

theorem onInstallSnapshot_wiped {t : ConfigTracker} (hv : info.config.voters.isEmpty = false)
    {m : List LogEntry} (hm : m.length = k) :
    t.onInstallSnapshot info.config k true = trackerOf bootstrap (some info) k m := by
  simp [onInstallSnapshot, trackerOf, baseOf, hv, drop_of_length_le hm.le, configsIn]

/-- **Recovery rebuilds the tracker.** -/
theorem recover_eq {db : Db} (h : Holds l db.snapshotIndex db.log) (hl : Indexed l)
    (hs : db.snapshotIndex ≤ l.length) :
    recover bootstrap db = trackerOf bootstrap db.snapshotMeta db.snapshotIndex l := by
  have hstart : fromSnapshot bootstrap db.snapshotMeta =
      trackerOf bootstrap db.snapshotMeta db.snapshotIndex (l.take db.snapshotIndex) := by
    have hnil : (l.take db.snapshotIndex).drop db.snapshotIndex = [] :=
      drop_of_length_le (by rw [length_take]; omega)
    rw [trackerOf, hnil]
    unfold Db.snapshotMeta Db.snapshotIndex
    cases db.snapshot with
    | none => rfl
    | some =>
      simp only [Option.map_some, baseOf, fromSnapshot]
      split <;> rfl
  have hfull : l.take db.snapshotIndex ++ l.drop db.snapshotIndex = l := take_append_drop _ _
  have hnote : (trackerOf bootstrap db.snapshotMeta db.snapshotIndex
      (l.take db.snapshotIndex)).noteAppendedConfigs (l.drop db.snapshotIndex) =
      trackerOf bootstrap db.snapshotMeta db.snapshotIndex l := by
    rw [noteAppendedConfigs_eq (by rwa [hfull]) (by rw [length_take]; omega), hfull]
  simp only [recover, hstart]
  have hfirst : db.firstIndex = if l.drop db.snapshotIndex = [] then 0
      else db.snapshotIndex + 1 := by
    rw [Db.firstIndex, h.toList_eq hl, head?_map]
    cases hd : l.drop db.snapshotIndex with
    | nil => rfl
    | cons e =>
      have he : l[db.snapshotIndex]? = some e := by
        have := congrArg head? hd
        rwa [head?_drop, head?_cons] at this
      simpa using hl _ e he
  by_cases hnil : l.drop db.snapshotIndex = []
  · rw [hfirst, if_pos hnil, if_neg (by simp), ← hnote, hnil]
    rfl
  · rw [hfirst, if_neg hnil, if_pos (by omega), Db.entriesFrom_all h hl le_rfl]
    exact hnote

end

/-! ## What the tracker says about the log -/

section

variable {voters : OrdSet NodeId} {bootstrap : ClusterConfig} {snap : Option SnapshotMeta} {s : ℕ}
  {l : List LogEntry}

theorem confs_eq_configsIn (l : List LogEntry) :
    (rules voters).confs l = (configsIn l).map (fun p => p.2.electorate) := by
  rw [Rules.confs, configsIn, map_filterMap]
  refine filterMap_congr fun e _ => ?_
  simp [rules, LogEntry.electorate?, Function.comp_def]

/-- **The configuration in force is that of the whole log.** -/
theorem active_electorate
    (hb : (baseOf bootstrap snap).electorate = (rules voters).active (l.take s)) :
    (trackerOf bootstrap snap s l).active.electorate = (rules voters).active l := by
  have hsplit : (rules voters).confs l =
      (rules voters).confs (l.take s) ++ (rules voters).confs (l.drop s) := by
    conv_lhs => rw [← take_append_drop s l]
    exact filterMap_append
  rw [Rules.active, hsplit, confs_eq_configsIn (l.drop s)]
  simp only [active, trackerOf]
  rcases eq_nil_or_concat (configsIn (l.drop s)) with hnil | ⟨r, p, hr⟩
  · rw [hnil]
    simpa [Rules.active] using hb
  · rw [hr, concat_eq_append, getLast?_concat, map_append, map_singleton,
      ← append_assoc, getLastD_concat]

theorem configAt_eq (hl : Indexed l) (hk : s ≤ k) :
    (trackerOf bootstrap snap s l).configAt k = (trackerOf bootstrap snap s (l.take k)).active := by
  have hfind : (trackerOf bootstrap snap s l).inLog.reverse.find? (fun p => decide (p.1 ≤ k)) =
      (trackerOf bootstrap snap s (l.take k)).inLog.getLast? := by
    rw [← head?_filter, filter_reverse, head?_reverse]
    simp only [trackerOf]
    rw [configsIn_filter _ (fun j => decide (j ≤ k))]
    rw [hl.filter_le hk]
  rw [configAt, hfind]
  rfl

theorem latestIndex_le_iff (hl : Indexed l) (hs : s ≤ l.length) {c : ℕ} (hc : s ≤ c) :
    (trackerOf bootstrap snap s l).latestIndex ≤ c ↔ ((rules voters).trim l).length ≤ c := by
  induction l using reverseRecOn with
  | nil =>
    simp only [latestIndex, trackerOf, drop_nil]
    exact iff_of_true hc (Nat.zero_le c)
  | append_singleton p e ih =>
    rcases Nat.lt_or_ge p.length s with hlt | hge
    · -- the snapshot covers the whole log
      have hlen : (p ++ [e]).length = s := by
        rw [length_append, length_singleton] at hs ⊢
        omega
      have h0 : configsIn ((p ++ [e]).drop s) = [] := by
        rw [drop_of_length_le hlen.le]
        rfl
      simp only [latestIndex, trackerOf, h0]
      refine iff_of_true hc (le_trans ((rules voters).trim_isPrefix _).length_le ?_)
      exact hlen.le.trans hc
    · have he : e.index = p.length + 1 := hl p.length e (by simp)
      have hdrop : configsIn ((p ++ [e]).drop s) = configsIn (p.drop s) ++ configsIn [e] := by
        rw [drop_append_of_le_length hge, configsIn_append]
      cases hconf : e.config? with
      | none =>
        have hnone : (rules voters).conf e = none := by simp [rules, LogEntry.electorate?, hconf]
        have h0 : configsIn [e] = [] := by simp [configsIn, hconf]
        rw [(rules voters).trim_concat_none hnone,
          ← ih (hl.of_isPrefix (List.prefix_append p [e])) hge]
        simp only [latestIndex, trackerOf, hdrop, h0, append_nil]
      | some d =>
        have hsome : (rules voters).conf e = some d.electorate := by
          simp [rules, LogEntry.electorate?, hconf]
        have h0 : configsIn [e] = [(e.index, d)] := by simp [configsIn, hconf]
        rw [(rules voters).trim_concat_some hsome]
        simp only [latestIndex, trackerOf, hdrop, h0, getLast?_concat]
        rw [length_append, length_singleton, he]

end

end Brokkr.Raft
