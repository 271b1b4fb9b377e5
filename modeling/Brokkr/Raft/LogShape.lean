import Brokkr.Raft.Membership

/-!
# What a node has on disk

The store takes any entries at any indices, and a call that replaces a part of the log
does so in several transactions.  That the log on disk is one run of entries above the
snapshot, at every moment a crash can expose, is a fact about the messages that reach
the node; and so it is that the node's memory of the configurations is what it would
rebuild from the disk.

* `Db.Shaped` — the shape of a log: one interval of indices, terms in order.
* `Dur.shaped` — a database that refines a log of the protocol has it.
* `NodeRel.configs_eq_recover` — the tracker is the one recovery rebuilds.
-/

namespace Brokkr.Raft

open Consensus List

/-! ## The shape of a log -/

/-- The log is one run of entries above the snapshot, each at its own index, whose terms
never decrease, from that of the snapshot to the current one. -/
structure Db.Shaped (db : Db) : Prop where
  interval : ∃ length, db.log.toList.map Prod.fst = range' (db.snapshotIndex + 1) length
  /-- Each entry is stored under its own index. -/
  index : ∀ {i e}, db.get i = some e → e.index = i
  /-- Terms never decrease with the index. -/
  ordered : ∀ {i j e f}, i ≤ j → db.get i = some e → db.get j = some f → e.term ≤ f.term
  /-- No term is below that of the snapshot. -/
  snapshot_le : ∀ {info data}, db.snapshot = some (info, data) →
    ∀ {i e}, db.get i = some e → info.lastIncludedTerm ≤ e.term
  /-- No term of an entry is above the current one. -/
  term_le : ∀ {i e}, db.get i = some e → e.term ≤ db.hard.currentTerm
  /-- Nor is the term of the snapshot. -/
  snapshotTerm_le : ∀ {info data}, db.snapshot = some (info, data) →
    info.lastIncludedTerm ≤ db.hard.currentTerm

section

variable {voters : OrdSet NodeId} {a : AState} {id : NodeId} {cov : ℕ → List LogEntry} {db : Db}
  {l : List LogEntry}

theorem Indexed.map_index_drop (h : Indexed l) (s : ℕ) :
    (l.drop s).map LogEntry.index = range' (s + 1) (l.length - s) := by
  apply ext_getElem?
  intro j
  rw [getElem?_map, getElem?_drop]
  rcases Nat.lt_or_ge j (l.length - s) with hj | hj
  · have hlt : s + j < l.length := by omega
    rw [getElem?_range' hj, getElem?_eq_getElem hlt, Option.map_some,
      h _ _ (getElem?_eq_getElem hlt)]
    congr 1
    omega
  · rw [List.getElem?_eq_none (by omega), List.getElem?_eq_none (by simpa using hj)]
    rfl

theorem Holds.of_get {s i : ℕ} {t : OrdMap ℕ LogEntry} (h : Holds l s t) {e : LogEntry}
    (he : t.get? i = some e) : s < i ∧ l[i - 1]? = some e := by
  rw [h i] at he
  split at he
  · rename_i hi
    exact ⟨hi, he⟩
  · cases he

theorem term_le_of_ordered (h : (rules voters).Ordered l) {i j : ℕ} (hij : i ≤ j)
    {e f : LogEntry} (he : l[i]? = some e) (hf : l[j]? = some f) : e.term ≤ f.term := by
  obtain ⟨hi, rfl⟩ := List.getElem?_eq_some_iff.1 he
  obtain ⟨hj, rfl⟩ := List.getElem?_eq_some_iff.1 hf
  rcases hij.lt_or_eq with hlt | rfl
  · exact pairwise_iff_getElem.1 h i j hi hj hlt
  · exact le_rfl

theorem lastTerm_take (voters : OrdSet NodeId) (l : List LogEntry) {s : ℕ} (h0 : 0 < s)
    (hs : s ≤ l.length) :
    ∃ e, l[s - 1]? = some e ∧ (rules voters).lastTerm (l.take s) = e.term := by
  obtain ⟨j, rfl⟩ : ∃ j, s = j + 1 := ⟨s - 1, by omega⟩
  have hj : j < l.length := hs
  refine ⟨l[j], getElem?_eq_getElem hj, ?_⟩
  rw [← take_concat_get' l j hj, Rules.lastTerm_concat]
  rfl

theorem Dur.shaped (h : Dur voters a id cov db) (hi : Inv (rules voters) a) : db.Shaped := by
  have hindexed := indexed_log hi id
  have hordered := (hi.log_anchored id).ordered hi.llog_ordered
  have hsl : db.snapshotIndex ≤ (a.log id).length := h.snapshot_le.trans (hi.commit_le id)
  have hget : ∀ {i e}, db.get i = some e → db.snapshotIndex < i ∧ (a.log id)[i - 1]? = some e :=
    fun he => h.holds.of_get he
  -- The snapshot stands for an entry of the log, the last one that it covers.
  have hsnap : ∀ {info data}, db.snapshot = some (info, data) → ∃ e,
      (a.log id)[db.snapshotIndex - 1]? = some e ∧ info.lastIncludedTerm = e.term := by
    intro info data hs
    have hok := h.snapshot hs
    have hindex : info.lastIncludedIndex = db.snapshotIndex := by rw [Db.snapshotIndex, hs]
    obtain ⟨e, he, hterm⟩ := lastTerm_take voters (a.log id) (hindex ▸ hok.pos) hsl
    exact ⟨e, he, by rw [hok.term, hindex, hterm]⟩
  have hbound : ∀ {i : ℕ} {e : LogEntry}, (a.log id)[i]? = some e →
      e.term ≤ db.hard.currentTerm := by
    intro i e he
    rw [h.term]
    exact hi.log_le id e (mem_of_getElem? he)
  refine ⟨⟨(a.log id).length - db.snapshotIndex, ?_⟩, ?_, ?_, ?_, ?_, ?_⟩
  · rw [h.holds.toList_eq hindexed, map_map]
    exact hindexed.map_index_drop db.snapshotIndex
  · intro i e he
    obtain ⟨hlt, hentry⟩ := hget he
    have hidx := hindexed _ e hentry
    omega
  · intro i j e f hij he hf
    exact term_le_of_ordered hordered (by omega) (hget he).2 (hget hf).2
  · intro info data hs i e he
    obtain ⟨f, hf, hterm⟩ := hsnap hs
    obtain ⟨hlt, hentry⟩ := hget he
    rw [hterm]
    exact term_le_of_ordered hordered (by omega) hf hentry
  · intro i e he
    exact hbound (hget he).2
  · intro info data hs
    obtain ⟨f, hf, hterm⟩ := hsnap hs
    rw [hterm]
    exact hbound hf

/-! ## The configurations in memory -/

theorem NodeRel.configs_eq_recover {boot : ClusterConfig} {n : RaftNode}
    (h : NodeRel voters a id boot cov n) (hi : Inv (rules voters) a) :
    n.configs = ConfigTracker.recover boot n.log.db := by
  rw [h.configs, recover_eq h.dur.holds (indexed_log hi id) (h.snapshotIndex_le hi)]

end

/-! ## Runs -/

section

variable {r : Run} {k : ℕ} {id : NodeId} {m : Member}

/-- **Log shape**: in every state of a run, and after every transaction of every call
that can be made there, the log on disk has its shape. -/
theorem log_shaped (hm : r.Has k id m) :
    m.node.log.db.Shaped ∧
      ∀ {action call origin}, (r.state k).resolve action = some (id, call, origin) →
        ∀ db ∈ (m.node.begin.run call).node.log.commits, db.Shaped := by
  obtain ⟨chain, hc⟩ := r.exists_refines
  have hmem := hc.member hm
  refine ⟨hmem.node.dur.shaped (hc.inv k), ?_⟩
  intro action call origin hresolve db hdb
  obtain ⟨a', hran, -⟩ := (hc.rel k).call (r.within_state k) hm hresolve
  obtain ⟨a₁, hsteps, hdur⟩ := hran.rel.past db hdb
  exact hdur.shaped (hsteps.inv (hc.rel k).inv)

open Sample

/-- After the sample run `b` has two entries, and would add a third to answer a
proposal. -/
theorem log_shaped_sample : ∃ m, run.Has 10 b m ∧ m.node.log.db.Shaped ∧
    (m.node.begin.run (.op (.propose [7] 0))).node.log.commits.length = 1 ∧
    ∀ db ∈ (m.node.begin.run (.op (.propose [7] 0))).node.log.commits, db.Shaped := by
  obtain ⟨m, hm, hp⟩ := run.exists_has 10 b
    (fun m => decide ((m.node.begin.run (.op (.propose [7] 0))).node.log.commits.length = 1))
    (by decide +kernel)
  have hresolve : (run.state 10).resolve (.op b (.propose [7] 0)) =
      some (b, .op (.propose [7] 0), none) := rfl
  exact ⟨m, hm, (log_shaped hm).1, of_decide_eq_true hp, (log_shaped hm).2 hresolve⟩

/-- **Configuration tracking is exact**: in every state of a run the configurations in
memory are those that a restart would rebuild from the disk. -/
theorem configs_as_rebuilt (hm : r.Has k id m) (rng : Rng) (config : Config) (now : Instant) :
    let rebuilt :=
      (RaftNode.withBootstrap id m.bootstrap { db := m.node.log.db } rng config now).configs
    m.node.configs.active = rebuilt.active ∧ m.node.configs.latestIndex = rebuilt.latestIndex ∧
      ∀ j, m.node.configs.configAt j = rebuilt.configAt j := by
  obtain ⟨chain, hc⟩ := r.exists_refines
  have heq : m.node.configs =
      (RaftNode.withBootstrap id m.bootstrap { db := m.node.log.db } rng config now).configs :=
    (hc.member hm).node.configs_eq_recover (hc.inv k)
  rw [← heq]
  exact ⟨rfl, rfl, fun _ => rfl⟩

/-- In the middle of a change of voters, `a` remembers the joint configuration. -/
theorem configs_as_rebuilt_sample : ∃ m, changeRun.Has 7 Sample.a m ∧
    m.node.configs.active.isJoint = true ∧
    m.node.configs.active = (RaftNode.withBootstrap Sample.a m.bootstrap
      { db := m.node.log.db } (.seedFromU64 0) {} 0).configs.active := by
  obtain ⟨m, hm, hp⟩ := changeRun.exists_has 7 Sample.a
    (fun m => m.node.configs.active.isJoint) (by decide +kernel)
  exact ⟨m, hm, hp, (configs_as_rebuilt hm (.seedFromU64 0) {} 0).1⟩

end

end Brokkr.Raft
