import Brokkr.Raft.Refine.Sending

/-!
# Appending and committing as leader

A leader appends entries of its own term (`Rel.appendEntry`) and commits what a
quorum holds (`Rel.commitTo`).  A committed joint configuration is followed at
once by the final one, whose append is itself subject to the commit rule.

* `findCommit_spec` — the scan finds the largest index that can be committed.
* `Rel.advanceCommitIndex` — the commit rule with all its consequences; after it
  nothing more can be committed (`Settled`).
* `Room` — the only case in which the commit rule appends is one where the log
  index cannot overflow.
-/

namespace Brokkr.Raft

open RaftNode

open Consensus List

variable {voters : OrdSet NodeId} {a₀ a a' : AState} {id : NodeId} {boot : ClusterConfig}
  {cov : ℕ → List LogEntry} {n n' : RaftNode} {s : ℕ} {state : LeaderState}

/-! ## Appending -/

theorem Leading.append (h : Leading a id s state) (e : LogEntry) :
    Leading ((a.extend id e).ack id ((a.log id).length + 1)) id s state := by
  have hlog : ((a.extend id e).ack id ((a.log id).length + 1)).log id = a.log id ++ [e] := by
    simp [State.extend, State.ack]
  have hacked : ∀ p, a.acked p (a.term id) ≤
      ((a.extend id e).ack id ((a.log id).length + 1)).acked p (a.term id) :=
    fun p => State.acked_le_ack (s := a.extend id e) _ p _
  refine ⟨h.elected, ?_, ?_, ?_, h.committed, h.start⟩
  · simp [State.extend, State.ack]
  · intro p i hp
    rw [hlog, length_append]
    have := h.next hp
    omega
  · intro p i hp
    exact (h.matched hp).trans (max_le_max (hacked p) le_rfl)

variable (h : Rel voters a₀ a id boot cov n)

include h

/-- **Appending an entry as leader.** -/
theorem Rel.appendEntry (hr : n.role = .leader state)
    {e : LogEntry} (ht : e.term = n.hard.currentTerm) (hi : e.index = (a.log id).length + 1)
    (hc : ∀ c, e.electorate? = some c → Follows ((rules voters).active (a.log id)) c ∧
      ((rules voters).trim (a.log id)).length ≤ a.commit id) :
    ∃ a', Rel voters a₀ a' id boot cov { n with
        log := n.log.append e, configs := n.configs.noteAppendedConfigs [e] } ∧
      a'.log id = a.log id ++ [e] := by
  have hl := h.leading hr
  have hterm : e.term = a.term id := ht.trans h.currentTerm
  have hne : a.leader (a.term id) ≠ none := by simp [hl.elected]
  -- append, then acknowledge one's own entry
  have h1 : Step (rules voters) id a (a.extend id e) :=
    Step.extend e hl.elected hterm ⟨hi, fun c hcc => (hc c hcc).1⟩ fun hconf => by
      obtain ⟨c, hcc⟩ := Option.ne_none_iff_exists'.1 hconf
      exact (hc c hcc).2
  have hlog' : (a.extend id e).log id = a.log id ++ [e] := by simp [State.extend]
  have hllog' : (a.extend id e).llog (a.term id) = a.log id ++ [e] := by simp [State.extend]
  have hlen : (a.log id ++ [e]).length = (a.log id).length + 1 := by simp
  have h2 : Step (rules voters) id (a.extend id e)
      ((a.extend id e).ack id ((a.log id).length + 1)) := by
    refine Step.ack _ hne ?_ ?_
    · show _ ≤ ((a.extend id e).llog (a.term id)).length
      rw [hllog', hlen]
    · show ((a.extend id e).llog (a.term id)).take _ <+: _
      rw [hllog', hlog', ← hlen, take_length]
  have hsteps := (Relation.ReflTransGen.single h1).tail h2
  have hinv := Steps.inv h.inv hsteps
  have hidx : Indexed (a.log id ++ [e]) := by
    have := indexed_log hinv id
    rwa [show ((a.extend id e).ack id ((a.log id).length + 1)).log id = a.log id ++ [e]
      from hlog'] at this
  have hs := h.snapshotIndex_le h.inv
  have htake : (a.log id ++ [e]).take n.log.db.snapshotIndex =
      (a.log id).take n.log.db.snapshotIndex := take_append_of_le_length hs
  refine ⟨_, h.next hsteps ?_ (Or.inr rfl), hlog'⟩
  exact
    { h.toNodeRel with
      dur :=
        { h.dur with
          holds := by
            show Holds ((a.extend id e).log id) _ _
            rw [hlog']
            exact h.dur.holds.insertAll hidx hs
          covered := by
            show _ = ((a.extend id e).log id).take _
            rw [hlog']
            exact h.dur.covered.trans htake.symm
          snapshot := by
            intro info data hinfo
            show SnapshotOk voters ((a.extend id e).log id) info
            rw [hlog']
            exact h.dur.snapshotOk_of_take hinfo htake }
      configs := by
        show n.configs.noteAppendedConfigs [e] =
          trackerOf boot n.log.db.snapshotMeta n.log.db.snapshotIndex ((a.extend id e).log id)
        rw [hlog', h.configs]
        exact noteAppendedConfigs_eq hidx hs
      role := by
        rw [hr]
        exact hl.append e }

theorem Rel.refreshLeaderState :
    Rel voters a₀ a id boot cov n.refreshLeaderState ∧ n.refreshLeaderState.log = n.log := by
  unfold RaftNode.refreshLeaderState
  cases hr : n.role with
  | leader =>
    have hl := h.leading hr
    refine ⟨h.setRole ⟨hl.elected, hl.acked, ?_, ?_, hl.committed, hl.start⟩, rfl⟩
    · intro p i hp
      rcases OrdMap.get?_foldl_orInsert hp with hp | rfl
      · rw [OrdMap.get?_filter] at hp
        exact hl.next (Option.filter_eq_some_iff.1 hp).1
      · rw [h.lastLogIndex h.inv]
        exact ⟨saturatingSucc_pos _, saturatingSucc_le _⟩
    · intro p i hp
      rcases refreshed_match hp with hp | rfl
      · exact hl.matched hp
      · exact Nat.zero_le _
  | _ => exact ⟨h, rfl⟩

/-- **Appending a configuration entry.** -/
theorem Rel.appendConfig (hr : n.role = .leader state)
    {c : ClusterConfig} (hf : Follows ((rules voters).active (a.log id)) c.electorate)
    (hlatest : n.configs.latestIndex ≤ n.commitIndex) (hroom : n.lastLogIndex < u64Max) :
    ∃ a', Rel voters a₀ a' id boot cov (n.appendConfig c) ∧ (n.appendConfig c).configs.active = c ∧
      (n.appendConfig c).log.db.snapshotIndex = n.log.db.snapshotIndex ∧
      ∃ e, a'.log id = a.log id ++ [e] := by
  have hnext : LogIndex.next n.lastLogIndex = (a.log id).length + 1 := by
    rw [LogIndex.next, saturatingSucc_of_lt hroom, h.lastLogIndex h.inv]
  obtain ⟨a', h', hlog⟩ := h.appendEntry hr
    (e := LogEntry.withPayload n.hard.currentTerm (LogIndex.next n.lastLogIndex) (.config c))
    rfl hnext (by
      rintro _ ⟨⟩
      exact ⟨hf, (h.latestIndex_le_iff h.inv).1 hlatest⟩)
  obtain ⟨h1, h2⟩ := h'.refreshLeaderState
  refine ⟨a', h1, n.active_appendConfig c, ?_, _, hlog⟩
  exact congrArg (fun l => l.db.snapshotIndex) h2

/-! ## The commit rule -/

omit h

/-- **The scan finds the largest index that can be committed.** -/
theorem findCommit_spec (n : RaftNode) (state : LeaderState) (i : ℕ) :
    (n.findCommit state i = n.commitIndex ∨
      (n.commitIndex < n.findCommit state i ∧ n.findCommit state i ≤ i ∧
        n.canCommit state (n.findCommit state i) = true)) ∧
    ∀ j, n.findCommit state i < j → n.commitIndex < j → j ≤ i → n.canCommit state j = false := by
  induction i with
  | zero => exact ⟨Or.inl rfl, fun j _ h1 h2 => absurd h1 (by omega)⟩
  | succ i ih =>
    rw [findCommit]
    split
    · rename_i hlt
      split
      · rename_i hcan
        exact ⟨Or.inr ⟨hlt, le_rfl, hcan⟩, fun j h1 _ h2 => absurd h1 (by omega)⟩
      rename_i hcan
      refine ⟨ih.1.imp_right fun ⟨h1, h2, h3⟩ => ⟨h1, by omega, h3⟩, fun j h1 h2 h3 => ?_⟩
      rcases Nat.lt_or_ge i j with hij | hij
      · obtain rfl : j = i + 1 := by omega
        simpa using hcan
      · exact ih.2 j h1 h2 hij
    · exact ⟨Or.inl rfl, fun j _ h1 h2 => absurd h1 (by omega)⟩

theorem Rel.acked_of_commitAcks (h : Rel voters a₀ a id boot cov n) (hr : n.role = .leader state)
    {k : ℕ} (hk : n.commitIndex < k) (hkl : k ≤ n.lastLogIndex) :
    ∀ v ∈ n.commitAcks state k, k ≤ a.acked v (a.term id) := by
  have hl := h.leading hr
  intro v hv
  rw [commitAcks, OrdSet.mem_insert, OrdSet.mem_ofList] at hv
  rcases hv with rfl | hv
  · rw [h.lastLogIndex h.inv] at hkl
    rw [h.name]
    exact hkl.trans hl.acked
  obtain ⟨⟨p, i⟩, hp, rfl⟩ := mem_map.1 hv
  rw [mem_filter, decide_eq_true_eq] at hp
  have hm := hl.matched (OrdMap.get?_eq_some.2 hp.1)
  have hs := h.dur.snapshot_le
  rw [← h.commit] at hs
  show k ≤ a.acked p (a.term id)
  omega

/-- **Committing an index.** -/
theorem Rel.commitTo (h : Rel voters a₀ a id boot cov n) (hr : n.role = .leader state) {k : ℕ}
    (hk : n.commitIndex < k) (hkl : k ≤ n.lastLogIndex) (hc : n.canCommit state k = true) :
    ∃ a', Rel voters a₀ a' id boot cov { n with commitIndex := k } := by
  have hl := h.leading hr
  have hlen := h.lastLogIndex h.inv
  have hs := h.dur.snapshot_le
  rw [← h.commit] at hs
  rw [canCommit, Bool.and_eq_true, decide_eq_true_eq] at hc
  obtain ⟨j, rfl⟩ : ∃ j, k = j + 1 := ⟨k - 1, by omega⟩
  have hj : j < (a.log id).length := by omega
  have hpe : (a.log id).take j ++ [(a.log id)[j]] <+: a.log id := by
    rw [take_concat_get']
    exact List.take_prefix _ _
  have hplen : ((a.log id).take j ++ [(a.log id)[j]]).length = j + 1 := by
    rw [length_append, length_take, Nat.min_eq_left hj.le]
    rfl
  have hterm : ((a.log id)[j]).term = a.term id := by
    have := hc.2
    rw [h.get_eq (by omega), Nat.add_sub_cancel, getElem?_eq_getElem hj] at this
    rw [← h.currentTerm]
    exact this
  have hq : IsQuorum ((rules voters).active (a.log id)) {v | j + 1 ≤ a.acked v (a.term id)} :=
    ⟨n.commitAcks state (j + 1), h.acked_of_commitAcks hr hk hkl,
      by rw [← h.hasQuorum_eq]; exact hc.1⟩
  have hstep := Step.commit (R := rules voters) (n := id) _ _ hl.elected hpe hterm
    (by rw [hplen, ← h.commit]; exact hk.le) (by rw [hplen]; exact hq)
  rw [hplen] at hstep
  refine ⟨_, h.next (Relation.ReflTransGen.single hstep) ?_ (Or.inl rfl)⟩
  have hcommit : ((a.markCommitted id (j + 1)).setCommit id (j + 1)).commit id = j + 1 := by
    simp [State.setCommit]
  exact
    { h.toNodeRel with
      dur :=
        { h.dur with
          snapshot_le := by
            rw [hcommit]
            exact hs.trans hk.le }
      commit := hcommit.symm
      role := by
        rw [hr]
        refine ⟨hl.elected, hl.acked, hl.next, hl.matched, ?_, hl.start⟩
        rw [hcommit]
        rintro i (hi | ⟨-, rfl⟩)
        · have := hl.committed hi
          rw [← h.commit] at this
          omega
        · exact le_rfl }

/-! ## Reactions to a commit -/

theorem Electorate.isJoint_iff (c : ClusterConfig) :
    c.isJoint = true ↔ ∃ old, c.electorate.oldVoters = some old := by
  rw [ClusterConfig.isJoint, Option.isSome_iff_exists]
  rfl

theorem follows_final {c : ClusterConfig} (h : c.isJoint = true) (l : OrdSet NodeId) :
    Follows c.electorate
      ({ voters := c.voters, oldVoters := none, learners := l } : ClusterConfig).electorate := by
  obtain ⟨old, hold⟩ := (Electorate.isJoint_iff c).1 h
  have : c.electorate = ⟨c.voters, some old⟩ := by
    rw [ClusterConfig.electorate, ← hold]
    rfl
  rw [this]
  exact Follows.final old c.voters

variable (h : Rel voters a₀ a id boot cov n)

include h

theorem Rel.afterCommitConfigActions (hs : Settled n)
    {advance : RaftNode → Outcome} (hroom : n.configs.active.isJoint = true →
      n.lastLogIndex < u64Max)
    (hadv : n.configs.active.isJoint = true → ∀ a n', Rel voters a₀ a id boot cov n' →
      n'.configs.active.isJoint = false → n'.log.db.snapshotIndex = n.log.db.snapshotIndex →
      ∃ a', Ends voters a₀ a' id boot cov n.log.db.snapshotIndex (advance n')) (now : Instant) :
    ∃ a', Ends voters a₀ a' id boot cov n.log.db.snapshotIndex
      (RaftNode.afterCommitConfigActions advance n now) := by
  unfold RaftNode.afterCommitConfigActions
  cases hr : n.role with
  | leader =>
    rw [if_neg (by simp [isLeader, hr])]
    by_cases hlatest : n.commitIndex < n.configs.latestIndex
    · rw [if_pos hlatest]
      exact ⟨a, Ends.quiet h hs⟩
    rw [if_neg hlatest]
    by_cases hj : n.configs.active.isJoint = true
    · rw [if_pos hj]
      have hf := follows_final hj n.configs.active.learners
      rw [h.active_electorate] at hf
      obtain ⟨a₁, h₁, hact, hsnap, -⟩ := h.appendConfig hr hf (Nat.not_lt.1 hlatest) (hroom hj)
      obtain ⟨a₂, h₂⟩ := hadv hj a₁ _ h₁ (by rw [hact]; rfl) hsnap
      exact ⟨a₂, h₂.extend fun n' hn' hs' => hn'.replicateAll hs'⟩
    rw [if_neg hj]
    split
    · obtain ⟨results, hres⟩ := n.stepDownToFollower_eq
      rw [hres]
      refine ⟨a, h.volatile rfl rfl rfl rfl rfl rfl trivial, Settled.of_role ?_, rfl,
        [], rfl, forall_mem_nil _⟩
      simp [RaftNode.armElectionTimer]
    · exact ⟨a, Ends.quiet h hs⟩
  | _ =>
    rw [if_pos (by simp [isLeader, hr])]
    exact ⟨a, Ends.quiet h hs⟩

/-- There is room for the final configuration, should a joint one be committed
now. -/
def Room (n : RaftNode) : Prop :=
  n.configs.active.isJoint = true → n.lastLogIndex < u64Max ∨ Settled n

theorem Rel.advanceWith (hroom : Room n) (calls : ℕ)
    (hadv : n.configs.active.isJoint = true → ∀ a n' now, Rel voters a₀ a id boot cov n' →
      n'.configs.active.isJoint = false → n'.log.db.snapshotIndex = n.log.db.snapshotIndex →
      ∃ a', Ends voters a₀ a' id boot cov n.log.db.snapshotIndex
        (advanceCommitIndexIn calls n' now)) (now : Instant) :
    ∃ a', Ends voters a₀ a' id boot cov n.log.db.snapshotIndex
      (advanceCommitIndexIn (calls + 1) n now) := by
  rw [advanceCommitIndexIn]
  cases hr : n.role with
  | leader state =>
    obtain ⟨hfound, hmax⟩ := findCommit_spec n state n.lastLogIndex
    simp only
    split
    · refine ⟨a, Ends.quiet h ?_⟩
      intro state' hr' i hi hl
      rw [hr] at hr'
      cases hr'
      exact hmax i (by omega) hi hl
    rename_i hmoved
    obtain ⟨hlt, hle, hcan⟩ := hfound.resolve_left hmoved
    obtain ⟨a₁, h₁⟩ := h.commitTo hr hlt hle hcan
    have hs₁ : Settled { n with commitIndex := n.findCommit state n.lastLogIndex } := by
      intro state' hr' i hi hl
      rw [show _ = n.role from rfl, hr] at hr'
      cases hr'
      exact hmax i hi (hlt.trans hi) hl
    rw [← hr]
    refine h₁.afterCommitConfigActions hs₁ (fun hj => ?_)
      (fun hj a n' => hadv hj a n' now) now
    rcases hroom hj with hroom | hset
    · exact hroom
    · exact absurd (hset state hr _ hlt hle) (by simp [hcan])
  | _ => exact ⟨a, Ends.quiet h (Settled.of_role (by simp [hr]))⟩

/-- **The commit rule.**  After it nothing more can be committed. -/
theorem Rel.advanceCommitIndex (hroom : Room n)
    (now : Instant) :
    ∃ a', Ends voters a₀ a' id boot cov n.log.db.snapshotIndex (n.advanceCommitIndex now) := by
  refine h.advanceWith hroom 1 (fun _ a₁ n₁ now h₁ hj hsnap => ?_) now
  -- the final configuration is not joint, so there is no third call
  rw [← hsnap]
  exact h₁.advanceWith (fun hj' => absurd hj' (by simp [hj])) 0
    (fun hj' => absurd hj' (by simp [hj])) now

end Brokkr.Raft
