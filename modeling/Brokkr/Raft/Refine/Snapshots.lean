import Brokkr.Raft.Refine.Following

/-!
# Snapshots

A snapshot stands for a committed prefix of the log, wherever it comes from: a
compaction of the node's own log, or a leader.  Neither loses anything but
committed entries, and those are the ones the snapshot covers.

* `Rel.handleInstallSnapshot` — an installed snapshot; the log beyond it survives
  if it holds the snapshot's last entry.
* `Rel.compact` — a compaction.
-/

namespace Brokkr.Raft

open Consensus List

variable {info : SnapshotMeta} {covered : List LogEntry}

variable {voters : OrdSet NodeId} {a₀ a a' : AState} {id : NodeId} {boot : ClusterConfig}
  {cov : ℕ → List LogEntry} {n m : RaftNode} {s : ℕ}

variable (h : Rel voters a₀ a id boot cov n)

include h

/-- **Writing a snapshot** of a committed prefix, in one transaction. -/
theorem Rel.writeSnapshot
    (hsteps : Steps (rules voters) id a a') (hterm : a'.term id = a.term id)
    (hvote : a'.vote id = a.vote id) {data : Bytes} {table : OrdMap ℕ LogEntry}
    (hholds : Holds (a'.log id) info.lastIncludedIndex table)
    (hle : info.lastIncludedIndex ≤ a'.commit id)
    (hcov : cov info.lastIncludedIndex = (a'.log id).take info.lastIncludedIndex)
    (hok : SnapshotOk voters (a'.log id) info) {configs : ConfigTracker}
    (hconf : configs = trackerOf boot (some info) info.lastIncludedIndex (a'.log id)) {c : ℕ}
    (hc : c = a'.commit id) (hrole : RoleOk a' id info.lastIncludedIndex n.role) :
    Rel voters a₀ a' id boot cov { n with
      log := n.log.commit { n.log.db with snapshot := some (info, data), log := table }
      configs := configs
      commitIndex := c
      snapshot := some info } := by
  refine h.next hsteps ?_ (Or.inr rfl)
  exact
    { h.toNodeRel with
      dur :=
        { term := h.dur.term.trans hterm.symm
          vote := by
            rw [hterm, hvote]
            exact h.dur.vote
          holds := hholds
          snapshot_le := hle
          covered := hcov
          snapshot := by
            rintro _ _ ⟨⟩
            exact hok }
      snapshot := rfl
      configs := hconf
      commit := hc
      role := hrole }

/-! ## Installing -/

theorem Rel.basis_matches (hp : covered <+: a.llog (a.term id))
    (hlen : covered.length = info.lastIncludedIndex) (hok : SnapshotOk voters covered info)
    (hs : n.log.db.snapshotIndex < info.lastIncludedIndex)
    (hb : (n.log.db.get info.lastIncludedIndex).map LogEntry.term = some info.lastIncludedTerm) :
    info.lastIncludedIndex ≤ (a.log id).length ∧
      (a.log id).take info.lastIncludedIndex = covered := by
  rw [h.get_eq hs] at hb
  obtain ⟨e, he, hterm⟩ := Option.map_eq_some_iff.1 hb
  obtain ⟨hlt, -⟩ := List.getElem?_eq_some_iff.1 he
  have h0 := hok.pos
  have hle : info.lastIncludedIndex ≤ (a.log id).length := by omega
  have hcov : covered.take info.lastIncludedIndex = covered := by rw [← hlen, take_length]
  have hlast : (rules voters).lastTerm ((a.log id).take info.lastIncludedIndex) = e.term := by
    obtain ⟨j, hj⟩ : ∃ j, info.lastIncludedIndex = j + 1 := ⟨info.lastIncludedIndex - 1, by omega⟩
    rw [hj] at he ⊢
    rw [take_add_one, show (a.log id)[j]? = some e from he]
    exact Rules.lastTerm_concat _ _ _
  refine ⟨hle, ?_⟩
  have := take_eq_of_term (h.inv.log_anchored id) ((h.inv.llog_anchored _).of_isPrefix hp) h0 hle
    hlen.ge (by rw [hlast, hterm]; exact hok.term)
  rw [this, hcov]

/-- **Adopting a leader's snapshot** that reaches beyond the commit index. -/
theorem Rel.adoptSnapshot (hr : n.role = .follower)
    (hl : a.leader (a.term id) ≠ none) (hp : covered <+: a.llog (a.term id))
    (hlen : covered.length = info.lastIncludedIndex) (hok : SnapshotOk voters covered info)
    (hcom : a.CommittedPrefix (a.term id) covered) (hnew : n.commitIndex < info.lastIncludedIndex)
    (hcov : cov info.lastIncludedIndex = covered) (data : Bytes) :
    ∃ a', Rel voters a₀ a' id boot cov (n.adoptSnapshot info data) ∧ Grows a a' := by
  have hs : n.log.db.snapshotIndex < info.lastIncludedIndex := by
    have := h.dur.snapshot_le
    rw [← h.commit] at this
    omega
  have hfull : covered.take info.lastIncludedIndex = covered := by rw [← hlen, take_length]
  have hc := h.commit
  by_cases hb : (n.log.db.get info.lastIncludedIndex).map LogEntry.term = some info.lastIncludedTerm
  · -- the log beyond the snapshot survives
    obtain ⟨hle, htake⟩ := h.basis_matches hp hlen hok hs hb
    have hstep : Step (rules voters) id a (a.setCommit id info.lastIncludedIndex) :=
      Step.learn _ (by omega) hle (by rw [htake]; exact hcom)
    have hok' : SnapshotOk voters (a.log id) info := by
      refine ⟨hok.pos, ?_, ?_, hok.known⟩
      · rw [htake, ← hfull]
        exact hok.term
      · rw [htake, ← hfull]
        exact hok.config
    have hcommit : (a.setCommit id info.lastIncludedIndex).commit id =
        info.lastIncludedIndex := by simp [State.setCommit]
    refine ⟨a.setCommit id info.lastIncludedIndex, ?_, Grows.setCommit _⟩
    rw [RaftNode.adoptSnapshot, decide_eq_true hb]
    refine h.writeSnapshot (Relation.ReflTransGen.single hstep) rfl rfl
      (h.dur.holds.compact hs.le) hcommit.ge ?_ hok' ?_ hcommit.symm (by rw [hr]; trivial)
    · rw [hcov]
      exact htake.symm
    · rw [h.configs]
      exact onInstallSnapshot_eq (indexed_log h.inv id) hs.le hok.known
  · -- the log holds something else, or nothing, at the snapshot's last index
    have hshort : ∀ p, p <+: a.log id → p <+: a.llog (a.term id) → p <+: covered := by
      intro p hp1 hp2
      refine List.prefix_of_prefix_length_le hp2 hp ?_
      by_contra hlt
      refine hb ?_
      obtain ⟨j, hj⟩ : ∃ j, info.lastIncludedIndex = j + 1 :=
        ⟨info.lastIncludedIndex - 1, by omega⟩
      have hcp : covered <+: p := List.prefix_of_prefix_length_le hp hp2 (by omega)
      have hget : (a.log id)[j]? = covered[j]? := by
        obtain ⟨r, hr'⟩ := hcp.trans hp1
        rw [← hr', getElem?_append_left (by omega)]
      have hterm := hok.term
      rw [h.get_eq hs, hj, Nat.add_sub_cancel, hget, hterm, hfull]
      have hcat := (take_concat_get' covered j (by omega)).trans
        (take_of_length_le (by omega))
      conv_rhs => rw [← hcat, Rules.lastTerm_concat]
      rw [getElem?_eq_getElem (by omega)]
      rfl
    have h1 : Step (rules voters) id a (a.setLog id covered) := Step.adopt _ hl hp hshort
    have hlog : (a.setLog id covered).log id = covered := by simp [State.setLog]
    have h2 : Step (rules voters) id (a.setLog id covered)
        ((a.setLog id covered).setCommit id info.lastIncludedIndex) := by
      refine Step.learn _ (le_of_lt ?_) (by rw [hlog, hlen]) ?_
      · rw [hc] at hnew
        exact hnew
      · rw [hlog, hfull]
        exact hcom.of_grows (Grows.setLog covered)
    have hcommit : ((a.setLog id covered).setCommit id info.lastIncludedIndex).commit id =
        info.lastIncludedIndex := by simp [State.setCommit]
    have hlog' : ((a.setLog id covered).setCommit id info.lastIncludedIndex).log id = covered :=
      hlog
    refine ⟨(a.setLog id covered).setCommit id info.lastIncludedIndex, ?_,
      (Grows.setLog covered).trans (Grows.setCommit _)⟩
    rw [RaftNode.adoptSnapshot, decide_eq_false hb]
    refine h.writeSnapshot ((Relation.ReflTransGen.single h1).tail h2) rfl rfl ?_ hcommit.ge ?_
      ?_ ?_ hcommit.symm (by rw [hr]; trivial)
    · rw [hlog', ← hlen]
      exact Holds.wiped
    · rw [hlog', hfull]
      exact hcov
    · rw [hlog']
      exact hok
    · rw [hlog']
      exact onInstallSnapshot_wiped hok.known hlen

theorem Rel.acknowledge_committed (hr : n.role = .follower) (hl : a.leader (a.term id) ≠ none)
    {k : ℕ} (hk : k ≤ (a.llog (a.term id)).length) (hc : k ≤ n.commitIndex) :
    ∃ a', Rel voters a₀ a' id boot cov n ∧ k ≤ a'.acked id (a.term id) := by
  rw [h.commit] at hc
  have hpre : (a.llog (a.term id)).take k <+: a.log id := by
    rw [← h.take_of_le_commit hl hc]
    exact take_prefix k _
  exact ⟨a.ack id k, h.acknowledge hr hl hk hpre, by simp [State.ack]⟩

/-- **An inbound `InstallSnapshot`.**  Unless it is of an earlier term, whoever answers it
holds what the snapshot covers. -/
theorem Rel.handleInstallSnapshot (hs : Settled n)
    {src : NodeId} {request : InstallSnapshot} (hm : InstallOk voters a src covered request)
    (hcov : n.log.db.snapshotIndex < request.lastIncludedIndex →
      cov request.lastIncludedIndex = covered) (now : Instant) :
    ∃ a', Rel voters a₀ a' id boot cov (n.handleInstallSnapshot request now).1 ∧
      Settled (n.handleInstallSnapshot request now).1 ∧
      ∀ response, (n.handleInstallSnapshot request now).2 = .ok response →
        InstallReplyOk a' id request response := by
  obtain ⟨a₁, hs₁, h₁, hterm, hset, -⟩ := h.observed request.term now
  have hg := hs₁.grows h.inv
  have hset := hset hs
  have hsnap : (n.observeTerm request.term now).1.log.db.snapshotIndex =
      n.log.db.snapshotIndex := observeTerm_snapshotIndex n request.term now
  rw [← hsnap] at hcov
  simp only [RaftNode.handleInstallSnapshot]
  generalize (n.observeTerm request.term now).1 = n₁ at h₁ hset hcov
  split
  · rename_i hstale
    refine ⟨a₁, h₁, hset, ?_⟩
    rintro _ ⟨⟩ heq
    exact absurd heq (ne_of_gt hstale)
  have heq : request.term = a₁.term id := by
    have := h₁.currentTerm
    omega
  split
  · exact ⟨a₁, h₁, hset, by rintro _ ⟨⟩⟩
  obtain ⟨h₂, hr₂⟩ := h₁.acceptLeader request.leaderId now
  have hsnap₂ : (n₁.acceptLeader request.leaderId now).log = n₁.log := by
    obtain ⟨results, hr⟩ := n₁.stepDownToFollower_eq
    rw [RaftNode.acceptLeader, hr]
    rfl
  rw [← hsnap₂] at hcov
  generalize n₁.acceptLeader request.leaderId now = n₂ at h₂ hr₂ hcov
  have hl : a₁.leader (a₁.term id) = some src := by rw [← heq]; exact hg.leader hm.leader
  have hpiece : covered <+: a₁.llog (a₁.term id) := by
    rw [← heq]
    exact hm.piece.trans (hg.llog _)
  split
  · rename_i hold
    obtain ⟨a', h', hacked⟩ := h₂.acknowledge_committed hr₂ (by simp [hl])
      (hm.length ▸ hpiece.length_le) (k := request.lastIncludedIndex) (by
        rw [Bool.or_eq_true, decide_eq_true_eq, decide_eq_true_eq, h₂.snapshotIndex_eq] at hold
        have := h₂.dur.snapshot_le
        rw [← h₂.commit] at this
        omega)
    exact ⟨a', h', Settled.of_role (by simp [hr₂]), fun _ _ _ => heq ▸ hacked⟩
  rename_i hnew
  rw [Bool.or_eq_true, not_or, decide_eq_true_eq, decide_eq_true_eq, Nat.not_le, Nat.not_le,
    h₂.snapshotIndex_eq] at hnew
  obtain ⟨a₃, h₃, hg₃⟩ := h₂.adoptSnapshot hr₂ (by simp [hl]) hpiece hm.length hm.info
    (by rw [← heq]; exact hm.committed.of_grows hg) hnew.2 (hcov hnew.1) request.data
  have hterm₃ : a₃.term id = a₁.term id := h₃.currentTerm.symm.trans h₂.currentTerm
  have hr₃ : (n₂.adoptSnapshot request.info request.data).role = .follower := hr₂
  obtain ⟨a', h', hacked⟩ := h₃.acknowledge_committed hr₃
    (by rw [hterm₃, hg₃.leader hl]; simp) (k := request.lastIncludedIndex)
    (by rw [hterm₃, ← hm.length]; exact (hpiece.trans (hg₃.llog _)).length_le) le_rfl
  rw [hterm₃, ← heq] at hacked
  exact ⟨a', h', Settled.of_role (by simp [hr₃]), fun _ _ _ => hacked⟩

/-! ## Compacting -/

omit h

theorem voters_ne_of_commit (hi : Inv (rules voters) a) (hc : 0 < a.commit id) :
    voters.isEmpty = false := by
  rcases hi.commit_committed id with h0 | ⟨u, k, -, hk, -⟩
  · have := congrArg List.length h0
    have hle := hi.commit_le id
    rw [length_take, Nat.min_eq_left hle, length_nil] at this
    omega
  · exact voters_ne_of_leader hi (hi.committed_leader hk)

theorem NodeRel.settled_of_role (h : NodeRel voters a id boot cov n)
    (h' : NodeRel voters a id boot cov m) (hi : Inv (rules voters) a) (hr : m.role = n.role)
    (hs : Settled n) : Settled m := by
  intro state hm i hlt hle
  have hc := h.commit
  have hc' := h'.commit
  have hd := h.dur.snapshot_le
  have hd' := h'.dur.snapshot_le
  rw [h'.lastLogIndex hi, ← h.lastLogIndex hi] at hle
  have hbefore := hs state (hr ▸ hm) i (by omega) hle
  rw [RaftNode.canCommit, h.hasQuorum_eq, RaftNode.commitAcks, h.name, h.get_eq (by omega),
    h.currentTerm] at hbefore
  rw [RaftNode.canCommit, h'.hasQuorum_eq, RaftNode.commitAcks, h'.name, h'.get_eq (by omega),
    h'.currentTerm]
  exact hbefore

/-- **A compaction** keeps the log as it is; the snapshot covers what is
committed. -/
theorem Rel.compact (h : Rel voters a₀ a id boot cov n) (hs : Settled n)
    (hcov : cov n.commitIndex = (a.log id).take n.commitIndex) (data : Bytes) :
    Rel voters a₀ a id boot cov (n.compact data).1 ∧ Settled (n.compact data).1 := by
  have hc := h.commit
  have hcle := h.inv.commit_le id
  unfold RaftNode.compact
  simp only
  split
  · exact ⟨h, hs⟩
  rename_i hnew
  rw [Bool.or_eq_true, not_or, decide_eq_true_eq, decide_eq_true_eq, Nat.not_le,
    h.snapshotIndex_eq] at hnew
  rw [h.termAt_eq (by omega) (by omega) (by omega)]
  have hidx := indexed_log h.inv id
  have hconfig : (n.configs.configAt n.commitIndex).electorate =
      (rules voters).active ((a.log id).take n.commitIndex) := by
    rw [h.configs, configAt_eq hidx hnew.2.le]
    refine Raft.active_electorate ?_
    rw [h.base_electorate, take_take, Nat.min_eq_left hnew.2.le]
  have hok : SnapshotOk voters (a.log id)
      { lastIncludedIndex := n.commitIndex
        lastIncludedTerm := (rules voters).lastTerm ((a.log id).take n.commitIndex)
        config := n.configs.configAt n.commitIndex } := by
    refine ⟨by show 0 < n.commitIndex; omega, rfl, hconfig, ?_⟩
    have hadm := ((h.inv.log_anchored id).of_isPrefix (List.take_prefix n.commitIndex _)).admitted
      h.inv.llog_admitted
    have hne := active_voters_ne (voters_ne_of_commit h.inv (show 0 < a.commit id by omega)) hadm
    rw [← hconfig] at hne
    exact hne
  have hrel : Rel voters a₀ a id boot cov { n with
      log := n.log.compactTo
        { lastIncludedIndex := n.commitIndex
          lastIncludedTerm := (rules voters).lastTerm ((a.log id).take n.commitIndex)
          config := n.configs.configAt n.commitIndex } data
      snapshot := some
        { lastIncludedIndex := n.commitIndex
          lastIncludedTerm := (rules voters).lastTerm ((a.log id).take n.commitIndex)
          config := n.configs.configAt n.commitIndex }
      configs := n.configs.onCompact n.commitIndex } := by
    refine h.writeSnapshot Relation.ReflTransGen.refl rfl rfl (h.dur.holds.compact hnew.2.le)
      hc.le hcov hok ?_ hc ?_
    · rw [h.configs]
      exact onCompact_eq hidx hnew.2.le rfl (by rw [← h.configs]; exact hok.known)
    have hrole := h.role
    cases hr : n.role with
    | follower => trivial
    | candidate =>
      rw [hr] at hrole
      exact hrole
    | leader =>
      rw [hr] at hrole
      exact { hrole with
        matched := fun hp => (hrole.matched hp).trans (max_le_max le_rfl hnew.2.le) }
  exact ⟨hrel, h.settled_of_role hrel.toNodeRel h.inv rfl hs⟩

end Brokkr.Raft
