import Brokkr.Raft.Refine.Committing

/-!
# Elections won, client calls, and replies to a leader

Every call on a node that may change its log as leader, from its beginning to
its end.

* `Rel.becomeLeader`, `Rel.startElection`, `Rel.tick`,
  `Rel.handleRequestVoteResponse` — elections.
* `Rel.propose`, `Rel.proposeConfChange`, `Rel.proposeAddLearner`,
  `Rel.startRead` — the client interface.
* `Rel.handleAppendEntriesResponse`, `Rel.handleInstallSnapshotResponse` — the
  leader's side of replication.

A call appends at most one entry of its own and at most one final configuration,
never both: while a change is in flight the leader alone is no quorum, so the
entry it has just appended cannot be committed yet.
-/

namespace Brokkr.Raft

open OrdSet

open OrdMap

open Consensus List

variable {voters : OrdSet NodeId} {a₀ a a' : AState} {id : NodeId} {boot : ClusterConfig}
  {cov : ℕ → List LogEntry} {n m : RaftNode} {s : ℕ} {state : LeaderState}

/-! ## A leader alone -/

theorem commitAcks_eq_singleton {i : ℕ} (h : ∀ {p j}, state.matchIndex.get? p = some j → j < i) :
    n.commitAcks state i = singleton n.id := by
  refine ext fun v => ?_
  rw [RaftNode.commitAcks, OrdSet.mem_insert, OrdSet.mem_ofList, OrdSet.mem_singleton]
  refine or_iff_left fun hv => ?_
  obtain ⟨⟨p, j⟩, hp, -⟩ := mem_map.1 hv
  rw [mem_filter, decide_eq_true_eq] at hp
  have := h (get?_eq_some.2 hp.1)
  exact absurd hp.2 (by simpa using this)

/-- **In a joint configuration an index nobody else holds cannot be committed.** -/
theorem Rel.not_canCommit_alone (h : Rel voters a₀ a id boot cov n)
    (hj : n.configs.active.isJoint = true) {i : ℕ}
    (hm : ∀ {p j}, state.matchIndex.get? p = some j → j < i) : n.canCommit state i = false := by
  rw [RaftNode.canCommit, commitAcks_eq_singleton hm, h.hasQuorum_eq]
  obtain ⟨old, hold⟩ := (Electorate.isJoint_iff _).1 hj
  rw [h.active_electorate] at hold
  rw [not_hasQuorum_self hold
    (voters_ne_of_joint ((h.inv.log_anchored id).admitted h.inv.llog_admitted) hold)]
  rfl

/-! ## Elections -/

variable (h : Rel voters a₀ a id boot cov n)

include h

/-- **Winning an election**: the node takes office with the log it campaigned
with, all of which it has. -/
theorem Rel.elected {votes : OrdSet NodeId}
    (hr : n.role = .candidate votes) (hq : n.configs.active.hasQuorum votes = true)
    (hlast : n.lastLogIndex < u64Max) (leader : Option NodeId) :
    ∃ a', Rel voters a₀ a' id boot cov { n with
        role := .leader n.freshLeaderState, leaderId := leader } ∧
      a'.log id = a.log id := by
  have hc : Campaigning a id votes := by
    have := h.role
    rwa [hr] at this
  have hquorum : IsQuorum ((rules voters).active (a.log id))
      {v | a.vote v (a.term id) = some id} :=
    ⟨votes, hc.votes, by rw [← h.hasQuorum_eq]; exact hq⟩
  have hnone := h.inv.leader_eq_none hc.cand hc.notElected hquorum
  have h1 : Step (rules voters) id a (a.elect id) := Step.elect hc.cand hc.notElected hquorum
  have hllog : (a.elect id).llog (a.term id) = a.log id := by simp [State.elect]
  have hleader : (a.elect id).leader (a.term id) = some id := by simp [State.elect]
  have h2 : Step (rules voters) id (a.elect id) ((a.elect id).ack id (a.log id).length) := by
    refine Step.ack _ (by rw [show (a.elect id).term id = a.term id from rfl, hleader]; simp) ?_ ?_
    · show _ ≤ ((a.elect id).llog (a.term id)).length
      rw [hllog]
    · show ((a.elect id).llog (a.term id)).take _ <+: a.log id
      rw [hllog, take_length]
  have hlen := h.lastLogIndex h.inv
  have hsteps := (Relation.ReflTransGen.single h1).tail h2
  refine ⟨_, h.next (m := { n with role := .leader n.freshLeaderState, leaderId := leader })
    hsteps ?_ (Or.inl rfl), rfl⟩
  exact
    { h.toNodeRel with
      dur := { h.dur with }
      role :=
        { elected := hleader
          acked := by simp [State.ack, State.elect]
          next := by
            intro p i hp
            rcases get?_foldl_insert hp with hp | rfl
            · exact absurd hp (by simp)
            · rw [hlen]
              exact ⟨saturatingSucc_pos _, saturatingSucc_le _⟩
          matched := by
            intro p i hp
            rw [n.freshLeaderState_match hp]
            exact Nat.zero_le _
          committed := by
            intro k hk
            exact absurd hnone (h.inv.committed_leader (show a.committed (a.term id) k from hk))
          start := by
            show LogIndex.next n.lastLogIndex = ((a.elect id).elog (a.term id)).length + 1
            rw [LogIndex.next, saturatingSucc_of_lt hlast, hlen]
            simp [State.elect] } }

/-- **Taking office.** -/
theorem Rel.becomeLeader {votes : OrdSet NodeId}
    (hr : n.role = .candidate votes) (hq : n.configs.active.hasQuorum votes = true)
    (hlast : n.lastLogIndex < u64Max) (now : Instant) :
    ∃ a', Ends voters a₀ a' id boot cov n.log.db.snapshotIndex (n.becomeLeader now) := by
  obtain ⟨a₁, h₁, hlog₁⟩ := h.elected hr hq hlast (some n.id)
  have hnext : LogIndex.next n.lastLogIndex = (a₁.log id).length + 1 := by
    rw [LogIndex.next, saturatingSucc_of_lt hlast, h.lastLogIndex h.inv, hlog₁]
  obtain ⟨a₂, h₂, hlog₂⟩ := h₁.appendEntry rfl
    (e := LogEntry.withPayload n.hard.currentTerm (LogIndex.next n.lastLogIndex) .noop)
    rfl hnext (by rintro _ ⟨⟩)
  have h₃ : Rel voters a₀ a₂ id boot cov (n.takeOffice now) := h₂.armHeartbeatTimer now
  have hroom : Room (n.takeOffice now) := by
    -- nobody is known to hold anything yet
    refine fun hj => Or.inr ?_
    rintro _ ⟨⟩ i hi hl
    refine h₃.not_canCommit_alone hj fun hp => ?_
    rw [n.freshLeaderState_match hp]
    exact Nat.zero_lt_of_lt hi
  obtain ⟨a₄, h₄⟩ := h₃.advanceCommitIndex hroom now
  exact ⟨a₄, h₄.extend fun n' hn' hs' => hn'.replicateAll hs'⟩

/-- **A candidacy.** -/
theorem Rel.becomeCandidate
    (hterm : n.hard.currentTerm < u64Max) (now : Instant) :
    ∃ a', Rel voters a₀ a' id boot cov (n.becomeCandidate now) ∧
      VoteRequestOk voters a' id (n.becomeCandidate now).voteRequest := by
  have hlt : a.term id < Term.next n.hard.currentTerm := by
    rw [Term.next, saturatingSucc_of_lt hterm, h.currentTerm]
    exact Nat.lt_succ_self _
  have hname := h.name
  obtain ⟨a', h', ht, hc⟩ := h.campaign hlt
    (m := { n with
      hard := (n.hard.steppedTo (Term.next n.hard.currentTerm)).votingFor n.id
      log := n.log.saveHardState ((n.hard.steppedTo (Term.next n.hard.currentTerm)).votingFor n.id)
      role := .candidate (singleton n.id)
      leaderId := none })
    (by rw [← hname]; rfl) rfl (by rw [← hname]; rfl) rfl rfl rfl (by rw [← hname])
  have h'' := h'.armElectionTimer now
  refine ⟨a', h'', h''.name, a'.log id, ?_, ?_, ?_⟩
  · exact hc
  · exact congrArg Prod.fst (h''.lastIndexAndTerm h''.inv)
  · exact congrArg Prod.snd (h''.lastIndexAndTerm h''.inv)

/-- **Starting an election.** -/
theorem Rel.startElection
    (hterm : n.hard.currentTerm < u64Max) (hlast : n.lastLogIndex < u64Max) (now : Instant) :
    ∃ a', Ends voters a₀ a' id boot cov n.log.db.snapshotIndex (n.startElection now) := by
  obtain ⟨a₁, h₁, hreq⟩ := h.becomeCandidate hterm now
  unfold RaftNode.startElection
  simp only
  split
  · rename_i hq
    exact h₁.becomeLeader rfl hq hlast now
  refine ⟨a₁, h₁, Settled.of_role (by simp [RaftNode.becomeCandidate, RaftNode.armElectionTimer]),
    rfl, _, rfl, fun out hout => ?_⟩
  obtain ⟨peer, -, rfl⟩ := mem_map.1 hout
  exact hreq

/-- **Time passes.** -/
theorem Rel.tick (hs : Settled n)
    (hterm : n.hard.currentTerm < u64Max) (hlast : n.lastLogIndex < u64Max) (now : Instant) :
    ∃ a', Ends voters a₀ a' id boot cov n.log.db.snapshotIndex (n.tick now) := by
  unfold RaftNode.tick
  split
  · split
    · exact ⟨a, (h.armHeartbeatTimer now).replicateAll hs⟩
    · exact ⟨a, Ends.quiet h hs⟩
  split
  · split
    · exact ⟨a, Ends.quiet (h.armElectionTimer now) hs⟩
    · exact h.startElection hterm hlast now
  · exact ⟨a, Ends.quiet h hs⟩

omit h

theorem observeTerm_snapshotIndex (n : RaftNode) (t : ℕ) (now : Instant) :
    (n.observeTerm t now).1.log.db.snapshotIndex = n.log.db.snapshotIndex := by
  rcases Nat.lt_or_ge n.hard.currentTerm t with ht | ht
  · obtain ⟨results, hr⟩ := RaftNode.observeTerm_of_lt ht now
    rw [hr]
    rfl
  · rw [RaftNode.observeTerm_of_le ht]

variable (h : Rel voters a₀ a id boot cov n)

include h

theorem Rel.onReply (t : ℕ) (now : Instant)
    {out : Outcome}
    (hhigher : (n.observeTerm t now).2 = true → out = ((n.observeTerm t now).1, .ok []))
    (hsame : n.observeTerm t now = (n, false) →
      ∃ a', Ends voters a₀ a' id boot cov n.log.db.snapshotIndex out) :
    ∃ a', Ends voters a₀ a' id boot cov n.log.db.snapshotIndex out := by
  rcases h.observeTerm t now with ⟨heq, -⟩ | ⟨a', -, h', hb, -, hrole⟩
  · exact hsame heq
  · rw [hhigher hb, ← observeTerm_snapshotIndex n t now]
    exact ⟨a', Ends.quiet h' (Settled.of_role (by rw [hrole]; simp))⟩

/-- **A reply to our `RequestVote`.** -/
theorem Rel.handleRequestVoteResponse (hs : Settled n)
    (hlast : n.lastLogIndex < u64Max) {src : NodeId} {response : RequestVoteResponse}
    (hm : response.voteGranted = true → a.vote src response.term = some id) (now : Instant) :
    ∃ a', Ends voters a₀ a' id boot cov n.log.db.snapshotIndex
      (n.handleRequestVoteResponse src response now) := by
  refine h.onReply response.term now (fun hb => if_pos hb) fun hsame => ?_
  simp only [RaftNode.handleRequestVoteResponse, hsame, Bool.false_eq_true, if_false]
  split
  · exact ⟨a, Ends.quiet h hs⟩
  rename_i heq
  rw [not_not, h.currentTerm] at heq
  cases hr : n.role with
  | candidate votes =>
    have hc : Campaigning a id votes := by
      have := h.role
      rwa [hr] at this
    have hvotes : ∀ v ∈ RaftNode.countVote votes src response, a.vote v (a.term id) = some id := by
      intro v hv
      unfold RaftNode.countVote at hv
      split at hv
      · rename_i hg
        rcases mem_insert.1 hv with rfl | hv
        · rw [← heq]
          exact hm hg
        · exact hc.votes v hv
      · exact hc.votes v hv
    have h' : Rel voters a₀ a id boot cov { n with
        role := .candidate (RaftNode.countVote votes src response) } :=
      h.volatile rfl rfl rfl rfl rfl rfl ⟨hc.cand, hc.notElected, hvotes⟩
    simp only
    split
    · rename_i hq
      exact h'.becomeLeader rfl hq hlast now
    · exact ⟨a, Ends.quiet h' (Settled.of_role (by simp))⟩
  | _ => exact ⟨a, Ends.quiet h hs⟩

/-! ## The client interface -/

theorem Rel.settled_append (hs : Settled n)
    (hr : n.role = .leader state) {e : LogEntry}
    (h' : Rel voters a₀ a' id boot cov { n with log := n.log.append e })
    (hlog : a'.log id = a.log id ++ [e]) (hj : n.configs.active.isJoint = true) :
    Settled { n with log := n.log.append e } := by
  intro state' hr' i hi hl
  obtain rfl : state = state' := Role.leader.inj (hr.symm.trans hr')
  have hlen := h'.lastLogIndex h'.inv
  have hlen₀ := h.lastLogIndex h.inv
  have hcommit := h.dur.snapshot_le
  rw [← h.commit] at hcommit
  have hi' : n.commitIndex < i := hi
  rcases Nat.lt_or_ge n.lastLogIndex i with hlt | hge
  · refine h'.not_canCommit_alone hj fun hp => ?_
    have := (h.leading hr).matched_le h.inv h.dur.snapshot_le hp
    omega
  -- the entries below are as they were
  have hget : (n.log.append e).db.get i = n.log.db.get i := by
    refine (h'.get_eq (i := i) (lt_of_le_of_lt hcommit hi')).trans ?_
    rw [hlog, h.get_eq (lt_of_le_of_lt hcommit hi'), getElem?_append_left (by omega)]
  have := hs state hr i hi' hge
  unfold RaftNode.canCommit at this ⊢
  simp only [hget]
  exact this

/-- **A proposal.** -/
theorem Rel.propose (hs : Settled n)
    (hlast : n.lastLogIndex < u64Max) (command : Bytes) (now : Instant) :
    Serves voters a₀ id boot cov n (n.propose command now) := by
  unfold RaftNode.propose
  cases hr : n.role with
  | leader =>
    rw [if_neg (by simp [RaftNode.isLeader, hr])]
    have hnext : LogIndex.next n.lastLogIndex = (a.log id).length + 1 := by
      rw [LogIndex.next, saturatingSucc_of_lt hlast, h.lastLogIndex h.inv]
    obtain ⟨a₁, h₁, hlog₁⟩ := h.appendEntry hr
      (e := LogEntry.new n.hard.currentTerm (LogIndex.next n.lastLogIndex) command)
      rfl hnext (by rintro _ ⟨⟩)
    obtain ⟨a₂, h₂⟩ := h₁.advanceCommitIndex
      (fun hj => Or.inr (h.settled_append hs hr h₁ hlog₁ hj)) now
    rw [← hr]
    exact .inl ⟨a₂, h₂.extend fun n' hn' hs' => hn'.replicateAll hs'⟩
  | _ =>
    rw [if_pos (by simp [RaftNode.isLeader, hr])]
    exact Serves.refused _

omit h

theorem appendConfig_role (hr : n.role = .leader state) (c : ClusterConfig) :
    ∃ state', (n.appendConfig c).role = .leader state' ∧
      ∀ {p j}, state'.matchIndex.get? p = some j → state.matchIndex.get? p = some j ∨ j = 0 := by
  refine ⟨_, by simp only [RaftNode.appendConfig, RaftNode.refreshLeaderState, hr]; rfl, ?_⟩
  exact fun hp => RaftNode.refreshed_match hp

theorem appendConfig_memory (n : RaftNode) (c : ClusterConfig) :
    (n.appendConfig c).id = n.id ∧ (n.appendConfig c).hard = n.hard ∧
      (n.appendConfig c).commitIndex = n.commitIndex := by
  simp only [RaftNode.appendConfig, RaftNode.refreshLeaderState]
  split <;> exact ⟨rfl, rfl, rfl⟩

variable (h : Rel voters a₀ a id boot cov n)

include h

theorem Rel.settled_appendJoint (hs : Settled n)
    (hr : n.role = .leader state) {c : ClusterConfig}
    (hc : c.oldVoters = some n.configs.active.voters) (hnj : n.configs.active.oldVoters = none)
    (h' : Rel voters a₀ a' id boot cov (n.appendConfig c))
    (hact : (n.appendConfig c).configs.active = c) {e : LogEntry}
    (hlog : a'.log id = a.log id ++ [e])
    (hsnap : (n.appendConfig c).log.db.snapshotIndex = n.log.db.snapshotIndex) :
    Settled (n.appendConfig c) := by
  obtain ⟨state', hr', hmatch⟩ := appendConfig_role hr c
  obtain ⟨hid, hhard, hcommit⟩ := appendConfig_memory n c
  intro state'' hr'' i hi hl
  obtain rfl : state' = state'' := Role.leader.inj (hr'.symm.trans hr'')
  rw [hcommit] at hi
  have hs' := h.dur.snapshot_le
  rw [← h.commit] at hs'
  have hlen := h.lastLogIndex h.inv
  rcases Nat.lt_or_ge n.lastLogIndex i with hlt | hge
  · refine h'.not_canCommit_alone (by rw [hact, ClusterConfig.isJoint, hc]; rfl) fun hp => ?_
    rcases hmatch hp with hp | rfl
    · have := (h.leading hr).matched_le h.inv h.dur.snapshot_le hp
      omega
    · omega
  rw [Bool.eq_false_iff]
  intro hcan
  rw [RaftNode.canCommit, hact, Bool.and_eq_true, decide_eq_true_eq, hhard] at hcan
  have hq := (Electorate.hasQuorum_iff (c := c.electorate)).1 hcan.1
  -- whoever is counted now was counted before
  have hsub : ∀ v ∈ (n.appendConfig c).commitAcks state' i, v ∈ n.commitAcks state i := by
    intro v hv
    rw [RaftNode.commitAcks, mem_insert, mem_ofList] at hv ⊢
    rw [hid] at hv
    refine hv.imp_right fun hv => ?_
    obtain ⟨⟨p, j⟩, hp, rfl⟩ := mem_map.1 hv
    rw [mem_filter, decide_eq_true_eq] at hp
    have hij : i ≤ j := hp.2
    rcases hmatch (get?_eq_some.2 hp.1) with hm | rfl
    · exact mem_map.2 ⟨(p, j), mem_filter.2
        ⟨get?_eq_some.1 hm, by simpa using hij⟩, rfl⟩
    · omega
  have hmaj := majority_mono hsub (hq.2 _ hc)
  have hget : (n.appendConfig c).log.db.get i = n.log.db.get i := by
    rw [h'.get_eq (by omega), h.get_eq (by omega), hlog, getElem?_append_left (by omega)]
  rw [hget] at hcan
  have hbefore := hs state hr i hi hge
  rw [RaftNode.canCommit, hcan.2, decide_eq_true rfl, Bool.and_true] at hbefore
  have hnow : n.configs.active.hasQuorum (n.commitAcks state i) = true := by
    rw [← ClusterConfig.hasQuorum_electorate, Electorate.hasQuorum_iff]
    refine ⟨hmaj, fun old hold => ?_⟩
    exact absurd (hnj.symm.trans hold) (by simp)
  exact absurd (hbefore.symm.trans hnow) (by simp)

/-- **A membership change.** -/
theorem Rel.proposeConfChange (hs : Settled n)
    (hlast : n.lastLogIndex < u64Max) (newVoters : OrdSet NodeId) (now : Instant) :
    Serves voters a₀ id boot cov n (n.proposeConfChange newVoters now) := by
  rcases n.proposeConfChange_cases newVoters now with
    ⟨e, heq⟩ | ⟨⟨state, hr⟩, hempty, hflight, hlatest, hsame, heq⟩
  · rw [heq]
    exact Serves.refused _
  have hnj : n.configs.active.oldVoters = none := by simpa [ClusterConfig.isJoint] using hflight
  have hf : Follows ((rules voters).active (a.log id)) (n.jointConfig newVoters).electorate := by
    rw [← h.active_electorate, ClusterConfig.electorate, hnj]
    exact Follows.joint _ _ hsame hempty
  obtain ⟨a₁, h₁, hact, hsnap, e, hlog⟩ := h.appendConfig hr hf hlatest hlast
  obtain ⟨a₂, h₂⟩ := h₁.advanceCommitIndex
    (fun _ => Or.inr (h.settled_appendJoint hs hr rfl hnj h₁ hact hlog hsnap)) now
  rw [hsnap] at h₂
  rw [heq]
  exact .inl ⟨a₂, h₂.extend fun n' hn' hs' => hn'.replicateAll hs'⟩

/-- **A new learner.** -/
theorem Rel.proposeAddLearner
    (hlast : n.lastLogIndex < u64Max) (learner : NodeId) (now : Instant) :
    Serves voters a₀ id boot cov n (n.proposeAddLearner learner now) := by
  rcases n.proposeAddLearner_cases learner now with
    ⟨e, heq⟩ | ⟨⟨state, hr⟩, hflight, hlatest, -, heq⟩
  · rw [heq]
    exact Serves.refused _
  have hnj : n.configs.active.oldVoters = none := by simpa [ClusterConfig.isJoint] using hflight
  have hf : Follows ((rules voters).active (a.log id)) (n.learnerConfig learner).electorate := by
    have helec : (n.learnerConfig learner).electorate = n.configs.active.electorate := rfl
    rw [helec, ← h.active_electorate, ClusterConfig.electorate, hnj]
    exact Follows.learner _
  obtain ⟨a₁, h₁, hact, hsnap, -⟩ := h.appendConfig hr hf hlatest hlast
  have hroom : Room (n.appendConfig (n.learnerConfig learner)) := by
    intro hj
    rw [hact] at hj
    exact absurd (hflight.symm.trans hj) (by simp)
  obtain ⟨a₂, h₂⟩ := h₁.advanceCommitIndex hroom now
  rw [hsnap] at h₂
  rw [heq]
  exact .inl ⟨a₂, h₂.extend fun n' hn' hs' => hn'.replicateAll hs'⟩

/-- **Registering a read.** -/
theorem Rel.startRead (hs : Settled n) (now : Instant) :
    Rel voters a₀ a id boot cov (n.startRead now).1 ∧ Settled (n.startRead now).1 ∧
      (n.startRead now).1.log.db.snapshotIndex = n.log.db.snapshotIndex ∧
      ∀ ticket outs, (n.startRead now).2 = .ok (ticket, outs) →
        ∀ out ∈ outs, OutOk voters a id (cov n.log.db.snapshotIndex) out := by
  unfold RaftNode.startRead
  cases hr : n.role with
  | leader state =>
    have hl := h.leading hr
    simp only
    split
    · refine ⟨h.volatile rfl rfl rfl rfl rfl rfl hl, ?_, rfl, ?_⟩
      · exact fun state' hr' => hs state' (hr.trans hr')
      · rintro _ _ ⟨⟩ out hout
        exact absurd hout not_mem_nil
    have h' : Rel voters a₀ a id boot cov { n with
        readSeq := (n.newRead state).id
        role := .leader
          { state with pendingReads := state.pendingReads ++ [n.newRead state] } } :=
      h.volatile rfl rfl rfl rfl rfl rfl { hl with }
    have hs' : Settled { n with
        readSeq := (n.newRead state).id
        role := .leader
          { state with pendingReads := state.pendingReads ++ [n.newRead state] } } := by
      rintro _ ⟨⟩
      exact hs state hr
    have he := h'.replicateAll hs'
    generalize RaftNode.replicateAll _ = r at he
    obtain ⟨n', res⟩ := r
    obtain ⟨hrel, hsettled, hsnap, outs, rfl, houts⟩ := he
    refine ⟨hrel, hsettled, hsnap, ?_⟩
    rintro _ _ ⟨⟩
    exact houts
  | _ => exact ⟨h, hs, rfl, by rintro _ _ ⟨⟩⟩

/-! ## Replies to a leader -/

omit h

theorem Settled.noteLeadershipAck (h : Settled n) (src : NodeId) (seq : ℕ) :
    Settled (n.noteLeadershipAck src seq) := by
  unfold RaftNode.noteLeadershipAck
  cases hr : n.role with
  | leader state =>
    rintro _ ⟨⟩
    exact h state hr
  | follower => exact h
  | candidate => exact h

variable (h : Rel voters a₀ a id boot cov n)

include h

theorem Rel.onMatch (hlast : n.lastLogIndex < u64Max)
    {peer : NodeId} {i : ℕ} (hi : i ≤ max (a.acked peer (a.term id)) n.log.db.snapshotIndex)
    (now : Instant) :
    ∃ a', Ends voters a₀ a' id boot cov n.log.db.snapshotIndex
      (((n.recordMatch peer i).advanceCommitIndex now).extend
        (fun n => n.replicateIfBehind peer)) := by
  have hlog := n.recordMatch_log peer i
  have hroom : Room (n.recordMatch peer i) := by
    refine fun _ => Or.inl ?_
    rw [RaftNode.lastLogIndex, hlog]
    exact hlast
  obtain ⟨a', h'⟩ := (h.recordMatch hi).advanceCommitIndex hroom now
  rw [hlog] at h'
  exact ⟨a', h'.extend fun n' hn' hs' => hn'.replicateIfBehind hs' peer⟩

/-- **A reply to our `AppendEntries`.** -/
theorem Rel.handleAppendEntriesResponse (hs : Settled n)
    (hlast : n.lastLogIndex < u64Max) {src : NodeId} {response : AppendEntriesResponse}
    (hm : AppendReplyOk a src response) (now : Instant) :
    ∃ a', Ends voters a₀ a' id boot cov n.log.db.snapshotIndex
      (n.handleAppendEntriesResponse src response now) := by
  refine h.onReply response.term now (fun hb => if_pos hb) fun hsame => ?_
  simp only [RaftNode.handleAppendEntriesResponse, hsame, Bool.false_eq_true, if_false]
  split
  · exact ⟨a, Ends.quiet h hs⟩
  rename_i hlead
  have hterm : response.term = a.term id := by
    rw [← h.currentTerm]
    by_contra hne
    exact hlead (by simp [hne])
  have h₁ := h.noteLeadershipAck src response.seq
  have hs₁ := hs.noteLeadershipAck src response.seq
  have hlog := n.noteLeadershipAck_log src response.seq
  rw [← hlog]
  split
  · rename_i hsucc
    refine h₁.onMatch (by rw [RaftNode.lastLogIndex, hlog]; exact hlast) ?_ now
    rw [← hterm]
    exact (hm.matched hsucc).trans (le_max_left _ _)
  rename_i hfail
  have hconf := hm.conflict (by simpa using hfail)
  rw [hterm] at hconf
  obtain ⟨h₂, hs₂, hlog₂⟩ := h₁.backOff hs₁ src hconf
  rw [← hlog₂]
  exact ⟨a, h₂.replicateTo hs₂ src⟩

/-- **A reply to our `InstallSnapshot`.**  The peer is credited with the current
snapshot, which is compacted away on this side. -/
theorem Rel.handleInstallSnapshotResponse (hs : Settled n)
    (hlast : n.lastLogIndex < u64Max) (src : NodeId) (response : InstallSnapshotResponse)
    (now : Instant) :
    ∃ a', Ends voters a₀ a' id boot cov n.log.db.snapshotIndex
      (n.handleInstallSnapshotResponse src response now) := by
  refine h.onReply response.term now (fun hb => if_pos hb) fun hsame => ?_
  simp only [RaftNode.handleInstallSnapshotResponse, hsame, Bool.false_eq_true, if_false]
  split
  · exact ⟨a, Ends.quiet h hs⟩
  cases hsnap : n.snapshot with
  | none => exact ⟨a, Ends.quiet h hs⟩
  | some info =>
    have hi : info.lastIncludedIndex = n.log.db.snapshotIndex := by
      rw [← h.snapshotIndex_eq, RaftNode.snapshotIndex, hsnap]
    exact h.onMatch hlast (by rw [hi]; exact le_max_right _ _) now

end Brokkr.Raft
