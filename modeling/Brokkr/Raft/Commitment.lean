import Brokkr.Raft.Membership

/-!
# What a leader does about its commit index

A leader moves its commit index in one place, `advance_commit_index`, and what it does
then may append a configuration, which changes the quorum rule and makes it look again.

* `Idle` — nothing that the commit rule reads has changed, but for acknowledgements.
* `Course`, `RaftNode.run_course` — what a call is: idle; or the preparation of one
  application of the commit rule (an entry, a configuration or an acknowledgement),
  the rule itself, and messages.
* `Completed` — no step of a membership change is left undone.
* `Adds` — the configuration entries that a call has added to the log.
* `nestedCalls` — the calls that the commit rule makes of itself.
-/

namespace Brokkr.Raft

open OrdMap

open RaftNode

open Consensus List

variable {n n' m : RaftNode}

/-! ## Calls that leave the commit rule alone -/

/-- Nothing that the commit rule reads has changed, but for acknowledgements: whoever
leads has led before, since the same start-of-term entry. -/
structure Idle (n n' : RaftNode) : Prop where
  id : n'.id = n.id
  configs : n'.configs = n.configs
  commit : n'.commitIndex = n.commitIndex
  table : n'.log.db.log = n.log.db.log
  office : ∀ {state'}, n'.role = .leader state' →
    ∃ state, n.role = .leader state ∧ state'.termStartIndex = state.termStartIndex

namespace Idle

theorem refl (n : RaftNode) : Idle n n := ⟨rfl, rfl, rfl, rfl, fun h => ⟨_, h, rfl⟩⟩

theorem trans (h : Idle n n') (h' : Idle n' m) : Idle n m where
  id := h'.id.trans h.id
  configs := h'.configs.trans h.configs
  commit := h'.commit.trans h.commit
  table := h'.table.trans h.table
  office hm := by
    obtain ⟨s₁, hr₁, ht₁⟩ := h'.office hm
    obtain ⟨s₂, hr₂, ht₂⟩ := h.office hr₁
    exact ⟨s₂, hr₂, ht₁.trans ht₂⟩

theorem of_role (hid : n'.id = n.id) (hc : n'.configs = n.configs)
    (hi : n'.commitIndex = n.commitIndex) (ht : n'.log.db.log = n.log.db.log)
    (hr : n'.role = n.role) : Idle n n' :=
  ⟨hid, hc, hi, ht, fun h => ⟨_, hr ▸ h, rfl⟩⟩

theorem of_leader {state state' : LeaderState} (hr : n.role = .leader state)
    (ht : state'.termStartIndex = state.termStartIndex) :
    Idle n { n with role := .leader state' } := by
  refine ⟨rfl, rfl, rfl, rfl, ?_⟩
  rintro _ ⟨⟩
  exact ⟨state, hr, ht⟩

theorem armElectionTimer (n : RaftNode) (now : Instant) : Idle n (n.armElectionTimer now) :=
  of_role rfl rfl rfl rfl rfl

theorem stepDownToFollower (n : RaftNode) : Idle n n.stepDownToFollower := by
  obtain ⟨results, hr⟩ := n.stepDownToFollower_eq
  rw [hr]
  exact ⟨rfl, rfl, rfl, rfl, by rintro _ ⟨⟩⟩

theorem acceptLeader (n : RaftNode) (leader : NodeId) (now : Instant) :
    Idle n (n.acceptLeader leader now) :=
  (stepDownToFollower n).trans (.of_role rfl rfl rfl rfl rfl)

theorem observeTerm (n : RaftNode) (t : ℕ) (now : Instant) : Idle n (n.observeTerm t now).1 := by
  rcases Nat.lt_or_ge n.hard.currentTerm t with hlt | hge
  · obtain ⟨results, hr⟩ := observeTerm_of_lt hlt now
    rw [hr]
    exact ⟨rfl, rfl, rfl, rfl, by rintro _ ⟨⟩⟩
  · rw [observeTerm_of_le hge]
    exact refl n

theorem becomeCandidate (n : RaftNode) (now : Instant) : Idle n (n.becomeCandidate now) :=
  ⟨rfl, rfl, rfl, rfl, by rintro _ ⟨⟩⟩

theorem replicateAll (n : RaftNode) : Idle n n.replicateAll.1 := by
  unfold RaftNode.replicateAll
  split
  · rename_i state hr
    exact of_leader hr rfl
  · exact refl n

theorem replicateTo (n : RaftNode) (peer : NodeId) : Idle n (n.replicateTo peer).1 := by
  unfold RaftNode.replicateTo
  split
  · rename_i state hr
    exact of_leader hr rfl
  · exact refl n

theorem replicateIfBehind (n : RaftNode) (peer : NodeId) :
    Idle n (n.replicateIfBehind peer).1 := by
  unfold RaftNode.replicateIfBehind
  split
  · exact replicateTo n peer
  · exact refl n

theorem noteLeadershipAck (n : RaftNode) (src : NodeId) (seq : ℕ) :
    Idle n (n.noteLeadershipAck src seq) := by
  unfold RaftNode.noteLeadershipAck
  split
  · rename_i state hr
    refine ⟨rfl, rfl, rfl, rfl, ?_⟩
    rintro _ ⟨⟩
    exact ⟨state, hr, rfl⟩
  · exact refl n

theorem recordMatch (n : RaftNode) (peer : NodeId) (i : ℕ) : Idle n (n.recordMatch peer i) := by
  unfold RaftNode.recordMatch
  split
  · rename_i state hr
    exact of_leader hr rfl
  · exact refl n

theorem backOff (n : RaftNode) (peer : NodeId) (i : ℕ) : Idle n (n.backOff peer i) := by
  unfold RaftNode.backOff
  split
  · rename_i state hr
    exact of_leader hr rfl
  · exact refl n

theorem handleRequestVote (n : RaftNode) (request : RequestVote) (now : Instant) :
    Idle n (n.handleRequestVote request now).1 := by
  unfold RaftNode.handleRequestVote
  split
  · exact refl n
  have h := observeTerm n request.term now
  simp only
  split
  · exact h
  split
  · exact h.trans (of_role rfl rfl rfl rfl rfl)
  · exact h

theorem startRead (n : RaftNode) (now : Instant) : Idle n (n.startRead now).1 := by
  unfold RaftNode.startRead
  split
  · rename_i state hr
    simp only
    split
    · exact of_role rfl rfl rfl rfl rfl
    have hread : Idle n { n with
        readSeq := (n.newRead state).id
        role := .leader
          { state with pendingReads := state.pendingReads ++ [n.newRead state] } } := by
      refine ⟨rfl, rfl, rfl, rfl, ?_⟩
      rintro _ ⟨⟩
      exact ⟨state, hr, rfl⟩
    have hsent := hread.trans (replicateAll _)
    generalize RaftNode.replicateAll _ = r at hsent
    obtain ⟨n', res⟩ := r
    cases res <;> exact hsent
  · exact refl n

theorem extend (r : Outcome) {f : RaftNode → Outcome} (hf : ∀ n, Idle n (f n).1) :
    Idle r.1 (r.extend f).1 := by
  obtain ⟨n, res⟩ := r
  cases res with
  | error => exact refl n
  | ok =>
    have hn := hf n
    unfold Outcome.extend
    simp only
    generalize f n = r at hn
    obtain ⟨n', res⟩ := r
    cases res <;> exact hn

end Idle

/-! ## What any call is -/

/-- What is done before the commit rule is applied. -/
inductive Prepared (n : RaftNode) : RaftNode → Prop
  | nothing : Prepared n n
  | office (now : Instant) (commit_le : n.commitIndex ≤ n.lastLogIndex) :
      Prepared n (n.takeOffice now)
  | entry (e : LogEntry) (plain : e.config? = none) :
      Prepared n { n with log := n.log.append e }
  | config (c : ClusterConfig) (commit_le : n.commitIndex ≤ n.lastLogIndex)
      (settled : c.isJoint = true → Settled (n.appendConfig c)) :
      Prepared n (n.appendConfig c)

/-- How a call goes that may apply the commit rule. -/
inductive Course (n : RaftNode) : RaftNode → Prop
  | idle {n' : RaftNode} (idle : Idle n n') : Course n n'
  | applies {n₁ m n' : RaftNode} (before : Idle n n₁) (prepared : Prepared n₁ m) (room : Room m)
      (last : n₁.lastLogIndex < u64Max) (now : Instant)
      (after : Idle (m.advanceCommitIndex now).1 n') : Course n n'

theorem Course.applies_extend {n₁ : RaftNode} (before : Idle n n₁) (prepared : Prepared n₁ m)
    (room : Room m) (last : n₁.lastLogIndex < u64Max) (now : Instant) {f : RaftNode → Outcome}
    (hf : ∀ n, Idle n (f n).1) : Course n ((m.advanceCommitIndex now).extend f).1 :=
  .applies before prepared room last now (.extend _ hf)

section

variable {voters : OrdSet NodeId} {a₀ a : AState} {id : NodeId} {boot : ClusterConfig}
  {cov : ℕ → List LogEntry}

/-- In a joint configuration nobody is a quorum alone. -/
def NoneAlone (n : RaftNode) : Prop :=
  n.configs.active.isJoint = true → ∀ p, n.configs.active.hasQuorum (OrdSet.singleton p) = false

theorem NodeRel.noneAlone (h : NodeRel voters a id boot cov n) (hi : Inv (rules voters) a) :
    NoneAlone n := by
  intro hj p
  obtain ⟨old, hold⟩ := (Electorate.isJoint_iff _).1 hj
  rw [h.active_electorate] at hold
  rw [h.hasQuorum_eq]
  exact not_hasQuorum_self hold
    (voters_ne_of_joint ((hi.log_anchored id).admitted hi.llog_admitted) hold)

theorem NodeRel.commit_le_last (h : NodeRel voters a id boot cov n) (hi : Inv (rules voters) a) :
    n.commitIndex ≤ n.lastLogIndex := by
  rw [h.commit, h.lastLogIndex hi]
  exact hi.commit_le id

theorem room_takeOffice (h : NoneAlone n) (now : Instant) : Room (n.takeOffice now) := by
  refine fun hj => Or.inr ?_
  rintro _ ⟨⟩ i hi -
  have halone : (n.takeOffice now).commitAcks n.freshLeaderState i = OrdSet.singleton n.id := by
    refine commitAcks_eq_singleton fun hp => ?_
    rw [freshLeaderState_match n hp]
    exact Nat.zero_lt_of_lt hi
  have hquorum : (n.takeOffice now).configs.active.hasQuorum (OrdSet.singleton n.id) = false :=
    h hj n.id
  rw [canCommit, halone, hquorum]
  rfl

namespace Course

theorem becomeLeader {n₁ : RaftNode} (h : Idle n n₁) (halone : NoneAlone n₁)
    (hcommit : n₁.commitIndex ≤ n₁.lastLogIndex) (hlast : n₁.lastLogIndex < u64Max)
    (now : Instant) : Course n (n₁.becomeLeader now).1 :=
  applies_extend h (.office now hcommit) (room_takeOffice halone now) hlast now Idle.replicateAll

theorem tick (halone : NoneAlone n) (hcommit : n.commitIndex ≤ n.lastLogIndex)
    (hlast : n.lastLogIndex < u64Max) (now : Instant) : Course n (n.tick now).1 := by
  unfold RaftNode.tick
  split
  · split
    · have harmed : Idle n (n.armHeartbeatTimer now) := .of_role rfl rfl rfl rfl rfl
      exact .idle (harmed.trans (.replicateAll _))
    · exact .idle (.refl n)
  split
  · split
    · exact .idle (.armElectionTimer n now)
    · unfold startElection
      simp only
      split
      · exact .becomeLeader (.becomeCandidate n now) halone hcommit hlast now
      · exact .idle (.becomeCandidate n now)
  · exact .idle (.refl n)

theorem handleRequestVoteResponse (halone : NoneAlone n)
    (hcommit : n.commitIndex ≤ n.lastLogIndex) (hlast : n.lastLogIndex < u64Max) (src : NodeId)
    (response : RequestVoteResponse) (now : Instant) :
    Course n (n.handleRequestVoteResponse src response now).1 := by
  have h := Idle.observeTerm n response.term now
  unfold RaftNode.handleRequestVoteResponse
  simp only
  split
  · exact .idle h
  rename_i hle
  rw [observeTerm_eq_self hle]
  split
  · exact .idle (.refl n)
  cases hr : n.role with
  | candidate votes =>
    have hcount : Idle n { n with
        role := .candidate (countVote votes src response) } :=
      ⟨rfl, rfl, rfl, rfl, by rintro _ ⟨⟩⟩
    simp only
    split
    · exact .becomeLeader hcount halone hcommit hlast now
    · exact .idle hcount
  | _ => exact .idle (.refl n)

theorem onMatch {n₁ : RaftNode} (h : Idle n n₁) (hlast : n₁.lastLogIndex < u64Max) (peer : NodeId)
    (i : ℕ) (now : Instant) :
    Course n (((n₁.recordMatch peer i).advanceCommitIndex now).extend
      (fun n => n.replicateIfBehind peer)).1 := by
  have hlast' : (n₁.recordMatch peer i).lastLogIndex < u64Max := by
    rw [lastLogIndex, recordMatch_log]
    exact hlast
  exact applies_extend (h.trans (.recordMatch n₁ peer i)) .nothing (fun _ => Or.inl hlast') hlast'
    now (fun n => .replicateIfBehind n peer)

theorem handleAppendEntriesResponse (hlast : n.lastLogIndex < u64Max) (src : NodeId)
    (response : AppendEntriesResponse) (now : Instant) :
    Course n (n.handleAppendEntriesResponse src response now).1 := by
  have h := Idle.observeTerm n response.term now
  unfold RaftNode.handleAppendEntriesResponse
  simp only
  split
  · exact .idle h
  rename_i hle
  rw [observeTerm_eq_self hle]
  split
  · exact .idle (.refl n)
  have hack := Idle.noteLeadershipAck n src response.seq
  split
  · refine onMatch hack ?_ src _ now
    rw [lastLogIndex, noteLeadershipAck_log]
    exact hlast
  · exact .idle (hack.trans ((Idle.backOff _ _ _).trans (.replicateTo _ src)))

theorem handleInstallSnapshotResponse (hlast : n.lastLogIndex < u64Max) (src : NodeId)
    (response : InstallSnapshotResponse) (now : Instant) :
    Course n (n.handleInstallSnapshotResponse src response now).1 := by
  have h := Idle.observeTerm n response.term now
  unfold RaftNode.handleInstallSnapshotResponse
  simp only
  split
  · exact .idle h
  rename_i hle
  rw [observeTerm_eq_self hle]
  split
  · exact .idle (.refl n)
  split
  · exact .idle (.refl n)
  · exact onMatch (.refl n) hlast src _ now

theorem propose (h : Rel voters a₀ a id boot cov n) (hs : Settled n)
    (hlast : n.lastLogIndex < u64Max) (command : Bytes) (now : Instant) :
    Course n (n.propose command now).1 := by
  unfold RaftNode.propose
  split
  · exact .idle (.refl n)
  rename_i hleader
  obtain ⟨state, hr⟩ : ∃ state, n.role = .leader state := by
    unfold isLeader at hleader
    split at hleader
    · exact ⟨_, ‹_›⟩
    · exact absurd rfl hleader
  have hnext : LogIndex.next n.lastLogIndex = (a.log id).length + 1 := by
    rw [LogIndex.next, saturatingSucc_of_lt hlast, h.lastLogIndex h.inv]
  obtain ⟨a₁, h₁, hlog₁⟩ := h.appendEntry hr
    (e := LogEntry.new n.hard.currentTerm (LogIndex.next n.lastLogIndex) command)
    rfl hnext (by rintro _ ⟨⟩)
  exact applies_extend (.refl n) (.entry _ rfl)
    (fun hj => Or.inr (h.settled_append hs hr h₁ hlog₁ hj)) hlast now Idle.replicateAll

theorem proposeConfChange (h : Rel voters a₀ a id boot cov n) (hs : Settled n)
    (hlast : n.lastLogIndex < u64Max) (newVoters : OrdSet NodeId) (now : Instant) :
    Course n (n.proposeConfChange newVoters now).1 := by
  rcases n.proposeConfChange_cases newVoters now with
    ⟨e, heq⟩ | ⟨⟨state, hr⟩, hempty, hflight, hlatest, hsame, heq⟩
  · rw [heq]
    exact .idle (.refl n)
  have hnj : n.configs.active.oldVoters = none := by simpa [ClusterConfig.isJoint] using hflight
  have hf : Follows ((rules voters).active (a.log id)) (n.jointConfig newVoters).electorate := by
    rw [← h.active_electorate, ClusterConfig.electorate, hnj]
    exact Follows.joint _ _ hsame hempty
  obtain ⟨a₁, h₁, hact, hsnap, e, hlog⟩ := h.appendConfig hr hf hlatest hlast
  have hsettled := h.settled_appendJoint hs hr rfl hnj h₁ hact hlog hsnap
  rw [heq]
  exact applies_extend (.refl n) (.config _ (h.commit_le_last h.inv) fun _ => hsettled)
    (fun _ => Or.inr hsettled) hlast now Idle.replicateAll

theorem proposeAddLearner (hcommit : n.commitIndex ≤ n.lastLogIndex)
    (hlast : n.lastLogIndex < u64Max) (learner : NodeId) (now : Instant) :
    Course n (n.proposeAddLearner learner now).1 := by
  rcases n.proposeAddLearner_cases learner now with ⟨e, heq⟩ | ⟨-, hflight, -, -, heq⟩
  · rw [heq]
    exact .idle (.refl n)
  have hnj : (n.learnerConfig learner).isJoint = false := hflight
  rw [heq]
  refine applies_extend (.refl n) (.config _ hcommit fun hj => ?_) (fun hj => ?_) hlast now
    Idle.replicateAll
  · exact absurd (hnj.symm.trans hj) (by simp)
  · rw [active_appendConfig] at hj
    exact absurd (hnj.symm.trans hj) (by simp)

end Course

theorem RaftNode.run_compact_node (n : RaftNode) (data : Bytes) :
    (n.run (.op (.compact data))).node = (n.compact data).1 := by
  simp only [RaftNode.run, runOp]
  obtain ⟨m, res⟩ := n.compact data
  cases res <;> rfl

theorem RaftNode.run_installSnapshot_node (n : RaftNode) (request : InstallSnapshot) (now : Instant)
    : (n.run (.installSnapshot request now)).node = (n.handleInstallSnapshot request now).1 := by
  simp only [RaftNode.run]
  obtain ⟨m, res⟩ := n.handleInstallSnapshot request now
  cases res <;> rfl

theorem RaftNode.run_course (h : Rel voters a₀ a id boot cov n) (hs : Settled n)
    (hlast : n.lastLogIndex < u64Max) (call : Call) :
    Course n (n.run call).node ∨ (∃ data, call = .op (.compact data)) ∨
      (∃ request now, call = .appendEntries request now) ∨
        ∃ request now, call = .installSnapshot request now := by
  have halone := h.noneAlone h.inv
  have hcommit := h.commit_le_last h.inv
  have hofOutcome : ∀ {r : Outcome}, Course n r.1 → Course n (Effect.ofOutcome r).node := by
    rintro ⟨m, res⟩ hc
    cases res <;> exact hc
  cases call with
  | op op =>
    cases op with
    | tick now => exact .inl (hofOutcome (.tick halone hcommit hlast now))
    | propose command now => exact .inl (hofOutcome (.propose h hs hlast command now))
    | startRead now =>
      have hread : Course n (n.startRead now).1 := .idle (.startRead n now)
      refine .inl ?_
      simp only [RaftNode.run, runOp]
      generalize n.startRead now = r at hread
      obtain ⟨m, res⟩ := r
      cases res <;> exact hread
    | drainReadResults => exact .inl (.idle (.of_role rfl rfl rfl rfl rfl))
    | proposeConfChange newVoters now =>
      exact .inl (hofOutcome (.proposeConfChange h hs hlast newVoters now))
    | proposeAddLearner learner now =>
      exact .inl (hofOutcome (.proposeAddLearner hcommit hlast learner now))
    | compact data => exact .inr (.inl ⟨data, rfl⟩)
  | requestVote request now => exact .inl (.idle (.handleRequestVote n request now))
  | appendEntries request now => exact .inr (.inr (.inl ⟨request, now, rfl⟩))
  | installSnapshot request now => exact .inr (.inr (.inr ⟨request, now, rfl⟩))
  | requestVoteResponse src response now =>
    exact .inl (hofOutcome (.handleRequestVoteResponse halone hcommit hlast src response now))
  | appendEntriesResponse src response now =>
    exact .inl (hofOutcome (.handleAppendEntriesResponse hlast src response now))
  | installSnapshotResponse src response now =>
    exact .inl (hofOutcome (.handleInstallSnapshotResponse hlast src response now))

end

/-! ## Steps of a membership change -/

/-- No step of a membership change is left undone: once a leader has committed an entry
of its term, the configuration in force is not committed yet, or it is final and the
leader is one of its voters. -/
def Completed (n : RaftNode) : Prop :=
  ∀ state, n.role = .leader state → state.termStartIndex ≤ n.commitIndex →
    n.configs.latestIndex ≤ n.commitIndex →
      n.configs.active.isJoint = false ∧ n.id ∈ n.configs.active.voters

namespace Completed

theorem of_not_leader (h : ∀ state, n.role ≠ .leader state) : Completed n :=
  fun state hr => absurd hr (h state)

theorem of_idle (h : Completed n) (hi : Idle n n') : Completed n' := by
  intro state' hr' hstart hlatest
  obtain ⟨state, hr, hterm⟩ := hi.office hr'
  rw [hi.commit, hterm] at hstart
  rw [hi.configs, hi.commit] at hlatest
  rw [hi.configs, hi.id]
  exact h state hr hstart hlatest

theorem appendConfig (c : ClusterConfig) (hcommit : n.commitIndex ≤ n.lastLogIndex)
    (hlast : n.lastLogIndex < u64Max) : Completed (n.appendConfig c) := by
  intro state hr _ hlatest
  have hindex : (n.appendConfig c).configs.latestIndex = n.lastLogIndex + 1 := by
    unfold RaftNode.appendConfig refreshLeaderState
    simp only
    split <;> simp [ConfigTracker.onAppend, ConfigTracker.latestIndex, LogIndex.next,
      saturatingSucc_of_lt hlast]
  rw [hindex, (appendConfig_memory n c).2.2] at hlatest
  omega

theorem afterCommitConfigActions {advance : RaftNode → Outcome}
    (hroom : n.configs.active.isJoint = true →
      n.commitIndex ≤ n.lastLogIndex ∧ n.lastLogIndex < u64Max)
    (hadv : ∀ n', Completed n' → n'.configs.active.isJoint = false → Completed (advance n').1)
    (now : Instant) : Completed (RaftNode.afterCommitConfigActions advance n now).1 := by
  unfold RaftNode.afterCommitConfigActions
  split
  · rename_i hl
    refine of_not_leader fun state hr => ?_
    have hrole : n.role = .leader state := hr
    simp [isLeader, hrole] at hl
  split
  · rename_i hlatest
    intro state hr _ hle
    exact absurd hle (Nat.not_le.2 hlatest)
  simp only
  split
  · rename_i hj
    obtain ⟨hcommit, hlast⟩ := hroom hj
    have hnext := hadv _ (appendConfig
      { voters := n.configs.active.voters, oldVoters := none
        learners := n.configs.active.learners } hcommit hlast)
      (by rw [active_appendConfig]; rfl)
    exact hnext.of_idle (.extend _ Idle.replicateAll)
  rename_i hj
  split
  · obtain ⟨results, hr⟩ := n.stepDownToFollower_eq
    rw [hr]
    exact of_not_leader (by simp [RaftNode.armElectionTimer])
  · rename_i hvoter
    exact fun _ _ _ _ => ⟨by simpa using hj, not_not.1 hvoter⟩

theorem advanceCommitIndexIn (h : Completed n) (hroom : Room n) (calls : ℕ) (now : Instant) :
    Completed (RaftNode.advanceCommitIndexIn calls n now).1 := by
  induction calls generalizing n with
  | zero => exact h
  | succ calls ih =>
    rw [RaftNode.advanceCommitIndexIn]
    cases hr : n.role with
    | leader state =>
      obtain ⟨hfound, -⟩ := findCommit_spec n state n.lastLogIndex
      simp only
      split
      · exact h
      rename_i hmoved
      obtain ⟨hlt, hle, hcan⟩ := hfound.resolve_left hmoved
      refine afterCommitConfigActions (fun hj => ⟨hle, ?_⟩) (fun n' hn' hj => ?_) now
      · rcases hroom hj with hroom | hset
        · exact hroom
        · exact absurd (hset state hr _ hlt hle) (by simp [hcan])
      · exact ih hn' fun hj' => absurd (hj.symm.trans hj') (by simp)
    | _ => exact h

theorem of_prepared {n₁ : RaftNode} (h : Completed n₁) (hp : Prepared n₁ m)
    (hlast : n₁.lastLogIndex < u64Max) : Completed m := by
  cases hp with
  | nothing => exact h
  | office now hcommit =>
    -- a new leader has not committed an entry of its term
    rintro _ ⟨⟩ hstart
    have hterm : n₁.freshLeaderState.termStartIndex = n₁.lastLogIndex + 1 :=
      saturatingSucc_of_lt hlast
    exact absurd (hstart.trans hcommit) (by omega)
  | entry => exact h
  | config c hcommit => exact appendConfig c hcommit hlast

theorem of_course (h : Completed n) (hc : Course n n') : Completed n' := by
  cases hc with
  | idle hi => exact h.of_idle hi
  | applies before prepared room last now after =>
    have hm := (h.of_idle before).of_prepared prepared last
    exact (hm.advanceCommitIndexIn room 2 now).of_idle after

end Completed

theorem ConfigTracker.active_onCompact {t : ConfigTracker} {i : ℕ} (hbase : t.baseIndex ≤ i)
    (h : (t.onCompact i).latestIndex ≤ i) :
    t.latestIndex ≤ i ∧ (t.onCompact i).active = t.active := by
  have hnil : t.inLog.filter (fun p => decide (i < p.1)) = [] := by
    rcases eq_nil_or_concat (t.inLog.filter fun p => decide (i < p.1)) with hnil | ⟨l, p, hl⟩
    · exact hnil
    have hp : p ∈ t.inLog.filter (fun p => decide (i < p.1)) := by simp [hl]
    have hgt := of_decide_eq_true (mem_filter.1 hp).2
    simp only [latestIndex, onCompact, hl, concat_eq_append, getLast?_concat] at h
    omega
  have hle : ∀ p ∈ t.inLog, p.1 ≤ i := by
    intro p hp
    simpa using filter_eq_nil_iff.1 hnil p hp
  simp only [onCompact, active, hnil, latestIndex, configAt, getLast?_nil]
  rcases eq_nil_or_concat t.inLog with hlog | ⟨l, p, hlog⟩
  · rw [hlog]
    exact ⟨hbase, rfl⟩
  · have hlast : p.1 ≤ i := hle p (by simp [hlog])
    simp [hlog, hlast]

/-! ## Calls of a follower -/

theorem appendNewEntries_role (n : RaftNode) (entries : List LogEntry) :
    (n.appendNewEntries entries).role = n.role := by
  induction entries with
  | nil => rfl
  | cons entry rest ih =>
    unfold RaftNode.appendNewEntries
    split
    · exact ih
    split
    · split
      · exact ih
      · rfl
    · rfl

theorem acceptLeader_role (n : RaftNode) (leader : NodeId) (now : Instant) :
    (n.acceptLeader leader now).role = .follower := by
  obtain ⟨results, hr⟩ := n.stepDownToFollower_eq
  rw [RaftNode.acceptLeader, hr]
  rfl

theorem handleAppendEntries_role (n : RaftNode) (request : AppendEntries) (now : Instant) :
    Idle n (n.handleAppendEntries request now).1 ∨
      (n.handleAppendEntries request now).1.role = .follower := by
  unfold RaftNode.handleAppendEntries
  simp only
  split
  · exact .inl (.observeTerm n _ now)
  refine .inr ?_
  split
  · exact acceptLeader_role _ _ now
  · simp only [learnCommit]
    split <;> exact (appendNewEntries_role _ _).trans (acceptLeader_role _ _ now)

theorem handleInstallSnapshot_role (n : RaftNode) (request : InstallSnapshot) (now : Instant) :
    Idle n (n.handleInstallSnapshot request now).1 ∨
      (n.handleInstallSnapshot request now).1.role = .follower := by
  unfold RaftNode.handleInstallSnapshot
  simp only
  split
  · exact .inl (.observeTerm n _ now)
  split
  · exact .inl (.observeTerm n _ now)
  refine .inr ?_
  split
  · exact acceptLeader_role _ _ now
  · exact acceptLeader_role _ request.leaderId now

namespace Completed

variable {voters : OrdSet NodeId} {a₀ a : AState} {id : NodeId} {boot : ClusterConfig}
  {cov : ℕ → List LogEntry}

theorem compact (h : Completed n) (hbase : n.configs.baseIndex ≤ n.commitIndex) (data : Bytes) :
    Completed (n.compact data).1 := by
  rcases n.compact_cases data with ⟨-, e, heq⟩ | ⟨info, -, -, -, heq⟩
  · rw [heq]
    exact h
  rw [heq]
  intro state hr hstart hlatest
  obtain ⟨hold, hactive⟩ := ConfigTracker.active_onCompact hbase hlatest
  have hdone := h state hr hstart hold
  rw [← hactive] at hdone
  exact hdone

/-- **Every call completes the step it is at.** -/
theorem run (h : Completed n) (hrel : Rel voters a₀ a id boot cov n) (hs : Settled n)
    (hlast : n.lastLogIndex < u64Max) (call : Call) : Completed (n.run call).node := by
  rcases RaftNode.run_course hrel hs hlast call with
    hc | ⟨data, rfl⟩ | ⟨request, now, rfl⟩ | ⟨request, now, rfl⟩
  · exact h.of_course hc
  · have hbase : n.configs.baseIndex ≤ n.commitIndex := by
      rw [hrel.configs, hrel.commit]
      exact hrel.dur.snapshot_le
    rw [RaftNode.run_compact_node]
    exact h.compact hbase data
  · rcases handleAppendEntries_role n request now with hi | hr
    · exact h.of_idle hi
    · exact of_not_leader fun state hl => absurd (hr.symm.trans hl) (by simp)
  · rw [RaftNode.run_installSnapshot_node]
    rcases handleInstallSnapshot_role n request now with hi | hr
    · exact h.of_idle hi
    · exact of_not_leader fun state hl => absurd (hr.symm.trans hl) (by simp)

end Completed

/-! ## The calls that the commit rule makes of itself -/

/-- The calls of `advance_commit_index` and `append_config_entry` that a call of the
former makes; `none` if it has not returned when it is `depth` calls deep. -/
def nestedCalls : ℕ → RaftNode → Option ℕ
  | 0, _ => none
  | depth + 1, n =>
    match n.role with
    | .leader state =>
      let newCommit := n.findCommit state n.lastLogIndex
      if newCommit = n.commitIndex then some 0
      else
        let n := { n with commitIndex := newCommit }
        if n.commitIndex < n.configs.latestIndex then some 0
        else if n.configs.active.isJoint then
          -- `append_config_entry`, which calls `advance_commit_index`
          (nestedCalls depth (n.appendConfig
            { voters := n.configs.active.voters, oldVoters := none
              learners := n.configs.active.learners })).map (· + 2)
        else some 0
    | _ => some 0

theorem nestedCalls_of_not_joint (h : n.configs.active.isJoint = false) (depth : ℕ) :
    nestedCalls (depth + 1) n = some 0 := by
  rw [nestedCalls]
  split
  · simp only [h, Bool.false_eq_true, if_false]
    split
    · rfl
    · split <;> rfl
  · rfl

theorem nestedCalls_le (n : RaftNode) (depth : ℕ) :
    ∃ calls ≤ 2, nestedCalls (depth + 2) n = some calls := by
  rw [nestedCalls]
  split
  · simp only
    split
    · exact ⟨0, by decide, rfl⟩
    split
    · exact ⟨0, by decide, rfl⟩
    split
    · refine ⟨2, le_rfl, ?_⟩
      rw [nestedCalls_of_not_joint (by rw [active_appendConfig]; rfl)]
      rfl
    · exact ⟨0, by decide, rfl⟩
  · exact ⟨0, by decide, rfl⟩

/-! ## Configuration entries -/

/-- The configuration entries of `t'` that are not in `t` are in `l`. -/
def Adds (t t' : OrdMap ℕ LogEntry) (l : List (ℕ × LogEntry)) : Prop :=
  ∀ i e, t'.get? i = some e → e.config? ≠ none → t.get? i = some e ∨ (i, e) ∈ l

namespace Adds

variable {t t' t'' : OrdMap ℕ LogEntry} {l l' : List (ℕ × LogEntry)}

theorem refl (t : OrdMap ℕ LogEntry) : Adds t t [] := fun _ _ he _ => Or.inl he

theorem of_eq (h : t' = t) : Adds t t' [] := h ▸ refl t

theorem trans (h : Adds t t' l) (h' : Adds t' t'' l') : Adds t t'' (l ++ l') := by
  intro i e he hc
  rcases h' i e he hc with he | hl
  · exact (h i e he hc).imp_right (mem_append_left l')
  · exact .inr (mem_append_right l hl)

theorem insert (t : OrdMap ℕ LogEntry) (i : ℕ) (e : LogEntry) : Adds t (t.insert i e) [(i, e)] := by
  intro j f hf _
  rw [get?_insert] at hf
  split at hf
  · rename_i hj
    cases hf
    exact .inr (by rw [hj]; exact mem_singleton_self _)
  · exact .inl hf

theorem insert_plain (t : OrdMap ℕ LogEntry) (i : ℕ) {e : LogEntry} (he : e.config? = none) :
    Adds t (t.insert i e) [] := by
  intro j f hf hc
  rw [get?_insert] at hf
  split at hf
  · cases hf
    exact absurd he hc
  · exact .inl hf

theorem filter (t : OrdMap ℕ LogEntry) (p : ℕ → LogEntry → Bool) : Adds t (t.filter p) [] := by
  intro i e he _
  rw [get?_filter] at he
  exact .inl (Option.filter_eq_some_iff.1 he).1

theorem advance_of_not_joint (h : n.configs.active.isJoint = false) (calls : ℕ) (now : Instant) :
    (RaftNode.advanceCommitIndexIn calls n now).1.log = n.log := by
  cases calls with
  | zero => rfl
  | succ =>
    rw [RaftNode.advanceCommitIndexIn]
    split
    · simp only
      split
      · rfl
      unfold RaftNode.afterCommitConfigActions
      split
      · rfl
      split
      · rfl
      simp only [h, Bool.false_eq_true, if_false]
      split
      · obtain ⟨results, hr⟩ := stepDownToFollower_eq
          { n with commitIndex := n.findCommit _ n.lastLogIndex }
        rw [hr]
        rfl
      · rfl
    · rfl

theorem advance_of_settled (h : Settled n) (calls : ℕ) (now : Instant) :
    RaftNode.advanceCommitIndexIn calls n now = (n, .ok []) := by
  cases calls with
  | zero => rfl
  | succ =>
    rw [RaftNode.advanceCommitIndexIn]
    cases hr : n.role with
    | leader state =>
      obtain ⟨hfound, -⟩ := findCommit_spec n state n.lastLogIndex
      rcases hfound with hsame | ⟨hlt, hle, hcan⟩
      · simp only [hsame, if_true]
      · exact absurd (h state hr _ hlt hle) (by simp [hcan])
    | _ => rfl

theorem appendConfig (n : RaftNode) (c : ClusterConfig) :
    ∃ p, Adds n.log.db.log (n.appendConfig c).log.db.log [p] := by
  let index := LogIndex.next n.lastLogIndex
  refine ⟨(index, .withPayload n.hard.currentTerm index (.config c)), ?_⟩
  unfold RaftNode.appendConfig refreshLeaderState
  simp only
  split <;> exact insert _ _ _

theorem advanceCommitIndexIn (n : RaftNode) (calls : ℕ) (now : Instant) :
    ∃ l, l.length ≤ 1 ∧
      Adds n.log.db.log (RaftNode.advanceCommitIndexIn calls n now).1.log.db.log l := by
  cases calls with
  | zero => exact ⟨[], by simp, refl _⟩
  | succ calls =>
    rw [RaftNode.advanceCommitIndexIn]
    split
    · rename_i state hr
      simp only
      split
      · exact ⟨[], by simp, refl _⟩
      unfold RaftNode.afterCommitConfigActions
      split
      · exact ⟨[], by simp, refl _⟩
      split
      · exact ⟨[], by simp, refl _⟩
      simp only
      split
      · -- the nested call is made with a configuration that is not joint
        obtain ⟨p, hp⟩ := appendConfig
          { n with commitIndex := n.findCommit state n.lastLogIndex }
          { voters := n.configs.active.voters, oldVoters := none
            learners := n.configs.active.learners }
        refine ⟨[p], le_rfl, ?_⟩
        have hsent := (Idle.extend (RaftNode.advanceCommitIndexIn calls
          (RaftNode.appendConfig
            { n with commitIndex := n.findCommit state n.lastLogIndex }
            { voters := n.configs.active.voters, oldVoters := none
              learners := n.configs.active.learners }) now) Idle.replicateAll).table
        rw [advance_of_not_joint (by rw [active_appendConfig]; rfl)] at hsent
        exact hp.trans (of_eq hsent)
      · split
        · obtain ⟨results, hr'⟩ := stepDownToFollower_eq
            { n with commitIndex := n.findCommit state n.lastLogIndex }
          rw [hr']
          exact ⟨[], by simp, refl _⟩
        · exact ⟨[], by simp, refl _⟩
    · exact ⟨[], by simp, refl _⟩

theorem of_course (h : Course n n') : ∃ l, l.length ≤ 1 ∧ Adds n.log.db.log n'.log.db.log l := by
  cases h with
  | idle hi => exact ⟨[], by simp, of_eq hi.table⟩
  | @applies n₁ m _ before prepared room last now after =>
    have hbefore : Adds n.log.db.log n₁.log.db.log [] := of_eq before.table
    have hafter : Adds (m.advanceCommitIndex now).1.log.db.log n'.log.db.log [] := of_eq after.table
    have hplain : Adds n₁.log.db.log m.log.db.log [] →
        ∃ l, l.length ≤ 1 ∧ Adds n.log.db.log n'.log.db.log l := by
      intro hm
      obtain ⟨l, hl, hadv⟩ := advanceCommitIndexIn m 2 now
      exact ⟨[] ++ [] ++ l ++ [], by simpa using hl, ((hbefore.trans hm).trans hadv).trans hafter⟩
    cases prepared with
    | nothing => exact hplain (refl _)
    | office => exact hplain (insert_plain _ _ rfl)
    | entry e plain => exact hplain (insert_plain _ _ plain)
    | config c _ settled =>
      obtain ⟨p, hp⟩ := appendConfig n₁ c
      have hlog : ((n₁.appendConfig c).advanceCommitIndex now).1.log = (n₁.appendConfig c).log := by
        cases hj : c.isJoint with
        | true => rw [advanceCommitIndex, advance_of_settled (settled hj)]
        | false => exact advance_of_not_joint (by rwa [active_appendConfig]) 2 now
      rw [hlog] at hafter
      exact ⟨[] ++ [p] ++ [], by simp, (hbefore.trans hp).trans hafter⟩

theorem writeSnapshot (l : RaftLog) (info : SnapshotMeta) (data : Bytes) (wipe : Bool) :
    Adds l.db.log (l.writeSnapshot info data wipe).db.log [] := by
  rw [RaftLog.writeSnapshot, RaftLog.commit_db]
  cases wipe with
  | true => exact fun i e he => absurd he (by simp)
  | false => exact filter l.db.log fun key _ => decide (info.lastIncludedIndex < key)

theorem compact (n : RaftNode) (data : Bytes) :
    Adds n.log.db.log (n.compact data).1.log.db.log [] := by
  rcases n.compact_cases data with ⟨-, e, heq⟩ | ⟨info, -, -, -, heq⟩
  · rw [heq]
    exact refl _
  · rw [heq]
    exact writeSnapshot n.log info data false

theorem handleInstallSnapshot (n : RaftNode) (request : InstallSnapshot) (now : Instant) :
    Adds n.log.db.log (n.handleInstallSnapshot request now).1.log.db.log [] := by
  have hterm := Idle.observeTerm n request.term now
  have haccept := hterm.trans (.acceptLeader _ request.leaderId now)
  unfold RaftNode.handleInstallSnapshot
  simp only
  split
  · exact of_eq hterm.table
  split
  · exact of_eq hterm.table
  split
  · exact of_eq haccept.table
  unfold adoptSnapshot
  refine (of_eq haccept.table).trans ?_
  simp only
  split <;> exact writeSnapshot _ _ _ _

theorem appendAll (l : RaftLog) (entries : List LogEntry) :
    Adds l.db.log (l.appendAll entries).db.log (entries.map fun e => (e.index, e)) := by
  intro i e he _
  induction entries generalizing l with
  | nil => exact .inl he
  | cons entry rest ih =>
    rcases ih (l.append entry) he with hrest | hmem
    · rcases insert l.db.log entry.index entry i e hrest ‹_› with hold | hnew
      · exact .inl hold
      · exact .inr (mem_cons.2 (Or.inl (mem_singleton.1 hnew)))
    · exact .inr (mem_cons_of_mem _ hmem)

theorem mono (h : Adds t t' l) (hsub : l ⊆ l') : Adds t t' l' :=
  fun i e he hc => (h i e he hc).imp_right (hsub ·)

theorem appendNewEntries (n : RaftNode) (entries : List LogEntry) :
    Adds n.log.db.log (n.appendNewEntries entries).log.db.log
      (entries.map fun e => (e.index, e)) := by
  induction entries with
  | nil => exact refl _
  | cons entry rest ih =>
    have hrest := ih.mono (subset_cons_self (entry.index, entry) _)
    unfold RaftNode.appendNewEntries
    split
    · exact hrest
    split
    · split
      · exact hrest
      · exact (filter _ _).trans (appendAll (n.log.truncateFrom entry.index) (entry :: rest))
    · exact appendAll n.log (entry :: rest)

theorem handleAppendEntries (n : RaftNode) (request : AppendEntries) (now : Instant) :
    Adds n.log.db.log (n.handleAppendEntries request now).1.log.db.log
      (request.entries.map fun e => (e.index, e)) := by
  have hterm := Idle.observeTerm n request.term now
  have haccept := hterm.trans (.acceptLeader _ request.leaderId now)
  unfold RaftNode.handleAppendEntries
  simp only
  split
  · exact (of_eq hterm.table).mono (nil_subset _)
  split
  · exact (of_eq haccept.table).mono (nil_subset _)
  refine (of_eq haccept.table).trans ?_
  unfold learnCommit
  split <;> exact appendNewEntries _ request.entries

/-- **A call adds one configuration at most**, unless it takes over entries from a
leader. -/
theorem run {voters : OrdSet NodeId} {a₀ a : AState} {id : NodeId} {boot : ClusterConfig}
    {cov : ℕ → List LogEntry} (h : Rel voters a₀ a id boot cov n) (hs : Settled n)
    (hlast : n.lastLogIndex < u64Max) {call : Call}
    (hcall : ∀ request now, call ≠ .appendEntries request now) :
    ∃ l, l.length ≤ 1 ∧ Adds n.log.db.log (n.run call).node.log.db.log l := by
  rcases RaftNode.run_course h hs hlast call with
    hc | ⟨data, rfl⟩ | ⟨request, now, rfl⟩ | ⟨request, now, rfl⟩
  · exact of_course hc
  · rw [RaftNode.run_compact_node]
    exact ⟨[], by simp, compact n data⟩
  · exact absurd rfl (hcall request now)
  · rw [RaftNode.run_installSnapshot_node]
    exact ⟨[], by simp, handleInstallSnapshot n request now⟩

end Adds

/-- The configuration entries of `after` that are not in `before`. -/
def newConfigs (before after : OrdMap ℕ LogEntry) : List (ℕ × LogEntry) :=
  after.toList.filter fun p => p.2.config?.isSome && decide (before.get? p.1 ≠ some p.2)

theorem Adds.newConfigs_subset {t t' : OrdMap ℕ LogEntry} {l : List (ℕ × LogEntry)}
    (h : Adds t t' l) : newConfigs t t' ⊆ l := by
  intro p hp
  obtain ⟨hmem, hnew⟩ := mem_filter.1 hp
  rw [Bool.and_eq_true, decide_eq_true_eq, Option.isSome_iff_ne_none] at hnew
  exact (h p.1 p.2 (get?_eq_some.2 hmem) hnew.1).resolve_left hnew.2

theorem Adds.length_newConfigs {t t' : OrdMap ℕ LogEntry} {l : List (ℕ × LogEntry)}
    (h : Adds t t' l) : (newConfigs t t').length ≤ l.length := by
  have hnodup : (newConfigs t t').Nodup :=
    (t'.sorted.imp fun hlt heq => absurd (congrArg Prod.fst heq) hlt.ne).filter _
  exact (hnodup.subperm h.newConfigs_subset).length_le

/-! ## Every run -/

theorem Run.node_induction (r : Run) {P : RaftNode → Prop}
    (hstart : ∀ id boot db rng config now, P (withBootstrap id boot { db := db } rng config now))
    (hcall : ∀ {k id m action call origin}, r.Has k id m →
      (r.state k).resolve action = some (id, call, origin) → P m.node →
        P (m.node.begin.run call).node)
    {k : ℕ} {id : NodeId} {m : Member} (hm : r.Has k id m) : P m.node := by
  induction k generalizing id m with
  | zero =>
    obtain ⟨s, -, -, rfl⟩ := Cluster.get?_init hm
    exact hstart _ _ _ _ _ _
  | succ k ih =>
    cases he : r.events[k]? with
    | none =>
      rw [Run.Has, r.state_of_le (List.getElem?_eq_none_iff.1 he)] at hm
      exact ih hm
    | some e =>
      rw [Run.Has, r.state_succ he] at hm
      have hs := (r.state k).stepped e
      generalize (r.state k).step e = c at hs hm
      cases hs with
      | idle => exact ih hm
      | ran hr hget =>
        simp only [Cluster.runOn, get?_insert] at hm
        split at hm
        · cases hm
          exact hcall hget hr (ih hget)
        · exact ih hm
      | crashed =>
        simp only [Cluster.crashOn, get?_insert] at hm
        split at hm
        · cases hm
          exact hstart _ _ _ _ _ _
        · exact ih hm

section

variable {r : Run} {k : ℕ} {id : NodeId} {m : Member}

theorem Run.completed (hm : r.Has k id m) : Completed m.node := by
  obtain ⟨chain, hc⟩ := r.exists_refines
  refine r.node_induction (fun id boot db rng config now => ?_) (fun hm hr h => ?_) hm
  · exact Completed.of_not_leader (by simp [withBootstrap, RaftNode.armElectionTimer])
  rename_i k id m action call origin
  have hmem := hc.member hm
  have hwithin := r.within_state k (id, m) (get?_eq_some.1 hm)
  have hbegin : Completed m.node.begin := h
  exact hbegin.run (hmem.begin (hc.inv k) origin) hmem.settled hwithin.2 call

/-- **Eager commitment**: in every state of a run, a leader has committed whatever a
quorum holds of its term; and once it has committed an entry of its term, the
configuration in force, if it is committed, is final and has the leader among its
voters. -/
theorem leader_commits_eagerly (hm : r.Has k id m) {state : LeaderState}
    (hr : m.node.role = .leader state) :
    (∀ i e, m.node.commitIndex < i → m.node.log.db.get i = some e →
      e.term = m.node.hard.currentTerm →
        m.node.configs.active.hasQuorum (m.node.commitAcks state i) = false) ∧
    (state.termStartIndex ≤ m.node.commitIndex → m.node.configs.latestIndex ≤ m.node.commitIndex →
        m.node.configs.active.isJoint = false ∧ id ∈ m.node.configs.active.voters) := by
  obtain ⟨chain, hc⟩ := r.exists_refines
  have hmem := hc.member hm
  constructor
  · intro i e hi he hterm
    obtain ⟨hsnap, hentry⟩ := hmem.node.get_some he
    have hle : i ≤ m.node.lastLogIndex := by
      obtain ⟨hlt, -⟩ := List.getElem?_eq_some_iff.1 hentry
      rw [hmem.node.lastLogIndex (hc.inv k)]
      omega
    have hcannot := hmem.settled state hr i hi hle
    rw [canCommit, he, Option.map_some, Option.getD_some, hterm, decide_eq_true rfl,
      Bool.and_true] at hcannot
    exact hcannot
  · intro hstart hlatest
    have hdone := Run.completed hm state hr hstart hlatest
    rwa [hmem.node.name] at hdone

open Sample

/-- In the change of voters of the sample, `a` ends with its final configuration
committed. -/
theorem leader_commits_eagerly_sample : ∃ m state, changeRun.Has 10 Sample.a m ∧
    m.node.role = .leader state ∧ m.node.commitIndex = 3 ∧ m.node.configs.latestIndex = 3 ∧
    m.node.configs.active.isJoint = false ∧ Sample.a ∈ m.node.configs.active.voters := by
  obtain ⟨m, hm, hp⟩ := changeRun.exists_has 10 Sample.a
    (fun m => match m.node.role with
      | .leader state => decide (state.termStartIndex = 1 ∧ m.node.commitIndex = 3 ∧
          m.node.configs.latestIndex = 3)
      | _ => false) (by decide +kernel)
  cases hr : m.node.role with
  | leader state =>
    rw [hr] at hp
    obtain ⟨hstart, hcommit, hlatest⟩ := of_decide_eq_true hp
    exact ⟨m, state, hm, hr, hcommit, hlatest,
      (leader_commits_eagerly hm hr).2 (by omega) (by omega)⟩
  | _ =>
    rw [hr] at hp
    cases hp

/-- **Bounded recursion of the commit rule.**  The rule returns after at most two calls
of itself and of `append_config_entry`, so that unfolding it further changes nothing;
whatever a node of a run is asked to do applies it at most once, and appends at most one
configuration.  Only a follower that takes over entries may append more: those it has
been sent. -/
theorem commit_recursion_bounded (hm : r.Has k id m) (call : Call) :
    (∀ n now, (∃ calls ≤ 2, nestedCalls 2 n = some calls) ∧
      ∀ depth, RaftNode.advanceCommitIndexIn (depth + 2) n now = n.advanceCommitIndex now) ∧
    (Course m.node.begin (m.node.begin.run call).node ∨ (∃ data, call = .op (.compact data)) ∨
      (∃ request now, call = .appendEntries request now) ∨
        ∃ request now, call = .installSnapshot request now) ∧
    match call with
    | .appendEntries request _ =>
      ∀ p ∈ newConfigs m.node.log.db.log (m.node.begin.run call).node.log.db.log,
        p.2 ∈ request.entries
    | _ => (newConfigs m.node.log.db.log (m.node.begin.run call).node.log.db.log).length ≤ 1 := by
  obtain ⟨chain, hc⟩ := r.exists_refines
  have hmem := hc.member hm
  have hrel := hmem.begin (hc.inv k) none
  have hwithin := r.within_state k (id, m) (get?_eq_some.1 hm)
  refine ⟨fun n now =>
      ⟨nestedCalls_le n 0, fun depth => advanceCommitIndexIn_eq depth n now⟩,
    RaftNode.run_course hrel hmem.settled hwithin.2 call, ?_⟩
  have hone : (∀ request now, call ≠ .appendEntries request now) →
      (newConfigs m.node.log.db.log (m.node.begin.run call).node.log.db.log).length ≤ 1 := by
    intro hcall
    obtain ⟨l, hl, hadds⟩ := Adds.run hrel hmem.settled hwithin.2 hcall
    exact hadds.length_newConfigs.trans hl
  split
  · rename_i request now
    intro p hp
    obtain ⟨e, he, rfl⟩ := mem_map.1
      ((Adds.handleAppendEntries m.node.begin request now).newConfigs_subset hp)
    exact he
  · exact hone ‹_›

theorem commit_recursion_bounded_sample : ∃ m call, changeRun.Has 5 Sample.a m ∧
    call = .op (.proposeConfChange (OrdSet.ofList [Sample.a]) (Duration.fromMillis 1005)) ∧
    (newConfigs m.node.log.db.log (m.node.begin.run call).node.log.db.log).length ≤ 1 := by
  obtain ⟨m, hm, -⟩ := changeRun.exists_has 5 Sample.a (fun _ => true) (by decide +kernel)
  exact ⟨m, _, hm, rfl, (commit_recursion_bounded hm
    (.op (.proposeConfChange (OrdSet.ofList [Sample.a]) (Duration.fromMillis 1005)))).2.2⟩

/-- `a` is elected and adds two learners, one after the other, with the help of `b`
alone; all of it reaches `c` in one message. -/
def Sample.learnerRun : Run where
  voters := voters
  starts := starts
  events := [tick a 1000, deliver 0 1001, deliver 2 1002, deliver 3 1003, deliver 5 1004,
    .run (.op a (.proposeAddLearner d (Duration.fromMillis 1005))),
    deliver 6 1006, deliver 9 1007,
    .run (.op a (.proposeAddLearner e (Duration.fromMillis 1008))), deliver 11 1009]
  within := by decide +kernel

/-- The message to `c` that is on its way adds two configurations to a log. -/
def Sample.takesTwoConfigs (m : Member) : Bool :=
  match (learnerRun.state 9).sent[11]? with
  | some (Packet.request _ (.appendEntries id request) _) => decide (id = c ∧
      (newConfigs m.node.log.db.log
        (m.node.begin.run (.appendEntries request 0)).node.log.db.log).length = 2)
  | _ => false

/-- A follower that lags behind takes over two configurations in one call. -/
theorem two_configs_in_one_call : ∃ m request now origin, learnerRun.Has 9 c m ∧
    (learnerRun.state 9).resolve (.deliver 11 now) = some (c, .appendEntries request now, origin) ∧
    (newConfigs m.node.log.db.log
      (m.node.begin.run (.appendEntries request now)).node.log.db.log).length = 2 := by
  obtain ⟨m, hm, hp⟩ := learnerRun.exists_has 9 c takesTwoConfigs
    (by decide +kernel)
  unfold takesTwoConfigs at hp
  split at hp
  · rename_i src id request covered hsent
    obtain ⟨rfl, hlen⟩ := of_decide_eq_true hp
    exact ⟨m, request, 0, _, hm, by rw [Cluster.resolve, hsent]; rfl, hlen⟩
  · cases hp

end

end Brokkr.Raft
