import Brokkr.Raft.Refine.Relation

/-!
# Terms and votes refine the protocol

A higher term is a `bump`, a granted vote is a `grant`, a candidacy is a
`campaign` of the abstract protocol; each is one durable transaction.

* `Rel.observeTerm` — adopting a higher term.
* `Rel.handleRequestVote` — a reply that grants a vote tells of a vote cast.
* `Rel.campaign` — the first half of `startElection`.
-/

namespace Brokkr.Raft

open Consensus

variable {voters : OrdSet NodeId} {a₀ a a' : AState} {id : NodeId} {boot : ClusterConfig}
  {cov : ℕ → List LogEntry} {n m : RaftNode}

/-! ## Changes in memory only -/

theorem Settled.of_role (h : ∀ state, n.role ≠ .leader state) : Settled n :=
  fun state hs => absurd hs (h state)

namespace Rel

variable (h : Rel voters a₀ a id boot cov n)

include h

theorem volatile (hid : m.id = n.id) (hlog : m.log = n.log)
    (hhard : m.hard = n.hard) (hsnap : m.snapshot = n.snapshot)
    (hconf : m.configs = n.configs) (hcommit : m.commitIndex = n.commitIndex)
    (hrole : RoleOk a id n.log.db.snapshotIndex m.role) : Rel voters a₀ a id boot cov m where
  dur := hlog ▸ h.dur
  bootstrap := h.bootstrap
  name := hid.trans h.name
  hard := by rw [hhard, hlog, h.hard]
  snapshot := by rw [hsnap, hlog, h.snapshot]
  configs := by rw [hconf, hlog, h.configs]
  commit := hcommit.trans h.commit
  role := hlog ▸ hrole
  inv := h.inv
  steps := h.steps
  past := hlog ▸ h.past

theorem armElectionTimer (now : Instant) :
    Rel voters a₀ a id boot cov (n.armElectionTimer now) :=
  h.volatile rfl rfl rfl rfl rfl rfl h.role

theorem armHeartbeatTimer (now : Instant) :
    Rel voters a₀ a id boot cov (n.armHeartbeatTimer now) :=
  h.volatile rfl rfl rfl rfl rfl rfl h.role

theorem acceptLeader (leader : NodeId) (now : Instant) :
    Rel voters a₀ a id boot cov (n.acceptLeader leader now) ∧
      (n.acceptLeader leader now).role = .follower := by
  obtain ⟨results, hr⟩ := n.stepDownToFollower_eq
  rw [RaftNode.acceptLeader, hr]
  exact ⟨h.volatile rfl rfl rfl rfl rfl rfl trivial, rfl⟩

theorem saved {hard : HardState} (hs : Steps (rules voters) id a a')
    (hlog : m.log = n.log.saveHardState hard) (hid : m.id = n.id) (hhard : m.hard = hard)
    (hsnap : m.snapshot = n.snapshot) (hconf : m.configs = n.configs)
    (hcommit : m.commitIndex = n.commitIndex) (hterm : hard.currentTerm = a'.term id)
    (hvote : hard.votedFor = a'.vote id (a'.term id))
    (hkept : a'.log id = a.log id ∧ a'.commit id = a.commit id)
    (hrole : RoleOk a' id n.log.db.snapshotIndex m.role) : Rel voters a₀ a' id boot cov m := by
  have hdb : m.log.db = { n.log.db with hard := hard } := by
    rw [hlog]
    rfl
  refine h.next hs ?_ (Or.inr (by rw [hlog]; rfl))
  exact
    { dur :=
        { term := by rw [hdb, hterm]
          vote := by rw [hdb, hvote]
          holds := by rw [hdb, hkept.1]; exact h.dur.holds
          snapshot_le := by rw [hdb, hkept.2]; exact h.dur.snapshot_le
          covered := by rw [hdb, hkept.1]; exact h.dur.covered
          snapshot := by rw [hdb, hkept.1]; exact h.dur.snapshot }
      bootstrap := h.bootstrap
      name := hid.trans h.name
      hard := by rw [hhard, hdb]
      snapshot := by rw [hsnap, hdb, h.snapshot]; rfl
      configs := by rw [hconf, hdb, hkept.1, h.configs]; rfl
      commit := by rw [hcommit, hkept.2, h.commit]
      role := by rw [hdb]; exact hrole }

/-! ## A higher term -/

theorem vote_eq_none {t : ℕ} (ht : a.term id < t) :
    a.vote id t = none := by
  rw [Option.eq_none_iff_forall_ne_some]
  intro c hc
  exact absurd (h.inv.vote_le hc) (by omega)

/-- **Adopting a higher term.**  Either the term was not higher and nothing
happened, or the node is now a follower in it. -/
theorem observeTerm (t : ℕ) (now : Instant) :
    ((n.observeTerm t now) = (n, false) ∧ t ≤ a.term id) ∨
      ∃ a', Steps (rules voters) id a a' ∧ Rel voters a₀ a' id boot cov (n.observeTerm t now).1 ∧
        (n.observeTerm t now).2 = true ∧ a'.term id = t ∧
        (n.observeTerm t now).1.role = .follower := by
  have hterm := h.currentTerm
  by_cases ht : n.hard.currentTerm < t
  · right
    obtain ⟨results, hr⟩ := RaftNode.observeTerm_of_lt ht now
    have ht' : a.term id < t := by omega
    rw [hr]
    have hs : Steps (rules voters) id a (a.bump id t) :=
      Relation.ReflTransGen.single (Step.bump t ht')
    have hbump : (a.bump id t).term id = t := by simp [State.bump]
    have hvote : none = (a.bump id t).vote id ((a.bump id t).term id) := by
      rw [hbump]
      exact (h.vote_eq_none ht').symm
    refine ⟨a.bump id t, hs, Rel.armElectionTimer ?_ now, rfl, hbump, rfl⟩
    exact h.saved hs rfl rfl rfl rfl rfl rfl hbump.symm hvote ⟨rfl, rfl⟩ trivial
  · left
    exact ⟨RaftNode.observeTerm_of_le (Nat.not_lt.1 ht) now, by omega⟩

theorem observed (t : ℕ) (now : Instant) :
    ∃ a', Steps (rules voters) id a a' ∧ Rel voters a₀ a' id boot cov (n.observeTerm t now).1 ∧
      t ≤ a'.term id ∧ (Settled n → Settled (n.observeTerm t now).1) ∧
      ((∀ state, n.role ≠ .leader state) →
        ∀ state, (n.observeTerm t now).1.role ≠ .leader state) := by
  rcases h.observeTerm t now with ⟨heq, ht⟩ | ⟨a', hs, hr, -, ht, hrole⟩
  · rw [heq]
    exact ⟨a, Relation.ReflTransGen.refl, h, ht, fun hs => hs, fun hr => hr⟩
  refine ⟨a', hs, hr, ht.ge, fun _ => Settled.of_role ?_, fun _ => ?_⟩ <;>
  · rw [hrole]
    simp

/-! ## Votes -/

/-- The reply to a `RequestVote` tells of the vote. -/
def VoteReplyOk (a : AState) (id : NodeId) (request : RequestVote)
    (response : RequestVoteResponse) : Prop :=
  response.voteGranted = true → a.vote id response.term = some request.candidateId

theorem upToDate {request : RequestVote} {l : List LogEntry}
    (hi : request.lastLogIndex = l.length) (ht : request.lastLogTerm = (rules voters).lastTerm l)
    (hu : n.candidateIsUpToDate request.lastLogTerm request.lastLogIndex = true) :
    (rules voters).UpToDate l (a.log id) := by
  simp only [RaftNode.candidateIsUpToDate, h.lastIndexAndTerm h.inv, hi, ht, Bool.or_eq_true,
    Bool.and_eq_true, decide_eq_true_eq] at hu
  exact hu

/-- **Granting a vote.** -/
theorem grantVote {c : NodeId} {l : List LogEntry}
    (hc : a.cand c (a.term id) = some l) (hu : (rules voters).UpToDate l (a.log id))
    (hfree : n.freeToVote c = true) (hl : ∀ state, n.role ≠ .leader state) (now : Instant) :
    ∃ a', Rel voters a₀ a' id boot cov (n.grantVote c now) ∧ a'.vote id (a.term id) = some c := by
  suffices hex : ∃ a', Rel voters a₀ a' id boot cov { n with
      hard := n.hard.votingFor c, log := n.log.saveHardState (n.hard.votingFor c) } ∧
      a'.vote id (a.term id) = some c by
    obtain ⟨a', h', hv⟩ := hex
    exact ⟨a', h'.armElectionTimer now, hv⟩
  have hvote : n.hard.votedFor = a.vote id (a.term id) := by rw [h.hard, h.dur.vote]
  cases hv : n.hard.votedFor with
  | none =>
    rw [hv] at hvote
    have hstep : Step (rules voters) id a (a.castVote id c) := Step.grant c l hvote.symm hc hu
    have hg : Grows a (a.castVote id c) := hstep.grows h.inv
    have hself : (a.castVote id c).vote id (a.term id) = some c := by simp [State.castVote]
    have hrole : RoleOk (a.castVote id c) id n.log.db.snapshotIndex n.role := by
      have hr := h.role
      cases hn : n.role with
      | follower => trivial
      | candidate =>
        rw [hn] at hr
        exact ⟨hr.cand, hr.notElected, fun v hv => hg.vote (hr.votes v hv)⟩
      | leader state => exact absurd hn (hl state)
    exact ⟨a.castVote id c, h.saved (Relation.ReflTransGen.single hstep) rfl rfl rfl rfl rfl rfl
      h.currentTerm hself.symm ⟨rfl, rfl⟩ hrole, hself⟩
  | some voted =>
    -- the vote was cast before: the same row is written again
    have hvc : voted = c := by simpa [RaftNode.freeToVote, hv] using hfree
    rw [hv, hvc] at hvote
    exact ⟨a, h.saved Relation.ReflTransGen.refl rfl rfl rfl rfl rfl rfl h.currentTerm hvote
      ⟨rfl, rfl⟩ h.role, hvote.symm⟩

/-- **An inbound `RequestVote`.** -/
theorem handleRequestVote (hs : Settled n) {src : NodeId}
    {request : RequestVote} (hm : VoteRequestOk voters a src request) (now : Instant) :
    ∃ a', Rel voters a₀ a' id boot cov (n.handleRequestVote request now).1 ∧
      Settled (n.handleRequestVote request now).1 ∧
      VoteReplyOk a' id request (n.handleRequestVote request now).2 := by
  by_cases hcur : n.leaderIsCurrent now = true
  · simp only [RaftNode.handleRequestVote, if_pos hcur]
    exact ⟨a, h, hs, fun hv => absurd hv (by simp)⟩
  -- a leader always believes in a current leader
  have hnl : ∀ state, n.role ≠ .leader state := by
    intro state hr
    exact hcur (by simp [RaftNode.leaderIsCurrent, RaftNode.isLeader, hr])
  obtain ⟨a₁, hs₁, h₁, hterm, -, hnl₁⟩ := h.observed request.term now
  have hg := hs₁.grows h.inv
  have hnl₁ := hnl₁ hnl
  simp only [RaftNode.handleRequestVote, if_neg hcur]
  generalize (n.observeTerm request.term now).1 = n₁ at h₁ hnl₁
  by_cases hstale : request.term < n₁.hard.currentTerm
  · rw [if_pos hstale]
    exact ⟨a₁, h₁, Settled.of_role hnl₁, fun hv => absurd hv (by simp)⟩
  rw [if_neg hstale]
  have heq : request.term = a₁.term id := by
    have := h₁.currentTerm
    omega
  split
  · rename_i hgrant
    rw [Bool.and_eq_true] at hgrant
    obtain ⟨l, hl, hli, hlt⟩ := hm.cand
    have hcand : a₁.cand request.candidateId (a₁.term id) = some l := by
      rw [hm.sender, ← heq]
      exact hg.cand hl
    obtain ⟨a₂, h₂, hvote₂⟩ := h₁.grantVote hcand (h₁.upToDate hli hlt hgrant.2) hgrant.1 hnl₁ now
    refine ⟨a₂, h₂, Settled.of_role hnl₁, fun _ => ?_⟩
    rw [h₁.currentTerm]
    exact hvote₂
  · exact ⟨a₁, h₁, Settled.of_role hnl₁, fun hv => absurd hv (by simp)⟩

/-! ## Candidacies -/

/-- **The first half of `startElection`**: a later term, a vote for oneself and
a candidacy with the log as it is. -/
theorem campaign {t : ℕ} (ht : a.term id < t)
    (hlog : m.log = n.log.saveHardState { currentTerm := t, votedFor := some id })
    (hid : m.id = n.id) (hhard : m.hard = { currentTerm := t, votedFor := some id })
    (hsnap : m.snapshot = n.snapshot) (hconf : m.configs = n.configs)
    (hcommit : m.commitIndex = n.commitIndex) (hrole : m.role = .candidate (OrdSet.singleton id)) :
    ∃ a', Rel voters a₀ a' id boot cov m ∧ a'.term id = t ∧ a'.cand id t = some (a'.log id) := by
  have hstep : Step (rules voters) id a (((a.bump id t).castVote id id).stand id) :=
    Step.campaign t ht
  set b := ((a.bump id t).castVote id id).stand id with hb
  have hterm : b.term id = t := by simp [hb, State.bump, State.castVote, State.stand]
  have hvote : b.vote id t = some id := by
    simp [hb, State.bump, State.castVote, State.stand]
  have hcand : b.cand id t = some (b.log id) := by
    simp [hb, State.bump, State.castVote, State.stand]
  have hleader : b.leader t ≠ some id := by
    intro hl
    have := h.inv.cand_le (h.inv.leader_cand (show a.leader t = some id from hl))
    omega
  refine ⟨b, h.saved (Relation.ReflTransGen.single hstep) hlog hid hhard hsnap hconf hcommit
    hterm.symm (hterm.symm ▸ hvote.symm) ⟨rfl, rfl⟩ ?_, hterm, hcand⟩
  rw [hrole]
  refine ⟨hterm.symm ▸ hcand, hterm.symm ▸ hleader, fun v hv => ?_⟩
  rw [OrdSet.mem_singleton.1 hv, hterm]
  exact hvote

end Rel

end Brokkr.Raft
