import Brokkr.Raft.Reads.Calls
import Brokkr.Raft.Safety

/-!
# Linearizable reads

A read is registered under a ticket with the index it must observe, and resolves
once a quorum has answered messages stamped after it.  A reply stamped after the
read was sent after it, unless it answers a message of an earlier term: stamps
start over with every election, and a rejection echoes the stamp of the message
it rejects together with the term of the node that rejects it.

* `ReadsOk` — stamps and tickets are handed out in order.
* `Tracks` — what is known of one read from its registration on.
* `read_sees_committed` — a read that resolves observes everything committed
  before it was registered, if no reply to a message of an earlier term is
  credited to a read.
* `read_misses_committed` — a run in which one is, and the read is stale.
-/

namespace Brokkr.Raft

open OrdMap

open RaftNode

open Consensus List

variable {state : LeaderState} {src : NodeId} {response : AppendEntriesResponse}
  {voters : OrdSet NodeId}

/-! ## Replies -/

theorem hard_appendNewEntries (n : RaftNode) (entries : List LogEntry) :
    (n.appendNewEntries entries).hard = n.hard := by
  induction entries with
  | nil => rfl
  | cons entry rest ih =>
    unfold appendNewEntries
    split
    · exact ih
    split
    · split
      · exact ih
      · rfl
    · rfl

theorem hard_learnCommit (n : RaftNode) (i j : ℕ) : (n.learnCommit i j).hard = n.hard := by
  unfold learnCommit
  split <;> rfl

theorem hard_acceptLeader (n : RaftNode) (leader : NodeId) (now : Instant) :
    (n.acceptLeader leader now).hard = n.hard := by
  obtain ⟨results, hr⟩ := n.stepDownToFollower_eq
  rw [acceptLeader, hr]
  rfl

theorem handleAppendEntries_reply (n : RaftNode) (request : AppendEntries) (now : Instant) :
    (n.handleAppendEntries request now).2.seq = request.seq ∧
      (n.handleAppendEntries request now).2.term =
        (n.handleAppendEntries request now).1.hard.currentTerm := by
  unfold handleAppendEntries
  simp only
  split
  · exact ⟨rfl, rfl⟩
  split
  · exact ⟨rfl, by rw [hard_acceptLeader]⟩
  · exact ⟨rfl, by rw [hard_learnCommit, hard_appendNewEntries, hard_acceptLeader]; rfl⟩

/-! ## Stamps and tickets -/

/-- Tickets are handed out in order. -/
structure Tickets (n : RaftNode) : Prop where
  pending : ∀ {state}, n.role = .leader state → ∀ read ∈ state.pendingReads, read.id ≤ n.readSeq
  results : ∀ {ticket i}, (ticket, .ok i) ∈ n.readResults → ticket ≤ n.readSeq

/-- Stamps and tickets are handed out in order. -/
structure ReadsOk (c : Cluster) : Prop where
  replied : ∀ {src dst request response}, .appendReply src dst request response ∈ c.sent →
    response.seq = request.seq ∧
      ∃ peer covered, .request dst (.appendEntries peer request) covered ∈ c.sent
  stamped : ∀ {id m state}, c.members.get? id = some m → m.node.role = .leader state →
    ∀ {peer request covered}, .request id (.appendEntries peer request) covered ∈ c.sent →
      request.term = m.node.hard.currentTerm → request.seq ≤ state.aeSeq
  tickets : ∀ {id m}, c.members.get? id = some m → Tickets m.node

section

variable {n n' : RaftNode} {call : Call} {effect : Effect}

theorem Tickets.same (h : Tickets n) (hs : SameReads n n') : Tickets n' where
  pending := by
    intro state' hr read hread
    obtain ⟨state, hr', -, hp, -⟩ := hs.leader hr
    rw [hs.readSeq]
    exact h.pending hr' read (hp ▸ hread)
  results hm := hs.readSeq ▸ h.results (hs.results hm)

theorem noteLeadershipAck_of_leader (hr : n.role = .leader state) (src : NodeId) (seq : ℕ) :
    n.noteLeadershipAck src seq = { n with
      role := .leader { state with
        pendingReads := (state.pendingReads.map (creditRead src seq)).filter
          (fun read => !n.configs.active.hasQuorum read.acks) }
      readResults := n.readResults ++ ((state.pendingReads.map (creditRead src seq)).filter
          (fun read => n.configs.active.hasQuorum read.acks)).map
            (fun read => (read.id, .ok read.readIndex)) } := by
  simp only [noteLeadershipAck, hr]

theorem creditRead_id (src : NodeId) (seq : ℕ) (read : PendingRead) :
    (creditRead src seq read).id = read.id := by
  unfold creditRead
  split <;> rfl

theorem Tickets.credit (h : Tickets n) (hr : n.role = .leader state) (src : NodeId) (seq : ℕ) :
    Tickets (n.noteLeadershipAck src seq) := by
  have hid : ∀ read ∈ state.pendingReads.map (creditRead src seq), read.id ≤ n.readSeq := by
    intro read hread
    obtain ⟨read₀, h₀, rfl⟩ := mem_map.1 hread
    rw [creditRead_id]
    exact h.pending hr read₀ h₀
  rw [noteLeadershipAck_of_leader hr]
  refine ⟨?_, ?_⟩
  · rintro _ ⟨⟩ read hread
    exact hid read (mem_filter.1 hread).1
  intro ticket i hm
  rcases mem_append.1 hm with hm | hm
  · exact h.results hm
  obtain ⟨read, hread, heq⟩ := mem_map.1 hm
  cases heq
  exact hid read (mem_filter.1 hread).1

theorem Opening.tickets {n₀ : RaftNode} (h : Opening n call n₀) (ht : Tickets n) :
    Tickets n₀ := by
  cases h with
  | nothing => exact ht
  | elected state role reads results readSeq =>
    refine ⟨?_, fun hm => readSeq ▸ ht.results (results ▸ hm)⟩
    intro state' hr read hread
    obtain rfl : state = state' := Role.leader.inj (role.symm.trans hr)
    rw [reads] at hread
    exact absurd hread not_mem_nil
  | registered state role =>
    refine ⟨?_, fun hm => (ht.results hm).trans (Nat.le_succ _)⟩
    rintro _ ⟨⟩ read hread
    rcases mem_append.1 hread with hread | hread
    · exact (ht.pending role read hread).trans (Nat.le_succ _)
    · exact (congrArg PendingRead.id (mem_singleton.1 hread)).le
  | answered =>
    refine ⟨fun hr read hread => (ht.pending hr read hread).trans (Nat.le_succ _), ?_⟩
    intro ticket i hm
    rcases mem_append.1 hm with hm | hm
    · exact (ht.results hm).trans (Nat.le_succ _)
    · cases mem_singleton.1 hm
      exact le_rfl
  | credited state role => exact ht.credit role _ _

theorem Opening.leader {n₀ : RaftNode} (h : Opening n call n₀) {state₀ : LeaderState}
    (hr : n₀.role = .leader state₀) :
    (∃ state, n.role = .leader state ∧ n₀.hard.currentTerm = n.hard.currentTerm ∧
      state.aeSeq ≤ state₀.aeSeq) ∨
    n.hard.currentTerm < n₀.hard.currentTerm ∨
    n₀.hard.currentTerm = n.hard.currentTerm ∧ ∃ votes, n.role = .candidate votes := by
  cases h with
  | elected state role reads results readSeq term => exact .inr term
  | registered state role =>
    cases hr
    exact .inl ⟨state, role, rfl, le_rfl⟩
  | credited state role =>
    rw [noteLeadershipAck_of_leader role] at hr ⊢
    cases hr
    exact .inl ⟨state, role, rfl, le_rfl⟩
  | _ => exact .inl ⟨state₀, hr, rfl, le_rfl⟩

theorem CallEffect.tickets (h : CallEffect n call effect) (ht : Tickets n) :
    Tickets effect.node := by
  obtain ⟨n₀, hopen, hsame⟩ := h.reads
  exact (hopen.tickets ht).same hsame

theorem CallEffect.leader (h : CallEffect n call effect) {state' : LeaderState}
    (hr : effect.node.role = .leader state') :
    (∃ state, n.role = .leader state ∧ effect.node.hard.currentTerm = n.hard.currentTerm ∧
      state.aeSeq ≤ state'.aeSeq) ∨
    n.hard.currentTerm < effect.node.hard.currentTerm ∨
    effect.node.hard.currentTerm = n.hard.currentTerm ∧ ∃ votes, n.role = .candidate votes := by
  obtain ⟨n₀, hopen, hsame⟩ := h.reads
  obtain ⟨state₀, hr₀, hterm, -, hle⟩ := hsame.leader hr
  rw [hterm]
  refine (hopen.leader hr₀).imp_left ?_
  rintro ⟨state, hr', hterm', hle'⟩
  exact ⟨state, hr', hterm', hle'.trans hle⟩

end

/-! ## Stamps and tickets along a run -/

section

variable {a a' : AState} {c : Cluster} {id : NodeId} {m : Member} {action : Action} {call : Call}
  {origin : Option Packet}

theorem appendReply_of_runOn (hr : c.resolve action = some (id, call, origin)) {dst : NodeId}
    {request : AppendEntries}
    (hp : .appendReply src dst request response ∈ (c.runOn id m call origin).sent) :
    .appendReply src dst request response ∈ c.sent ∨ src = id ∧ response.seq = request.seq ∧
        response.term = (m.node.begin.run call).node.hard.currentTerm ∧
        ∃ peer covered, .request dst (.appendEntries peer request) covered ∈ c.sent := by
  rcases mem_append.1 hp with hp | hp
  · rcases mem_append.1 hp with hp | hp
    · exact .inl hp
    · obtain ⟨out, -, hout⟩ := mem_map.1 hp
      cases hout
  refine .inr ?_
  cases action with
  | op =>
    cases hr
    exact absurd hp not_mem_nil
  | deliver k now =>
    obtain ⟨p, hk, hcall⟩ := Option.map_eq_some_iff.1 hr
    obtain ⟨rfl, rfl, rfl⟩ : (p.call now).1 = id ∧ (p.call now).2 = call ∧
      some p = origin := by simpa using hcall
    have hsent := mem_of_getElem? hk
    cases hrep : (m.node.begin.run (p.call now).2).reply with
    | none =>
      rw [hrep] at hp
      exact absurd hp not_mem_nil
    | some =>
      rw [hrep] at hp
      obtain ⟨rfl, rfl, peer, covered, rfl⟩ := Packet.appendReply_mem_replyWith hp
      obtain ⟨hseq, hterm⟩ := handleAppendEntries_reply m.node.begin request now
      cases hrep
      exact ⟨rfl, hseq, hterm, peer, covered, hsent⟩

theorem not_elected_before (h : MemberRel voters a id m) (hi : Inv (rules voters) a) {t : ℕ}
    (ht : m.node.hard.currentTerm < t ∨
      t = m.node.hard.currentTerm ∧ ∃ votes, m.node.role = .candidate votes) :
    a.leader t ≠ some id := by
  intro hl
  rw [h.node.currentTerm] at ht
  rcases ht with hlt | ⟨rfl, votes, hr⟩
  · have := hi.cand_le (hi.leader_cand hl)
    omega
  have hrole := h.node.role
  rw [hr] at hrole
  exact hrole.notElected hl

theorem ReadsOk.runOn (h : ReadsOk c) (hc : ClusterRel a c) (hw : c.Within)
    (hr : c.resolve action = some (id, call, origin)) (hm : c.members.get? id = some m) :
    ReadsOk (c.runOn id m call origin) := by
  obtain ⟨hterm, -⟩ := hw (id, m) (get?_eq_some.1 hm)
  have heff := m.node.begin.run_effect hterm call
  have hbegin : Tickets m.node.begin := ⟨(h.tickets hm).pending, (h.tickets hm).results⟩
  refine ⟨?_, ?_, ?_⟩
  · intro src dst request response hp
    rcases appendReply_of_runOn hr hp with hp | ⟨-, hseq, -, peer, covered, hsent⟩
    · obtain ⟨hseq, peer, covered, hsent⟩ := h.replied hp
      exact ⟨hseq, peer, covered, mem_append_left _ (mem_append_left _ hsent)⟩
    · exact ⟨hseq, peer, covered, mem_append_left _ (mem_append_left _ hsent)⟩
  · intro id' m' state' hget hrole peer request covered hp hreq
    rcases of_get?_insert hget with ⟨rfl, rfl⟩ | ⟨hne, hget'⟩
    · rcases Cluster.request_of_runOn hp with hp | ⟨-, hout, -⟩
      · rcases heff.leader hrole with ⟨state, hr', ht, hle⟩ | helected
        · exact (h.stamped hm hr' hp (hreq.trans ht)).trans hle
        · have hlead := (hc.sent _ hp).leader
          rw [hreq] at hlead
          exact absurd hlead (not_elected_before (hc.members hm) hc.inv helected)
      · exact heff.sent.stamp hrole hout
    · rcases Cluster.request_of_runOn hp with hp | ⟨heq, -⟩
      · exact h.stamped hget' hrole hp hreq
      · exact absurd heq hne
  · intro id' m' hget
    rcases of_get?_insert hget with ⟨-, rfl⟩ | ⟨-, hget'⟩
    · exact heff.tickets hbegin
    · exact h.tickets hget'

theorem ReadsOk.crashOn (h : ReadsOk c) (transactions : ℕ) (rng : Rng) (config : Config)
    (now : Instant) : ReadsOk (c.crashOn id m call origin transactions rng config now) := by
  refine ⟨h.replied, ?_, ?_⟩
  · intro id' m' state' hget hrole peer request covered hp hreq
    rcases of_get?_insert hget with ⟨-, rfl⟩ | ⟨-, hget'⟩
    · cases hrole
    · exact h.stamped hget' hrole hp hreq
  intro id' m' hget
  rcases of_get?_insert hget with ⟨-, rfl⟩ | ⟨-, hget'⟩
  · exact ⟨by rintro state ⟨⟩, nofun⟩
  · exact h.tickets hget'

theorem ReadsOk.step (h : ReadsOk c) (hc : ClusterRel a c) (hw : c.Within) (e : Event) :
    ReadsOk (c.step e) := by
  have hs := c.stepped e
  generalize c.step e = c' at hs
  cases hs with
  | idle => exact h
  | ran hr hm => exact h.runOn hc hw hr hm
  | crashed hr hm transactions rng config now => exact h.crashOn transactions rng config now

theorem ReadsOk.init (voters : OrdSet NodeId) (starts : List Start) :
    ReadsOk (Cluster.init voters starts) := by
  refine ⟨nofun, nofun, ?_⟩
  intro id m hm
  obtain ⟨s, -, rfl, rfl⟩ := Cluster.get?_init hm
  exact ⟨by rintro state ⟨⟩, nofun⟩

end

/-! ## Following one read -/

/-- What is known of a read `q` of the leader of term `T`, since it was registered
in the protocol state `a₀`: everyone who has confirmed it was in no later term
then, and if it has resolved, nobody had been elected in a later term. -/
structure NodeTracks (a₀ : AState) (T : ℕ) (q : PendingRead) (n : RaftNode) : Prop where
  ticket : q.id ≤ n.readSeq
  pending : ∀ {state}, n.role = .leader state → ∀ read ∈ state.pendingReads, read.id = q.id →
    n.hard.currentTerm = T ∧ read.readIndex = q.readIndex ∧ read.confirmSeq = q.confirmSeq ∧
      ∀ v ∈ read.acks, a₀.term v ≤ T
  result : ∀ {i}, (q.id, .ok i) ∈ n.readResults → i = q.readIndex ∧ ∀ U, T < U → a₀.leader U = none

/-- The same for the cluster: a reply to a message of term `T` that carries a
stamp of the read or later comes from a node that was in no later term. -/
structure Tracks (a₀ : AState) (id : NodeId) (T : ℕ) (q : PendingRead) (c : Cluster) : Prop where
  replies : ∀ {src request response}, .appendReply src id request response ∈ c.sent →
    request.term = T → response.term = T → q.confirmSeq ≤ response.seq → a₀.term src ≤ T
  node : ∀ {m}, c.members.get? id = some m → NodeTracks a₀ T q m.node

section

variable {a₀ a a' : AState} {id : NodeId} {T : ℕ} {q : PendingRead} {n n' : RaftNode}

theorem Tickets.ne_newRead (h : Tickets n) (hr : n.role = .leader state) :
    (∀ read ∈ state.pendingReads, read.id ≠ (n.newRead state).id) ∧
      ∀ {i}, ((n.newRead state).id, .ok i) ∉ n.readResults := by
  refine ⟨fun read hread hid => ?_, fun hm => ?_⟩
  · have := h.pending hr read hread
    rw [hid] at this
    exact absurd this (Nat.not_succ_le_self _)
  · exact absurd (h.results hm) (Nat.not_succ_le_self _)

namespace NodeTracks

theorem registered (ht : Tickets n) (hr : n.role = .leader state) (hT : n.hard.currentTerm = T)
    (hacks : ∀ v ∈ (n.newRead state).acks, a₀.term v ≤ T) :
    NodeTracks a₀ T (n.newRead state) (n.withRead state) where
  ticket := le_rfl
  pending := by
    rintro _ ⟨⟩ read hread hid
    rcases mem_append.1 hread with hread | hread
    · exact absurd hid ((ht.ne_newRead hr).1 read hread)
    · obtain rfl := mem_singleton.1 hread
      exact ⟨hT, rfl, rfl, hacks⟩
  result hm := absurd hm (ht.ne_newRead hr).2

theorem answered (ht : Tickets n) (hr : n.role = .leader state)
    (hlater : ∀ U, T < U → a₀.leader U = none) :
    NodeTracks a₀ T (n.newRead state) (n.answerRead state) where
  ticket := le_rfl
  pending := by
    intro state' hr' read hread hid
    obtain rfl : state = state' := Role.leader.inj (hr.symm.trans hr')
    exact absurd hid ((ht.ne_newRead hr).1 read hread)
  result := by
    intro i hm
    rcases mem_append.1 hm with hm | hm
    · exact absurd hm (ht.ne_newRead hr).2
    · cases mem_singleton.1 hm
      exact ⟨rfl, hlater⟩

variable (h : NodeTracks a₀ T q n)

include h

theorem same (hs : SameReads n n') : NodeTracks a₀ T q n' where
  ticket := hs.readSeq ▸ h.ticket
  pending := by
    intro state' hr read hread hid
    obtain ⟨state, hr', ht, hp, -⟩ := hs.leader hr
    rw [ht]
    exact h.pending hr' read (hp ▸ hread) hid
  result hm := h.result (hs.results hm)

theorem no_reads (hr : n'.role = .leader state)
    (hp : state.pendingReads = []) (hres : n'.readResults = n.readResults)
    (hs : n'.readSeq = n.readSeq) : NodeTracks a₀ T q n' where
  ticket := hs ▸ h.ticket
  pending := by
    intro state' hr' read hread
    obtain rfl : state = state' := Role.leader.inj (hr.symm.trans hr')
    rw [hp] at hread
    exact absurd hread not_mem_nil
  result hm := h.result (hres ▸ hm)

theorem newRead_ne (state : LeaderState) :
    (n.newRead state).id ≠ q.id := by
  have := h.ticket
  simp only [newRead]
  omega

theorem withRead (hr : n.role = .leader state) :
    NodeTracks a₀ T q (n.withRead state) where
  ticket := h.ticket.trans (Nat.le_succ _)
  pending := by
    rintro _ ⟨⟩ read hread hid
    rcases mem_append.1 hread with hread | hread
    · exact h.pending hr read hread hid
    · rw [mem_singleton.1 hread] at hid
      exact absurd hid (h.newRead_ne state)
  result hm := h.result hm

theorem answerRead (state : LeaderState) :
    NodeTracks a₀ T q (n.answerRead state) where
  ticket := h.ticket.trans (Nat.le_succ _)
  pending hr := h.pending hr
  result := by
    intro i hm
    rcases mem_append.1 hm with hm | hm
    · exact h.result hm
    · exact absurd (congrArg Prod.fst (mem_singleton.1 hm)).symm (h.newRead_ne state)

theorem credit (hr : n.role = .leader state) {seq : ℕ}
    (hsrc : ∀ read ∈ state.pendingReads, read.confirmSeq ≤ seq → n.hard.currentTerm = T →
      q.confirmSeq ≤ seq → a₀.term src ≤ T)
    (hquorum : ∀ {acks}, n.hard.currentTerm = T → n.configs.active.hasQuorum acks = true →
      (∀ v ∈ acks, a₀.term v ≤ T) → ∀ U, T < U → a₀.leader U = none) :
    NodeTracks a₀ T q (n.noteLeadershipAck src seq) := by
  have hcredited : ∀ read ∈ state.pendingReads.map (creditRead src seq),
      read.id = q.id → n.hard.currentTerm = T ∧ read.readIndex = q.readIndex ∧
        read.confirmSeq = q.confirmSeq ∧ ∀ v ∈ read.acks, a₀.term v ≤ T := by
    intro read hread hid
    obtain ⟨read₀, h₀, rfl⟩ := mem_map.1 hread
    rw [creditRead_id] at hid
    obtain ⟨hT, hi, hc, hacks⟩ := h.pending hr read₀ h₀ hid
    unfold creditRead
    split
    · rename_i hseq
      refine ⟨hT, hi, hc, fun v hv => ?_⟩
      rcases OrdSet.mem_insert.1 hv with rfl | hv
      · exact hsrc read₀ h₀ hseq hT (hc ▸ hseq)
      · exact hacks v hv
    · exact ⟨hT, hi, hc, hacks⟩
  rw [noteLeadershipAck_of_leader hr]
  refine ⟨h.ticket, ?_, ?_⟩
  · rintro _ ⟨⟩ read hread hid
    exact hcredited read (mem_filter.1 hread).1 hid
  intro i hm
  rcases mem_append.1 hm with hm | hm
  · exact h.result hm
  obtain ⟨read, hread, heq⟩ := mem_map.1 hm
  obtain ⟨hmem, hq⟩ := mem_filter.1 hread
  obtain ⟨hid, hi⟩ : read.id = q.id ∧ read.readIndex = i := by simpa using heq
  obtain ⟨hT, hindex, -, hacks⟩ := hcredited read hmem hid
  exact ⟨hi ▸ hindex, hquorum hT hq hacks⟩

end NodeTracks

theorem NodeRel.no_later_leader {boot : ClusterConfig} {cov : ℕ → List LogEntry}
    (h : NodeRel voters a id boot cov n) (hi : Inv (rules voters) a) (hi₀ : Inv (rules voters) a₀)
    (hg : Grows a₀ a) (hr : n.role = .leader state) {acks : OrdSet NodeId}
    (hq : n.configs.active.hasQuorum acks = true)
    (hacks : ∀ v ∈ acks, a₀.term v ≤ n.hard.currentTerm) :
    ∀ U, n.hard.currentTerm < U → a₀.leader U = none := by
  intro U hU
  have hrole := h.role
  rw [hr] at hrole
  rw [h.currentTerm] at hacks hU
  rw [h.hasQuorum_eq, hi.leader_log hrole.elected] at hq
  exact Inv.no_later_leader hi₀ hi hg (by simp [hrole.elected])
    (A := {v | v ∈ acks}) ⟨acks, fun v hv => hv, hq⟩ hacks hU

end

/-- Does the event credit to a read a reply that answers a message of an earlier
term?  The reply carries the leader's own term, so the code takes it for an answer
to a message of this term. -/
def Cluster.creditsStale (c : Cluster) : Event → Bool
  | .run (.deliver k _) =>
    match c.sent[k]? with
    | some (.appendReply _ dst request response) =>
      match c.members.get? dst with
      | some m =>
        match m.node.role with
        | .leader state =>
          decide (response.term = m.node.hard.currentTerm) &&
            decide (request.term ≠ response.term) &&
            state.pendingReads.any (fun read => decide (read.confirmSeq ≤ response.seq))
        | _ => false
      | none => false
    | _ => false
  | _ => false

section

variable {a₀ a a' : AState} {id : NodeId} {T : ℕ} {q : PendingRead} {c : Cluster}

theorem request_term_of_not_stale {k : ℕ} {now : Instant} {request : AppendEntries} {m : Member}
    (h : c.creditsStale (.run (.deliver k now)) = false)
    (hk : c.sent[k]? = some (.appendReply src id request response))
    (hm : c.members.get? id = some m) (hr : m.node.role = .leader state)
    (ht : response.term = m.node.hard.currentTerm) {read : PendingRead}
    (hread : read ∈ state.pendingReads) (hseq : read.confirmSeq ≤ response.seq) :
    request.term = response.term := by
  simp only [Cluster.creditsStale, hk, hm, hr, ht, decide_true, Bool.true_and] at h
  by_contra hne
  rw [decide_eq_true (ht ▸ hne), Bool.true_and] at h
  have hany : state.pendingReads.any (fun read => decide (read.confirmSeq ≤ response.seq)) =
      true := any_eq_true.2 ⟨read, hread, decide_eq_true hseq⟩
  rw [hany] at h
  cases h

/-- **One event** keeps what is known of the read. -/
theorem Tracks.step {e : Event} (h : Tracks a₀ id T q c) (hc : ClusterRel a c)
    (hc' : ClusterRel a' (c.step e)) (hw : c.Within) (hi₀ : Inv (rules c.voters) a₀)
    (hg₀ : Grows a₀ a) (hg : Grows a a') (hup : c.restarts id e = false)
    (hstale : c.creditsStale e = false) : Tracks a₀ id T q (c.step e) := by
  have hs := c.stepped e
  generalize c.step e = c' at hs hc'
  cases hs with
  | idle => exact h
  | @ran action id' m call origin hr hm =>
    have hself : (c.runOn id' m call origin).members.get? id' = _ := get?_insert_self _ _ _
    refine ⟨?_, ?_⟩
    · intro src request response hp hreq hres hseq
      rcases appendReply_of_runOn hr hp with hp | ⟨rfl, -, hterm, -⟩
      · exact h.replies hp hreq hres hseq
      -- the sender is in term `T` now, so it was in no later term then
      have hnow := (hc'.members hself).node.currentTerm
      rw [← hres, hterm]
      exact ((hg₀.trans hg).term src).trans hnow.ge
    intro m' hget
    rcases of_get?_insert hget with ⟨rfl, rfl⟩ | ⟨-, hget'⟩
    · obtain ⟨hterm, -⟩ := hw (id, m) (get?_eq_some.1 hm)
      have htr := h.node hm
      have hbegin : NodeTracks a₀ T q m.node.begin := ⟨htr.ticket, htr.pending, htr.result⟩
      obtain ⟨n₀, hopen, hsame⟩ := (m.node.begin.run_effect hterm call).reads
      refine NodeTracks.same ?_ hsame
      cases hopen with
      | nothing => exact hbegin
      | elected state role reads results readSeq =>
        exact hbegin.no_reads role reads results readSeq
      | registered state role => exact hbegin.withRead role
      | answered state => exact hbegin.answerRead state
      | @credited src response now state role term =>
        obtain ⟨k, request, rfl, hk⟩ := Cluster.of_resolve_appendEntriesResponse hr
        refine hbegin.credit role ?_ ?_
        · intro read hread hseq hT hconf
          have hreq := request_term_of_not_stale hstale hk hm role term hread hseq
          have hresp : response.term = T := term.trans hT
          exact h.replies (mem_of_getElem? hk) (hreq.trans hresp) hresp hconf
        intro acks hT hq hacks
        have hnode := (hc.members hm).node
        subst hT
        exact hnode.no_later_leader hc.inv hi₀ hg₀ role hq hacks
    · exact h.node hget'
  | @crashed action id' m call origin hr =>
    refine ⟨h.replies, ?_⟩
    intro m' hget
    have hget' : (c.members.insert id' _).get? id = some m' := hget
    rw [get?_insert] at hget'
    split at hget'
    · rename_i heq
      obtain rfl := heq
      simp [Cluster.restarts, hr] at hup
    · exact h.node hget'

theorem NodeRel.committed_le_readIndex {boot : ClusterConfig} {cov : ℕ → List LogEntry}
    {n : RaftNode} (h : NodeRel voters a id boot cov n) (hi : Inv (rules voters) a)
    (hr : n.role = .leader state) (hlater : ∀ U, n.hard.currentTerm < U → a.leader U = none) {t : ℕ}
    {p : List LogEntry} (hp : a.CommittedPrefix t p) :
    p.length ≤ (n.newRead state).readIndex := by
  have hrole := h.role
  rw [hr] at hrole
  have hread : (n.newRead state).readIndex = max state.termStartIndex n.commitIndex := rfl
  rcases hp with rfl | ⟨u, k, -, hc, hp⟩
  · exact Nat.zero_le _
  have hu : u ≤ n.hard.currentTerm := by
    by_contra hlt
    exact hi.committed_leader hc (hlater u (by omega))
  rw [h.currentTerm] at hu
  rcases hu.lt_or_eq with hlt | rfl
  · have hpre := hp.trans (hi.complete hc hlt (by simp [hrole.elected]))
    have hle := hpre.length_le
    have hstart := hrole.start
    omega
  have hle := hp.length_le
  have hk := hrole.committed hc
  have hcommit := h.commit
  rw [length_take] at hle
  omega

end

/-! ## Reads in a run -/

theorem Run.readsOk (r : Run) (k : ℕ) : ReadsOk (r.state k) := by
  obtain ⟨chain, hc⟩ := r.exists_refines
  induction k with
  | zero => exact ReadsOk.init r.voters r.starts
  | succ k ih =>
    cases he : r.events[k]? with
    | none =>
      rw [r.state_of_le (List.getElem?_eq_none_iff.1 he)]
      exact ih
    | some e =>
      obtain ⟨hlt, -⟩ := List.getElem?_eq_some_iff.1 he
      rw [r.state_succ he]
      exact ih.step (hc.rel k) (r.within k hlt.le) e

/-- The event after moment `k` registers a read on node `id`. -/
def Run.Registers (r : Run) (k : ℕ) (id : NodeId) (ticket : ℕ) : Prop :=
  ∃ now m, r.events[k]? = some (.run (.op id (.startRead now))) ∧ r.Has k id m ∧
    (m.node.begin.startRead now).2.map Prod.fst = .ok ticket

/-- At moment `k` the read of a ticket has resolved on node `id` with index `i`. -/
def Run.Resolved (r : Run) (k : ℕ) (id : NodeId) (ticket i : ℕ) : Prop :=
  ∃ m, r.Has k id m ∧ (ticket, .ok i) ∈ m.node.readResults

section

variable {r : Run} {chain : ℕ → AState} {k k' : ℕ} {id : NodeId} {ticket i : ℕ} {m : Member}

theorem Run.Registers.leader (h : r.Registers k id ticket) :
    ∃ now m state, r.Has k id m ∧ m.node.role = .leader state ∧ (m.node.newRead state).id = ticket ∧
      r.state (k + 1) = (r.state k).runOn id m (.op (.startRead now)) none := by
  obtain ⟨now, m, he, hm, hok⟩ := h
  have hstep : r.state (k + 1) = (r.state k).runOn id m (.op (.startRead now)) none := by
    rw [r.state_succ he]
    simp only [Cluster.step, Cluster.resolve]
    rw [show (r.state k).members.get? id = some m from hm]
  by_cases hl : ∃ state, m.node.begin.role = .leader state
  · obtain ⟨state, hr⟩ := hl
    refine ⟨now, m, state, hm, hr, ?_, hstep⟩
    cases hq : m.node.begin.configs.active.hasQuorum (m.node.begin.newRead state).acks with
    | true =>
      rw [startRead_of_quorum hr hq] at hok
      cases hok
      rfl
    | false =>
      rw [startRead_of_waiting hr hq] at hok
      split at hok
      · cases hok
      · cases hok
        rfl
  · rw [startRead_of_not_leader fun state hr => hl ⟨state, hr⟩] at hok
    cases hok

theorem Run.Registers.tracks (h : r.Registers k id ticket) (hc : r.Refines chain) :
    ∃ m state, r.Has k id m ∧ m.node.role = .leader state ∧ (m.node.newRead state).id = ticket ∧
      Tracks (chain k) id m.node.hard.currentTerm (m.node.newRead state) (r.state (k + 1)) := by
  obtain ⟨now, m, state, hm, hr, hticket, hstep⟩ := h.leader
  have hrel := hc.member hm
  have hreads := r.readsOk k
  have hself : (chain k).term id ≤ m.node.hard.currentTerm := hrel.node.currentTerm.ge
  refine ⟨m, state, hm, hr, hticket, ?_, ?_⟩
  · -- the replies there are have earlier stamps
    intro src request response hp hreq hresp hseq
    rw [hstep] at hp
    have hop : (r.state k).resolve (.op id (.startRead now)) = some (id, _, none) := rfl
    rcases appendReply_of_runOn hop hp with hp | ⟨rfl, -⟩
    · obtain ⟨hecho, peer, covered, hsent⟩ := hreads.replied hp
      have := hreads.stamped hm hr hsent hreq
      have hconf : (m.node.newRead state).confirmSeq = state.aeSeq + 1 := rfl
      omega
    · exact hself
  · intro m' hget
    rw [hstep] at hget
    have hget' : ((r.state k).members.insert id _).get? id = some m' := hget
    rw [get?_insert_self] at hget'
    obtain rfl := Option.some.inj hget'
    have hbegin : Tickets m.node.begin := ⟨(hreads.tickets hm).pending, (hreads.tickets hm).results⟩
    have hacks : ∀ v ∈ (m.node.newRead state).acks, (chain k).term v ≤ m.node.hard.currentTerm := by
      intro v hv
      rw [OrdSet.mem_singleton.1 hv, show m.node.id = id from hrel.node.name]
      exact hself
    have hr' : m.node.begin.role = .leader state := hr
    show NodeTracks _ _ _ (m.node.begin.runOp (.startRead now)).node
    rw [runOp]
    cases hq : m.node.begin.configs.active.hasQuorum (m.node.begin.newRead state).acks with
    | true =>
      rw [startRead_of_quorum hr' hq]
      exact NodeTracks.answered hbegin hr
        (hrel.node.no_later_leader (hc.inv k) (hc.inv k) (Grows.refl _) hr hq hacks)
    | false =>
      have hquiet := Quiet.replicateAll (m.node.begin.withRead state)
      have hstart := NodeTracks.registered (n := m.node.begin) hbegin hr rfl hacks
      rw [startRead_of_waiting hr' hq]
      generalize (m.node.begin.withRead state).replicateAll = o at hquiet
      obtain ⟨n', res⟩ := o
      cases res with
      | error => exact hstart.same hquiet.same.toSameReads
      | ok => exact hstart.same hquiet.same.toSameReads

/-- Does the event after moment `k` credit a stale reply to a read? -/
def Run.CreditsStaleAt (r : Run) (k : ℕ) : Prop :=
  (r.events[k]?).any (fun e => (r.state k).creditsStale e) = true

instance (r : Run) (k : ℕ) : Decidable (r.CreditsStaleAt k) :=
  inferInstanceAs (Decidable (_ = true))

theorem Run.Refines.tracks (hc : r.Refines chain) {T : ℕ} {q : PendingRead}
    (h : Tracks (chain k) id T q (r.state (k + 1)))
    (hstale : ∀ j < r.events.length, ¬ r.CreditsStaleAt j) (hk : k + 1 ≤ k')
    (hup : ∀ j, k < j → j < k' → ¬ r.RestartsAt j id) :
    Tracks (chain k) id T q (r.state k') := by
  induction k', hk using Nat.le_induction with
  | base => exact h
  | succ j hj ih =>
    have ih := ih fun j' h1 h2 => hup j' h1 (by omega)
    cases he : r.events[j]? with
    | none =>
      rw [r.state_of_le (List.getElem?_eq_none_iff.1 he)]
      exact ih
    | some =>
      obtain ⟨hlt, -⟩ := List.getElem?_eq_some_iff.1 he
      have hrest := hup j (by omega) (by omega)
      have hcred := hstale j hlt
      rw [Run.RestartsAt, he, Option.any_some, Bool.not_eq_true] at hrest
      rw [Run.CreditsStaleAt, he, Option.any_some, Bool.not_eq_true] at hcred
      have hrel := hc.rel (j + 1)
      rw [r.state_succ he] at hrel ⊢
      exact ih.step (hc.rel j) hrel (r.within j hlt.le)
        ((r.voters_state j).symm ▸ hc.inv k) (hc.grows (by omega)) (hc.moved he).grows
        hrest hcred

/-- **Linearizable reads.**  If no reply to a message of an earlier term is ever
credited to a read, a read that resolves observes every index that any node had
committed when it was registered. -/
theorem read_sees_committed (hstale : ∀ j < r.events.length, ¬ r.CreditsStaleAt j)
    (hreg : r.Registers k id ticket) (hk : k < k')
    (hup : ∀ j, k < j → j < k' → ¬ r.RestartsAt j id) (hres : r.Resolved k' id ticket i)
    {k₀ : ℕ} (hk₀ : k₀ ≤ k) {id₀ : NodeId} (hm : r.Has k₀ id₀ m) :
    m.node.commitIndex ≤ i := by
  obtain ⟨chain, hc⟩ := r.exists_refines
  obtain ⟨m₁, state, hm₁, hr, rfl, htr⟩ := hreg.tracks hc
  obtain ⟨m₂, hm₂, hmem⟩ := hres
  obtain ⟨rfl, hlater⟩ := ((hc.tracks htr hstale hk hup).node hm₂).result hmem
  have hcom := ((hc.inv k₀).commit_committed id₀).of_grows (hc.grows hk₀)
  have hle := (hc.member hm₁).node.committed_le_readIndex (hc.inv k) hr hlater hcom
  rw [length_take, Nat.min_eq_left ((hc.inv k₀).commit_le id₀)] at hle
  rw [(hc.member hm).node.commit]
  exact hle

/-- `a` is elected and commits its first entry; then it serves a read, confirmed by
`b`. -/
def Sample.readRun : Run where
  voters := Sample.voters
  starts := Sample.starts
  events := [tick a 1000, deliver 0 1001, deliver 2 1002, deliver 3 1003, deliver 5 1004,
    .run (.op a (.startRead (Duration.fromMillis 1010))), deliver 6 1011, deliver 8 1012]
  within := by decide +kernel

open Sample

theorem read_sees_committed_sample : ∃ m, readRun.Has 5 Sample.a m ∧
    readRun.Registers 5 Sample.a 1 ∧ readRun.Resolved 8 Sample.a 1 1 ∧
    m.node.commitIndex ≤ 1 := by
  obtain ⟨m, hm, hp⟩ := readRun.exists_has 5 Sample.a
    (fun m => decide ((m.node.begin.startRead (Duration.fromMillis 1010)).2.map Prod.fst = .ok 1))
    (by decide +kernel)
  obtain ⟨m', hm', hp'⟩ := readRun.exists_has 8 Sample.a
    (fun m => decide ((1, .ok 1) ∈ m.node.readResults)) (by decide +kernel)
  have hreg : readRun.Registers 5 Sample.a 1 :=
    ⟨Duration.fromMillis 1010, m, rfl, hm, of_decide_eq_true hp⟩
  have hres : readRun.Resolved 8 Sample.a 1 1 := ⟨m', hm', of_decide_eq_true hp'⟩
  refine ⟨m, hm, hreg, hres, ?_⟩
  exact read_sees_committed (by decide +kernel) hreg (by decide)
    (fun j h1 h2 => (by decide +kernel : ∀ j < 8, ¬ readRun.RestartsAt j Sample.a) j h2)
    hres le_rfl hm

/-- `a` leads term 1; a heartbeat of it reaches `b` only after `a` has been elected
again in term 3, and `b` rejects it in term 3.  Then `c` is elected in term 4 with
the vote of `b`, and commits three entries.  The rejection, which echoes stamp 3 of
term 1, arrives after `a` has registered a read with stamp 3 of term 3. -/
def Sample.staleReadRun : Run where
  voters := Sample.voters
  starts := Sample.starts
  events := [tick a 1000, deliver 0 1001, deliver 2 1002, tick a 1060, tick c 1100, tick c 2000,
    deliver 4 2001, deliver 11 2002, tick a 3000, deliver 12 3001, deliver 14 3002,
    deliver 5 3003, tick c 4000, tick c 5000, deliver 21 5001, deliver 22 5002, deliver 24 5003,
    deliver 25 5004, .run (.op c (.propose [7] (Duration.fromMillis 5005))),
    .run (.op c (.propose [8] (Duration.fromMillis 5006))), deliver 29 5007, deliver 30 5008,
    .run (.op a (.startRead (Duration.fromMillis 5009))), deliver 17 5010]
  within := by decide +kernel

/-- **A stale read.**  The read resolves with index 2 although `c` had committed
index 3 when it was registered. -/
theorem read_misses_committed : ∃ (r : Run) (k k' : ℕ) (id : NodeId) (ticket i : ℕ), k < k' ∧
    r.Registers k id ticket ∧ (∀ j, k < j → j < k' → ¬ r.RestartsAt j id) ∧
    r.Resolved k' id ticket i ∧ ∃ id₀ m₀, r.Has k id₀ m₀ ∧ i < m₀.node.commitIndex := by
  obtain ⟨m, hm, hp⟩ := staleReadRun.exists_has 22 Sample.a
    (fun m => decide ((m.node.begin.startRead (Duration.fromMillis 5009)).2.map Prod.fst = .ok 1))
    (by decide +kernel)
  obtain ⟨m', hm', hp'⟩ := staleReadRun.exists_has 24 Sample.a
    (fun m => decide ((1, .ok 2) ∈ m.node.readResults)) (by decide +kernel)
  obtain ⟨m₀, hm₀, hp₀⟩ := staleReadRun.exists_has 22 Sample.c
    (fun m => decide (2 < m.node.commitIndex)) (by decide +kernel)
  refine ⟨staleReadRun, 22, 24, Sample.a, 1, 2, by decide,
    ⟨Duration.fromMillis 5009, m, rfl, hm, of_decide_eq_true hp⟩, ?_,
    ⟨m', hm', of_decide_eq_true hp'⟩, Sample.c, m₀, hm₀, of_decide_eq_true hp₀⟩
  intro j h1 h2
  obtain rfl : j = 23 := by omega
  decide +kernel

end

end Brokkr.Raft
