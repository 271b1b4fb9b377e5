import Brokkr.Raft.Refine.Snapshots

/-!
# A cluster refines the abstract protocol

A call run to completion is a sequence of steps of one node of the protocol.  A
crash cuts the sequence short after one of the call's transactions, and makes the
node forget how much of its log is committed.

* `Ran` — what a call leaves behind.
* `ClusterRel` — every node of a cluster refines its part of a protocol state, and
  every packet ever sent says what is true in it.
* `ClusterRel.step` — an event keeps the relation; `Moved` says how far the
  protocol state has moved.
* `Run.exists_refines` — every run of the cluster refines a run of the protocol.
-/

namespace Brokkr.Raft

open RaftNode

open Consensus List

variable {r : Run} {action : Action} {origin : Option Packet} {k : ℕ} {chain : ℕ → AState}

variable {voters : OrdSet NodeId} {a₀ a a' : AState} {id id' : NodeId} {boot : ClusterConfig}
  {cov : ℕ → List LogEntry} {n : RaftNode} {s : ℕ}

/-! ## One call -/

/-- Errors a shell can go on after: those of client calls, and the refusal of a
malformed `InstallSnapshot`. -/
def Tolerable : Call → RaftError → Prop
  | .op (.tick _), _ => False
  | .op _, _ => True
  | .installSnapshot .., .snapshot _ => True
  | _, _ => False

/-- What a call leaves behind: a node that refines the protocol, with the commit
rule applied, messages that say what is true, and no error that matters. -/
structure Ran (voters : OrdSet NodeId) (a₀ a : AState) (id : NodeId) (boot : ClusterConfig)
    (cov : ℕ → List LogEntry) (call : Call) (effect : Effect) : Prop where
  rel : Rel voters a₀ a id boot cov effect.node
  settled : Settled effect.node
  outs : ∀ out ∈ effect.outs, OutOk voters a id (cov effect.node.log.db.snapshotIndex) out
  error : ∀ e, effect.error = some e → Tolerable call e

theorem Ran.quiet {call : Call} {r : Option Reply} (h : Rel voters a₀ a id boot cov n)
    (hs : Settled n) : Ran voters a₀ a id boot cov call { node := n, reply := r } :=
  ⟨h, hs, nofun, by rintro _ ⟨⟩⟩

theorem Ran.failed {call : Call} {e : RaftError} (h : Rel voters a₀ a id boot cov n)
    (hs : Settled n) (he : Tolerable call e) :
    Ran voters a₀ a id boot cov call { node := n, error := some e } :=
  ⟨h, hs, nofun, by rintro _ ⟨⟩; exact he⟩

theorem Ends.ran {call : Call} {r : Outcome} (h : Ends voters a₀ a id boot cov s r) :
    Ran voters a₀ a id boot cov call (.ofOutcome r) := by
  obtain ⟨n, res⟩ := r
  obtain ⟨hrel, hsettled, rfl, outs, rfl, houts⟩ := h
  exact ⟨hrel, hsettled, houts, by rintro _ ⟨⟩⟩

theorem Serves.ran {call : Call} {r : Outcome} (h : Serves voters a₀ id boot cov n r)
    (hn : Rel voters a₀ a id boot cov n) (hs : Settled n) (hc : ∀ e, Tolerable call e) :
    ∃ a', Ran voters a₀ a' id boot cov call (.ofOutcome r) := by
  rcases h with ⟨a', h⟩ | ⟨e, rfl⟩
  · exact ⟨a', h.ran⟩
  · exact ⟨a, Ran.failed hn hs (hc e)⟩

/-- **A call from the environment.** -/
theorem Rel.runOp (h : Rel voters a₀ a id boot cov n) (hs : Settled n)
    (hterm : n.hard.currentTerm < u64Max) (hlast : n.lastLogIndex < u64Max)
    (hcov : cov n.commitIndex = (a.log id).take n.commitIndex) (op : Op) :
    ∃ a', Ran voters a₀ a' id boot cov (.op op) (n.runOp op) := by
  cases op with
  | tick now =>
    obtain ⟨a', h'⟩ := h.tick hs hterm hlast now
    exact ⟨a', h'.ran⟩
  | propose command now => exact (h.propose hs hlast command now).ran h hs fun _ => trivial
  | startRead now =>
    obtain ⟨h', hs', hsnap, houts⟩ := h.startRead hs now
    refine ⟨a, ?_⟩
    rw [RaftNode.runOp]
    generalize n.startRead now = r at h' hs' hsnap houts
    obtain ⟨m, res⟩ := r
    cases res with
    | error => exact Ran.failed h' hs' trivial
    | ok out => exact ⟨h', hs', hsnap ▸ houts out.1 out.2 rfl, by rintro _ ⟨⟩⟩
  | drainReadResults => exact ⟨a, Ran.quiet (h.volatile rfl rfl rfl rfl rfl rfl h.role) hs⟩
  | proposeConfChange newVoters now =>
    exact (h.proposeConfChange hs hlast newVoters now).ran h hs fun _ => trivial
  | proposeAddLearner learner now =>
    exact (h.proposeAddLearner hlast learner now).ran h hs fun _ => trivial
  | compact data =>
    obtain ⟨h', hs'⟩ := h.compact hs hcov data
    refine ⟨a, ?_⟩
    rw [RaftNode.runOp]
    generalize n.compact data = r at h' hs'
    obtain ⟨m, res⟩ := r
    cases res with
    | error => exact Ran.failed h' hs' trivial
    | ok => exact Ran.quiet h' hs'

/-- **The delivery of a packet** that says what is true, and the reply to it. -/
theorem Rel.runPacket (h : Rel voters a₀ a id boot cov n) (hs : Settled n)
    (hlast : n.lastLogIndex < u64Max) {p : Packet} (hp : MsgOk voters a p) (now : Instant)
    (hdst : (p.call now).1 = id)
    (hcov : ∀ {src out covered}, p = .request src out covered →
      ∀ {i}, n.log.db.snapshotIndex < i → cov i = covered) :
    ∃ a', Ran voters a₀ a' id boot cov (p.call now).2 (n.run (p.call now).2) ∧
      ∀ r, (n.run (p.call now).2).reply = some r → ∀ q ∈ p.replyWith id r, MsgOk voters a' q := by
  cases p with
  | request src out =>
    cases out with
    | requestVote =>
      obtain ⟨a', h', hs', hr⟩ := h.handleRequestVote hs hp now
      refine ⟨a', Ran.quiet h' hs', ?_⟩
      rintro r ⟨⟩ q hq
      obtain rfl := mem_singleton.1 hq
      exact fun hv => (hr hv).trans (congrArg some hp.sender)
    | appendEntries =>
      obtain ⟨a', h', hs', hr⟩ := h.handleAppendEntries hs hp now
      refine ⟨a', Ran.quiet h' hs', ?_⟩
      rintro r ⟨⟩ q hq
      obtain rfl := mem_singleton.1 hq
      exact hr
    | installSnapshot peer request =>
      obtain ⟨a', h', hs', hr⟩ := h.handleInstallSnapshot hs hp (hcov rfl) now
      have herr : ∀ e, (n.handleInstallSnapshot request now).2 = .error e →
          ∃ reason, e = .snapshot reason := fun _ => handleInstallSnapshot_error
      refine ⟨a', ?_⟩
      simp only [Packet.call, run]
      generalize n.handleInstallSnapshot request now = r at h' hs' herr hr
      obtain ⟨m, res⟩ := r
      cases res with
      | error e =>
        obtain ⟨reason, rfl⟩ := herr e rfl
        exact ⟨Ran.failed h' hs' trivial, by rintro r ⟨⟩⟩
      | ok =>
        refine ⟨Ran.quiet h' hs', ?_⟩
        rintro r ⟨⟩ q hq
        obtain rfl := mem_singleton.1 hq
        exact hr _ rfl
  | voteReply src dst =>
    obtain rfl : dst = id := hdst
    obtain ⟨a', h'⟩ := h.handleRequestVoteResponse hs hlast hp now
    exact ⟨a', h'.ran, nofun⟩
  | appendReply =>
    obtain ⟨a', h'⟩ := h.handleAppendEntriesResponse hs hlast hp now
    exact ⟨a', h'.ran, nofun⟩
  | snapshotReply src dst request response =>
    obtain ⟨a', h'⟩ := h.handleInstallSnapshotResponse hs hlast src response now
    exact ⟨a', h'.ran, nofun⟩

/-! ## The other nodes -/

theorem NodeRel.frame (h : NodeRel voters a id boot cov n) (hf : Frame id' a a')
    (hg : Grows a a') (hne : id ≠ id') : NodeRel voters a' id boot cov n where
  dur :=
    { term := h.dur.term.trans (hf.term hne).symm
      vote := by
        rw [hf.term hne, hf.vote hne]
        exact h.dur.vote
      holds := by
        rw [hf.log hne]
        exact h.dur.holds
      snapshot_le := by
        rw [hf.commit hne]
        exact h.dur.snapshot_le
      covered := by
        rw [hf.log hne]
        exact h.dur.covered
      snapshot := by
        rw [hf.log hne]
        exact h.dur.snapshot }
  bootstrap := h.bootstrap
  name := h.name
  hard := h.hard
  snapshot := h.snapshot
  configs := by
    rw [hf.log hne]
    exact h.configs
  commit := h.commit.trans (hf.commit hne).symm
  role := by
    have hrole := h.role
    generalize n.role = role at hrole
    cases role with
    | follower => trivial
    | candidate =>
      refine ⟨?_, ?_, ?_⟩
      · rw [hf.cand hne, hf.term hne, hf.log hne]
        exact hrole.cand
      · rw [hf.term hne]
        exact fun hl => hrole.notElected (hf.leader hne hl)
      · rw [hf.term hne]
        exact fun v hv => hg.vote (hrole.votes v hv)
    | leader =>
      have hl := hrole.elected
      refine ⟨?_, ?_, ?_, ?_, ?_, ?_⟩
      · rw [hf.term hne]
        exact hg.leader hl
      · rw [hf.term hne, hf.log hne]
        exact hrole.acked.trans (hg.acked _ _)
      · rw [hf.log hne]
        exact hrole.next
      · rw [hf.term hne]
        exact fun hp => (hrole.matched hp).trans (max_le_max (hg.acked _ _) le_rfl)
      · rw [hf.term hne, hf.commit hne]
        exact fun hk => hrole.committed (hf.committed hne hl hk)
      · rw [hf.term hne, hg.elog (by simp [hl])]
        exact hrole.start

/-! ## Restarting -/

/-- **A restart** from any database the protocol could have stopped at. -/
theorem Dur.restart {db : Db} (h : Dur voters a id cov db) (hi : Inv (rules voters) a)
    (hb : boot.electorate = ⟨voters, none⟩) (rng : Rng) (config : Config) (now : Instant) :
    NodeRel voters (a.setCommit id db.snapshotIndex) id boot cov
      (withBootstrap id boot { db := db } rng config now) := by
  have hcommit : (a.setCommit id db.snapshotIndex).commit id = db.snapshotIndex := by
    simp [State.setCommit]
  refine
    { dur := ?dur
      bootstrap := hb
      name := rfl
      hard := rfl
      snapshot := rfl
      configs := ?configs
      commit := ?commit
      role := trivial }
  case dur => exact ⟨h.term, h.vote, h.holds, hcommit.ge, h.covered, h.snapshot⟩
  case configs =>
    exact recover_eq h.holds (indexed_log hi id) (h.snapshot_le.trans (hi.commit_le id))
  case commit =>
    rw [hcommit]
    simp only [withBootstrap, armElectionTimer, Db.snapshotMeta, Db.snapshotIndex]
    cases db.snapshot <;> rfl

theorem settled_withBootstrap (log : RaftLog) (rng : Rng) (config : Config) (now : Instant) :
    Settled (withBootstrap id boot log rng config now) :=
  Settled.of_role (by simp [withBootstrap, armElectionTimer])

theorem Rel.crashed {m : RaftNode} (h : Rel voters a₀ a id boot cov m)
    (h₀ : NodeRel voters a₀ id boot cov n) (transactions : ℕ) :
    ∃ a', Steps (rules voters) id a₀ a' ∧
      Dur voters a' id cov (Cluster.crashedDb n.log.db m.log transactions) := by
  rw [Cluster.crashedDb]
  cases hdb : (n.log.db :: m.log.commits)[transactions]? with
  | none => exact ⟨a, h.steps, h.dur⟩
  | some db =>
    rcases mem_cons.1 (mem_of_getElem? hdb) with rfl | hmem
    · exact ⟨a₀, Relation.ReflTransGen.refl, h₀.dur⟩
    · exact h.past db hmem

/-! ## The cluster -/

/-- A member refines its part of the protocol. -/
structure MemberRel (voters : OrdSet NodeId) (a : AState) (id : NodeId) (m : Member) : Prop where
  node : NodeRel voters a id m.bootstrap (fun _ => m.covered) m.node
  settled : Settled m.node

/-- **A cluster refines the protocol**: its nodes do, and all its packets say what
is true. -/
structure ClusterRel (a : AState) (c : Cluster) : Prop where
  inv : Inv (rules c.voters) a
  members : ∀ {id m}, c.members.get? id = some m → MemberRel c.voters a id m
  sent : ∀ p ∈ c.sent, MsgOk c.voters a p

/-- Does the event restart node `id`? -/
def Cluster.restarts (c : Cluster) (id : NodeId) : Event → Bool
  | .run _ => false
  | .crash action .. => decide ((c.resolve action).map Prod.fst = some id)

/-- How far one event moves the protocol. -/
structure Moved (c : Cluster) (e : Event) (a a' : AState) : Prop where
  grows : Grows a a'
  commit : ∀ {id}, c.restarts id e = false → a.commit id ≤ a'.commit id
  kept : ∀ {id p}, a.CommittedPrefix (a.term id) p → p <+: a.log id → p <+: a'.log id

theorem Moved.refl (c : Cluster) (e : Event) (a : AState) : Moved c e a a :=
  ⟨Grows.refl a, fun _ => le_rfl, fun _ h => h⟩

section

variable {c : Cluster} {m : Member}

theorem MemberRel.begin (h : MemberRel voters a id m) (hi : Inv (rules voters) a)
    (origin : Option Packet) :
    Rel voters a a id m.bootstrap (m.coveredUpTo origin) m.node.begin := by
  have hcov : m.coveredUpTo origin m.node.log.db.snapshotIndex = m.covered := by
    simp [Member.coveredUpTo]
  refine Rel.start { h.node with dur := ?_ } hi
  exact { h.node.dur with covered := hcov.trans h.node.dur.covered }

theorem MemberRel.coveredUpTo_commit (h : MemberRel voters a id m) (hi : Inv (rules voters) a) :
    m.coveredUpTo none m.node.commitIndex = (a.log id).take m.node.commitIndex := by
  have hcov := h.node.dur.covered
  have hle : m.node.log.db.snapshotIndex ≤ m.node.commitIndex := by
    rw [h.node.commit]
    exact h.node.dur.snapshot_le
  unfold Member.coveredUpTo
  split
  · rename_i heq
    rw [heq]
    exact hcov
  have hidx := indexed_log hi id
  rw [hcov, Db.entriesFrom_all h.node.dur.holds hidx (Nat.zero_le _), hidx.filter_le hle,
    ← Nat.min_eq_left hle, ← take_take, Nat.min_eq_left hle, take_append_drop]

/-- **What a call does**, whatever it came from: the node refines the protocol
afterwards, and everything it sends is true. -/
theorem ClusterRel.call (h : ClusterRel a c) (hw : c.Within) (hm : c.members.get? id = some m)
    {call : Call} (hr : c.resolve action = some (id, call, origin)) :
    ∃ a', Ran c.voters a a' id m.bootstrap (m.coveredUpTo origin) call
        (m.node.begin.run call) ∧
      ∀ p, origin = some p → ∀ r, (m.node.begin.run call).reply = some r →
        ∀ q ∈ p.replyWith id r, MsgOk c.voters a' q := by
  have hmem := h.members hm
  have hstart := hmem.begin h.inv origin
  obtain ⟨hterm, hlast⟩ := hw (id, m) (OrdMap.get?_eq_some.1 hm)
  cases action with
  | op id' op =>
    obtain ⟨rfl, rfl, rfl⟩ : id' = id ∧ Call.op op = call ∧ none = origin := by
      simpa [Cluster.resolve] using hr
    obtain ⟨a', h'⟩ := hstart.runOp hmem.settled hterm hlast
      (hmem.coveredUpTo_commit h.inv) op
    exact ⟨a', h', fun p hp => absurd hp (by simp)⟩
  | deliver k now =>
    obtain ⟨p, hp, hcall⟩ := Option.map_eq_some_iff.1 hr
    obtain ⟨hdst, rfl, rfl⟩ : (p.call now).1 = id ∧ (p.call now).2 = call ∧
      some p = origin := by simpa using hcall
    obtain ⟨a', h', hreply⟩ := hstart.runPacket hmem.settled hlast
      (h.sent p (mem_of_getElem? hp)) now hdst (by
        rintro src out covered rfl i hi
        rw [Member.coveredUpTo, if_neg (by
          have : m.node.log.db.snapshotIndex < i := hi
          omega)])
    refine ⟨a', h', ?_⟩
    rintro q ⟨⟩
    exact hreply

theorem ClusterRel.insert (h : ClusterRel a c) (hi : Inv (rules c.voters) a')
    (hf : Frame id a a') (hg : Grows a a') (hm : MemberRel c.voters a' id m)
    {sent : List Packet} (hsent : ∀ p ∈ sent, p ∈ c.sent ∨ MsgOk c.voters a' p) :
    ClusterRel a' { c with members := c.members.insert id m, sent := sent } where
  inv := hi
  members := by
    intro id' m' hget
    rcases OrdMap.of_get?_insert hget with ⟨rfl, rfl⟩ | ⟨hne, hget⟩
    · exact hm
    · exact ⟨(h.members hget).node.frame hf hg hne, (h.members hget).settled⟩
  sent := by
    intro p hp
    rcases hsent p hp with hold | hnew
    · exact (h.sent p hold).mono hg
    · exact hnew

theorem ClusterRel.runOn (h : ClusterRel a c) (hw : c.Within) (hm : c.members.get? id = some m)
    {call : Call} (hr : c.resolve action = some (id, call, origin)) :
    ∃ a', ClusterRel a' (c.runOn id m call origin) ∧ Steps (rules c.voters) id a a' := by
  obtain ⟨a', hran, hreply⟩ := h.call hw hm hr
  have hsteps := hran.rel.steps
  refine ⟨a', ?_, hsteps⟩
  refine h.insert hran.rel.inv (hsteps.frame h.inv) (hsteps.grows h.inv) ⟨?_, hran.settled⟩ ?_
  · exact { hran.rel.toNodeRel with dur := { hran.rel.dur with } }
  intro p hp
  rcases mem_append.1 hp with hp | hp
  · rcases mem_append.1 hp with hp | hp
    · exact .inl hp
    · obtain ⟨out, hout, rfl⟩ := mem_map.1 hp
      exact .inr (hran.outs out hout)
  refine .inr ?_
  cases origin with
  | none => exact absurd hp not_mem_nil
  | some q =>
    cases hrep : (m.node.begin.run call).reply with
    | none =>
      rw [hrep] at hp
      exact absurd hp not_mem_nil
    | some r =>
      rw [hrep] at hp
      exact hreply q rfl r hrep p hp

theorem ClusterRel.crashOn (h : ClusterRel a c) (hw : c.Within) (hm : c.members.get? id = some m)
    {call : Call} (hr : c.resolve action = some (id, call, origin)) (transactions : ℕ) (rng : Rng)
    (config : Config) (now : Instant) :
    ∃ a' k, ClusterRel (a'.setCommit id k)
        (c.crashOn id m call origin transactions rng config now) ∧
      Steps (rules c.voters) id a a' := by
  obtain ⟨a₁, hran, -⟩ := h.call hw hm hr
  have hmem := h.members hm
  have hstart := hmem.begin h.inv origin
  obtain ⟨a', hsteps, hdur⟩ := hran.rel.crashed hstart.toNodeRel transactions
  have hi := hsteps.inv h.inv
  refine ⟨a', (Cluster.crashedDb m.node.log.db (m.node.begin.run call).node.log
    transactions).snapshotIndex, ?_, hsteps⟩
  have hnode := hdur.restart hi hmem.node.bootstrap rng config now
  refine h.insert (hi.forget hdur.snapshot_le) ((hsteps.frame h.inv).forget _)
    ((hsteps.grows h.inv).trans (Grows.setCommit _)) ⟨?_, settled_withBootstrap _ _ _ _⟩
    fun p hp => Or.inl hp
  exact { hnode with dur := { hnode.dur with } }

theorem Moved.of_steps (hi : Inv (rules voters) a) (hs : Steps (rules voters) id a a')
    (c : Cluster) (e : Event) : Moved c e a a' := by
  have hf := hs.frame hi
  refine ⟨hs.grows hi, fun {id'} _ => ?_, fun {id' p} hp hl => ?_⟩
  · by_cases hid : id' = id
    · rw [hid]
      exact hs.commit_le
    · rw [hf.commit hid]
  by_cases hid : id' = id
  · rw [hid] at hp hl ⊢
    exact hs.keeps_committed hi hp hl
  · rw [hf.log hid]
    exact hl

theorem Moved.forget {e : Event} (h : Moved c e a a') (hr : c.restarts id e = true) (k : ℕ) :
    Moved c e a (a'.setCommit id k) := by
  refine ⟨h.grows.trans (Grows.setCommit k), fun {id'} hid => ?_, h.kept⟩
  have hne : id' ≠ id := by
    rintro rfl
    rw [hr] at hid
    cases hid
  simpa [State.setCommit, Function.update_of_ne hne] using h.commit hid

/-- **One event** keeps the relation. -/
theorem ClusterRel.step (h : ClusterRel a c) (hw : c.Within) (e : Event) :
    ∃ a', ClusterRel a' (c.step e) ∧ Moved c e a a' := by
  have hs := c.stepped e
  generalize c.step e = c' at hs
  cases hs with
  | idle => exact ⟨a, h, Moved.refl c e a⟩
  | ran hr hm =>
    obtain ⟨a', h', hsteps⟩ := h.runOn hw hm hr
    exact ⟨a', h', Moved.of_steps h.inv hsteps c _⟩
  | @crashed action id m call origin hr hm transactions rng config now =>
    obtain ⟨a', k, h', hsteps⟩ := h.crashOn hw hm hr transactions rng config now
    refine ⟨a'.setCommit id k, h', (Moved.of_steps h.inv hsteps c _).forget ?_ k⟩
    simp [Cluster.restarts, hr]

end

/-! ## Runs -/

theorem electorate_bootstrapOf (voters : OrdSet NodeId) (id : NodeId) :
    (bootstrapOf voters id).electorate = ⟨voters, none⟩ := by
  have hlist : OrdSet.ofList voters.toList = voters :=
    OrdSet.ext fun v => by rw [OrdSet.mem_ofList, OrdSet.mem_def]
  unfold bootstrapOf
  split
  · rename_i hid
    have hset : (OrdSet.ofList (voters.erase id).toList).insert id = voters := by
      refine OrdSet.ext fun v => ?_
      rw [OrdSet.mem_insert, OrdSet.mem_ofList, ← OrdSet.mem_def, OrdSet.mem_erase]
      by_cases hv : v = id
      · simp [hv, hid]
      · simp [hv]
    simp [newBootstrap, ClusterConfig.single, ClusterConfig.electorate, hset]
  · simp [learnerBootstrap, ClusterConfig.electorate, hlist]

theorem memberRel_start (voters : OrdSet NodeId) (s : Start) :
    MemberRel voters State.init s.id
      { node := withBootstrap s.id (bootstrapOf voters s.id) {} s.rng s.config s.now
        bootstrap := bootstrapOf voters s.id } := by
  have hdur : Dur voters (State.init : AState) s.id (fun _ => []) {} :=
    { term := rfl
      vote := rfl
      holds := Holds.wiped
      snapshot_le := le_rfl
      covered := rfl
      snapshot := by rintro _ _ ⟨⟩ }
  have hnode := hdur.restart Inv.init (electorate_bootstrapOf voters s.id) s.rng s.config s.now
  have hinit : (State.init : AState).setCommit s.id 0 = State.init := by
    simp [State.setCommit, State.init]
  exact ⟨hinit ▸ hnode, settled_withBootstrap _ _ _ _⟩

theorem ClusterRel.init (voters : OrdSet NodeId) (starts : List Start) :
    ClusterRel State.init (Cluster.init voters starts) where
  inv := Inv.init
  members := by
    intro id m hm
    obtain ⟨s, -, rfl, rfl⟩ := Cluster.get?_init hm
    exact memberRel_start voters s
  sent := nofun

theorem Run.state_succ (r : Run) {e : Event} (he : r.events[k]? = some e) :
    r.state (k + 1) = (r.state k).step e := by
  rw [Run.state, Run.state, take_add_one, he, Cluster.exec, Cluster.exec, foldl_append]
  rfl

theorem Run.state_of_le (r : Run) (hk : r.events.length ≤ k) :
    r.state (k + 1) = r.state k := by
  rw [Run.state, Run.state, take_of_length_le hk, take_of_length_le (by omega)]

theorem Run.within_state (r : Run) (k : ℕ) : (r.state k).Within := by
  rcases Nat.le_total k r.events.length with hk | hk
  · exact r.within k hk
  have := r.within _ le_rfl
  rw [Run.state, take_of_length_le hk]
  rwa [take_length] at this

/-- A run of the protocol that a run of the cluster refines. -/
structure Run.Refines (r : Run) (chain : ℕ → AState) : Prop where
  rel : ∀ k, ClusterRel (chain k) (r.state k)
  moved : ∀ {k e}, r.events[k]? = some e → Moved (r.state k) e (chain k) (chain (k + 1))
  idle : ∀ {k}, r.events[k]? = none → chain (k + 1) = chain k

/-- **Every run of the cluster refines a run of the protocol.** -/
theorem Run.exists_refines (r : Run) : ∃ chain, r.Refines chain := by
  have hstep : ∀ k (x : { a // ClusterRel a (r.state k) }),
      ∃ y : { a // ClusterRel a (r.state (k + 1)) },
        (∀ {e}, r.events[k]? = some e → Moved (r.state k) e x.1 y.1) ∧
        (r.events[k]? = none → y.1 = x.1) := by
    rintro k ⟨a, ha⟩
    cases he : r.events[k]? with
    | none =>
      refine ⟨⟨a, ?_⟩, by rintro e ⟨⟩, fun _ => rfl⟩
      rwa [r.state_of_le (List.getElem?_eq_none_iff.1 he)]
    | some e =>
      obtain ⟨hlt, -⟩ := List.getElem?_eq_some_iff.1 he
      obtain ⟨a', h', hmoved⟩ := ha.step (r.within k hlt.le) e
      refine ⟨⟨a', ?_⟩, ?_, by rintro ⟨⟩⟩
      · rwa [r.state_succ he]
      · rintro e' ⟨⟩
        exact hmoved
  choose next hnext using hstep
  let chain : ∀ k, { a // ClusterRel a (r.state k) } := fun k =>
    Nat.rec ⟨State.init, ClusterRel.init r.voters r.starts⟩ next k
  exact ⟨fun k => (chain k).1, fun k => (chain k).2, fun {k e} he => (hnext k (chain k)).1 he,
    fun {k} he => (hnext k (chain k)).2 he⟩

theorem Run.Refines.grows (h : r.Refines chain) {k₁ k₂ : ℕ} (hk : k₁ ≤ k₂) :
    Grows (chain k₁) (chain k₂) := by
  induction k₂, hk using Nat.le_induction with
  | base => exact Grows.refl _
  | succ k _ ih =>
    cases he : r.events[k]? with
    | none =>
      rw [h.idle he]
      exact ih
    | some => exact ih.trans (h.moved he).grows

@[simp] theorem Cluster.voters_step (c : Cluster) (e : Event) : (c.step e).voters = c.voters := by
  have hs := c.stepped e
  generalize c.step e = c' at hs
  cases hs <;> rfl

@[simp] theorem Run.voters_state (r : Run) (k : ℕ) : (r.state k).voters = r.voters := by
  rw [Run.state, Cluster.exec]
  induction r.events.take k using reverseRecOn with
  | nil => rfl
  | append_singleton events e ih =>
    rw [foldl_append, foldl_cons, foldl_nil, Cluster.voters_step, ih]

theorem Run.Refines.inv (h : r.Refines chain) (k : ℕ) :
    Inv (rules r.voters) (chain k) := r.voters_state k ▸ (h.rel k).inv

theorem Run.Refines.member (h : r.Refines chain) {m : Member} (hm : r.Has k id m) :
    MemberRel r.voters (chain k) id m :=
  r.voters_state k ▸ (h.rel k).members hm

end Brokkr.Raft
