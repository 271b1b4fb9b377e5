import Brokkr.Raft.Safety

/-!
# Membership changes

Configurations come into being in three places: a change of voters begins with a
joint configuration, a committed joint configuration is followed by the final one,
and a learner is added.  Everywhere else they are only handed on, between the log,
the snapshot, the tracker and the network.

* `ClusterConfig.Sound` — somebody votes, in both voter sets while joint, and no
  learner does.
* `RaftNode.Sound`, `RaftNode.run_sound` — every configuration a node holds or
  sends is sound, and stays so through every call.
* `Follows.of_consecutive` — each configuration in a log follows the one before it.
* `membership_sound` — what holds of all configurations stored, and of those that
  are committed one after the other.
-/

namespace Brokkr.Raft

open ConfigTracker

open RaftNode

open Consensus List

variable {e : LogEntry} {entries : List LogEntry} {db : Db} {c' : ClusterConfig}

/-! ## Sound configurations -/

/-- Somebody votes, in both voter sets while joint, and no learner does. -/
structure ClusterConfig.Sound (c : ClusterConfig) : Prop where
  voters : c.voters.isEmpty = false
  old : ∀ old, c.oldVoters = some old → old.isEmpty = false
  learners : ∀ l ∈ c.learners, l ∉ c.voters ∧ ∀ old, c.oldVoters = some old → l ∉ old

namespace ClusterConfig.Sound

variable {c : ClusterConfig}

theorem final (h : c.Sound) :
    Sound { voters := c.voters, oldVoters := none, learners := c.learners } where
  voters := h.voters
  old := by simp
  learners l hl := ⟨(h.learners l hl).1, by simp⟩

theorem joint (h : c.Sound) {newVoters : OrdSet NodeId} (hne : newVoters.isEmpty = false) :
    Sound { oldVoters := some c.voters
            learners := c.learners.filter (fun l => decide (l ∉ newVoters))
            voters := newVoters } where
  voters := hne
  old := by
    rintro old ⟨⟩
    exact h.voters
  learners l hl := by
    simp only [OrdSet.mem_filter, decide_eq_true_eq] at hl
    refine ⟨hl.2, ?_⟩
    rintro old ⟨⟩
    exact (h.learners l hl.1).1

theorem addLearner (h : c.Sound) (hj : c.isJoint = false) {id : NodeId} (hid : id ∉ c.voters) :
    Sound { c with learners := c.learners.insert id } where
  voters := h.voters
  old := h.old
  learners l hl := by
    have hnone : c.oldVoters = none := by simpa [isJoint] using hj
    rcases OrdSet.mem_insert.1 hl with rfl | hl
    · exact ⟨hid, by simp [hnone]⟩
    · exact h.learners l hl

end ClusterConfig.Sound

/-- Every configuration among the entries is sound. -/
def EntriesSound (entries : List LogEntry) : Prop :=
  ∀ e ∈ entries, ∀ c, e.config? = some c → c.Sound

theorem EntriesSound.singleton (h : ∀ c, e.config? = some c → c.Sound) :
    EntriesSound [e] := by
  simpa [EntriesSound] using h

theorem EntriesSound.plain (h : e.config? = none) : EntriesSound [e] := .singleton (by simp [h])

/-! ## The store -/

/-- Every configuration in the store is sound. -/
structure Db.Sound (db : Db) : Prop where
  log : ∀ i e, db.get i = some e → ∀ c, e.config? = some c → c.Sound
  snapshot : ∀ info data, db.snapshot = some (info, data) → info.config.Sound

namespace Db.Sound

theorem empty : Db.Sound {} where
  log := by simp [Db.get]
  snapshot := by simp

theorem get?_insertAll {table : OrdMap ℕ LogEntry} {i : ℕ}
    (h : (Db.insertAll table entries).get? i = some e) :
    table.get? i = some e ∨ e ∈ entries := by
  induction entries generalizing table with
  | nil => exact .inl h
  | cons entry rest ih =>
    rcases ih h with h | h
    · rw [OrdMap.get?_insert] at h
      split at h
      · cases h
        exact .inr mem_cons_self
      · exact .inl h
    · exact .inr (mem_cons_of_mem _ h)

theorem insertAll (h : db.Sound) (he : EntriesSound entries) :
    Db.Sound { db with log := Db.insertAll db.log entries } where
  log i e hget := by
    rcases get?_insertAll hget with hget | hmem
    · exact h.log i e hget
    · exact he e hmem
  snapshot := h.snapshot

theorem filter (h : db.Sound) (p : ℕ → LogEntry → Bool) :
    Db.Sound { db with log := db.log.filter p } where
  log i e hget := by
    rw [Db.get, OrdMap.get?_filter] at hget
    exact h.log i e (Option.filter_eq_some_iff.1 hget).1
  snapshot := h.snapshot

theorem entriesFrom (h : db.Sound) (start : ℕ) : EntriesSound (db.entriesFrom start) := by
  intro e he
  obtain ⟨p, hp, rfl⟩ := mem_map.1 he
  exact h.log p.1 p.2 (OrdMap.get?_eq_some.2 (mem_filter.1 hp).1)

end Db.Sound

/-- Every configuration ever stored in a call is sound. -/
structure RaftLog.Sound (l : RaftLog) : Prop where
  db : l.db.Sound
  commits : ∀ db ∈ l.commits, db.Sound

namespace RaftLog.Sound

variable {l : RaftLog}

variable (h : l.Sound)

include h

theorem commit (hdb : db.Sound) : (l.commit db).Sound where
  db := hdb
  commits db' hmem := by
    rcases mem_append.1 hmem with hmem | hmem
    · exact h.commits db' hmem
    · rw [mem_singleton.1 hmem]
      exact hdb

theorem appendAll (he : EntriesSound entries) :
    (l.appendAll entries).Sound := h.commit (h.db.insertAll he)

theorem append (he : EntriesSound [e]) : (l.append e).Sound := h.appendAll he

theorem truncateFrom (start : ℕ) : (l.truncateFrom start).Sound :=
  h.commit (h.db.filter _)

theorem saveHardState (state : HardState) : (l.saveHardState state).Sound :=
  h.commit ⟨h.db.log, h.db.snapshot⟩

theorem writeSnapshot {info : SnapshotMeta} (hinfo : info.config.Sound)
    (data : Bytes) (wipe : Bool) : (l.writeSnapshot info data wipe).Sound := by
  apply h.commit
  constructor
  · intro i e hget
    cases wipe with
    | true => simp [Db.get] at hget
    | false => exact (h.db.filter fun key _ => decide (info.lastIncludedIndex < key)).log i e hget
  · rintro info' data' ⟨⟩
    exact hinfo

end RaftLog.Sound

/-! ## The tracker -/

/-- Every configuration the tracker knows is sound. -/
structure ConfigTracker.Sound (t : ConfigTracker) : Prop where
  base : t.base.Sound
  inLog : ∀ p ∈ t.inLog, p.2.Sound

namespace ConfigTracker.Sound

variable {t : ConfigTracker}

variable (h : t.Sound)

include h

theorem active : t.active.Sound := by
  unfold ConfigTracker.active
  split
  · rename_i i c hlast
    exact h.inLog (i, c) (mem_of_getLast? hlast)
  · exact h.base

theorem configAt (index : ℕ) : (t.configAt index).Sound := by
  unfold ConfigTracker.configAt
  split
  · rename_i i c hfind
    exact h.inLog (i, c) (mem_reverse.1 (mem_of_find?_eq_some hfind))
  · exact h.base

theorem filter (p : ℕ × ClusterConfig → Bool) :
    ConfigTracker.Sound { t with inLog := t.inLog.filter p } :=
  ⟨h.base, fun q hq => h.inLog q (mem_filter.1 hq).1⟩

theorem onAppend (index : ℕ) {c : ClusterConfig} (hc : c.Sound) :
    (t.onAppend index c).Sound where
  base := h.base
  inLog p hp := by
    rcases mem_append.1 hp with hp | hp
    · exact h.inLog p (mem_filter.1 hp).1
    · rw [mem_singleton.1 hp]
      exact hc

theorem onCompact (upTo : ℕ) : (t.onCompact upTo).Sound :=
  ⟨h.configAt upTo, (h.filter _).inLog⟩

theorem onInstallSnapshot {c : ClusterConfig} (hc : c.Sound) (index : ℕ)
    (wiped : Bool) : (t.onInstallSnapshot c index wiped).Sound := by
  constructor
  · simp only [ConfigTracker.onInstallSnapshot]
    split
    · exact hc
    · exact h.base
  · cases wiped with
    | true => simp [ConfigTracker.onInstallSnapshot]
    | false => exact (h.filter _).inLog

theorem noteAppendedConfigs (he : EntriesSound entries) :
    (t.noteAppendedConfigs entries).Sound := by
  induction entries generalizing t with
  | nil => exact h
  | cons entry rest ih =>
    apply ih
    · simp only
      split
      · rename_i c hc
        exact h.onAppend _ (he entry mem_cons_self c (by simp [LogEntry.config?, hc]))
      · exact h
    · exact fun e hmem => he e (mem_cons_of_mem _ hmem)

omit h

theorem recover {bootstrap : ClusterConfig} (hb : bootstrap.Sound) (hdb : db.Sound) :
    (ConfigTracker.recover bootstrap db).Sound := by
  have hbase : (fromSnapshot bootstrap db.snapshotMeta).Sound := by
    unfold fromSnapshot
    split
    · rename_i info hinfo
      obtain ⟨⟨info', data⟩, hsnap, rfl⟩ := Option.map_eq_some_iff.1 hinfo
      split
      · exact ⟨hdb.snapshot _ data hsnap, by simp [new]⟩
      · exact ⟨hb, by simp [new]⟩
    · exact ⟨hb, by simp [new]⟩
  unfold ConfigTracker.recover
  split
  · exact hbase.noteAppendedConfigs (hdb.entriesFrom _)
  · exact hbase

end ConfigTracker.Sound

/-! ## The node -/

/-- Every configuration a node holds is sound. -/
structure RaftNode.Sound (n : RaftNode) : Prop where
  configs : n.configs.Sound
  log : n.log.Sound

/-- Every configuration a message carries is sound. -/
def Outbound.Sound : Outbound → Prop
  | .requestVote _ _ => True
  | .appendEntries _ request => EntriesSound request.entries
  | .installSnapshot _ request => request.config.Sound

/-- Every configuration a node holds or sends after a call is sound. -/
structure Outcome.Sound (r : Outcome) : Prop where
  node : r.1.Sound
  outs : ∀ outs, r.2 = .ok outs → ∀ out ∈ outs, out.Sound

namespace RaftNode.Sound

variable {n n' : RaftNode}

theorem of_eq (h : n.Sound) (hc : n'.configs = n.configs) (hl : n'.log = n.log) : n'.Sound :=
  ⟨hc ▸ h.configs, hl ▸ h.log⟩

theorem ok (h : n.Sound) : Outcome.Sound (n, .ok []) := ⟨h, by simp⟩

theorem error (h : n.Sound) (e : RaftError) : Outcome.Sound (n, .error e) := ⟨h, by simp⟩

end RaftNode.Sound

theorem Outcome.Sound.extend {r : Outcome} (h : r.Sound) {f : RaftNode → Outcome}
    (hf : ∀ n : RaftNode, n.Sound → (f n).Sound) : (r.extend f).Sound := by
  obtain ⟨n, e | outs⟩ := r
  · exact h
  have hn := hf n h.node
  unfold Outcome.extend
  simp only
  generalize f n = r at hn
  obtain ⟨n', e | more⟩ := r
  · exact hn.node.error e
  refine ⟨hn.node, ?_⟩
  rintro _ ⟨⟩ out hout
  rcases mem_append.1 hout with hout | hout
  · exact h.outs outs rfl out hout
  · exact hn.outs more rfl out hout

namespace RaftNode.Sound

variable {n : RaftNode}

variable (h : n.Sound)

include h

theorem stepDownToFollower : n.stepDownToFollower.Sound := by
  obtain ⟨results, hr⟩ := n.stepDownToFollower_eq
  rw [hr]
  exact h.of_eq rfl rfl

theorem observeTerm (term : ℕ) (now : Instant) : (n.observeTerm term now).1.Sound := by
  rcases Nat.lt_or_ge n.hard.currentTerm term with hlt | hge
  · obtain ⟨results, hr⟩ := observeTerm_of_lt hlt now
    rw [hr]
    exact ⟨h.configs, h.log.saveHardState _⟩
  · rw [observeTerm_of_le hge]
    exact h

theorem acceptLeader (leader : NodeId) (now : Instant) :
    (n.acceptLeader leader now).Sound := h.stepDownToFollower.of_eq rfl rfl

theorem refreshLeaderState : n.refreshLeaderState.Sound := by
  unfold RaftNode.refreshLeaderState
  split
  · exact h.of_eq rfl rfl
  · exact h

variable (peer : NodeId)

theorem recordMatch (i : ℕ) : (n.recordMatch peer i).Sound := by
  unfold RaftNode.recordMatch
  split
  · exact h.of_eq rfl rfl
  · exact h

theorem backOff (i : ℕ) : (n.backOff peer i).Sound := by
  unfold RaftNode.backOff
  split
  · exact h.of_eq rfl rfl
  · exact h

variable (src : NodeId)

theorem noteLeadershipAck (seq : ℕ) :
    (n.noteLeadershipAck src seq).Sound := by
  unfold RaftNode.noteLeadershipAck
  split
  · exact h.of_eq rfl rfl
  · exact h

theorem learnCommit (i j : ℕ) : (n.learnCommit i j).Sound := by
  unfold RaftNode.learnCommit
  split
  · exact h.of_eq rfl rfl
  · exact h

/-! ### Messages -/

theorem appendEntriesFor {peer : NodeId} {next seq : ℕ} {out : Outbound}
    (hout : n.appendEntriesFor peer next seq = .ok out) : out.Sound := by
  unfold RaftNode.appendEntriesFor at hout
  split at hout
  · split at hout
    · cases hout
    · rename_i info data hsnap
      cases hout
      exact h.log.db.snapshot info data hsnap
  · cases hout
    exact h.log.db.entriesFrom next

theorem buildAll {plan : List (NodeId × ℕ × ℕ)} {outs : List Outbound}
    (houts : n.buildAll plan = .ok outs) : ∀ out ∈ outs, out.Sound := by
  induction plan generalizing outs with
  | nil =>
    cases houts
    simp
  | cons p rest ih =>
    rw [RaftNode.buildAll] at houts
    split at houts
    · cases houts
    rename_i out hout
    split at houts
    · cases houts
    rename_i outs' houts'
    cases houts
    intro o ho
    rcases mem_cons.1 ho with rfl | ho
    · exact h.appendEntriesFor hout
    · exact ih houts' o ho

theorem replicateAll : n.replicateAll.Sound := by
  unfold RaftNode.replicateAll
  split
  · refine ⟨h.of_eq rfl rfl, fun outs houts => buildAll ?_ houts⟩
    exact h.of_eq rfl rfl
  · exact h.ok

theorem replicateTo : (n.replicateTo peer).Sound := by
  unfold RaftNode.replicateTo
  split
  · refine ⟨h.of_eq rfl rfl, fun outs houts => buildAll ?_ houts⟩
    exact h.of_eq rfl rfl
  · exact h.ok

theorem replicateIfBehind : (n.replicateIfBehind peer).Sound := by
  unfold RaftNode.replicateIfBehind
  split
  · exact h.replicateTo peer
  · exact h.ok

/-! ### The three places where configurations come into being -/

theorem appendConfig {c : ClusterConfig} (hc : c.Sound) :
    (n.appendConfig c).Sound := by
  apply refreshLeaderState
  constructor
  · exact h.configs.onAppend _ hc
  apply h.log.append
  apply EntriesSound.singleton
  rintro c' ⟨⟩
  exact hc

theorem appendConfigEntryWith {advance : RaftNode → Outcome}
    (ha : ∀ n : RaftNode, n.Sound → (advance n).Sound) {c : ClusterConfig} (hc : c.Sound) :
    (RaftNode.appendConfigEntryWith advance n c).Sound :=
  (ha _ (h.appendConfig hc)).extend fun _ hn => hn.replicateAll

theorem afterCommitConfigActions {advance : RaftNode → Outcome}
    (ha : ∀ n : RaftNode, n.Sound → (advance n).Sound) (now : Instant) :
    (RaftNode.afterCommitConfigActions advance n now).Sound := by
  unfold RaftNode.afterCommitConfigActions
  split
  · exact h.ok
  split
  · exact h.ok
  simp only
  split
  · exact h.appendConfigEntryWith ha h.configs.active.final
  split
  · exact ok (h.stepDownToFollower.of_eq rfl rfl)
  · exact h.ok

theorem advanceCommitIndexIn (calls : ℕ) (now : Instant) :
    (RaftNode.advanceCommitIndexIn calls n now).Sound := by
  induction calls generalizing n with
  | zero => exact h.ok
  | succ calls ih =>
    unfold RaftNode.advanceCommitIndexIn
    split
    · simp only
      split
      · exact h.ok
      · refine afterCommitConfigActions ?_ (fun n hn => ih hn) now
        exact h.of_eq rfl rfl
    · exact h.ok

variable (now : Instant)

theorem advanceCommitIndex : (n.advanceCommitIndex now).Sound :=
  h.advanceCommitIndexIn 2 now

theorem proposeConfChange (newVoters : OrdSet NodeId) (now : Instant) :
    (n.proposeConfChange newVoters now).Sound := by
  rcases n.proposeConfChange_cases newVoters now with ⟨e, heq⟩ | ⟨-, hempty, -, -, -, heq⟩
  · rw [heq]
    exact h.error e
  rw [heq]
  exact h.appendConfigEntryWith (fun n hn => hn.advanceCommitIndex now)
    (h.configs.active.joint hempty)

theorem proposeAddLearner (id : NodeId) (now : Instant) :
    (n.proposeAddLearner id now).Sound := by
  rcases n.proposeAddLearner_cases id now with ⟨e, heq⟩ | ⟨-, hflight, -, hid, heq⟩
  · rw [heq]
    exact h.error e
  rw [heq]
  exact h.appendConfigEntryWith (fun n hn => hn.advanceCommitIndex now)
    (h.configs.active.addLearner hflight hid)

/-! ### Everything else -/

theorem propose (command : Bytes) (now : Instant) :
    (n.propose command now).Sound := by
  unfold RaftNode.propose
  split
  · exact h.error _
  · refine (advanceCommitIndex ?_ now).extend fun _ hn => hn.replicateAll
    exact ⟨h.configs, h.log.append (.plain rfl)⟩

theorem becomeLeader : (n.becomeLeader now).Sound := by
  refine (advanceCommitIndex ?_ now).extend fun _ hn => hn.replicateAll
  exact ⟨h.configs, h.log.append (.plain rfl)⟩

theorem becomeCandidate : (n.becomeCandidate now).Sound :=
  ⟨h.configs, h.log.saveHardState _⟩

theorem tick : (n.tick now).Sound := by
  unfold RaftNode.tick
  split
  · split
    · exact replicateAll (h.of_eq rfl rfl)
    · exact h.ok
  split
  · split
    · exact ok (h.of_eq rfl rfl)
    · unfold startElection
      simp only
      split
      · exact (h.becomeCandidate now).becomeLeader now
      refine ⟨h.becomeCandidate now, ?_⟩
      rintro _ ⟨⟩ out hout
      obtain ⟨peer, -, rfl⟩ := mem_map.1 hout
      trivial
  · exact h.ok

theorem handleRequestVote (request : RequestVote) (now : Instant) :
    (n.handleRequestVote request now).1.Sound := by
  unfold RaftNode.handleRequestVote
  split
  · exact h
  have h' := h.observeTerm request.term now
  simp only
  split
  · exact h'
  split
  · exact ⟨h'.configs, h'.log.saveHardState _⟩
  · exact h'

theorem handleRequestVoteResponse (response : RequestVoteResponse)
    (now : Instant) : (n.handleRequestVoteResponse src response now).Sound := by
  have h' := h.observeTerm response.term now
  unfold RaftNode.handleRequestVoteResponse
  simp only
  split
  · exact h'.ok
  split
  · exact h'.ok
  split
  · split
    · exact becomeLeader (h'.of_eq rfl rfl) now
    · exact ok (h'.of_eq rfl rfl)
  · exact h'.ok

theorem appendNewEntries (he : EntriesSound entries) :
    (n.appendNewEntries entries).Sound := by
  induction entries with
  | nil => exact h
  | cons entry rest ih =>
    have hrest : EntriesSound rest := fun e hmem => he e (mem_cons_of_mem _ hmem)
    unfold RaftNode.appendNewEntries
    split
    · exact ih hrest
    split
    · split
      · exact ih hrest
      · exact ⟨(h.configs.filter _).noteAppendedConfigs he, (h.log.truncateFrom _).appendAll he⟩
    · exact ⟨h.configs.noteAppendedConfigs he, h.log.appendAll he⟩

theorem handleAppendEntries {request : AppendEntries}
    (he : EntriesSound request.entries) (now : Instant) :
    (n.handleAppendEntries request now).1.Sound := by
  have h' := h.observeTerm request.term now
  unfold RaftNode.handleAppendEntries
  simp only
  split
  · exact h'
  split
  · exact h'.acceptLeader _ now
  · exact ((h'.acceptLeader _ now).appendNewEntries he).learnCommit _ _

theorem handleAppendEntriesResponse (response : AppendEntriesResponse)
    (now : Instant) : (n.handleAppendEntriesResponse src response now).Sound := by
  have h' := h.observeTerm response.term now
  unfold RaftNode.handleAppendEntriesResponse
  simp only
  split
  · exact h'.ok
  split
  · exact h'.ok
  split
  · exact (((h'.noteLeadershipAck _ _).recordMatch _ _).advanceCommitIndex now).extend
      fun _ hn => hn.replicateIfBehind src
  · exact ((h'.noteLeadershipAck _ _).backOff _ _).replicateTo src

theorem handleInstallSnapshot {request : InstallSnapshot} (hc : request.config.Sound)
    (now : Instant) : (n.handleInstallSnapshot request now).1.Sound := by
  have h' := h.observeTerm request.term now
  unfold RaftNode.handleInstallSnapshot
  simp only
  split
  · exact h'
  split
  · exact h'
  split
  · exact h'.acceptLeader _ now
  have h'' := h'.acceptLeader request.leaderId now
  refine ⟨h''.configs.onInstallSnapshot hc _ _, ?_⟩
  simp only [adoptSnapshot]
  split
  · exact h''.log.writeSnapshot hc _ _
  · exact h''.log.writeSnapshot hc _ _

theorem handleInstallSnapshotResponse (response : InstallSnapshotResponse) (now : Instant) :
    (n.handleInstallSnapshotResponse src response now).Sound := by
  have h' := h.observeTerm response.term now
  unfold RaftNode.handleInstallSnapshotResponse
  simp only
  split
  · exact h'.ok
  split
  · exact h'.ok
  split
  · exact h'.ok
  · exact ((h'.recordMatch _ _).advanceCommitIndex now).extend
      fun _ hn => hn.replicateIfBehind src

theorem startRead : (n.startRead now).1.Sound ∧
      ∀ ticket outs, (n.startRead now).2 = .ok (ticket, outs) → ∀ out ∈ outs, out.Sound := by
  unfold RaftNode.startRead
  split
  · rename_i state hr
    simp only
    split
    · refine ⟨h.of_eq rfl rfl, ?_⟩
      simp
    have hall : Outcome.Sound (RaftNode.replicateAll { n with
        readSeq := (n.newRead state).id
        role := .leader
          { state with pendingReads := state.pendingReads ++ [n.newRead state] } }) := by
      apply replicateAll
      exact h.of_eq rfl rfl
    split
    · rename_i n' e heq
      rw [heq] at hall
      exact ⟨hall.node, by simp⟩
    rename_i n' outs heq
    rw [heq] at hall
    refine ⟨hall.node, ?_⟩
    rintro ticket _ ⟨⟩
    exact hall.outs outs rfl
  · exact ⟨h, by simp⟩

theorem compact (data : Bytes) : (n.compact data).1.Sound := by
  rcases n.compact_cases data with ⟨-, e, hc⟩ | ⟨info, -, hconfig, -, hc⟩
  · rw [hc]
    exact h
  rw [hc]
  refine ⟨h.configs.onCompact _, h.log.writeSnapshot ?_ _ _⟩
  rw [hconfig]
  exact h.configs.configAt _

end RaftNode.Sound

/-! ## Calls and clusters -/

/-- Every configuration that comes in with a call is sound. -/
def Call.Sound : Call → Prop
  | .appendEntries request _ => EntriesSound request.entries
  | .installSnapshot request _ => request.config.Sound
  | _ => True

/-- Every configuration a node holds or sends after a call is sound. -/
structure Effect.Sound (effect : Effect) : Prop where
  node : effect.node.Sound
  outs : ∀ out ∈ effect.outs, out.Sound

theorem Effect.Sound.ofOutcome {r : Outcome} (h : r.Sound) : (Effect.ofOutcome r).Sound := by
  obtain ⟨n, e | outs⟩ := r
  · exact ⟨h.node, by simp [Effect.ofOutcome]⟩
  · exact ⟨h.node, h.outs outs rfl⟩

/-- **Every call keeps configurations sound.** -/
theorem RaftNode.run_sound {n : RaftNode} (h : n.Sound) {call : Call} (hc : call.Sound) :
    (n.run call).Sound := by
  cases call with
  | op op =>
    cases op with
    | tick now => exact .ofOutcome (h.tick now)
    | propose command now => exact .ofOutcome (h.propose command now)
    | startRead now =>
      have hread := h.startRead now
      simp only [run, runOp]
      split
      · rename_i n' ticket outs heq
        rw [heq] at hread
        exact ⟨hread.1, hread.2 ticket outs rfl⟩
      rename_i n' e heq
      rw [heq] at hread
      exact ⟨hread.1, by simp⟩
    | drainReadResults => exact ⟨h.of_eq rfl rfl, by simp [run, runOp]⟩
    | proposeConfChange newVoters now => exact .ofOutcome (h.proposeConfChange newVoters now)
    | proposeAddLearner id now => exact .ofOutcome (h.proposeAddLearner id now)
    | compact data =>
      have hcompact := h.compact data
      simp only [run, runOp]
      split
      · rename_i n' info heq
        rw [heq] at hcompact
        exact ⟨hcompact, by simp⟩
      rename_i n' e heq
      rw [heq] at hcompact
      exact ⟨hcompact, by simp⟩
  | requestVote request now => exact ⟨h.handleRequestVote request now, by simp [run]⟩
  | appendEntries request now => exact ⟨h.handleAppendEntries hc now, by simp [run]⟩
  | installSnapshot request now =>
    have hinstall := h.handleInstallSnapshot hc now
    simp only [run]
    split
    · rename_i n' response heq
      rw [heq] at hinstall
      exact ⟨hinstall, by simp⟩
    rename_i n' e heq
    rw [heq] at hinstall
    exact ⟨hinstall, by simp⟩
  | requestVoteResponse src response now =>
    exact .ofOutcome (h.handleRequestVoteResponse src response now)
  | appendEntriesResponse src response now =>
    exact .ofOutcome (h.handleAppendEntriesResponse src response now)
  | installSnapshotResponse src response now =>
    exact .ofOutcome (h.handleInstallSnapshotResponse src response now)

/-- Every configuration in a cluster is sound. -/
structure Cluster.Sound (c : Cluster) : Prop where
  nodes : ∀ {id m}, c.members.get? id = some m → m.node.Sound
  bootstrap : ∀ {id m}, c.members.get? id = some m → m.bootstrap.Sound
  sent : ∀ {src out covered}, .request src out covered ∈ c.sent → out.Sound

namespace Cluster.Sound

variable {c : Cluster} {id : NodeId} {m : Member} {call : Call} {origin : Option Packet}
  {action : Action}

theorem bootstrapOf {voters : OrdSet NodeId} (hv : voters.isEmpty = false) (id : NodeId) :
    (bootstrapOf voters id).Sound := by
  have hne : ∀ {s : OrdSet NodeId} {v : NodeId}, v ∈ s → s.isEmpty = false := by
    intro s v hmem
    cases hs : s.isEmpty with
    | false => rfl
    | true =>
      rw [OrdSet.isEmpty, List.isEmpty_iff] at hs
      rw [OrdSet.mem_def, hs] at hmem
      cases hmem
  unfold Raft.bootstrapOf
  split
  · refine ⟨hne (v := id) ?_, ?_, ?_⟩
    · simp [newBootstrap, ClusterConfig.single]
    · simp [newBootstrap, ClusterConfig.single]
    · simp [newBootstrap, ClusterConfig.single]
  rename_i hid
  have hsame : OrdSet.ofList voters.toList = voters :=
    OrdSet.ext fun v => by rw [OrdSet.mem_ofList, OrdSet.mem_def]
  refine ⟨?_, ?_, ?_⟩
  · rw [learnerBootstrap, hsame]
    exact hv
  · simp [learnerBootstrap]
  · simpa [learnerBootstrap, hsame] using hid

theorem withBootstrap {boot : ClusterConfig} (hb : boot.Sound) (hdb : db.Sound) (id : NodeId)
    (rng : Rng) (config : Config) (now : Instant) :
    (RaftNode.withBootstrap id boot { db := db } rng config now).Sound :=
  ⟨.recover hb hdb, hdb, by simp [RaftNode.withBootstrap, armElectionTimer]⟩

theorem init {voters : OrdSet NodeId} (hv : voters.isEmpty = false) (starts : List Start) :
    (Cluster.init voters starts).Sound where
  nodes hm := by
    obtain ⟨s, -, -, rfl⟩ := Cluster.get?_init hm
    exact withBootstrap (bootstrapOf hv s.id) .empty s.id s.rng s.config s.now
  bootstrap hm := by
    obtain ⟨s, -, -, rfl⟩ := Cluster.get?_init hm
    exact bootstrapOf hv s.id
  sent h := absurd h not_mem_nil

theorem begin {n : RaftNode} (h : n.Sound) : n.begin.Sound :=
  ⟨h.configs, h.log.db, by simp [RaftNode.begin]⟩

theorem of_resolve (h : c.Sound) (hr : c.resolve action = some (id, call, origin)) :
    call.Sound := by
  cases action with
  | op =>
    cases hr
    trivial
  | deliver =>
    obtain ⟨p, hp, hcall⟩ := Option.map_eq_some_iff.1 hr
    have hmem := mem_of_getElem? hp
    cases p with
    | request src out =>
      have hout := h.sent hmem
      cases out <;> cases hcall
      · trivial
      · exact hout
      · exact hout
    | _ =>
      cases hcall
      trivial

theorem runOn (h : c.Sound) (hm : c.members.get? id = some m)
    (hr : c.resolve action = some (id, call, origin)) : (c.runOn id m call origin).Sound := by
  have heffect := RaftNode.run_sound (begin (h.nodes hm)) (h.of_resolve hr)
  have hboot := h.bootstrap hm
  refine ⟨?_, ?_, ?_⟩
  · intro id' m' hm'
    rcases OrdMap.of_get?_insert hm' with ⟨-, rfl⟩ | ⟨-, hget⟩
    · exact heffect.node
    · exact h.nodes hget
  · intro id' m' hm'
    rcases OrdMap.of_get?_insert hm' with ⟨-, rfl⟩ | ⟨-, hget⟩
    · exact hboot
    · exact h.bootstrap hget
  · intro src out covered hmem
    rcases Cluster.request_of_runOn hmem with hmem | ⟨-, hout, -⟩
    · exact h.sent hmem
    · exact heffect.outs out hout

theorem crashOn (h : c.Sound) (hm : c.members.get? id = some m)
    (hr : c.resolve action = some (id, call, origin)) (transactions : ℕ) (rng : Rng)
    (config : Config) (now : Instant) :
    (c.crashOn id m call origin transactions rng config now).Sound := by
  have heffect := RaftNode.run_sound (begin (h.nodes hm)) (h.of_resolve hr)
  have hboot := h.bootstrap hm
  have hdb : (Cluster.crashedDb m.node.log.db (m.node.begin.run call).node.log
      transactions).Sound := by
    rw [Cluster.crashedDb]
    cases hget : (m.node.log.db :: (m.node.begin.run call).node.log.commits)[transactions]? with
    | none => exact heffect.node.log.db
    | some db =>
      rcases mem_cons.1 (mem_of_getElem? hget) with rfl | hmem
      · exact (h.nodes hm).log.db
      · exact heffect.node.log.commits db hmem
  refine ⟨?_, ?_, h.sent⟩
  · intro id' m' hm'
    rcases OrdMap.of_get?_insert hm' with ⟨-, rfl⟩ | ⟨-, hget⟩
    · exact withBootstrap (h.bootstrap hm) hdb id rng config now
    · exact h.nodes hget
  intro id' m' hm'
  rcases OrdMap.of_get?_insert hm' with ⟨-, rfl⟩ | ⟨-, hget⟩
  · exact hboot
  · exact h.bootstrap hget

/-- **A step of the cluster** keeps every configuration sound. -/
theorem step (h : c.Sound) (e : Event) : (c.step e).Sound := by
  have hs := c.stepped e
  generalize c.step e = c' at hs
  cases hs with
  | idle => exact h
  | ran hr hm => exact h.runOn hm hr
  | crashed hr hm => exact h.crashOn hm hr _ _ _ _

end Cluster.Sound

/-- **Every configuration is sound**, throughout a run. -/
theorem Run.sound (r : Run) (hv : r.voters.isEmpty = false) (k : ℕ) : (r.state k).Sound := by
  rw [Run.state, Cluster.exec]
  induction r.events.take k using reverseRecOn with
  | nil => exact .init hv r.starts
  | append_singleton events e ih =>
    rw [foldl_append, foldl_cons, foldl_nil]
    exact ih.step e

/-! ## Configurations one after the other -/

theorem Follows.of_consecutive {voters : OrdSet NodeId} {l : List LogEntry}
    (h : (rules voters).Admitted l) {i j : ℕ}
    (hij : i < j) {e' : LogEntry} {c : ClusterConfig} (he : l[i]? = some e) (he' : l[j]? = some e')
    (hc : e.config? = some c) (hc' : e'.config? = some c')
    (hnone : ∀ x y, i < x → x < j → l[x]? = some y → y.config? = none) :
    Follows c.electorate c'.electorate := by
  have htake : l.take j ++ [e'] <+: l := by
    have : l.take (j + 1) = l.take j ++ [e'] := by
      rw [take_add_one, he']
      rfl
    rw [← this]
    exact List.take_prefix _ _
  have hfollows := (h (l.take j) e' htake).2 c'.electorate (by simp [LogEntry.electorate?, hc'])
  -- the last configuration before `e'` is that of `e`
  have hsplit : l.take j = l.take i ++ [e] ++ (l.drop (i + 1)).take (j - (i + 1)) := by
    rw [show l.take i ++ [e] = l.take (i + 1) by rw [take_add_one, he]; rfl]
    conv_lhs => rw [show j = (i + 1) + (j - (i + 1)) by omega, take_add]
  have hrest : ((l.drop (i + 1)).take (j - (i + 1))).filterMap LogEntry.electorate? = [] := by
    apply filterMap_eq_nil_iff.2
    intro y hy
    obtain ⟨x, hx⟩ := mem_iff_getElem?.1 hy
    rw [getElem?_take] at hx
    split at hx
    · rw [getElem?_drop] at hx
      simp [LogEntry.electorate?, hnone (i + 1 + x) y (by omega) (by omega) hx]
    · cases hx
  rw [hsplit, filterMap_append, hrest, append_nil, filterMap_append] at hfollows
  simpa [LogEntry.electorate?, hc] using hfollows

theorem Follows.overlap {c : ClusterConfig} (h : Follows c.electorate c'.electorate)
    {acks acks' : OrdSet NodeId} (hq : c.hasQuorum acks = true) (hq' : c'.hasQuorum acks' = true) :
    ∃ v, v ∈ acks ∧ v ∈ acks' := by
  have hA : IsQuorum c.electorate { v | v ∈ acks } := ⟨acks, fun _ hv => hv, hq⟩
  have hB : IsQuorum c'.electorate { v | v ∈ acks' } := ⟨acks', fun _ hv => hv, hq'⟩
  exact (rules ∅).overlap_next h hA hB

theorem Follows.of_joint {c : ClusterConfig} (h : Follows c.electorate c'.electorate)
    (hj : c.isJoint = true) : c'.voters = c.voters ∧ c'.oldVoters = none := by
  obtain ⟨voters, old, learners⟩ := c
  obtain ⟨voters', old', learners'⟩ := c'
  cases h with
  | learner => cases hj
  | joint => cases hj
  | final => exact ⟨rfl, rfl⟩

/-- **Membership soundness.**  From a bootstrap voter set that is not empty, every
configuration stored in a log or a snapshot is sound; and of two configurations
committed one after the other, every quorum of the one meets every quorum of the
other, and a joint one is followed by its final one. -/
theorem membership_sound (r : Run) (hv : r.voters.isEmpty = false) {k : ℕ} {id : NodeId}
    {m : Member} (h : r.Has k id m) :
    (∀ i e c, m.node.log.db.get i = some e → e.config? = some c → c.Sound) ∧
      (∀ info data, m.node.log.db.snapshot = some (info, data) → info.config.Sound) ∧
      ∀ i j e e' c c', 0 < i → i < j → j ≤ m.node.commitIndex →
        m.entryAt i = some e → m.entryAt j = some e' →
        e.config? = some c → e'.config? = some c' →
        (∀ x y, i < x → x < j → m.entryAt x = some y → y.config? = none) →
        (∀ acks acks', c.hasQuorum acks = true → c'.hasQuorum acks' = true →
          ∃ v, v ∈ acks ∧ v ∈ acks') ∧
        (c.isJoint = true → c'.voters = c.voters ∧ c'.oldVoters = none) := by
  have hsound := ((r.sound hv k).nodes h).log.db
  refine ⟨fun i e c hget hc => hsound.log i e hget c hc, hsound.snapshot, ?_⟩
  intro i j e e' c c' h0 hij _ he he' hc hc' hnone
  obtain ⟨chain, hchain⟩ := r.exists_refines
  have hi := hchain.inv k
  have hrel := hchain.member h
  rw [hrel.entryAt_eq hi h0] at he
  rw [hrel.entryAt_eq hi (h0.trans hij)] at he'
  have hfollows : Follows c.electorate c'.electorate := by
    refine .of_consecutive ((hi.log_anchored id).admitted hi.llog_admitted)
      (show i - 1 < j - 1 by omega) he he' hc hc' ?_
    intro x y hix hxj hy
    refine hnone (x + 1) y (by omega) (by omega) ?_
    rw [hrel.entryAt_eq hi (Nat.succ_pos x)]
    exact hy
  exact ⟨fun _ _ hq hq' => hfollows.overlap hq hq', hfollows.of_joint⟩

/-- `a` is elected; then `c` leaves the voters, through a joint configuration. -/
def Sample.changeRun : Run where
  voters := voters
  starts := starts
  events := [tick a 1000, deliver 0 1001, deliver 2 1002, deliver 3 1003, deliver 5 1004,
    .run (.op a (.proposeConfChange (OrdSet.ofList [a, b]) (Duration.fromMillis 1005))),
    deliver 6 1006, deliver 8 1007, deliver 9 1008, deliver 11 1009]
  within := by decide +kernel

open Sample

theorem membership_sound_sample : ∃ m e e' c c', changeRun.Has 10 a m ∧
    m.node.commitIndex = 3 ∧ m.entryAt 2 = some e ∧ m.entryAt 3 = some e' ∧
    e.config? = some c ∧ e'.config? = some c' ∧ c.isJoint = true ∧
    c'.voters = c.voters ∧ c'.oldVoters = none := by
  obtain ⟨m, h, hp⟩ := changeRun.exists_has 10 a
    (fun m => decide (m.node.commitIndex = 3) &&
      ((m.entryAt 2).bind LogEntry.config?).any ClusterConfig.isJoint &&
      ((m.entryAt 3).bind LogEntry.config?).isSome) (by decide +kernel)
  rw [Bool.and_eq_true, Bool.and_eq_true, decide_eq_true_eq, Option.any_eq_true,
    Option.isSome_iff_exists] at hp
  obtain ⟨⟨hcommit, c, hjoint, hj⟩, c', hfinal⟩ := hp
  obtain ⟨e, he, hc⟩ := Option.bind_eq_some_iff.1 hjoint
  obtain ⟨e', he', hc'⟩ := Option.bind_eq_some_iff.1 hfinal
  have hrun := (membership_sound changeRun (by decide +kernel) h).2.2 2 3 e e' c c'
    (by decide) (by decide) (by omega) he he' hc hc' (by omega)
  exact ⟨m, e, e', c, c', h, hcommit, he, he', hc, hc', hj, hrun.2 hj⟩

end Brokkr.Raft
