import Brokkr.Raft.Cluster

/-!
# What a call does to the reads of a leader, its peers and the stored snapshot

A linearizable read waits in the leader's bookkeeping until a quorum has replied
to messages stamped no earlier than the read itself.  Of all the calls on a node
only two touch the reads that are waiting; the others keep them, or fail them all
by stepping down.  The stored snapshot changes in two calls only, too, and two calls
credit a peer with what it holds.

* `SameReads` — the reads are kept, sequence numbers only grow, no read resolves.
* `KeepsSnapshot`, `KeepsMatches`, `Steady` — and so are the stored snapshot and what the
  leader believes of its peers.
* `Call.Credits` — what a peer is credited with.
* `Quiet` — a call that is steady, with every message it sends stamped with a
  number that is used up, and every snapshot it sends the stored one.
* `CallEffect`, `RaftNode.run_effect` — what any call is: steady, but for what it
  opens with; or the installation of a snapshot; or a compaction.
-/

namespace Brokkr.Raft

open RaftNode

variable {l : RaftLog} {state : LeaderState} {outs : List Outbound} {r : Outcome} {call : Call}

variable {n n' m : RaftNode}

/-! ## Calls that keep the reads -/

/-- The reads of `n` are kept: whoever leads in `n'` has led the same term with
the same reads waiting, and no read has resolved. -/
structure SameReads (n n' : RaftNode) : Prop where
  leader : ∀ {state'}, n'.role = .leader state' → ∃ state, n.role = .leader state ∧
    n'.hard.currentTerm = n.hard.currentTerm ∧ state'.pendingReads = state.pendingReads ∧
    state.aeSeq ≤ state'.aeSeq
  results : ∀ {ticket i}, (ticket, .ok i) ∈ n'.readResults → (ticket, .ok i) ∈ n.readResults
  readSeq : n'.readSeq = n.readSeq

/-- The stored snapshot is kept, and every transaction on the way kept it. -/
structure KeepsSnapshot (l l' : RaftLog) : Prop where
  last : l'.db.snapshot = l.db.snapshot
  trail : ∀ db ∈ l'.commits, db ∈ l.commits ∨ db.snapshot = l.db.snapshot

theorem KeepsSnapshot.refl (l : RaftLog) : KeepsSnapshot l l := ⟨rfl, fun _ h => Or.inl h⟩

theorem KeepsSnapshot.trans {l' l'' : RaftLog} (h : KeepsSnapshot l l') (h' : KeepsSnapshot l' l'')
    : KeepsSnapshot l l'' where
  last := h'.last.trans h.last
  trail db hdb := by
    rcases h'.trail db hdb with hdb | hdb
    · exact h.trail db hdb
    · exact .inr (hdb.trans h.last)

theorem KeepsSnapshot.commit {db : Db} (h : db.snapshot = l.db.snapshot) :
    KeepsSnapshot l (l.commit db) where
  last := h
  trail db' hdb := by
    rcases List.mem_append.1 hdb with hdb | hdb
    · exact .inl hdb
    · rw [List.mem_singleton.1 hdb]
      exact .inr h

/-- The last transaction, and no other, has stored a snapshot. -/
structure Writes (l l' : RaftLog) (snapshot : SnapshotMeta × Bytes) : Prop where
  last : l'.db.snapshot = some snapshot
  trail : ∀ db ∈ l'.commits, db ∈ l.commits ∨ db.snapshot = l.db.snapshot ∨
    db.snapshot = some snapshot

theorem Writes.writeSnapshot {l' : RaftLog} (h : KeepsSnapshot l l') (info : SnapshotMeta)
    (data : Bytes) (wipe : Bool) : Writes l (l'.writeSnapshot info data wipe) (info, data) where
  last := rfl
  trail db hdb := by
    rcases List.mem_append.1 hdb with hdb | hdb
    · exact (h.trail db hdb).imp_right Or.inl
    · rw [List.mem_singleton.1 hdb]
      exact .inr (.inr rfl)

/-- Nobody is credited with anything: whoever leads in `n'` has believed the same of its
peers before. -/
structure KeepsMatches (n n' : RaftNode) : Prop where
  believed : ∀ {state'}, n'.role = .leader state' → ∀ {p i},
    state'.matchIndex.get? p = some i → 0 < i →
      ∃ state, n.role = .leader state ∧ state.matchIndex.get? p = some i

theorem KeepsMatches.of_role (h : n'.role = n.role) : KeepsMatches n n' :=
  ⟨fun hr _ _ hp _ => ⟨_, h ▸ hr, hp⟩⟩

theorem KeepsMatches.trans (h : KeepsMatches n n') (h' : KeepsMatches n' m) :
    KeepsMatches n m := by
  refine ⟨fun hr p i hp hi => ?_⟩
  obtain ⟨state', hr', hp'⟩ := h'.believed hr hp hi
  exact h.believed hr' hp' hi

/-- The reads are kept, and so are the stored snapshot and the acknowledgements. -/
structure Steady (n n' : RaftNode) : Prop extends SameReads n n' where
  snapshot : KeepsSnapshot n.log n'.log
  matched : KeepsMatches n n'

theorem SameReads.refl (n : RaftNode) : SameReads n n :=
  ⟨fun h => ⟨_, h, rfl, rfl, le_rfl⟩, fun h => h, rfl⟩

theorem SameReads.trans (h : SameReads n n') (h' : SameReads n' m) : SameReads n m where
  leader hm := by
    obtain ⟨s₁, hr₁, ht₁, hp₁, ha₁⟩ := h'.leader hm
    obtain ⟨s₂, hr₂, ht₂, hp₂, ha₂⟩ := h.leader hr₁
    exact ⟨s₂, hr₂, ht₁.trans ht₂, hp₁.trans hp₂, ha₂.trans ha₁⟩
  results hm := h.results (h'.results hm)
  readSeq := h'.readSeq.trans h.readSeq

theorem SameReads.of_eq (hr : n'.role = n.role) (hh : n'.hard.currentTerm = n.hard.currentTerm)
    (hres : n'.readResults = n.readResults) (hs : n'.readSeq = n.readSeq) : SameReads n n' :=
  ⟨fun h => ⟨_, hr ▸ h, hh, rfl, le_rfl⟩, fun h => hres ▸ h, hs⟩

theorem SameReads.recordMatch (n : RaftNode) (peer : NodeId) (i : ℕ) :
    SameReads n (n.recordMatch peer i) := by
  unfold RaftNode.recordMatch
  split
  · rename_i state hr
    refine ⟨?_, fun h => h, rfl⟩
    rintro _ ⟨⟩
    exact ⟨state, hr, rfl, rfl, le_rfl⟩
  · exact SameReads.refl n

namespace Steady

theorem refl (n : RaftNode) : Steady n n := ⟨SameReads.refl n, .refl n.log, .of_role rfl⟩

theorem trans (h : Steady n n') (h' : Steady n' m) : Steady n m :=
  ⟨h.toSameReads.trans h'.toSameReads, h.snapshot.trans h'.snapshot, h.matched.trans h'.matched⟩

theorem of_eq (hr : n'.role = n.role) (hh : n'.hard.currentTerm = n.hard.currentTerm)
    (hres : n'.readResults = n.readResults) (hs : n'.readSeq = n.readSeq)
    (hsnap : KeepsSnapshot n.log n'.log) : Steady n n' :=
  ⟨SameReads.of_eq hr hh hres hs, hsnap, .of_role hr⟩

theorem of_not_leader (hr : ∀ state, n'.role ≠ .leader state)
    (hres : ∀ {ticket i}, (ticket, .ok i) ∈ n'.readResults → (ticket, .ok i) ∈ n.readResults)
    (hs : n'.readSeq = n.readSeq) (hsnap : KeepsSnapshot n.log n'.log) :
    Steady n n' :=
  ⟨⟨fun h => absurd h (hr _), hres, hs⟩, hsnap, ⟨fun h => absurd h (hr _)⟩⟩

theorem of_leader {state' : LeaderState} (hr : n.role = .leader state)
    (hp : state'.pendingReads = state.pendingReads) (hs : state.aeSeq ≤ state'.aeSeq)
    (hm : ∀ {p i}, state'.matchIndex.get? p = some i → 0 < i → state.matchIndex.get? p = some i) :
    Steady n { n with role := .leader state' } := by
  refine ⟨⟨?_, fun h => h, rfl⟩, .refl n.log, ⟨?_⟩⟩
  · rintro _ ⟨⟩
    exact ⟨state, hr, rfl, hp, hs⟩
  · rintro _ ⟨⟩ p i hget hi
    exact ⟨state, hr, hm hget hi⟩

theorem stepDownToFollower (n : RaftNode) : Steady n n.stepDownToFollower := by
  obtain ⟨results, hr⟩ := n.stepDownToFollower_eq
  refine of_not_leader (by simp [hr]) ?_ (by rw [hr]) (by rw [hr]; exact .refl n.log)
  intro ticket i hm
  unfold RaftNode.stepDownToFollower at hm
  split at hm
  · rcases List.mem_append.1 hm with hm | hm
    · exact hm
    · obtain ⟨read, -, hread⟩ := List.mem_map.1 hm
      cases hread
  · exact hm

theorem observeTerm (n : RaftNode) (t : ℕ) (now : Instant) :
    Steady n (n.observeTerm t now).1 := by
  unfold RaftNode.observeTerm
  split
  · have h := stepDownToFollower { n with hard := n.hard.steppedTo t }
    refine of_not_leader ?_ h.results h.readSeq (h.snapshot.trans (.commit rfl))
    obtain ⟨results, hr⟩ := stepDownToFollower_eq { n with hard := n.hard.steppedTo t }
    simp [hr, armElectionTimer]
  · exact refl n

theorem acceptLeader (n : RaftNode) (leader : NodeId) (now : Instant) :
    Steady n (n.acceptLeader leader now) :=
  (stepDownToFollower n).trans (of_eq rfl rfl rfl rfl (.refl _))

theorem refreshLeaderState (n : RaftNode) : Steady n n.refreshLeaderState := by
  unfold RaftNode.refreshLeaderState
  split
  · rename_i state hr
    refine of_leader hr rfl le_rfl ?_
    intro p i hget hi
    exact (refreshed_match hget).resolve_right hi.ne'
  · exact refl n

theorem appendConfig (n : RaftNode) (config : ClusterConfig) :
    Steady n (n.appendConfig config) := by
  refine trans ?_ (refreshLeaderState _)
  exact of_eq rfl rfl rfl rfl (.commit rfl)

theorem backOff (n : RaftNode) (peer : NodeId) (i : ℕ) : Steady n (n.backOff peer i) := by
  unfold RaftNode.backOff
  split
  · rename_i state hr
    exact of_leader hr rfl le_rfl fun h _ => h
  · exact refl n

theorem appendNewEntries (n : RaftNode) (entries : List LogEntry) :
    Steady n (n.appendNewEntries entries) := by
  induction entries with
  | nil => exact refl n
  | cons entry rest ih =>
    unfold RaftNode.appendNewEntries
    split
    · exact ih
    split
    · split
      · exact ih
      · have htruncated : KeepsSnapshot n.log (n.log.truncateFrom entry.index) := .commit rfl
        exact of_eq rfl rfl rfl rfl (htruncated.trans (.commit rfl))
    · exact of_eq rfl rfl rfl rfl (.commit rfl)

theorem learnCommit (n : RaftNode) (i j : ℕ) : Steady n (n.learnCommit i j) := by
  unfold RaftNode.learnCommit
  split
  · exact of_eq rfl rfl rfl rfl (.refl _)
  · exact refl n

theorem handleRequestVote (n : RaftNode) (request : RequestVote) (now : Instant) :
    Steady n (n.handleRequestVote request now).1 := by
  unfold RaftNode.handleRequestVote
  split
  · exact refl n
  have h := observeTerm n request.term now
  simp only
  split
  · exact h
  split
  · exact h.trans (of_eq rfl rfl rfl rfl (.commit rfl))
  · exact h

theorem handleAppendEntries (n : RaftNode) (request : AppendEntries) (now : Instant) :
    Steady n (n.handleAppendEntries request now).1 := by
  have h := observeTerm n request.term now
  unfold RaftNode.handleAppendEntries
  simp only
  split
  · exact h
  have h' := h.trans (acceptLeader _ request.leaderId now)
  split
  · exact h'
  · exact h'.trans ((appendNewEntries _ _).trans (learnCommit _ _ _))

theorem drainReadResults (n : RaftNode) : Steady n n.drainReadResults.1 :=
  ⟨⟨fun h => ⟨_, h, rfl, rfl, le_rfl⟩, nofun, rfl⟩, .refl n.log, .of_role rfl⟩

end Steady

/-! ## What is sent -/

/-- No message is stamped with a number the leader has yet to use, and a snapshot
that is sent is the stored one. -/
structure Sent (n : RaftNode) (outs : List Outbound) : Prop where
  stamp : ∀ {state}, n.role = .leader state → ∀ {peer request},
    .appendEntries peer request ∈ outs → request.seq ≤ state.aeSeq
  blob : ∀ {peer request}, .installSnapshot peer request ∈ outs →
    ∃ info, n.log.db.snapshot = some (info, request.data)

theorem Sent.nil (n : RaftNode) : Sent n [] := ⟨nofun, nofun⟩

theorem Sent.append {more : List Outbound} (h : Sent n outs) (h' : Sent n more) :
    Sent n (outs ++ more) where
  stamp hr _ _ hmem := (List.mem_append.1 hmem).elim (h.stamp hr) (h'.stamp hr)
  blob hmem := (List.mem_append.1 hmem).elim h.blob h'.blob

theorem Sent.mono (h : Sent n outs) (hs : Steady n n') : Sent n' outs where
  stamp := by
    intro state' hr peer request hmem
    obtain ⟨state, hr', -, -, hle⟩ := hs.leader hr
    exact (h.stamp hr' hmem).trans hle
  blob hmem := hs.snapshot.last ▸ h.blob hmem

/-- A call that keeps the reads and the stored snapshot. -/
structure Quiet (n : RaftNode) (r : Outcome) : Prop where
  same : Steady n r.1
  sent : ∀ {outs}, r.2 = .ok outs → Sent r.1 outs

namespace Quiet

theorem ok (h : Steady n n') : Quiet n (n', .ok []) := ⟨h, by rintro outs ⟨⟩; exact Sent.nil n'⟩

theorem error (h : Steady n n') (e : RaftError) : Quiet n (n', .error e) := ⟨h, by rintro outs ⟨⟩⟩

theorem after (h' : Quiet n' r) (h : Steady n n') : Quiet n r := ⟨h.trans h'.same, h'.sent⟩

theorem extend (h : Quiet n r) {f : RaftNode → Outcome} (hf : ∀ n, Quiet n (f n)) :
    Quiet n (r.extend f) := by
  obtain ⟨n', res⟩ := r
  cases res with
  | error e => exact error h.same e
  | ok =>
    have hn := hf n'
    unfold Outcome.extend
    simp only
    generalize f n' = r at hn
    obtain ⟨n'', res⟩ := r
    cases res with
    | error e => exact error (h.same.trans hn.same) e
    | ok =>
      refine ⟨h.same.trans hn.same, ?_⟩
      rintro _ ⟨⟩
      exact ((h.sent rfl).mono hn.same).append (hn.sent rfl)

end Quiet

theorem sent_appendEntriesFor (hr : n.role = .leader state) {peer : NodeId} {next seq : ℕ}
    {out : Outbound} (h : n.appendEntriesFor peer next seq = .ok out) (hseq : seq ≤ state.aeSeq) :
    Sent n [out] := by
  unfold appendEntriesFor at h
  split at h
  · split at h
    · cases h
    · rename_i info data hsnap
      cases h
      refine ⟨fun _ _ _ hmem => absurd (List.mem_singleton.1 hmem) (by simp), ?_⟩
      intro peer' request hmem
      cases List.mem_singleton.1 hmem
      exact ⟨info, hsnap⟩
  · cases h
    refine ⟨?_, fun hmem => absurd (List.mem_singleton.1 hmem) (by simp)⟩
    intro state' hr' peer' request hmem
    cases List.mem_singleton.1 hmem
    obtain rfl : state = state' := Role.leader.inj (hr.symm.trans hr')
    exact hseq

theorem sent_buildAll (hr : n.role = .leader state) {plan : List (NodeId × ℕ × ℕ)}
    (hplan : ∀ p ∈ plan, p.2.2 ≤ state.aeSeq) (h : n.buildAll plan = .ok outs) : Sent n outs := by
  induction plan generalizing outs with
  | nil =>
    cases h
    exact Sent.nil n
  | cons p rest ih =>
    rw [buildAll] at h
    split at h
    · cases h
    rename_i out hout
    split at h
    · cases h
    rename_i outs' houts
    cases h
    exact (sent_appendEntriesFor hr hout (hplan _ List.mem_cons_self)).append
      (ih (fun p hp => hplan p (List.mem_cons_of_mem _ hp)) houts)

theorem seq_le_of_planAll {peers : List NodeId} {seq : ℕ} {p : NodeId × ℕ × ℕ}
    (h : p ∈ planAll state peers seq) :
    p.2.2 ≤ seq + peers.length := by
  induction peers generalizing seq with
  | nil => exact absurd h List.not_mem_nil
  | cons peer rest ih =>
    rw [List.length_cons]
    rcases List.mem_cons.1 h with rfl | h
    · simp only
      omega
    · have := ih h
      omega

namespace Quiet

theorem replicateAll (n : RaftNode) : Quiet n n.replicateAll := by
  unfold RaftNode.replicateAll
  split
  · rename_i state hr
    exact ⟨Steady.of_leader hr rfl (Nat.le_add_right _ _) fun h _ => h,
      fun h => sent_buildAll rfl (fun p hp => seq_le_of_planAll hp) h⟩
  · exact ok (Steady.refl n)

theorem replicateTo (n : RaftNode) (peer : NodeId) : Quiet n (n.replicateTo peer) := by
  unfold RaftNode.replicateTo
  split
  · rename_i state hr
    refine ⟨Steady.of_leader hr rfl (Nat.le_add_right _ _) fun h _ => h,
      fun h => sent_buildAll rfl ?_ h⟩
    intro p hp
    rw [List.mem_singleton.1 hp]
  · exact ok (Steady.refl n)

theorem replicateIfBehind (n : RaftNode) (peer : NodeId) : Quiet n (n.replicateIfBehind peer) := by
  unfold RaftNode.replicateIfBehind
  split
  · exact replicateTo n peer
  · exact ok (Steady.refl n)

theorem appendConfigEntryWith {advance : RaftNode → Outcome} (h : ∀ n, Quiet n (advance n))
    (n : RaftNode) (config : ClusterConfig) :
    Quiet n (RaftNode.appendConfigEntryWith advance n config) :=
  ((h _).extend replicateAll).after (Steady.appendConfig n config)

theorem afterCommitConfigActions {advance : RaftNode → Outcome} (h : ∀ n, Quiet n (advance n))
    (n : RaftNode) (now : Instant) :
    Quiet n (RaftNode.afterCommitConfigActions advance n now) := by
  unfold RaftNode.afterCommitConfigActions
  split
  · exact ok (Steady.refl n)
  split
  · exact ok (Steady.refl n)
  simp only
  split
  · exact appendConfigEntryWith h n _
  split
  · exact ok ((Steady.stepDownToFollower n).trans (Steady.of_eq rfl rfl rfl rfl (.refl _)))
  · exact ok (Steady.refl n)

theorem advanceCommitIndexIn (calls : ℕ) (n : RaftNode) (now : Instant) :
    Quiet n (RaftNode.advanceCommitIndexIn calls n now) := by
  induction calls generalizing n with
  | zero => exact ok (Steady.refl n)
  | succ calls ih =>
    unfold RaftNode.advanceCommitIndexIn
    split
    · simp only
      split
      · exact ok (Steady.refl n)
      · exact (afterCommitConfigActions ih _ now).after (Steady.of_eq rfl rfl rfl rfl (.refl _))
    · exact ok (Steady.refl n)

theorem advanceCommitIndex (n : RaftNode) (now : Instant) : Quiet n (n.advanceCommitIndex now) :=
  advanceCommitIndexIn 2 n now

theorem propose (n : RaftNode) (command : Bytes) (now : Instant) :
    Quiet n (n.propose command now) := by
  unfold RaftNode.propose
  split
  · exact error (Steady.refl n) _
  · exact ((advanceCommitIndex _ now).extend replicateAll).after
      (Steady.of_eq rfl rfl rfl rfl (.commit rfl))

theorem appendConfigEntry (n : RaftNode) (config : ClusterConfig) (now : Instant) :
    Quiet n (n.appendConfigEntry config now) :=
  appendConfigEntryWith (fun n => advanceCommitIndex n now) n config

theorem proposeConfChange (n : RaftNode) (newVoters : OrdSet NodeId) (now : Instant) :
    Quiet n (n.proposeConfChange newVoters now) := by
  rcases n.proposeConfChange_cases newVoters now with ⟨e, heq⟩ | ⟨-, -, -, -, -, heq⟩
  · rw [heq]
    exact error (Steady.refl n) e
  · rw [heq]
    exact appendConfigEntry n _ now

theorem proposeAddLearner (n : RaftNode) (id : NodeId) (now : Instant) :
    Quiet n (n.proposeAddLearner id now) := by
  rcases n.proposeAddLearner_cases id now with ⟨e, heq⟩ | ⟨-, -, -, -, heq⟩
  · rw [heq]
    exact error (Steady.refl n) e
  · rw [heq]
    exact appendConfigEntry n _ now

end Quiet

/-! ## Every call -/

namespace RaftNode

/-- A leader with one more read waiting. -/
def withRead (n : RaftNode) (state : LeaderState) : RaftNode :=
  { n with
    readSeq := (n.newRead state).id
    role := .leader { state with pendingReads := state.pendingReads ++ [n.newRead state] } }

/-- A leader that has answered a read at once. -/
def answerRead (n : RaftNode) (state : LeaderState) : RaftNode :=
  { n with
    readSeq := (n.newRead state).id
    readResults := n.readResults ++ [((n.newRead state).id, .ok (n.newRead state).readIndex)] }

theorem startRead_of_quorum (hr : n.role = .leader state)
    (hq : n.configs.active.hasQuorum (n.newRead state).acks = true) (now : Instant) :
    n.startRead now = (n.answerRead state, .ok ((n.newRead state).id, [])) := by
  simp only [startRead, hr, hq, if_true, answerRead]

theorem startRead_of_waiting (hr : n.role = .leader state)
    (hq : n.configs.active.hasQuorum (n.newRead state).acks = false) (now : Instant) :
    n.startRead now = match (n.withRead state).replicateAll with
      | (m, .error e) => (m, .error e)
      | (m, .ok outs) => (m, .ok ((n.newRead state).id, outs)) := by
  rw [startRead, hr]
  exact if_neg (by rw [hq]; exact Bool.false_ne_true)

theorem startRead_of_not_leader (hr : ∀ state, n.role ≠ .leader state) (now : Instant) :
    n.startRead now = (n, .error n.notLeaderError) := by
  unfold startRead
  split
  · rename_i state hrole
    exact absurd hrole (hr state)
  · rfl

end RaftNode

/-- What a call credits a peer with. -/
def Call.Credits (call : Call) (n : RaftNode) (p : NodeId) (i : ℕ) : Prop :=
  match call with
  | .appendEntriesResponse src response _ => p = src ∧ response.success = true ∧
      response.term = n.hard.currentTerm ∧ i = response.matchIndex
  | .installSnapshotResponse src response _ => p = src ∧ n.isLeader = true ∧
      response.term = n.hard.currentTerm ∧ i = n.snapshotIndex
  | _ => False

/-- What a call does to the reads before anything else. -/
inductive Opening (n : RaftNode) : Call → RaftNode → Prop
  | nothing {call : Call} : Opening n call n
  | elected {call : Call} {n₀ : RaftNode} (state : LeaderState) (role : n₀.role = .leader state)
      (reads : state.pendingReads = []) (results : n₀.readResults = n.readResults)
      (readSeq : n₀.readSeq = n.readSeq)
      (term : n.hard.currentTerm < n₀.hard.currentTerm ∨
        n₀.hard.currentTerm = n.hard.currentTerm ∧ ∃ votes, n.role = .candidate votes)
      (matched : ∀ {p i}, state.matchIndex.get? p = some i → i = 0) : Opening n call n₀
  | registered {now : Instant} (state : LeaderState) (role : n.role = .leader state) :
      Opening n (.op (.startRead now)) (n.withRead state)
  | answered {now : Instant} (state : LeaderState) (role : n.role = .leader state)
      (ready : n.configs.active.hasQuorum (n.newRead state).acks = true) :
      Opening n (.op (.startRead now)) (n.answerRead state)
  | credited {src : NodeId} {response : AppendEntriesResponse} {now : Instant}
      (state : LeaderState) (role : n.role = .leader state)
      (term : response.term = n.hard.currentTerm) :
      Opening n (.appendEntriesResponse src response now) (n.noteLeadershipAck src response.seq)

/-- What a call does to what the leader believes of its peers, next. -/
inductive Granted (n : RaftNode) (call : Call) (n₀ : RaftNode) : RaftNode → Prop
  | nothing : Granted n call n₀ n₀
  | matched {p : NodeId} {i : ℕ} (credits : call.Credits n p i)
      (term : n₀.hard.currentTerm = n.hard.currentTerm) : Granted n call n₀ (n₀.recordMatch p i)

/-- What a call does to the reads and to the stored snapshot. -/
inductive CallEffect (n : RaftNode) : Call → Effect → Prop
  | steady {call : Call} {effect : Effect} {n₀ n₁ : RaftNode} (opening : Opening n call n₀)
      (snapshot : KeepsSnapshot n.log n₁.log) (same : Steady n₁ effect.node)
      (sent : Sent effect.node effect.outs) (granted : Granted n call n₀ n₁) :
      CallEffect n call effect
  | installed {request : InstallSnapshot} {now : Instant} {effect : Effect}
      (current : n.hard.currentTerm ≤ request.term)
      (fresh : n.snapshotIndex < request.lastIncludedIndex)
      (snapshot : Writes n.log effect.node.log (request.info, request.data))
      (same : SameReads n effect.node) (outs : effect.outs = [])
      (matched : KeepsMatches n effect.node) : CallEffect n (.installSnapshot request now) effect
  | compacted {data : Bytes} {effect : Effect} (info : SnapshotMeta)
      (index : info.lastIncludedIndex = n.commitIndex) (fresh : n.snapshotIndex < n.commitIndex)
      (snapshot : Writes n.log effect.node.log (info, data))
      (same : SameReads n effect.node) (outs : effect.outs = [])
      (matched : KeepsMatches n effect.node) : CallEffect n (.op (.compact data)) effect

namespace CallEffect

theorem of_opening {n₀ : RaftNode} {effect : Effect} (hopen : Opening n call n₀)
    (hsnap : KeepsSnapshot n.log n₀.log) (hsame : Steady n₀ effect.node)
    (hsent : Sent effect.node effect.outs) : CallEffect n call effect :=
  .steady hopen hsnap hsame hsent .nothing

theorem of_steady {r : Option Reply} {e : Option RaftError} (h : Steady n n') :
    CallEffect n call { node := n', reply := r, error := e } :=
  of_opening .nothing (.refl n.log) h (Sent.nil n')

theorem of_granted {n₀ n₁ : RaftNode} (hopen : Opening n call n₀)
    (hgranted : Granted n call n₀ n₁) (hsnap : KeepsSnapshot n.log n₁.log) (h : Quiet n₁ r) :
    CallEffect n call (.ofOutcome r) := by
  obtain ⟨n', res⟩ := r
  cases res with
  | error => exact .steady hopen hsnap h.same (Sent.nil n') hgranted
  | ok => exact .steady hopen hsnap h.same (h.sent rfl) hgranted

theorem of_quiet {n₀ : RaftNode} (hopen : Opening n call n₀) (hsnap : KeepsSnapshot n.log n₀.log)
    (h : Quiet n₀ r) : CallEffect n call (.ofOutcome r) :=
  of_granted hopen .nothing hsnap h

theorem of_becomeLeader (n' : RaftNode) (hres : n'.readResults = n.readResults)
    (hseq : n'.readSeq = n.readSeq) (hsnap : KeepsSnapshot n.log n'.log)
    (hterm : n.hard.currentTerm < n'.hard.currentTerm ∨
      n'.hard.currentTerm = n.hard.currentTerm ∧ ∃ votes, n.role = .candidate votes) (now : Instant)
    : CallEffect n call (.ofOutcome (n'.becomeLeader now)) := by
  have hopen : Opening n call (n'.takeOffice now) :=
    .elected n'.freshLeaderState rfl rfl hres hseq hterm (freshLeaderState_match n')
  have hquiet : Quiet (n'.takeOffice now) (n'.becomeLeader now) :=
    (Quiet.advanceCommitIndex _ now).extend Quiet.replicateAll
  exact of_quiet hopen (hsnap.trans (.commit rfl)) hquiet

theorem tick (hterm : n.hard.currentTerm < u64Max) (now : Instant) :
    CallEffect n call (.ofOutcome (n.tick now)) := by
  unfold RaftNode.tick
  split
  · split
    · exact of_quiet .nothing (.refl _)
        ((Quiet.replicateAll _).after (Steady.of_eq rfl rfl rfl rfl (.refl _)))
    · exact of_steady (Steady.refl n)
  split
  · split
    · exact of_steady (Steady.of_eq rfl rfl rfl rfl (.refl _))
    · unfold startElection
      simp only
      split
      · refine of_becomeLeader (n := n) (n.becomeCandidate now) rfl rfl (.commit rfl)
          (Or.inl ?_) now
        show n.hard.currentTerm < saturatingSucc n.hard.currentTerm
        rw [saturatingSucc_of_lt hterm]
        omega
      refine of_opening .nothing (.refl _)
        (Steady.of_not_leader ?_ (fun h => h) rfl (.commit rfl)) ⟨?_, ?_⟩
      · rintro state ⟨⟩
      · rintro state ⟨⟩
      intro peer request hmem
      obtain ⟨peer', -, hout⟩ := List.mem_map.1 hmem
      cases hout
  · exact of_steady (Steady.refl n)

theorem handleRequestVoteResponse (src : NodeId) (response : RequestVoteResponse) (now : Instant) :
    CallEffect n call (.ofOutcome (n.handleRequestVoteResponse src response now)) := by
  have h := Steady.observeTerm n response.term now
  unfold RaftNode.handleRequestVoteResponse
  simp only
  split
  · exact of_steady h
  rename_i hle
  rw [observeTerm_eq_self hle]
  split
  · exact of_steady (Steady.refl n)
  cases hr : n.role with
  | candidate votes =>
    simp only
    split
    · exact of_becomeLeader (n := n) _ rfl rfl (.refl n.log) (Or.inr ⟨rfl, votes, hr⟩) now
    · refine of_steady (Steady.of_not_leader ?_ (fun h => h) rfl (.refl n.log))
      rintro state ⟨⟩
  | _ => exact of_steady (Steady.refl n)

theorem handleAppendEntriesResponse (src : NodeId) (response : AppendEntriesResponse)
    (now : Instant) :
    CallEffect n (.appendEntriesResponse src response now)
      (.ofOutcome (n.handleAppendEntriesResponse src response now)) := by
  have h := Steady.observeTerm n response.term now
  unfold RaftNode.handleAppendEntriesResponse
  simp only
  split
  · exact of_steady h
  rename_i hle
  rw [observeTerm_eq_self hle]
  split
  · exact of_steady (Steady.refl n)
  rename_i hcond
  rw [Bool.or_eq_true, not_or, decide_eq_true_eq, not_not, Bool.not_eq_true',
    Bool.not_eq_false] at hcond
  obtain ⟨hterm, hleader⟩ := hcond
  cases hr : n.role with
  | leader state =>
    have hopen : Opening n (.appendEntriesResponse src response now)
      (n.noteLeadershipAck src response.seq) := .credited state hr hterm
    split
    · rename_i hsuccess
      have hkept : (n.noteLeadershipAck src response.seq).hard.currentTerm =
          n.hard.currentTerm := by simp only [noteLeadershipAck, hr]
      refine of_granted hopen (.matched ⟨rfl, hsuccess, hterm, rfl⟩ hkept)
        (by rw [recordMatch_log, noteLeadershipAck_log]; exact .refl n.log) ?_
      exact (Quiet.advanceCommitIndex _ now).extend fun n => Quiet.replicateIfBehind n src
    · refine of_quiet hopen (by rw [noteLeadershipAck_log]; exact .refl n.log) ?_
      exact (Quiet.replicateTo _ src).after (Steady.backOff _ _ _)
  | _ => simp [isLeader, hr] at hleader

theorem handleInstallSnapshotResponse (src : NodeId) (response : InstallSnapshotResponse)
    (now : Instant) :
    CallEffect n (.installSnapshotResponse src response now)
      (.ofOutcome (n.handleInstallSnapshotResponse src response now)) := by
  have h := Steady.observeTerm n response.term now
  unfold RaftNode.handleInstallSnapshotResponse
  simp only
  split
  · exact of_steady h
  rename_i hle
  rw [observeTerm_eq_self hle]
  split
  · exact of_steady (Steady.refl n)
  rename_i hcond
  rw [Bool.or_eq_true, not_or, decide_eq_true_eq, not_not, Bool.not_eq_true',
    Bool.not_eq_false] at hcond
  split
  · exact of_steady (Steady.refl n)
  rename_i info hsnap
  have hindex : info.lastIncludedIndex = n.snapshotIndex := by rw [RaftNode.snapshotIndex, hsnap]
  refine of_granted .nothing (.matched ⟨rfl, hcond.2, hcond.1, hindex⟩ rfl)
    (by rw [recordMatch_log]; exact .refl n.log) ?_
  exact (Quiet.advanceCommitIndex _ now).extend fun n => Quiet.replicateIfBehind n src

theorem startRead (now : Instant) :
    CallEffect n (.op (.startRead now)) (n.runOp (.startRead now)) := by
  by_cases hl : ∃ state, n.role = .leader state
  · obtain ⟨state, hr⟩ := hl
    cases hq : n.configs.active.hasQuorum (n.newRead state).acks with
    | true =>
      rw [runOp, RaftNode.startRead_of_quorum hr hq]
      exact of_opening (.answered state hr hq) (.refl n.log) (Steady.refl _) (Sent.nil _)
    | false =>
      have h := Quiet.replicateAll (n.withRead state)
      rw [runOp, RaftNode.startRead_of_waiting hr hq]
      generalize (n.withRead state).replicateAll = r at h
      obtain ⟨m, res⟩ := r
      cases res with
      | error => exact of_opening (.registered state hr) (.refl n.log) h.same (Sent.nil m)
      | ok => exact of_opening (.registered state hr) (.refl n.log) h.same (h.sent rfl)
  · rw [runOp, RaftNode.startRead_of_not_leader fun state hr => hl ⟨state, hr⟩]
    exact of_steady (Steady.refl n)

theorem compact (data : Bytes) :
    CallEffect n (.op (.compact data)) (n.runOp (.compact data)) := by
  rw [runOp]
  rcases n.compact_cases data with ⟨-, e, hc⟩ | ⟨info, hindex, -, hfresh, hc⟩
  · rw [hc]
    exact of_steady (Steady.refl n)
  rw [hc]
  exact .compacted info hindex hfresh (.writeSnapshot (.refl n.log) _ _ _)
    (SameReads.of_eq rfl rfl rfl rfl) rfl (.of_role rfl)

theorem snapshotIndex_acceptLeader (n : RaftNode) (t : ℕ) (leader : NodeId) (now : Instant) :
    ((n.observeTerm t now).1.acceptLeader leader now).snapshotIndex = n.snapshotIndex := by
  obtain ⟨results, hr⟩ := (n.observeTerm t now).1.stepDownToFollower_eq
  rw [RaftNode.acceptLeader, hr]
  rcases Nat.lt_or_ge n.hard.currentTerm t with hlt | hge
  · obtain ⟨results', hr'⟩ := observeTerm_of_lt hlt now
    rw [hr']
    rfl
  · rw [observeTerm_of_le hge]
    rfl

theorem handleInstallSnapshot_cases (n : RaftNode) (request : InstallSnapshot) (now : Instant) :
    Steady n (n.handleInstallSnapshot request now).1 ∨
      n.hard.currentTerm ≤ request.term ∧ n.snapshotIndex < request.lastIncludedIndex ∧
        Writes n.log (n.handleInstallSnapshot request now).1.log (request.info, request.data) ∧
        SameReads n (n.handleInstallSnapshot request now).1 ∧
        KeepsMatches n (n.handleInstallSnapshot request now).1 := by
  have h := Steady.observeTerm n request.term now
  have h' := h.trans (Steady.acceptLeader _ request.leaderId now)
  unfold RaftNode.handleInstallSnapshot
  simp only
  split
  · exact .inl h
  rename_i hstale
  split
  · exact .inl h
  split
  · exact .inl h'
  rename_i hcond
  rw [Bool.or_eq_true, not_or, decide_eq_true_eq, Nat.not_le, snapshotIndex_acceptLeader] at hcond
  refine .inr ⟨(currentTerm_le_observeTerm n _ now).trans (Nat.not_lt.1 hstale),
    hcond.1, ?_, h'.toSameReads.trans (SameReads.of_eq rfl rfl rfl rfl),
    h'.matched.trans (.of_role rfl)⟩
  simp only [adoptSnapshot]
  split
  · exact .writeSnapshot h'.snapshot _ _ _
  · exact .writeSnapshot h'.snapshot _ _ _

theorem handleInstallSnapshot (request : InstallSnapshot) (now : Instant) :
    CallEffect n (.installSnapshot request now) (n.run (.installSnapshot request now)) := by
  have h := handleInstallSnapshot_cases n request now
  rw [run]
  generalize n.handleInstallSnapshot request now = r at h
  obtain ⟨m, res⟩ := r
  rcases h with h | ⟨hcur, hfresh, hsnap, hsame, hmatched⟩
  · cases res with
    | error => exact of_steady h
    | ok => exact of_steady h
  cases res with
  | error => exact .installed hcur hfresh hsnap hsame rfl hmatched
  | ok => exact .installed hcur hfresh hsnap hsame rfl hmatched

end CallEffect

/-- **What any call does** to the reads and to the stored snapshot. -/
theorem RaftNode.run_effect (n : RaftNode) (hterm : n.hard.currentTerm < u64Max) (call : Call) :
    CallEffect n call (n.run call) := by
  cases call with
  | op op =>
    cases op with
    | tick now => exact .tick hterm now
    | propose command now => exact .of_quiet .nothing (.refl _) (Quiet.propose n command now)
    | startRead now => exact .startRead now
    | drainReadResults => exact .of_steady (Steady.drainReadResults n)
    | proposeConfChange newVoters now =>
      exact .of_quiet .nothing (.refl _) (Quiet.proposeConfChange n newVoters now)
    | proposeAddLearner id now =>
      exact .of_quiet .nothing (.refl _) (Quiet.proposeAddLearner n id now)
    | compact data => exact .compact data
  | requestVote request now => exact .of_steady (Steady.handleRequestVote n request now)
  | appendEntries request now => exact .of_steady (Steady.handleAppendEntries n request now)
  | installSnapshot request now => exact .handleInstallSnapshot request now
  | requestVoteResponse src response now => exact .handleRequestVoteResponse src response now
  | appendEntriesResponse src response now => exact .handleAppendEntriesResponse src response now
  | installSnapshotResponse src response now =>
    exact .handleInstallSnapshotResponse src response now

namespace CallEffect

variable {effect : Effect}

variable (h : CallEffect n call effect)

include h

/-- **What any call does to the reads**, the stored snapshot aside. -/
theorem reads :
    ∃ n₀, Opening n call n₀ ∧ SameReads n₀ effect.node := by
  cases h with
  | steady opening _ same _ granted =>
    refine ⟨_, opening, SameReads.trans ?_ same.toSameReads⟩
    cases granted with
    | nothing => exact SameReads.refl _
    | matched => exact SameReads.recordMatch _ _ _
  | installed _ _ _ same => exact ⟨n, .nothing, same⟩
  | compacted _ _ _ _ same => exact ⟨n, .nothing, same⟩

/-- **What any call sends.** -/
theorem sent : Sent effect.node effect.outs := by
  cases h with
  | steady _ _ _ sent => exact sent
  | installed _ _ _ _ outs =>
    rw [outs]
    exact Sent.nil _
  | compacted _ _ _ _ _ outs =>
    rw [outs]
    exact Sent.nil _

/-- **What any transaction of a call does to the stored snapshot.** -/
theorem trail {db : Db} (hdb : db ∈ effect.node.log.commits) :
    db ∈ n.log.commits ∨ db.snapshot = n.log.db.snapshot ∨
      db.snapshot = effect.node.log.db.snapshot := by
  cases h with
  | steady _ snapshot same => exact ((snapshot.trans same.snapshot).trail db hdb).imp_right Or.inl
  | installed _ _ snapshot => exact snapshot.last ▸ snapshot.trail db hdb
  | compacted _ _ _ snapshot => exact snapshot.last ▸ snapshot.trail db hdb

end CallEffect

/-! ## What a leader believes of its peers -/

theorem Granted.believed {n₀ n₁ : RaftNode} (h : Granted n call n₀ n₁) {state₁ : LeaderState}
    (hr : n₁.role = .leader state₁) {p : NodeId} {i : ℕ}
    (hp : state₁.matchIndex.get? p = some i) (hi : 0 < i) :
    n₁.hard = n₀.hard ∧ ((∃ state, n₀.role = .leader state ∧ state.matchIndex.get? p = some i) ∨
      n₀.hard.currentTerm = n.hard.currentTerm ∧ call.Credits n p i) := by
  cases h with
  | nothing => exact ⟨rfl, .inl ⟨state₁, hr, hp⟩⟩
  | @matched peer j credits term =>
    unfold recordMatch at hr ⊢
    split at hr
    · rename_i state hr₀
      cases hr
      refine ⟨rfl, ?_⟩
      rw [OrdMap.get?_insert] at hp
      split at hp
      · rename_i heq
        subst heq
        split at hp
        · cases hp
          exact .inr ⟨term, credits⟩
        · cases hold : state.matchIndex.get? p with
          | none =>
            rw [hold] at hp
            cases hp
            exact absurd hi (lt_irrefl 0)
          | some =>
            rw [hold] at hp
            exact .inl ⟨state, hr₀, hold.trans hp⟩
      · exact .inl ⟨state, hr₀, hp⟩
    · rename_i hr₀
      exact absurd hr (hr₀ state₁)

theorem Opening.believed {n₀ : RaftNode} (h : Opening n call n₀) {state₀ : LeaderState}
    (hr : n₀.role = .leader state₀) {p : NodeId} {i : ℕ}
    (hp : state₀.matchIndex.get? p = some i) (hi : 0 < i) :
    n₀.hard.currentTerm = n.hard.currentTerm ∧
      ∃ state, n.role = .leader state ∧ state.matchIndex.get? p = some i := by
  cases h with
  | elected state role _ _ _ _ matched =>
    obtain rfl : state = state₀ := Role.leader.inj (role.symm.trans hr)
    exact absurd (matched hp) hi.ne'
  | registered state role =>
    cases hr
    exact ⟨rfl, state, role, hp⟩
  | credited state role =>
    simp only [noteLeadershipAck, role] at hr ⊢
    cases hr
    exact ⟨trivial, state, rfl, hp⟩
  | _ => exact ⟨rfl, state₀, hr, hp⟩

/-- **What any call does to what a leader believes of its peers**: nothing, in its term, but
for what the call credits. -/
theorem CallEffect.believed {effect : Effect} (h : CallEffect n call effect) {state' : LeaderState}
    (hr : effect.node.role = .leader state') {p : NodeId} {i : ℕ}
    (hp : state'.matchIndex.get? p = some i) (hi : 0 < i) :
    effect.node.hard.currentTerm = n.hard.currentTerm ∧
      ((∃ state, n.role = .leader state ∧ state.matchIndex.get? p = some i) ∨
        call.Credits n p i) := by
  cases h with
  | steady opening snapshot same sent granted =>
    obtain ⟨state₁, hr₁, hp₁⟩ := same.matched.believed hr hp hi
    obtain ⟨-, -, hterm, -⟩ := same.leader hr
    obtain ⟨hhard, ⟨state₀, hr₀, hp₀⟩ | ⟨hterm₀, hcredits⟩⟩ := granted.believed hr₁ hp₁ hi
    · obtain ⟨hterm₀, hbefore⟩ := opening.believed hr₀ hp₀ hi
      exact ⟨hterm.trans (hhard ▸ hterm₀), .inl hbefore⟩
    · exact ⟨hterm.trans (hhard ▸ hterm₀), .inr hcredits⟩
  | installed _ _ _ same _ matched =>
    obtain ⟨-, -, hterm, -⟩ := same.leader hr
    exact ⟨hterm, .inl (matched.believed hr hp hi)⟩
  | compacted _ _ _ _ same _ matched =>
    obtain ⟨-, -, hterm, -⟩ := same.leader hr
    exact ⟨hterm, .inl (matched.believed hr hp hi)⟩

end Brokkr.Raft
