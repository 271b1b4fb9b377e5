import Brokkr.Raft.Refine.Voting

/-!
# What a leader sends, and its bookkeeping

The messages a leader builds say what `OutOk` asks for, and the operations on
its bookkeeping keep `Leading`.

* `Ends` — a call that has come to an end: the node refines the protocol, the
  commit rule has been applied, there was no error, and the messages are right.
* `Serves` — a client call, which may also be refused.
* `Rel.appendEntriesFor` — one message, an `AppendEntries` or an
  `InstallSnapshot`.
* `Rel.replicateAll`, `Rel.replicateTo` — a round of messages.
* `Rel.recordMatch`, `Rel.backOff`, `Rel.refreshLeaderState` — the bookkeeping.
-/

namespace Brokkr.Raft

open Consensus

variable {voters : OrdSet NodeId} {a₀ a a' : AState} {id : NodeId} {boot : ClusterConfig}
  {cov : ℕ → List LogEntry} {n n' : RaftNode} {s : ℕ} {state : LeaderState}

/-! ## The end of a call -/

/-- A call that has come to an end without an error; the node's snapshot covers
`s` entries. -/
structure Ends (voters : OrdSet NodeId) (a₀ a : AState) (id : NodeId) (boot : ClusterConfig)
    (cov : ℕ → List LogEntry) (s : ℕ) (r : Outcome) : Prop where
  rel : Rel voters a₀ a id boot cov r.1
  settled : Settled r.1
  snapshotIndex : r.1.log.db.snapshotIndex = s
  sent : ∃ outs, r.2 = .ok outs ∧ ∀ out ∈ outs, OutOk voters a id (cov s) out

theorem Ends.quiet (h : Rel voters a₀ a id boot cov n) (hs : Settled n) :
    Ends voters a₀ a id boot cov n.log.db.snapshotIndex (n, .ok []) where
  rel := h
  settled := hs
  snapshotIndex := rfl
  sent := ⟨[], rfl, nofun⟩

theorem Ends.extend {r : Outcome} (h : Ends voters a₀ a id boot cov s r)
    {f : RaftNode → Outcome} (hf : ∀ n, Rel voters a₀ a id boot cov n → Settled n →
      Ends voters a₀ a id boot cov n.log.db.snapshotIndex (f n)) :
    Ends voters a₀ a id boot cov s (r.extend f) := by
  obtain ⟨n, res⟩ := r
  obtain ⟨hrel, hsettled, hsnap, outs, rfl, houts⟩ := h
  have hn := hf n hrel hsettled
  rw [show n.log.db.snapshotIndex = s from hsnap] at hn
  simp only [Outcome.extend]
  generalize f n = r' at hn
  obtain ⟨n', res'⟩ := r'
  obtain ⟨hrel', hsettled', hsnap', more, rfl, hmore⟩ := hn
  refine ⟨hrel', hsettled', hsnap', outs ++ more, rfl, fun out hout => ?_⟩
  exact (List.mem_append.1 hout).elim (houts out) (hmore out)

/-- A client call: it is carried out, or refused and nothing has changed. -/
def Serves (voters : OrdSet NodeId) (a₀ : AState) (id : NodeId) (boot : ClusterConfig)
    (cov : ℕ → List LogEntry) (n : RaftNode) (r : Outcome) : Prop :=
  (∃ a, Ends voters a₀ a id boot cov n.log.db.snapshotIndex r) ∨ ∃ e, r = (n, .error e)

theorem Serves.refused (e : RaftError) : Serves voters a₀ id boot cov n (n, .error e) :=
  Or.inr ⟨e, rfl⟩

/-! ## Leaders -/

theorem Rel.leading (h : Rel voters a₀ a id boot cov n)
    (hr : n.role = .leader state) : Leading a id n.log.db.snapshotIndex state := by
  have := h.role
  rwa [hr] at this

theorem Rel.log_eq_llog (h : Rel voters a₀ a id boot cov n)
    (hr : n.role = .leader state) : a.log id = a.llog (a.term id) :=
  h.inv.leader_log (h.leading hr).elected

theorem Leading.matched_le (h : Leading a id s state) (hi : Inv (rules voters) a)
    (hs : s ≤ a.commit id) {p : NodeId} {i : ℕ} (hp : state.matchIndex.get? p = some i) :
    i ≤ (a.log id).length := by
  refine (h.matched hp).trans (max_le ?_ (hs.trans (hi.commit_le id)))
  rw [hi.leader_log h.elected]
  exact hi.acked_le p _

theorem Rel.setRole (h : Rel voters a₀ a id boot cov n) {state : LeaderState}
    (hl : Leading a id n.log.db.snapshotIndex state) :
    Rel voters a₀ a id boot cov { n with role := .leader state } :=
  h.volatile rfl rfl rfl rfl rfl rfl hl

theorem Settled.setRole (h : Settled n) {state state' : LeaderState} (hr : n.role = .leader state)
    (hm : state'.matchIndex = state.matchIndex) : Settled { n with role := .leader state' } := by
  rintro _ ⟨⟩ i hi hl
  have := h state hr i hi hl
  simpa [RaftNode.canCommit, RaftNode.commitAcks, hm] using this

/-! ## Messages -/

/-- **One message.** -/
theorem Rel.appendEntriesFor (h : Rel voters a₀ a id boot cov n) (hr : n.role = .leader state)
    (peer : NodeId) {next : ℕ} (seq : ℕ) (h0 : 0 < next) (hle : next ≤ (a.log id).length + 1) :
    ∃ out, n.appendEntriesFor peer next seq = .ok out ∧
      OutOk voters a id (cov n.log.db.snapshotIndex) out := by
  have hlog := h.log_eq_llog hr
  have hlead := (h.leading hr).elected
  have hterm := h.currentTerm
  rw [RaftNode.appendEntriesFor, h.snapshotIndex_eq]
  split
  · cases hp : n.log.db.snapshot with
    | none =>
      -- nothing has been compacted away
      have hzero : n.log.db.snapshotIndex = 0 := by rw [Db.snapshotIndex, hp]
      omega
    | some p =>
      obtain ⟨info, data⟩ := p
      have hs : info.lastIncludedIndex = n.log.db.snapshotIndex := by rw [Db.snapshotIndex, hp]
      have hok := h.dur.snapshot hp
      refine ⟨_, rfl, ?_⟩
      exact
        { sender := h.name
          leader := by rw [hterm]; exact hlead
          piece := by
            rw [h.dur.covered, hterm, ← hlog]
            exact List.take_prefix _ _
          length := by
            rw [h.dur.covered, List.length_take, hs, Nat.min_eq_left (h.snapshotIndex_le h.inv)]
          committed := by
            rw [h.dur.covered, hterm]
            exact (h.inv.commit_committed id).mono le_rfl
              (List.take_prefix_take_left h.dur.snapshot_le)
          info :=
            { pos := hok.pos
              term := by
                rw [h.dur.covered]
                simpa [InstallSnapshot.info, hs, List.take_take] using hok.term
              config := by
                rw [h.dur.covered]
                simpa [InstallSnapshot.info, hs, List.take_take] using hok.config
              known := hok.known } }
  · have hprev : LogIndex.prev next = next - 1 := rfl
    refine ⟨_, rfl, ?_⟩
    have hs : n.log.db.snapshotIndex ≤ next - 1 := by omega
    have hents : n.log.db.entriesFrom next = (a.log id).drop (next - 1) :=
      Db.entriesFrom_eq h.dur.holds (indexed_log h.inv id) (by omega)
    have hcommit : n.commitIndex ≤ (a.log id).length := by
      rw [h.commit]
      exact h.inv.commit_le id
    exact
      { sender := h.name
        leader := by rw [hterm]; exact hlead
        prev_le := by
          show next - 1 ≤ (a.llog n.hard.currentTerm).length
          rw [hterm, ← hlog]
          omega
        prev_term := by
          rw [hterm, ← hlog, hprev]
          split
          · rename_i hz
            rw [hz]
            rfl
          · rw [h.termAt_eq (by omega) hs (by omega)]
            rfl
        entries := by
          show (a.llog n.hard.currentTerm).take (next - 1) ++ n.log.db.entriesFrom next <+: _
          rw [hterm, ← hlog, hents, List.take_append_drop]
        commit_le := by
          show n.commitIndex ≤ next - 1 + (n.log.db.entriesFrom next).length
          rw [hents, List.length_drop]
          omega
        committed := by
          rw [hterm, ← hlog, h.commit]
          exact h.inv.commit_committed id }

theorem Rel.buildAll (h : Rel voters a₀ a id boot cov n) (hr : n.role = .leader state)
    {plan : List (NodeId × ℕ × ℕ)} (hplan : ∀ p ∈ plan, 0 < p.2.1 ∧ p.2.1 ≤ (a.log id).length + 1) :
    ∃ outs, n.buildAll plan = .ok outs ∧
      ∀ out ∈ outs, OutOk voters a id (cov n.log.db.snapshotIndex) out := by
  induction plan with
  | nil => exact ⟨[], rfl, nofun⟩
  | cons p plan ih =>
    obtain ⟨peer, next, seq⟩ := p
    have hp := hplan _ (List.mem_cons_self ..)
    obtain ⟨out, hout, hok⟩ := h.appendEntriesFor hr peer seq hp.1 hp.2
    obtain ⟨outs, houts, hoks⟩ := ih fun q hq => hplan q (List.mem_cons_of_mem _ hq)
    refine ⟨out :: outs, by rw [RaftNode.buildAll, hout, houts], fun o ho => ?_⟩
    rcases List.mem_cons.1 ho with rfl | ho
    · exact hok
    · exact hoks o ho

theorem Leading.nextFor (h : Leading a id s state) (peer : NodeId) :
    0 < RaftNode.nextFor state peer ∧ RaftNode.nextFor state peer ≤ (a.log id).length + 1 := by
  rw [RaftNode.nextFor]
  cases hp : state.nextIndex.get? peer with
  | none => exact ⟨Nat.one_pos, Nat.le_add_left _ _⟩
  | some => exact h.next hp

theorem Leading.planAll (h : Leading a id s state) (targets : List NodeId) (seq : ℕ) :
    ∀ p ∈ RaftNode.planAll state targets seq, 0 < p.2.1 ∧ p.2.1 ≤ (a.log id).length + 1 := by
  induction targets generalizing seq with
  | nil => exact nofun
  | cons peer targets ih =>
    intro p hp
    rcases List.mem_cons.1 hp with rfl | hp
    · exact h.nextFor peer
    · exact ih (seq + 1) p hp

theorem Leading.setSeq (h : Leading a id s state) (seq : ℕ) :
    Leading a id s { state with aeSeq := seq } :=
  ⟨h.elected, h.acked, h.next, h.matched, h.committed, h.start⟩

variable (h : Rel voters a₀ a id boot cov n)

include h

/-- **A message to every replication target.** -/
theorem Rel.replicateAll (hs : Settled n) :
    Ends voters a₀ a id boot cov n.log.db.snapshotIndex n.replicateAll := by
  unfold RaftNode.replicateAll
  cases hr : n.role with
  | leader state =>
    have hl := h.leading hr
    have h' := h.setRole (hl.setSeq (state.aeSeq + n.replicationTargets.length))
    exact ⟨h', hs.setRole hr rfl, rfl, h'.buildAll rfl (hl.planAll _ _)⟩
  | _ => exact Ends.quiet h hs

/-- **A message to one peer.** -/
theorem Rel.replicateTo (hs : Settled n) (peer : NodeId) :
    Ends voters a₀ a id boot cov n.log.db.snapshotIndex (n.replicateTo peer) := by
  unfold RaftNode.replicateTo
  cases hr : n.role with
  | leader state =>
    have hl := h.leading hr
    have h' := h.setRole (hl.setSeq (state.aeSeq + 1))
    refine ⟨h', hs.setRole hr rfl, rfl, h'.buildAll rfl ?_⟩
    intro p hp
    rw [List.mem_singleton.1 hp]
    exact hl.nextFor peer
  | _ => exact Ends.quiet h hs

theorem Rel.replicateIfBehind (hs : Settled n) (peer : NodeId) :
    Ends voters a₀ a id boot cov n.log.db.snapshotIndex (n.replicateIfBehind peer) := by
  unfold RaftNode.replicateIfBehind
  split
  · exact h.replicateTo hs peer
  · exact Ends.quiet h hs

/-! ## Bookkeeping -/

omit h

theorem saturatingSucc_le (v : ℕ) : saturatingSucc v ≤ v + 1 := by
  unfold saturatingSucc
  split <;> omega

theorem saturatingSucc_pos (v : ℕ) : 0 < saturatingSucc v := by
  unfold saturatingSucc
  split
  · omega
  have : 0 < u64Max := by decide
  omega

variable (h : Rel voters a₀ a id boot cov n)

include h

theorem Rel.noteLeadershipAck (src : NodeId) (seq : ℕ) :
    Rel voters a₀ a id boot cov (n.noteLeadershipAck src seq) := by
  unfold RaftNode.noteLeadershipAck
  cases hr : n.role with
  | leader =>
    have hl := h.leading hr
    exact h.volatile rfl rfl rfl rfl rfl rfl
      ⟨hl.elected, hl.acked, hl.next, hl.matched, hl.committed, hl.start⟩
  | follower => exact h
  | candidate => exact h

theorem Rel.recordMatch {peer : NodeId} {i : ℕ}
    (hi : i ≤ max (a.acked peer (a.term id)) n.log.db.snapshotIndex) :
    Rel voters a₀ a id boot cov (n.recordMatch peer i) := by
  unfold RaftNode.recordMatch
  cases hr : n.role with
  | leader state =>
    have hl := h.leading hr
    have hlen : i ≤ (a.log id).length := by
      refine hi.trans (max_le ?_ (h.snapshotIndex_le h.inv))
      rw [h.log_eq_llog hr]
      exact h.inv.acked_le peer _
    refine h.setRole ⟨hl.elected, hl.acked, ?_, ?_, hl.committed, hl.start⟩
    · intro p j hp
      rw [OrdMap.get?_insert] at hp
      split at hp
      · rw [← Option.some.inj hp]
        exact ⟨saturatingSucc_pos i, (saturatingSucc_le i).trans (by omega)⟩
      · exact hl.next hp
    intro p j hp
    rw [OrdMap.get?_insert] at hp
    split at hp
    · rename_i hpp
      rw [hpp, ← Option.some.inj hp]
      split
      · exact hi
      cases hold : state.matchIndex.get? peer with
      | none => exact Nat.zero_le _
      | some => exact hl.matched hold
    · exact hl.matched hp
  | follower => exact h
  | candidate => exact h

theorem Rel.backOff (hs : Settled n) (peer : NodeId) {i : ℕ}
    (hi : i ≤ (a.llog (a.term id)).length) :
    Rel voters a₀ a id boot cov (n.backOff peer i) ∧ Settled (n.backOff peer i) ∧
      (n.backOff peer i).log = n.log := by
  unfold RaftNode.backOff
  cases hr : n.role with
  | leader =>
    have hl := h.leading hr
    rw [← h.log_eq_llog hr] at hi
    refine ⟨h.setRole ⟨hl.elected, hl.acked, ?_, hl.matched, hl.committed, hl.start⟩,
      hs.setRole hr rfl, rfl⟩
    intro p j hp
    rw [OrdMap.get?_insert] at hp
    split at hp
    · rw [← Option.some.inj hp]
      exact ⟨lt_of_lt_of_le Nat.one_pos (le_max_right i 1), max_le (by omega) (by omega)⟩
    · exact hl.next hp
  | _ => exact ⟨h, hs, rfl⟩

end Brokkr.Raft
