import Brokkr.Raft.Refine.Calls

/-!
# Following a leader

The receiver side of replication.  A follower's log is only ever replaced by a
prefix of the leader's log that keeps all they share, by truncating at the first
conflict and appending.

* `Rel.logMatches` — the consistency check: the logs agree up to `prevLogIndex`.
* `Rel.appendNewEntries` — after it the log holds everything the message brought.
* `Rel.learnCommit` — the leader's commit index only ever covers such entries.
* `Rel.handleAppendEntries` — the request as a whole.
-/

namespace Brokkr.Raft

open RaftNode

open Consensus List

variable {voters : OrdSet NodeId} {a₀ a a' : AState} {id : NodeId} {boot : ClusterConfig}
  {cov : ℕ → List LogEntry} {n m : RaftNode} {s : ℕ}

/-! ## Where two logs agree -/

theorem Rel.take_of_le_commit (h : Rel voters a₀ a id boot cov n) (hl : a.leader (a.term id) ≠ none)
    {k : ℕ} (hk : k ≤ a.commit id) : (a.log id).take k = (a.llog (a.term id)).take k := by
  have hp := h.inv.committed_llog (h.inv.commit_committed id) hl
  have hlen := h.inv.commit_le id
  have := take_eq_of_isPrefix hp (k := k) (by rw [length_take]; omega)
  rw [this, take_take, Nat.min_eq_left hk]

theorem take_eq_of_term {l l' : List LogEntry}
    (hl : Anchored (rules voters) a l) (hl' : Anchored (rules voters) a l') {i : ℕ} (h0 : 0 < i)
    (hil : i ≤ l.length) (hil' : i ≤ l'.length)
    (ht : (rules voters).lastTerm (l.take i) = (rules voters).lastTerm (l'.take i)) :
    l.take i = l'.take i := by
  obtain ⟨j, rfl⟩ : ∃ j, i = j + 1 := ⟨i - 1, by omega⟩
  have e1 := take_concat_get' l j (by omega)
  have e2 := take_concat_get' l' j (by omega)
  rw [← e1, ← e2] at ht ⊢
  rw [Rules.lastTerm_concat, Rules.lastTerm_concat] at ht
  refine hl.matching hl' ?_ ?_ ?_ ht
  · rw [e1]
    exact List.take_prefix _ _
  · rw [e2]
    exact List.take_prefix _ _
  · rw [length_take, length_take]
    omega

variable (h : Rel voters a₀ a id boot cov n)

include h

/-- **The consistency check.**  If it passes, the logs agree up to there. -/
theorem Rel.logMatches (hl : a.leader (a.term id) ≠ none)
    {i t : ℕ} (hi : i ≤ (a.llog (a.term id)).length)
    (ht : t = (rules voters).lastTerm ((a.llog (a.term id)).take i))
    (hm : n.logMatches i t = true) :
    i ≤ (a.log id).length ∧ (a.log id).take i = (a.llog (a.term id)).take i := by
  rw [RaftNode.logMatches, h.snapshotIndex_eq] at hm
  split at hm
  · rename_i h0
    rw [h0]
    exact ⟨Nat.zero_le _, rfl⟩
  split at hm
  · rename_i hlt
    have hc : i ≤ a.commit id := hlt.le.trans h.dur.snapshot_le
    exact ⟨hc.trans (h.inv.commit_le id), h.take_of_le_commit hl hc⟩
  rw [decide_eq_true_eq] at hm
  have hlen : i ≤ (a.log id).length := by
    by_contra hgt
    -- beyond the log there is no term
    have hnone : n.termAt i = none := by
      rw [termAt, h.get_eq (by have := h.snapshotIndex_le h.inv; omega),
        List.getElem?_eq_none (by omega)]
      cases hs : n.snapshot with
      | none => rfl
      | some info =>
        have : info.lastIncludedIndex = n.log.db.snapshotIndex := by
          rw [← h.snapshotIndex_eq, snapshotIndex, hs]
        have := h.snapshotIndex_le h.inv
        simp only
        rw [if_neg (by omega)]
    rw [hnone] at hm
    exact absurd hm (by simp)
  refine ⟨hlen, ?_⟩
  rw [h.termAt_eq (by omega) (by omega) hlen, Option.some.injEq, ht] at hm
  exact take_eq_of_term (h.inv.log_anchored id) (h.inv.llog_anchored _) (by omega) hlen hi hm

/-! ## Replacing the log -/

variable (hr : n.role = .follower)

include hr

/-- **Replacing the log of a follower** by a prefix of the leader's that keeps
all they share, in one transaction. -/
theorem Rel.adoptLog
    (hl : a.leader (a.term id) ≠ none) {l : List LogEntry} (hp : l <+: a.llog (a.term id))
    (hk : ∀ p, p <+: a.log id → p <+: a.llog (a.term id) → p <+: l) {table : OrdMap ℕ LogEntry}
    (hholds : Holds l n.log.db.snapshotIndex table) {configs : ConfigTracker}
    (hconfigs : configs = trackerOf boot n.log.db.snapshotMeta n.log.db.snapshotIndex l) :
    Rel voters a₀ (a.setLog id l) id boot cov
      { n with log := n.log.commit { n.log.db with log := table }, configs := configs } := by
  have hlog : (a.setLog id l).log id = l := by simp [State.setLog]
  have hstep : Step (rules voters) id a (a.setLog id l) := Step.adopt l hl hp hk
  have htake : l.take n.log.db.snapshotIndex = (a.log id).take n.log.db.snapshotIndex := by
    have hpre := h.inv.adopt_prefix hl hk
    have hlen := h.inv.commit_le id
    have hs := h.dur.snapshot_le
    rw [take_eq_of_isPrefix hpre (by rw [length_take]; omega), take_take, Nat.min_eq_left hs]
  refine h.next (Relation.ReflTransGen.single hstep) ?_ (Or.inr rfl)
  exact
    { h.toNodeRel with
      dur :=
        { h.dur with
          holds := by
            rw [hlog]
            exact hholds
          covered := by
            rw [hlog]
            exact h.dur.covered.trans htake.symm
          snapshot := by
            intro info data hinfo
            rw [hlog]
            exact h.dur.snapshotOk_of_take hinfo htake }
      configs := by
        rw [hlog]
        exact hconfigs
      role := by
        rw [hr]
        trivial }

theorem Rel.appendPiece
    (hl : a.leader (a.term id) ≠ none) (es : List LogEntry)
    (hes : a.log id ++ es <+: a.llog (a.term id)) :
    Rel voters a₀ (a.setLog id (a.log id ++ es)) id boot cov { n with
      log := n.log.appendAll es, configs := n.configs.noteAppendedConfigs es } := by
  have hidx : Indexed (a.log id ++ es) := (indexed_llog h.inv _).of_isPrefix hes
  have hs := h.snapshotIndex_le h.inv
  refine h.adoptLog hr hl hes (fun p hp _ => hp.trans (List.prefix_append _ _))
    (h.dur.holds.insertAll hidx hs) ?_
  rw [h.configs]
  exact noteAppendedConfigs_eq hidx hs

theorem Rel.truncateConflict
    (hl : a.leader (a.term id) ≠ none) {i : ℕ}
    (hagree : (a.log id).take i = (a.llog (a.term id)).take i)
    (hdiff : (a.log id)[i]? ≠ (a.llog (a.term id))[i]?) (hi : i < (a.log id).length)
    (hs : n.log.db.snapshotIndex ≤ i) :
    Rel voters a₀ (a.setLog id ((a.log id).take i)) id boot cov { n with
      log := n.log.truncateFrom (i + 1), configs := n.configs.onTruncate (i + 1) } := by
  have htrunc : Holds ((a.log id).take i) n.log.db.snapshotIndex
      (n.log.db.log.filter (fun key _ => decide (key < i + 1))) := h.dur.holds.truncate
  refine h.adoptLog hr hl ?_ ?_ htrunc ?_
  · rw [hagree]
    exact List.take_prefix _ _
  · -- what they share ends before the conflict
    intro p hp hp'
    refine List.prefix_of_prefix_length_le hp (List.take_prefix _ _) ?_
    rw [length_take, Nat.min_eq_left hi.le]
    by_contra hlt
    rw [Nat.not_le] at hlt
    refine hdiff ?_
    obtain ⟨r, hr'⟩ := hp
    obtain ⟨r', hr''⟩ := hp'
    rw [← hr', ← hr'', getElem?_append_left hlt, getElem?_append_left hlt]
  · rw [h.configs]
    exact onTruncate_eq (indexed_log h.inv id) (by omega)

/-- **Storing the entries of a message.**  By induction over the entries: the
logs agree up to where the remaining ones begin. -/
theorem Rel.appendNewEntries
    (hl : a.leader (a.term id) ≠ none) {i : ℕ} {es : List LogEntry} (hi : i ≤ (a.log id).length)
    (hagree : (a.log id).take i = (a.llog (a.term id)).take i)
    (hes : (a.llog (a.term id)).take i ++ es <+: a.llog (a.term id)) :
    ∃ a', Rel voters a₀ a' id boot cov (n.appendNewEntries es) ∧
      (n.appendNewEntries es).role = .follower ∧
      (n.appendNewEntries es).commitIndex = n.commitIndex ∧
      a'.term id = a.term id ∧ a'.leader = a.leader ∧ a'.llog = a.llog ∧
      (a.llog (a.term id)).take i ++ es <+: a'.log id ∧ Grows a a' := by
  induction es generalizing i with
  | nil =>
    refine ⟨a, h, hr, rfl, rfl, rfl, rfl, ?_, Grows.refl a⟩
    rw [append_nil, ← hagree]
    exact List.take_prefix _ _
  | cons e es ih =>
    set L := a.llog (a.term id) with hL
    have hassoc : L.take i ++ e :: es = (L.take i ++ [e]) ++ es := by simp
    have hone : L.take i ++ [e] <+: L := by
      refine List.IsPrefix.trans ?_ hes
      rw [hassoc]
      exact List.prefix_append _ _
    have hiL : i ≤ L.length := by
      have := congrArg List.length hagree
      rw [length_take, length_take] at this
      omega
    have hlen : (L.take i).length = i := by rw [length_take, Nat.min_eq_left hiL]
    have he : L[i]? = some e := by
      obtain ⟨r, hr'⟩ := hone
      rw [← hr', append_assoc, getElem?_append_right (by omega), hlen, Nat.sub_self]
      rfl
    have hei : e.index = i + 1 := indexed_llog h.inv _ i e he
    have htake : L.take (i + 1) = L.take i ++ [e] := by
      rw [take_add_one, he]
      rfl
    -- if the logs also agree on `e`, the rest remains
    have hnext : i + 1 ≤ (a.log id).length → (a.log id).take (i + 1) = L.take (i + 1) →
        ∃ a', Rel voters a₀ a' id boot cov (n.appendNewEntries es) ∧
          (n.appendNewEntries es).role = .follower ∧
          (n.appendNewEntries es).commitIndex = n.commitIndex ∧
          a'.term id = a.term id ∧ a'.leader = a.leader ∧ a'.llog = a.llog ∧
          L.take i ++ e :: es <+: a'.log id ∧ Grows a a' := by
      intro h1 h2
      rw [hassoc, ← htake]
      rw [hassoc, ← htake] at hes
      exact ih h1 h2 hes
    rw [RaftNode.appendNewEntries, h.snapshotIndex_eq, hei]
    split
    · rename_i hsnap
      have hc : i + 1 ≤ a.commit id := hsnap.trans h.dur.snapshot_le
      exact hnext (hc.trans (h.inv.commit_le id)) (h.take_of_le_commit hl hc)
    have hsi : n.log.db.snapshotIndex ≤ i := by omega
    rw [h.get_eq (by omega), Nat.add_sub_cancel]
    cases hx : (a.log id)[i]? with
    | some x =>
      obtain ⟨hlt, -⟩ := List.getElem?_eq_some_iff.1 hx
      have hxtake : (a.log id).take (i + 1) = (a.log id).take i ++ [x] := by
        rw [take_add_one, hx]
        rfl
      simp only
      split
      · rename_i hterm
        refine hnext (by omega) ?_
        refine take_eq_of_term (h.inv.log_anchored id) (h.inv.llog_anchored _)
          (Nat.succ_pos i) (by omega) ?_ ?_
        · exact Nat.succ_le_of_lt (List.getElem?_eq_some_iff.1 he).1
        · rw [hxtake, htake, Rules.lastTerm_concat, Rules.lastTerm_concat]
          exact hterm
      -- the first conflict: truncate, then append
      rename_i hterm
      have hdiff : (a.log id)[i]? ≠ L[i]? := by
        rw [hx, he]
        intro heq
        cases heq
        exact hterm rfl
      have h₁ := h.truncateConflict hr hl hagree hdiff hlt hsi
      have hlog₁ : (a.setLog id ((a.log id).take i)).log id = L.take i := by
        rw [← hagree]
        simp [State.setLog]
      have h₂ := h₁.appendPiece hr hl (e :: es) (by rw [hlog₁]; exact hes)
      refine ⟨_, h₂, hr, rfl, rfl, rfl, rfl, ?_, ?_⟩
      · rw [hlog₁]
        simp [State.setLog]
      · exact (Grows.setLog _).trans (Grows.setLog _)
    | none =>
      have hlog : a.log id = L.take i := by
        rw [← hagree, take_of_length_le]
        exact List.getElem?_eq_none_iff.1 hx
      have h₂ := h.appendPiece hr hl (e :: es) (by rw [hlog]; exact hes)
      refine ⟨_, h₂, hr, rfl, rfl, rfl, rfl, ?_, Grows.setLog _⟩
      rw [hlog]
      simp [State.setLog]

/-! ## Learning what is committed -/

theorem Rel.acknowledge
    (hl : a.leader (a.term id) ≠ none) {k : ℕ} (hk : k ≤ (a.llog (a.term id)).length)
    (hp : (a.llog (a.term id)).take k <+: a.log id) :
    Rel voters a₀ (a.ack id k) id boot cov n := by
  refine h.next (Relation.ReflTransGen.single (Step.ack k hl hk hp)) ?_ (Or.inl rfl)
  exact
    { h.toNodeRel with
      dur := { h.dur with }
      role := by
        rw [hr]
        trivial }

theorem Rel.learn {k : ℕ}
    (hc : n.commitIndex ≤ k) (hk : k ≤ (a.log id).length)
    (hp : a.CommittedPrefix (a.term id) ((a.log id).take k)) :
    Rel voters a₀ (a.setCommit id k) id boot cov { n with commitIndex := k } := by
  have hcommit : (a.setCommit id k).commit id = k := by simp [State.setCommit]
  rw [h.commit] at hc
  refine h.next (Relation.ReflTransGen.single (Step.learn k hc hk hp)) ?_ (Or.inl rfl)
  exact
    { h.toNodeRel with
      dur :=
        { h.dur with
          snapshot_le := by
            rw [hcommit]
            exact h.dur.snapshot_le.trans hc }
      commit := hcommit.symm
      role := by
        rw [hr]
        trivial }

theorem Rel.learnCommit
    (hl : a.leader (a.term id) ≠ none) {k c : ℕ} (hk : k ≤ (a.llog (a.term id)).length)
    (hp : (a.llog (a.term id)).take k <+: a.log id) (hc : c ≤ k)
    (hcom : a.CommittedPrefix (a.term id) ((a.llog (a.term id)).take c)) :
    ∃ a', Rel voters a₀ a' id boot cov (n.learnCommit c k) ∧
      (n.learnCommit c k).role = .follower ∧ k ≤ a'.acked id (a.term id) := by
  have h₁ := h.acknowledge hr hl hk hp
  have hacked : k ≤ (a.ack id k).acked id (a.term id) := by simp [State.ack]
  unfold RaftNode.learnCommit
  split
  · rename_i hlt
    rw [show Nat.min c k = c from Nat.min_eq_left hc]
    have hlog : (a.log id).take c = (a.llog (a.term id)).take c := by
      have := take_eq_of_isPrefix hp (k := c) (by rw [length_take, Nat.min_eq_left hk]; exact hc)
      rw [this, take_take, Nat.min_eq_left hc]
    have hlen : c ≤ (a.log id).length := by
      have := hp.length_le
      rw [length_take, Nat.min_eq_left hk] at this
      exact hc.trans this
    refine ⟨_, h₁.learn hr hlt.le hlen ?_, hr, hacked⟩
    show (a.ack id k).CommittedPrefix (a.term id) ((a.log id).take c)
    rw [hlog]
    exact hcom.of_grows (Grows.ack k)
  · exact ⟨_, h₁, hr, hacked⟩

/-! ## The requests -/

omit h

omit hr

theorem firstOfTerm_le (n : RaftNode) (t i : ℕ) : n.firstOfTerm t i ≤ i := by
  induction i using Nat.strong_induction_on with
  | _ i ih =>
    match i with
    | 0 => rw [firstOfTerm]
    | 1 => rw [firstOfTerm]
    | i + 2 =>
      rw [firstOfTerm]
      split
      · split
        · exact (ih (i + 1) (by omega)).trans (by omega)
        · exact le_rfl
      · exact le_rfl

theorem conflictHint_le (n : RaftNode) (i : ℕ) : (n.conflictHint i).2 ≤ i := by
  rw [conflictHint]
  split
  · rename_i hlt
    exact (saturatingSucc_le _).trans hlt
  · exact firstOfTerm_le n _ i

/-- **An inbound `AppendEntries`.** -/
theorem Rel.handleAppendEntries (h : Rel voters a₀ a id boot cov n) (hs : Settled n) {src : NodeId}
    {request : AppendEntries} (hm : AppendOk voters a src request) (now : Instant) :
    ∃ a', Rel voters a₀ a' id boot cov (n.handleAppendEntries request now).1 ∧
      Settled (n.handleAppendEntries request now).1 ∧
      AppendReplyOk a' id (n.handleAppendEntries request now).2 := by
  obtain ⟨a₁, hs₁, h₁, hterm, hset, -⟩ := h.observed request.term now
  have hm₁ := hm.mono (hs₁.grows h.inv)
  have hset := hset hs
  simp only [RaftNode.handleAppendEntries]
  generalize (n.observeTerm request.term now).1 = n₁ at h₁ hset
  split
  · exact ⟨a₁, h₁, hset, fun hf => absurd hf (by simp [reject]), fun _ => Nat.zero_le _⟩
  have heq : request.term = a₁.term id := by
    have := h₁.currentTerm
    omega
  obtain ⟨h₂, hr₂⟩ := h₁.acceptLeader request.leaderId now
  have hcur : n₁.hard.currentTerm = a₁.term id := h₁.currentTerm
  generalize n₁.acceptLeader request.leaderId now = n₂ at h₂ hr₂
  have hl : a₁.leader (a₁.term id) ≠ none := by simp [← heq, hm₁.leader]
  split
  · refine ⟨a₁, h₂, Settled.of_role (by simp [hr₂]), fun hf => absurd hf (by simp), fun _ => ?_⟩
    refine (conflictHint_le n₂ request.prevLogIndex).trans ?_
    rw [hcur, ← heq]
    exact hm₁.prev_le
  rename_i hmatch
  have hprev := hm₁.prev_le
  have hpt := hm₁.prev_term
  have hents := hm₁.entries
  have hcle := hm₁.commit_le
  have hcom := hm₁.committed
  rw [heq] at hprev hpt hents hcom
  obtain ⟨hile, hagree⟩ := h₂.logMatches hl hprev hpt (by simpa using hmatch)
  obtain ⟨a₃, h₃, hr₃, -, ht₃, hl₃, hll₃, hpre₃, hg₃⟩ :=
    h₂.appendNewEntries hr₂ hl hile hagree hents
  -- everything the message brought is in the log now
  have hlen : request.prevLogIndex + request.entries.length =
      ((a₁.llog (a₁.term id)).take request.prevLogIndex ++ request.entries).length := by
    rw [length_append, length_take, Nat.min_eq_left hprev]
  have hcom₃ := hcom.of_grows hg₃
  rw [← ht₃, ← hll₃] at hcom₃
  rw [← ht₃, ← hl₃] at hl
  rw [← ht₃, ← hll₃] at hents hlen
  obtain ⟨a₄, h₄, hr₄, hacked⟩ := h₃.learnCommit hr₃ hl (hlen ▸ hents.length_le)
    (by rw [hlen, ← List.prefix_iff_eq_take.1 hents, hll₃, ht₃]; exact hpre₃) hcle hcom₃
  refine ⟨a₄, h₄, Settled.of_role (by simp [hr₄]), fun _ => ?_, fun _ => Nat.zero_le _⟩
  rw [hcur, ← ht₃]
  exact hacked

end Brokkr.Raft
