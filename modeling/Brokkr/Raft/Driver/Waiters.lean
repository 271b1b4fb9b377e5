import Brokkr.Raft.Driver.Apply

/-!
# Callers that wait for an index to be applied

A proposal to be committed waits for its entry to be applied, and a confirmed read
for its index.  Both wait in one list, and are answered when the loop that applies
entries comes to their index.

* `Rel.propose_log` — a proposal appends one entry, and nothing else.
* `RaftDriver.Beyond` — all who wait do so for an index not applied yet.
* `waiters_beyond_applied` — nobody waits in vain, unless a snapshot jumps over a
  read: the jump drops the proposals it passes, but not the reads, and the loop
  never comes to their index again (`read_stranded_by_snapshot`).
-/

namespace Brokkr.Raft

open RaftDriver

open Consensus List

variable {w : AppliedWaiter}

variable {S : Type} {M : StateMachine S}

/-! ## What a proposal appends -/

section

variable {voters : OrdSet NodeId} {a₀ a : AState} {id : NodeId} {boot : ClusterConfig}
  {cov : ℕ → List LogEntry} {n n' : RaftNode} {state : LeaderState}

/-- Nothing is written. -/
def SameStore (n n' : RaftNode) : Prop := n'.log = n.log ∧ n'.hard = n.hard

theorem SameStore.extend {r : Outcome} (h : SameStore n r.1) {f : RaftNode → Outcome}
    (hf : ∀ n, SameStore n (f n).1) : SameStore n (r.extend f).1 := by
  obtain ⟨n₁, e | outs⟩ := r
  · exact h
  have hn := hf n₁
  unfold Outcome.extend
  simp only
  generalize f n₁ = r at hn
  obtain ⟨n₂, e | more⟩ := r
  · exact ⟨hn.1.trans h.1, hn.2.trans h.2⟩
  · exact ⟨hn.1.trans h.1, hn.2.trans h.2⟩

theorem SameStore.replicateAll (n : RaftNode) : SameStore n n.replicateAll.1 := by
  unfold RaftNode.replicateAll
  split
  · exact ⟨rfl, rfl⟩
  · exact ⟨rfl, rfl⟩

theorem SameStore.advanceCommitIndex (h : n.configs.active.isJoint = false ∨ Settled n)
    (now : Instant) : SameStore n (n.advanceCommitIndex now).1 := by
  rw [RaftNode.advanceCommitIndex, RaftNode.advanceCommitIndexIn]
  split
  · rename_i state hr
    simp only
    split
    · exact ⟨rfl, rfl⟩
    rename_i hmoved
    rcases h with hj | hs
    · unfold RaftNode.afterCommitConfigActions
      split
      · exact ⟨rfl, rfl⟩
      split
      · exact ⟨rfl, rfl⟩
      simp only [hj, Bool.false_eq_true, if_false]
      split
      · -- a leader outside the configuration steps down
        obtain ⟨results, hstep⟩ := RaftNode.stepDownToFollower_eq
          { n with commitIndex := n.findCommit state n.lastLogIndex }
        rw [hstep]
        exact ⟨rfl, rfl⟩
      · exact ⟨rfl, rfl⟩
    · obtain ⟨hlt, hle, hcan⟩ :=
        (findCommit_spec n state n.lastLogIndex).1.resolve_left hmoved
      exact absurd (hs state hr _ hlt hle) (by simp [hcan])
  · exact ⟨rfl, rfl⟩

/-- **A proposal appends one entry.**  With a change of membership in flight the
new entry makes nothing committable, so no final configuration is appended after
it; and without one there is none to append. -/
theorem Rel.propose_log (h : Rel voters a₀ a id boot cov n) (hs : Settled n)
    (hlast : n.lastLogIndex < u64Max) {command : Bytes} {now : Instant} {outs : List Outbound}
    (hp : n.propose command now = (n', .ok outs)) :
    n'.hard = n.hard ∧ n'.lastLogIndex = n.lastLogIndex + 1 ∧ n'.log.db.get (n.lastLogIndex + 1) =
        some (LogEntry.new n.hard.currentTerm (n.lastLogIndex + 1) command) := by
  unfold RaftNode.propose at hp
  split at hp
  · cases hp
  rename_i hl
  cases hr : n.role with
  | leader =>
    have hlen := h.lastLogIndex h.inv
    simp only [LogIndex.next, saturatingSucc_of_lt hlast] at hp
    obtain ⟨a₁, h₁, hlog₁⟩ : ∃ a₁, Rel voters a₀ a₁ id boot cov { n with
        log := n.log.append (LogEntry.new n.hard.currentTerm (n.lastLogIndex + 1) command) } ∧
        a₁.log id = a.log id ++ [LogEntry.new n.hard.currentTerm (n.lastLogIndex + 1) command] :=
      h.appendEntry hr (e := LogEntry.new n.hard.currentTerm (n.lastLogIndex + 1) command)
        rfl (congrArg (· + 1) hlen) (by rintro _ ⟨⟩)
    generalize LogEntry.new n.hard.currentTerm (n.lastLogIndex + 1) command = e at *
    have hroom : { n with log := n.log.append e }.configs.active.isJoint = false ∨
        Settled { n with log := n.log.append e } := by
      cases hj : n.configs.active.isJoint with
      | false => exact .inl rfl
      | true => exact .inr (h.settled_append hs hr h₁ hlog₁ hj)
    have hstore := (SameStore.advanceCommitIndex hroom now).extend SameStore.replicateAll
    rw [hp] at hstore
    obtain ⟨hlog, hhard⟩ : n'.log = n.log.append e ∧ n'.hard = n.hard := hstore
    have hlast₁ : (n.log.append e).db.lastIndex = _ := h₁.lastLogIndex h₁.inv
    have hget : (n.log.append e).db.get (n.lastLogIndex + 1) = _ :=
      h₁.get_eq (Nat.lt_succ_of_le (hlen ▸ h.snapshotIndex_le h.inv))
    rw [hlog₁] at hlast₁ hget
    rw [RaftNode.lastLogIndex, hlog, hhard]
    refine ⟨rfl, ?_, ?_⟩
    · rw [hlast₁, length_append, length_singleton, hlen]
    · rw [hget, Nat.add_sub_cancel, hlen, getElem?_concat_length]
  | _ => simp [RaftNode.isLeader, hr] at hl

end

/-! ## Waiting for what is not applied yet -/

namespace RaftDriver

variable {d : RaftDriver S}

/-- All who wait do so for an index not applied yet. -/
def Beyond (d : RaftDriver S) : Prop := ∀ w ∈ d.awaitingApply, d.lastApplied < w.index

/-- A waiter is still waiting or has been answered. -/
def Minds (w : AppliedWaiter) (d : RaftDriver S) : Prop :=
  w ∈ d.awaitingApply ∨ ∃ result, (w.sender, result) ∈ d.answers

theorem Beyond.applyEntry (h : d.Beyond) (e : LogEntry) :
    (d.applyEntry M (d.lastApplied + 1) e).Beyond := by
  intro w hw
  obtain ⟨hw, hverdict⟩ := mem_awaitingApply_resolveWaiters.1 hw
  have hlt : d.lastApplied < w.index := h w hw
  have hne : w.index ≠ d.lastApplied + 1 := by
    intro heq
    unfold applyVerdict at hverdict
    rw [if_neg (not_not.2 heq)] at hverdict
    split at hverdict
    · split at hverdict <;> cases hverdict
    · cases hverdict
  show d.lastApplied + 1 < w.index
  omega

theorem Beyond.settleRead (h : d.Beyond) (read : ℕ × Except RaftError ℕ) :
    (d.settleRead read).Beyond := by
  rcases d.settleRead_cases read with heq | ⟨sender, -, heq | ⟨index, hlt, heq⟩⟩
  · rw [heq]
    exact h
  · rw [heq]
    exact h
  rw [heq]
  intro w hw
  rcases mem_append.1 hw with hw | hw
  · exact h w hw
  · rw [mem_singleton.1 hw]
    exact hlt

theorem Minds.resolveWaiters (h : d.Minds w) (v : AppliedWaiter → Option (Except RaftError Answer))
    : (d.resolveWaiters v).Minds w := by
  rcases h with hw | ⟨result, hresult⟩
  · cases hv : v w with
    | none => exact .inl (mem_awaitingApply_resolveWaiters.2 ⟨hw, hv⟩)
    | some result => exact .inr ⟨result, mem_answers_resolveWaiters.2 (Or.inr ⟨w, hw, hv, rfl⟩)⟩
  · exact .inr ⟨result, mem_answers_resolveWaiters.2 (Or.inl hresult)⟩

theorem Minds.settleRead (h : d.Minds w) (read : ℕ × Except RaftError ℕ) :
    (d.settleRead read).Minds w := by
  rcases d.settleRead_cases read with heq | ⟨sender, -, heq | ⟨index, hlt, heq⟩⟩
  · rw [heq]
    exact h
  · rw [heq]
    exact h.imp_right fun ⟨result, hresult⟩ => ⟨result, mem_append_left _ hresult⟩
  · rw [heq]
    exact h.imp_left (mem_append_left _)

theorem Minds.handled {d' : RaftDriver S} {caller : Caller} {action : DriverAction} (h : d.Minds w)
    (hd : Handled d caller action d') : d'.Minds w := by
  cases hd with
  | plain waiters reads answers =>
    rw [Minds, waiters]
    rcases answers with answers | ⟨_, -, answers⟩
    · rw [answers]
      exact h
    · rw [answers]
      exact h.imp_right fun ⟨result, hresult⟩ => ⟨result, mem_append_left _ hresult⟩
  | reading asked waiters reads answers =>
    rw [Minds, waiters, answers]
    exact h
  | proposing asked proposed waiters reads answers =>
    rw [Minds, waiters, answers]
    exact h.imp_left (mem_append_left _)

end RaftDriver

/-- The event brings no snapshot that jumps over a read that waits. -/
def DriverCluster.keepsReads (D : DriverCluster S) (e : DriverEvent) : Bool :=
  match e with
  | .turn (.deliver j _) =>
    match D.nodes.sent[j]? with
    | some (.request _ (.installSnapshot peer request) _) =>
      (D.drivers.get? peer).all fun d => d.awaitingApply.all fun w =>
        w.expectedTerm.isSome || decide (request.term < d.node.hard.currentTerm) ||
          decide (request.lastIncludedIndex < w.index)
    | _ => true
  | _ => true

namespace DriverRun

variable {r : DriverRun M} {chain : ℕ → AState} {k : ℕ} {id : NodeId} {action : DriverAction}
  {call : Call} {origin : Option Packet} {d d₁ d₂ d' : RaftDriver S} {m₁ m : Member}

/-- No snapshot ever jumps over a read that waits. -/
def KeepsReads (r : DriverRun M) : Prop :=
  ∀ k < r.events.length, (r.events[k]?).all (fun e => (r.state k).keepsReads e) = true

instance (r : DriverRun M) : Decidable r.KeepsReads :=
  inferInstanceAs (Decidable (∀ k < r.events.length, _ = true))

theorem KeepsReads.apply (h : r.KeepsReads) {e : DriverEvent} (he : r.events[k]? = some e) :
    (r.state k).keepsReads e = true := by
  obtain ⟨hlt, -⟩ := List.getElem?_eq_some_iff.1 he
  simpa [he] using h k hlt

variable (h : r.Began k id action call origin d d₁ m₁)

include h

variable (hc : r.nodeRun.Refines chain)

include hc

theorem Began.proposed {command : Bytes} {now : Instant} {outs : List Outbound}
    (hp : d.node.begin.propose command now = (d₁.node, .ok outs)) :
    d₁.node.hard = d.node.hard ∧ d₁.node.lastLogIndex = d.node.lastLogIndex + 1 ∧
      d₁.node.log.db.get (d.node.lastLogIndex + 1) =
        some (LogEntry.new d.node.hard.currentTerm (d.node.lastLogIndex + 1) command) := by
  obtain ⟨m, hm, hnode, -⟩ := has_node hc h.before
  have hmem := hc.member hm
  rw [← hnode] at hp ⊢
  exact (hmem.begin (hc.inv _) none).propose_log hmem.settled
    (r.nodeRun.within_state _ (id, m) (OrdMap.get?_eq_some.1 hm)).2 hp

theorem Began.installed (hlt : d₁.lastApplied < d₁.node.log.db.snapshotIndex) :
    ∃ j now src request covered, action = .deliver j now ∧
      (r.state k).nodes.sent[j]? = some (.request src (.installSnapshot id request) covered) ∧
      d.node.hard.currentTerm ≤ request.term ∧
      request.lastIncludedIndex = d₁.node.log.db.snapshotIndex := by
  obtain ⟨m, hm, hnode, happlied⟩ := has_node hc h.before
  have hmem := hc.member hm
  have hterm := (r.nodeRun.within_state _ (id, m) (OrdMap.get?_eq_some.1 hm)).1
  rw [hnode] at hterm
  have hlast := (handle_machine d (r.state k).clock action call).2
  have hrun := handle_node h.resolved d (r.state k).clock
  rw [h.handled] at hlast hrun
  have hlast : d₁.lastApplied = d.lastApplied := hlast
  have hrun : d₁.node = (d.node.begin.run call).node := hrun
  -- before the call the snapshot was within what is applied
  have hbefore : d.node.log.db.snapshotIndex ≤ d.lastApplied := by
    rw [happlied, ← hnode]
    exact hmem.node.dur.snapshot_le
  have heffect := d.node.begin.run_effect hterm call
  rw [hrun] at hlt ⊢
  have hr := h.resolved
  generalize d.node.begin.run call = effect at heffect hlt
  cases heffect with
  | steady _ snapshot same =>
    have hsame : effect.node.log.db.snapshotIndex = d.node.log.db.snapshotIndex := by
      rw [Db.snapshotIndex, Db.snapshotIndex, (snapshot.trans same.snapshot).last]
      rfl
    omega
  | @installed request now _ current _ snapshot =>
    obtain ⟨j, src, covered, haction, hget, -⟩ := Cluster.of_resolve_installSnapshot hr
    refine ⟨j, now, src, request, covered, ?_, hget, current, ?_⟩
    · cases action with
      | deliver => cases haction; rfl
      | _ => cases haction
    · rw [Db.snapshotIndex, snapshot.last]
      rfl
  | compacted info index _ snapshot =>
    have hsame : effect.node.log.db.snapshotIndex = d.node.commitIndex := by
      rw [Db.snapshotIndex, snapshot.last]
      exact index
    rw [hmem.node.commit.symm, hnode] at happlied
    omega

/-- **Catching up** leaves nobody waiting for what is applied. -/
theorem Began.beyond (hreads : (r.state k).keepsReads (.turn action) = true)
    (hd : d.Beyond) (hup : d₁.catchUp M = (d₂, .ok ())) : d₂.Beyond := by
  obtain ⟨hlog, hle⟩ := h.nodeLog hc (served hc k)
  obtain ⟨m, hm, hnode, happlied⟩ := has_node hc h.before
  have hhandled := RaftDriver.handled d (r.state k).clock action call
  have hlast := (handle_machine d (r.state k).clock action call).2
  rw [h.handled] at hhandled hlast
  refine catchUp_induct hlog hle hup RaftDriver.Beyond ?_ ?_ ?_
  · -- a jump answers the proposals it passes, and passes no read
    intro hlt info blob _ hindex w hw
    obtain ⟨hw, hverdict⟩ := mem_awaitingApply_resolveWaiters.1 hw
    obtain ⟨j, now, src, request, covered, rfl, hget, hcurrent, hrequest⟩ := h.installed hc hlt
    have hwaits : d₁.awaitingApply = d.awaitingApply := by
      cases hhandled with
      | plain waiters => exact waiters
      | reading _ waiters => exact waiters
      | proposing asked => cases asked
    have hkeep : w.expectedTerm.isSome = true ∨ request.lastIncludedIndex < w.index := by
      simp only [DriverCluster.keepsReads, hget] at hreads
      rw [show (r.state k).drivers.get? id = some d from h.before] at hreads
      have hall := all_eq_true.1 hreads w (hwaits ▸ hw)
      simp only [Bool.or_eq_true, decide_eq_true_eq] at hall
      rcases hall with (hsome | hstale) | hbeyond
      · exact .inl hsome
      · exact absurd hcurrent (Nat.not_le.2 hstale)
      · exact .inr hbeyond
    show info.lastIncludedIndex < w.index
    unfold jumpVerdict at hverdict
    split at hverdict
    · cases hverdict
    rename_i hnot
    rcases hkeep with hkeep | hkeep
    · exact Nat.not_le.1 fun hle => hnot ⟨hle, hkeep⟩
    · omega
  · -- a new proposal waits for an entry that was not there before
    intro _
    cases hhandled with
    | plain waiters =>
      rw [RaftDriver.Beyond, waiters, hlast]
      exact hd
    | reading _ waiters =>
      rw [RaftDriver.Beyond, waiters, hlast]
      exact hd
    | proposing _ proposed waiters =>
      obtain ⟨-, hnext, -⟩ := h.proposed hc proposed
      have hlen := (hc.inv (r.moment k)).commit_le id
      rw [← (hc.member hm).node.lastLogIndex (hc.inv _), hnode, ← happlied] at hlen
      rw [RaftDriver.Beyond, waiters, hlast]
      intro w hw
      rcases mem_append.1 hw with hw | hw
      · exact hd w hw
      rw [mem_singleton.1 hw, hnext]
      show d.lastApplied < d.node.lastLogIndex + 1
      omega
  · intro d' e _ _ _ _ hd'
    exact hd'.applyEntry e

theorem Began.minds
    (hd : d.Minds w) (hup : d₁.catchUp M = (d₂, .ok ())) : d₂.Minds w := by
  obtain ⟨hlog, hle⟩ := h.nodeLog hc (served hc k)
  have hhandled := RaftDriver.handled d (r.state k).clock action call
  rw [h.handled] at hhandled
  have hd₁ : d₁.Minds w := hd.handled hhandled
  refine catchUp_induct hlog hle hup (RaftDriver.Minds w) ?_ (fun _ => hd₁) ?_
  · intro _ info blob _ _
    exact RaftDriver.Minds.resolveWaiters hd₁ _
  · intro d' e _ _ _ _ hd'
    exact RaftDriver.Minds.resolveWaiters hd' _

omit h

theorem beyond (hreads : r.KeepsReads) (hd : r.Has k id d) :
    d.Beyond := by
  induction k generalizing id d with
  | zero =>
    obtain ⟨m, -, rfl⟩ := Option.map_eq_some_iff.1 ((get?_init _ _ id).symm.trans hd)
    exact forall_mem_nil _
  | succ k ih =>
    rcases became hc hd with hsame | hbecame
    · exact ih hsame
    cases hbecame with
    | turned event began caughtUp =>
      have hup := began.beyond hc (hreads.apply event) (ih began.before) caughtUp
      exact settled_rule RaftDriver.Beyond (fun d read hd => hd.settleRead read)
        _ _ hup
    | _ => exact forall_mem_nil _

theorem minds {k' : ℕ} (hk : k ≤ k')
    (hup : ∀ j, k ≤ j → j < k' → ¬ r.CrashesAt j id) (hd : r.Has k id d) (hw : w ∈ d.awaitingApply)
    (hd' : r.Has k' id d') : d'.Minds w := by
  induction k', hk using Nat.le_induction generalizing d' with
  | base =>
    obtain rfl := Option.some.inj (hd.symm.trans hd')
    exact .inl hw
  | succ k' hk ih =>
    have hup' : ∀ j, k ≤ j → j < k' → ¬ r.CrashesAt j id := fun j hj hj' => hup j hj (by omega)
    have hcrash := hup k' hk (by omega)
    rcases became hc hd' with hsame | hbecame
    · exact ih hup' hsame
    cases hbecame with
    | turned event began caughtUp =>
      have hcaught := began.minds hc (ih hup' began.before) caughtUp
      exact settled_rule (RaftDriver.Minds w)
        (fun d read hd => hd.settleRead read) _ _ hcaught
    | crashed event resolved =>
      refine absurd ((crashesAt_iff event).2 ?_) hcrash
      simp [DriverCluster.crashes, resolved]
    | crashedLater event began =>
      refine absurd ((crashesAt_iff event).2 ?_) hcrash
      simp [DriverCluster.crashes, began.resolved]

end DriverRun

/-- **Nobody waits in vain**, as long as no snapshot jumps over a read that waits:
after every event all who wait do so for an index that is not applied yet, and
whoever's index has been applied or passed over has been answered. -/
theorem waiters_beyond_applied (r : DriverRun M) (hreads : r.KeepsReads) {k : ℕ} {id : NodeId}
    {d : RaftDriver S} (hd : r.Has k id d) : (∀ w ∈ d.awaitingApply, d.lastApplied < w.index) ∧
      ∀ k' d' w, k ≤ k' → (∀ j, k ≤ j → j < k' → ¬ r.CrashesAt j id) → r.Has k' id d' →
        w ∈ d.awaitingApply → w.index ≤ d'.lastApplied →
        ∃ result, (w.sender, result) ∈ d'.answers := by
  obtain ⟨chain, hc⟩ := r.nodeRun.exists_refines
  refine ⟨DriverRun.beyond hc hreads hd, fun k' d' w hk hup hd' hw hle => ?_⟩
  rcases DriverRun.minds hc hk hup hd hw hd' with hwaits | hanswered
  · exact absurd (DriverRun.beyond hc hreads hd' w hwaits) (Nat.not_lt.2 hle)
  · exact hanswered

open Sample

theorem waiters_beyond_applied_sample : ∃ d d' w result, driverRun.Has 4 Sample.a d ∧
    driverRun.Has 6 Sample.a d' ∧ w ∈ d.awaitingApply ∧ d.lastApplied < w.index ∧
    (w.sender, result) ∈ d'.answers := by
  obtain ⟨d, hd, hp⟩ := driverRun.exists_has 4 Sample.a
    (fun d => decide (d.awaitingApply = [⟨2, some 1, 3⟩])) (by decide +kernel)
  obtain ⟨d', hd', hp'⟩ := driverRun.exists_has 6 Sample.a
    (fun d => decide (2 ≤ d.lastApplied)) (by decide +kernel)
  have hw : (⟨2, some 1, 3⟩ : AppliedWaiter) ∈ d.awaitingApply := by
    rw [of_decide_eq_true hp]
    exact mem_singleton_self _
  obtain ⟨hbeyond, hanswered⟩ := waiters_beyond_applied driverRun (by decide +kernel) hd
  obtain ⟨result, hresult⟩ := hanswered 6 d' _ (by decide) (by decide +kernel) hd' hw
    (of_decide_eq_true hp')
  exact ⟨d, d', _, result, hd, hd', hw, hbeyond _ hw, hresult⟩

namespace Sample

/-- `a`, elected again with an entry that nobody else holds, confirms a read at
index 2 with a reply of `b` that turns its entries down.  Then `c` is elected, has
two entries of its own committed and compacts them away, and `a` gets its
snapshot. -/
def jumpedRun : DriverRun machine where
  voters := voters
  starts := starts
  events := [timer a 1000, receive 0 1001, receive 2 1002, timer c 2000, timer c 3000,
    receive 4 3001, receive 9 3002, timer a 5000, receive 10 5001, receive 12 5002,
    ask a .readIndex 5003, receive 15 5004, receive 17 5005, timer c 6000, timer c 8000,
    receive 22 8001, receive 23 8002, ask c (.propose [7]) 8003, receive 27 8004,
    receive 28 8005, ask c (.compact [7]) 8006, timer c 8060, receive 29 8061]
  within := by decide +kernel

end Sample

/-- **A read is stranded** by a snapshot that jumps over it: `a` has applied index 2,
and its read still waits for index 2. -/
theorem read_stranded_by_snapshot : ∃ d w, jumpedRun.Has 23 Sample.a d ∧
    w ∈ d.awaitingApply ∧ w.index ≤ d.lastApplied ∧ ∀ result, (w.sender, result) ∉ d.answers := by
  obtain ⟨d, hd, hp⟩ := jumpedRun.exists_has 23 Sample.a
    (fun d => decide (d.awaitingApply = [⟨2, none, 10⟩] ∧ d.lastApplied = 2) &&
      d.answers.isEmpty) (by decide +kernel)
  rw [Bool.and_eq_true, decide_eq_true_eq, List.isEmpty_iff] at hp
  obtain ⟨⟨hw, happlied⟩, hanswers⟩ := hp
  refine ⟨d, ⟨2, none, 10⟩, hd, by rw [hw]; exact mem_singleton_self _, by rw [happlied], ?_⟩
  rw [hanswers]
  exact fun result => not_mem_nil

end Brokkr.Raft
