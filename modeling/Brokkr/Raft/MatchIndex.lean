import Brokkr.Raft.Safety
import Brokkr.Raft.Reads.Calls

/-!
# What a leader believes of its peers

`matchIndex` is what a leader believes a peer to hold.  The reply to an
`InstallSnapshot` carries only a term: `handleInstallSnapshotResponse` credits the peer
with the snapshot the leader has when it arrives.  That is too much if the leader has
compacted its log since the request, and if the peer has refused the request as one of
an earlier term, in the term the same leader has been elected in again.  Apart from such
replies a peer holds what it is credited with, unless it has followed a later leader that
made it drop what was not committed.

* `matchIndex_replicated` — the peer holds it, index by index, snapshots included.
* `matchIndex_beyond_replicated` — the two replies that are credited with too much, and a
  leader that has been superseded.
-/

namespace Brokkr.Raft

open Consensus

/-- Does `peer` durably hold index `i`: in its log, with the leader's term there,
or covered by its snapshot? -/
def replicated (leader peer : Member) (i : ℕ) : Bool :=
  decide (i ≤ peer.node.snapshotIndex) ||
    match peer.node.log.db.get i with
    | some e => decide ((leader.entryAt i).map LogEntry.term = some e.term)
    | none => false

/-- What a leader believes a peer to hold. -/
def RaftNode.matchOf (n : RaftNode) (peer : NodeId) : ℕ :=
  match n.role with
  | .leader state => (state.matchIndex.get? peer).getD 0
  | _ => 0

open Sample

section

variable {voters : OrdSet NodeId} {a : AState} {id p : NodeId} {leader peer : Member} {i : ℕ}

theorem replicated_of_entryAt_eq (h : MemberRel voters a p peer) {e : LogEntry}
    (hl : leader.entryAt i = some e) (hp : peer.entryAt i = some e) :
    replicated leader peer i = true := by
  unfold replicated
  rw [h.node.snapshotIndex_eq]
  unfold Member.entryAt at hp
  split at hp
  · rename_i hle
    simp [hle]
  · rename_i hgt
    simp [hgt, hp, hl]

theorem acked_held (hi : Inv (rules voters) a) {t : ℕ}
    (hkept : a.term p ≤ t ∨ a.CommittedPrefix t ((a.llog t).take i)) (hack : i ≤ a.acked p t) :
    (a.llog t).take i <+: a.log p := by
  rcases hi.log_kept p t i hack with h | ⟨u, htu, hu, hleader, hlost⟩
  · exact h
  rcases hkept with hterm | hcommitted
  · omega
  · exact absurd (hi.committed_llog (hcommitted.mono htu.le List.prefix_rfl) hleader) hlost

/-- Does the event hand leader `id` a reply of `p` to an `InstallSnapshot` that it takes for
more than it is: a refusal, or the reply to an earlier snapshot than its own? -/
def Cluster.miscredits (c : Cluster) (id p : NodeId) : Event → Bool
  | .run (.deliver j _) =>
    match c.sent[j]?, c.members.get? id with
    | some (.snapshotReply src dst request response), some m =>
      decide (src = p ∧ dst = id) && m.node.isLeader &&
        decide (response.term = m.node.hard.currentTerm) &&
        (decide (request.term ≠ response.term) ||
          decide (request.lastIncludedIndex < m.node.snapshotIndex))
    | _, _ => false
  | _ => false

/-- What leader `id` believes of `p`, `p` has acknowledged in the leader's term. -/
structure Truthful (id p : NodeId) (a : AState) (c : Cluster) : Prop where
  matched : ∀ {m state i}, c.members.get? id = some m → m.node.role = .leader state →
    state.matchIndex.get? p = some i → i ≤ a.acked p m.node.hard.currentTerm

variable {a' : AState} {c : Cluster} {m : Member}

theorem ClusterRel.acked_of_credits (h : ClusterRel a c) {action : Action} {call : Call}
    {origin : Option Packet} (hr : c.resolve action = some (id, call, origin))
    (hm : c.members.get? id = some m) (hcred : c.miscredits id p (.run action) = false)
    (hcall : call.Credits m.node.begin p i) : i ≤ a.acked p m.node.hard.currentTerm := by
  cases call with
  | appendEntriesResponse src response now =>
    obtain ⟨rfl, hsuccess, hterm, rfl⟩ := hcall
    obtain ⟨j, request, -, hj⟩ := Cluster.of_resolve_appendEntriesResponse hr
    have hreply : AppendReplyOk a p response := h.sent _ (List.mem_of_getElem? hj)
    exact (hreply.matched hsuccess).trans_eq (congrArg (a.acked p) hterm)
  | installSnapshotResponse src response now =>
    obtain ⟨rfl, hleader, hterm, rfl⟩ := hcall
    obtain ⟨j, request, rfl, hj⟩ := Cluster.of_resolve_installSnapshotResponse hr
    have hreply : InstallReplyOk a p request response := h.sent _ (List.mem_of_getElem? hj)
    have hlead : m.node.isLeader = true := hleader
    have hcur : response.term = m.node.hard.currentTerm := hterm
    simp only [Cluster.miscredits, hj, hm, hlead, hcur, and_self, decide_true, Bool.true_and,
      Bool.or_eq_false_iff, decide_eq_false_iff_not, Decidable.not_not, Nat.not_lt] at hcred
    obtain ⟨hsame, hindex⟩ := hcred
    rw [← hsame]
    exact hindex.trans (hreply (hcur.trans hsame.symm))
  | _ => exact hcall.elim

/-- **One event** keeps what the leader believes true. -/
theorem Truthful.step {e : Event} (h : Truthful id p a c) (hrel : ClusterRel a c)
    (hw : c.Within) (hg : Grows a a') (hcred : c.miscredits id p e = false) :
    Truthful id p a' (c.step e) := by
  have hs := c.stepped e
  generalize c.step e = c' at hs
  constructor
  intro m' state' i hm' hrole hget
  cases hs with
  | idle => exact (h.matched hm' hrole hget).trans (hg.acked _ _)
  | @ran action id' m call origin hr hm =>
    rcases OrdMap.of_get?_insert hm' with ⟨rfl, rfl⟩ | ⟨-, hother⟩
    · rcases Nat.eq_zero_or_pos i with rfl | hpos
      · exact Nat.zero_le _
      have heffect := m.node.begin.run_effect (hw (id, m) (OrdMap.get?_eq_some.1 hm)).1 call
      obtain ⟨hterm, hbefore⟩ := heffect.believed hrole hget hpos
      refine le_trans ?_ (hg.acked _ _)
      rw [hterm]
      rcases hbefore with ⟨state, hrole₀, hget₀⟩ | hcall
      · exact h.matched hm hrole₀ hget₀
      · exact hrel.acked_of_credits hr hm hcred hcall
    · exact (h.matched hother hrole hget).trans (hg.acked _ _)
  | crashed =>
    rcases OrdMap.of_get?_insert hm' with ⟨rfl, rfl⟩ | ⟨-, hother⟩
    -- a node restarts as a follower
    · cases hrole
    · exact (h.matched hother hrole hget).trans (hg.acked _ _)

end

/-- Does the event after moment `k` hand leader `id` a reply it takes for more than it is? -/
def Run.MiscreditsAt (r : Run) (id p : NodeId) (k : ℕ) : Prop :=
  (r.events[k]?).any (fun e => (r.state k).miscredits id p e) = true

instance (r : Run) (id p : NodeId) (k : ℕ) : Decidable (r.MiscreditsAt id p k) :=
  inferInstanceAs (Decidable (_ = true))

section

variable {r : Run} {k : ℕ} {id p : NodeId} {leader peer : Member} {i : ℕ}

theorem Run.Refines.truthful {chain : ℕ → AState} (hc : r.Refines chain)
    (hcred : ∀ j < k, ¬ r.MiscreditsAt id p j) : Truthful id p (chain k) (r.state k) := by
  induction k with
  | zero =>
    constructor
    intro m state i hm hrole
    -- every node starts as a follower
    obtain ⟨s, -, -, rfl⟩ := Cluster.get?_init hm
    cases hrole
  | succ k ih =>
    have ih := ih fun j hj => hcred j (by omega)
    cases he : r.events[k]? with
    | none =>
      rw [r.state_of_le (List.getElem?_eq_none_iff.1 he), hc.idle he]
      exact ih
    | some e =>
      have hthis := hcred k (Nat.lt_succ_self k)
      rw [Run.MiscreditsAt, he, Option.any_some, Bool.not_eq_true] at hthis
      rw [r.state_succ he]
      exact ih.step (hc.rel k) (r.within_state k) (hc.moved he).grows hthis

/-- **Replication truth.**  As long as no reply to an `InstallSnapshot` is taken for more
than it is, a peer holds every index up to what the leader believes: while the peer is in
no later term, and whatever its term if the leader has committed the index. -/
theorem matchIndex_replicated (hcred : ∀ j < k, ¬ r.MiscreditsAt id p j)
    (hl : r.Has k id leader) (hp : r.Has k p peer) (hleader : leader.node.isLeader = true)
    (hkept : peer.node.hard.currentTerm ≤ leader.node.hard.currentTerm ∨
      i ≤ leader.node.commitIndex)
    (h0 : 0 < i) (hi : i ≤ leader.node.matchOf p) :
    replicated leader peer i = true ∧ peer.entryAt i = leader.entryAt i := by
  obtain ⟨chain, hc⟩ := r.exists_refines
  have hrl := hc.member hl
  have hrp := hc.member hp
  have hinv := hc.inv k
  obtain ⟨-, hlog⟩ := hrl.elected hinv hleader
  have hack : i ≤ (chain k).acked p leader.node.hard.currentTerm := by
    unfold RaftNode.matchOf at hi
    split at hi
    · rename_i state hrole
      cases hget : state.matchIndex.get? p with
      | none =>
        rw [hget, Option.getD_none] at hi
        omega
      | some =>
        rw [hget, Option.getD_some] at hi
        exact hi.trans ((hc.truthful hcred).matched hl hrole hget)
    · omega
  have hheld : ((chain k).log id).take i <+: (chain k).log p := by
    rw [hlog]
    refine acked_held hinv ?_ hack
    rcases hkept with hterm | hcommit
    · exact .inl (hrp.node.currentTerm ▸ hterm)
    · have hcom := hinv.commit_committed id
      rw [← hrl.node.currentTerm, hlog, ← hrl.node.commit] at hcom
      exact .inr (hcom.mono le_rfl (List.take_prefix_take_left hcommit))
  have hlen : i ≤ ((chain k).log id).length := by
    rw [hlog]
    exact hack.trans (hinv.acked_le p _)
  have hget := getElem?_eq_of_comparable (Or.inl hheld) (j := i - 1)
    (by rw [List.length_take]; omega)
    (lt_of_lt_of_le (by rw [List.length_take]; omega) hheld.length_le)
  rw [List.getElem?_take_of_lt (by omega)] at hget
  have heq : peer.entryAt i = leader.entryAt i := by
    rw [hrl.entryAt_eq hinv h0, hrp.entryAt_eq hinv h0, hget]
  have hsome : leader.entryAt i = some ((chain k).log id)[i - 1] := by
    rw [hrl.entryAt_eq hinv h0]
    exact List.getElem?_eq_getElem (by omega)
  exact ⟨replicated_of_entryAt_eq hrp hsome (heq.trans hsome), heq⟩

/-- `a` commits index 1 with `c`, compacts it away and sends the snapshot to `b`, which
installs it; the reply arrives before anything else happens. -/
def Sample.inTimeRun : Run where
  voters := voters
  starts := starts
  events := [tick a 1000, deliver 0 1001, deliver 2 1002, deliver 4 1003, deliver 5 1004,
    .run (.op a (.compact [1])), tick a 1060, deliver 6 1061, deliver 8 1062]
  within := by decide +kernel

/-- There `b` rightly has the credit of the snapshot, and of nothing else. -/
theorem matchIndex_replicated_sample : ∃ leader peer, inTimeRun.Has 9 Sample.a leader ∧
    inTimeRun.Has 9 b peer ∧ leader.node.matchOf b = 1 ∧ leader.node.snapshotIndex = 1 ∧
    replicated leader peer 1 = true := by
  obtain ⟨leader, hl, hp₁⟩ := inTimeRun.exists_has 9 Sample.a
    (fun m => m.node.isLeader && decide (m.node.matchOf b = 1 ∧ m.node.snapshotIndex = 1 ∧
      m.node.commitIndex = 1)) (by decide +kernel)
  obtain ⟨peer, hp, -⟩ := inTimeRun.exists_has 9 b (fun _ => true) (by decide +kernel)
  rw [Bool.and_eq_true, decide_eq_true_eq] at hp₁
  obtain ⟨hleader, hmatch, hsnap, hcommit⟩ := hp₁
  refine ⟨leader, peer, hl, hp, hmatch, hsnap, ?_⟩
  exact (matchIndex_replicated (by decide +kernel) hl hp hleader (.inr hcommit.ge) one_pos
    hmatch.ge).1

end

/-! ## Believing too much -/

namespace Sample

/-- `a` commits index 1 with `c`, compacts it away and sends the snapshot to `b`,
which installs it.  Before the reply arrives `a` commits index 2 and compacts it,
too. -/
def lateReplyRun : Run where
  voters := voters
  starts := starts
  events := [tick a 1000, deliver 0 1001, deliver 2 1002, deliver 4 1003, deliver 5 1004,
    .run (.op a (.compact [1])), tick a 1060, deliver 6 1061,
    .run (.op a (.propose [7] (Duration.fromMillis 1062))), deliver 10 1063, deliver 11 1064,
    .run (.op a (.compact [2])), deliver 8 1065]
  within := by decide +kernel

/-- The snapshot is still on its way when `b` starts an election.  `a` steps down, is
elected again with the vote of `b`, and only then is the snapshot delivered: `b` refuses
it, as one of an earlier term. -/
def refusedRun : Run where
  voters := voters
  starts := starts
  events := [tick a 1000, deliver 0 1001, deliver 2 1002, deliver 4 1003, deliver 5 1004,
    .run (.op a (.compact [1])), tick a 1060, tick b 2000, deliver 3 2001, deliver 10 2002,
    tick a 4000, deliver 11 4001, deliver 13 4002, deliver 6 4003, deliver 16 4004]
  within := by decide +kernel

/-- Five voters.  `b` acknowledges the first entry of `a`, which is not committed;
then `c` is elected with the votes of `d` and `e`, and `b` follows it. -/
def deposedRun : Run where
  voters := OrdSet.ofList [a, b, c, d, e]
  starts := starts ++ [⟨d, .seedFromU64 4, {}, 0⟩, ⟨e, .seedFromU64 5, {}, 0⟩]
  events := [tick a 1000, deliver 0 1001, deliver 1 1002, deliver 4 1003, deliver 5 1004,
    deliver 6 1005, deliver 10 1006, tick c 2000, deliver 13 2001, deliver 14 2002,
    deliver 15 2003, deliver 16 2004, deliver 18 2005]
  within := by decide +kernel

end Sample

/-- **What a leader believes is not always so.**  In one term with the peer, index 2 after
a compaction between request and reply, and index 1 after a refusal; and an index of its
own log when the peer has followed a later leader. -/
theorem matchIndex_beyond_replicated :
    (∃ leader peer, lateReplyRun.Has 13 Sample.a leader ∧ lateReplyRun.Has 13 b peer ∧
      leader.node.isLeader = true ∧ leader.node.matchOf b = 2 ∧
      peer.node.hard.currentTerm = leader.node.hard.currentTerm ∧
      replicated leader peer 2 = false) ∧
    (∃ leader peer, refusedRun.Has 15 Sample.a leader ∧ refusedRun.Has 15 b peer ∧
      leader.node.isLeader = true ∧ leader.node.matchOf b = 1 ∧
      peer.node.hard.currentTerm = leader.node.hard.currentTerm ∧
      replicated leader peer 1 = false) ∧
    (∃ leader peer, deposedRun.Has 13 Sample.a leader ∧ deposedRun.Has 13 b peer ∧
      leader.node.isLeader = true ∧ leader.node.snapshotIndex = 0 ∧
      leader.node.matchOf b = 1 ∧ replicated leader peer 1 = false) := by
  refine ⟨?_, ?_, ?_⟩
  · obtain ⟨peer, hp, hp₂⟩ := lateReplyRun.exists_has 13 b
      (fun m => decide (m.node.hard.currentTerm = 1 ∧ m.node.snapshotIndex = 1 ∧
        m.node.log.db.get 2 = none)) (by decide +kernel)
    obtain ⟨leader, hl, hp₁⟩ := lateReplyRun.exists_has 13 Sample.a
      (fun m => m.node.isLeader && decide (m.node.hard.currentTerm = 1 ∧
        m.node.matchOf b = 2)) (by decide +kernel)
    rw [Bool.and_eq_true, decide_eq_true_eq] at hp₁
    obtain ⟨hleader, hterm, hmatch⟩ := hp₁
    obtain ⟨hterm', hsnap, hnone⟩ := of_decide_eq_true hp₂
    refine ⟨leader, peer, hl, hp, hleader, hmatch, hterm'.trans hterm.symm, ?_⟩
    simp [replicated, hsnap, hnone]
  · obtain ⟨peer, hp, hp₂⟩ := refusedRun.exists_has 15 b
      (fun m => decide (m.node.hard.currentTerm = 3 ∧ m.node.snapshotIndex = 0 ∧
        m.node.log.db.get 1 = none)) (by decide +kernel)
    obtain ⟨leader, hl, hp₁⟩ := refusedRun.exists_has 15 Sample.a
      (fun m => m.node.isLeader && decide (m.node.hard.currentTerm = 3 ∧
        m.node.matchOf b = 1)) (by decide +kernel)
    rw [Bool.and_eq_true, decide_eq_true_eq] at hp₁
    obtain ⟨hleader, hterm, hmatch⟩ := hp₁
    obtain ⟨hterm', hsnap, hnone⟩ := of_decide_eq_true hp₂
    refine ⟨leader, peer, hl, hp, hleader, hmatch, hterm'.trans hterm.symm, ?_⟩
    simp [replicated, hsnap, hnone]
  · obtain ⟨peer, hp, hp₂⟩ := deposedRun.exists_has 13 b
      (fun m => decide (m.node.snapshotIndex = 0 ∧
        (m.node.log.db.get 1).map LogEntry.term = some 2)) (by decide +kernel)
    obtain ⟨leader, hl, hp₁⟩ := deposedRun.exists_has 13 Sample.a
      (fun m => m.node.isLeader && decide (m.node.snapshotIndex = 0 ∧
        m.node.matchOf b = 1 ∧ (m.entryAt 1).map LogEntry.term = some 1)) (by decide +kernel)
    rw [Bool.and_eq_true, decide_eq_true_eq] at hp₁
    obtain ⟨hleader, hsnap, hmatch, hmine⟩ := hp₁
    obtain ⟨hsnap', htheirs⟩ := of_decide_eq_true hp₂
    obtain ⟨e, he, hterm⟩ := Option.map_eq_some_iff.1 htheirs
    refine ⟨leader, peer, hl, hp, hleader, hsnap, hmatch, ?_⟩
    simp [replicated, hsnap', he, hterm, hmine]

end Brokkr.Raft
